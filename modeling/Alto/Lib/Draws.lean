import Mathlib

/-!
# Programs that draw from a list

A program with a state that takes values from a list, such as the results of a random number
generator. The list stands for all that will be drawn; a program that wants more than it holds is
`pending`, in the state in which it waits. A loop runs as long as there is something to draw: a loop
whose rounds all draw is the same with any greater bound (`loop_eq`).

`Triple` says what holds whatever is drawn, and `May` what can be reached by drawing suitable values.
-/

namespace Alto.Lib

variable {R S A B L : Type}

/-- How a program ends: it returns a value and leaves the rest of the list, it throws, it waits for a
value, or its behaviour is undefined. -/
inductive Drawn (R S A : Type) where
  | returned (value : A) (state : S) (rest : List R)
  | threw (state : S)
  | pending (state : S)
  | undefined
deriving DecidableEq

/-- A program. -/
def Draws (R S A : Type) := S → List R → Drawn R S A

/-- What comes after a value that has been returned. -/
def Drawn.andThen (f : A → Draws R S B) : Drawn R S A → Drawn R S B
  | .returned a s rs => f a s rs
  | .threw s => .threw s
  | .pending s => .pending s
  | .undefined => .undefined

@[simp] theorem Drawn.returned_andThen (a : A) (s : S) (rs : List R) (f : A → Draws R S B) :
    (Drawn.returned a s rs).andThen f = f a s rs :=
  rfl

namespace Draws

instance : Monad (Draws R S) where
  pure a := fun s rs => .returned a s rs
  bind p f := fun s rs => (p s rs).andThen f

theorem bind_apply (p : Draws R S A) (f : A → Draws R S B) (s : S) (rs : List R) :
    (p >>= f) s rs = (p s rs).andThen f :=
  rfl

/-- The next value. -/
def draw : Draws R S R := fun s rs =>
  match rs with
  | [] => .pending s
  | r :: rs => .returned r s rs

def get : Draws R S S := fun s rs => .returned s s rs

def modify (f : S → S) : Draws R S Unit := fun s rs => .returned () (f s) rs

def throw : Draws R S A := fun s _ => .threw s

def undefined : Draws R S A := fun _ _ => .undefined

theorem andThen_pure (d : Drawn R S A) : d.andThen (pure : A → Draws R S A) = d := by
  cases d <;> rfl

theorem andThen_assoc (d : Drawn R S A) (f : A → Draws R S B) (g : B → Draws R S L) :
    (d.andThen f).andThen g = d.andThen fun a => f a >>= g := by
  cases d <;> rfl

instance : LawfulMonad (Draws R S) :=
  .mk' _ (fun p => funext fun s => funext fun rs => andThen_pure (p s rs)) (fun _ _ => rfl)
    fun p f g => funext fun s => funext fun rs => andThen_assoc (p s rs) f g

@[simp] theorem pure_apply (a : A) (s : S) (rs : List R) :
    (pure a : Draws R S A) s rs = .returned a s rs :=
  rfl

@[simp] theorem get_apply (s : S) (rs : List R) : (get : Draws R S S) s rs = .returned s s rs :=
  rfl

@[simp] theorem modify_apply (f : S → S) (s : S) (rs : List R) :
    (modify f : Draws R S Unit) s rs = .returned () (f s) rs :=
  rfl

/-- Round after round until one of them leaves the loop, where the local variables are passed on. -/
def rounds (body : L → Draws R S (L ⊕ A)) : Nat → L → Draws R S A
  | 0, _ => fun s _ => .pending s
  | fuel + 1, l => do
    match ← body l with
    | .inl l => rounds body fuel l
    | .inr a => pure a

/-- A loop, which takes no more rounds than there are values left to draw, and one. -/
def loop (body : L → Draws R S (L ⊕ A)) (l : L) : Draws R S A := fun s rs =>
  rounds body (rs.length + 1) l s rs

end Draws

/-! ## Whatever is drawn -/

/-- What the end of a program satisfies. It is always defined. -/
def Drawn.Holds (Q : A → S → Prop) (E I : S → Prop) : Drawn R S A → Prop
  | .returned a s _ => Q a s
  | .threw s => E s
  | .pending s => I s
  | .undefined => False

instance (Q : A → S → Prop) (E I : S → Prop) [∀ a s, Decidable (Q a s)] [DecidablePred E]
    [DecidablePred I] (d : Drawn R S A) : Decidable (d.Holds Q E I) :=
  match d with
  | .returned a s _ => inferInstanceAs (Decidable (Q a s))
  | .threw s => inferInstanceAs (Decidable (E s))
  | .pending s => inferInstanceAs (Decidable (I s))
  | .undefined => inferInstanceAs (Decidable False)

theorem Drawn.Holds.imp {Q Q' : A → S → Prop} {E E' I I' : S → Prop} {d : Drawn R S A}
    (h : d.Holds Q E I) (hQ : ∀ a s, Q a s → Q' a s) (hE : ∀ s, E s → E' s)
    (hI : ∀ s, I s → I' s) : d.Holds Q' E' I' := by
  cases d with
  | returned a s rest => exact hQ a s h
  | threw s => exact hE s h
  | pending s => exact hI s h
  | undefined => exact h

theorem Drawn.Holds.and {Q Q' : A → S → Prop} {E E' I I' : S → Prop} {d : Drawn R S A}
    (h : d.Holds Q E I) (h' : d.Holds Q' E' I') :
    d.Holds (fun a s => Q a s ∧ Q' a s) (fun s => E s ∧ E' s) (fun s => I s ∧ I' s) := by
  cases d with
  | returned a s rest => exact ⟨h, h'⟩
  | threw s => exact ⟨h, h'⟩
  | pending s => exact ⟨h, h'⟩
  | undefined => exact h

theorem Drawn.Holds.andThen {M : A → S → Prop} {f : A → Draws R S B} {Q : B → S → Prop}
    {E I : S → Prop} {d : Drawn R S A} (h : d.Holds M E I)
    (hf : ∀ a s rest, M a s → (f a s rest).Holds Q E I) : (d.andThen f).Holds Q E I := by
  cases d with
  | returned a s rest => exact hf a s rest h
  | threw s => exact h
  | pending s => exact h
  | undefined => exact h

/-- Whether a program has thrown. -/
def Drawn.hasThrown : Drawn R S A → Bool
  | .threw _ => true
  | _ => false

theorem Drawn.not_holds_of_hasThrown {Q : A → S → Prop} {I : S → Prop} {d : Drawn R S A}
    (h : d.hasThrown = true) : ¬ d.Holds Q (fun _ => False) I := by
  intro hholds
  cases d with
  | threw s => exact hholds
  | _ => cases h

/-- A program that has not come to its end. -/
def Drawn.Stops (E I : S → Prop) : Drawn R S A → Prop
  | .threw s => E s
  | .pending s => I s
  | _ => False

/-- A program stops if it cannot return. -/
theorem Drawn.Holds.stops {Q : A → S → Prop} {E I : S → Prop} {d : Drawn R S A} (h : d.Holds Q E I)
    (hQ : ∀ a s, ¬ Q a s) : d.Stops E I := by
  cases d with
  | returned a s rest => exact hQ a s h
  | threw s => exact h
  | pending s => exact h
  | undefined => exact h

/-- A program that can stop outside does not satisfy this. -/
theorem Drawn.Stops.not_holds {Q : A → S → Prop} {E I E' I' : S → Prop} {d : Drawn R S A}
    (h : d.Stops E I) (hE : ∀ s, E s → ¬ E' s) (hI : ∀ s, I s → ¬ I' s) : ¬ d.Holds Q E' I' := by
  intro hholds
  cases d with
  | returned a s rest => exact h
  | threw s => exact hE s h hholds
  | pending s => exact hI s h hholds
  | undefined => exact h

namespace Draws

/-- Started where `P` holds the program returns where `Q` holds, throws where `E` holds and waits
where `I` holds. -/
def Triple (P : S → Prop) (p : Draws R S A) (Q : A → S → Prop) (E I : S → Prop) : Prop :=
  ∀ s rs, P s → (p s rs).Holds Q E I

variable {P P' : S → Prop} {Q Q' : A → S → Prop} {E E' I I' : S → Prop} {p : Draws R S A}

theorem Triple.imp (h : Triple P p Q E I) (hP : ∀ s, P' s → P s) (hQ : ∀ a s, Q a s → Q' a s)
    (hE : ∀ s, E s → E' s) (hI : ∀ s, I s → I' s) : Triple P' p Q' E' I' :=
  fun s rs hs => (h s rs (hP s hs)).imp hQ hE hI

theorem Triple.post (h : Triple P p Q E I) (hQ : ∀ a s, Q a s → Q' a s) : Triple P p Q' E I :=
  h.imp (fun _ => id) hQ (fun _ => id) (fun _ => id)

theorem triple_pure {a : A} (h : ∀ s, P s → Q a s) :
    Triple P (pure a : Draws R S A) Q E I :=
  fun s _ hs => h s hs

theorem holds_bind {M : A → S → Prop} {f : A → Draws R S B} {Q : B → S → Prop} {s : S} {rs : List R}
    (hp : (p s rs).Holds M E I) (hf : ∀ a s' rest, M a s' → (f a s' rest).Holds Q E I) :
    ((p >>= f) s rs).Holds Q E I :=
  hp.andThen hf

theorem Triple.bind {M : A → S → Prop} {f : A → Draws R S B} {Q : B → S → Prop}
    (hp : Triple P p M E I) (hf : ∀ a, Triple (M a) (f a) Q E I) : Triple P (p >>= f) Q E I :=
  fun s rs hs => holds_bind (hp s rs hs) fun a s' rest hm => hf a s' rest hm

theorem triple_draw {Q : R → S → Prop} (hQ : ∀ r s, P s → Q r s) (hI : ∀ s, P s → I s) :
    Triple P (draw : Draws R S R) Q E I := by
  intro s rs hs
  cases rs with
  | nil => exact hI s hs
  | cons r rs => exact hQ r s hs

/-- What every round keeps holds when the loop is left. -/
theorem triple_loop {body : L → Draws R S (L ⊕ A)} {J : L → S → Prop}
    (hbody : ∀ l, Triple (J l) (body l) (fun x s => x.elim (fun l' => J l' s) fun a => Q a s) E I)
    (hI : ∀ l s, J l s → I s) (l : L) : Triple (J l) (loop body l) Q E I := by
  have hrounds : ∀ fuel l, Triple (J l) (rounds body fuel l) Q E I := by
    intro fuel
    induction fuel with
    | zero => exact fun l s _ hs => hI l s hs
    | succ fuel ih =>
      intro l
      refine (hbody l).bind fun x => ?_
      cases x with
      | inl l' => exact ih l'
      | inr a => exact triple_pure fun _ hs => hs
  exact fun s rs hs => hrounds _ l s rs hs

/-! ## What is used up -/

/-- A program leaves no more than it finds, and less if it returns a value in `C`. -/
def Eats (C : A → Prop) (p : Draws R S A) : Prop :=
  ∀ s rs a s' rest, p s rs = .returned a s' rest →
    rest.length ≤ rs.length ∧ (C a → rest.length < rs.length)

variable {C : A → Prop}

theorem eats_pure {a : A} (h : ¬ C a) : Eats C (pure a : Draws R S A) := by
  rintro s rs _ _ _ ⟨⟩
  exact ⟨Nat.le_refl _, fun hc => absurd hc h⟩

theorem eats_draw (C : R → Prop) : Eats C (draw : Draws R S R) := by
  intro s rs r s' rest h
  cases rs with
  | nil => cases h
  | cons r rs =>
    cases h
    exact ⟨Nat.le_succ _, fun _ => Nat.lt_succ_self _⟩

theorem eats_get : Eats (fun _ => False) (get : Draws R S S) := by
  rintro s rs _ _ _ ⟨⟩
  exact ⟨Nat.le_refl _, False.elim⟩

theorem eats_modify (f : S → S) : Eats (fun _ => False) (modify f : Draws R S Unit) := by
  rintro s rs _ _ _ ⟨⟩
  exact ⟨Nat.le_refl _, False.elim⟩

theorem eats_throw (C : A → Prop) : Eats C (throw : Draws R S A) := by
  rintro s rs _ _ _ ⟨⟩

theorem eats_undefined (C : A → Prop) : Eats C (undefined : Draws R S A) := by
  rintro s rs _ _ _ ⟨⟩

theorem bind_eq_returned {f : A → Draws R S B} {s s' : S} {rs rest : List R} {b : B} :
    (p >>= f) s rs = .returned b s' rest ↔
      ∃ a t ts, p s rs = .returned a t ts ∧ f a t ts = .returned b s' rest := by
  rw [bind_apply]
  cases p s rs with
  | returned a t ts => simp [Drawn.andThen]
  | threw t => simp [Drawn.andThen]
  | pending t => simp [Drawn.andThen]
  | undefined => simp [Drawn.andThen]

/-- A sequence uses something up if one of its parts does. -/
theorem Eats.bind {f : A → Draws R S B} {D : B → Prop} {F : A → B → Prop} (hp : Eats C p)
    (hf : ∀ a, Eats (F a) (f a)) (hD : ∀ a b, D b → C a ∨ F a b) : Eats D (p >>= f) := by
  intro s rs b s' rest h
  obtain ⟨a, t, ts, ha, hb⟩ := bind_eq_returned.1 h
  obtain ⟨hle, hlt⟩ := hp _ _ _ _ _ ha
  obtain ⟨hle', hlt'⟩ := hf a _ _ _ _ _ hb
  refine ⟨hle'.trans hle, fun hb => ?_⟩
  rcases hD a b hb with hc | hc
  · exact hle'.trans_lt (hlt hc)
  · exact (hlt' hc).trans_le hle

theorem Eats.mono {D : A → Prop} (h : Eats C p) (hD : ∀ a, D a → C a) : Eats D p :=
  fun s rs a s' rest hr => ⟨(h s rs a s' rest hr).1, fun hd => (h s rs a s' rest hr).2 (hD a hd)⟩

theorem Eats.ite {c : Prop} [Decidable c] {q : Draws R S A} (hp : c → Eats C p) (hq : ¬ c → Eats C q) :
    Eats C (if c then p else q) := by
  split
  · next hc => exact hp hc
  · next hc => exact hq hc

/-- A loop that is left has used up what its last round has. -/
theorem eats_loop {body : L → Draws R S (L ⊕ A)}
    (h : ∀ l, Eats (fun x => ∃ a, x = .inr a ∧ C a) (body l)) (l : L) : Eats C (loop body l) := by
  have hrounds : ∀ fuel l, Eats C (rounds body fuel l) := by
    intro fuel
    induction fuel with
    | zero =>
      rintro l s rs _ _ _ ⟨⟩
    | succ fuel ih =>
      intro l s rs b s' rest hrun
      obtain ⟨x, t, ts, hx, hb⟩ := bind_eq_returned.1 hrun
      obtain ⟨hle, hlt⟩ := h l _ _ _ _ _ hx
      cases x with
      | inl l' =>
        obtain ⟨hle', hlt'⟩ := ih l' _ _ _ _ _ hb
        exact ⟨hle'.trans hle, fun hb => (hlt' hb).trans_le hle⟩
      | inr a =>
        cases hb
        exact ⟨hle, fun hc => hlt ⟨_, rfl, hc⟩⟩
  exact fun s rs => hrounds _ l s rs

/-- A round that goes on has drawn something. -/
def Advances (body : L → Draws R S (L ⊕ A)) : Prop :=
  ∀ l, Eats (fun x => x.isLeft = true) (body l)

section Loop

variable {body : L → Draws R S (L ⊕ A)}

theorem rounds_fuel (h : Advances body) (fuel : Nat) {fuel' : Nat} {l : L} {s : S} {rs : List R}
    (hfuel : rs.length < fuel) (hfuel' : rs.length < fuel') :
    rounds body fuel l s rs = rounds body fuel' l s rs := by
  induction fuel generalizing fuel' l s rs with
  | zero => cases hfuel
  | succ fuel ih =>
    cases fuel' with
    | zero => cases hfuel'
    | succ fuel' =>
      rw [rounds, rounds, bind_apply, bind_apply]
      cases hd : body l s rs with
      | returned x t ts =>
        cases x with
        | inl l' =>
          have hlt := (h l _ _ _ _ _ hd).2 rfl
          exact ih (by omega) (by omega)
        | inr a => rfl
      | threw t => rfl
      | pending t => rfl
      | undefined => rfl

/-- A loop is its first round, and the loop again if that goes on. -/
theorem loop_eq (h : Advances body) (l : L) : loop body l = (do
    match ← body l with
    | .inl l => loop body l
    | .inr a => pure a) := by
  funext s rs
  rw [loop, rounds, bind_apply, bind_apply]
  cases hd : body l s rs with
  | returned x t ts =>
    cases x with
    | inl l' => exact rounds_fuel h _ ((h l _ _ _ _ _ hd).2 rfl) (Nat.lt_succ_self _)
    | inr a => rfl
  | threw t => rfl
  | pending t => rfl
  | undefined => rfl

end Loop

/-! ## What can be drawn -/

/-- Started where `P` holds the program can return where `Q` holds. -/
def May (P : S → Prop) (p : Draws R S A) (Q : A → S → Prop) : Prop :=
  ∀ s, P s → ∃ rs a s', Q a s' ∧ ∀ rest, p s (rs ++ rest) = .returned a s' rest

/-- Started where `P` holds the program can throw where `E` holds, or wait where `I` holds. -/
def MayStop (P : S → Prop) (p : Draws R S A) (E I : S → Prop) : Prop :=
  ∀ s, P s → ∃ rs, (p s rs).Stops E I

theorem May.imp (h : May P p Q) (hP : ∀ s, P' s → P s) (hQ : ∀ a s, Q a s → Q' a s) :
    May P' p Q' := by
  intro s hs
  obtain ⟨rs, a, s', hq, hrun⟩ := h s (hP s hs)
  exact ⟨rs, a, s', hQ a s' hq, hrun⟩

/-- What can be reached is what holds of everything that is reached. -/
theorem May.and (h : May P p Q) (ht : Triple P' p Q' E I) :
    May (fun s => P s ∧ P' s) p (fun a s => Q a s ∧ Q' a s) := by
  rintro s ⟨hs, hs'⟩
  obtain ⟨rs, a, s', hq, hrun⟩ := h s hs
  have hholds := ht s (rs ++ []) hs'
  rw [hrun] at hholds
  exact ⟨rs, a, s', ⟨hq, hholds⟩, hrun⟩

theorem May.and_holds {s : S} (h : May (fun t => t = s) p Q)
    (hs : ∀ rs, (p s rs).Holds Q' E I) :
    May (fun t => t = s) p (fun a t => Q a t ∧ Q' a t) := by
  have ht : Triple (fun t => t = s) p Q' E I := fun _ rs ht => ht ▸ hs rs
  exact (h.and ht).imp (fun _ ht => ⟨ht, ht⟩) fun _ _ => id

theorem may_pure {a : A} (h : ∀ s, P s → Q a s) : May P (pure a : Draws R S A) Q :=
  fun s hs => ⟨[], a, s, h s hs, fun _ => rfl⟩

theorem may_draw {Q : R → S → Prop} (h : ∀ s, P s → ∃ r, Q r s) :
    May P (draw : Draws R S R) Q := by
  intro s hs
  obtain ⟨r, hr⟩ := h s hs
  exact ⟨[r], r, s, hr, fun _ => rfl⟩

theorem may_get {Q : S → S → Prop} (h : ∀ s, P s → Q s s) : May P (get : Draws R S S) Q :=
  fun s hs => ⟨[], s, s, h s hs, fun _ => rfl⟩

theorem may_modify {f : S → S} {Q : Unit → S → Prop} (h : ∀ s, P s → Q () (f s)) :
    May P (modify f : Draws R S Unit) Q :=
  fun s hs => ⟨[], (), f s, h s hs, fun _ => rfl⟩

theorem May.bind {M : A → S → Prop} {f : A → Draws R S B} {Q : B → S → Prop} (hp : May P p M)
    (hf : ∀ a, May (M a) (f a) Q) : May P (p >>= f) Q := by
  intro s hs
  obtain ⟨rs, a, t, hm, hrun⟩ := hp s hs
  obtain ⟨rs', b, s', hq, hrun'⟩ := hf a t hm
  refine ⟨rs ++ rs', b, s', hq, fun rest => ?_⟩
  rw [List.append_assoc]
  exact bind_eq_returned.2 ⟨a, t, _, hrun _, hrun' rest⟩

/-- A part that returns one result is left behind. -/
theorem may_bind_eq {a : A} {s t : S} {f : A → Draws R S B} {Q : B → S → Prop}
    (hp : ∀ rs, p s rs = .returned a t rs) (hf : May (fun u => u = t) (f a) Q) :
    May (fun u => u = s) (p >>= f) Q := by
  rintro _ rfl
  obtain ⟨rs, b, s', hq, hrun⟩ := hf t rfl
  exact ⟨rs, b, s', hq, fun rest => bind_eq_returned.2 ⟨a, t, _, hp _, hrun rest⟩⟩

/-- One part after the other. -/
theorem May.bind_at {M : A → S → Prop} {s : S} {f : A → Draws R S B} {Q : B → S → Prop}
    (hp : May (fun u => u = s) p M) (hf : ∀ a t, M a t → May (fun u => u = t) (f a) Q) :
    May (fun u => u = s) (p >>= f) Q :=
  hp.bind fun a t hm => hf a t hm t rfl

theorem MayStop.bind {f : A → Draws R S B} (hp : MayStop P p E I) : MayStop P (p >>= f) E I := by
  intro s hs
  obtain ⟨rs, hstops⟩ := hp s hs
  refine ⟨rs, ?_⟩
  rw [bind_apply]
  cases hd : p s rs with
  | returned a t rest =>
    rw [hd] at hstops
    exact hstops.elim
  | threw t =>
    rw [hd] at hstops
    exact hstops
  | pending t =>
    rw [hd] at hstops
    exact hstops
  | undefined =>
    rw [hd] at hstops
    exact hstops.elim

theorem May.bind_stop {M : A → S → Prop} {f : A → Draws R S B} (hp : May P p M)
    (hf : ∀ a, MayStop (M a) (f a) E I) : MayStop P (p >>= f) E I := by
  intro s hs
  obtain ⟨rs, a, t, hm, hrun⟩ := hp s hs
  obtain ⟨rs', hstops⟩ := hf a t hm
  refine ⟨rs ++ rs', ?_⟩
  rw [bind_apply, hrun]
  exact hstops

/-- A loop can be left if each round can bring it closer to its end. -/
theorem may_loop {body : L → Draws R S (L ⊕ A)} (hbody : Advances body) {J : L → S → Prop}
    (μ : L → S → Nat)
    (hround : ∀ l n, May (fun s => J l s ∧ μ l s = n) (body l)
      (fun x s => x.elim (fun l' => J l' s ∧ μ l' s < n) fun a => Q a s)) (l : L) :
    May (J l) (loop body l) Q := by
  have hloop : ∀ n l, May (fun s => J l s ∧ μ l s = n) (loop body l) Q := by
    intro n
    induction n using Nat.strongRecOn with
    | ind n ih =>
      intro l
      rw [loop_eq hbody]
      refine (hround l n).bind fun x => ?_
      cases x with
      | inl l' =>
        rintro s ⟨hj, hlt⟩
        exact ih _ hlt l' s ⟨hj, rfl⟩
      | inr a => exact may_pure fun _ hs => hs
  exact fun s hs => hloop _ l s ⟨hs, rfl⟩

/-- A loop can stop if each round can, or can bring the loop closer to a round that can. -/
theorem mayStop_loop {body : L → Draws R S (L ⊕ A)} (hbody : Advances body) {J : L → S → Prop}
    (μ : L → S → Nat)
    (hround : ∀ l n, MayStop (fun s => J l s ∧ μ l s = n) (body l) E I ∨
      May (fun s => J l s ∧ μ l s = n) (body l)
        (fun x s => ∃ l', x = .inl l' ∧ J l' s ∧ μ l' s < n)) (l : L) :
    MayStop (J l) (loop body l) E I := by
  have hloop : ∀ n l, MayStop (fun s => J l s ∧ μ l s = n) (loop body l) E I := by
    intro n
    induction n using Nat.strongRecOn with
    | ind n ih =>
      intro l
      rw [loop_eq hbody]
      rcases hround l n with hstop | hmay
      · exact hstop.bind
      · refine hmay.bind_stop fun x => ?_
        cases x with
        | inl l' =>
          rintro s ⟨_, ⟨⟩, hj, hlt⟩
          exact ih _ hlt l' s ⟨hj, rfl⟩
        | inr a =>
          rintro s ⟨_, h, -⟩
          cases h
  exact fun s hs => hloop _ l s ⟨hs, rfl⟩

end Draws

end Alto.Lib
