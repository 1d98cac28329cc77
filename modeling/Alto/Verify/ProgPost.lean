import Alto.Verify.ObjTree

/-!
# Postconditions of programs

`Prog.Post` says what holds of the tree when a program returns and when it throws; where the code is
undefined, anything holds. There is one rule for each call, so that a program is followed call by
call. What asking for references does to the tree is a sequence of locks and copies (`Refs`).
-/

namespace Alto

variable {P α β : Type} {c : Copying P} {type : TxnType} {T T₁ T₂ : ObjTree P}

/-! ## References -/

/-- `T'` comes from `T` by locking objects and by replacing old objects with their copies. -/
inductive Refs (c : Copying P) (type : TxnType) (T : ObjTree P) : ObjTree P → Prop
  | refl : Refs c type T T
  | lock {T₁ : ObjTree P} {q : Path} {i : Nat} {x : Cell P} (h : Refs c type T T₁)
      (hx : T₁.cells (i :: q) = some x) (hl : x.locked = false)
      (ho : x.old = false ∨ type = .directWrite) : Refs c type T (T₁.modify (i :: q) Cell.lock)
  | copy {T₁ : ObjTree P} {q : Path} {i : Nat} {x y : Cell P} (h : Refs c type T T₁)
      (ht : type = .copyOnWrite) (hx : T₁.cells (i :: q) = some x) (hl : x.locked = false)
      (ho : x.old = true) (hy : T₁.cells q = some y) (hyl : y.locked = true) :
      Refs c type T (T₁.copyAt c q i x)

namespace Refs

theorem trans (h : Refs c type T T₁) (h' : Refs c type T₁ T₂) : Refs c type T T₂ := by
  induction h' with
  | refl => exact h
  | lock _ hx hl ho ih => exact ih.lock hx hl ho
  | copy _ ht hx hl ho hy hyl ih => exact ih.copy ht hx hl ho hy hyl

theorem read {q : Path} {i : Nat} (h : T.read q i = some T₁) : Refs c type T T₁ := by
  unfold ObjTree.read at h
  split at h
  · next y x hq hi =>
    split at h
    · cases h
      split
      · exact .refl
      · next hx =>
        simp only [Cell.readable, Bool.or_eq_true, not_or, Bool.not_eq_true] at hx
        exact .lock .refl hi hx.1 (Or.inl hx.2)
    · cases h
  · cases h

theorem write {q : Path} {i : Nat} (h : T.write c type q i = some T₁) : Refs c type T T₁ := by
  unfold ObjTree.write at h
  split at h
  · next y x hq hi =>
    split at h
    · next hy =>
      cases h
      split
      · exact .refl
      · next hx =>
        have hx' : x.locked = false := by simpa using hx
        split
        · next hc => exact .copy .refl hc.1 hi hx' hc.2 hq hy
        · next hc =>
          refine .lock .refl hi hx' ?_
          cases type with
          | directWrite => exact Or.inr rfl
          | copyOnWrite => exact Or.inl (by simpa using hc)
    · cases h
  · cases h

/-- What locks and copies keep of a cell. -/
theorem cell {R : Cell P → Cell P → Prop} (h : Refs c type T T₁) (hrefl : ∀ x, R x x)
    (htrans : ∀ x y z, R x y → R y z → R x z)
    (hlock : ∀ x : Cell P, x.locked = false → x.old = false ∨ type = .directWrite → R x x.lock)
    (hcopy : ∀ (x : Cell P) n, type = .copyOnWrite → x.locked = false → x.old = true →
      R x ⟨c.copyOf x.payload, x.width, c.junk n, false, false, true⟩)
    (hchild : ∀ (x : Cell P) i, type = .copyOnWrite → x.locked = true → R x (x.setChild i))
    (p : Path) :
    (T.cells p = none ∧ T₁.cells p = none) ∨
      ∃ x y, T.cells p = some x ∧ T₁.cells p = some y ∧ R x y := by
  induction h with
  | refl =>
    cases hp : T.cells p with
    | none => exact Or.inl ⟨rfl, rfl⟩
    | some x => exact Or.inr ⟨x, x, rfl, rfl, hrefl x⟩
  | @lock T₁ q i x _ hx hl ho ih =>
    rcases ih with ⟨hn, hn'⟩ | ⟨y, z, hy, hz, hyz⟩
    · refine Or.inl ⟨hn, ?_⟩
      by_cases hp : p = i :: q
      · subst hp
        rw [ObjTree.modify_self, hn']
        rfl
      · rwa [ObjTree.modify_ne _ _ hp]
    · refine Or.inr ?_
      by_cases hp : p = i :: q
      · subst hp
        obtain rfl : x = z := Option.some.inj (hx.symm.trans hz)
        exact ⟨y, x.lock, hy, by rw [ObjTree.modify_self, hx]; rfl,
          htrans _ _ _ hyz (hlock x hl ho)⟩
      · exact ⟨y, z, hy, by rwa [ObjTree.modify_ne _ _ hp], hyz⟩
  | @copy T₁ q i x w _ ht hx hl ho hw hwl ih =>
    have hcells : (T₁.copyAt c q i x).cells p =
        if p = q then (T₁.cells p).map (·.setChild i)
        else if p = i :: q then
          some ⟨c.copyOf x.payload, x.width, c.junk T₁.next, false, false, true⟩
        else T₁.cells p := by
      by_cases hpq : p = q
      · subst hpq
        simp [ObjTree.copyAt]
      · simp [ObjTree.copyAt, ObjTree.modify, hpq]
    rw [hcells]
    rcases ih with ⟨hn, hn'⟩ | ⟨y, z, hy, hz, hyz⟩
    · refine Or.inl ⟨hn, ?_⟩
      rw [if_neg (by rintro rfl; simp [hn'] at hw), if_neg (by rintro rfl; simp [hn'] at hx)]
      exact hn'
    · refine Or.inr ?_
      by_cases hpq : p = q
      · subst hpq
        obtain rfl : w = z := Option.some.inj (hw.symm.trans hz)
        exact ⟨y, w.setChild i, hy, by rw [if_pos rfl, hw]; rfl, htrans _ _ _ hyz (hchild w i ht hwl)⟩
      · rw [if_neg hpq]
        by_cases hp : p = i :: q
        · subst hp
          obtain rfl : x = z := Option.some.inj (hx.symm.trans hz)
          exact ⟨y, _, hy, if_pos rfl, htrans _ _ _ hyz (hcopy x T₁.next ht hl ho)⟩
        · exact ⟨y, z, hy, by rw [if_neg hp, hz], hyz⟩

end Refs

/-! ## Postconditions -/

namespace Prog

/-- What holds after a program: `ok` when it returns, `err` when it throws. -/
def Post (c : Copying P) (type : TxnType) (prog : Prog P α) (T : ObjTree P)
    (ok : α → ObjTree P → Prop) (err : ObjTree P → Prop) : Prop :=
  match prog.run c type T with
  | (.ok x, T') => ok x T'
  | (.error _, T') => err T'
  | (.undefined, _) => True

variable {ok : α → ObjTree P → Prop} {err : ObjTree P → Prop}

theorem Post.of_ok {prog : Prog P α} (h : prog.Post c type T ok err) {x : α}
    (hr : prog.run c type T = (.ok x, T₁)) : ok x T₁ := by
  rwa [Post, hr] at h

theorem Post.of_error {prog : Prog P α} (h : prog.Post c type T ok err) {msg : String}
    (hr : prog.run c type T = (.error msg, T₁)) : err T₁ := by
  rwa [Post, hr] at h

theorem Post.imp {prog : Prog P α} {ok' : α → ObjTree P → Prop} {err' : ObjTree P → Prop}
    (h : prog.Post c type T ok err) (hok : ∀ x T', ok x T' → ok' x T')
    (herr : ∀ T', err T' → err' T') : prog.Post c type T ok' err' := by
  unfold Post at h ⊢
  split
  · next hr =>
    rw [hr] at h
    exact hok _ _ h
  · next hr =>
    rw [hr] at h
    exact herr _ h
  · trivial

theorem run_bind (prog : Prog P α) (f : α → Prog P β) (T : ObjTree P) :
    (prog >>= f).run c type T =
      match prog.run c type T with
      | (.ok x, T') => (f x).run c type T'
      | (.error msg, T') => (.error msg, T')
      | (.undefined, T') => (.undefined, T') := by
  show (prog.bind f).run c type T = _
  induction prog generalizing T with
  | ret | throw | undef => rfl
  | read q i k ih =>
    simp only [bind, run]
    cases T.read q i with
    | none => rfl
    | some T' => exact ih T'
  | write q i k ih =>
    simp only [bind, run]
    cases T.write c type q i with
    | none => rfl
    | some T' => exact ih T'
  | load p k ih =>
    simp only [bind, run]
    cases T.load p with
    | none => rfl
    | some x => exact ih _ T
  | slots p k ih =>
    simp only [bind, run]
    cases T.load p with
    | none => rfl
    | some x => exact ih _ T
  | store q i x notify k ih =>
    simp only [bind, run]
    cases T.store (i :: q) x notify with
    | none => rfl
    | some T' => exact ih T'
  | setChild q j i value k ih =>
    simp only [bind, run]
    cases T.setChild? c (j :: q) i value with
    | none => rfl
    | some T' => exact ih T'

theorem Post.bind {prog : Prog P α} {f : α → Prog P β} {ok : β → ObjTree P → Prop}
    (h : prog.Post c type T (fun x T' => (f x).Post c type T' ok err) err) :
    (prog >>= f).Post c type T ok err := by
  unfold Post at h ⊢
  rw [run_bind]
  cases hr : prog.run c type T with
  | mk o T' =>
    rw [hr] at h
    cases o with
    | ok x => exact h
    | error msg => exact h
    | undefined => trivial

theorem Post.ret {x : α} (h : ok x T) : (ret x).Post c type T ok err := h

theorem Post.pure {x : α} (h : ok x T) : (Pure.pure x : Prog P α).Post c type T ok err := h

theorem Post.throw {msg : String} (h : err T) : (Prog.throw msg : Prog P α).Post c type T ok err := h

theorem Post.undef : (undef : Prog P α).Post c type T ok err := trivial

theorem Post.read {q : Path} {i : Nat} {k : Prog P α}
    (h : ∀ T', T.read q i = some T' → k.Post c type T' ok err) :
    (read q i k).Post c type T ok err := by
  unfold Post
  rw [run]
  cases hr : T.read q i with
  | none => trivial
  | some T' => exact h T' hr

theorem Post.write {q : Path} {i : Nat} {k : Prog P α}
    (h : ∀ T', T.write c type q i = some T' → k.Post c type T' ok err) :
    (write q i k).Post c type T ok err := by
  unfold Post
  rw [run]
  cases hr : T.write c type q i with
  | none => trivial
  | some T' => exact h T' hr

theorem Post.load {p : Path} {k : P → Prog P α}
    (h : ∀ x, T.cells p = some x → (k x.payload).Post c type T ok err) :
    (load p k).Post c type T ok err := by
  unfold Post
  rw [run]
  cases hr : T.load p with
  | none => trivial
  | some x =>
    rw [ObjTree.load, Option.filter_eq_some_iff] at hr
    exact h x hr.1

theorem Post.slots {p : Path} {k : List Bool → Prog P α}
    (h : ∀ x, T.cells p = some x → (k (T.slots p x)).Post c type T ok err) :
    (slots p k).Post c type T ok err := by
  unfold Post
  rw [run]
  cases hr : T.load p with
  | none => trivial
  | some x =>
    rw [ObjTree.load, Option.filter_eq_some_iff] at hr
    exact h x hr.1

theorem Post.store {q : Path} {i : Nat} {v : P} {notify : Bool} {k : Prog P α}
    (h : ∀ x, T.cells (i :: q) = some x → x.locked = true →
      k.Post c type (T.modify (i :: q) (·.store v notify)) ok err) :
    (store q i v notify k).Post c type T ok err := by
  unfold Post
  rw [run, ObjTree.store]
  cases hx : T.cells (i :: q) with
  | none => trivial
  | some x =>
    by_cases hl : x.locked
    · simp only [hl, if_true]
      exact h x hx hl
    · simp [hl]

theorem Post.setChild {q : Path} {j i : Nat} {value : Option (NewObj P)} {k : Prog P α}
    (h : ∀ x, T.cells (j :: q) = some x → x.locked = true →
      k.Post c type (T.setChild c (j :: q) i value) ok err) :
    (setChild q j i value k).Post c type T ok err := by
  unfold Post
  rw [run, ObjTree.setChild?]
  cases hx : T.cells (j :: q) with
  | none => trivial
  | some x =>
    by_cases hl : x.locked
    · simp only [hl, if_true]
      exact h x hx hl
    · simp [hl]

end Prog

end Alto
