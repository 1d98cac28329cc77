import Mathlib
import Alto.Lib.Resume

/-!
# Consumers that work in rounds

A consumer whose call is a loop: each round takes a record off the input, or ends the call. When the
input goes on, a round that has taken a record takes the same one again (`Extends`), so the call can
go on where it stopped (`Extends.consume_append`).

A caller may pass on only the part of its input up to the last separator, and keep the rest for the
next call (`cutConsume`).
-/

namespace Alto.Lib

variable {B S : Type}

/-- What a round of the loop comes to: a record has been taken; the call ends in front of a record
that is not complete; the call ends and the input is used up; there is an error; or the behaviour is
undefined. -/
inductive Round (B S : Type) where
  | done (rest : List B) (s : S)
  | stop (s : S)
  | finish (s : S)
  | error (s : S)
  | undefined

/-- Round after round, as long as records are taken. -/
def rounds (round : List B → S → Round B S) : Nat → List B → S → Consumed B S
  | 0, input, s => .ok input s
  | fuel + 1, input, s =>
    match round input s with
    | .done rest s => rounds round fuel rest s
    | .stop s => .ok input s
    | .finish s => .ok [] s
    | .error s => .error s
    | .undefined => .undefined

/-- A call. Every record uses up some of the input. -/
def roundsConsume (round : List B → S → Round B S) (input : List B) (s : S) : Consumed B S :=
  rounds round (input.length + 1) input s

/-- Every record uses up some of the input. -/
def Shrinks (round : List B → S → Round B S) : Prop :=
  ∀ {input s rest s'}, round input s = .done rest s' → rest.length < input.length

section Loop

variable {round : List B → S → Round B S} {input : List B} {s : S}

/-- More rounds than there is input make no difference. -/
theorem rounds_fuel (hround : Shrinks round) {fuel : Nat} (hfuel : input.length < fuel) :
    rounds round fuel input s = roundsConsume round input s := by
  have hstep : ∀ fuel fuel' (input : List B) s, input.length < fuel → input.length < fuel' →
      rounds round fuel input s = rounds round fuel' input s := by
    intro fuel
    induction fuel with
    | zero => exact fun _ input _ h => absurd h (Nat.not_lt_zero _)
    | succ fuel ih =>
      intro fuel' input s h h'
      cases fuel' with
      | zero => exact absurd h' (Nat.not_lt_zero _)
      | succ fuel' =>
        rw [rounds, rounds]
        split
        · next rest s' hdone =>
          have hlt := hround hdone
          exact ih fuel' rest _ (by omega) (by omega)
        · rfl
        · rfl
        · rfl
        · rfl
  exact hstep _ _ _ _ hfuel (Nat.lt_succ_self _)

/-- The first round of a call. -/
theorem roundsConsume_eq (hround : Shrinks round) : roundsConsume round input s =
    match round input s with
    | .done rest s => roundsConsume round rest s
    | .stop s => .ok input s
    | .finish s => .ok [] s
    | .error s => .error s
    | .undefined => .undefined := by
  rw [roundsConsume, rounds]
  split
  · next hdone => exact rounds_fuel hround (hround hdone)
  · rfl
  · rfl
  · rfl
  · rfl

end Loop

/-! ## Invariants -/

/-- What holds of the state behind a round. -/
def Round.All (P : S → Prop) : Round B S → Prop
  | .done _ s | .stop s | .finish s | .error s => P s
  | .undefined => True

/-- What holds of the state behind a call. -/
def Consumed.All (P : S → Prop) : Consumed B S → Prop
  | .ok _ s | .error s => P s
  | .undefined => True

theorem Consumed.All.of_result {P : S → Prop} {c : Consumed B S} (hc : c.All P) {s : S}
    {failed : Bool} (h : c.result = some (s, failed)) : P s := by
  cases c with
  | ok rest s' =>
    cases h
    exact hc
  | error s' =>
    cases h
    exact hc
  | undefined => cases h

/-- What every round preserves holds behind a call. -/
theorem rounds_all {P : S → Prop} {round : List B → S → Round B S}
    (hround : ∀ input s, P s → (round input s).All P) (fuel : Nat) (input : List B) {s : S}
    (hs : P s) : (rounds round fuel input s).All P := by
  induction fuel generalizing input s with
  | zero => exact hs
  | succ fuel ih =>
    have hr := hround input s hs
    rw [rounds]
    cases h : round input s with
    | done rest s' =>
      rw [h] at hr
      exact ih rest hr
    | stop s' =>
      rw [h] at hr
      exact hr
    | finish s' =>
      rw [h] at hr
      exact hr
    | error s' =>
      rw [h] at hr
      exact hr
    | undefined => exact trivial

/-! ## More input -/

/-- How the rounds of a call go on in a later call that sees more input, where `P` holds for the
inputs of the first call. A record that is taken stays the same, and so does an error; a record that
was not complete is taken as if it had not been tried before. -/
structure Extends (P : List B → Prop) (round round' : List B → S → Round B S) : Prop where
  done : ∀ {input s rest s'}, P input → round input s = .done rest s' →
    P rest ∧ ∀ more, round' (input ++ more) s = .done (rest ++ more) s'
  stop : ∀ {input s s'}, P input → round input s = .stop s' →
    ∀ more, round' (input ++ more) s' = round' (input ++ more) s
  finish : ∀ {input s s'}, P input → round input s = .finish s' →
    P [] ∧ ∀ more, roundsConsume round' (input ++ more) s = roundsConsume round' more s'
  error : ∀ {input s s'}, P input → round input s = .error s' →
    ∀ more, round' (input ++ more) s = .error s'
  undefined : ∀ {input s}, P input → round input s = .undefined →
    ∀ more, round' (input ++ more) s = .undefined

section Extends

variable {P : List B → Prop} {round round' : List B → S → Round B S}

/-- Rounds that never use up their input: each takes a record that a later call takes too, is an error
then too, or waits and does no harm by it. -/
theorem Extends.of_cases (h : ∀ input s, P input →
    (∃ rest s', P rest ∧ round input s = .done rest s' ∧
      ∀ more, round' (input ++ more) s = .done (rest ++ more) s') ∨
    (∃ s', round input s = .error s' ∧ ∀ more, round' (input ++ more) s = .error s') ∨
    ∃ s', round input s = .stop s' ∧
      ∀ more, round' (input ++ more) s' = round' (input ++ more) s) : Extends P round round' := by
  constructor
  · intro input s rest s' hinput hr
    rcases h input s hinput with ⟨_, _, hrest, hr', hmore⟩ | ⟨_, hr', -⟩ | ⟨_, hr', -⟩
    all_goals cases hr.symm.trans hr'
    exact ⟨hrest, hmore⟩
  · intro input s s' hinput hr
    rcases h input s hinput with ⟨_, _, -, hr', -⟩ | ⟨_, hr', -⟩ | ⟨_, hr', hmore⟩
    all_goals cases hr.symm.trans hr'
    exact hmore
  · intro input s s' hinput hr
    rcases h input s hinput with ⟨_, _, -, hr', -⟩ | ⟨_, hr', -⟩ | ⟨_, hr', -⟩
    all_goals cases hr.symm.trans hr'
  · intro input s s' hinput hr
    rcases h input s hinput with ⟨_, _, -, hr', -⟩ | ⟨_, hr', hmore⟩ | ⟨_, hr', -⟩
    all_goals cases hr.symm.trans hr'
    exact hmore
  · intro input s hinput hr
    rcases h input s hinput with ⟨_, _, -, hr', -⟩ | ⟨_, hr', -⟩ | ⟨_, hr', -⟩
    all_goals cases hr.symm.trans hr'

/-- A call on a part of the input, and a call on more of it. -/
theorem Extends.consume_append (he : Extends P round round') (hround : Shrinks round)
    (hround' : Shrinks round') (input : List B) (hinput : P input) (s : S) :
    match roundsConsume round input s with
    | .ok rest s' => P rest ∧
        ∀ more, roundsConsume round' (input ++ more) s = roundsConsume round' (rest ++ more) s'
    | .error s' => ∀ more, roundsConsume round' (input ++ more) s = .error s'
    | .undefined => ∀ more, roundsConsume round' (input ++ more) s = .undefined := by
  induction hn : input.length using Nat.strongRecOn generalizing input s with
  | ind n ih =>
    rw [roundsConsume_eq hround]
    cases hr : round input s with
    | done rest s' =>
      obtain ⟨hrest, hmore⟩ := he.done hinput hr
      have hfirst : ∀ more, roundsConsume round' (input ++ more) s =
          roundsConsume round' (rest ++ more) s' := by
        intro more
        rw [roundsConsume_eq hround', hmore more]
      simp only [hfirst]
      exact ih rest.length (hn ▸ hround hr) rest hrest s' rfl
    | stop s' =>
      refine ⟨hinput, fun more => ?_⟩
      rw [roundsConsume_eq hround', roundsConsume_eq hround', he.stop hinput hr]
    | finish s' => exact he.finish hinput hr
    | error s' =>
      intro more
      rw [roundsConsume_eq hround', he.error hinput hr]
    | undefined =>
      intro more
      rw [roundsConsume_eq hround', he.undefined hinput hr]

/-- A consumer that is passed all of its input. -/
theorem Extends.continues (he : Extends (fun _ => True) round round) (hround : Shrinks round) :
    Continues (roundsConsume round) := by
  intro input s more
  have hcall := he.consume_append hround hround input trivial s
  cases hr : roundsConsume round input s with
  | ok rest s' =>
    rw [hr] at hcall
    exact hcall.2 more
  | error s' =>
    rw [hr] at hcall
    exact hcall more
  | undefined =>
    rw [hr] at hcall
    exact hcall more

end Extends

/-! ## Input up to the last separator -/

section Cut

variable (sep : B → Bool) (round : Bool → List B → S → Round B S)

/-- A call that is passed the input up to its last separator, or all of it if no more can come. -/
def cutConsume (finished : Bool) (input : List B) (s : S) : Consumed B S :=
  let data := if finished then input else input.rdropWhile fun c => !sep c
  match roundsConsume (round finished) data s with
  | .ok rest s => .ok (rest ++ input.drop data.length) s
  | .error s => .error s
  | .undefined => .undefined

/-- The input ends with a separator, if it is not empty. -/
def EndsSep (input : List B) : Prop :=
  ∀ c ∈ input.getLast?, sep c = true

variable {sep round}

theorem endsSep_nil : EndsSep sep [] :=
  fun _ h => nomatch h

theorem endsSep_rdropWhile (input : List B) :
    EndsSep sep (input.rdropWhile fun c => !sep c) := by
  intro c hc
  by_contra hsep
  have hne : (input.rdropWhile fun c => !sep c) ≠ [] := by
    intro hnil
    rw [hnil] at hc
    cases hc
  apply List.rdropWhile_last_not (fun c => !sep c) input hne
  rw [List.getLast?_eq_some_getLast hne, Option.mem_some_iff] at hc
  simpa [hc] using hsep

theorem rdropWhile_append_of_endsSep {data : List B} (hdata : EndsSep sep data) (more : List B) :
    (data ++ more).rdropWhile (fun c => !sep c) =
      data ++ more.rdropWhile (fun c => !sep c) := by
  induction more using List.reverseRecOn with
  | nil =>
    rw [List.append_nil, List.rdropWhile_nil, List.append_nil, List.rdropWhile_eq_self_iff]
    intro hne
    have := hdata (data.getLast hne) (by rw [List.getLast?_eq_some_getLast hne]; rfl)
    simp [this]
  | append_singleton more c ih =>
    rw [← List.append_assoc]
    by_cases hc : sep c = true
    · rw [List.rdropWhile_concat_neg _ _ _ (by simp [hc]), List.rdropWhile_concat_neg _ _ _
        (by simp [hc]), List.append_assoc]
    · rw [List.rdropWhile_concat_pos _ _ _ (by simp [hc]), List.rdropWhile_concat_pos _ _ _
        (by simp [hc]), ih]

/-- The part that is passed on, in front of the rest. -/
theorem rdropWhile_append_drop (p : B → Bool) (input : List B) :
    input.rdropWhile p ++ input.drop (input.rdropWhile p).length = input :=
  List.prefix_iff_eq_append.1 (List.rdropWhile_prefix p input)

/-- A consumer that is passed its input up to the last separator. -/
theorem cutConsume_continues (hround : Shrinks (round false))
    (he : Extends (EndsSep sep) (round false) (round false)) :
    Continues (cutConsume sep round false) := by
  -- what is passed on of a longer input
  have hcut : ∀ {data : List B} (tail : List B) (s : S), EndsSep sep data →
      cutConsume sep round false (data ++ tail) s =
        match roundsConsume (round false) (data ++ tail.rdropWhile fun c => !sep c) s with
        | .ok rest s => .ok (rest ++ tail.drop (tail.rdropWhile fun c => !sep c).length) s
        | .error s => .error s
        | .undefined => .undefined := by
    intro data tail s hdata
    have hdrop : ∀ n, (data ++ tail).drop (data.length + n) = tail.drop n := by
      intro n
      rw [← List.drop_drop, List.drop_left]
    simp only [cutConsume, Bool.false_eq_true, if_false, rdropWhile_append_of_endsSep hdata,
      List.length_append, hdrop]
  intro input s more
  obtain ⟨data, tail, hdata, hinput, hfirst⟩ : ∃ data tail, EndsSep sep data ∧
      input = data ++ tail ∧ cutConsume sep round false input s =
        match roundsConsume (round false) data s with
        | .ok rest s => .ok (rest ++ tail) s
        | .error s => .error s
        | .undefined => .undefined :=
    ⟨_, _, endsSep_rdropWhile input, (rdropWhile_append_drop _ input).symm, rfl⟩
  have hcall := he.consume_append hround hround data hdata s
  rw [hfirst]
  cases hr : roundsConsume (round false) data s with
  | ok rest s' =>
    rw [hr] at hcall
    obtain ⟨hrest, hmore⟩ := hcall
    rw [hinput]
    simp only
    rw [List.append_assoc, List.append_assoc, hcut _ s hdata, hcut _ s' hrest, hmore]
  | error s' =>
    rw [hr] at hcall
    rw [hinput]
    simp only
    rw [List.append_assoc, hcut _ s hdata, hcall]
  | undefined =>
    rw [hr] at hcall
    rw [hinput]
    simp only
    rw [List.append_assoc, hcut _ s hdata, hcall]

/-- If an early call is to a later one what a call is to one with more input, all that counts is a
single call at the end. -/
theorem settle_cutConsume (hround : ∀ finished, Shrinks (round finished))
    (hnil : ∀ s, round true [] s = .finish s)
    (he : Extends (EndsSep sep) (round false) (round true)) (input : List B) (s : S) :
    settle (cutConsume sep round) input s = (roundsConsume (round true) input s).result := by
  have hcall := he.consume_append (hround false) (hround true) _ (endsSep_rdropWhile input) s
  have hinput := rdropWhile_append_drop (fun c => !sep c) input
  have hclose : ∀ rest s, (cutConsume sep round true rest s).result =
      (roundsConsume (round true) rest s).result := by
    intro rest s
    simp only [cutConsume, if_true]
    cases roundsConsume (round true) rest s <;> rfl
  unfold settle
  rw [cutConsume]
  simp only [Bool.false_eq_true, if_false]
  cases hr : roundsConsume (round false) (input.rdropWhile fun c => !sep c) s with
  | ok rest s' =>
    rw [hr] at hcall
    have hmore := hcall.2 (input.drop (input.rdropWhile fun c => !sep c).length)
    rw [hinput] at hmore
    rw [hmore]
    exact hclose _ s'
  | error s' =>
    rw [hr] at hcall
    have hmore := hcall (input.drop (input.rdropWhile fun c => !sep c).length)
    rw [hinput] at hmore
    rw [hmore]
    have hend : roundsConsume (round true) [] s' = .ok [] s' := by
      rw [roundsConsume_eq (hround true), hnil]
    simp only [Consumed.next, Option.bind_some, Feed.close, cutConsume, if_true, hend,
      Consumed.resultFailed, Consumed.result]
  | undefined =>
    rw [hr] at hcall
    have hmore := hcall (input.drop (input.rdropWhile fun c => !sep c).length)
    rw [hinput] at hmore
    rw [hmore]
    rfl

end Cut

end Alto.Lib
