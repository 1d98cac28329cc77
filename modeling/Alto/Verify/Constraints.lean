import Mathlib
import Alto.Lib.Cut
import Alto.Portal.InfoRes

/-!
# The constraints of a request

`readConstraints` folds a list of constraints into one interval. The interval stands for all
constraints up to an equation, which replaces everything before it and hides everything behind it, up
to bounds with the same value, of which only the first is read, and up to the values at the ends of
the range of doubles.
-/

namespace Alto

open Lib

namespace Double

/-- The order of the doubles that are numbers. -/
def rank : Double → WithBot (WithTop ℚ)
  | nan => ⊥
  | inf true => ⊥
  | inf false => ((⊤ : WithTop ℚ) : WithBot (WithTop ℚ))
  | fin q => ((q : WithTop ℚ) : WithBot (WithTop ℚ))

variable {x y : Double}

theorem rank_inj (hx : x ≠ nan) (hy : y ≠ nan) : x.rank = y.rank ↔ x = y := by
  rcases x with _ | (_ | _) | p <;> rcases y with _ | (_ | _) | q <;> simp_all [rank]

theorem lt_iff_rank (hx : x ≠ nan) (hy : y ≠ nan) : x.lt y = true ↔ x.rank < y.rank := by
  rcases x with _ | (_ | _) | p <;> rcases y with _ | (_ | _) | q <;> simp_all [rank, lt]
  exact WithBot.coe_lt_coe.2 (WithTop.coe_lt_top p)

theorem le_iff_rank (hx : x ≠ nan) (hy : y ≠ nan) : x.le y = true ↔ x.rank ≤ y.rank := by
  rcases x with _ | (_ | _) | p <;> rcases y with _ | (_ | _) | q <;> simp_all [rank, le]

end Double

namespace Portal

/-! ## Constraints -/

/-- The operators of constraints. -/
inductive Operator where
  | lt
  | le
  | gt
  | ge
  | eq
deriving DecidableEq

namespace Operator

/-- How a request spells an operator. -/
def text : Operator → List Char
  | lt => "lt".toList
  | le => "le".toList
  | gt => "gt".toList
  | ge => "ge".toList
  | eq => "eq".toList

/-- What an operator says of a value. -/
def Holds : Operator → Double → Double → Prop
  | lt, value, bound => value.lt bound = true
  | le, value, bound => value.le bound = true
  | gt, value, bound => bound.lt value = true
  | ge, value, bound => bound.le value = true
  | eq, value, bound => value.eq bound = true

instance Holds.decidable : ∀ (op : Operator) (value bound : Double),
    Decidable (op.Holds value bound)
  | lt, _, _ | le, _, _ | gt, _, _ | ge, _, _ | eq, _, _ => inferInstanceAs (Decidable (_ = true))

end Operator

/-- An operator and a number. -/
structure Constraint where
  op : Operator
  number : List Char

namespace Constraint

/-- The element of the array `constraints`. -/
def text (cons : Constraint) : List Char := cons.op.text ++ cons.number

variable (strtod : List Char → Double)

/-- A constraint on a value. -/
def Holds (cons : Constraint) (value : Double) : Prop :=
  cons.op.Holds value (strtod cons.number)

instance Holds.decidable (cons : Constraint) (value : Double) :
    Decidable (cons.Holds strtod value) :=
  inferInstanceAs (Decidable (cons.op.Holds _ _))

/-- The bound from above. -/
def upper (cons : Constraint) : Option (Cut (WithBot (WithTop ℚ))) :=
  match cons.op with
  | .lt => some ⟨(strtod cons.number).rank, false⟩
  | .le => some ⟨(strtod cons.number).rank, true⟩
  | _ => none

/-- The bound from below. -/
def lower (cons : Constraint) : Option (Cut (WithBot (WithTop ℚ))ᵒᵈ) :=
  match cons.op with
  | .gt => some ⟨OrderDual.toDual (strtod cons.number).rank, false⟩
  | .ge => some ⟨OrderDual.toDual (strtod cons.number).rank, true⟩
  | _ => none

end Constraint

namespace PostFilter

/-- The interval of a filter. -/
def upper (f : PostFilter) : Cut (WithBot (WithTop ℚ)) := ⟨f.upperBound.rank, f.upperTight⟩

def lower (f : PostFilter) : Cut (WithBot (WithTop ℚ))ᵒᵈ :=
  ⟨OrderDual.toDual f.lowerBound.rank, f.lowerTight⟩

/-- A filter with an interval. -/
structure Proper (f : PostFilter) : Prop where
  hasConstraints : f.hasConstraints = true
  upperBound : f.upperBound ≠ .nan
  lowerBound : f.lowerBound ≠ .nan

variable {f : PostFilter} {value : Double} {strtod : List Char → Double} {cons : Constraint}

theorem above_iff {bound : Double} (tight : Bool) (hb : bound ≠ .nan) (hv : value ≠ .nan) :
    ((!tight && bound.le value) || (tight && bound.lt value)) = true ↔
      ¬ Cut.Admits ⟨bound.rank, tight⟩ value.rank := by
  cases tight with
  | false => simp [Cut.Admits, Double.le_iff_rank hb hv]
  | true => simp [Cut.Admits, Double.lt_iff_rank hb hv, ← le_iff_lt_or_eq]

theorem below_iff {bound : Double} (tight : Bool) (hb : bound ≠ .nan) (hv : value ≠ .nan) :
    ((!tight && value.le bound) || (tight && value.lt bound)) = true ↔
      ¬ Cut.Admits ⟨OrderDual.toDual bound.rank, tight⟩ (OrderDual.toDual value.rank) := by
  cases tight with
  | false => simp [Cut.Admits, Double.le_iff_rank hv hb]
  | true =>
    simp [Cut.Admits, Double.lt_iff_rank hv hb, eq_comm (a := value.rank), ← le_iff_lt_or_eq]

theorem Proper.inConstraints_iff (hf : f.Proper) (hv : value ≠ .nan) :
    f.inConstraints value = true ↔
      f.upper.Admits value.rank ∧ f.lower.Admits (OrderDual.toDual value.rank) := by
  rw [inConstraints, hf.hasConstraints, ← not_not (a := f.upper.Admits _),
    ← not_not (a := f.lower.Admits _), upper, lower, ← above_iff _ hf.upperBound hv,
    ← below_iff _ hf.lowerBound hv]
  simp only [Bool.not_true, Bool.false_eq_true, if_false]
  split
  · next h => simp [h]
  · next h =>
    split
    · next h' => simp [h']
    · next h' => simp [h, h']

theorem Proper.inConstraints_nan (hf : f.Proper) : f.inConstraints .nan = true := by
  have hlt : ∀ x : Double, x.lt .nan = false := fun x => by cases x <;> rfl
  have hle : ∀ x : Double, x.le .nan = false := fun x => by cases x <;> rfl
  have hlt' : ∀ x, Double.nan.lt x = false := fun _ => rfl
  have hle' : ∀ x, Double.nan.le x = false := fun _ => rfl
  simp only [inConstraints, hf.hasConstraints, hlt, hle, hlt', hle', Bool.and_false, Bool.or_false,
    Bool.not_true, Bool.false_eq_true, if_false]

/-- The filter after a bound from above, and after one from below. -/
def lowerTo (f : PostFilter) (bound : Double) (tight : Bool) : PostFilter :=
  if bound.lt f.upperBound then { f with upperBound := bound, upperTight := tight } else f

def raiseTo (f : PostFilter) (bound : Double) (tight : Bool) : PostFilter :=
  if f.lowerBound.lt bound then { f with lowerBound := bound, lowerTight := tight } else f

theorem Proper.lowerTo (hf : f.Proper) {bound : Double} (hb : bound ≠ .nan) (tight : Bool) :
    (f.lowerTo bound tight).Proper ∧ (f.lowerTo bound tight).upper = f.upper.keep ⟨bound.rank, tight⟩ ∧
      (f.lowerTo bound tight).lower = f.lower := by
  have hlt : bound.lt f.upperBound = true ↔ bound.rank < f.upper.value :=
    Double.lt_iff_rank hb hf.upperBound
  simp only [PostFilter.lowerTo, hlt, Cut.keep]
  split
  · exact ⟨⟨hf.hasConstraints, hb, hf.lowerBound⟩, rfl, rfl⟩
  · exact ⟨hf, rfl, rfl⟩

theorem Proper.raiseTo (hf : f.Proper) {bound : Double} (hb : bound ≠ .nan) (tight : Bool) :
    (f.raiseTo bound tight).Proper ∧ (f.raiseTo bound tight).upper = f.upper ∧
      (f.raiseTo bound tight).lower = f.lower.keep ⟨OrderDual.toDual bound.rank, tight⟩ := by
  have hlt : f.lowerBound.lt bound = true ↔ OrderDual.toDual bound.rank < f.lower.value :=
    Double.lt_iff_rank hf.lowerBound hb
  simp only [PostFilter.raiseTo, hlt, Cut.keep]
  split
  · exact ⟨⟨hf.hasConstraints, hf.upperBound, hb⟩, rfl, rfl⟩
  · exact ⟨hf, rfl, rfl⟩

/-- A turn of the loop for an inequality. -/
theorem Proper.readConstraint (hf : f.Proper) (hop : cons.op ≠ .eq)
    (hnum : strtod cons.number ≠ .nan) :
    ∃ f', PostFilter.readConstraint strtod f cons.text = some (f', false) ∧ f'.Proper ∧
      f'.upper = (cons.upper strtod).elim f.upper f.upper.keep ∧
      f'.lower = (cons.lower strtod).elim f.lower f.lower.keep := by
  obtain ⟨op, number⟩ := cons
  cases op with
  | eq => exact absurd rfl hop
  | lt =>
    refine ⟨f.lowerTo (strtod number) false, ?_, hf.lowerTo hnum false⟩
    by_cases h : (strtod number).lt f.upperBound = true <;>
      simp [PostFilter.readConstraint, Constraint.text, Operator.text, PostFilter.lowerTo, h]
  | le =>
    refine ⟨f.lowerTo (strtod number) true, ?_, hf.lowerTo hnum true⟩
    by_cases h : (strtod number).lt f.upperBound = true <;>
      simp [PostFilter.readConstraint, Constraint.text, Operator.text, PostFilter.lowerTo, h]
  | gt =>
    refine ⟨f.raiseTo (strtod number) false, ?_, hf.raiseTo hnum false⟩
    by_cases h : f.lowerBound.lt (strtod number) = true <;>
      simp [PostFilter.readConstraint, Constraint.text, Operator.text, PostFilter.raiseTo, h]
  | ge =>
    refine ⟨f.raiseTo (strtod number) true, ?_, hf.raiseTo hnum true⟩
    by_cases h : f.lowerBound.lt (strtod number) = true <;>
      simp [PostFilter.readConstraint, Constraint.text, Operator.text, PostFilter.raiseTo, h]

/-- A turn of the loop for an equation, which leaves the loop. -/
theorem readConstraint_eq (strtod : List Char → Double) (f : PostFilter) (hop : cons.op = .eq) :
    PostFilter.readConstraint strtod f cons.text =
      some (⟨f.hasConstraints, strtod cons.number, true, strtod cons.number, true⟩, true) := by
  obtain ⟨op, number⟩ := cons
  obtain rfl : op = .eq := hop
  simp [PostFilter.readConstraint, Constraint.text, Operator.text]

/-- The loop over a list without equations. -/
theorem Proper.readLoop {conss : List Constraint} (hf : f.Proper)
    (hop : ∀ cons ∈ conss, cons.op ≠ .eq) (hnum : ∀ cons ∈ conss, strtod cons.number ≠ .nan) :
    ∃ f', PostFilter.readLoop strtod (conss.map Constraint.text) f = some f' ∧ f'.Proper ∧
      f'.upper = Cut.readAll (Constraint.upper strtod) f.upper conss ∧
      f'.lower = Cut.readAll (Constraint.lower strtod) f.lower conss := by
  induction conss generalizing f with
  | nil => exact ⟨f, rfl, hf, rfl, rfl⟩
  | cons cons conss ih =>
    obtain ⟨f₁, hr, hf₁, hup, hlow⟩ :=
      hf.readConstraint (hop cons List.mem_cons_self) (hnum cons List.mem_cons_self)
    obtain ⟨f', hr', hf', hup', hlow'⟩ := ih hf₁ (fun c hc => hop c (List.mem_cons_of_mem _ hc))
      fun c hc => hnum c (List.mem_cons_of_mem _ hc)
    refine ⟨f', ?_, hf', ?_, ?_⟩
    · rw [List.map_cons, PostFilter.readLoop, hr]
      exact hr'
    · rw [hup', hup]
      rfl
    · rw [hlow', hlow]
      rfl

/-- The loop over a list with an equation. -/
theorem Proper.readLoop_eq {conss : List Constraint} {e : Constraint} (hf : f.Proper)
    (hnum : ∀ cons ∈ conss, strtod cons.number ≠ .nan)
    (he : conss.find? (·.op = .eq) = some e) :
    PostFilter.readLoop strtod (conss.map Constraint.text) f =
      some ⟨true, strtod e.number, true, strtod e.number, true⟩ := by
  induction conss generalizing f with
  | nil => cases he
  | cons cons conss ih =>
    rw [List.map_cons, PostFilter.readLoop]
    by_cases hop : cons.op = .eq
    · obtain rfl : cons = e := by simpa [hop] using he
      rw [readConstraint_eq strtod f hop, hf.hasConstraints]
    · obtain ⟨f₁, hr, hf₁, -⟩ := hf.readConstraint hop (hnum cons List.mem_cons_self)
      rw [hr]
      exact ih hf₁ (fun c hc => hnum c (List.mem_cons_of_mem _ hc)) (by simpa [hop] using he)

end PostFilter

/-! ## What the interval stands for -/

/-- A value within the bounds that a filter starts with. -/
def InRange (value : Double) : Prop := Double.max.neg.lt value = true ∧ value.lt .max = true

section Read

variable {strtod : List Char → Double} {conss before : List Constraint} {cons e : Constraint}
  {value : Double}

/-- A strict constraint behind a constraint in the same direction that is not strict and has the same
bound. -/
def Constraint.Shadowed (strtod : List Char → Double) (before : List Constraint)
    (cons : Constraint) : Prop :=
  ∃ c ∈ before, strtod c.number = strtod cons.number ∧
    (cons.op = .lt ∧ c.op = .le ∨ cons.op = .gt ∧ c.op = .ge)

/-- Where the interval stands for the constraints. -/
def ReadRight (strtod : List Char → Double) (conss : List Constraint) (value : Double) : Prop :=
  match conss.find? (·.op = .eq) with
  | some e =>
    -- the first equation is all that counts
    value ≠ .nan ∧ (value = strtod e.number → ∀ cons ∈ conss, cons.Holds strtod value)
  | none =>
    (value = .nan → conss = []) ∧
    (value ≠ .nan → ¬ InRange value → ∃ cons ∈ conss, ¬ cons.Holds strtod value) ∧
    (InRange value → (∃ cons ∈ conss, ¬ cons.Holds strtod value) →
      ∃ before cons after, conss = before ++ cons :: after ∧ ¬ cons.Holds strtod value ∧
        ¬ cons.Shadowed strtod before)

/-- The filter before the loop. -/
def startFilter : PostFilter := { hasConstraints := true }

theorem proper_startFilter : startFilter.Proper :=
  ⟨rfl, by simp [startFilter, Double.max], by simp [startFilter, Double.max, Double.neg]⟩

theorem inRange_iff (hv : value ≠ .nan) : InRange value ↔
    startFilter.upper.Admits value.rank ∧
      startFilter.lower.Admits (OrderDual.toDual value.rank) := by
  have hlow := Double.lt_iff_rank proper_startFilter.lowerBound hv
  have hup := Double.lt_iff_rank hv proper_startFilter.upperBound
  rw [InRange]
  refine (and_congr hlow hup).trans ?_
  simp [startFilter, PostFilter.upper, PostFilter.lower, Cut.Admits, and_comm]

theorem InRange.ne_nan (h : InRange value) : value ≠ .nan := by
  rintro rfl
  cases h.2

theorem not_holds_nan (strtod : List Char → Double) (cons : Constraint) :
    ¬ cons.Holds strtod .nan := by
  obtain ⟨op, number⟩ := cons
  have hlt : ∀ x : Double, x.lt .nan = false := fun x => by cases x <;> rfl
  have hle : ∀ x : Double, x.le .nan = false := fun x => by cases x <;> rfl
  cases op with
  | lt | le | eq => nofun
  | gt => simp [Constraint.Holds, Operator.Holds, hlt]
  | ge => simp [Constraint.Holds, Operator.Holds, hle]

/-- What the two bounds of a constraint say. -/
theorem holds_iff (hop : cons.op ≠ .eq) (hnum : strtod cons.number ≠ .nan) (hv : value ≠ .nan) :
    cons.Holds strtod value ↔
      (∀ c, cons.upper strtod = some c → c.Admits value.rank) ∧
        ∀ c, cons.lower strtod = some c → c.Admits (OrderDual.toDual value.rank) := by
  obtain ⟨op, number⟩ := cons
  cases op with
  | eq => exact absurd rfl hop
  | lt =>
    simp [Constraint.Holds, Operator.Holds, Constraint.upper, Constraint.lower, Cut.Admits,
      Double.lt_iff_rank hv hnum]
  | le =>
    simp [Constraint.Holds, Operator.Holds, Constraint.upper, Constraint.lower, Cut.Admits,
      Double.le_iff_rank hv hnum, le_iff_lt_or_eq]
  | gt =>
    simp [Constraint.Holds, Operator.Holds, Constraint.upper, Constraint.lower, Cut.Admits,
      Double.lt_iff_rank hnum hv]
  | ge =>
    simp [Constraint.Holds, Operator.Holds, Constraint.upper, Constraint.lower, Cut.Admits,
      Double.le_iff_rank hnum hv, le_iff_lt_or_eq, eq_comm (a := value.rank)]

/-- What the two bounds of a constraint say where shadowed bounds do not count. -/
theorem holds_or_shadowed_iff {b : Cut (WithBot (WithTop ℚ))} {l : Cut (WithBot (WithTop ℚ))ᵒᵈ}
    (hb : b.closed = false) (hl : l.closed = false) (hop : cons.op ≠ .eq)
    (hnum : strtod cons.number ≠ .nan) (hbefore : ∀ c ∈ before, strtod c.number ≠ .nan)
    (hv : value ≠ .nan) :
    cons.Holds strtod value ∨ cons.Shadowed strtod before ↔
      (∀ c, cons.upper strtod = some c → c.Admits value.rank ∨
        Cut.Shadowed (b :: before.filterMap (Constraint.upper strtod)) c) ∧
      ∀ c, cons.lower strtod = some c → c.Admits (OrderDual.toDual value.rank) ∨
        Cut.Shadowed (l :: before.filterMap (Constraint.lower strtod)) c := by
  rw [holds_iff hop hnum hv]
  have hupper : ∀ x : Double, (∃ d ∈ b :: before.filterMap (Constraint.upper strtod),
      d.closed = true ∧ d.value = x.rank) ↔
      ∃ c ∈ before, c.op = .le ∧ (strtod c.number).rank = x.rank := by
    intro x
    simp only [List.mem_cons, List.mem_filterMap, exists_eq_or_imp, hb, Bool.false_eq_true,
      false_and, false_or]
    constructor
    · rintro ⟨d, ⟨c, hc, hcd⟩, hclosed, hval⟩
      obtain ⟨op, number⟩ := c
      cases op <;> simp only [Constraint.upper, Option.some.injEq, reduceCtorEq] at hcd
      · cases hcd
        cases hclosed
      · cases hcd
        exact ⟨_, hc, rfl, hval⟩
    · rintro ⟨⟨op, number⟩, hc, hcop, hval⟩
      obtain rfl : op = .le := hcop
      exact ⟨_, ⟨_, hc, rfl⟩, rfl, hval⟩
  have hlower : ∀ x : Double, (∃ d ∈ l :: before.filterMap (Constraint.lower strtod),
      d.closed = true ∧ d.value = OrderDual.toDual x.rank) ↔
      ∃ c ∈ before, c.op = .ge ∧ (strtod c.number).rank = x.rank := by
    intro x
    simp only [List.mem_cons, List.mem_filterMap, exists_eq_or_imp, hl, Bool.false_eq_true,
      false_and, false_or]
    constructor
    · rintro ⟨d, ⟨c, hc, hcd⟩, hclosed, hval⟩
      obtain ⟨op, number⟩ := c
      cases op <;> simp only [Constraint.lower, Option.some.injEq, reduceCtorEq] at hcd
      · cases hcd
        cases hclosed
      · cases hcd
        exact ⟨_, hc, rfl, OrderDual.toDual_inj.1 hval⟩
    · rintro ⟨⟨op, number⟩, hc, hcop, hval⟩
      obtain rfl : op = .ge := hcop
      exact ⟨_, ⟨_, hc, rfl⟩, rfl, congrArg OrderDual.toDual hval⟩
  have hrank : ∀ c ∈ before, ((strtod c.number).rank = (strtod cons.number).rank ↔
      strtod c.number = strtod cons.number) := fun c hc => Double.rank_inj (hbefore c hc) hnum
  obtain ⟨op, number⟩ := cons
  cases op with
  | eq => exact absurd rfl hop
  | lt =>
    simp only [Constraint.upper, Constraint.lower, Option.some.injEq, forall_eq', reduceCtorEq,
      false_implies, implies_true, and_true, Cut.Shadowed, hupper, true_and, Constraint.Shadowed,
      false_and, or_false]
    refine or_congr_right (exists_congr fun c => and_congr_right fun hc => ?_)
    rw [hrank c hc, and_comm]
  | le => simp [Constraint.upper, Constraint.lower, Cut.Shadowed, Constraint.Shadowed]
  | gt =>
    simp only [Constraint.upper, Constraint.lower, Option.some.injEq, forall_eq', reduceCtorEq,
      false_implies, implies_true, Cut.Shadowed, hlower, true_and, Constraint.Shadowed,
      false_and, false_or]
    refine or_congr_right (exists_congr fun c => and_congr_right fun hc => ?_)
    rw [hrank c hc, and_comm]
  | ge => simp [Constraint.upper, Constraint.lower, Cut.Shadowed, Constraint.Shadowed]

/-- The interval of a list without equations. -/
theorem inConstraints_iff (hop : ∀ cons ∈ conss, cons.op ≠ .eq)
    (hnum : ∀ cons ∈ conss, strtod cons.number ≠ .nan) :
    ∃ f, PostFilter.readLoop strtod (conss.map Constraint.text) startFilter = some f ∧ f.Proper ∧
      ∀ value, value ≠ .nan → (f.inConstraints value = true ↔ InRange value ∧
        ∀ before cons after, conss = before ++ cons :: after →
          cons.Holds strtod value ∨ cons.Shadowed strtod before) := by
  obtain ⟨f, hr, hf, hup, hlow⟩ := proper_startFilter.readLoop hop hnum
  refine ⟨f, hr, hf, fun value hv => ?_⟩
  rw [hf.inConstraints_iff hv, hup, hlow, Cut.admits_readAll, Cut.admits_readAll, inRange_iff hv,
    and_and_and_comm]
  refine and_congr_right fun _ => ?_
  simp only [← forall_and]
  refine forall_congr' fun before => forall_congr' fun cons => forall_congr' fun after =>
    forall_congr' fun hconss => ?_
  have hmem : cons ∈ conss := by simp [hconss]
  have hbefore : ∀ c ∈ before, strtod c.number ≠ .nan := fun c hc => hnum c (by simp [hconss, hc])
  have h := holds_or_shadowed_iff (b := startFilter.upper) (l := startFilter.lower) rfl rfl
    (hop cons hmem) (hnum cons hmem) hbefore hv
  exact h.symm

theorem readRight_eq (hnum : ∀ cons ∈ conss, strtod cons.number ≠ .nan)
    (he : conss.find? (·.op = .eq) = some e) (value : Double) :
    ∃ f, PostFilter.readLoop strtod (conss.map Constraint.text) startFilter = some f ∧
      ((f.inConstraints value = true ↔ ∀ cons ∈ conss, cons.Holds strtod value) ↔
        ReadRight strtod conss value) := by
  refine ⟨_, proper_startFilter.readLoop_eq hnum he, ?_⟩
  have hmem := List.mem_of_find?_eq_some he
  have hop : e.op = .eq := by simpa using List.find?_some he
  have hproper : PostFilter.Proper ⟨true, strtod e.number, true, strtod e.number, true⟩ :=
    ⟨rfl, hnum e hmem, hnum e hmem⟩
  simp only [ReadRight, he]
  by_cases hv : value = .nan
  · subst hv
    have hall : ¬ ∀ cons ∈ conss, cons.Holds strtod .nan := fun h => not_holds_nan strtod e (h e hmem)
    rw [hproper.inConstraints_nan]
    simp [hall]
  · have heq : PostFilter.inConstraints ⟨true, strtod e.number, true, strtod e.number, true⟩ value =
        true ↔ value = strtod e.number := by
      rw [hproper.inConstraints_iff hv, ← Double.rank_inj hv (hnum e hmem)]
      simp only [PostFilter.upper, PostFilter.lower, Cut.Admits, OrderDual.toDual_lt_toDual,
        OrderDual.toDual_inj, true_and]
      constructor
      · rintro ⟨hle | hle, hge | hge⟩
        · exact absurd hle hge.not_gt
        · exact hge
        · exact hle
        · exact hle
      · exact fun h => ⟨.inr h, .inr h⟩
    have himp : (∀ cons ∈ conss, cons.Holds strtod value) → value = strtod e.number := by
      intro h
      have := h e hmem
      rw [Constraint.Holds, hop, Operator.Holds] at this
      cases value with
      | nan => exact absurd rfl hv
      | _ => simpa [Double.eq] using this
    rw [heq]
    exact ⟨fun h => ⟨hv, h.1⟩, fun h => ⟨h.2, himp⟩⟩

theorem readRight_none (hnum : ∀ cons ∈ conss, strtod cons.number ≠ .nan)
    (he : conss.find? (·.op = .eq) = none) (value : Double) :
    ∃ f, PostFilter.readLoop strtod (conss.map Constraint.text) startFilter = some f ∧
      ((f.inConstraints value = true ↔ ∀ cons ∈ conss, cons.Holds strtod value) ↔
        ReadRight strtod conss value) := by
  have hop : ∀ cons ∈ conss, cons.op ≠ .eq := by simpa using he
  obtain ⟨f, hr, hf, hin⟩ := inConstraints_iff hop hnum
  refine ⟨f, hr, ?_⟩
  simp only [ReadRight, he]
  by_cases hv : value = .nan
  · subst hv
    have hnotin : ¬ InRange .nan := fun h => h.ne_nan rfl
    simp only [hf.inConstraints_nan, true_iff, not_holds_nan, hnotin, ne_eq, not_true_eq_false,
      false_implies, and_true, true_implies]
    exact List.eq_nil_iff_forall_not_mem.symm
  rw [hin value hv]
  by_cases hrange : InRange value
  · simp only [hrange, true_and, hv, false_implies, ne_eq, not_false_eq_true, not_true_eq_false,
      true_implies]
    constructor
    · rintro h ⟨cons, hcons, hno⟩
      by_contra hall
      refine hno (h.1 (fun before cons after hconss => ?_) cons hcons)
      by_contra hfail
      exact hall ⟨before, cons, after, hconss, not_or.1 hfail⟩
    · refine fun h => ⟨fun hread cons hcons => ?_, fun hall before cons after hconss => ?_⟩
      · by_contra hno
        obtain ⟨before, cons', after, hconss, hno', hshadow⟩ := h ⟨cons, hcons, hno⟩
        exact (hread before cons' after hconss).elim hno' hshadow
      · exact .inl (hall cons (by simp [hconss]))
  · simp only [hrange, false_and, false_iff, hv, ne_eq, not_false_eq_true, true_implies,
      false_implies, and_true, true_and, not_forall, exists_prop]

end Read

/-- A list of constraints, read in its order, admits exactly the values that satisfy all of them
under `ReadRight`: the value is a number (or the list is empty); if there is an equation, the value
differs from the first one's or satisfies all constraints; if there is none, the value lies strictly
between the largest doubles or violates a constraint, and if it violates one, then one that is not
shadowed. -/
theorem constraints_conjunction_iff (strtod : List Char → Double) (conss : List Constraint)
    (hnum : ∀ cons ∈ conss, strtod cons.number ≠ .nan) (value : Double) :
    ∃ f, PostFilter.readConstraints strtod (some (conss.map Constraint.text)) = some f ∧
      ((f.inConstraints value = true ↔ ∀ cons ∈ conss, cons.Holds strtod value) ↔
        ReadRight strtod conss value) := by
  cases he : conss.find? (·.op = .eq) with
  | none => exact readRight_none hnum he value
  | some e => exact readRight_eq hnum he value

/-- `strtod` on the digit 5, and on texts that are no numbers. -/
def strtodFive (text : List Char) : Double := if text = "5".toList then 5 else 0

theorem inRange_five : InRange 5 := ⟨by decide +kernel, by decide +kernel⟩

/-- Behind a closed bound, an open one with the same value is passed over; the other way round the
list is read right. -/
theorem constraints_conjunction_iff_five :
    (∃ f, PostFilter.readConstraints strtodFive (some ["lt5".toList, "le5".toList]) = some f ∧
      (f.inConstraints 5 = true ↔ ∀ cons ∈ [⟨.lt, "5".toList⟩, ⟨.le, "5".toList⟩],
        Constraint.Holds strtodFive cons 5)) := by
  obtain ⟨f, hf, h⟩ := constraints_conjunction_iff strtodFive [⟨.lt, "5".toList⟩, ⟨.le, "5".toList⟩]
    (by decide) 5
  refine ⟨f, hf, h.2 ⟨nofun, fun _ hno => absurd inRange_five hno, fun _ _ => ?_⟩⟩
  exact ⟨[], ⟨.lt, "5".toList⟩, [⟨.le, "5".toList⟩], rfl, by decide, nofun⟩

theorem equal_bounds_read_once :
    ∃ f, PostFilter.readConstraints strtodFive (some ["le5".toList, "lt5".toList]) = some f ∧
      f.inConstraints 5 = true ∧ ¬ ∀ cons ∈ [⟨.le, "5".toList⟩, ⟨.lt, "5".toList⟩],
        Constraint.Holds strtodFive cons 5 := by
  refine ⟨⟨true, 5, true, Double.max.neg, false⟩, ?_, by decide +kernel, fun h => ?_⟩
  · have hlt : (5 : Double).lt 5 = false := by decide +kernel
    simp [PostFilter.readConstraints, PostFilter.readLoop, PostFilter.readConstraint, strtodFive,
      inRange_five.2, hlt]
  · exact absurd (h ⟨.lt, "5".toList⟩ (by simp)) (by decide +kernel)

end Portal

end Alto
