import Alto.Lib.Blocks
import Alto.Server.ContentReader

/-!
# The content reader and its callback

`ContentReaderState::process_normal` takes an empty buffer for the end of the response, also where the
callback has only not found room for its next item. A callback that fills its blocks with items is
delivered whole as long as every block has room for the next item and only the last item is empty.
-/

namespace Alto.Lib

variable {B : Type}

/-- All items but the last one have bytes. -/
def Solid (items : List (List B)) : Prop := ∀ item ∈ items.dropLast, item ≠ []

theorem solid_of_forall {items : List (List B)} (h : ∀ item ∈ items, item ≠ []) : Solid items :=
  fun item hitem => h item (List.dropLast_subset items hitem)

theorem solid_concat_nil {items : List (List B)} (h : ∀ item ∈ items, item ≠ []) :
    Solid (items ++ [[]]) := by
  intro item hitem
  rw [List.dropLast_concat] at hitem
  exact h item hitem

/-- An empty item is the last one. -/
theorem Solid.tail_nil {items : List (List B)} (h : Solid ([] :: items)) : items = [] := by
  by_contra hne
  refine h [] ?_ rfl
  rw [List.dropLast_cons_of_ne_nil hne]
  exact List.mem_cons_self

theorem Solid.of_suffix {xs items : List (List B)} (h : Solid (xs ++ items)) : Solid items := by
  intro item hitem
  by_cases hnil : items = []
  · rw [hnil] at hitem
    cases hitem
  · refine h item ?_
    rw [List.dropLast_append_of_ne_nil hnil]
    exact List.mem_append_right _ hitem

theorem Solid.fill {items : List (List B)} (h : Solid items) (max : Nat) :
    Solid (fill max items).2 := by
  have hsplit : Solid ((Lib.fill max items).1 ++ (Lib.fill max items).2) := by rwa [fill_append]
  exact hsplit.of_suffix

/-- A block that has room for the first of several items is not empty. -/
theorem Solid.fill_ne_nil {item : List B} {items : List (List B)} (h : Solid (item :: items))
    {max : Nat} (hmax : item.length ≤ max) (hne : (item :: items).flatten ≠ []) :
    (Lib.fill max (item :: items)).1.flatten ≠ [] := by
  rw [Lib.fill, if_pos hmax, List.flatten_cons]
  intro hnil
  obtain ⟨rfl, -⟩ := List.append_eq_nil_iff.1 hnil
  rw [h.tail_nil] at hne
  exact hne rfl

end Alto.Lib

namespace Alto.Server.ContentReaderState

open Lib

variable {D : Type} {write : D → Nat → D × Option (List Char)} {d d' : D} {max : Nat}
  {left : D → List (List Char)} {Inv : D → Prop}

/-- The callback is finished. -/
theorem process_done (h : (write d max).2 = none) :
    (process write { callbackData := d } max).2 = none := by
  rcases hw : write d max with ⟨d', _ | bytes⟩
  · simp [process, processNormal, hw]
  · rw [hw] at h
    cases h

/-- An empty block ends the response. -/
theorem process_empty (h : (write d max).2 = some []) :
    (process write { callbackData := d } max).2 = none := by
  rcases hw : write d max with ⟨d', _ | bytes⟩
  · rw [hw] at h
    cases h
  · rw [hw] at h
    cases h
    simp [process, processNormal, hw]

/-- Any other block is passed on as it is. -/
theorem process_block {block : List Char} (h : (write d max).2 = some block) (hne : block ≠ [])
    (hlen : block.length ≤ max) :
    process write { callbackData := d } max =
      ({ callbackData := (write d max).1 }, some block) := by
  rcases hw : write d max with ⟨d', _ | bytes⟩
  · rw [hw] at h
    cases h
  · rw [hw] at h
    cases h
    simp [process, processNormal, hw, hne, hlen]

/-- One call: the response is over, or a block is sent and the rest goes on from there. -/
theorem respond_step (hw : Fills write left Inv) (hinv : Inv d) {sizes : List Nat}
    (hpacks : Packs (max :: sizes) (left d)) (hsolid : Solid (left d)) :
    (respond write { callbackData := d } (max :: sizes) = some [] ∧ (left d).flatten = []) ∨
    ((left d).flatten ≠ [] ∧ Inv (write d max).1 ∧
      left (write d max).1 = (Lib.fill max (left d)).2 ∧ Packs sizes (left (write d max).1) ∧
      (left (write d max).1).length < (left d).length ∧
      respond write { callbackData := d } (max :: sizes) =
        (respond write { callbackData := (write d max).1 } sizes).map
          ((Lib.fill max (left d)).1.flatten ++ ·)) := by
  cases hleft : left d with
  | nil =>
    have hend := process_done (hw.done d max hinv hleft)
    refine .inl ⟨?_, rfl⟩
    rw [respond]
    split
    · rfl
    · next h => rw [h] at hend; cases hend
  | cons item items =>
    rw [hleft] at hpacks hsolid
    obtain ⟨hmax, hrest⟩ := hpacks
    obtain ⟨hblock, hnext, hinv'⟩ := hw.block d max item items hinv hleft hmax
    rw [hleft] at hblock hnext
    by_cases hnil : (item :: items).flatten = []
    · have hempty : (Lib.fill max (item :: items)).1.flatten = [] :=
        (List.append_eq_nil_iff.1 ((fill_flatten max (item :: items)).trans hnil)).1
      rw [hempty] at hblock
      have hend := process_empty hblock
      refine .inl ⟨?_, hnil⟩
      rw [respond]
      split
      · rfl
      · next h => rw [h] at hend; cases hend
    · have hproc := process_block hblock (hsolid.fill_ne_nil hmax hnil) (fill_length_le _ _)
      refine .inr ⟨hnil, hinv', hnext, hnext ▸ hrest, hnext ▸ fill_lt hmax items, ?_⟩
      rw [respond, hproc]

/-- What the client receives is what the items say. -/
theorem respond_eq_flatten (hw : Fills write left Inv) (hinv : Inv d) {sizes : List Nat}
    (hpacks : Packs sizes (left d)) (hsolid : Solid (left d)) {text : List Char}
    (h : respond write { callbackData := d } sizes = some text) : text = (left d).flatten := by
  induction sizes generalizing d text with
  | nil => cases h
  | cons max sizes ih =>
    rcases respond_step hw hinv hpacks hsolid with ⟨hend, hnil⟩ | ⟨-, hinv', hnext, hpacks', -, hrest⟩
    · rw [hend] at h
      cases h
      exact hnil.symm
    · rw [hrest] at h
      obtain ⟨text', htext', rfl⟩ := Option.map_eq_some_iff.1 h
      rw [ih hinv' hpacks' (hnext ▸ hsolid.fill max) htext', hnext, fill_flatten]

/-- The response ends after at most one block for each item and one more. -/
theorem respond_isSome (hw : Fills write left Inv) (hinv : Inv d) {sizes : List Nat}
    (hpacks : Packs sizes (left d)) (hsolid : Solid (left d))
    (hlen : (left d).length < sizes.length) :
    (respond write { callbackData := d } sizes).isSome = true := by
  induction sizes generalizing d with
  | nil => exact absurd hlen (Nat.not_lt_zero _)
  | cons max sizes ih =>
    rcases respond_step hw hinv hpacks hsolid with ⟨hend, -⟩ | ⟨-, hinv', hnext, hpacks', hlt, hrest⟩
    · rw [hend]
      rfl
    · rw [List.length_cons] at hlen
      rw [hrest, Option.isSome_map]
      exact ih hinv' hpacks' (hnext ▸ hsolid.fill max) (by omega)

end Alto.Server.ContentReaderState
