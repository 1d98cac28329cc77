import Mathlib

/-!
# Writers that are asked for blocks

A writer is called again and again with the size of a block and answers with the bytes of the block,
or with the end of its text. A text is made of items that are never torn apart: each block takes as
many of them as it has room for (`fill`). Where no block is too small for the item that it starts
with (`Packs`), the whole text is written.
-/

namespace Alto.Lib

variable {B D : Type}

/-! ## Filling a block -/

/-- The items that fit into a block, and the others. -/
def fill (room : Nat) : List (List B) → List (List B) × List (List B)
  | [] => ([], [])
  | item :: items =>
    if item.length ≤ room then
      (item :: (fill (room - item.length) items).1, (fill (room - item.length) items).2)
    else ([], item :: items)

/-- No block is too small for the first of the items that are left for it. -/
def Packs : List Nat → List (List B) → Prop
  | [], _ => True
  | _ :: _, [] => True
  | max :: sizes, item :: items =>
    item.length ≤ max ∧ Packs sizes (fill max (item :: items)).2

instance Packs.decidable : ∀ (sizes : List Nat) (items : List (List B)),
    Decidable (Packs sizes items)
  | [], _ => .isTrue trivial
  | _ :: _, [] => .isTrue trivial
  | max :: sizes, item :: items =>
    letI := Packs.decidable sizes (fill max (item :: items)).2
    inferInstanceAs (Decidable (_ ∧ _))

theorem fill_append (room : Nat) (items : List (List B)) :
    (fill room items).1 ++ (fill room items).2 = items := by
  induction items generalizing room with
  | nil => rfl
  | cons item items ih =>
    rw [fill]
    split
    · exact congrArg (item :: ·) (ih _)
    · rfl

theorem fill_flatten (room : Nat) (items : List (List B)) :
    (fill room items).1.flatten ++ (fill room items).2.flatten = items.flatten := by
  rw [← List.flatten_append, fill_append]

theorem fill_lt {room : Nat} {item : List B} (h : item.length ≤ room) (items : List (List B)) :
    (fill room (item :: items)).2.length < (item :: items).length := by
  have happend := congrArg List.length (fill_append room (item :: items))
  rw [fill, if_pos h] at happend ⊢
  simp only [List.length_append, List.length_cons] at happend ⊢
  omega

/-- The items that are left are among the items. -/
theorem mem_of_mem_fill {room : Nat} {items : List (List B)} {item : List B}
    (h : item ∈ (fill room items).2) : item ∈ items := by
  rw [← fill_append room items]
  exact List.mem_append_right _ h

theorem fill_length_le (room : Nat) (items : List (List B)) :
    (fill room items).1.flatten.length ≤ room := by
  induction items generalizing room with
  | nil => simp [fill]
  | cons item items ih =>
    rw [fill]
    split
    · have := ih (room - item.length)
      simp only [List.flatten_cons, List.length_append]
      omega
    · simp

theorem fill_fst_of_snd {room : Nat} {items : List (List B)} (h : (fill room items).2 = []) :
    (fill room items).1 = items := by
  have happend := fill_append room items
  rwa [h, List.append_nil] at happend

/-- There is room for all items. -/
theorem fill_all {room : Nat} {items : List (List B)} (h : items.flatten.length ≤ room) :
    fill room items = (items, []) := by
  induction items generalizing room with
  | nil => rfl
  | cons item items ih =>
    rw [List.flatten_cons, List.length_append] at h
    rw [fill, if_pos (by omega), ih (by omega)]

/-- Blocks that have room for every item. -/
theorem packs_of_forall {sizes : List Nat} {items : List (List B)}
    (h : ∀ max ∈ sizes, ∀ item ∈ items, item.length ≤ max) : Packs sizes items := by
  induction sizes generalizing items with
  | nil => exact trivial
  | cons max sizes ih =>
    cases items with
    | nil => exact trivial
    | cons item items =>
      refine ⟨h max (by simp) item (by simp), ih ?_⟩
      intro max' hmax item' hitem
      exact h max' (List.mem_cons_of_mem _ hmax) item' (mem_of_mem_fill hitem)

/-! An empty item behind the others is no obstacle. -/

theorem fill_end (room : Nat) (items : List (List B)) :
    fill room (items ++ [[]]) =
      if (fill room items).2 = [] then (items ++ [[]], [])
      else ((fill room items).1, (fill room items).2 ++ [[]]) := by
  induction items generalizing room with
  | nil => simp [fill]
  | cons item items ih =>
    rw [List.cons_append, fill, fill]
    split
    · rw [ih]
      split <;> rfl
    · rfl

theorem prefix_end {items all : List (List B)} (h : items <+: all ++ [[]]) :
    ∃ items', items' <+: all ∧ items.flatten = items'.flatten := by
  rcases List.prefix_concat_iff.1 h with rfl | h
  · exact ⟨all, List.prefix_refl _, by simp⟩
  · exact ⟨items, h, rfl⟩

theorem Packs.concat_nil {sizes : List Nat} {items : List (List B)} (h : Packs sizes items) :
    Packs sizes (items ++ [[]]) := by
  induction sizes generalizing items with
  | nil => exact trivial
  | cons max sizes ih =>
    have hend := fill_end max items
    cases items with
    | nil =>
      refine ⟨Nat.zero_le _, ?_⟩
      cases sizes <;> exact trivial
    | cons item items =>
      refine ⟨h.1, ?_⟩
      change Packs sizes (fill max (item :: items ++ [[]])).2
      rw [hend]
      split
      · cases sizes <;> exact trivial
      · exact ih h.2

/-! ## Blocks -/

/-- The text of repeated calls up to the end. It is `none` if the end has not come yet. -/
def blocks (write : D → Nat → D × Option (List B)) : D → List Nat → Option (List B)
  | _, [] => none
  | d, max :: sizes =>
    match write d max with
    | (_, none) => some []
    | (d, some block) => (blocks write d sizes).map (block ++ ·)

/-- A writer with the items that it has left: it answers with the end if there are none, and fills
the block if there is room for the first. -/
structure Fills (write : D → Nat → D × Option (List B)) (left : D → List (List B))
    (Inv : D → Prop) : Prop where
  done : ∀ d max, Inv d → left d = [] → (write d max).2 = none
  block : ∀ d max item items, Inv d → left d = item :: items → item.length ≤ max →
    (write d max).2 = some (fill max (left d)).1.flatten ∧
      left (write d max).1 = (fill max (left d)).2 ∧ Inv (write d max).1

namespace Fills

variable {write : D → Nat → D × Option (List B)} {left : D → List (List B)} {Inv : D → Prop}

theorem blocks_done (hw : Fills write left Inv) {d : D} (hinv : Inv d) (hleft : left d = [])
    (max : Nat) (sizes : List Nat) : blocks write d (max :: sizes) = some [] := by
  have h := hw.done d max hinv hleft
  rw [blocks]
  split
  · rfl
  · next heq => rw [heq] at h; cases h

theorem blocks_block (hw : Fills write left Inv) {d : D} (hinv : Inv d) {item : List B}
    {items : List (List B)} (hleft : left d = item :: items) {max : Nat} (hmax : item.length ≤ max)
    (sizes : List Nat) : blocks write d (max :: sizes) =
      (blocks write (write d max).1 sizes).map ((fill max (left d)).1.flatten ++ ·) := by
  have h := (hw.block d max item items hinv hleft hmax).1
  rw [blocks]
  split
  · next heq => rw [heq] at h; cases h
  · next d' block heq =>
    rw [heq] at h ⊢
    cases h
    rfl

/-- Blocks that are large enough deliver the whole text, once the end has come. -/
theorem eq_flatten (hw : Fills write left Inv) {d : D} (hinv : Inv d) {sizes : List Nat}
    (hpacks : Packs sizes (left d)) {text : List B} (h : blocks write d sizes = some text) :
    text = (left d).flatten := by
  induction sizes generalizing d text with
  | nil => cases h
  | cons max sizes ih =>
    cases hleft : left d with
    | nil =>
      rw [hw.blocks_done hinv hleft] at h
      cases h
      rfl
    | cons item items =>
      rw [hleft] at hpacks
      obtain ⟨-, hnext, hinv'⟩ := hw.block d max item items hinv hleft hpacks.1
      rw [hw.blocks_block hinv hleft hpacks.1] at h
      obtain ⟨rest, hrest, rfl⟩ := Option.map_eq_some_iff.1 h
      have hpacks' : Packs sizes (left (write d max).1) := by
        rw [hnext, hleft]
        exact hpacks.2
      rw [ih hinv' hpacks' hrest, hnext, fill_flatten, hleft]

/-- The end comes after at most one block for each item. -/
theorem isSome_of_lt (hw : Fills write left Inv) {d : D} (hinv : Inv d) {sizes : List Nat}
    (hpacks : Packs sizes (left d)) (hlen : (left d).length < sizes.length) :
    (blocks write d sizes).isSome := by
  induction sizes generalizing d with
  | nil => exact absurd hlen (Nat.not_lt_zero _)
  | cons max sizes ih =>
    cases hleft : left d with
    | nil =>
      rw [hw.blocks_done hinv hleft]
      rfl
    | cons item items =>
      rw [hleft] at hpacks
      obtain ⟨-, hnext, hinv'⟩ := hw.block d max item items hinv hleft hpacks.1
      have hlt := fill_lt hpacks.1 items
      rw [hw.blocks_block hinv hleft hpacks.1, Option.isSome_map]
      apply ih hinv'
      · rw [hnext, hleft]
        exact hpacks.2
      · rw [hnext, hleft]
        simp only [hleft, List.length_cons] at hlen hlt ⊢
        omega

/-- One block with room for all items delivers them at once. -/
theorem blocks_whole (hw : Fills write left Inv) {d : D} (hinv : Inv d) {max : Nat}
    (hmax : (left d).flatten.length ≤ max) (more : Nat) :
    blocks write d [max, more] = some (left d).flatten := by
  cases hleft : left d with
  | nil => exact hw.blocks_done hinv hleft max [more]
  | cons item items =>
    have hall := fill_all hmax
    rw [hleft, List.flatten_cons, List.length_append] at hmax
    obtain ⟨-, hnext, hinv'⟩ := hw.block d max item items hinv hleft (by omega)
    rw [hw.blocks_block hinv hleft (by omega)]
    rw [hall] at hnext ⊢
    rw [hw.blocks_done hinv' hnext, hleft]
    exact congrArg some (List.append_nil _)

/-! A writer that takes a block without room for the first item for the end. -/

variable (hstuck : ∀ d max item items, Inv d → left d = item :: items → max < item.length →
  (write d max).2 = none)

include hstuck

theorem blocks_stuck {d : D} (hinv : Inv d) {item : List B} {items : List (List B)}
    (hleft : left d = item :: items) {max : Nat} (hmax : max < item.length) (sizes : List Nat) :
    blocks write d (max :: sizes) = some [] := by
  have h := hstuck d max item items hinv hleft hmax
  rw [blocks]
  split
  · rfl
  · next heq => rw [heq] at h; cases h

/-- Such a writer delivers the whole text only if no block is too small. -/
theorem packs_of_eq_flatten (hw : Fills write left Inv) {d : D} (hinv : Inv d)
    (hne : ∀ item ∈ left d, item ≠ []) {sizes : List Nat}
    (h : blocks write d sizes = some (left d).flatten) : Packs sizes (left d) := by
  induction sizes generalizing d with
  | nil => exact trivial
  | cons max sizes ih =>
    cases hleft : left d with
    | nil => exact trivial
    | cons item items =>
      by_cases hmax : item.length ≤ max
      · obtain ⟨-, hnext, hinv'⟩ := hw.block d max item items hinv hleft hmax
        rw [hw.blocks_block hinv hleft hmax, ← fill_flatten max (left d)] at h
        obtain ⟨rest, hrest, heq⟩ := Option.map_eq_some_iff.1 h
        rw [List.append_cancel_left heq, ← hnext] at hrest
        have hpacks := ih hinv' (fun x hx => hne x (mem_of_mem_fill (hnext ▸ hx))) hrest
        rw [hnext, hleft] at hpacks
        exact ⟨hmax, hpacks⟩
      · rw [blocks_stuck hstuck hinv hleft (Nat.not_le.1 hmax)] at h
        have hnil : (left d).flatten = [] := (Option.some.inj h).symm
        exact absurd (List.flatten_eq_nil_iff.1 hnil item (by rw [hleft]; simp))
          (hne item (by rw [hleft]; simp))

end Fills

/-! ## Delivery -/

/-- Whatever the sizes of the blocks, if none is too small for the item that is next: the end comes,
and the text is that of the items, as it is in one block with room for all of them. -/
structure Delivers (write : D → Nat → D × Option (List B)) (d : D) (items : List (List B)) :
    Prop where
  ends : ∀ sizes, Packs sizes items → items.length + 1 < sizes.length →
    (blocks write d sizes).isSome
  text : ∀ sizes text, Packs sizes items → blocks write d sizes = some text →
    text = items.flatten
  whole : ∀ max more, items.flatten.length ≤ max →
    blocks write d [max, more] = some items.flatten

theorem Fills.delivers {write : D → Nat → D × Option (List B)} {left : D → List (List B)}
    {Inv : D → Prop} (hw : Fills write left Inv) {d : D} (hinv : Inv d) :
    Delivers write d (left d) where
  ends _ hpacks hlen := hw.isSome_of_lt hinv hpacks (by omega)
  text _ _ hpacks h := hw.eq_flatten hinv hpacks h
  whole _ more hmax := hw.blocks_whole hinv hmax more

/-- A writer that answers with a last block, which may be empty, before the end. -/
theorem Fills.delivers_concat {write : D → Nat → D × Option (List B)} {left : D → List (List B)}
    {Inv : D → Prop} (hw : Fills write left Inv) {d : D} (hinv : Inv d) {items : List (List B)}
    (hleft : left d = items ++ [[]]) : Delivers write d items := by
  have h := hw.delivers hinv
  have hflat : (left d).flatten = items.flatten := by simp [hleft]
  refine ⟨fun sizes hpacks hlen => ?_, fun sizes text hpacks ht => ?_, fun max more hmax => ?_⟩
  · refine hw.isSome_of_lt hinv (hleft ▸ hpacks.concat_nil) ?_
    rw [hleft, List.length_append]
    exact hlen
  · exact (h.text sizes text (hleft ▸ hpacks.concat_nil) ht).trans hflat
  · rw [← hflat] at hmax ⊢
    exact h.whole max more hmax

/-- The writer delivers its items from every state that it reaches, whatever blocks it has been asked
for before. -/
def Delivered (write : D → Nat → D × Option (List B)) (items : D → List (List B)) (start : D) :
    Prop :=
  ∀ called : List Nat, Delivers write (called.foldl (fun d max => (write d max).1) start)
    (items (called.foldl (fun d max => (write d max).1) start))

theorem delivered_of_inv {write : D → Nat → D × Option (List B)} {items : D → List (List B)}
    {start : D} {I : D → Prop} (hstart : I start)
    (hinv : ∀ d max, I d → I (write d max).1)
    (hdelivers : ∀ d, I d → Delivers write d (items d)) : Delivered write items start := by
  intro called
  refine hdelivers _ ?_
  induction called generalizing start with
  | nil => exact hstart
  | cons max called ih => exact ih (hinv start max hstart)

/-! ## More blocks -/

/-- Blocks behind the end are not asked for. -/
theorem blocks_append {write : D → Nat → D × Option (List B)} {d : D} {sizes : List Nat}
    {text : List B} (h : blocks write d sizes = some text) (more : List Nat) :
    blocks write d (sizes ++ more) = some text := by
  induction sizes generalizing d text with
  | nil => cases h
  | cons max sizes ih =>
    rw [List.cons_append]
    simp only [blocks] at h ⊢
    split at h
    · next heq => simpa only [heq] using h
    · next d' block heq =>
      obtain ⟨rest, hrest, rfl⟩ := Option.map_eq_some_iff.1 h
      simp only [ih hrest, Option.map_some]

theorem packs_of_append {sizes more : List Nat} {items : List (List B)}
    (h : Packs (sizes ++ more) items) : Packs sizes items := by
  induction sizes generalizing items with
  | nil => exact trivial
  | cons max sizes ih =>
    cases items with
    | nil => exact trivial
    | cons item items => exact ⟨h.1, ih h.2⟩

end Alto.Lib
