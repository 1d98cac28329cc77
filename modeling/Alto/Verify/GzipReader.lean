import Mathlib
import Alto.Server.GzipReader
import Alto.Verify.ContentReader
import Alto.Verify.PIDMapWrite

/-!
# Compressed responses

`ContentReaderState::process_gzip` tells zlib to finish as soon as its buffer is empty, which is right
only if the callback has nothing more to give. For callbacks that fill their blocks with items, a
response with gzip ends and inflates to the response without it.
-/

namespace Alto.Server

open Lib

/-- What zlib promises of `deflate`, for a decompressor: the stream carries the bytes that it has taken
in those that it has made; it ends in a finishing call that takes all its input; and every other call
with room for output works off some of what is left to do. -/
structure Deflater.Deflates {Z : Type} (zlib : Deflater Z) (inflate : List Char → Option (List Char))
    (carries : Z → List Char → List Char → Prop) (work : Z → Nat → Nat) : Prop where
  start : carries zlib.init [] []
  carry : ∀ {z text out input max flush z' taken bytes}, carries z text out →
    zlib.deflate z input max flush = (z', taken, bytes, false) →
    carries z' (text ++ input.take taken) (out ++ bytes)
  finish : ∀ {z text out input max flush z' taken bytes}, carries z text out →
    zlib.deflate z input max flush = (z', taken, bytes, true) →
    flush = true ∧ inflate (out ++ bytes) = some (text ++ input)
  progress : ∀ {z input max flush z' taken bytes}, 0 < max → flush = true ∨ input ≠ [] →
    zlib.deflate z input max flush = (z', taken, bytes, false) →
    work z' (input.drop taken).length < work z input.length

namespace GzipReaderState

variable {Z D : Type} {zlib : Deflater Z} {inflate : List Char → Option (List Char)}
  {carries : Z → List Char → List Char → Prop} {work : Z → Nat → Nat}
  {write : D → Nat → D × Option (List Char)} {left : D → List (List Char)} {Inv : D → Prop}
  {r : GzipReaderState Z D} {max : Nat} {sizes : List Nat}

/-- The items that the callback still has. -/
def pending (left : D → List (List Char)) (r : GzipReaderState Z D) : List (List Char) :=
  if r.callbackFinished then [] else left r.callbackData

/-- The callback can go on with these blocks. -/
structure Ready (left : D → List (List Char)) (Inv : D → Prop) (r : GzipReaderState Z D)
    (sizes : List Nat) : Prop where
  inv : r.callbackFinished = false → Inv r.callbackData
  packs : Packs sizes (pending left r)
  solid : Solid (pending left r)

/-- What the callback adds to the buffer is taken from its items, and nothing is missing once the buffer
is empty. -/
theorem refill_spec (hw : Fills write left Inv) (h : Ready left Inv r (max :: sizes)) :
    Ready left Inv (r.refill write max) sizes ∧
      (r.refill write max).buffer ++ (pending left (r.refill write max)).flatten =
        r.buffer ++ (pending left r).flatten ∧
      ((r.refill write max).buffer = [] → (pending left (r.refill write max)).flatten = []) ∧
      (r.refill write max).zstrm = r.zstrm ∧ (r.refill write max).zFinished = r.zFinished := by
  by_cases hdone : r.callbackFinished = true
  · have hnil : pending left r = [] := if_pos hdone
    have hpacks : Packs sizes ([] : List (List Char)) := by cases sizes <;> trivial
    rw [refill, if_pos hdone, hnil]
    refine ⟨⟨h.inv, ?_, ?_⟩, rfl, fun _ => rfl, rfl, rfl⟩
    · rw [hnil]
      exact hpacks
    · exact h.solid
  · have hgoes : r.callbackFinished = false := Bool.eq_false_iff.2 hdone
    have hpending : pending left r = left r.callbackData := if_neg hdone
    obtain ⟨hinv, hpacks, hsolid⟩ := h
    rw [hpending] at hpacks hsolid
    have hinv := hinv hgoes
    rw [refill, if_neg hdone, hpending]
    cases hleft : left r.callbackData with
    | nil =>
      have hend := hw.done _ max hinv hleft
      rcases hwrite : write r.callbackData max with ⟨data, _ | bytes⟩
      · have hpacks : Packs sizes ([] : List (List Char)) := by cases sizes <;> trivial
        exact ⟨⟨nofun, hpacks, nofun⟩, rfl, fun _ => rfl, rfl, rfl⟩
      · rw [hwrite] at hend
        cases hend
    | cons item items =>
      rw [hleft] at hpacks hsolid
      obtain ⟨hmax, hrest⟩ := hpacks
      obtain ⟨hblock, hnext, hinv'⟩ := hw.block _ max item items hinv hleft hmax
      rw [hleft] at hblock hnext
      rcases hwrite : write r.callbackData max with ⟨data, _ | bytes⟩
      · rw [hwrite] at hblock
        cases hblock
      · rw [hwrite] at hblock hnext hinv'
        cases hblock
        have hpending' : pending left
            { r with callbackData := data, buffer := r.buffer ++ (fill max (item :: items)).1.flatten } =
              (fill max (item :: items)).2 := (if_neg hdone).trans hnext
        refine ⟨⟨fun _ => hinv', ?_, ?_⟩, ?_, fun hempty => ?_, rfl, rfl⟩
        · rw [hpending']
          exact hrest
        · rw [hpending']
          exact hsolid.fill max
        · rw [hpending', List.append_assoc, fill_flatten]
        · rw [hpending']
          by_contra hne
          refine hsolid.fill_ne_nil hmax (fun hflat => hne ?_) (List.append_eq_nil_iff.1 hempty).2
          exact (List.append_eq_nil_iff.1 ((fill_flatten max (item :: items)).trans hflat)).2

/-- The callback gives an item or is finished. -/
theorem pending_refill_lt (hw : Fills write left Inv) (h : Ready left Inv r (max :: sizes))
    (hgoes : r.callbackFinished = false) : (r.refill write max).callbackFinished = true ∨
      (r.refill write max).callbackFinished = false ∧
        (left (r.refill write max).callbackData).length < (left r.callbackData).length := by
  have hne : ¬ r.callbackFinished = true := Bool.eq_false_iff.1 hgoes
  obtain ⟨hinv, hpacks, -⟩ := h
  have hinv := hinv hgoes
  rw [pending, if_neg hne] at hpacks
  rw [refill, if_neg hne]
  rcases hwrite : write r.callbackData max with ⟨data, _ | bytes⟩
  · exact .inl rfl
  · refine .inr ⟨hgoes, ?_⟩
    cases hleft : left r.callbackData with
    | nil =>
      have hend := hw.done _ max hinv hleft
      rw [hwrite] at hend
      cases hend
    | cons item items =>
      rw [hleft] at hpacks
      obtain ⟨-, hnext, -⟩ := hw.block _ max item items hinv hleft hpacks.1
      rw [hwrite, hleft] at hnext
      show (left data).length < _
      rw [hnext]
      exact fill_lt hpacks.1 items

/-- A finished stream ends the response. -/
theorem respond_of_finished (h : r.zFinished = true) (max : Nat) (sizes : List Nat) :
    respond zlib write r (max :: sizes) = some [] := by
  have hkeep : (r.refill write max).zFinished = true := by
    unfold refill
    split
    · exact h
    · split <;> exact h
  rw [respond, process, processGzip, if_pos hkeep]

/-- One call of a reader whose stream is not finished. -/
theorem process_eq (h : r.zFinished = false) {z : Z} {taken : Nat} {bytes : List Char}
    {finished : Bool} (hdeflate : zlib.deflate (r.refill write max).zstrm (r.refill write max).buffer
      max (r.refill write max).buffer.isEmpty = (z, taken, bytes, finished)) :
    r.process zlib write max =
      ({ r.refill write max with
          zstrm := z, zFinished := finished, buffer := (r.refill write max).buffer.drop taken },
        some bytes) := by
  have hkeep : ¬ (r.refill write max).zFinished = true := by
    unfold refill
    split
    · simp [h]
    · split <;> simp [h]
  rw [process, processGzip, if_neg hkeep, hdeflate]

/-- What has been sent inflates to what the callback has given and still gives. -/
theorem respond_inflates (hz : zlib.Deflates inflate carries work) (hw : Fills write left Inv)
    {text out bytes : List Char} (hready : Ready left Inv r sizes) (hgoes : r.zFinished = false)
    (hcarry : carries r.zstrm text out) (h : respond zlib write r sizes = some bytes) :
    inflate (out ++ bytes) = some (text ++ (r.buffer ++ (pending left r).flatten)) := by
  induction sizes generalizing r text out bytes with
  | nil => cases h
  | cons max sizes ih =>
    obtain ⟨hready', hsame, hflush, hzstrm, -⟩ := refill_spec hw hready
    rw [← hzstrm] at hcarry
    obtain ⟨z, taken, block, finished, hdeflate⟩ : ∃ z taken block finished,
        zlib.deflate (r.refill write max).zstrm (r.refill write max).buffer max
          (r.refill write max).buffer.isEmpty = (z, taken, block, finished) := ⟨_, _, _, _, rfl⟩
    rw [respond, process_eq hgoes hdeflate] at h
    obtain ⟨more, hmore, rfl⟩ := Option.map_eq_some_iff.1 h
    rw [← hsame]
    cases finished with
    | true =>
      obtain ⟨hempty, hinflate⟩ := hz.finish hcarry hdeflate
      have hnil := List.isEmpty_iff.1 hempty
      cases sizes with
      | nil => cases hmore
      | cons max' sizes =>
        rw [respond_of_finished rfl] at hmore
        cases hmore
        rw [List.append_nil, hinflate, hflush hnil, List.append_nil]
    | false =>
      have hcarry' := hz.carry hcarry hdeflate
      have hrest := ih (r := { r.refill write max with
        zstrm := z, zFinished := false, buffer := (r.refill write max).buffer.drop taken })
        ⟨hready'.inv, hready'.packs, hready'.solid⟩ rfl hcarry' hmore
      rw [List.append_assoc] at hrest
      rw [hrest]
      refine congrArg some ?_
      rw [List.append_assoc]
      congr 1
      rw [← List.append_assoc, List.take_append_drop]
      rfl

/-! ## The response ends -/

/-- Counts the calls in which the callback may still have items. -/
def phase (left : D → List (List Char)) (r : GzipReaderState Z D) : Nat :=
  if r.callbackFinished then 0 else (left r.callbackData).length + 1

/-- The sizes of the blocks from one on. -/
def blocksFrom (sizes : Nat → Nat) (k n : Nat) : List Nat := (List.range n).map fun j => sizes (k + j)

theorem blocksFrom_succ (sizes : Nat → Nat) (k n : Nat) :
    blocksFrom sizes k (n + 1) = sizes k :: blocksFrom sizes (k + 1) n := by
  rw [blocksFrom, List.range_succ_eq_map, List.map_cons, List.map_map, blocksFrom]
  congr 1
  refine List.map_congr_left fun j _ => ?_
  rw [Function.comp_apply, Nat.add_right_comm, Nat.add_assoc]

/-- Every call gives items, or works off what is left to do. -/
theorem respond_ends (hz : zlib.Deflates inflate carries work) (hw : Fills write left Inv)
    {sizes : Nat → Nat} (hpos : ∀ k, 0 < sizes k) (p w : Nat) (r : GzipReaderState Z D)
    (hp : phase left r = p) (hwork : work r.zstrm r.buffer.length = w) (k : Nat)
    (hgoes : r.zFinished = false) (hready : ∀ n, Ready left Inv r (blocksFrom sizes k n)) :
    ∃ n, (respond zlib write r (blocksFrom sizes k n)).isSome = true := by
  induction p using Nat.strong_induction_on generalizing w r k with
  | _ p ihp =>
    induction w using Nat.strong_induction_on generalizing r k with
    | _ w ihw =>
      have hready₁ : ∀ n, Ready left Inv r (sizes k :: blocksFrom sizes (k + 1) n) :=
        fun n => blocksFrom_succ sizes k n ▸ hready (n + 1)
      obtain ⟨z, taken, block, finished, hdeflate⟩ : ∃ z taken block finished,
          zlib.deflate (r.refill write (sizes k)).zstrm (r.refill write (sizes k)).buffer (sizes k)
            (r.refill write (sizes k)).buffer.isEmpty = (z, taken, block, finished) :=
        ⟨_, _, _, _, rfl⟩
      have hprocess := process_eq hgoes hdeflate
      -- a rest of the response that ends makes this one end
      have hsucc : ∀ n, (respond zlib write { r.refill write (sizes k) with
            zstrm := z, zFinished := finished,
            buffer := (r.refill write (sizes k)).buffer.drop taken }
          (blocksFrom sizes (k + 1) n)).isSome = true →
          ∃ n, (respond zlib write r (blocksFrom sizes k n)).isSome = true := by
        intro n hn
        refine ⟨n + 1, ?_⟩
        rw [blocksFrom_succ, respond, hprocess]
        rw [Option.isSome_map]
        exact hn
      cases finished with
      | true =>
        refine hsucc 1 ?_
        rw [blocksFrom_succ, respond_of_finished rfl]
        rfl
      | false =>
        have hready' : ∀ n, Ready left Inv { r.refill write (sizes k) with
            zstrm := z, zFinished := false,
            buffer := (r.refill write (sizes k)).buffer.drop taken }
            (blocksFrom sizes (k + 1) n) := by
          intro n
          obtain ⟨h, -⟩ := refill_spec hw (hready₁ n)
          exact ⟨h.inv, h.packs, h.solid⟩
        by_cases hdone : r.callbackFinished = true
        · have hrefill : r.refill write (sizes k) = r := by rw [refill, if_pos hdone]
          have hless := hz.progress (hpos k) (by
            cases (r.refill write (sizes k)).buffer with
            | nil => exact .inl rfl
            | cons c cs => exact .inr (List.cons_ne_nil _ _)) hdeflate
          rw [hrefill] at hless hready' hsucc
          rw [hwork] at hless
          obtain ⟨n, hn⟩ := ihw _ hless { r with
            zstrm := z, zFinished := false, buffer := r.buffer.drop taken } hp rfl (k + 1) rfl hready'
          exact hsucc n hn
        · have hlt : phase left { r.refill write (sizes k) with
              zstrm := z, zFinished := false,
              buffer := (r.refill write (sizes k)).buffer.drop taken } < p := by
            rw [← hp, phase, phase, if_neg hdone]
            rcases pending_refill_lt hw (hready₁ 0) (Bool.eq_false_iff.2 hdone) with h | ⟨h, hlt⟩
            · rw [if_pos h]
              exact Nat.succ_pos _
            · rw [if_neg (Bool.eq_false_iff.1 h)]
              exact Nat.succ_lt_succ hlt
          obtain ⟨n, hn⟩ := ihp _ hlt _ _ rfl rfl (k + 1) rfl hready'
          exact hsucc n hn

/-- A compressed response ends, and inflates to the plain one. -/
theorem respond_gzip (hz : zlib.Deflates inflate carries work) (hw : Fills write left Inv) {d : D}
    (hinv : Inv d) {sizes : Nat → Nat} (hpos : ∀ k, 0 < sizes k)
    (hpacks : ∀ n, Packs ((List.range n).map sizes) (left d)) (hsolid : Solid (left d)) :
    (∃ n, (respond zlib write { callbackData := d, zstrm := zlib.init }
      ((List.range n).map sizes)).isSome) ∧
    ∀ n bytes, respond zlib write { callbackData := d, zstrm := zlib.init }
        ((List.range n).map sizes) = some bytes → inflate bytes = some (left d).flatten := by
  have hblocks : ∀ n, blocksFrom sizes 0 n = (List.range n).map sizes := by
    intro n
    simp only [blocksFrom, Nat.zero_add]
  have hready : ∀ n, Ready left Inv ({ callbackData := d, zstrm := zlib.init } : GzipReaderState Z D)
      ((List.range n).map sizes) := fun n => ⟨fun _ => hinv, hpacks n, hsolid⟩
  refine ⟨?_, fun n bytes h => respond_inflates hz hw (hready n) rfl hz.start h⟩
  obtain ⟨n, hn⟩ := respond_ends hz hw hpos _ _ _ rfl rfl 0 rfl fun n => hblocks n ▸ hready n
  exact ⟨n, hblocks n ▸ hn⟩

end GzipReaderState

end Alto.Server
