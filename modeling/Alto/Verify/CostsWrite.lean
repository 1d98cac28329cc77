import Mathlib
import Alto.Portal.CostHandlers
import Alto.Verify.AltoMaps
import Alto.Verify.PIDMapWrite

/-!
# The costs on the wire

`GetCostsWrite` rounds a pDistance by a conversion to `unsigned int` and clips the result. The conversion
is defined below `2^32` only: an infinite pDistance and an undefined one reach it as well.
-/

namespace Alto.Portal

open Lib Server Server.ResponseStream

/-! ## Numbers -/

/-- What the conversion of a compiler is promised to do. -/
structure Converts (cast : Double → Nat) : Prop where
  defined : ∀ {x n}, x.toUInt32 = some n → cast x = n
  fits : ∀ x, cast x < 2 ^ 32

/-- The pDistances of a view: undefined, infinite, or not negative. -/
def IsPDistance : Double → Prop
  | .nan => True
  | .inf negative => negative = false
  | .fin q => 0 ≤ q

/-- The nearest integer, clipped. -/
def roundedCost (q : ℚ) : Nat :=
  clip (round q).toNat minPDistance maxPDistance

variable {cast : Double → Nat} {view : CostView} {s d : PID} {q : ℚ}

theorem clip_mono {m n : Nat} (h : m ≤ n) :
    clip m minPDistance maxPDistance ≤ clip n minPDistance maxPDistance := by
  unfold clip minPDistance maxPDistance
  split_ifs <;> omega

theorem clip_le (n : Nat) : clip n minPDistance maxPDistance ≤ maxPDistance := by
  unfold clip minPDistance maxPDistance
  split_ifs <;> omega

theorem round_mono {p q : ℚ} (h : p ≤ q) : round p ≤ round q := by
  rw [round_eq, round_eq]
  exact Int.floor_mono (add_le_add_left h _)

theorem roundedCost_mono {p q : ℚ} (h : p ≤ q) : roundedCost p ≤ roundedCost q :=
  clip_mono (Int.toNat_le_toNat (round_mono h))

/-- Below `2^32` the conversion rounds. -/
theorem wireCost_of_lt (hcast : Converts cast) (hcost : view.getPDistance s d = .fin q)
    (hq : 0 ≤ q) (hlt : q + 1 / 2 < 2 ^ 32) : wireCost .fin cast view s d = roundedCost q := by
  have hrange : -1 < q + 1 / 2 ∧ q + 1 / 2 < 2 ^ 32 := ⟨by linarith, hlt⟩
  have hconv : (Double.fin (q + 1 / 2)).toUInt32 = some (round q).toNat := by
    rw [round_eq, Double.toUInt32, if_pos hrange]
    rfl
  rw [wireCost, roundInt, hcost, Double.add, hcast.defined hconv, roundedCost]

/-- A conversion that gives zero wherever it may. -/
def zeroCast (x : Double) : Nat := x.toUInt32.getD 0

theorem converts_zeroCast : Converts zeroCast where
  defined h := by rw [zeroCast, h]; rfl
  fits x := by
    unfold zeroCast
    cases x with
    | nan => decide
    | inf negative => exact Nat.two_pow_pos 32
    | fin q =>
      rw [Double.toUInt32]
      split
      · next h =>
        have hfloor : q.floor < 2 ^ 32 := by
          have : (⌊q⌋ : ℤ) < 2 ^ 32 := Int.floor_lt.2 (by exact_mod_cast h.2)
          exact this
        simp only [Option.getD_some]
        omega
      · decide

/-! ## Costs that saturate -/

/-- The written costs are the rounded and clipped pDistances: larger ones give no smaller numbers, an
infinite one gives the maximum, and there is no number for an undefined one. -/
structure Saturates (view : CostView) (pairs : PID → PID → Prop) (cost : PID → PID → Nat) :
    Prop where
  rounded : ∀ s d q, pairs s d → view.getPDistance s d = .fin q → cost s d = roundedCost q
  monotone : ∀ s d s' d', pairs s d → pairs s' d' →
    (view.getPDistance s d).le (view.getPDistance s' d') = true → cost s d ≤ cost s' d'
  infinite : ∀ s d, pairs s d → view.getPDistance s d = .infinity → cost s d = maxPDistance
  defined : ∀ s d, pairs s d → view.getPDistance s d ≠ .nan

/-- The rounding and clipping of defined pDistances below `2^32` is safe, and no other is. -/
theorem saturates_iff (hview : ∀ s d, IsPDistance (view.getPDistance s d))
    (pairs : PID → PID → Prop) :
    (∀ cast, Converts cast → Saturates view pairs (wireCost .fin cast view)) ↔
      ∀ s d, pairs s d → ∃ q, view.getPDistance s d = .fin q ∧ q + 1 / 2 < 2 ^ 32 := by
  constructor
  · intro h s d hpair
    have hzero := h zeroCast converts_zeroCast
    cases hcost : view.getPDistance s d with
    | nan => exact absurd hcost (hzero.defined s d hpair)
    | inf negative =>
      obtain rfl : negative = false := by simpa [hcost, IsPDistance] using hview s d
      have hmax := hzero.infinite s d hpair hcost
      rw [wireCost, roundInt, hcost] at hmax
      exact absurd hmax (by decide)
    | fin q =>
      refine ⟨q, rfl, not_le.1 fun hle => ?_⟩
      -- the conversion gives zero, and the pDistance is far above the maximum
      have hround := hzero.rounded s d q hpair hcost
      have hno : ¬ (-1 < q + 1 / 2 ∧ q + 1 / 2 < 2 ^ 32) := fun hlt => not_lt.2 hle hlt.2
      have hwire : wireCost .fin zeroCast view s d = 0 := by
        rw [wireCost, roundInt, hcost, Double.add, zeroCast, Double.toUInt32, if_neg hno]
        rfl
      have hlarge : (2 ^ 32 : ℤ) ≤ round q := by
        rw [round_eq]
        exact Int.le_floor.2 (by exact_mod_cast hle)
      have hmax : maxPDistance ≤ roundedCost q := by
        have hnat : 2 ^ 32 ≤ (round q).toNat := by omega
        unfold roundedCost clip minPDistance maxPDistance
        split_ifs <;> omega
      rw [← hround, hwire] at hmax
      exact absurd hmax (by decide)
  · intro h cast hcast
    have hwire : ∀ s d q, pairs s d → view.getPDistance s d = .fin q →
        wireCost .fin cast view s d = roundedCost q := by
      intro s d q hpair hcost
      obtain ⟨q', hcost', hlt⟩ := h s d hpair
      obtain rfl := Double.fin.inj (hcost.symm.trans hcost')
      have hq : 0 ≤ q := by simpa [hcost, IsPDistance] using hview s d
      exact wireCost_of_lt hcast hcost hq hlt
    refine ⟨hwire, ?_, ?_, ?_⟩
    · intro s d s' d' hpair hpair' hle
      obtain ⟨q, hcost, -⟩ := h s d hpair
      obtain ⟨q', hcost', -⟩ := h s' d' hpair'
      rw [hwire s d q hpair hcost, hwire s' d' q' hpair' hcost']
      rw [hcost, hcost'] at hle
      exact roundedCost_mono (by simpa [Double.le] using hle)
    · intro s d hpair hcost
      obtain ⟨q, hcost', -⟩ := h s d hpair
      cases hcost.symm.trans hcost'
    · intro s d hpair hcost
      obtain ⟨q, hcost', -⟩ := h s d hpair
      cases hcost.symm.trans hcost'

/-! ## The items of the response -/

/-- The head of an entry. -/
def costsHeadItem (e : CostsEntry) : List Char :=
  e.1.toText ++ ['\t'] ++ (if e.2.1 then "inc-reverse".toList else "no-reverse".toList) ++ ['\t'] ++
    Nat.toDigits 10 e.2.2.size

/-- A destination with its costs. -/
def dstItem (cost : PID → PID → Nat) (src : PID) (reverse : Bool) (dst : PID) : List Char :=
  ['\t'] ++ dst.toText ++ ['\t'] ++ Nat.toDigits 10 (cost src dst) ++
    if reverse then ['\t'] ++ Nat.toDigits 10 (cost dst src) else []

/-- The items of an entry with destinations. -/
def costsItems (cost : PID → PID → Nat) (e : CostsEntry) : List (List Char) :=
  costsHeadItem e :: (e.2.2.toList.map (dstItem cost e.1 e.2.1) ++ [endItem])

/-- The items of the entries that have destinations. -/
def costsEntriesItems (cost : PID → PID → Nat) (es : List CostsEntry) : List (List Char) :=
  es.flatMap fun e => if e.2.2.isEmpty then [] else costsItems cost e

namespace GetCostsCursor

/-- The items that are left of the current entry. -/
def entryLeft (cost : PID → PID → Nat) (data : GetCostsCursor) (e : CostsEntry) :
    List (List Char) :=
  match data.pidState with
  | 0 => costsItems cost e
  | 1 => data.entryCur.map (dstItem cost e.1 e.2.1) ++ [endItem]
  | _ => [endItem]

/-- The items that are left of the entries. -/
def itemsLeft (cost : PID → PID → Nat) (data : GetCostsCursor) :
    List CostsEntry → List (List Char)
  | [] => []
  | e :: es =>
    if e.2.2.isEmpty then data.itemsLeft cost es
    else data.entryLeft cost e ++ costsEntriesItems cost es

variable {cost : PID → PID → Nat} {data data' : GetCostsCursor} {e : CostsEntry}
  {rsp : ResponseStream} {result : GetCostsCursor × ResponseStream} {xs ys : List (List Char)}

/-- What putting an entry does: the stream takes the items of the entry, and the cursor stands at what
is left. -/
structure Puts (cost : PID → PID → Nat) (data : GetCostsCursor) (e : CostsEntry)
    (rsp : ResponseStream) (result : GetCostsCursor × ResponseStream) : Prop where
  stream : result.2 = (putAll (data.entryLeft cost e) rsp).2
  whole : result.2.good = true → result.1.pidState = 0
  part : result.2.good = false →
    result.1.entryLeft cost e = (putAll (data.entryLeft cost e) rsp).1 ∧ result.1.pidState ≤ 2

theorem putDst_eq (src dst : PID) (reverse : Bool) (rsp : ResponseStream) :
    putDst cost src dst reverse rsp = rsp.put (dstItem cost src reverse dst) := by
  simp only [putDst, put_put, dstItem, List.append_assoc]
  cases reverse with
  | false => simp
  | true =>
    simp only [and_true, if_true]
    split
    · rfl
    · next hbad =>
      -- a stream that is not good takes nothing more
      have hstuck := put_put rsp (['\t'] ++ (dst.toText ++ (['\t'] ++ Nat.toDigits 10 (cost src dst))))
        (['\t'] ++ Nat.toDigits 10 (cost dst src))
      rw [put, if_neg hbad] at hstuck
      simpa only [List.append_assoc] using hstuck

theorem putDsts_eq (cost : PID → PID → Nat) (src : PID) (reverse : Bool) (dsts : List PID) (rsp : ResponseStream) :
    (putDsts cost src reverse dsts rsp).2 =
        (putAll (dsts.map (dstItem cost src reverse)) rsp).2 ∧
      (putDsts cost src reverse dsts rsp).1.map (dstItem cost src reverse) =
        (putAll (dsts.map (dstItem cost src reverse)) rsp).1 := by
  induction dsts generalizing rsp with
  | nil => exact ⟨rfl, rfl⟩
  | cons dst dsts ih =>
    simp only [putDsts, putDst_eq, List.map_cons, putAll]
    split
    · exact ih _
    · exact ⟨rfl, rfl⟩

/-- Some of the items have been put, and the rest goes on from there. -/
theorem Puts.after (hgood : rsp.good = true)
    (hleft : data.entryLeft cost e = xs ++ data'.entryLeft cost e)
    (hxs : (putAll xs rsp).2.good = true) (h : Puts cost data' e (putAll xs rsp).2 result) :
    Puts cost data e rsp result := by
  have hall : putAll (data.entryLeft cost e) rsp =
      putAll (data'.entryLeft cost e) (putAll xs rsp).2 := by
    rw [hleft, putAll_append hgood, if_pos hxs]
  exact ⟨hall ▸ h.stream, h.whole, hall ▸ h.part⟩

/-- The stream is exhausted before the items have been put. -/
theorem Puts.stuck (hgood : rsp.good = true) (hstate : data'.pidState ≤ 2)
    (hleft : data.entryLeft cost e = xs ++ ys) (hxs : ¬ (putAll xs rsp).2.good = true)
    (hleft' : data'.entryLeft cost e = (putAll xs rsp).1 ++ ys) :
    Puts cost data e rsp (data', (putAll xs rsp).2) := by
  have hall : putAll (data.entryLeft cost e) rsp =
      ((putAll xs rsp).1 ++ ys, (putAll xs rsp).2) := by
    rw [hleft, putAll_append hgood, if_neg hxs]
  exact ⟨by rw [hall], fun h => absurd h hxs, fun _ => ⟨by rw [hall, hleft'], hstate⟩⟩

/-- The stream is exhausted by the first item. -/
theorem Puts.none {item : List Char} (hstate : data.pidState ≤ 2)
    (hleft : data.entryLeft cost e = item :: xs) (hput : ¬ (rsp.put item).good = true) :
    Puts cost data e rsp (data, rsp.put item) := by
  have hall : putAll (data.entryLeft cost e) rsp = (item :: xs, rsp.put item) := by
    rw [hleft, putAll, if_neg hput]
  exact ⟨by rw [hall], fun h => absurd h hput, fun _ => ⟨by rw [hall, hleft], hstate⟩⟩

theorem putEnd_puts (hstate : data.pidState = 2) : Puts cost data e rsp (putEnd data rsp) := by
  have hleft : data.entryLeft cost e = [endItem] := by simp [entryLeft, hstate]
  unfold putEnd
  rw [← endItem]
  dsimp only
  split
  · next hput =>
    refine ⟨?_, fun _ => rfl, fun hbad => absurd (hput.symm.trans hbad) (by decide)⟩
    rw [hleft, putAll, if_pos hput, putAll]
  · next hput => exact .none hstate.le hleft hput

theorem putList_puts (hgood : rsp.good = true) (hstate : data.pidState = 1) :
    Puts cost data e rsp (putList cost data e rsp) := by
  have hleft : data.entryLeft cost e = data.entryCur.map (dstItem cost e.1 e.2.1) ++ [endItem] := by
    simp [entryLeft, hstate]
  obtain ⟨hstream, hrest⟩ := putDsts_eq cost e.1 e.2.1 data.entryCur rsp
  simp only [putList, hstream]
  split
  · next hgood' => exact .after hgood hleft hgood' (putEnd_puts rfl)
  · next hbad =>
    refine .stuck hgood (hstate.le.trans (by decide)) hleft hbad ?_
    simp only [entryLeft, hstate, hrest]

theorem putHead_puts (hgood : rsp.good = true) (hstate : data.pidState = 0) :
    Puts cost data e rsp (putHead cost data e rsp) := by
  have hleft : data.entryLeft cost e = [costsHeadItem e] ++
      entryLeft cost { data with entryCur := e.2.2.toList, pidState := 1 } e := by
    simp [entryLeft, hstate, costsItems]
  simp only [putHead, put_put]
  rw [← costsHeadItem]
  split
  · next hput =>
    have hall : putAll [costsHeadItem e] rsp = ([], (rsp.put (costsHeadItem e)).setMark) := by
      rw [putAll, if_pos hput, putAll]
    refine .after hgood hleft (by rw [hall]; exact hput) ?_
    rw [hall]
    exact putList_puts hput rfl
  · next hput => exact .none (hstate.le.trans (Nat.zero_le _)) hleft hput

theorem putEntry_puts (cost : PID → PID → Nat) (e : CostsEntry) (hgood : rsp.good = true)
    (hstate : data.pidState ≤ 2) : Puts cost data e rsp (putEntry cost data e rsp) := by
  unfold putEntry
  split
  · next h => exact putHead_puts hgood h
  · next h => exact putList_puts hgood h
  · next h => exact putEnd_puts h
  · next h0 h1 h2 =>
    have : data.pidState ≠ 0 := h0
    have : data.pidState ≠ 1 := h1
    have : data.pidState ≠ 2 := h2
    omega

theorem itemsLeft_zero (hstate : data.pidState = 0) (es : List CostsEntry) :
    data.itemsLeft cost es = costsEntriesItems cost es := by
  induction es with
  | nil => rfl
  | cons e es ih =>
    have hcons : costsEntriesItems cost (e :: es) =
        (if e.2.2.isEmpty then [] else costsItems cost e) ++ costsEntriesItems cost es := rfl
    rw [itemsLeft, hcons]
    split
    · exact ih
    · simp only [entryLeft, hstate]

/-- The loop over the entries takes the items that are left. -/
theorem putEntries_spec (cost : PID → PID → Nat) (es : List CostsEntry) (hgood : rsp.good = true)
    (hstate : data.pidState ≤ 2) :
    (putEntries cost es data rsp).2 = (putAll (data.itemsLeft cost es) rsp).2 ∧
      (putEntries cost es data rsp).1.itemsLeft cost (putEntries cost es data rsp).1.pidsCur =
        (putAll (data.itemsLeft cost es) rsp).1 ∧
      (putEntries cost es data rsp).1.pidState ≤ 2 ∧
      ((putEntries cost es data rsp).1.pidsCur = [] ↔
        (putEntries cost es data rsp).2.good = true) := by
  induction es generalizing data rsp with
  | nil => exact ⟨rfl, rfl, hstate, ⟨fun _ => hgood, fun _ => rfl⟩⟩
  | cons e es ih =>
    rw [putEntries, itemsLeft]
    split
    · exact ih hgood hstate
    · next hne =>
      have hputs := putEntry_puts cost e hgood hstate
      generalize putEntry cost data e rsp = result at hputs
      obtain ⟨data', rsp'⟩ := result
      obtain ⟨hstream, hwhole, hpart⟩ := hputs
      simp only at hstream hwhole hpart ⊢
      rw [putAll_append hgood, ← hstream]
      split
      · next hgood' =>
        have hzero := hwhole hgood'
        rw [← itemsLeft_zero hzero]
        exact ih hgood' (hzero.le.trans (Nat.zero_le _))
      · next hbad =>
        obtain ⟨hrest, hstate'⟩ := hpart (by simpa using hbad)
        refine ⟨rfl, ?_, hstate', ⟨fun h => absurd h (List.cons_ne_nil _ _),
          fun h => absurd h hbad⟩⟩
        have hsame : entryLeft cost { data' with pidsCur := e :: es } e = data'.entryLeft cost e :=
          rfl
        rw [itemsLeft, if_neg hne, hsame, hrest]

/-- What the callback has left. The end of the entries is found in a last block, which may be empty. -/
def left (cost : PID → PID → Nat) (data : GetCostsCursor) : List (List Char) :=
  if data.pidsCur.isEmpty then [] else data.itemsLeft cost data.pidsCur ++ [[]]

end GetCostsCursor

/-! ## The blocks of the response -/

theorem putAll_nil_iff {items : List (List Char)} {rsp : ResponseStream} (hgood : rsp.good = true) :
    (putAll items rsp).1 = [] ↔ (putAll items rsp).2.good = true := by
  induction items generalizing rsp with
  | nil => exact ⟨fun _ => hgood, fun _ => rfl⟩
  | cons item items ih =>
    rw [putAll]
    split
    · next hput => exact ih hput
    · next hput => exact ⟨fun h => absurd h (List.cons_ne_nil _ _), fun h => absurd h hput⟩

/-- A block is filled with the items that are left, however large it is. -/
theorem getCostsWrite_fill (rnd : ℚ → Double) (cast : Double → Nat) (view : CostView)
    {data : GetCostsCursor} (hstate : data.pidState ≤ 2) (hne : data.pidsCur ≠ []) (max : Nat) :
    (getCostsWrite rnd cast view data max).2 =
        some (fill max (data.left (wireCost rnd cast view))).1.flatten ∧
      (getCostsWrite rnd cast view data max).1.left (wireCost rnd cast view) =
        (fill max (data.left (wireCost rnd cast view))).2 ∧
      (getCostsWrite rnd cast view data max).1.pidState ≤ 2 := by
  obtain ⟨hstream, hrest, hstate', hend⟩ := GetCostsCursor.putEntries_spec
    (wireCost rnd cast view) data.pidsCur (clean_start max).good hstate
  obtain ⟨hfill, hmarked⟩ := (clean_start max).putAll_eq_fill
    (data.itemsLeft (wireCost rnd cast view) data.pidsCur)
  have hroom : room { size := max } = max := rfl
  rw [hroom] at hfill hmarked
  have hempty : ¬ data.pidsCur.isEmpty = true := by simpa using hne
  have hleft : data.left (wireCost rnd cast view) =
      data.itemsLeft (wireCost rnd cast view) data.pidsCur ++ [[]] := if_neg hempty
  rw [hleft, fill_end, getCostsWrite, if_neg hempty]
  refine ⟨?_, ?_, hstate'⟩
  · dsimp only
    rw [hstream, hmarked]
    split
    · next hnil => simp [fill_fst_of_snd hnil]
    · rfl
  · dsimp only
    have hcur := hend.trans (hstream ▸ (putAll_nil_iff (clean_start max).good).symm)
    rw [hfill] at hcur hrest
    by_cases hnil : (fill max (data.itemsLeft (wireCost rnd cast view) data.pidsCur)).2 = []
    · rw [if_pos hnil, GetCostsCursor.left, if_pos (List.isEmpty_iff.2 (hcur.2 hnil))]
    · rw [if_neg hnil, GetCostsCursor.left,
        if_neg (fun h => hnil (hcur.1 (List.isEmpty_iff.1 h))), hrest]

/-- Whatever the sizes of the blocks, a client receives whole items from the front of the response. -/
theorem respond_getCostsWrite (rnd : ℚ → Double) (cast : Double → Nat) (view : CostView)
    {data : GetCostsCursor} (hstate : data.pidState ≤ 2) {sizes : List Nat} {text : List Char}
    (h : ContentReaderState.respond (getCostsWrite rnd cast view) { callbackData := data } sizes =
      some text) :
    ∃ items, items <+: data.left (wireCost rnd cast view) ∧ text = items.flatten := by
  induction sizes generalizing data text with
  | nil => cases h
  | cons max sizes ih =>
    rw [ContentReaderState.respond, ContentReaderState.process] at h
    by_cases hcur : data.pidsCur = []
    · have hwrite : getCostsWrite rnd cast view data max = (data, none) := by
        rw [getCostsWrite, if_pos (List.isEmpty_iff.2 hcur)]
      simp only [hwrite, ContentReaderState.processNormal] at h
      exact ⟨[], List.nil_prefix, by simpa using h.symm⟩
    · obtain ⟨hblock, hleft, hstate'⟩ := getCostsWrite_fill rnd cast view hstate hcur max
      have happend := fill_append max (data.left (wireCost rnd cast view))
      generalize getCostsWrite rnd cast view data max = result at h hblock hleft hstate'
      obtain ⟨data', block⟩ := result
      simp only at hblock hleft hstate'
      subst hblock
      have hlen := fill_length_le max (data.left (wireCost rnd cast view))
      generalize hfill : fill max (data.left (wireCost rnd cast view)) = filled at h hleft happend hlen
      simp only [ContentReaderState.processNormal, List.nil_append, Nat.min_eq_left hlen,
        List.take_length, List.drop_length] at h
      by_cases hempty : filled.1.flatten.isEmpty = true
      · rw [if_pos hempty] at h
        exact ⟨[], List.nil_prefix, by simpa using h.symm⟩
      · rw [if_neg hempty] at h
        obtain ⟨rest, hrest, rfl⟩ := Option.map_eq_some_iff.1 h
        obtain ⟨items, hitems, rfl⟩ := ih hstate' hrest
        refine ⟨filled.1 ++ items, ?_, (List.flatten_append).symm⟩
        rw [← happend, ← hleft]
        exact (List.prefix_append_right_inj _).2 hitems

/-! ## The pairs of a response -/

/-- The costs of the pair are among those of the entries. -/
def PairIn (es : List CostsEntry) (s d : PID) : Prop :=
  ∃ e ∈ es, (e.1 = s ∧ d ∈ e.2.2) ∨ (e.2.1 = true ∧ e.1 = d ∧ s ∈ e.2.2)

/-- A request asks for the costs from a PID with prefixes to another one: to each that it lists, or to
all that have prefixes. -/
structure Asked (prefixes : PIDMap) (data : GetCostsState) (s d : PID) (reverse : Bool) :
    Prop where
  src : prefixes.hasPrefixes s = true
  entry : if data.pids.isEmpty then reverse = false ∧ prefixes.hasPrefixes d = true
    else ∃ dsts, data.pids[s]? = some (reverse, dsts) ∧
      (d ∈ dsts ∨ dsts.isEmpty = true ∧ data.needAll = true ∧ prefixes.hasPrefixes d = true)

/-- The pairs that the response to a request has costs for. -/
def Written (prefixes : PIDMap) (data : GetCostsState) (s d : PID) : Prop :=
  (∃ reverse, Asked prefixes data s d reverse) ∨ Asked prefixes data d s true

section Finish

variable {prefixes : PIDMap} {data : GetCostsState} {reverse : Bool}

/-- The PIDs that the response lists if it must list all. -/
theorem mem_allCostPids (needAll : Bool) (pid : PID) :
    (pid ∈ if needAll then pidSetOf prefixes.enumerateValues else (∅ : StdSet PID)) ↔
      needAll = true ∧ prefixes.hasPrefixes pid = true := by
  cases needAll with
  | false => simp
  | true => simp [mem_pidSetOf, PatriciaTrie.enumerateValues, PatriciaTrie.hasPrefixes]

theorem mem_fillDsts {allPids : StdSet PID} {src dst : PID} {e : Bool × StdSet PID} :
    dst ∈ (fillDsts prefixes allPids src e).2 ↔ prefixes.hasPrefixes src = true ∧
      (dst ∈ e.2 ∨ e.2.isEmpty = true ∧ dst ∈ allPids) := by
  unfold fillDsts
  split
  · next h => simp [h]
  · next h =>
    have hsrc : prefixes.hasPrefixes src = true := by simpa using h
    split
    · next hempty =>
      have hno : dst ∉ e.2 := by
        rw [Std.ExtTreeSet.isEmpty_iff.1 hempty]
        exact Std.ExtTreeSet.not_mem_empty
      simp [hsrc, hempty, hno]
    · next hne => simp [hsrc, hne]

theorem fillDsts_reverse {allPids : StdSet PID} {src : PID} {e : Bool × StdSet PID} :
    (fillDsts prefixes allPids src e).1 = e.1 := by
  unfold fillDsts
  split_ifs <;> rfl

/-- The entries of the map that is filled with all PIDs. -/
theorem get_foldl_noDsts (pids : List PID) (src : PID) :
    (pids.foldl (fun pids pid => pids.insert pid (false, ∅)) (∅ : StdMap PID (Bool × StdSet PID)))[src]? =
      if src ∈ pids then some (false, ∅) else none := by
  rcases StdMap.get_foldl_insert (fun pid : PID => pid) (fun _ => (false, (∅ : StdSet PID))) pids ∅ src
    with ⟨pid, hpid, rfl, h⟩ | ⟨hno, h⟩
  · rw [h, if_pos hpid]
  · rw [h, if_neg fun hmem => hno src hmem rfl, Std.ExtTreeMap.getElem?_empty]

/-- The entries of a response, from those of the request. -/
theorem mem_fillDsts_toList {allPids : StdSet PID} {pids : StdMap PID (Bool × StdSet PID)}
    {src dst : PID} :
    (∃ dsts, (src, reverse, dsts) ∈ (pids.map (fillDsts prefixes allPids)).toList ∧ dst ∈ dsts) ↔
      prefixes.hasPrefixes src = true ∧ ∃ dsts, pids[src]? = some (reverse, dsts) ∧
        (dst ∈ dsts ∨ dsts.isEmpty = true ∧ dst ∈ allPids) := by
  simp only [Std.ExtTreeMap.mem_toList_iff_getElem?_eq_some, Std.ExtTreeMap.getElem?_map,
    Option.map_eq_some_iff]
  constructor
  · rintro ⟨dsts, ⟨e, hget, he⟩, hdst⟩
    have hrev : (fillDsts prefixes allPids src e).1 = e.1 := fillDsts_reverse
    rw [he] at hrev
    have hmem : dst ∈ (fillDsts prefixes allPids src e).2 := by rw [he]; exact hdst
    obtain ⟨hsrc, hin⟩ := mem_fillDsts.1 hmem
    exact ⟨hsrc, e.2, by rw [hget, show reverse = e.1 from hrev], hin⟩
  · rintro ⟨hsrc, dsts, hget, hin⟩
    refine ⟨(fillDsts prefixes allPids src (reverse, dsts)).2, ⟨_, hget, ?_⟩,
      mem_fillDsts.2 ⟨hsrc, hin⟩⟩
    exact Prod.ext fillDsts_reverse rfl

/-- The destinations that `GetCostsFinish` gives a source are those that the request asks for. -/
theorem asked_iff {src dst : PID} :
    (∃ dsts, (src, reverse, dsts) ∈ (getCostsFinish prefixes data).pidsCur ∧ dst ∈ dsts) ↔
      Asked prefixes data src dst reverse := by
  have hasked : Asked prefixes data src dst reverse ↔ prefixes.hasPrefixes src = true ∧
      if data.pids.isEmpty then reverse = false ∧ prefixes.hasPrefixes dst = true
      else ∃ dsts, data.pids[src]? = some (reverse, dsts) ∧
        (dst ∈ dsts ∨ dsts.isEmpty = true ∧ data.needAll = true ∧
          prefixes.hasPrefixes dst = true) :=
    ⟨fun h => ⟨h.src, h.entry⟩, fun h => ⟨h.1, h.2⟩⟩
  rw [hasked, getCostsFinish]
  dsimp only
  rw [mem_fillDsts_toList]
  apply and_congr_right
  intro hsrc
  simp only [mem_allCostPids]
  by_cases hempty : data.pids.isEmpty = true
  · -- every PID with prefixes is a source, and each source gets all of them
    have hmem : src ∈ (pidSetOf prefixes.enumerateValues).toList :=
      Std.ExtTreeSet.mem_toList.2 ((mem_allCostPids true src).2 ⟨rfl, hsrc⟩)
    have hget := get_foldl_noDsts (pidSetOf prefixes.enumerateValues).toList src
    rw [if_pos hmem] at hget
    simp only [Std.ExtTreeMap.isEmpty_iff.1 hempty, Std.ExtTreeMap.isEmpty_empty, Bool.or_true,
      if_true, true_and]
    constructor
    · rintro ⟨dsts, h, hin⟩
      obtain ⟨rfl, rfl⟩ := Prod.mk.inj (Option.some.inj (hget.symm.trans h))
      exact ⟨rfl, by simpa using hin⟩
    · rintro ⟨rfl, hdst⟩
      exact ⟨∅, hget, .inr ⟨Std.ExtTreeSet.isEmpty_empty, hdst⟩⟩
  · simp [hempty]

theorem pairIn_iff {s d : PID} :
    PairIn (getCostsFinish prefixes data).pidsCur s d ↔ Written prefixes data s d := by
  unfold PairIn Written
  simp only [← asked_iff]
  constructor
  · rintro ⟨⟨src, reverse, dsts⟩, he, ⟨rfl, hd⟩ | ⟨rfl, rfl, hs⟩⟩
    · exact .inl ⟨reverse, dsts, he, hd⟩
    · exact .inr ⟨dsts, he, hs⟩
  · rintro (⟨reverse, dsts, he, hd⟩ | ⟨dsts, he, hs⟩)
    · exact ⟨_, he, .inl ⟨rfl, hd⟩⟩
    · exact ⟨_, he, .inr ⟨rfl, rfl, hs⟩⟩

end Finish

/-! ## The conversion of a 64-bit machine -/

/-- The low bits of a signed integer, which is `-2^63` for what does not fit. -/
def lowBits : Double → Nat
  | .fin q =>
    if -2 ^ 63 - 1 < q ∧ q < 2 ^ 63 then ((if 0 ≤ q then q.floor else -(-q).floor) % 2 ^ 32).toNat
    else 0
  | _ => 0

theorem converts_lowBits : Converts lowBits where
  defined {x n} h := by
    cases x with
    | nan => cases h
    | inf negative => cases h
    | fin q =>
      rw [Double.toUInt32] at h
      split at h
      · next hq =>
        obtain rfl := Option.some.inj h
        have hrange : -2 ^ 63 - 1 < q ∧ q < 2 ^ 63 := ⟨by linarith, by linarith⟩
        have hlt : q.floor < 2 ^ 32 :=
          Int.floor_lt.2 (by exact_mod_cast hq.2 : q < ((2 ^ 32 : ℤ) : ℚ))
        rw [lowBits, if_pos hrange]
        split
        · next hpos =>
          have hnonneg : 0 ≤ q.floor := Int.floor_nonneg.2 hpos
          rw [Int.emod_eq_of_lt hnonneg hlt]
        · next hneg =>
          have hfloor : q.floor < 0 := Int.floor_lt.2 (by simpa using hneg : q < ((0 : ℤ) : ℚ))
          have hzero : (⌊-q⌋ : ℤ) = 0 := by
            rw [Int.floor_eq_iff]
            constructor <;> push_cast <;> linarith
          change (-q).floor = 0 at hzero
          rw [hzero]
          omega
      · cases h
  fits x := by
    unfold lowBits
    split
    · split <;> omega
    · decide

/-! ## The costs on the wire -/

/-- A client receives whole items from the front of the response, with the costs as numbers. These
are rounded and clipped as they should be, whatever the conversion does where it is undefined,
exactly if every pair of the response has a finite pDistance that rounds to less than `2^32`. -/
theorem wire_costs_saturate (hview : ∀ s d, IsPDistance (view.getPDistance s d))
    (data : GetCostsState) :
    (∀ cast sizes text,
      ContentReaderState.respond (getCostsWrite .fin cast view)
          { callbackData := getCostsFinish view.prefixes data } sizes = some text →
        ∃ items, items <+: costsEntriesItems (wireCost .fin cast view)
          (getCostsFinish view.prefixes data).pidsCur ∧ text = items.flatten) ∧
    ((∀ cast, Converts cast → Saturates view
        (PairIn (getCostsFinish view.prefixes data).pidsCur) (wireCost .fin cast view)) ↔
      ∀ s d, Written view.prefixes data s d →
        ∃ q, view.getPDistance s d = .fin q ∧ q + 1 / 2 < 2 ^ 32) := by
  constructor
  · intro cast sizes text htext
    obtain ⟨items, hitems, rfl⟩ := respond_getCostsWrite .fin cast view (Nat.zero_le 2) htext
    rw [GetCostsCursor.left, GetCostsCursor.itemsLeft_zero rfl] at hitems
    split at hitems
    · exact ⟨items, hitems.trans List.nil_prefix, rfl⟩
    · exact prefix_end hitems
  · rw [saturates_iff hview]
    simp only [pairIn_iff]

/-- A view with one PID and a pDistance from it to itself. -/
def singleView (x : Double) : CostView where
  prefixes := (PatriciaTrie.empty.add (fun _ _ => false) PatriciaTrie.ten8 ⟨"isp", 1, false⟩).2
  intradomainPDistances := ⟨[⟨⟨"isp", 1, false⟩, 0⟩], 1, (∅ : StdMap _ _).insert (toLex (0, 0)) x⟩
  interdomainPDistances := .empty

theorem singleView_prefixes {x : Double} {pid : PID} :
    (singleView x).prefixes.hasPrefixes pid = true ↔ pid = ⟨"isp", 1, false⟩ := by
  have hcache : (singleView x).prefixes.valCache =
      PatriciaTrie.countUp (∅ : StdMap PID Nat) ⟨"isp", 1, false⟩ := rfl
  rw [PatriciaTrie.hasPrefixes, hcache, PatriciaTrie.countUp, Std.ExtTreeMap.contains_iff_mem,
    Std.ExtTreeMap.mem_modify, Std.ExtTreeMap.mem_insertIfNew, compare_eq_iff_eq,
    or_iff_left Std.ExtTreeMap.not_mem_empty, eq_comm]

theorem singleView_pDistance {x : Double} (s d : PID) :
    (singleView x).getPDistance s d = .nan ∨ s = ⟨"isp", 1, false⟩ ∧ d = ⟨"isp", 1, false⟩ := by
  rw [CostView.getPDistance]
  split
  · exact .inl rfl
  · split
    · exact .inl rfl
    · next hno =>
      rw [not_or, not_not, not_not, singleView_prefixes, singleView_prefixes] at hno
      exact .inr hno

/-- The one pDistance is 5/2. -/
theorem wire_costs_saturate_single :
    Saturates (singleView (.fin (5 / 2)))
      (PairIn (getCostsFinish (singleView (.fin (5 / 2))).prefixes {}).pidsCur)
      (wireCost .fin lowBits (singleView (.fin (5 / 2)))) := by
  have hcost : (singleView (.fin (5 / 2))).getPDistance ⟨"isp", 1, false⟩ ⟨"isp", 1, false⟩ =
      .fin (5 / 2) := by decide +kernel
  have hview : ∀ s d, IsPDistance ((singleView (.fin (5 / 2))).getPDistance s d) := by
    intro s d
    rcases singleView_pDistance (x := .fin (5 / 2)) s d with h | ⟨rfl, rfl⟩
    · rw [h]
      exact trivial
    · rw [hcost]
      exact (by norm_num : (0 : ℚ) ≤ 5 / 2)
  refine (wire_costs_saturate hview {}).2.2 (fun s d hwritten => ?_) lowBits converts_lowBits
  have hpair : s = ⟨"isp", 1, false⟩ ∧ d = ⟨"isp", 1, false⟩ := by
    rcases hwritten with ⟨reverse, h⟩ | h
    · exact ⟨singleView_prefixes.1 h.src, singleView_prefixes.1 h.entry.2⟩
    · exact absurd h.entry.1 (by decide)
  obtain ⟨rfl, rfl⟩ := hpair
  exact ⟨5 / 2, hcost, by norm_num⟩

/-- An infinite pDistance is written as zero. -/
theorem infinite_cost_written_as_zero :
    Converts lowBits ∧
      (∀ s d, IsPDistance ((singleView .infinity).getPDistance s d)) ∧
      ContentReaderState.respond (getCostsWrite .fin lowBits (singleView .infinity))
          { callbackData := getCostsFinish (singleView .infinity).prefixes {} } [64, 64] =
        some "1.i.isp\tno-reverse\t1\t1.i.isp\t0\r\n".toList ∧
      ¬ Saturates (singleView .infinity)
        (PairIn (getCostsFinish (singleView .infinity).prefixes {}).pidsCur)
        (wireCost .fin lowBits (singleView .infinity)) := by
  have hcost : (singleView .infinity).getPDistance ⟨"isp", 1, false⟩ ⟨"isp", 1, false⟩ =
      .infinity := by decide +kernel
  refine ⟨converts_lowBits, fun s d => ?_, by decide +kernel, fun h => ?_⟩
  · rcases singleView_pDistance (x := .infinity) s d with hnan | ⟨rfl, rfl⟩
    · rw [hnan]
      exact trivial
    · rw [hcost]
      rfl
  · have hwritten : Written (singleView .infinity).prefixes {} ⟨"isp", 1, false⟩ ⟨"isp", 1, false⟩ :=
      .inl ⟨false, singleView_prefixes.2 rfl, rfl, singleView_prefixes.2 rfl⟩
    have hmax := h.infinite _ _ (pairIn_iff.2 hwritten) hcost
    rw [wireCost, hcost] at hmax
    exact absurd hmax (by decide)

end Alto.Portal
