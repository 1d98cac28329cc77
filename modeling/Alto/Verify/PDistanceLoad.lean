import Alto.Verify.PIDMapLoad
import Alto.Verify.ResponseText

/-!
# Loading the pDistances of a portal

The matrix that a client reads has exactly the pairs that its request asks for, with the costs that the
portal writes. A client that has loaded the PID map and then all pDistances finds the cost between two
addresses that the portal has for their PIDs.
-/

namespace Alto.Portal

open Lib Server Response

/-! ## The records of costs -/

section Records

variable {env : Environment} {cost : PID → PID → Nat} {es : List CostsEntry} {e : CostsEntry}

/-- The words of a destination. -/
def dstWords (cost : PID → PID → Nat) (src : PID) (reverse : Bool) (dst : PID) : List (List Char) :=
  dst.toText :: Nat.toDigits 10 (cost src dst) ::
    if reverse then [Nat.toDigits 10 (cost dst src)] else []

/-- The words of an entry. -/
def entryWords (cost : PID → PID → Nat) (e : CostsEntry) : List (List Char) :=
  e.1.toText :: (if e.2.1 then "inc-reverse".toList else "no-reverse".toList) ::
    Nat.toDigits 10 e.2.2.size :: e.2.2.toList.flatMap (dstWords cost e.1 e.2.1)

/-- What the reader writes for a destination. -/
def dstWrites (cost : PID → PID → Nat) (src : PID) (reverse : Bool) (dst : PID) :
    List (PID × PID × Nat) :=
  (src, dst, cost src dst) :: if reverse then [(dst, src, cost dst src)] else []

/-- What the reader writes for an entry. -/
def entryWrites (cost : PID → PID → Nat) (e : CostsEntry) : List (PID × PID × Nat) :=
  e.2.2.toList.flatMap (dstWrites cost e.1 e.2.1)

/-- The items of an entry are a line. -/
theorem flatten_costsItems (cost : PID → PID → Nat) (e : CostsEntry) :
    (costsItems cost e).flatten = lineText (entryWords cost e) := by
  have hdsts : ∀ dsts : List PID,
      (dsts.map (dstItem cost e.1 e.2.1)).flatten =
        (dsts.flatMap (dstWords cost e.1 e.2.1)).flatMap (['\t'] ++ ·) := by
    intro dsts
    induction dsts with
    | nil => rfl
    | cons dst dsts ih =>
      rw [List.map_cons, List.flatten_cons, ih, List.flatMap_cons, List.flatMap_append]
      congr 1
      cases hrev : e.2.1 <;> simp [dstItem, dstWords]
  rw [costsItems, List.flatten_cons, List.flatten_append, hdsts, costsHeadItem, entryWords]
  generalize (if e.2.1 then "inc-reverse".toList else "no-reverse".toList) = flag
  simp [lineText, endItem]

theorem flatten_costsEntriesItems (cost : PID → PID → Nat) (es : List CostsEntry) :
    (costsEntriesItems cost es).flatten =
      ((es.filter fun e => !e.2.2.isEmpty).map (entryWords cost)).flatMap lineText := by
  induction es with
  | nil => rfl
  | cons e es ih =>
    have hcons : costsEntriesItems cost (e :: es) =
        (if e.2.2.isEmpty then [] else costsItems cost e) ++ costsEntriesItems cost es := rfl
    rw [hcons, List.flatten_append, ih, List.filter_cons]
    cases e.2.2.isEmpty <;> simp [flatten_costsItems]

/-- The PIDs of an entry can be printed, and its destinations be counted. -/
structure EntryPrintable (e : CostsEntry) : Prop where
  src : e.1.Printable
  dsts : ∀ dst ∈ e.2.2.toList, dst.Printable
  size : e.2.2.size < 2 ^ 32

theorem isToken_entryWords (h : EntryPrintable e) : ∀ word ∈ entryWords cost e, IsToken word := by
  have hflag : IsToken (if e.2.1 then "inc-reverse".toList else "no-reverse".toList) := by
    split <;> decide
  intro word hword
  rw [entryWords, List.mem_cons, List.mem_cons, List.mem_cons, List.mem_flatMap] at hword
  rcases hword with rfl | rfl | rfl | ⟨dst, hdst, hword⟩
  · exact h.src.isToken
  · exact hflag
  · exact IStream.isToken_toDigits _
  · rw [dstWords, List.mem_cons, List.mem_cons] at hword
    rcases hword with rfl | rfl | hword
    · exact (h.dsts dst hdst).isToken
    · exact IStream.isToken_toDigits _
    · split at hword
      · rw [List.mem_singleton.1 hword]
        exact IStream.isToken_toDigits _
      · cases hword

/-- The destinations of an entry are read as they are written. -/
theorem reads_dsts (hcost : ∀ s d, cost s d < 2 ^ 32) (src : PID) (reverse : Bool) {dsts : List PID}
    (hdsts : ∀ dst ∈ dsts, dst.Printable) (rest : List (List Char)) :
    (pDistanceDstsGrammar env src reverse dsts.length).Reads
      (dsts.flatMap (dstWords cost src reverse) ++ rest)
      (dsts.flatMap (dstWrites cost src reverse)) id rest := by
  induction dsts with
  | nil => exact .done
  | cons dst dsts ih =>
    have hrest := ih fun d hd => hdsts d (List.mem_cons_of_mem _ hd)
    have hdst : (kinds env).Complete .pid dst.toText dst :=
      complete_pid (hdsts dst List.mem_cons_self)
    cases reverse with
    | true =>
      exact .token hdst (.token (complete_unsigned (hcost src dst))
        (.write (.token (complete_unsigned (hcost dst src)) (.write hrest))))
    | false => exact .token hdst (.token (complete_unsigned (hcost src dst)) (.write hrest))

theorem reads_entry (hcost : ∀ s d, cost s d < 2 ^ 32) (h : EntryPrintable e)
    (m : PIDMatrixGeneric Nat) (rest : List (List Char)) :
    ((pDistanceGrammar env).body m).Reads (entryWords cost e ++ rest) (entryWrites cost e) id rest := by
  refine .token (complete_pid h.src) (.token (complete_flag e.2.1)
    (.token (complete_unsigned h.size) ?_))
  have hlen : e.2.2.size = e.2.2.toList.length := Std.ExtTreeSet.length_toList.symm
  rw [hlen]
  exact reads_dsts hcost e.1 e.2.1 h.dsts rest

/-- The writes of all entries, one after the other. -/
theorem records_entries (hcost : ∀ s d, cost s d < 2 ^ 32) (hes : ∀ e ∈ es, EntryPrintable e)
    (m : PIDMatrixGeneric Nat) :
    (pDistanceGrammar env).Records (es.map (entryWords cost)).flatten m
      (pDistanceReader.applyAll (es.flatMap (entryWrites cost)) m) := by
  induction es generalizing m with
  | nil => exact .nil rfl
  | cons e es ih =>
    rw [List.map_cons, List.flatten_cons, List.flatMap_cons, TokenReader.applyAll_append]
    refine .record (reads_entry hcost (hes e List.mem_cons_self) m _) ?_
    rw [pDistanceGrammar_reader]
    exact ih (fun e' he' => hes e' (List.mem_cons_of_mem _ he')) _

/-! ## The matrix -/

theorem get_set_eq (m : PIDMatrixGeneric Nat) (i j s d : PID) (v : Nat) :
    (PIDMatrixGeneric.set m i j v).get s d = if i = s ∧ j = d then some v else m.get s d := by
  rw [PIDMatrixGeneric.get, get_set]
  by_cases hi : i = s
  · subst hi
    rw [if_pos rfl, Option.bind_some, StdMap.get_insert]
    by_cases hj : j = d
    · rw [if_pos hj, if_pos ⟨rfl, hj⟩]
    · rw [if_neg hj, if_neg fun h => hj h.2, PIDMatrixGeneric.get]
      cases m[i]? with
      | none => simp
      | some row => rfl
  · rw [if_neg hi, if_neg fun h => hi h.1, PIDMatrixGeneric.get]

/-- A matrix after writes of one cost for each pair. -/
theorem get_applyAll {ws : List (PID × PID × Nat)} (hws : ∀ w ∈ ws, w.2.2 = cost w.1 w.2.1)
    (m : PIDMatrixGeneric Nat) (s d : PID) :
    (pDistanceReader.applyAll ws m).get s d =
      if ∃ w ∈ ws, w.1 = s ∧ w.2.1 = d then some (cost s d) else m.get s d := by
  induction ws generalizing m with
  | nil => simp [TokenReader.applyAll]
  | cons w ws ih =>
    have hstep : pDistanceReader.applyAll (w :: ws) m =
        pDistanceReader.applyAll ws (PIDMatrixGeneric.set m w.1 w.2.1 w.2.2) := rfl
    rw [hstep, ih fun w' hw' => hws w' (List.mem_cons_of_mem _ hw'), get_set_eq]
    by_cases hlater : ∃ w' ∈ ws, w'.1 = s ∧ w'.2.1 = d
    · obtain ⟨w', hw', heq⟩ := hlater
      rw [if_pos ⟨w', hw', heq⟩, if_pos ⟨w', List.mem_cons_of_mem _ hw', heq⟩]
    · rw [if_neg hlater]
      by_cases hw : w.1 = s ∧ w.2.1 = d
      · rw [if_pos hw, if_pos ⟨w, List.mem_cons_self, hw⟩, hws w List.mem_cons_self, hw.1, hw.2]
      · have hno : ¬ ∃ w' ∈ w :: ws, w'.1 = s ∧ w'.2.1 = d := by
          rintro ⟨w', hw', heq⟩
          rcases List.mem_cons.1 hw' with rfl | hw'
          · exact hw heq
          · exact hlater ⟨w', hw', heq⟩
        rw [if_neg hw, if_neg hno]

theorem isEmpty_of_mem {S : StdSet PID} {p : PID} (h : p ∈ S) : S.isEmpty = false := by
  rw [Std.ExtTreeSet.isEmpty_eq_false_iff]
  rintro rfl
  exact Std.ExtTreeSet.not_mem_empty h

theorem mem_entryWrites {s d : PID} {v : Nat} : (s, d, v) ∈ entryWrites cost e ↔
    v = cost s d ∧ ((e.1 = s ∧ d ∈ e.2.2) ∨ (e.2.1 = true ∧ e.1 = d ∧ s ∈ e.2.2)) := by
  simp only [entryWrites, List.mem_flatMap, Std.ExtTreeSet.mem_toList, dstWrites, List.mem_cons,
    Prod.mk.injEq]
  constructor
  · rintro ⟨dst, hdst, ⟨rfl, rfl, rfl⟩ | hrev⟩
    · exact ⟨rfl, .inl ⟨rfl, hdst⟩⟩
    · split at hrev
      · next h =>
        cases List.mem_singleton.1 hrev
        exact ⟨rfl, .inr ⟨h, rfl, hdst⟩⟩
      · cases hrev
  · rintro ⟨rfl, ⟨rfl, hd⟩ | ⟨hrev, rfl, hs⟩⟩
    · exact ⟨d, hd, .inl ⟨rfl, rfl, rfl⟩⟩
    · refine ⟨s, hs, .inr ?_⟩
      rw [if_pos hrev]
      exact List.mem_singleton_self _

/-- The pairs of all entries are written. -/
theorem get_entries {es : List CostsEntry} {s d : PID} {v : Nat} :
    (pDistanceReader.applyAll ((es.filter fun e => !e.2.2.isEmpty).flatMap (entryWrites cost)) ∅).get
      s d = some v ↔ PairIn es s d ∧ v = cost s d := by
  have hws : ∀ w ∈ (es.filter fun e => !e.2.2.isEmpty).flatMap (entryWrites cost),
      w.2.2 = cost w.1 w.2.1 := by
    rintro ⟨i, j, v⟩ hw
    obtain ⟨e, -, he⟩ := List.mem_flatMap.1 hw
    exact (mem_entryWrites.1 he).1
  have hpair : (∃ w ∈ (es.filter fun e => !e.2.2.isEmpty).flatMap (entryWrites cost),
      w.1 = s ∧ w.2.1 = d) ↔ PairIn es s d := by
    constructor
    · rintro ⟨⟨i, j, v⟩, hw, rfl, rfl⟩
      obtain ⟨e, he, hmem⟩ := List.mem_flatMap.1 hw
      exact ⟨e, List.mem_of_mem_filter he, (mem_entryWrites.1 hmem).2⟩
    · rintro ⟨e, he, hpair⟩
      have hne : e.2.2.isEmpty = false := by
        rcases hpair with ⟨-, hd⟩ | ⟨-, -, hs⟩
        · exact isEmpty_of_mem hd
        · exact isEmpty_of_mem hs
      refine ⟨(s, d, cost s d), List.mem_flatMap.2 ⟨e, ?_, mem_entryWrites.2 ⟨rfl, hpair⟩⟩, rfl, rfl⟩
      exact List.mem_filter.2 ⟨he, by simp [hne]⟩
  have hempty : PIDMatrixGeneric.get (∅ : PIDMatrixGeneric Nat) s d = none := by
    simp [PIDMatrixGeneric.get]
  rw [get_applyAll hws, hempty]
  by_cases hp : PairIn es s d
  · rw [if_pos (hpair.2 hp), Option.some.injEq, eq_comm]
    exact (and_iff_right hp).symm
  · rw [if_neg fun h => hp (hpair.1 h)]
    exact ⟨nofun, fun h => absurd h.1 hp⟩

end Records

/-! ## The response of costs -/

section Response

variable {rnd : ℚ → Double} {cast : Double → Nat} {view : CostView} {data : GetCostsState}

theorem wireCost_lt (s d : PID) : wireCost rnd cast view s d < 2 ^ 32 :=
  lt_of_le_of_lt (clip_le _) (by decide)

theorem costsItems_ne_nil (cost : PID → PID → Nat) (es : List CostsEntry) :
    ∀ item ∈ costsEntriesItems cost es, item ≠ [] := by
  intro item hitem
  obtain ⟨e, -, he⟩ := List.mem_flatMap.1 hitem
  split at he
  · cases he
  · rw [costsItems, List.mem_cons, List.mem_append, List.mem_map] at he
    rcases he with rfl | ⟨d, -, rfl⟩ | he
    · exact List.append_ne_nil_of_right_ne_nil _ Nat.toDigits_ne_nil
    · simp [dstItem]
    · rw [List.mem_singleton.1 he]
      exact List.cons_ne_nil _ _

/-- What is left at the start: the items, with an empty one at the end if there are entries. -/
theorem left_start (cost : PID → PID → Nat) (entries : List CostsEntry) :
    GetCostsCursor.left cost { pidsCur := entries } = [] ∧ costsEntriesItems cost entries = [] ∨
      GetCostsCursor.left cost { pidsCur := entries } = costsEntriesItems cost entries ++ [[]] := by
  rw [GetCostsCursor.left]
  split
  · next hnil =>
    have hnil : entries = [] := List.isEmpty_iff.1 hnil
    subst hnil
    exact .inl ⟨rfl, rfl⟩
  · exact .inr (by rw [GetCostsCursor.itemsLeft_zero rfl])

/-- The bytes of the response do not depend on the blocks. -/
theorem respond_costs (rnd : ℚ → Double) (cast : Double → Nat) (view : CostView)
    (entries : List CostsEntry) {sizes : List Nat}
    (hfit : ∀ max ∈ sizes, ∀ item ∈ costsEntriesItems (wireCost rnd cast view) entries,
      item.length ≤ max) :
    ((costsEntriesItems (wireCost rnd cast view) entries).length + 1 < sizes.length →
      (ContentReaderState.respond (getCostsWrite rnd cast view)
        { callbackData := { pidsCur := entries } } sizes).isSome = true) ∧
    ∀ text, ContentReaderState.respond (getCostsWrite rnd cast view)
        { callbackData := { pidsCur := entries } } sizes = some text →
      text = (costsEntriesItems (wireCost rnd cast view) entries).flatten := by
  have hfills := fills_getCostsWrite rnd cast view
  have hpacks := packs_of_forall hfit
  have hsolid := costsItems_ne_nil (wireCost rnd cast view) entries
  obtain ⟨hp, hs, hlen, hflat⟩ :
      Packs sizes (GetCostsCursor.left (wireCost rnd cast view) { pidsCur := entries }) ∧
        Solid (GetCostsCursor.left (wireCost rnd cast view) { pidsCur := entries }) ∧
        (GetCostsCursor.left (wireCost rnd cast view) { pidsCur := entries }).length ≤
          (costsEntriesItems (wireCost rnd cast view) entries).length + 1 ∧
        (GetCostsCursor.left (wireCost rnd cast view) { pidsCur := entries }).flatten =
          (costsEntriesItems (wireCost rnd cast view) entries).flatten := by
    rcases left_start (wireCost rnd cast view) entries with ⟨hleft, hitems⟩ | hleft
    · rw [hitems] at hpacks
      rw [hleft, hitems]
      exact ⟨hpacks, solid_of_forall nofun, Nat.zero_le _, rfl⟩
    · rw [hleft]
      exact ⟨hpacks.concat_nil, solid_concat_nil hsolid, by simp, by simp⟩
  refine ⟨fun hlt => ContentReaderState.respond_isSome hfills (Nat.zero_le 2) hp hs (by omega),
    fun text h => ?_⟩
  rw [ContentReaderState.respond_eq_flatten hfills (Nat.zero_le 2) hp hs h, hflat]

/-- Every entry of a response can be read. -/
def CostsReadable (view : CostView) (data : GetCostsState) : Prop :=
  ∀ e ∈ (getCostsFinish view.prefixes data).pidsCur, e.2.2.isEmpty = false → EntryPrintable e

/-- Every block of a response has room for its next item. -/
def CostsFit (rnd : ℚ → Double) (cast : Double → Nat) (view : CostView) (data : GetCostsState)
    (sizes : Nat → Nat) : Prop :=
  ∀ k, ∀ item ∈ costsEntriesItems (wireCost rnd cast view)
    (getCostsFinish view.prefixes data).pidsCur, item.length ≤ sizes k

/-- The matrix has the pairs that a request asks for, with their costs. -/
def HoldsAsked (rnd : ℚ → Double) (cast : Double → Nat) (view : CostView) (data : GetCostsState)
    (dists : PIDMatrixGeneric Nat) : Prop :=
  ∀ s d c, dists.get s d = some c ↔
    Written view.prefixes data s d ∧ c = wireCost rnd cast view s d

/-- The text of a response is read as the pairs that the request asks for. -/
theorem read_costs (hes : CostsReadable view data) {chunks : List (List Char)}
    (hchunks : chunks.flatten = (costsEntriesItems (wireCost rnd cast view)
      (getCostsFinish view.prefixes data).pidsCur).flatten) :
    ∃ dists, ResponseReader.read pDistanceReader.consume { state := ∅ } chunks =
        some (dists, false) ∧
      HoldsAsked rnd cast view data dists := by
  let env := plainEnvironment
  have hF : (⟨_, _, ∅, pDistanceReader.consume, pDistanceGrammar env⟩ : Format env).Reads :=
    Format.reads_of_reader pDistanceReader_absorbing pDistanceGrammar_reader rfl
  have hentries : ∀ e ∈ (getCostsFinish view.prefixes data).pidsCur.filter
      fun e => !e.2.2.isEmpty, EntryPrintable e :=
    fun e he => hes e (List.mem_of_mem_filter he) (by simpa using List.of_mem_filter he)
  have hrecords : (pDistanceGrammar env).Records _ ∅ _ := records_entries
    (wireCost_lt : ∀ s d, wireCost rnd cast view s d < 2 ^ 32) hentries ∅
  have htokens : tokens isSpace chunks.flatten =
      (((getCostsFinish view.prefixes data).pidsCur.filter fun e => !e.2.2.isEmpty).map
        (entryWords (wireCost rnd cast view))).flatten := by
    rw [hchunks, flatten_costsEntriesItems, tokens_lines]
    intro words hwords
    obtain ⟨e, he, rfl⟩ := List.mem_map.1 hwords
    exact isToken_entryWords (hentries e he)
  rw [← htokens] at hrecords
  exact ⟨_, hF.read_of_records hrecords, fun s d c => by rw [get_entries, pairIn_iff]⟩

theorem CostsFit.le {sizes : Nat → Nat} (hfit : CostsFit rnd cast view data sizes) (n : Nat) :
    ∀ max ∈ (List.range n).map sizes, ∀ item ∈ costsEntriesItems (wireCost rnd cast view)
      (getCostsFinish view.prefixes data).pidsCur, item.length ≤ max := by
  intro max hmax
  obtain ⟨k, -, rfl⟩ := List.mem_map.1 hmax
  exact hfit k

/-- A response in blocks that fit ends. -/
theorem CostsFit.ends {sizes : Nat → Nat} (hfit : CostsFit rnd cast view data sizes) :
    ∃ n, (ContentReaderState.respond (getCostsWrite rnd cast view)
      { callbackData := getCostsFinish view.prefixes data }
      ((List.range n).map sizes)).isSome = true := by
  refine ⟨(costsEntriesItems (wireCost rnd cast view)
    (getCostsFinish view.prefixes data).pidsCur).length + 2,
    (respond_costs rnd cast view _ (hfit.le _)).1 ?_⟩
  rw [List.length_map, List.length_range]
  exact Nat.lt_succ_self _

/-- A response in blocks that fit is read as the pairs that the request asks for. -/
theorem CostsFit.read {sizes : Nat → Nat} (hfit : CostsFit rnd cast view data sizes)
    (hes : CostsReadable view data) {n : Nat} {text : List Char}
    (h : ContentReaderState.respond (getCostsWrite rnd cast view)
      { callbackData := getCostsFinish view.prefixes data } ((List.range n).map sizes) = some text)
    {chunks : List (List Char)} (hchunks : chunks.flatten = text) :
    ∃ dists, ResponseReader.read pDistanceReader.consume { state := ∅ } chunks =
        some (dists, false) ∧
      HoldsAsked rnd cast view data dists :=
  read_costs hes (hchunks.trans ((respond_costs rnd cast view _ (hfit.le n)).2 text h))

/-- Whatever a request asks for, a client reads exactly the pairs with their costs, in blocks and
chunks of any sizes. -/
theorem pDistances_read_as_written (rnd : ℚ → Double) (cast : Double → Nat) (view : CostView)
    (data : GetCostsState) (hes : CostsReadable view data) (sizes : Nat → Nat)
    (hfit : CostsFit rnd cast view data sizes) :
    (∃ n, (ContentReaderState.respond (getCostsWrite rnd cast view)
      { callbackData := getCostsFinish view.prefixes data } ((List.range n).map sizes)).isSome) ∧
    ∀ n text, ContentReaderState.respond (getCostsWrite rnd cast view)
        { callbackData := getCostsFinish view.prefixes data } ((List.range n).map sizes) =
          some text →
      ∀ chunks : List (List Char), chunks.flatten = text →
        ∃ dists, ResponseReader.read pDistanceReader.consume { state := ∅ } chunks =
            some (dists, false) ∧
          HoldsAsked rnd cast view data dists :=
  ⟨hfit.ends, fun _ _ h _ hchunks => hfit.read hes h hchunks⟩

end Response

end Alto.Portal

/-! ## The client -/

namespace Alto

open Lib Server Portal Response

/-- The text of the response to a request for all pDistances. -/
def Portal.costsText (rnd : ℚ → Double) (cast : Double → Nat) (view : CostView) (sizes : List Nat) :
    Option (List Char) :=
  ContentReaderState.respond (getCostsWrite rnd cast view)
    { callbackData := getCostsFinish view.prefixes {} } sizes

namespace ISPPDistanceMap

variable {dists : PIDMatrixGeneric Nat} {pids : List PID} {i j : Int} {src dst : PID}

/-- The entry of two PIDs of the ISP. -/
theorem getPDistance_ofMatrix (hi : 0 ≤ i) (hj : 0 ≤ j) (hsrc : pids[i.toNat]? = some src)
    (hdst : pids[j.toNat]? = some dst) : (ofMatrix dists pids).getPDistance i j =
      match dists.get src dst with
      | some cost => Int.bmod cost (2 ^ 32)
      | none => intMax := by
  have hrow : (ofMatrix dists pids).pdists[i.toNat]? = some (pids.map fun dst =>
      match dists.get src dst with
      | some cost => Int.bmod cost (2 ^ 32)
      | none => intMax) :=
    List.getElem?_map.trans (congrArg (Option.map _) hsrc)
  rw [getPDistance, if_neg (not_lt.2 hi), hrow]
  dsimp only
  rw [if_neg (not_lt.2 hj), List.getElem?_map, hdst, Option.map_some, Option.getD_some]

/-- An index that is no PID's. -/
theorem getPDistance_unknown (h : i < 0 ∨ j < 0 ∨ pids[i.toNat]? = none ∨ pids[j.toNat]? = none) :
    (ofMatrix dists pids).getPDistance i j = errUnknownPID := by
  by_cases hi : i < 0
  · rw [getPDistance, if_pos hi]
  · cases hsrc : pids[i.toNat]? with
    | none => simp only [getPDistance, if_neg hi, ofMatrix, List.getElem?_map, hsrc, Option.map_none]
    | some src =>
      by_cases hj : j < 0
      · simp only [getPDistance, if_neg hi, ofMatrix, List.getElem?_map, hsrc, Option.map_some,
          if_pos hj]
      · have hdst : pids[j.toNat]? = none :=
          ((h.resolve_left hi).resolve_left hj).resolve_left (by simp [hsrc])
        simp only [getPDistance, if_neg hi, ofMatrix, List.getElem?_map, hsrc, Option.map_some,
          if_neg hj, hdst, Option.map_none, Option.getD_none]

end ISPPDistanceMap

/-- What a client finds in its pDistance map: the portal's costs for PIDs with prefixes, `INT_MAX` for
other PIDs, and an error for numbers that are no PID's. -/
structure ISPPDistanceMap.Answers (map : ISPPDistanceMap) (pids : List PID) (view : CostView)
    (cost : PID → PID → Nat) : Prop where
  known : ∀ (i j : Int) (src dst : PID), 0 ≤ i → 0 ≤ j → pids[i.toNat]? = some src →
    pids[j.toNat]? = some dst → view.prefixes.hasPrefixes src = true →
    view.prefixes.hasPrefixes dst = true → map.getPDistance i j = cost src dst
  missing : ∀ (i j : Int) (src dst : PID), 0 ≤ i → 0 ≤ j → pids[i.toNat]? = some src →
    pids[j.toNat]? = some dst →
    ¬ (view.prefixes.hasPrefixes src = true ∧ view.prefixes.hasPrefixes dst = true) →
    map.getPDistance i j = intMax
  unknown : ∀ i j : Int, i < 0 ∨ j < 0 ∨ pids[i.toNat]? = none ∨ pids[j.toNat]? = none →
    map.getPDistance i j = errUnknownPID

theorem bmod_wireCost (rnd : ℚ → Double) (cast : Double → Nat) (view : CostView) (s d : PID) :
    Int.bmod (wireCost rnd cast view s d) (2 ^ 32) = wireCost rnd cast view s d := by
  have hle : wireCost rnd cast view s d ≤ maxPDistance := clip_le _
  have hmax : maxPDistance = 131071 := rfl
  rw [Int.bmod_eq_of_le] <;> omega

/-- A request without PIDs asks for all pairs of PIDs with prefixes. -/
theorem written_all {view : CostView} {s d : PID} : Written view.prefixes {} s d ↔
    view.prefixes.hasPrefixes s = true ∧ view.prefixes.hasPrefixes d = true := by
  have hempty : (({} : GetCostsState).pids).isEmpty = true := rfl
  constructor
  · rintro (⟨reverse, hsrc, hentry⟩ | ⟨hsrc, hentry⟩)
    · rw [if_pos hempty] at hentry
      exact ⟨hsrc, hentry.2⟩
    · rw [if_pos hempty] at hentry
      cases hentry.1
  · rintro ⟨hs, hd⟩
    exact .inl ⟨false, hs, by rw [if_pos hempty]; exact ⟨rfl, hd⟩⟩

/-- A matrix with all pairs fills the map with the portal's costs. -/
theorem answers_ofMatrix {rnd : ℚ → Double} {cast : Double → Nat} {view : CostView}
    {dists : PIDMatrixGeneric Nat} (h : HoldsAsked rnd cast view {} dists) (pids : List PID) :
    (ISPPDistanceMap.ofMatrix dists pids).Answers pids view (wireCost rnd cast view) where
  known i j src dst hi hj hsrc hdst hs hd := by
    rw [ISPPDistanceMap.getPDistance_ofMatrix hi hj hsrc hdst,
      (h src dst _).2 ⟨written_all.2 ⟨hs, hd⟩, rfl⟩]
    exact bmod_wireCost rnd cast view src dst
  missing i j src dst hi hj hsrc hdst hno := by
    have hnone : dists.get src dst = none :=
      Option.eq_none_iff_forall_ne_some.2 fun c hc => hno (written_all.1 ((h src dst c).1 hc).1)
    rw [ISPPDistanceMap.getPDistance_ofMatrix hi hj hsrc hdst, hnone]
  unknown i j := ISPPDistanceMap.getPDistance_unknown

/-- If the PID map can be read, so can the costs between all its PIDs. -/
theorem costsReadable_of_loadable {view : CostView} (h : Loadable view.prefixes) :
    CostsReadable view {} := by
  have hlisted : ∀ pid, view.prefixes.hasPrefixes pid = true →
      pid ∈ view.prefixes.enumerateValues := by
    intro pid hpid
    rwa [PatriciaTrie.enumerateValues, Std.ExtTreeMap.mem_keys, ← Std.ExtTreeMap.contains_iff_mem]
  have hempty : (({} : GetCostsState).pids).isEmpty = true := rfl
  rintro ⟨src, reverse, dsts⟩ he hne
  have hpairs : ∀ dst ∈ dsts, view.prefixes.hasPrefixes src = true ∧
      view.prefixes.hasPrefixes dst = true := by
    intro dst hdst
    obtain ⟨hsrc, hentry⟩ := asked_iff.1 ⟨dsts, he, hdst⟩
    rw [if_pos hempty] at hentry
    exact ⟨hsrc, hentry.2⟩
  have hdsts : ∀ dst ∈ dsts.toList, dst ∈ view.prefixes.enumerateValues := fun dst hdst =>
    hlisted dst (hpairs dst (Std.ExtTreeSet.mem_toList.1 hdst)).2
  obtain ⟨dst, hdst⟩ : ∃ dst, dst ∈ dsts.toList := by
    refine List.exists_mem_of_ne_nil _ fun hnil => ?_
    rw [← List.isEmpty_iff, Std.ExtTreeSet.isEmpty_toList, hne] at hnil
    cases hnil
  have hlength : dsts.size ≤ view.prefixes.enumerateValues.length := by
    rw [← Std.ExtTreeSet.length_toList]
    exact ((StdSet.nodup_toList dsts).subperm hdsts).length_le
  refine ⟨h.printable src (hlisted src (hpairs dst (Std.ExtTreeSet.mem_toList.1 hdst)).1),
    fun dst hdst => h.printable dst (hdsts dst hdst), ?_⟩
  exact lt_of_le_of_lt (hlength.trans h.pids) (by decide)

/-- The pDistances between the PIDs of `tenPrefixes`, one of which is external. -/
def tenCosts : PIDMatrix :=
  ((((PIDMatrix.empty.addPid ⟨"isp", 1, false⟩).2.addPid ⟨"isp", 2, true⟩).2.setByPid ⟨"isp", 1, false⟩
    ⟨"isp", 2, true⟩ (.fin (5 / 2))).2.setByPid ⟨"isp", 2, true⟩ ⟨"isp", 1, false⟩ 7).2

/-- The view of these PIDs. -/
def tenView : CostView := ⟨tenPrefixes, .empty, tenCosts⟩

theorem costsFit_tenView : CostsFit .fin lowBits tenView {} fun _ => 64 := by
  intro _
  show ∀ item ∈ costsEntriesItems (wireCost .fin lowBits tenView)
    (getCostsFinish tenView.prefixes {}).pidsCur, item.length ≤ 64
  decide +kernel

/-- The costs of `tenView` are read. -/
theorem pDistances_read_as_written_ten : ∃ text, costsText .fin lowBits tenView
      [64, 64, 64, 64, 64, 64] = some text ∧ ∃ dists,
    ResponseReader.read pDistanceReader.consume { state := ∅ } [text.take 3, text.drop 3] =
      some (dists, false) ∧ HoldsAsked .fin lowBits tenView {} dists := by
  have hsome : (costsText .fin lowBits tenView [64, 64, 64, 64, 64, 64]).isSome = true := by
    decide +kernel
  obtain ⟨text, htext⟩ := Option.isSome_iff_exists.1 hsome
  exact ⟨text, htext, (pDistances_read_as_written .fin lowBits tenView {}
    (costsReadable_of_loadable loadable_tenPrefixes) (fun _ => 64) costsFit_tenView).2 6 text htext _
    (by simp)⟩

/-- Whatever PIDs a client knows, it loads the portal's costs for them from a response in blocks that fit,
in chunks of any sizes, from the portal or from a file. -/
theorem Portal.CostsFit.loads {rnd : ℚ → Double} {cast : Double → Nat} {view : CostView}
    (h : Loadable view.prefixes) {sizes : Nat → Nat} (hfit : CostsFit rnd cast view {} sizes)
    {n : Nat} {text : List Char} (htext : costsText rnd cast view ((List.range n).map sizes) = some text)
    {chunks : List (List Char)} {source : DataSource} (hchunks : chunks.flatten = text)
    (hsource : source.Delivers chunks) (pids : List PID) (old : ISPPDistanceMap) :
    ∃ map, old.loadP4PInfo pids source = some (0, map) ∧
      map.Answers pids view (wireCost rnd cast view) := by
  obtain ⟨dists, hread, hdists⟩ := hfit.read (costsReadable_of_loadable h) htext hchunks
  refine ⟨_, ?_, answers_ofMatrix hdists pids⟩
  rw [ISPPDistanceMap.loadP4PInfo, DataSource.fetch_of_read hsource hread]
  rfl

end Alto
