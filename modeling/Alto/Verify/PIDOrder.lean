import Alto.App.PeerSelection

/-!
# Internal PIDs and external PIDs

The modules that select peers take the PIDs below the number of internal PIDs for the internal ones.
They are right about the PIDs of a loaded map exactly if no external PID is listed before an internal
one, as in a list that is ordered by `PID::operator<`.
-/

namespace Alto.Selection

open Common Lib App Guidance

/-! ## The order of a list -/

/-- No external PID stands before an internal one. -/
def InternalFirst (pids : List PID) : Prop :=
  pids.Pairwise fun p q => p.external = true → q.external = true

instance (pids : List PID) : Decidable (InternalFirst pids) :=
  inferInstanceAs (Decidable (pids.Pairwise _))

theorem internalFirst_of_sorted {pids : List PID} (h : pids.Pairwise (· ≤ ·)) :
    InternalFirst pids := by
  refine h.imp fun {p q} hle hp => ?_
  have hkey : p.orderKey ≤ q.orderKey := hle
  rcases Prod.Lex.le_iff.1 hkey with hlt | heq
  · exact (Bool.lt_iff.1 hlt).2
  · exact heq.1.symm.trans hp

/-- The number of internal PIDs separates the PIDs of an ordered list. -/
theorem InternalFirst.lt_iff {pids : List PID} (h : InternalFirst pids) (i : Nat) :
    i < (pids.filter fun p => !p.external).length ↔
      (pids[i]?.getD PID.invalid).external = false := by
  induction pids generalizing i with
  | nil => simp [PID.invalid]
  | cons p pids ih =>
    obtain ⟨hp, hpids⟩ := List.pairwise_cons.1 h
    cases hext : p.external with
    | true =>
      have hall : ∀ q ∈ p :: pids, q.external = true := by
        intro q hq
        rcases List.mem_cons.1 hq with rfl | hq
        · exact hext
        · exact hp q hq hext
      have hnil : ((p :: pids).filter fun p => !p.external) = [] := by
        refine List.filter_eq_nil_iff.2 fun q hq => ?_
        rw [hall q hq]
        exact Bool.false_ne_true
      rw [hnil]
      refine iff_of_false (Nat.not_lt_zero i) ?_
      cases hget : (p :: pids)[i]? with
      | none => exact Bool.noConfusion
      | some q =>
        rw [Option.getD_some, hall q (List.mem_of_getElem? hget)]
        exact Bool.noConfusion
    | false =>
      have hcons : ((p :: pids).filter fun p => !p.external) =
          p :: pids.filter fun p => !p.external := by
        rw [List.filter_cons, hext]
        rfl
      rw [hcons, List.length_cons]
      cases i with
      | zero => exact iff_of_true (Nat.succ_pos _) hext
      | succ i =>
        rw [Nat.succ_lt_succ_iff, List.getElem?_cons_succ]
        exact ih hpids i

theorem internalFirst_iff (pids : List PID) :
    InternalFirst pids ↔ ∀ i : Nat, i < (pids.filter fun p => !p.external).length ↔
      (pids[i]?.getD PID.invalid).external = false := by
  refine ⟨InternalFirst.lt_iff, fun h => List.pairwise_iff_getElem.2 fun i j hi hj hij hext => ?_⟩
  by_contra hint
  have hj' : (pids[j]?.getD PID.invalid).external = false := by
    rw [List.getElem?_eq_getElem hj]
    exact Bool.eq_false_iff.2 hint
  have hi' := (h i).1 (hij.trans ((h j).2 hj'))
  rw [List.getElem?_eq_getElem hi, Option.getD_some, hext] at hi'
  cases hi'

/-! ## The indexes of a map -/

theorem filter_range_lt {k n : Nat} (h : k ≤ n) :
    ((List.range n).filter fun i => decide (i < k)) = List.range k := by
  obtain ⟨m, rfl⟩ := Nat.exists_eq_add_of_le h
  rw [List.range_add, List.filter_append, List.filter_eq_self.2, List.filter_eq_nil_iff.2,
    List.append_nil]
  · intro i hi
    obtain ⟨j, -, rfl⟩ := List.mem_map.1 hi
    simp
  · intro i hi
    simpa using hi

theorem filter_range_ge {k n : Nat} (h : k ≤ n) :
    ((List.range n).filter fun i => !decide (i < k)) = (List.range n).drop k := by
  obtain ⟨m, rfl⟩ := Nat.exists_eq_add_of_le h
  rw [List.range_add, List.filter_append, List.filter_eq_nil_iff.2, List.nil_append,
    List.filter_eq_self.2, List.drop_left' (List.length_range)]
  · intro i hi
    obtain ⟨j, -, rfl⟩ := List.mem_map.1 hi
    simp
  · intro i hi
    simpa using hi

/-- The indexes of the internal PIDs of a map. -/
def internalIndexes (map : ISPPIDMap) : List Nat :=
  (List.range map.numTotalPIDs).filter fun i => !(map.getPIDInfo i).external

/-- The indexes of its external PIDs. -/
def externalIndexes (map : ISPPIDMap) : List Nat :=
  (List.range map.numTotalPIDs).filter fun i => (map.getPIDInfo i).external

/-- The choice of the home in `PeerDistributionManager::addPeer`, by the flag of the PID. -/
def candidateByFlag {Peer ISP : Type} [LinearOrder Peer] [LinearOrder ISP]
    (loop : PeerDistributionManager.AddLoop Peer ISP) (isp : ISP) (map : ISPPIDMap)
    (found : Int × Option IPPrefix) : PeerDistributionManager.AddLoop Peer ISP :=
  let length := (found.2.map IPPrefix.length).getD 0
  if (map.getPIDInfo found.1).external then loop
  else if length < loop.longestPrefixLength then loop
  else { loop with homeISP := some isp, homePID := found.1, longestPrefixLength := length }

/-- Every module treats the PIDs of a map by their flags. -/
structure ByFlag (map : ISPPIDMap) : Prop where
  index : ∀ i : Nat, i < map.numIntraISPPIDs ↔ (map.getPIDInfo i).external = false
  home : ∀ (Peer ISP : Type) [LinearOrder Peer] [LinearOrder ISP]
    (loop : PeerDistributionManager.AddLoop Peer ISP) (isp : ISP) (i : Nat)
    (found : Option IPPrefix), loop.candidate isp map (i, found) = candidateByFlag loop isp map (i, found)
  listIntraISPPeers : ∀ (Peer : Type) [LinearOrder Peer] (view : PerISPPeerDistribution Peer),
    view.listIntraISPPeers map =
      (internalIndexes map).flatMap fun i => (view.listPIDPeers i).getD []
  listExternalPeers : ∀ (Peer : Type) [LinearOrder Peer] (view : PerISPPeerDistribution Peer),
    view.listExternalPeers map =
      (externalIndexes map).flatMap fun i => (view.listPIDPeers i).getD []
  intraISPPids : ∀ (Peer : Type) [LinearOrder Peer] (view : PerISPPeerDistribution Peer)
    (weights : List ℚ) (homePid : Int), SelectionContext.intraISPPids map view weights homePid =
      (internalIndexes map).filter (SelectionContext.passes view weights homePid)
  externalPids : ∀ (Peer : Type) [LinearOrder Peer] (view : PerISPPeerDistribution Peer)
    (weights : List ℚ) (homePid : Int), SelectionContext.externalPids map view weights homePid =
      (externalIndexes map).filter (SelectionContext.passes view weights homePid)
  intraStage : List.range map.numIntraISPPIDs = internalIndexes map
  externalStage : (List.range map.numTotalPIDs).drop map.numIntraISPPIDs = externalIndexes map

section Classified

variable {map : ISPPIDMap} (hindex : ∀ i : Nat, i < map.numIntraISPPIDs ↔
  (map.getPIDInfo i).external = false)

include hindex

theorem decide_lt (i : Nat) : decide (i < map.numIntraISPPIDs) = !(map.getPIDInfo i).external := by
  have h := hindex i
  cases hext : (map.getPIDInfo i).external with
  | true =>
    rw [hext] at h
    exact decide_eq_false fun hlt => nomatch h.1 hlt
  | false =>
    rw [hext] at h
    exact decide_eq_true (h.2 rfl)

theorem internalIndexes_eq (hle : map.numIntraISPPIDs ≤ map.numTotalPIDs) :
    internalIndexes map = List.range map.numIntraISPPIDs := by
  rw [← filter_range_lt hle, internalIndexes]
  exact List.filter_congr fun i _ => (decide_lt hindex i).symm

theorem externalIndexes_eq (hle : map.numIntraISPPIDs ≤ map.numTotalPIDs) :
    externalIndexes map = (List.range map.numTotalPIDs).drop map.numIntraISPPIDs := by
  rw [← filter_range_ge hle, externalIndexes]
  refine List.filter_congr fun i _ => ?_
  rw [decide_lt hindex, Bool.not_not]

/-- All modules are right if the index is. -/
theorem byFlag_of_index (hle : map.numIntraISPPIDs ≤ map.numTotalPIDs) : ByFlag map where
  index := hindex
  home Peer ISP _ _ loop isp i found := by
    unfold PeerDistributionManager.AddLoop.candidate candidateByFlag
    have h := hindex i
    cases hext : (map.getPIDInfo i).external with
    | true =>
      rw [hext] at h
      have hge : (map.numIntraISPPIDs : Int) ≤ i := by
        exact_mod_cast not_lt.1 fun hlt => nomatch h.1 hlt
      simp [hge]
    | false =>
      rw [hext] at h
      have hlt : ¬ (map.numIntraISPPIDs : Int) ≤ i := by
        exact_mod_cast not_le.2 (h.2 rfl)
      simp [hlt]
  listIntraISPPeers Peer _ view := by
    rw [PerISPPeerDistribution.listIntraISPPeers, internalIndexes_eq hindex hle]
  listExternalPeers Peer _ view := by
    rw [PerISPPeerDistribution.listExternalPeers, externalIndexes_eq hindex hle,
      List.range_eq_range', List.drop_range', Nat.zero_add, Nat.mul_one]
  intraISPPids Peer _ view weights homePid := by
    rw [SelectionContext.intraISPPids, internalIndexes, List.filter_filter]
    refine List.filter_congr fun i _ => ?_
    rw [decide_lt hindex]
  externalPids Peer _ view weights homePid := by
    rw [SelectionContext.externalPids, externalIndexes, List.filter_filter]
    refine List.filter_congr fun i _ => ?_
    rw [decide_lt hindex, Bool.not_not]
  intraStage := (internalIndexes_eq hindex hle).symm
  externalStage := (externalIndexes_eq hindex hle).symm

end Classified

/-! ## Loaded maps -/

section Loaded

variable (behind : Behind) (prefixes : List (PID × List IPPrefix))

theorem numIntraISPPIDs_ofPrefixes : (ISPPIDMap.ofPrefixes behind prefixes).numIntraISPPIDs =
    ((prefixes.map (·.1)).filter fun p => !p.external).length := by
  rw [List.filter_map, List.length_map]
  rfl

theorem getPIDInfo_ofPrefixes (i : Nat) : (ISPPIDMap.ofPrefixes behind prefixes).getPIDInfo i =
    (prefixes.map (·.1))[i]?.getD PID.invalid := by
  rw [ISPPIDMap.getPIDInfo, if_neg (by omega), Int.toNat_natCast]
  rfl

/-- The PIDs of a loaded map are treated by their flags exactly if the internal ones come first. -/
theorem byFlag_ofPrefixes_iff : ByFlag (ISPPIDMap.ofPrefixes behind prefixes) ↔
    InternalFirst (prefixes.map (·.1)) := by
  have hindex : (∀ i : Nat, i < (ISPPIDMap.ofPrefixes behind prefixes).numIntraISPPIDs ↔
      ((ISPPIDMap.ofPrefixes behind prefixes).getPIDInfo i).external = false) ↔
      InternalFirst (prefixes.map (·.1)) := by
    rw [internalFirst_iff, numIntraISPPIDs_ofPrefixes]
    simp only [getPIDInfo_ofPrefixes]
  refine ⟨fun h => hindex.1 h.index, fun h => byFlag_of_index (hindex.2 h) ?_⟩
  exact (List.length_filter_le _ _).trans_eq (List.length_map _).symm

end Loaded

/-- With an external PID in the first place, that one is taken for internal. -/
theorem not_byFlag_external_first :
    ¬ ByFlag (ISPPIDMap.ofPrefixes (fun _ _ => false) [(⟨"a", 1, true⟩, []), (⟨"a", 2, false⟩, [])]) := by
  intro h
  have hindex := (h.index 0).1 (by decide)
  exact absurd hindex (by decide)

/-- A map that is listed in the order of the portal server is treated by the flags. -/
theorem byFlag_of_sorted (behind : Behind) {prefixes : List (PID × List IPPrefix)}
    (h : (prefixes.map (·.1)).Pairwise (· ≤ ·)) : ByFlag (ISPPIDMap.ofPrefixes behind prefixes) := by
  refine byFlag_of_index (fun i => ?_) ((List.length_filter_le _ _).trans_eq (List.length_map _).symm)
  rw [numIntraISPPIDs_ofPrefixes, getPIDInfo_ofPrefixes]
  exact (internalFirst_of_sorted h).lt_iff i

end Alto.Selection
