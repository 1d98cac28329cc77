import Alto.Verify.CostsWrite

/-!
# The responses of the view interface in blocks

`GetPIDsWrite`, `GetPIDMapWrite` and `GetCostsWrite` are called until they answer -1. Each fills its
block with the items that are left, so the text does not depend on the sizes of the blocks.
`GetPIDMapWrite` counts the PIDs and the prefixes of a PID by an `unsigned int`, and writes what a
longer vector has modulo `2^32`.
-/

namespace Alto.Portal

open Lib Server Server.ResponseStream

variable {net : AddressText} {lookup : IPPrefix → Option PID}

/-! ## PIDs -/

/-- The line of an address. -/
def pidLine (net : AddressText) (lookup : IPPrefix → Option PID) (ip : IPPrefix) : List Char :=
  ip.toText net ++ ['\t'] ++ ((lookup ip).getD defaultPID).toText ++ ['\r', '\n']

/-- The loop over the addresses puts their lines. -/
theorem putAddrs_eq (addrs : List IPPrefix) (rsp : ResponseStream) :
    (putAddrs net lookup addrs rsp).2 = (putAll (addrs.map (pidLine net lookup)) rsp).2 ∧
      (putAddrs net lookup addrs rsp).1.map (pidLine net lookup) =
        (putAll (addrs.map (pidLine net lookup)) rsp).1 := by
  induction addrs generalizing rsp with
  | nil => exact ⟨rfl, rfl⟩
  | cons ip addrs ih =>
    simp only [putAddrs, put_put, List.map_cons, putAll]
    rw [← pidLine]
    split
    · exact ih _
    · exact ⟨rfl, rfl⟩

/-- The callback fills its blocks with the lines of the addresses that are left. -/
theorem fills_getPIDsWrite : Fills (getPIDsWrite net lookup) (List.map (pidLine net lookup))
    fun _ => True where
  done addrs max _ hleft := by
    rw [getPIDsWrite, if_pos (List.isEmpty_iff.2 (List.map_eq_nil_iff.1 hleft))]
  block addrs max item items _ hleft _ := by
    have hne : ¬ addrs.isEmpty = true := by
      rw [List.isEmpty_iff]
      rintro rfl
      cases hleft
    obtain ⟨hstream, hrest⟩ := @putAddrs_eq net lookup addrs { size := max }
    obtain ⟨hfill, hmarked⟩ := (clean_start max).putAll_eq_fill (addrs.map (pidLine net lookup))
    have hroom : room { size := max } = max := rfl
    rw [hroom] at hfill hmarked
    rw [getPIDsWrite, if_neg hne]
    dsimp only
    exact ⟨by rw [hstream, hmarked]; rfl, hrest.trans hfill, trivial⟩

theorem delivered_getPIDsWrite (addrs : List IPPrefix) :
    Delivered (getPIDsWrite net lookup) (List.map (pidLine net lookup)) addrs :=
  delivered_of_inv trivial (fun _ _ _ => trivial) fun _ h => fills_getPIDsWrite.delivers h

/-! ## Costs -/

section Costs

variable (rnd : ℚ → Double) (cast : Double → Nat) (view : CostView)

/-- The items of costs that are left. -/
def costsLeft (data : GetCostsCursor) : List (List Char) :=
  data.itemsLeft (wireCost rnd cast view) data.pidsCur

theorem fills_getCostsWrite : Fills (getCostsWrite rnd cast view)
    (GetCostsCursor.left (wireCost rnd cast view)) fun data => data.pidState ≤ 2 where
  done data max _ hleft := by
    have hempty : data.pidsCur.isEmpty = true := by
      by_contra hne
      rw [GetCostsCursor.left, if_neg hne] at hleft
      simp at hleft
    rw [getCostsWrite, if_pos hempty]
  block data max item items hstate hleft _ := by
    refine getCostsWrite_fill rnd cast view hstate (fun hnil => ?_) max
    rw [GetCostsCursor.left, if_pos (List.isEmpty_iff.2 hnil)] at hleft
    cases hleft

theorem delivered_getCostsWrite (entries : List CostsEntry) :
    Delivered (getCostsWrite rnd cast view) (costsLeft rnd cast view) { pidsCur := entries } := by
  have hfills := fills_getCostsWrite rnd cast view
  refine delivered_of_inv (I := fun data => data.pidState ≤ 2) (Nat.zero_le 2) ?_ ?_
  · intro data max hstate
    by_cases hnil : data.pidsCur = []
    · rw [getCostsWrite, if_pos (List.isEmpty_iff.2 hnil)]
      exact hstate
    · exact (getCostsWrite_fill rnd cast view hstate hnil max).2.2
  · intro data hstate
    by_cases hnil : data.pidsCur = []
    · have hleft : GetCostsCursor.left (wireCost rnd cast view) data = [] :=
        if_pos (List.isEmpty_iff.2 hnil)
      have hitems : costsLeft rnd cast view data = [] := by
        rw [costsLeft, hnil]
        rfl
      rw [hitems, ← hleft]
      exact hfills.delivers hstate
    · exact hfills.delivers_concat hstate (if_neg (by simpa using hnil))

end Costs

/-! ## The PID map -/

namespace GetPIDMapState

variable {pids : List (PID × List IPPrefix)} {data : GetPIDMapState}

theorem writing_start (pids : List (PID × List IPPrefix)) : Writing pids { pids } :=
  ⟨rfl, Nat.zero_le _, fun _ => rfl, fun _ => rfl⟩

theorem Writing.next (h : data.Writing pids) (max : Nat) :
    (getPIDMapWrite net data max).1.Writing pids := by
  by_cases hnil : data.written net = []
  · rw [(getPIDMapWrite_fill h max).1 hnil]
    exact h
  · exact ((getPIDMapWrite_fill h max).2 hnil).2.2

theorem written_start (net : AddressText) (pids : List (PID × List IPPrefix)) :
    written net { pids } = (pids.take (pids.length % 2 ^ 32)).flatMap (writtenItems net) := by
  rw [written, List.drop_zero]
  split
  · next h => rw [h]; rfl
  · next h => rw [h]; rfl

theorem left_start (net : AddressText) (pids : List (PID × List IPPrefix)) :
    left net { pids } = pids.flatMap (recordItems net) := by
  rw [left, List.drop_zero]
  cases pids <;> rfl

theorem length_prefixItems (net : AddressText) (prefixes : List IPPrefix) :
    prefixes.length ≤ (prefixes.map (prefixItem net)).flatten.length := by
  induction prefixes with
  | nil => exact le_rfl
  | cons p prefixes ih =>
    simp only [List.map_cons, List.flatten_cons, List.length_append, List.length_cons, prefixItem,
      List.length_nil]
    omega

/-- What is written of a record is no longer than its items, and shorter if it has too many
prefixes. -/
theorem length_writtenItems (net : AddressText) (record : PID × List IPPrefix) :
    (writtenItems net record).flatten.length ≤ (recordItems net record).flatten.length ∧
      (2 ^ 32 ≤ record.2.length →
        (writtenItems net record).flatten.length < (recordItems net record).flatten.length) := by
  have hsplit := congrArg (fun l => (l.map (prefixItem net)).flatten.length)
    (List.take_append_drop (record.2.length % 2 ^ 32) record.2)
  have hrest := length_prefixItems net (record.2.drop (record.2.length % 2 ^ 32))
  simp only [List.map_append, List.flatten_append, List.length_append] at hsplit
  rw [List.length_drop] at hrest
  simp only [writtenItems, recordItems, List.flatten_cons, List.flatten_append, List.length_append]
  omega

theorem length_flatMap_writtenItems (net : AddressText) (records : List (PID × List IPPrefix)) :
    (records.flatMap (writtenItems net)).flatten.length ≤
        (records.flatMap (recordItems net)).flatten.length ∧
      ((∃ record ∈ records, 2 ^ 32 ≤ record.2.length) →
        (records.flatMap (writtenItems net)).flatten.length <
          (records.flatMap (recordItems net)).flatten.length) := by
  induction records with
  | nil => exact ⟨le_rfl, nofun⟩
  | cons record records ih =>
    obtain ⟨hle, hlt⟩ := length_writtenItems net record
    obtain ⟨hles, hlts⟩ := ih
    simp only [List.flatMap_cons, List.flatten_append, List.length_append]
    refine ⟨by omega, ?_⟩
    rintro ⟨r, hr, hlong⟩
    rcases List.mem_cons.1 hr with rfl | hr
    · have := hlt hlong
      omega
    · have := hlts ⟨r, hr, hlong⟩
      omega

/-- The vectors can be indexed with an `unsigned int` if nothing is missing from the text. -/
theorem sized_of_flatten (h : (written net { pids }).flatten = (left net { pids }).flatten) :
    Sized { pids } := by
  have hlen := congrArg List.length h
  rw [written_start, left_start] at hlen
  obtain ⟨hle, hlt⟩ := length_flatMap_writtenItems net (pids.take (pids.length % 2 ^ 32))
  have hsplit : (pids.flatMap (recordItems net)).flatten.length =
      ((pids.take (pids.length % 2 ^ 32)).flatMap (recordItems net)).flatten.length +
        ((pids.drop (pids.length % 2 ^ 32)).flatMap (recordItems net)).flatten.length := by
    conv_lhs => rw [← List.take_append_drop (pids.length % 2 ^ 32) pids]
    rw [List.flatMap_append, List.flatten_append, List.length_append]
  have hpids : pids.length < 2 ^ 32 := by
    by_contra hlong
    have hdrop : (pids.drop (pids.length % 2 ^ 32)).length ≠ 0 := by
      rw [List.length_drop]
      omega
    obtain ⟨record, records, heq⟩ := List.exists_cons_of_ne_nil
      (List.length_pos_iff.1 (Nat.pos_of_ne_zero hdrop))
    have hend : 2 ≤ ((pids.drop (pids.length % 2 ^ 32)).flatMap
        (recordItems net)).flatten.length := by
      rw [heq]
      simp only [List.flatMap_cons, recordItems, List.flatten_append, List.flatten_cons,
        List.length_append, endItem, List.flatten_nil, List.length_cons, List.length_nil]
      omega
    omega
  refine ⟨hpids, fun record hrecord => ?_⟩
  by_contra hlong
  rw [Nat.mod_eq_of_lt hpids, List.take_length] at hlen
  have := (length_flatMap_writtenItems net pids).2 ⟨record, hrecord, Nat.le_of_not_lt hlong⟩
  omega

theorem delivered_getPIDMapWrite_iff (net : AddressText) (pids : List (PID × List IPPrefix)) :
    Delivered (getPIDMapWrite net) (left net) { pids } ↔ Sized { pids } := by
  have hfills : Fills (getPIDMapWrite net) (written net) (Writing pids) :=
    fills_getPIDMapWrite pids
  constructor
  · intro h
    -- blocks with room for every item of either text
    let sizes := List.replicate ((left net { pids }).length + (written net { pids }).length + 2)
      ((left net { pids }).flatten.length + (written net { pids }).flatten.length)
    have hroom : ∀ items : List (List Char), items.flatten.length ≤
        (left net { pids }).flatten.length + (written net { pids }).flatten.length →
        Packs sizes items := by
      intro items hle
      refine packs_of_forall fun max hmax item hitem => ?_
      obtain rfl := List.eq_of_mem_replicate hmax
      exact (List.sublist_flatten_of_mem hitem).length_le.trans hle
    have hleft := hroom (left net { pids }) (Nat.le_add_right _ _)
    have hwritten := hroom (written net { pids }) (Nat.le_add_left _ _)
    obtain ⟨text, htext⟩ := Option.isSome_iff_exists.1 ((h []).ends sizes hleft (by
      simp only [List.foldl_nil, sizes, List.length_replicate]
      omega))
    have hall := (h []).text sizes text hleft htext
    exact sized_of_flatten ((hfills.eq_flatten (writing_start pids) hwritten htext).symm.trans hall)
  · intro hsized
    refine delivered_of_inv (writing_start pids) (fun _ max hdata => hdata.next max) ?_
    intro data hdata
    obtain rfl := hdata.pids
    have hwhole : data.written net = data.left net :=
      written_eq_left hsized.pids hsized.prefixes
    rw [← hwhole]
    exact hfills.delivers hdata

end GetPIDMapState

/-! ## The three writers -/

/-- From every state of every response, the three writers deliver whole records in any blocks that are
large enough, except that `GetPIDMapWrite` needs vectors that an `unsigned int` can index. -/
theorem responses_in_blocks_iff (net : AddressText) (lookup : IPPrefix → Option PID)
    (rnd : ℚ → Double) (cast : Double → Nat) (view : CostView) (addrs : List IPPrefix)
    (entries : List CostsEntry) (pids : List (PID × List IPPrefix)) :
    Delivered (getPIDsWrite net lookup) (List.map (pidLine net lookup)) addrs ∧
      Delivered (getCostsWrite rnd cast view) (costsLeft rnd cast view) { pidsCur := entries } ∧
      (Delivered (getPIDMapWrite net) (GetPIDMapState.left net) { pids } ↔
        pids.length < 2 ^ 32 ∧ ∀ record ∈ pids, record.2.length < 2 ^ 32) := by
  refine ⟨delivered_getPIDsWrite addrs, delivered_getCostsWrite rnd cast view entries, ?_⟩
  rw [GetPIDMapState.delivered_getPIDMapWrite_iff]
  exact ⟨fun h => ⟨h.pids, h.prefixes⟩, fun h => ⟨h.1, h.2⟩⟩

/-- Of `2^32` PIDs not one is written. -/
theorem many_pids_not_delivered :
    ¬ Delivered (getPIDMapWrite tenText) (GetPIDMapState.left tenText)
      { pids := List.replicate (2 ^ 32) (⟨"isp", 1, false⟩, []) } := by
  intro h
  have hsized := (GetPIDMapState.delivered_getPIDMapWrite_iff tenText _).1 h
  have hlt := hsized.pids
  rw [List.length_replicate] at hlt
  exact Nat.lt_irrefl _ hlt

end Alto.Portal
