import Alto.Verify.FillSound

/-!
# Sampling without replacement

The calls of a `PIDPeerSelectionHelper` that keep to the number of peers it has been created for. As
long as the strategy `ST_NOCOPY` is chosen only where there are more peers than that, and more of them
than that lie within the range of `rand`, the helper samples without replacement. But the number is
multiplied by four as an `unsigned int`, and a list of PIDs must not hold the unknown PID.
-/

namespace Alto.Selection

open Common Lib App Guidance

variable {randMax : Nat} {Peer : Type} [LinearOrder Peer]

/-! ## Calls -/

/-- A PID of a distribution: an index, where the last one is that of the peers without a PID, or the
unknown PID. -/
def ValidPid (numPids : Nat) (pid : Int) : Prop := pid = errUnknownPID ∨ 0 ≤ pid ∧ pid ≤ numPids

/-- A call of `PIDPeerSelectionHelper::selectPeer`. -/
inductive HelperCall where
  | one (pid : Int)
  | oneOf (pids : List Int)

namespace HelperCall

/-- The calls for valid PIDs. The lists of PIDs are among these, and have no duplicates. -/
def Allowed (numPids : Nat) (lists : Set (List Int)) : HelperCall → Prop
  | .one pid => ValidPid numPids pid
  | .oneOf pids => pids ∈ lists ∧ pids.Nodup ∧ ∀ pid ∈ pids, ValidPid numPids pid

def run : HelperCall → Selector randMax Peer (Option Peer)
  | .one pid => Selector.selectPeer pid
  | .oneOf pids => Selector.selectPeerOf pids

end HelperCall

/-- A selection with a new helper. -/
def createHelper (view : PerISPPeerDistribution Peer) (numPids total : Nat) : Selecting Peer :=
  { outPeers := [], helper := .create view numPids total }

/-- The states after some calls of a new helper, with the peers that they have returned. -/
inductive Sampling (randMax : Nat) (view : PerISPPeerDistribution Peer) (numPids total : Nat)
    (lists : Set (List Int)) : Selecting Peer → List Peer → Prop
  | create : Sampling randMax view numPids total lists (createHelper view numPids total) []
  | call {s s' : Selecting Peer} {results : List Peer} {call : HelperCall}
      {rs rest : List (Fin (randMax + 1))} {result : Option Peer} :
      Sampling randMax view numPids total lists s results → call.Allowed numPids lists →
      call.run s rs = .returned result s' rest →
      Sampling randMax view numPids total lists s' (results ++ result.toList)

/-! ## The draws of one state -/

/-- The peers of a PID that have not been returned. -/
def unreturned (view : PerISPPeerDistribution Peer) (results : List Peer) (pid : Int) : List Peer :=
  ((view.listPIDPeers pid).getD []).filter fun p => p ∉ results

/-- The loop of the strategy `ST_NOCOPY` can draw a peer that is not selected. -/
def CanFinish (randMax : Nat) (view : PerISPPeerDistribution Peer) (s : Selecting Peer) : Prop :=
  ∀ pid info, s.helper.info pid = some info → info.strategy = .nocopy →
    ∃ r : Fin (randMax + 1), view.getRandomPeer pid r ∉ info.selected

/-- For some PIDs the result is `NULL` exactly if all their peers have been returned. -/
def HelperCall.Answered (view : PerISPPeerDistribution Peer) (results : List Peer) :
    HelperCall → Option Peer → Prop
  | .one _, _ => True
  | .oneOf pids, result => result = none ↔ ∀ pid ∈ pids, unreturned view results pid = []

/-- The returned peers are distinct, and `numPeers` counts those that have not been returned. The next
call is defined, whether it returns or waits for `rand`. -/
structure Sampled (randMax : Nat) (view : PerISPPeerDistribution Peer) (numPids : Nat)
    (lists : Set (List Int)) (s : Selecting Peer) (results : List Peer) : Prop where
  distinct : results.Nodup
  counted : ∀ pid info, s.helper.info pid = some info →
    info.numPeers = (unreturned view results pid).length
  finishes : CanFinish randMax view s
  answers : ∀ call : HelperCall, call.Allowed numPids lists → ∀ rs : List (Fin (randMax + 1)),
    (call.run s rs).Holds (fun result _ => call.Answered view results result) (fun _ => False)
      (CanFinish randMax view)

/-- As long as no more peers are returned than the helper has been created for, it samples without
replacement. -/
def SamplesWithoutReplacement (randMax : Nat) (view : PerISPPeerDistribution Peer)
    (numPids total : Nat) (lists : Set (List Int)) : Prop :=
  ∀ s results, Sampling randMax view numPids total lists s results → results.length ≤ total →
    Sampled randMax view numPids lists s results

/-- There are peers, no list of PIDs holds the unknown PID, and a bucket is copied, or has more peers
within the range of `rand` than are to be selected. -/
structure Ample (randMax : Nat) (view : PerISPPeerDistribution Peer) (numPids total : Nat)
    (lists : Set (List Int)) : Prop where
  allocated : view.pidPeers ≠ []
  known : ∀ pids, (HelperCall.oneOf pids).Allowed numPids lists → errUnknownPID ∉ pids
  enough : ∀ bucket ∈ view.pidPeers,
    toUnsigned bucket.size ≤ toUnsigned (4 * total) ∨ total < min bucket.size (randMax + 1)

namespace Sampling

open PerISPPeerDistribution Selector

variable {view : PerISPPeerDistribution Peer} {n total i j : Nat} {lists : Set (List Int)}
  {s s' : Selecting Peer} {results : List Peer} {pid : Int} {info : PIDInfo Peer}

/-! ## The buckets -/

/-- The entry for a PID and its bucket have the same index. -/
theorem bucket_of_info (hlength : s.helper.pidinfo.length = n + 1)
    (hview : view.pidPeers.length = n + 1) (hinfo : s.helper.info pid = some info) :
    ∃ i, i ≤ n ∧ s.helper.pidinfo[i]? = some info ∧ view.bucket pid = view.bucket i := by
  unfold PIDPeerSelectionHelper.info PIDPeerSelectionHelper.pidIdx at hinfo
  split at hinfo
  · next hunknown =>
    have hidx : ((s.helper.pidinfo.length : Int) - 1) = n := by omega
    rw [hidx, PIDPeerSelectionHelper.entry_natCast] at hinfo
    refine ⟨n, Nat.le_refl n, hinfo, ?_⟩
    subst hunknown
    simp [bucket, slot, hview, errUnknownPID]
  · have hpos : 0 ≤ pid := by
      unfold PIDPeerSelectionHelper.entry at hinfo
      split at hinfo
      · cases hinfo
      · omega
    obtain ⟨i, rfl⟩ := Int.eq_ofNat_of_zero_le hpos
    rw [PIDPeerSelectionHelper.entry_natCast] at hinfo
    have hlt := (List.getElem?_eq_some_iff.1 hinfo).1
    exact ⟨i, by omega, hinfo, rfl⟩

theorem exists_bucket (hview : view.pidPeers.length = n + 1) (hi : i ≤ n) :
    ∃ bucket ∈ view.pidPeers, view.bucket i = some bucket ∧
      view.listPIDPeers i = some bucket.elements := by
  have hlt : i < view.pidPeers.length := by omega
  have hbucket : view.bucket i = some view.pidPeers[i] := by
    rw [bucket_natCast, List.getElem?_eq_getElem hlt]
  exact ⟨_, List.getElem_mem hlt, hbucket, by rw [listPIDPeers, hbucket]; rfl⟩

theorem unreturned_congr (hbucket : view.bucket pid = view.bucket i) (results : List Peer) :
    unreturned view results pid = unreturned view results i := by
  rw [unreturned, unreturned, listPIDPeers, listPIDPeers, hbucket]

theorem nodup_unreturned (hbuckets : view.Buckets) (results : List Peer) (i : Nat) :
    (unreturned view results i).Nodup := by
  refine List.Nodup.filter _ ?_
  cases hpeers : view.listPIDPeers i with
  | none => exact List.nodup_nil
  | some peers => exact PIDPeerSelectionHelper.nodup_listPIDPeers hbuckets hpeers

/-- One more peer has been returned. -/
theorem unreturned_concat (hbuckets : view.Buckets) (results : List Peer) (peer : Peer) (i : Nat) :
    unreturned view (results ++ [peer]) i = (unreturned view results i).erase peer := by
  rw [(nodup_unreturned hbuckets results i).erase_eq_filter, unreturned, unreturned,
    List.filter_filter]
  apply List.filter_congr
  intro p _
  by_cases hp : p = peer <;> simp [hp]

/-- A peer is in one bucket. -/
theorem eq_of_mem_unreturned (hbuckets : view.Buckets) {peer : Peer}
    (hi : peer ∈ unreturned view results i) (hj : peer ∈ unreturned view results j) : i = j := by
  obtain ⟨pid, hpid, rfl⟩ := hbuckets.stored (List.mem_filter.1 hi).1
  obtain ⟨pid', hpid', rfl⟩ := hbuckets.stored (List.mem_filter.1 hj).1
  rw [Option.some.inj (hpid.symm.trans hpid')]

/-! ## What every run keeps -/

/-- The helper has left what has not been returned. -/
structure Tracks (view : PerISPPeerDistribution Peer) (n total : Nat) (results : List Peer)
    (s : Selecting Peer) : Prop where
  length : s.helper.pidinfo.length = n + 1
  ready : s.helper.Ready (n + 1)
  ispPeers : s.helper.ispPeers = view
  totalPeers : s.helper.totalPeers = total
  distinct : results.Nodup
  left : ∀ i ≤ n, (s.helper.left i).Perm (unreturned view results i)

theorem info_create (hview : view.pidPeers.length = n + 1) (hi : i ≤ n) :
    (createHelper view n total).helper.pidinfo[i]? = some { numPeers := view.getNumPeers i } := by
  rcases hi.lt_or_eq with hlt | rfl
  · exact PIDPeerSelectionHelper.pidinfo_create hlt
  · have hlast : view.getNumPeers errUnknownPID = view.getNumPeers i := by
      simp [getNumPeers, bucket, slot, hview, errUnknownPID]
    rw [createHelper, PIDPeerSelectionHelper.create, List.getElem?_append_right (by simp), hlast]
    simp

theorem tracks_create (hbuckets : view.Buckets) (hview : view.pidPeers.length = n + 1) :
    Tracks view n total [] (createHelper view n total) := by
  refine ⟨by simp [createHelper, PIDPeerSelectionHelper.create], ⟨by simp [createHelper,
    PIDPeerSelectionHelper.create], ?_, ?_⟩, rfl, rfl, List.nodup_nil, ?_⟩
  · intro i info hi hget
    cases (info_create hview (Nat.le_of_lt_succ hi)).symm.trans hget
    exact ⟨PIDPeerSelectionHelper.getNumPeers_eq view i, fun _ => ⟨rfl, rfl⟩, fun _ => rfl, fun h => (by cases h),
      fun _ _ => .refl _⟩
  · exact fun i peers hpeers => PIDPeerSelectionHelper.nodup_listPIDPeers hbuckets hpeers
  · intro i hi
    obtain ⟨b, -, -, hpeers⟩ := exists_bucket hview hi
    have hleft := PIDPeerSelectionHelper.Ready.left_eq (h := (createHelper view n total).helper)
      (info_create hview hi) hpeers
    rw [hleft, unreturned, hpeers]
    simp [PIDInfo.left]

/-- A call takes a peer that has not been returned. -/
theorem Tracks.select (h : Tracks view n total results s) (hbuckets : view.Buckets) (hi : i ≤ n)
    {result : Option Peer} (hsel : Selected (n + 1) i s result s') :
    Tracks view n total (results ++ result.toList) s' := by
  have hlength := hsel.2.length.trans h.length
  have hisp := hsel.2.ispPeers.trans h.ispPeers
  have htotal := hsel.2.totalPeers.trans h.totalPeers
  cases result with
  | none =>
    rw [Option.toList_none, List.append_nil]
    refine ⟨hlength, hsel.2.ready, hisp, htotal, h.distinct, fun j hj => ?_⟩
    have hsame : s'.helper.left j = s.helper.left j := by
      by_cases hji : j = i
      · rw [hji, (hsel.2.empty rfl).1, (hsel.2.empty rfl).2]
      · exact hsel.2.others j hji
    rw [hsame]
    exact h.left j hj
  | some peer =>
    have htaken := (hsel.2.taken peer rfl).trans (h.left i hi)
    have hmem : peer ∈ unreturned view results i := htaken.subset List.mem_cons_self
    have hnew : peer ∉ results := by simpa using (List.mem_filter.1 hmem).2
    refine ⟨hlength, hsel.2.ready, hisp, htotal, ?_, fun j hj => ?_⟩
    · exact List.nodup_append.2 ⟨h.distinct, List.nodup_singleton peer, fun p hp q hq heq =>
        hnew (List.mem_singleton.1 hq ▸ heq ▸ hp)⟩
    · rw [Option.toList_some, unreturned_concat hbuckets]
      by_cases hji : j = i
      · rw [hji]
        exact (List.cons_perm_iff_perm_erase.1 htaken).2
      · rw [hsel.2.others j hji, List.erase_of_not_mem fun hin =>
          hji (eq_of_mem_unreturned hbuckets hin hmem)]
        exact h.left j hj

theorem Tracks.wait (h : Tracks view n total results s) (hw : Waits (n + 1) s s') :
    Tracks view n total results s' where
  length := hw.length.trans h.length
  ready := hw.ready
  ispPeers := hw.ispPeers.trans h.ispPeers
  totalPeers := hw.totalPeers.trans h.totalPeers
  distinct := h.distinct
  left i hi := by
    rw [hw.left]
    exact h.left i hi

/-! ## Calls for the unknown PID -/

section Unknown

variable {pid' : Int}

theorem takeCopied_congr (hset : ∀ info, s.helper.setInfo pid info = s.helper.setInfo pid' info)
    (info : PIDInfo Peer) (rs : List (Fin (randMax + 1))) :
    takeCopied pid info s rs = takeCopied pid' info s rs := by
  unfold takeCopied
  split
  · rfl
  cases rs with
  | nil => rfl
  | cons r rs =>
    simp only [Draws.bind_apply, Draws.draw, Drawn.andThen]
    cases info.candidates[(r : Nat) % info.candidates.length]? with
    | none => rfl
    | some peer =>
      cases info.candidates.getLast? with
      | none => rfl
      | some back =>
        simp only [Draws.bind_apply, Selector.setInfo, Draws.modify, Drawn.andThen, hset]

theorem getRandomPeer_keeps (view : PerISPPeerDistribution Peer) (pid : Int) :
    Draws.Triple (fun t => t = s)
      (Selector.getRandomPeer view pid : Selector randMax Peer (Option Peer)) (fun _ t => t = s)
      (fun _ => False) (fun t => t = s) := by
  unfold Selector.getRandomPeer
  split
  · refine (Draws.triple_draw (Q := fun _ t => t = s) (fun _ _ => id) fun _ => id).bind fun _ => ?_
    exact Draws.triple_pure fun _ => id
  · exact Draws.triple_pure fun _ => id

theorem takeUnselected_congr
    (hset : ∀ info, s.helper.setInfo pid info = s.helper.setInfo pid' info)
    (hbucket : view.bucket pid = view.bucket pid') (info : PIDInfo Peer)
    (rs : List (Fin (randMax + 1))) :
    takeUnselected view pid info s rs = takeUnselected view pid' info s rs := by
  have hrandom : (Selector.getRandomPeer view pid : Selector randMax Peer (Option Peer)) =
      Selector.getRandomPeer view pid' := by
    have hnum : view.getNumPeers pid = view.getNumPeers pid' := by
      rw [getNumPeers, getNumPeers, hbucket]
    have hpeer : view.getRandomPeer pid = view.getRandomPeer pid' := by
      funext r
      rw [PerISPPeerDistribution.getRandomPeer, PerISPPeerDistribution.getRandomPeer, hbucket]
    rw [Selector.getRandomPeer, Selector.getRandomPeer, hnum, hpeer]
  have hloop : Draws.Triple (fun t => t = s)
      (Draws.loop (fun () => do
        let peer ← Selector.getRandomPeer view pid'
        if peer ∈ info.selected then pure (.inl ()) else pure (.inr peer)) () :
          Selector randMax Peer (Option Peer)) (fun _ t => t = s) (fun _ => False)
      (fun t => t = s) := by
    refine Draws.triple_loop (J := fun _ t => t = s) (fun _ => ?_) (fun _ _ => id) ()
    refine (getRandomPeer_keeps view pid').bind fun peer => ?_
    split <;> exact Draws.triple_pure fun _ => id
  unfold takeUnselected
  rw [hrandom, Draws.bind_apply, Draws.bind_apply]
  have hdrawn := hloop s rs rfl
  generalize Draws.loop _ () s rs = drawn at hdrawn ⊢
  cases drawn with
  | returned peer t rest =>
    obtain rfl : t = s := hdrawn
    simp only [Draws.bind_apply, Selector.setInfo, Draws.modify, Drawn.andThen, hset]
  | threw t => rfl
  | pending t => rfl
  | undefined => rfl

/-- The unknown PID has the last entry and the last bucket. -/
theorem selectPeer_unknown (hlength : s.helper.pidinfo.length = n + 1)
    (hview : s.helper.ispPeers.pidPeers.length = n + 1) (rs : List (Fin (randMax + 1))) :
    (selectPeer errUnknownPID : Selector randMax Peer (Option Peer)) s rs =
      selectPeer n s rs := by
  have hidx : ∀ h : PIDPeerSelectionHelper Peer, h.pidinfo.length = n + 1 →
      h.pidIdx errUnknownPID = h.pidIdx n := by
    intro h hlen
    have hne : (n : Int) ≠ errUnknownPID := by
      unfold errUnknownPID
      omega
    rw [PIDPeerSelectionHelper.pidIdx, PIDPeerSelectionHelper.pidIdx, if_pos rfl, if_neg hne]
    omega
  have hset : ∀ (h : PIDPeerSelectionHelper Peer), h.pidinfo.length = n + 1 →
      ∀ info, h.setInfo errUnknownPID info = h.setInfo n info := by
    intro h hlen info
    rw [PIDPeerSelectionHelper.setInfo, PIDPeerSelectionHelper.setInfo, hidx h hlen]
  have hbucket : s.helper.ispPeers.bucket errUnknownPID = s.helper.ispPeers.bucket n := by
    simp [bucket, slot, hview, errUnknownPID]
  have hchoose : ∀ info, s.helper.chooseStrategy errUnknownPID info =
      s.helper.chooseStrategy n info := by
    intro info
    simp only [PIDPeerSelectionHelper.chooseStrategy, listPIDPeers, hbucket]
  unfold selectPeer
  simp only [Draws.bind_apply, Draws.get, Drawn.andThen, PIDPeerSelectionHelper.info,
    hidx s.helper hlength, hchoose]
  cases s.helper.entry (s.helper.pidIdx n) with
  | none => rfl
  | some info =>
    simp only [Draws.bind_apply, Selector.setInfo, Draws.modify, Drawn.andThen,
      hset s.helper hlength]
    generalize s.helper.chooseStrategy n info = choice
    obtain ⟨chosen, info'⟩ := choice
    -- the number of entries is the same when the strategy stores its own
    have hset' := hset (s.helper.setInfo n info')
      (PIDPeerSelectionHelper.length_setInfo.trans hlength)
    cases chosen with
    | false => rfl
    | true =>
      simp only [Bool.not_true, Bool.false_eq_true, if_false]
      split
      · exact takeCopied_congr hset' info' rs
      · exact takeUnselected_congr hset' hbucket info' rs

end Unknown

/-! ## Calls for some PIDs -/

/-- The entries are read as they are given. -/
theorem selectPeerOf_unknown {pids : List Int} (hmem : errUnknownPID ∈ pids) (s : Selecting Peer)
    (rs : List (Fin (randMax + 1))) :
    (selectPeerOf pids : Selector randMax Peer (Option Peer)) s rs = .undefined := by
  have hnone : pids.mapM s.helper.entry = none := by
    induction pids with
    | nil => cases hmem
    | cons pid pids ih =>
      rw [List.mapM_cons]
      rcases List.mem_cons.1 hmem with rfl | hmem
      · rfl
      · rw [ih hmem]
        cases s.helper.entry pid <;> rfl
  unfold selectPeerOf
  simp only [Draws.bind_apply, Draws.get, Drawn.andThen, hnone]
  rfl

theorem exists_pidList {pids : List Int} (hvalid : ∀ pid ∈ pids, ValidPid n pid)
    (hknown : errUnknownPID ∉ pids) : ∃ is : List Nat, pids = pidList is ∧ ∀ i ∈ is, i ≤ n := by
  refine ⟨pids.map Int.toNat, ?_, ?_⟩
  · rw [pidList, List.map_map]
    refine (List.map_id pids).symm.trans (List.map_congr_left fun pid hpid => ?_)
    rcases hvalid pid hpid with rfl | ⟨hpos, -⟩
    · exact absurd hpid hknown
    · exact (Int.toNat_of_nonneg hpos).symm
  · intro i hi
    obtain ⟨pid, hpid, rfl⟩ := List.mem_map.1 hi
    rcases hvalid pid hpid with rfl | ⟨-, hle⟩
    · exact absurd hpid hknown
    · omega

/-- All PIDs are valid, so that the sum is positive if one of them has peers left. -/
theorem Tracks.stock_le_zero_iff (h : Tracks view n total results s)
    (hview : view.pidPeers.length = n + 1) {is : List Nat} (his : ∀ i ∈ is, i ≤ n) :
    stock s.helper is ≤ 0 ↔ ∀ i ∈ is, unreturned view results i = [] := by
  have hstock : stock s.helper is =
      ((is.map fun i : Nat => (unreturned view results i).length).sum : Nat) := by
    unfold stock
    induction is with
    | nil => rfl
    | cons i is ih =>
      have hi := his i List.mem_cons_self
      obtain ⟨b, -, -, hpeers⟩ := exists_bucket hview hi
      rw [List.map_cons, List.sum_cons, ih fun j hj => his j (List.mem_cons_of_mem _ hj),
        List.map_cons, List.sum_cons, h.ispPeers, hpeers, (h.left i hi).length_eq]
      simp
  rw [hstock]
  constructor
  · intro hle i hi
    have hzero : (is.map fun i : Nat => (unreturned view results i).length).sum = 0 := by omega
    exact List.length_eq_zero_iff.1 (List.sum_eq_zero_iff.1 hzero _ (List.mem_map.2 ⟨i, hi, rfl⟩))
  · intro hempty
    have hzero : (is.map fun i : Nat => (unreturned view results i).length).sum = 0 := by
      refine List.sum_eq_zero_iff.2 fun k hk => ?_
      obtain ⟨i, hi, rfl⟩ := List.mem_map.1 hk
      rw [hempty i hi, List.length_nil]
    omega

/-- How a call ends that lists no unknown PID. -/
theorem Tracks.run (h : Tracks view n total results s) (hbuckets : view.Buckets)
    (hview : view.pidPeers.length = n + 1) {call : HelperCall} (hallowed : call.Allowed n lists)
    (hknown : ∀ pids, call = .oneOf pids → errUnknownPID ∉ pids) (rs : List (Fin (randMax + 1))) :
    (call.run s rs).Holds (fun result s' =>
        Tracks view n total (results ++ result.toList) s' ∧ call.Answered view results result)
      (fun _ => False) (Tracks view n total results) := by
  cases call with
  | one pid =>
    have hone : ∀ i ≤ n, (selectPeer i s rs).Holds (fun result s' =>
        Tracks view n total (results ++ result.toList) s' ∧ True) (fun _ => False)
        (Tracks view n total results) := by
      intro i hi
      exact (selectPeer_spec h.ready (Nat.lt_succ_of_le hi) rs).imp
        (fun _ _ hsel => ⟨h.select hbuckets hi hsel, trivial⟩) (fun _ => id) (fun _ => h.wait)
    rcases hallowed with rfl | ⟨hpos, hle⟩
    · change (selectPeer errUnknownPID s rs).Holds _ _ _
      rw [selectPeer_unknown h.length (h.ispPeers ▸ hview)]
      exact hone n (Nat.le_refl n)
    · obtain ⟨i, rfl⟩ := Int.eq_ofNat_of_zero_le hpos
      exact hone i (by omega)
  | oneOf pids =>
    obtain ⟨is, rfl, his⟩ := exists_pidList hallowed.2.2 (hknown pids rfl)
    have hstock := h.stock_le_zero_iff hview his
    refine (selectPeerOf_spec h.ready (fun i hi => Nat.lt_succ_of_le (his i hi)) rs).imp
      (fun result s' hsel => ?_) (fun _ => id) (fun _ => h.wait)
    have hall : (∀ pid ∈ pidList is, unreturned view results pid = []) ↔
        ∀ i ∈ is, unreturned view results i = [] := List.forall_mem_map
    cases result with
    | none =>
      obtain ⟨rfl, hle⟩ := hsel.empty rfl
      rw [Option.toList_none, List.append_nil]
      exact ⟨h, iff_of_true rfl (hall.2 (hstock.1 hle))⟩
    | some peer =>
      obtain ⟨hpos, i, hi, hsel⟩ := hsel.taken peer rfl
      refine ⟨h.select hbuckets (his i hi) hsel, iff_of_false nofun fun hempty => ?_⟩
      have := hstock.2 (hall.1 hempty)
      omega

/-- Whatever is called and drawn. -/
theorem tracks (h : Sampling randMax view n total lists s results) (hbuckets : view.Buckets)
    (hview : view.pidPeers.length = n + 1) : Tracks view n total results s := by
  induction h with
  | create => exact tracks_create hbuckets hview
  | @call s s' results call rs rest result _ hallowed hrun ih =>
    have hknown : ∀ pids, call = .oneOf pids → errUnknownPID ∉ pids := by
      rintro pids rfl hmem
      cases (selectPeerOf_unknown hmem s rs).symm.trans hrun
    have hspec := ih.run hbuckets hview hallowed hknown rs
    rw [hrun] at hspec
    exact hspec.1

/-! ## The strategy `ST_NOCOPY` -/

/-- The peers of a bucket that `rand` can reach. -/
theorem mem_take_iff {bucket : RandomAccessSet Peer} (hbucket : view.bucket i = some bucket)
    {peer : Peer} : peer ∈ bucket.elements.take (randMax + 1) ↔
      ∃ r : Fin (randMax + 1), view.getRandomPeer i r = some peer := by
  unfold PerISPPeerDistribution.getRandomPeer
  simp only [hbucket, Option.bind_some]
  rw [RandomAccessSet.elements, ← List.map_take, List.take_range, List.mem_map]
  constructor
  · rintro ⟨k, hk, rfl⟩
    have hk := List.mem_range.1 hk
    have hlt : k < bucket.size := by omega
    refine ⟨⟨k, by omega⟩, ?_⟩
    rw [if_neg (by omega), Nat.mod_eq_of_lt hlt]
  · rintro ⟨r, hr⟩
    split at hr
    · cases hr
    · next hsize =>
      have hlt := Nat.mod_lt r (Nat.pos_of_ne_zero hsize)
      have hle := Nat.mod_le r bucket.size
      exact ⟨r % bucket.size, List.mem_range.2 (by omega), Option.some.inj hr⟩

/-- Fewer peers have been returned than can be drawn. -/
theorem Tracks.canFinish (h : Tracks view n total results s) (hbuckets : view.Buckets)
    (hview : view.pidPeers.length = n + 1) (hle : results.length ≤ total)
    (henough : ∀ bucket ∈ view.pidPeers,
      toUnsigned bucket.size ≤ toUnsigned (4 * total) ∨ total < min bucket.size (randMax + 1)) :
    CanFinish randMax view s := by
  intro pid info hinfo hnocopy
  obtain ⟨i, hi, hinfo, hpid⟩ := bucket_of_info h.length hview hinfo
  obtain ⟨bucket, hmem, hbucket, hpeers⟩ := exists_bucket hview hi
  have hfits := h.ready.fits i info (Nat.lt_succ_of_le hi) hinfo
  rw [h.ispPeers, h.totalPeers] at hfits
  have hsize : bucket.elements.length = bucket.size := by simp [RandomAccessSet.elements]
  have hlarge := hfits.large hnocopy _ hpeers
  rw [hsize] at hlarge
  have hlt := (henough bucket hmem).resolve_left (Nat.not_le_of_lt hlarge)
  have hnodup : (bucket.elements.take (randMax + 1)).Nodup :=
    (PIDPeerSelectionHelper.nodup_listPIDPeers hbuckets hpeers).sublist (List.take_sublist _ _)
  obtain ⟨peer, hpeer, hnew⟩ : ∃ peer ∈ bucket.elements.take (randMax + 1), peer ∉ results := by
    by_contra hall
    push Not at hall
    have hcount := (List.subperm_of_subset hnodup fun peer hpeer => hall peer hpeer).length_le
    rw [List.length_take, hsize] at hcount
    omega
  obtain ⟨r, hr⟩ := (mem_take_iff hbucket).1 hpeer
  refine ⟨r, ?_⟩
  have hrandom : view.getRandomPeer pid r = some peer := by
    rw [← hr, PerISPPeerDistribution.getRandomPeer, PerISPPeerDistribution.getRandomPeer, hpid]
  rw [hrandom]
  -- the peer is left of the PID, and so it is not selected
  have hleft : peer ∈ s.helper.left i := by
    refine (h.left i hi).mem_iff.2 ?_
    rw [unreturned, hpeers]
    exact List.mem_filter.2 ⟨List.mem_of_mem_take hpeer, by simpa using hnew⟩
  rw [PIDPeerSelectionHelper.Ready.left_eq hinfo (h.ispPeers ▸ hpeers), PIDInfo.left,
    hnocopy] at hleft
  simpa using (List.mem_filter.1 hleft).2

theorem Tracks.counted (h : Tracks view n total results s) (hview : view.pidPeers.length = n + 1)
    (hinfo : s.helper.info pid = some info) :
    info.numPeers = (unreturned view results pid).length := by
  obtain ⟨i, hi, hinfo, hpid⟩ := bucket_of_info h.length hview hinfo
  obtain ⟨bucket, -, -, hpeers⟩ := exists_bucket hview hi
  rw [h.ready.numPeers_eq (Nat.lt_succ_of_le hi) hinfo, h.ispPeers, hpeers, if_neg nofun,
    (h.left i hi).length_eq, unreturned_congr hpid]

/-- Enough peers are enough. -/
theorem samples_of_ample (hbuckets : view.Buckets) (hview : view.pidPeers.length = n + 1)
    (hample : Ample randMax view n total lists) :
    SamplesWithoutReplacement randMax view n total lists := by
  intro s results hsampling hle
  have htracks := hsampling.tracks hbuckets hview
  refine ⟨htracks.distinct, fun pid info => htracks.counted hview,
    htracks.canFinish hbuckets hview hle hample.enough, fun call hallowed rs => ?_⟩
  have hknown : ∀ pids, call = .oneOf pids → errUnknownPID ∉ pids := by
    rintro pids rfl
    exact hample.known pids hallowed
  exact (htracks.run hbuckets hview hallowed hknown rs).imp (fun _ _ hspec => hspec.2)
    (fun _ => id) fun s' hspec => hspec.canFinish hbuckets hview hle hample.enough

/-! ## A loop that cannot finish -/

/-- The next call for a PID enters the loop of the strategy `ST_NOCOPY`. -/
structure Loops (view : PerISPPeerDistribution Peer) (i : Nat) (s : Selecting Peer)
    (info info' : PIDInfo Peer) : Prop where
  ispPeers : s.helper.ispPeers = view
  entry : s.helper.pidinfo[i]? = some info
  choice : s.helper.chooseStrategy i info = (true, info')
  nocopy : info'.strategy = .nocopy

theorem Loops.selectPeer_eq {info' : PIDInfo Peer} (h : Loops view i s info info')
    (rs : List (Fin (randMax + 1))) : selectPeer i s rs =
      takeUnselected view i info' { s with helper := s.helper.setInfo i info' } rs := by
  have hcopy : info'.strategy ≠ .copy := by
    rw [h.nocopy]
    exact nofun
  unfold selectPeer
  simp only [Draws.bind_apply, Draws.get, Drawn.andThen, PIDPeerSelectionHelper.info_natCast,
    h.entry, Selector.setInfo, Draws.modify, h.choice, Bool.not_true, Bool.false_eq_true, if_false,
    if_neg hcopy, h.ispPeers]

/-- The call waits in the loop, and a peer that is not selected lets it return. -/
theorem Loops.draw {info' : PIDInfo Peer} (h : Loops view i s info info')
    (hnum : 0 < view.getNumPeers i) :
    (∃ t : Selecting Peer, (selectPeer i : Selector randMax Peer (Option Peer)) s [] = .pending t ∧
      t.helper.info i = some info') ∧
    ∀ r : Fin (randMax + 1), view.getRandomPeer i r ∉ info'.selected →
      ∃ (t : Selecting Peer) (info₂ : PIDInfo Peer),
        selectPeer i s [r] = .returned (view.getRandomPeer i r) t [] ∧ Loops view i t info₂ info₂ := by
  have hlt := (List.getElem?_eq_some_iff.1 h.entry).1
  refine ⟨⟨{ s with helper := s.helper.setInfo i info' }, ?_, ?_⟩, fun r hr => ?_⟩
  · rw [h.selectPeer_eq]
    unfold takeUnselected
    rw [Draws.bind_apply, Draws.loop, Draws.rounds, Draws.bind_apply, Draws.bind_apply,
      Selector.getRandomPeer, if_pos hnum]
    rfl
  · rw [PIDPeerSelectionHelper.info_natCast, PIDPeerSelectionHelper.setInfo_natCast,
      List.getElem?_set_self hlt]
  · have hdraw : ∀ t : Selecting Peer, Selector.getRandomPeer view i t [r] =
        .returned (view.getRandomPeer i r) t [] := by
      intro t
      unfold Selector.getRandomPeer
      rw [if_pos hnum]
      rfl
    let info₂ := { info' with
      selected := view.getRandomPeer i r :: info'.selected
      numPeers := info'.numPeers - 1 }
    refine ⟨{ s with helper := (s.helper.setInfo i info').setInfo i info₂ }, info₂, ?_, ?_⟩
    · rw [h.selectPeer_eq]
      unfold takeUnselected
      rw [Draws.bind_apply, Draws.loop, Draws.rounds, Draws.bind_apply, Draws.bind_apply, hdraw]
      simp only [Drawn.andThen]
      rw [if_neg hr]
      rfl
    · refine ⟨?_, ?_, ?_, h.nocopy⟩
      · rw [PIDPeerSelectionHelper.setInfo_natCast, PIDPeerSelectionHelper.setInfo_natCast]
        exact h.ispPeers
      · rw [PIDPeerSelectionHelper.setInfo_natCast]
        refine List.getElem?_set_self ?_
        rw [PIDPeerSelectionHelper.length_setInfo]
        exact hlt
      · have hknown : info₂.strategy ≠ .unknown := by
          change info'.strategy ≠ _
          rw [h.nocopy]
          simp
        rw [PIDPeerSelectionHelper.chooseStrategy, if_neg hknown]

/-- As long as the helper samples, the loop goes on to return peers that `rand` can reach. -/
theorem exists_sampling (hview : view.pidPeers.length = n + 1)
    (hsamples : SamplesWithoutReplacement randMax view n total lists) (hi : i ≤ n)
    {bucket : RandomAccessSet Peer} (hbucket : view.bucket i = some bucket)
    (hlarge : toUnsigned (4 * total) < toUnsigned bucket.size) {k : Nat} (hk : k ≤ total + 1) :
    ∃ s results info info', Sampling randMax view n total lists s results ∧ results.length = k ∧
      results ⊆ bucket.elements.take (randMax + 1) ∧ Loops view i s info info' := by
  have hpos : 0 < bucket.size :=
    (Nat.zero_lt_of_lt hlarge).trans_le (toUnsigned_natCast_le bucket.size)
  have hnum : view.getNumPeers i = bucket.size := by rw [getNumPeers, hbucket]
  induction k with
  | zero =>
    refine ⟨_, [], _, { numPeers := view.getNumPeers i, strategy := .nocopy }, .create, rfl,
      List.nil_subset _, rfl, info_create hview hi, ?_, rfl⟩
    have hnonneg : ¬ (bucket.size : Int) < 0 := by omega
    unfold PIDPeerSelectionHelper.chooseStrategy
    rw [if_pos rfl, hnum, if_neg hnonneg]
    exact if_pos hlarge
  | succ k ih =>
    obtain ⟨s, results, info, info', hsampling, hlength, hreach, hloops⟩ := ih (by omega)
    have hallowed : (HelperCall.one i).Allowed n lists := .inr ⟨by omega, by omega⟩
    obtain ⟨⟨t, hpending, hinfo⟩, hdraw⟩ := hloops.draw (hnum ▸ Int.natCast_pos.2 hpos)
    -- the loop that waits can finish
    have hanswers := (hsamples s results hsampling (by omega)).answers (.one i) hallowed []
    have hfinish : CanFinish randMax view t := by
      change ((selectPeer i : Selector randMax Peer (Option Peer)) s []).Holds _ _ _ at hanswers
      rw [hpending] at hanswers
      exact hanswers
    obtain ⟨r, hr⟩ := hfinish i info' hinfo hloops.nocopy
    obtain ⟨t', info₂, hrun, hloops'⟩ := hdraw r hr
    obtain ⟨peer, hpeer⟩ : ∃ peer, view.getRandomPeer i r = some peer := by
      unfold PerISPPeerDistribution.getRandomPeer
      rw [hbucket, Option.bind_some, if_neg (by omega)]
      exact ⟨_, rfl⟩
    refine ⟨t', _, info₂, info₂, hsampling.call hallowed hrun, ?_, ?_, hloops'⟩
    · rw [hpeer, List.length_append, hlength, Option.toList_some, List.length_singleton]
    · rw [hpeer, Option.toList_some]
      refine List.append_subset.2 ⟨hreach, List.cons_subset.2 ⟨?_, List.nil_subset _⟩⟩
      exact (mem_take_iff hbucket).2 ⟨r, hpeer⟩

/-- Only enough peers are enough. -/
theorem ample_of_samples (hbuckets : view.Buckets)
    (hview : view.pidPeers = [] ∨ view.pidPeers.length = n + 1)
    (hsamples : SamplesWithoutReplacement randMax view n total lists) :
    Ample randMax view n total lists := by
  have hstart := hsamples _ [] .create (Nat.zero_le total)
  have hallocated : view.pidPeers ≠ [] := by
    intro hnil
    have hcounted := hstart.counted errUnknownPID { numPeers := view.getNumPeers errUnknownPID } (by
      simp [createHelper, PIDPeerSelectionHelper.create, PIDPeerSelectionHelper.info,
        PIDPeerSelectionHelper.pidIdx, PIDPeerSelectionHelper.entry])
    have hnum : view.getNumPeers errUnknownPID = -1 := by
      simp [getNumPeers, bucket, hnil]
    change view.getNumPeers errUnknownPID = _ at hcounted
    omega
  refine ⟨hallocated, fun pids hallowed hmem => ?_, fun bucket hmem => ?_⟩
  · have hanswers := hstart.answers (.oneOf pids) hallowed []
    change ((selectPeerOf pids : Selector randMax Peer (Option Peer)) _ []).Holds _ _ _ at hanswers
    rw [selectPeerOf_unknown hmem] at hanswers
    exact hanswers
  · have hview := hview.resolve_left hallocated
    by_contra hfew
    push Not at hfew
    obtain ⟨i, hi⟩ := List.mem_iff_getElem?.1 hmem
    have hlt := (List.getElem?_eq_some_iff.1 hi).1
    obtain ⟨s, results, info, info', hsampling, hlength, hreach, -⟩ := exists_sampling hview
      hsamples (by omega : i ≤ n) ((bucket_natCast i).trans hi) hfew.1 (Nat.le_refl (total + 1))
    -- more distinct peers than `rand` can reach
    have hcount := (List.subperm_of_subset (hsampling.tracks hbuckets hview).distinct
      hreach).length_le
    rw [List.length_take, hlength] at hcount
    have hsize : bucket.elements.length = bucket.size := by simp [RandomAccessSet.elements]
    omega

/-- A helper samples without replacement exactly if there are enough peers. -/
theorem samples_iff (hbuckets : view.Buckets)
    (hview : view.pidPeers = [] ∨ view.pidPeers.length = n + 1) (randMax total : Nat)
    (lists : Set (List Int)) :
    SamplesWithoutReplacement randMax view n total lists ↔ Ample randMax view n total lists :=
  ⟨ample_of_samples hbuckets hview, fun hample =>
    samples_of_ample hbuckets (hview.resolve_left hample.allocated) hample⟩

theorem samples_twoPids :
    SamplesWithoutReplacement 32767 twoBuckets 2 1 {pids | ∀ pid ∈ pids, 0 ≤ pid} :=
  (samples_iff buckets_twoBuckets (.inr (by decide +kernel)) 32767 1 _).2
    { allocated := by decide +kernel
      known := fun pids hallowed hmem => absurd (hallowed.1 errUnknownPID hmem) (by decide)
      enough := by decide +kernel }

/-- Four times the number is zero, and after both peers of the first PID have been selected the loop
does not end. -/
theorem not_samples_wrapped : twoBuckets.Buckets ∧ twoBuckets.pidPeers.length = 3 ∧
    ¬ SamplesWithoutReplacement 32767 twoBuckets 2 (2 ^ 30) {pids | ∀ pid ∈ pids, 0 ≤ pid} := by
  have hlength : twoBuckets.pidPeers.length = 3 := by decide +kernel
  refine ⟨buckets_twoBuckets, hlength, fun hsamples => ?_⟩
  have hample := ample_of_samples buckets_twoBuckets (.inr hlength) hsamples
  have hfirst : ∃ bucket ∈ twoBuckets.pidPeers, ¬ (toUnsigned bucket.size ≤ toUnsigned (4 * 2 ^ 30) ∨
      2 ^ 30 < min bucket.size (32767 + 1)) := by decide +kernel
  obtain ⟨bucket, hmem, hfew⟩ := hfirst
  exact hfew (hample.enough bucket hmem)

end Sampling

end Alto.Selection
