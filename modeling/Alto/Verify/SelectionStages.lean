import Alto.Verify.SelectPeer

/-!
# The stages of a selection

Each stage takes peers out of what is left of some PIDs (`Drew`): those that it appends to `out_peers`,
and the requesting peer where the stage skips it. The stages that fill up the home PID and the other
PIDs stop at their number of peers, or where nothing is left.
-/

namespace Alto.Selection

open Common Lib App Guidance

variable {randMax : Nat} {Peer : Type} [LinearOrder Peer]

/-! ## The helper at the start -/

namespace PIDPeerSelectionHelper

variable {h h' : PIDPeerSelectionHelper Peer} {n i : Nat} {view : PerISPPeerDistribution Peer}

theorem getNumPeers_eq (view : PerISPPeerDistribution Peer) (pid : Int) :
    view.getNumPeers pid = ((view.listPIDPeers pid).map fun peers => (peers.length : Int)).getD (-1) := by
  unfold PerISPPeerDistribution.getNumPeers PerISPPeerDistribution.listPIDPeers
  cases view.bucket pid with
  | none => rfl
  | some b => simp [RandomAccessSet.elements]

theorem nodup_listPIDPeers (hview : view.Buckets) {peers : List Peer}
    (hpeers : view.listPIDPeers i = some peers) : peers.Nodup := by
  obtain ⟨b, hb, rfl⟩ := Option.map_eq_some_iff.1 hpeers
  rw [PerISPPeerDistribution.bucket_natCast] at hb
  exact (hview.indexed i b hb).nodup_elements ptrLess_strictWeakOrder

theorem pidinfo_create {total : Nat} (hi : i < n) :
    (create view n total).pidinfo[i]? = some { numPeers := view.getNumPeers i } := by
  rw [create, List.getElem?_append_left (by simpa using hi), List.getElem?_map,
    List.getElem?_range hi]
  rfl

/-- The helper starts with all peers of the distribution. -/
theorem ready_create (hview : view.Buckets) (n total : Nat) : (create view n total).Ready n where
  length := by simp [create]
  fits i info hi hinfo := by
    rw [pidinfo_create hi] at hinfo
    cases hinfo
    exact ⟨getNumPeers_eq view i, fun _ => ⟨rfl, rfl⟩, fun _ => rfl, nofun, fun _ _ => .refl _⟩
  nodup _ _ hpeers := nodup_listPIDPeers hview hpeers

theorem left_create {total : Nat} (hi : i < n) :
    (create view n total).left i = (view.listPIDPeers i).getD [] := by
  rw [left, pidinfo_create hi]
  cases hpeers : view.listPIDPeers i with
  | none => rw [create, hpeers]; rfl
  | some peers => rw [create, hpeers]; rfl

/-- The peers that are left of some PIDs. -/
def pool (h : PIDPeerSelectionHelper Peer) (is : List Nat) : List Peer := is.flatMap h.left

/-- A peer that is taken from one of some PIDs is taken from all of them together. -/
theorem Selects.pool_perm {peer : Peer} (hsel : h.Selects n i (some peer) h') {is : List Nat}
    (hi : i ∈ is) (hnodup : is.Nodup) : (peer :: h'.pool is).Perm (h.pool is) := by
  induction is with
  | nil => cases hi
  | cons j is ih =>
    obtain ⟨hj, hnodup⟩ := List.nodup_cons.1 hnodup
    rw [pool, pool, List.flatMap_cons, List.flatMap_cons]
    by_cases hij : i = j
    · subst hij
      have hrest : is.flatMap h'.left = is.flatMap h.left := by
        apply List.flatMap_congr
        intro k hk
        exact hsel.others k fun hki => hj (hki ▸ hk)
      rw [hrest, ← List.cons_append]
      exact (hsel.taken peer rfl).append_right _
    · rw [hsel.others j (Ne.symm hij)]
      refine List.perm_middle.symm.trans (List.Perm.append_left _ ?_)
      exact ih ((List.mem_cons.1 hi).resolve_left hij) hnodup

theorem pool_congr {is : List Nat} (hleft : h'.left = h.left) : h'.pool is = h.pool is := by
  rw [pool, pool, hleft]

end PIDPeerSelectionHelper

/-! ## What a stage takes -/

namespace Selector

variable {n : Nat} {is : List Nat} {s s' s'' : Selecting Peer} {out skipped : List Peer}

/-- A stage has drawn from some PIDs: it has appended `out`, and drawn and dropped `skipped`. -/
structure Drew (n : Nat) (is : List Nat) (s : Selecting Peer) (out skipped : List Peer)
    (s' : Selecting Peer) : Prop where
  outPeers : s'.outPeers = s.outPeers ++ out
  peersLocks : s'.peersLocks = s.peersLocks
  viewsLocks : s'.viewsLocks = s.viewsLocks
  quotas : s'.quotas = s.quotas
  ready : s'.helper.Ready n
  ispPeers : s'.helper.ispPeers = s.helper.ispPeers
  totalPeers : s'.helper.totalPeers = s.helper.totalPeers
  others : ∀ j, j ∉ is → s'.helper.left j = s.helper.left j
  perm : (out ++ (skipped ++ s'.helper.pool is)).Perm (s.helper.pool is)

theorem Drew.refl (hr : s.helper.Ready n) : Drew n is s [] [] s where
  outPeers := (List.append_nil _).symm
  peersLocks := rfl
  viewsLocks := rfl
  quotas := rfl
  ready := hr
  ispPeers := rfl
  totalPeers := rfl
  others _ _ := rfl
  perm := .refl _

/-- Waiting draws nothing. -/
theorem Drew.wait (hd : Drew n is s out skipped s') (hw : Waits n s' s'') :
    Drew n is s out skipped s'' where
  outPeers := by
    rw [hw.frame]
    exact hd.outPeers
  peersLocks := by
    rw [hw.frame]
    exact hd.peersLocks
  viewsLocks := by
    rw [hw.frame]
    exact hd.viewsLocks
  quotas := by
    rw [hw.frame]
    exact hd.quotas
  ready := hw.ready
  ispPeers := hw.ispPeers.trans hd.ispPeers
  totalPeers := hw.totalPeers.trans hd.totalPeers
  others j hj := (congrFun hw.left j).trans (hd.others j hj)
  perm := by
    rw [PIDPeerSelectionHelper.pool_congr hw.left]
    exact hd.perm

/-- A call that finds nothing draws nothing. -/
theorem Selected.waits {i : Nat} (hsel : Selected n i s none s') : Waits n s s' := by
  refine ⟨hsel.1, hsel.2.ready, hsel.2.length, hsel.2.ispPeers, hsel.2.totalPeers, ?_⟩
  funext j
  by_cases hj : j = i
  · rw [hj, (hsel.2.empty rfl).1, (hsel.2.empty rfl).2]
  · exact hsel.2.others j hj

/-- A peer that has been drawn and is appended. -/
theorem Drew.push {i : Nat} {peer : Peer} (hd : Drew n is s out skipped s')
    (hsel : Selected n i s' (some peer) s'') (hi : i ∈ is) (hnodup : is.Nodup) :
    Drew n is s (out ++ [peer]) skipped { s'' with outPeers := s''.outPeers ++ [peer] } where
  outPeers := by
    rw [hsel.1]
    change s'.outPeers ++ [peer] = _
    rw [hd.outPeers, List.append_assoc]
  peersLocks := by
    rw [hsel.1]
    exact hd.peersLocks
  viewsLocks := by
    rw [hsel.1]
    exact hd.viewsLocks
  quotas := by
    rw [hsel.1]
    exact hd.quotas
  ready := hsel.2.ready
  ispPeers := hsel.2.ispPeers.trans hd.ispPeers
  totalPeers := hsel.2.totalPeers.trans hd.totalPeers
  others j hj := (hsel.2.others j fun hji => hj (hji ▸ hi)).trans (hd.others j hj)
  perm := by
    refine List.Perm.trans ?_ hd.perm
    rw [List.append_assoc]
    refine List.Perm.append_left out ?_
    have hmid : (peer :: (skipped ++ s''.helper.pool is)).Perm
        (skipped ++ peer :: s''.helper.pool is) := List.perm_middle.symm
    refine hmid.trans (List.Perm.append_left skipped ?_)
    exact hsel.2.pool_perm hi hnodup

/-- A peer that has been drawn and is dropped. -/
theorem Drew.skip {i : Nat} {peer : Peer} (hd : Drew n is s out skipped s')
    (hsel : Selected n i s' (some peer) s'') (hi : i ∈ is) (hnodup : is.Nodup) :
    Drew n is s out (skipped ++ [peer]) s'' where
  outPeers := by
    rw [hsel.1]
    exact hd.outPeers
  peersLocks := by
    rw [hsel.1]
    exact hd.peersLocks
  viewsLocks := by
    rw [hsel.1]
    exact hd.viewsLocks
  quotas := by
    rw [hsel.1]
    exact hd.quotas
  ready := hsel.2.ready
  ispPeers := hsel.2.ispPeers.trans hd.ispPeers
  totalPeers := hsel.2.totalPeers.trans hd.totalPeers
  others j hj := (hsel.2.others j fun hji => hj (hji ▸ hi)).trans (hd.others j hj)
  perm := by
    refine List.Perm.trans ?_ hd.perm
    refine List.Perm.append_left out ?_
    rw [List.append_assoc]
    refine List.Perm.append_left skipped ?_
    exact hsel.2.pool_perm hi hnodup

/-- What has been drawn from some PIDs has been drawn from any that contain them. -/
theorem Drew.widen {js : List Nat} (hd : Drew n is s out skipped s') (hsub : is ⊆ js)
    (his : is.Nodup) (hjs : js.Nodup) : Drew n js s out skipped s' where
  outPeers := hd.outPeers
  peersLocks := hd.peersLocks
  viewsLocks := hd.viewsLocks
  quotas := hd.quotas
  ready := hd.ready
  ispPeers := hd.ispPeers
  totalPeers := hd.totalPeers
  others j hj := hd.others j fun hmem => hj (hsub hmem)
  perm := by
    have hsplit : js.Perm (is ++ js.filter fun j => j ∉ is) := by
      have hin : (js.filter fun j => j ∈ is).Perm is := by
        refine (List.perm_ext_iff_of_nodup (hjs.filter _) his).2 fun j => ?_
        rw [List.mem_filter]
        exact ⟨fun h => by simpa using h.2, fun h => ⟨hsub h, by simpa using h⟩⟩
      have happend := List.filter_append_perm (fun j => decide (j ∈ is)) js
      refine happend.symm.trans (hin.append ?_)
      simp
    have hpool : ∀ h : PIDPeerSelectionHelper Peer,
        (h.pool js).Perm (h.pool is ++ h.pool (js.filter fun j => j ∉ is)) := by
      intro h
      unfold PIDPeerSelectionHelper.pool
      rw [← List.flatMap_append]
      exact hsplit.flatMap_right _
    have hrest : s'.helper.pool (js.filter fun j => j ∉ is) =
        s.helper.pool (js.filter fun j => j ∉ is) := by
      refine List.flatMap_congr fun j hj => hd.others j ?_
      simpa using (List.mem_filter.1 hj).2
    refine (List.Perm.append_left out (List.Perm.append_left skipped (hpool s'.helper))).trans ?_
    refine List.Perm.trans ?_ (hpool s.helper).symm
    rw [hrest, ← List.append_assoc, ← List.append_assoc, List.append_assoc out]
    exact hd.perm.append_right _

/-- One stage after the other. -/
theorem Drew.trans {out' skipped' : List Peer} (hd : Drew n is s out skipped s')
    (hd' : Drew n is s' out' skipped' s'') :
    Drew n is s (out ++ out') (skipped ++ skipped') s'' where
  outPeers := by rw [hd'.outPeers, hd.outPeers, List.append_assoc]
  peersLocks := hd'.peersLocks.trans hd.peersLocks
  viewsLocks := hd'.viewsLocks.trans hd.viewsLocks
  quotas := hd'.quotas.trans hd.quotas
  ready := hd'.ready
  ispPeers := hd'.ispPeers.trans hd.ispPeers
  totalPeers := hd'.totalPeers.trans hd.totalPeers
  others j hj := (hd'.others j hj).trans (hd.others j hj)
  perm := by
    refine List.Perm.trans ?_ hd.perm
    rw [List.append_assoc out, List.append_assoc skipped]
    refine List.Perm.append_left out ?_
    calc (out' ++ (skipped ++ (skipped' ++ s''.helper.pool is))).Perm
          (skipped ++ (out' ++ (skipped' ++ s''.helper.pool is))) := by
            rw [← List.append_assoc out', ← List.append_assoc skipped out']
            exact List.perm_append_comm.append_right _
      _ |>.Perm (skipped ++ s'.helper.pool is) := hd'.perm.append_left skipped

/-! ## Peers of the home PID -/

/-- The stage for the home PID has appended up to `number` peers, and has stopped there or where nothing
was left. It has drawn the requesting peer or not. -/
structure DrewHome (n : Nat) (peer : Peer) (home number : Nat) (s : Selecting Peer)
    (out : List Peer) (s' : Selecting Peer) : Prop where
  drew : ∃ k, Drew n [home] s out (List.replicate k peer) s'
  self : peer ∉ out
  le : out.length ≤ number

/-- The peers of the home PID that can be appended. -/
def homeSize (peer : Peer) (number : Nat) (h : PIDPeerSelectionHelper Peer) (home : Nat) : Nat :=
  min number ((h.left home).filter fun p => p ≠ peer).length

theorem DrewHome.length_add {peer : Peer} {home number : Nat}
    (h : DrewHome n peer home number s out s') :
    out.length + ((s'.helper.left home).filter fun p => p ≠ peer).length =
      ((s.helper.left home).filter fun p => p ≠ peer).length := by
  obtain ⟨k, hdrew⟩ := h.drew
  have hperm := (hdrew.perm.filter fun p => p ≠ peer).length_eq
  have hout : (out.filter fun p => p ≠ peer) = out := by
    refine List.filter_eq_self.2 fun p hp => ?_
    exact decide_eq_true fun hpeer : p = peer => h.self (hpeer ▸ hp)
  have hskipped : ((List.replicate k peer).filter fun p => p ≠ peer) = [] := by
    refine List.filter_eq_nil_iff.2 fun p hp => ?_
    rw [List.eq_of_mem_replicate hp]
    simp
  rw [List.filter_append, List.filter_append, hout, hskipped, List.nil_append, List.length_append,
    PIDPeerSelectionHelper.pool, PIDPeerSelectionHelper.pool, List.flatMap_singleton,
    List.flatMap_singleton] at hperm
  exact hperm

theorem DrewHome.length_le {peer : Peer} {home number : Nat}
    (h : DrewHome n peer home number s out s') :
    out.length ≤ homeSize peer number s.helper home := by
  have hadd := h.length_add
  have hle := h.le
  unfold homeSize
  omega

/-- The stage for the home PID appends as many peers as it is to, or all there are. -/
theorem DrewHome.length_eq {peer : Peer} {home number : Nat}
    (h : DrewHome n peer home number s out s')
    (hend : out.length = number ∨ s'.helper.left home = []) :
    out.length = homeSize peer number s.helper home := by
  have hadd := h.length_add
  have hle := h.le
  unfold homeSize
  rcases hend with hend | hend
  · omega
  · rw [hend, List.filter_nil, List.length_nil] at hadd
    omega

section Home

variable {peer candPeer : Peer} {home number : Nat}

theorem DrewHome.refl (hr : s.helper.Ready n) : DrewHome n peer home number s [] s :=
  ⟨⟨0, .refl hr⟩, List.not_mem_nil, Nat.zero_le _⟩

theorem DrewHome.ready (h : DrewHome n peer home number s out s') : s'.helper.Ready n := by
  obtain ⟨k, hdrew⟩ := h.drew
  exact hdrew.ready

theorem DrewHome.ispPeers (h : DrewHome n peer home number s out s') :
    s'.helper.ispPeers = s.helper.ispPeers := by
  obtain ⟨k, hdrew⟩ := h.drew
  exact hdrew.ispPeers

theorem DrewHome.totalPeers (h : DrewHome n peer home number s out s') :
    s'.helper.totalPeers = s.helper.totalPeers := by
  obtain ⟨k, hdrew⟩ := h.drew
  exact hdrew.totalPeers

theorem DrewHome.wait (h : DrewHome n peer home number s out s') (hw : Waits n s' s'') :
    DrewHome n peer home number s out s'' := by
  obtain ⟨⟨k, hdrew⟩, hself, hle⟩ := h
  exact ⟨⟨k, hdrew.wait hw⟩, hself, hle⟩

/-- Another peer is appended. -/
theorem DrewHome.push (h : DrewHome n peer home number s out s') (hlt : out.length < number)
    (hsel : Selected n home s' (some candPeer) s'') (hcand : candPeer ≠ peer) :
    DrewHome n peer home number s (out ++ [candPeer])
      { s'' with outPeers := s''.outPeers ++ [candPeer] } := by
  obtain ⟨⟨k, hdrew⟩, hself, hle⟩ := h
  refine ⟨⟨k, hdrew.push hsel List.mem_cons_self (List.nodup_singleton home)⟩, ?_, ?_⟩
  · rw [List.mem_append, List.mem_singleton, not_or]
    exact ⟨hself, Ne.symm hcand⟩
  · rw [List.length_append, List.length_singleton]
    exact hlt

/-- The requesting peer is dropped. -/
theorem DrewHome.skip (h : DrewHome n peer home number s out s')
    (hsel : Selected n home s' (some peer) s'') : DrewHome n peer home number s out s'' := by
  obtain ⟨⟨k, hdrew⟩, hself, hle⟩ := h
  refine ⟨⟨k + 1, ?_⟩, hself, hle⟩
  rw [List.replicate_succ']
  exact hdrew.skip hsel List.mem_cons_self (List.nodup_singleton home)

end Home

theorem selectHome_spec (hr : s.helper.Ready n) {home : Nat} (hhome : home < n) (peer : Peer)
    (number : Nat) (rs : List (Fin (randMax + 1))) :
    (selectHome peer home number s rs).Holds
      (fun _ s' => ∃ out, DrewHome n peer home number s out s' ∧
        (out.length = number ∨ s'.helper.left home = []))
      (fun _ => False) (fun s' => ∃ out, DrewHome n peer home number s out s') := by
  refine Draws.triple_loop (J := fun l t => ∃ out, DrewHome n peer home number s out t ∧
    out.length = l) ?_ (fun l t ⟨out, h, _⟩ => ⟨out, h⟩) 0 s rs ⟨[], .refl hr, rfl⟩
  rintro l t rs ⟨out, hd, rfl⟩
  unfold homeRound
  split
  · next hlt =>
    refine Draws.holds_bind ((selectPeer_spec hd.ready hhome rs).imp (fun _ _ => id) (fun _ => id)
      fun t' hw => ⟨out, hd.wait hw⟩) ?_
    intro result t' rest hsel
    cases result with
    | none => exact ⟨out, hd.wait hsel.waits, .inr (hsel.2.empty rfl).2⟩
    | some candPeer =>
      dsimp only
      split
      · next hcand =>
        subst hcand
        exact ⟨out, hd.skip hsel, rfl⟩
      · next hcand =>
        refine ⟨out ++ [candPeer], hd.push hlt hsel hcand, ?_⟩
        rw [List.length_append, List.length_singleton]
  · next hge =>
    have hle := hd.le
    exact ⟨out, hd, .inl (by omega)⟩

/-! ## Peers of some PIDs -/

/-- A peer that is taken counts in the sum. -/
theorem Selected.stock {i : Nat} {peer : Peer} (hsel : Selected n i s (some peer) s') (hi : i ∈ is)
    (hnodup : is.Nodup) : stock s'.helper is + 1 = stock s.helper is := by
  have hlen := (hsel.2.taken peer rfl).length_eq
  rw [List.length_cons] at hlen
  have hvalid : s.helper.ispPeers.listPIDPeers i ≠ none := by
    intro hnone
    have hnil : s.helper.left i = [] := by
      rw [PIDPeerSelectionHelper.left, hnone]
      cases s.helper.pidinfo[i]? <;> rfl
    rw [hnil, List.length_nil] at hlen
    omega
  unfold Selector.stock
  rw [hsel.2.ispPeers]
  induction is with
  | nil => cases hi
  | cons j is ih =>
    obtain ⟨hj, hnodup⟩ := List.nodup_cons.1 hnodup
    rw [List.map_cons, List.sum_cons, List.map_cons, List.sum_cons]
    by_cases hij : i = j
    · subst hij
      have hrest : is.map (fun k : Nat => if s.helper.ispPeers.listPIDPeers k = none then -1
            else ((s'.helper.left k).length : Int)) =
          is.map fun k : Nat => if s.helper.ispPeers.listPIDPeers k = none then -1
            else ((s.helper.left k).length : Int) := by
        refine List.map_congr_left fun k hk => ?_
        rw [hsel.2.others k fun hki => hj (hki ▸ hk)]
      rw [hrest, if_neg hvalid, if_neg hvalid]
      omega
    · rw [hsel.2.others j (Ne.symm hij)]
      have := ih ((List.mem_cons.1 hi).resolve_left hij) hnodup
      omega

/-- The stage appends as many peers as it is to, or as the sum of the PIDs says. -/
theorem selectFrom_spec (hr : s.helper.Ready n) (his : ∀ i ∈ is, i < n) (hnodup : is.Nodup)
    (number : Nat) (rs : List (Fin (randMax + 1))) :
    (selectFrom (pidList is) number s rs).Holds
      (fun _ s' => ∃ out, Drew n is s out [] s' ∧
        out.length = min number (stock s.helper is).toNat)
      (fun _ => False)
      (fun s' => ∃ out, Drew n is s out [] s' ∧
        out.length ≤ min number (stock s.helper is).toNat) := by
  refine Draws.triple_loop (J := fun l t => ∃ out, (Drew n is s out [] t ∧
    out.length ≤ min number (stock s.helper is).toNat) ∧
    stock t.helper is + out.length = stock s.helper is ∧ out.length = l) ?_
    (fun l t ⟨out, h, _⟩ => ⟨out, h⟩) 0 s rs ⟨[], ⟨.refl hr, Nat.zero_le _⟩, by simp, rfl⟩
  rintro l t rs ⟨out, ⟨hdrew, hle⟩, hstock, rfl⟩
  unfold fromRound
  split
  · next hlt =>
    refine Draws.holds_bind ((selectPeerOf_spec hdrew.ready his rs).imp (fun _ _ => id) (fun _ => id)
      fun t' hw => ⟨out, hdrew.wait hw, hle⟩) ?_
    intro result t' rest hsel
    cases result with
    | none =>
      obtain ⟨rfl, hnone⟩ := hsel.empty rfl
      exact ⟨out, hdrew, by omega⟩
    | some candPeer =>
      obtain ⟨hsome, i, hi, hsel⟩ := hsel.taken candPeer rfl
      have hstock' := hsel.stock hi hnodup
      refine ⟨out ++ [candPeer], ⟨hdrew.push hsel hi hnodup, ?_⟩, ?_, ?_⟩
      · rw [List.length_append, List.length_singleton]
        omega
      · change stock t'.helper is + _ = _
        rw [List.length_append, List.length_singleton]
        push_cast
        omega
      · rw [List.length_append, List.length_singleton]
  · next hge => exact ⟨out, hdrew, by omega⟩

end Selector

end Alto.Selection
