import Alto.Verify.SelectionBounds

/-!
# Selected peers are distinct

The stages of a selection draw from one helper, so that no peer is selected twice. Only the stage for the
home PID leaves the requesting peer out. The last stage draws from all PIDs, and can select it if the first
one has stopped before the home PID was empty.
-/

namespace Alto.Selection

open Common Lib App Guidance

variable {randMax : Nat} {Peer ISP Mgr : Type} [LinearOrder Peer] [LinearOrder ISP]

/-! ## What is selected -/

/-- The peers that have been appended are distinct, and all of them are stored. -/
def Distinct (stored : Peer → Prop) (s t : Selecting Peer) : Prop :=
  ∃ out, t.outPeers = s.outPeers ++ out ∧ out.Nodup ∧ ∀ p ∈ out, stored p

/-- The peer has not been appended. -/
def Without (peer : Peer) (s t : Selecting Peer) : Prop :=
  ∃ out, t.outPeers = s.outPeers ++ out ∧ peer ∉ out

/-- Wherever a selection ends this holds of it. -/
def Throughout (selection : Selector randMax Peer Int) (s : Selecting Peer)
    (P : Selecting Peer → Prop) : Prop :=
  ∀ rs, (selection s rs).Holds (fun _ t => P t) P P

theorem throughout_of_eq {selection : Selector randMax Peer Int} {s t : Selecting Peer}
    {P : Selecting Peer → Prop} (value : Int) (h : ∀ rs, selection s rs = .returned value t rs)
    (hP : P t) : Throughout selection s P := by
  intro rs
  rw [h]
  exact hP

theorem Throughout.imp {selection : Selector randMax Peer Int} {s : Selecting Peer}
    {P Q : Selecting Peer → Prop} (h : Throughout selection s P) (hPQ : ∀ t, P t → Q t) :
    Throughout selection s Q :=
  fun rs => (h rs).imp (fun _ => hPQ) hPQ hPQ

theorem Distinct.of_eq {stored : Peer → Prop} {s t : Selecting Peer} (h : t.outPeers = s.outPeers) :
    Distinct stored s t :=
  ⟨[], by rw [h, List.append_nil], List.nodup_nil, nofun⟩

theorem Distinct.mono {stored stored' : Peer → Prop} {s t : Selecting Peer}
    (h : ∀ p, stored p → stored' p) : Distinct stored s t → Distinct stored' s t :=
  fun ⟨out, hout, hnodup, hmem⟩ => ⟨out, hout, hnodup, fun p hp => h p (hmem p hp)⟩

theorem Without.of_eq {peer : Peer} {s t : Selecting Peer} (h : t.outPeers = s.outPeers) :
    Without peer s t :=
  ⟨[], by rw [h, List.append_nil], List.not_mem_nil⟩

theorem Without.not_mem {peer : Peer} {s t : Selecting Peer} (h : Without peer s t)
    (hs : s.outPeers = []) : peer ∉ t.outPeers := by
  obtain ⟨out, hout, hnot⟩ := h
  rwa [hout, hs, List.nil_append]

namespace Selector

variable {n : Nat} {is : List Nat} {s t : Selecting Peer} {out skipped : List Peer}

/-- What is drawn from PIDs without duplicates is distinct. -/
theorem Drew.nodup (hd : Drew n is s out skipped t) (hpool : (s.helper.pool is).Nodup) : out.Nodup :=
  (List.nodup_append.1 (hd.perm.nodup_iff.2 hpool)).1

namespace Plan

variable {plan : Plan Peer}

theorem start_left_of_lt (plan : Plan Peer) (s : Selecting Peer) {i : Nat} (hi : i < plan.numPids) :
    (plan.start s).helper.left i = (plan.view.listPIDPeers i).getD [] :=
  PIDPeerSelectionHelper.left_create hi

/-- A peer is listed for one PID. -/
theorem eq_of_mem_left (hp : plan.Proper) {i j : Nat} {p : Peer}
    (hi : p ∈ (plan.view.listPIDPeers i).getD []) (hj : p ∈ (plan.view.listPIDPeers j).getD []) :
    i = j := by
  obtain ⟨pid, hpid, rfl⟩ := hp.buckets.stored hi
  obtain ⟨pid', hpid', rfl⟩ := hp.buckets.stored hj
  rw [Option.some.inj (hpid.symm.trans hpid')]

/-- The peers of some PIDs are distinct. -/
theorem nodup_pool (hp : plan.Proper) (s : Selecting Peer) (hvalid : ∀ i ∈ is, i < plan.numPids)
    (hnodup : is.Nodup) : ((plan.start s).helper.pool is).Nodup := by
  unfold PIDPeerSelectionHelper.pool
  refine List.nodup_flatMap.2 ⟨fun i hi => ?_, hnodup.imp_of_mem fun {i j} hi hj hij p hpi hpj => ?_⟩
  · rw [plan.start_left_of_lt s (hvalid i hi)]
    cases hpeers : plan.view.listPIDPeers i with
    | none => exact List.nodup_nil
    | some peers => exact PIDPeerSelectionHelper.nodup_listPIDPeers hp.buckets hpeers
  · rw [plan.start_left_of_lt s (hvalid i hi)] at hpi
    rw [plan.start_left_of_lt s (hvalid j hj)] at hpj
    exact hij (eq_of_mem_left hp hpi hpj)

/-- The peers of some PIDs are stored in the distribution. -/
theorem stored_of_mem_pool (hp : plan.Proper) (s : Selecting Peer)
    (hvalid : ∀ i ∈ is, i < plan.numPids) {p : Peer} (hmem : p ∈ (plan.start s).helper.pool is) :
    p ∈ plan.view.peerToPid := by
  obtain ⟨i, hi, hpi⟩ := List.mem_flatMap.1 hmem
  rw [plan.start_left_of_lt s (hvalid i hi)] at hpi
  obtain ⟨pid, hpid, -⟩ := hp.buckets.stored hpi
  exact StdMap.mem_iff_get.2 ⟨pid, hpid⟩

/-- What a stage has drawn since the start is distinct. -/
theorem distinct_of_drew (hp : plan.Proper) {s₀ t₀ : Selecting Peer}
    (hd : Drew plan.numPids is s₀ out skipped t₀) (hstart : s₀.helper = (plan.start s).helper)
    (hout : s₀.outPeers = s.outPeers) (ht : t₀.outPeers = t.outPeers)
    (hvalid : ∀ i ∈ is, i < plan.numPids) (hnodup : is.Nodup) :
    Distinct (· ∈ plan.view.peerToPid) s t := by
  refine ⟨out, ?_, ?_, fun p hmem => ?_⟩
  · rw [← ht, hd.outPeers, hout]
  · exact hd.nodup (hstart ▸ nodup_pool hp s hvalid hnodup)
  · exact stored_of_mem_pool hp s hvalid (hstart ▸ hd.subset hmem)

theorem InHome.distinct (hp : plan.Proper) (h : plan.InHome s t) :
    Distinct (· ∈ plan.view.peerToPid) s t := by
  obtain ⟨out, hd⟩ := h
  obtain ⟨k, hdrew⟩ := hd.drew
  exact distinct_of_drew hp hdrew rfl rfl rfl (fun i hi => List.mem_singleton.1 hi ▸ hp.home_lt)
    (List.nodup_singleton _)

theorem Appended.distinct (hp : plan.Proper) {js : List Nat} {intra ext : List Peer}
    {quotas : List (ℚ × Nat)} (h : plan.Appended s t js intra ext quotas)
    (hsub : (plan.home :: js).Sublist (plan.home :: (plan.intra ++ plan.ext))) :
    Distinct (· ∈ plan.view.peerToPid) s t := by
  obtain ⟨⟨first, hc⟩, -⟩ := h
  obtain ⟨k, hdrew⟩ := hc.drew
  exact distinct_of_drew hp hdrew rfl rfl rfl (fun i hi => hp.valid i (hsub.subset hi))
    (hp.nodup.sublist hsub)

/-- What has been drawn up to the last stage. -/
theorem InRandom.drew (hp : plan.Proper) (h : plan.InRandom s t) : ∃ out k,
    Drew plan.numPids (List.range plan.numPids) { plan.start s with quotas := [] } out
      (List.replicate k plan.peer) { t with quotas := [] } := by
  obtain ⟨u, out, ⟨intra, ext, ⟨⟨first, hc⟩, -⟩, -⟩, hrandom, -⟩ := h
  obtain ⟨k, hdrew⟩ := hc.drew
  have hsub : plan.home :: (plan.intra ++ plan.ext) ⊆ List.range plan.numPids :=
    fun i hi => List.mem_range.2 (hp.valid i hi)
  have htrans := ((hdrew.widen hsub hp.nodup List.nodup_range).requote []).trans
    (hrandom.requote [])
  rw [List.append_nil] at htrans
  exact ⟨_, k, htrans⟩

theorem InRandom.distinct (hp : plan.Proper) (h : plan.InRandom s t) :
    Distinct (· ∈ plan.view.peerToPid) s t := by
  obtain ⟨out, k, hdrew⟩ := h.drew hp
  exact distinct_of_drew hp hdrew rfl rfl rfl (fun _ => List.mem_range.1) List.nodup_range

/-- A run that follows its plan selects distinct peers. -/
theorem Follows.distinct (hp : plan.Proper)
    {run : Drawn (Fin (randMax + 1)) (Selecting Peer) Int} (h : plan.Follows s run) :
    run.Holds (fun _ t => Distinct (· ∈ plan.view.peerToPid) s t)
      (Distinct (· ∈ plan.view.peerToPid) s) (Distinct (· ∈ plan.view.peerToPid) s) := by
  have hintra : ∀ t, plan.InIntra s t → Distinct (· ∈ plan.view.peerToPid) s t := by
    rintro t ⟨intra, happended, -⟩
    exact happended.distinct hp (List.Sublist.cons_cons _ (List.sublist_append_left _ _))
  have hext : ∀ t, plan.InExt s t → Distinct (· ∈ plan.view.peerToPid) s t := by
    rintro t ⟨intra, ext, happended, -⟩
    exact happended.distinct hp (List.Sublist.refl _)
  refine h.imp ?_ ?_ ?_
  · rintro _ t ⟨-, u, hu, rfl⟩
    have hdistinct := InRandom.distinct hp hu
    exact hdistinct
  · rintro t (⟨h, -⟩ | ⟨h, -⟩)
    · exact hintra t h
    · exact hext t h
  · rintro t (h | h | h | h)
    · exact h.distinct hp
    · exact hintra t h
    · exact hext t h
    · exact h.distinct hp

/-! ## The requesting peer -/

/-- Where the requesting peer is stored for a PID, the stages from it select nothing; or this is the home
PID, and its stage takes all its peers. -/
def KeepsSelf (plan : Plan Peer) : Prop :=
  ∀ i < plan.numPids, plan.peer ∈ (plan.view.listPIDPeers i).getD [] →
    plan.numRandom = 0 ∧ (i ∈ plan.intra → plan.numIntra = 0) ∧ (i ∈ plan.ext → plan.numExt = 0) ∨
    i = plan.home ∧ plan.homePeers.length ≤ plan.number

/-- What is left of a PID is stored for it. -/
theorem left_subset {h : PIDPeerSelectionHelper Peer} {i : Nat} (hr : h.Ready n) (hi : i < n) :
    h.left i ⊆ (h.ispPeers.listPIDPeers i).getD [] := by
  obtain ⟨info, hinfo, hfits⟩ := hr.exists_info hi
  unfold PIDPeerSelectionHelper.left
  rw [hinfo]
  cases hpeers : h.ispPeers.listPIDPeers i with
  | none => exact List.nil_subset _
  | some peers => exact (hfits.among peers hpeers).subset

/-- The first three stages do not append the requesting peer. -/
theorem Appended.without (hp : plan.Proper) (hkeeps : plan.KeepsSelf) {js : List Nat}
    {intra ext : List Peer} {quotas : List (ℚ × Nat)} (h : plan.Appended s t js intra ext quotas)
    (hintra : intra.length ≤ plan.numIntra) (hext : ext.length ≤ plan.numExt) :
    Without plan.peer s t := by
  obtain ⟨⟨first, hc⟩, -, hintraMem, hextMem⟩ := h
  obtain ⟨k, hdrew⟩ := hc.drew
  have hfound : ∀ is, (∀ i ∈ is, i < plan.numPids) → plan.peer ∈ (plan.start s).helper.pool is →
      ∃ i ∈ is, i < plan.numPids ∧ plan.peer ∈ (plan.view.listPIDPeers i).getD [] := by
    intro is hvalid hmem
    obtain ⟨i, hi, hpi⟩ := List.mem_flatMap.1 hmem
    rw [plan.start_left_of_lt s (hvalid i hi)] at hpi
    exact ⟨i, hi, hvalid i hi, hpi⟩
  refine ⟨first ++ (intra ++ ext), hdrew.outPeers, fun hmem => ?_⟩
  rcases List.mem_append.1 hmem with hmem | hmem
  · exact hc.self hmem
  rcases List.mem_append.1 hmem with hmem | hmem
  · obtain ⟨i, hi, hlt, hpi⟩ := hfound plan.intra (fun _ => hp.intra_lt) (hintraMem hmem)
    rcases hkeeps i hlt hpi with ⟨-, hzero, -⟩ | ⟨rfl, -⟩
    · have hpos := List.length_pos_of_mem hmem
      have hnum := hzero hi
      omega
    · exact hp.home_not_mem_intra hi
  · obtain ⟨i, hi, hlt, hpi⟩ := hfound plan.ext (fun _ => hp.ext_lt) (hextMem hmem)
    rcases hkeeps i hlt hpi with ⟨-, -, hzero⟩ | ⟨rfl, -⟩
    · have hpos := List.length_pos_of_mem hmem
      have hnum := hzero hi
      omega
    · exact hp.home_not_mem_ext hi

/-- The home PID has run dry if it was to give all its peers. -/
theorem Appended.left_home_nil (hp : plan.Proper) {js : List Nat}
    {intra ext : List Peer} {quotas : List (ℚ × Nat)} (h : plan.Appended s t js intra ext quotas)
    (hmem : plan.peer ∈ plan.homePeers) (hle : plan.homePeers.length ≤ plan.number) :
    t.helper.left plan.home = [] := by
  obtain ⟨⟨first, hc⟩, -⟩ := h
  refine hc.dry.resolve_left fun hfull => ?_
  have hsize : first.length ≤ (plan.homePeers.filter fun p => p ≠ plan.peer).length := by
    rw [hc.size, homeSize, start_left hp s]
    exact Nat.min_le_right _ _
  have hlen := length_filter_homePeers hp hmem
  omega

theorem InRandom.without (hp : plan.Proper) (hkeeps : plan.KeepsSelf) (h : plan.InRandom s t) :
    Without plan.peer s t := by
  obtain ⟨u, out, ⟨intra, ext, happended, hintra, -, hext, -⟩, hrandom, hlen⟩ := h
  obtain ⟨before, hbefore, hself⟩ := happended.without hp hkeeps hintra.le hext.le
  have hafter : t.outPeers = u.outPeers ++ out := hrandom.outPeers
  refine ⟨before ++ out, by rw [hafter, hbefore, List.append_assoc], fun hmem => ?_⟩
  rcases List.mem_append.1 hmem with hmem | hmem
  · exact hself hmem
  obtain ⟨i, hi, hleft⟩ := List.mem_flatMap.1 (hrandom.subset hmem)
  have hlt := List.mem_range.1 hi
  have hstored : plan.peer ∈ (plan.view.listPIDPeers i).getD [] := by
    rw [← happended.ispPeers]
    exact left_subset happended.ready hlt hleft
  rcases hkeeps i hlt hstored with ⟨hzero, -⟩ | ⟨rfl, hle⟩
  · have hpos := List.length_pos_of_mem hmem
    omega
  · change plan.peer ∈ u.helper.left plan.home at hleft
    rw [happended.left_home_nil hp hstored hle] at hleft
    cases hleft

/-- A run that follows its plan leaves the requesting peer out if the plan does. -/
theorem Follows.without (hp : plan.Proper) (hkeeps : plan.KeepsSelf)
    {run : Drawn (Fin (randMax + 1)) (Selecting Peer) Int} (h : plan.Follows s run) :
    run.Holds (fun _ t => Without plan.peer s t) (Without plan.peer s) (Without plan.peer s) := by
  have hintra : ∀ t, plan.InIntra s t → Without plan.peer s t := by
    rintro t ⟨intra, happended, hlen⟩
    exact happended.without hp hkeeps (hlen.trans (Nat.min_le_left _ _)) (Nat.zero_le _)
  have hext : ∀ t, plan.InExt s t → Without plan.peer s t := by
    rintro t ⟨intra, ext, happended, hlen, -, hlen'⟩
    exact happended.without hp hkeeps hlen.le (hlen'.trans (Nat.min_le_left _ _))
  refine h.imp ?_ ?_ ?_
  · rintro _ t ⟨-, u, hu, rfl⟩
    have hwithout := InRandom.without hp hkeeps hu
    exact hwithout
  · rintro t (⟨h, -⟩ | ⟨h, -⟩)
    · exact hintra t h
    · exact hext t h
  · rintro t (h | h | h | h)
    · obtain ⟨out, hd⟩ := h
      obtain ⟨k, hdrew⟩ := hd.drew
      exact ⟨out, hdrew.outPeers, hd.self⟩
    · exact hintra t h
    · exact hext t h
    · exact h.without hp hkeeps

/-- A requesting peer that is stored for the home PID is left out if the first stage takes all peers of
this PID, or if there is nothing to do in the last one. -/
theorem keepsSelf_iff (hp : plan.Proper) (hmem : plan.peer ∈ plan.homePeers) :
    plan.KeepsSelf ↔ plan.numRandom = 0 ∨ plan.homePeers.length ≤ plan.number := by
  constructor
  · intro h
    exact (h plan.home hp.home_lt hmem).imp And.left And.right
  · intro h i hi hstored
    obtain rfl := eq_of_mem_left hp hmem hstored
    refine h.imp (fun hzero => ⟨hzero, fun hintra => ?_, fun hext => ?_⟩) fun hle => ⟨rfl, hle⟩
    · exact absurd hintra hp.home_not_mem_intra
    · exact absurd hext hp.home_not_mem_ext

/-- No more peers are left than there were. -/
theorem length_pool_le {h : PIDPeerSelectionHelper Peer} (hr : h.Ready n) (his : ∀ i ∈ is, i < n) :
    (h.pool is).length ≤ (is.map fun i : Nat => (h.ispPeers.getNumPeers i).toNat).sum := by
  unfold PIDPeerSelectionHelper.pool
  rw [List.length_flatMap]
  refine List.sum_le_sum fun i hi => ?_
  obtain ⟨info, hinfo, hfits⟩ := hr.exists_info (his i hi)
  rw [getNumPeers_toNat, PIDPeerSelectionHelper.left, hinfo]
  cases hpeers : h.ispPeers.listPIDPeers i with
  | none => exact Nat.le_refl _
  | some peers => exact (hfits.among peers hpeers).length_le

end Plan

end Selector

/-! ## The two functions -/

namespace SelectionContext

open Selector

variable {ctx : SelectionContext Peer ISP Mgr} {view : PerISPPeerDistribution Peer} {peer : Peer}
  {homeIsp : ISP} {homePid : Int} {home numPeers : Nat} {s t : Selecting Peer} {plan : Plan Peer}

/-- The peer is stored in the distribution of an ISP. -/
def StoredAt (ctx : SelectionContext Peer ISP Mgr) (isp : ISP) (p : Peer) : Prop :=
  ∃ view, ctx.manager.ispPeers.views[isp]? = some view ∧ p ∈ view.peerToPid

/-- The last stage can select the requesting peer. -/
theorem may_lastStage_peer (hfound : ctx.manager.ispPeers.views[homeIsp]? = some view)
    (hp : plan.Proper) (h : plan.BeforeRandom s t)
    (hreg : Regular randMax plan.view plan.numPids numPeers)
    (hfew : ((List.range plan.numPids).map fun i : Nat => (plan.view.getNumPeers i).toNat).sum ≤
      randMax + 1)
    (hpids : (ctx.objects.pidMap homeIsp).numTotalPIDs = plan.numPids) {prefilled : Nat}
    (hpos : 0 < missing numPeers prefilled t.outPeers.length)
    (hleft : plan.peer ∈ t.helper.left plan.home) :
    Draws.May (fun u => u = t) (ctx.lastStage homeIsp numPeers prefilled : Selector randMax Peer Int)
      (fun _ u => ¬ Without plan.peer s u) := by
  obtain ⟨intra, ext, happended, -⟩ := h
  unfold lastStage unlock releasePeerDistribution
  rw [hpids]
  refine Draws.may_bind_eq (remaining_apply _ · _ _) ?_
  have hrange : ∀ i ∈ List.range plan.numPids, i < plan.numPids := fun _ => List.mem_range.1
  have hview : Reachable randMax t.helper.ispPeers := by
    rw [happended.ispPeers]
    exact hreg.reachable
  have hvalid : ∀ i ∈ List.range plan.numPids, t.helper.ispPeers.listPIDPeers i ≠ none := by
    intro i hi hnone
    have hcount := hreg.valid i (hrange i hi)
    rw [PIDPeerSelectionHelper.getNumPeers_eq, ← happended.ispPeers, hnone] at hcount
    simp at hcount
  have hpool := Plan.length_pool_le happended.ready hrange
  rw [happended.ispPeers] at hpool
  have hselect := may_selectFrom_peer (s := t.noted (missingQuota numPeers prefilled t.outPeers.length))
    happended.ready hrange List.nodup_range hview hvalid (hpool.trans hfew) hpos
    (List.mem_range.2 hp.home_lt) hleft
  refine hselect.bind_at fun _ u h => ?_
  obtain ⟨more, hdrew⟩ := h
  obtain ⟨⟨first, hc⟩, -⟩ := happended
  obtain ⟨k, hbefore⟩ := hc.drew
  have hself : ¬ Without plan.peer s u.released := by
    rintro ⟨out, hout, hnot⟩
    have hstages : t.outPeers = s.outPeers ++ (first ++ (intra ++ ext)) := hbefore.outPeers
    have hlast : u.outPeers = t.outPeers ++ plan.peer :: more := hdrew.outPeers
    have hout : u.outPeers = s.outPeers ++ out := hout
    rw [hlast, hstages, List.append_assoc] at hout
    rw [← List.append_cancel_left hout] at hnot
    exact hnot (List.mem_append_right _ List.mem_cons_self)
  rintro u rfl
  refine ⟨[], 0, u.released, hself, fun rest => ?_⟩
  simp only [Draws.bind_apply, Draws.modify_apply, Drawn.returned_andThen, hfound, Draws.pure_apply]
  rfl

/-- A selection that can append the peer does not leave it out. -/
theorem not_without_of_may {selection : Selector randMax Peer Int}
    (hmay : Draws.May (fun t => t = s) selection (fun _ u => ¬ Without peer s u)) :
    ¬ Throughout selection s (Without peer s) := by
  intro hthroughout
  obtain ⟨rs, value, u, hself, hrun⟩ := hmay s rfl
  have hend := hthroughout (rs ++ [])
  rw [hrun] at hend
  exact hself hend

/-- The numbers of peers of an ISP add up to no more than `rand` can tell apart, and the peer is stored
for this PID. -/
structure StoredFor (randMax : Nat) (view : PerISPPeerDistribution Peer) (numPids numPeers : Nat)
    (peer : Peer) (home : Nat) : Prop where
  regular : Regular randMax view numPids numPeers
  few : ((List.range numPids).map fun i : Nat => (view.getNumPeers i).toNat).sum ≤ randMax + 1
  stored : peer ∈ (view.listPIDPeers home).getD []

/-- The stages of a selection that does not leave the requesting peer out can select it. -/
theorem may_stages_peer (hfound : ctx.manager.ispPeers.views[homeIsp]? = some view)
    (hp : plan.Proper) {stages : Selector randMax Peer Unit}
    (hstages : Draws.May (fun u => u = t) stages
      fun _ u => plan.Spares u ∧ plan.BeforeRandom s u)
    (hstored : StoredFor randMax plan.view plan.numPids numPeers plan.peer plan.home)
    (hpids : (ctx.objects.pidMap homeIsp).numTotalPIDs = plan.numPids)
    (hnumber : plan.numRandom = missing numPeers s.outPeers.length
      (s.outPeers.length + plan.numHome + plan.numIntra + plan.numExt))
    (hkeeps : ¬ plan.KeepsSelf) :
    Draws.May (fun u => u = t) (stages >>= fun _ => ctx.lastStage homeIsp numPeers s.outPeers.length)
      (fun _ u => ¬ Without plan.peer s u) := by
  have hmem : plan.peer ∈ plan.homePeers := hstored.stored
  have hlen := Plan.length_filter_homePeers hp hmem
  rw [Plan.keepsSelf_iff hp hmem, not_or, not_le] at hkeeps
  refine hstages.bind_at fun _ u hu => ?_
  obtain ⟨hspares, hbefore⟩ := hu
  refine may_lastStage_peer hfound hp hbefore hstored.regular hstored.few hpids ?_
    (hspares hmem (by omega))
  rw [hbefore.length, ← hnumber]
  exact Nat.pos_of_ne_zero hkeeps.1

/-- What `selectPeersLocationOnly` needs to leave the requesting peer out. -/
def LocalKeepsSelf (ctx : SelectionContext Peer ISP Mgr) (peer : Peer) (homeIsp : ISP) (homePid : Int)
    (numPeers : Nat) (s : Selecting Peer) : Prop :=
  ∀ view, ctx.manager.ispPeers.views[homeIsp]? = some view →
    toUnsigned homePid < (ctx.objects.pidMap homeIsp).numIntraISPPIDs →
    (ctx.localPlan view peer homeIsp homePid.toNat numPeers s).KeepsSelf

section LocationOnly

variable (h : ctx.Loaded) (hlow : -2 ^ 31 ≤ homePid) (hhigh : homePid < 2 ^ 31)

include h hlow hhigh

theorem selectPeersLocationOnly_distinct :
    Throughout (ctx.selectPeersLocationOnly peer homeIsp homePid numPeers :
      Selector randMax Peer Int) s (Distinct (ctx.StoredAt homeIsp) s) := by
  cases hfound : ctx.manager.ispPeers.views[homeIsp]? with
  | none =>
    refine throughout_of_eq errGuidanceUnavailable (fun rs => ?_) (.of_eq (t := s) rfl)
    exact selectPeersLocationOnly_none ctx _ _ hfound s rs
  | some view =>
    rcases Nat.lt_or_ge (toUnsigned homePid) (ctx.objects.pidMap homeIsp).numIntraISPPIDs with
      hinternal | hexternal
    · obtain ⟨home, rfl, hint, hhome⟩ := h.exists_home hlow hhigh hinternal
      have hview := h.buckets _ _ hfound
      have hp : (ctx.localPlan view peer homeIsp home numPeers s).Proper :=
        localPlan_proper hview (h.intra_le homeIsp) hint hhome
      have hdistinct : Throughout (ctx.selectPeersLocationOnly peer homeIsp home numPeers :
          Selector randMax Peer Int) s (Distinct (· ∈ view.peerToPid) s) := fun rs =>
        (selectPeersLocationOnly_follows hfound hview (h.intra_le homeIsp) hint hhome rs).distinct hp
      exact hdistinct.imp fun _ => Distinct.mono fun p hp => ⟨view, hfound, hp⟩
    · refine throughout_of_eq errGuidanceUnavailable (fun rs => ?_) (.of_eq (t := s.entered) rfl)
      exact selectPeersLocationOnly_external ctx _ _ hfound hexternal s rs

theorem selectPeersLocationOnly_without (hkeeps : ctx.LocalKeepsSelf peer homeIsp homePid numPeers s) :
    Throughout (ctx.selectPeersLocationOnly peer homeIsp homePid numPeers :
      Selector randMax Peer Int) s (Without peer s) := by
  cases hfound : ctx.manager.ispPeers.views[homeIsp]? with
  | none =>
    refine throughout_of_eq errGuidanceUnavailable (fun rs => ?_) (.of_eq (t := s) rfl)
    exact selectPeersLocationOnly_none ctx _ _ hfound s rs
  | some view =>
    rcases Nat.lt_or_ge (toUnsigned homePid) (ctx.objects.pidMap homeIsp).numIntraISPPIDs with
      hinternal | hexternal
    · have hkeeps := hkeeps view hfound hinternal
      obtain ⟨home, rfl, hint, hhome⟩ := h.exists_home hlow hhigh hinternal
      have hview := h.buckets _ _ hfound
      have hp : (ctx.localPlan view peer homeIsp home numPeers s).Proper :=
        localPlan_proper hview (h.intra_le homeIsp) hint hhome
      exact fun rs => (selectPeersLocationOnly_follows hfound hview (h.intra_le homeIsp) hint hhome
        rs).without hp hkeeps
    · refine throughout_of_eq errGuidanceUnavailable (fun rs => ?_) (.of_eq (t := s.entered) rfl)
      exact selectPeersLocationOnly_external ctx _ _ hfound hexternal s rs

/-- In a distribution that stores the peer for this PID it needs that. -/
theorem localKeepsSelf_of_without
    (hpct : Percentages (ofDouble (ctx.manager.getConfiguredOptions homeIsp).intrapidPct)
      (ofDouble (ctx.manager.getConfiguredOptions homeIsp).intraispPct))
    (hstored : ∀ view, ctx.manager.ispPeers.views[homeIsp]? = some view →
      StoredFor randMax view (ctx.objects.pidMap homeIsp).numTotalPIDs numPeers peer homePid.toNat)
    (hwithout : Throughout (ctx.selectPeersLocationOnly peer homeIsp homePid numPeers :
      Selector randMax Peer Int) s (Without peer s)) :
    ctx.LocalKeepsSelf peer homeIsp homePid numPeers s := by
  intro view hfound hinternal
  have hstored := hstored view hfound
  obtain ⟨home, rfl, hint, hhome⟩ := h.exists_home hlow hhigh hinternal
  have hview := h.buckets _ _ hfound
  have hp : (ctx.localPlan view peer homeIsp home numPeers s).Proper :=
    localPlan_proper hview (h.intra_le homeIsp) hint hhome
  by_contra hkeeps
  refine not_without_of_may ?_ hwithout
  rintro s rfl
  have hstages : Draws.May _ (ctx.localStages peer homeIsp home numPeers s.outPeers.length :
      Selector randMax Peer Unit) _ :=
    may_localStages hview (h.intra_le homeIsp) hint hhome hstored.regular hpct.configured
  have hmay := may_stages_peer hfound hp hstages hstored rfl (localPlan_numbers rfl hp).2.2.2.2.1
    hkeeps
  obtain ⟨rs, value, t, hself, hrun⟩ := hmay _ rfl
  refine ⟨rs, value, t, hself, fun rest => ?_⟩
  rw [selectPeersLocationOnly_eq ctx _ _ hfound (not_le.2 hinternal)]
  exact hrun rest

end LocationOnly

/-- With weights a distribution that stores the peer for its home PID needs that, too. -/
theorem weightsKeepsSelf_of_without {pidPct ispPct : ℚ} {weights : List ℚ} (hview : view.Buckets)
    (hhome : home < (ctx.objects.pidMap homeIsp).numTotalPIDs)
    (hstored : StoredFor randMax view (ctx.objects.pidMap homeIsp).numTotalPIDs numPeers peer home)
    (hpct : Percentages pidPct ispPct) (hfound : ctx.manager.ispPeers.views[homeIsp]? = some view)
    (hwithout : Throughout (ctx.selectByWeights peer homeIsp home numPeers pidPct ispPct weights :
      Selector randMax Peer Int) s (Without peer s)) :
    (ctx.weightsPlan view peer homeIsp home numPeers s pidPct ispPct weights).KeepsSelf := by
  have hp : (ctx.weightsPlan view peer homeIsp home numPeers s pidPct ispPct weights).Proper :=
    weightsPlan_proper hview hhome
  by_contra hkeeps
  refine not_without_of_may ?_ hwithout
  rintro s rfl
  have hstages : Draws.May _ (ctx.weightsStages view peer homeIsp home numPeers s.outPeers.length
      pidPct ispPct weights : Selector randMax Peer Unit) _ :=
    may_weightsStages hview hhome hstored.regular hpct
  have hmay := may_stages_peer hfound hp hstages hstored rfl (weightsPlan_numbers rfl hp).2.2.1
    hkeeps
  obtain ⟨rs, value, t, hself, hrun⟩ := hmay _ rfl
  refine ⟨rs, value, t, hself, fun rest => ?_⟩
  rw [selectByWeights_eq ctx _ _ _ _ _ _ hfound]
  exact hrun rest

/-- The peer is stored in the distribution of the home ISP of the requesting one. -/
def StoredHome (ctx : SelectionContext Peer ISP Mgr) (peer p : Peer) : Prop :=
  ∃ homeIsp, (ctx.objects.peer peer).homeISP = some homeIsp ∧ ctx.StoredAt homeIsp p

/-- What `selectPeers` needs to leave the requesting peer out. -/
def KeepsSelfFor (ctx : SelectionContext Peer ISP Mgr) (peer : Peer) (numPeers : Nat)
    (s : Selecting Peer) : Prop :=
  match ctx.route peer with
  | .refused => True
  | .locationOnly homeIsp homePid => ctx.LocalKeepsSelf peer homeIsp homePid numPeers s
  | .byWeights homeIsp homePid pidPct ispPct weights =>
    ∀ view, ctx.manager.ispPeers.views[homeIsp]? = some view →
      (ctx.weightsPlan view peer homeIsp homePid.toNat numPeers s pidPct ispPct weights).KeepsSelf

/-- The requesting peer is stored for its home PID. -/
def StoredForHome (ctx : SelectionContext Peer ISP Mgr) (randMax : Nat) (peer : Peer)
    (numPeers : Nat) : Prop :=
  ∀ homeIsp view, (ctx.objects.peer peer).homeISP = some homeIsp →
    ctx.manager.ispPeers.views[homeIsp]? = some view →
    StoredFor randMax view (ctx.objects.pidMap homeIsp).numTotalPIDs numPeers peer
      (ctx.objects.peer peer).homePID.toNat

section SelectPeers

variable (h : ctx.Loaded)

include h

theorem selectPeers_distinct :
    Throughout (ctx.selectPeers peer numPeers : Selector randMax Peer Int) s
      (Distinct (ctx.StoredHome peer) s) := by
  rw [selectPeers_eq]
  cases hroute : ctx.route peer with
  | refused => exact throughout_of_eq errGuidanceUnavailable (fun _ => rfl) (.of_eq (t := s) rfl)
  | locationOnly homeIsp homePid =>
    have hvalid := route_valid ctx peer (.inl hroute)
    obtain ⟨home, rfl, hint, -⟩ := h.exists_route_home (.inl hroute)
    exact (selectPeersLocationOnly_distinct h (by omega) (by omega)).imp fun _ =>
      Distinct.mono fun p hp => ⟨homeIsp, hvalid.1, hp⟩
  | byWeights homeIsp homePid pidPct ispPct weights =>
    have hvalid := route_valid ctx peer (.inr ⟨_, _, _, hroute⟩)
    obtain ⟨home, rfl, -, hhome⟩ := h.exists_route_home (.inr ⟨_, _, _, hroute⟩)
    cases hfound : ctx.manager.ispPeers.views[homeIsp]? with
    | none =>
      refine throughout_of_eq errGuidanceUnavailable (fun rs => ?_) (.of_eq (t := s) rfl)
      exact selectByWeights_none ctx _ _ _ _ _ _ hfound s rs
    | some view =>
      have hview := h.buckets _ _ hfound
      have hdistinct : Throughout (ctx.selectByWeights peer homeIsp home numPeers pidPct ispPct
          weights : Selector randMax Peer Int) s (Distinct (· ∈ view.peerToPid) s) := fun rs =>
        (selectByWeights_follows hfound hview hhome rs).distinct (weightsPlan_proper hview hhome)
      exact hdistinct.imp fun _ => Distinct.mono fun p hp => ⟨homeIsp, hvalid.1, view, hfound, hp⟩

theorem selectPeers_without (hkeeps : ctx.KeepsSelfFor peer numPeers s) :
    Throughout (ctx.selectPeers peer numPeers : Selector randMax Peer Int) s (Without peer s) := by
  rw [selectPeers_eq]
  unfold KeepsSelfFor at hkeeps
  cases hroute : ctx.route peer with
  | refused => exact throughout_of_eq errGuidanceUnavailable (fun _ => rfl) (.of_eq (t := s) rfl)
  | locationOnly homeIsp homePid =>
    rw [hroute] at hkeeps
    obtain ⟨home, rfl, hint, -⟩ := h.exists_route_home (.inl hroute)
    exact selectPeersLocationOnly_without h (by omega) (by omega) hkeeps
  | byWeights homeIsp homePid pidPct ispPct weights =>
    rw [hroute] at hkeeps
    obtain ⟨home, rfl, -, hhome⟩ := h.exists_route_home (.inr ⟨_, _, _, hroute⟩)
    cases hfound : ctx.manager.ispPeers.views[homeIsp]? with
    | none =>
      refine throughout_of_eq errGuidanceUnavailable (fun rs => ?_) (.of_eq (t := s) rfl)
      exact selectByWeights_none ctx _ _ _ _ _ _ hfound s rs
    | some view =>
      have hview := h.buckets _ _ hfound
      exact fun rs => (selectByWeights_follows hfound hview hhome rs).without
        (weightsPlan_proper hview hhome) (hkeeps view hfound)

theorem keepsSelfFor_of_without (hpct : ctx.PercentagesFor peer)
    (hstored : ctx.StoredForHome randMax peer numPeers)
    (hwithout : Throughout (ctx.selectPeers peer numPeers : Selector randMax Peer Int) s
      (Without peer s)) : ctx.KeepsSelfFor peer numPeers s := by
  rw [selectPeers_eq] at hwithout
  unfold PercentagesFor at hpct
  unfold KeepsSelfFor
  cases hroute : ctx.route peer with
  | refused => trivial
  | locationOnly homeIsp homePid =>
    rw [hroute] at hpct hwithout
    obtain ⟨hisp, hpid, -⟩ := route_valid ctx peer (.inl hroute)
    obtain ⟨home, rfl, hint, -⟩ := h.exists_route_home (.inl hroute)
    refine localKeepsSelf_of_without h (by omega) (by omega) hpct (fun view hfound => ?_) hwithout
    rw [hpid]
    exact hstored homeIsp view hisp hfound
  | byWeights homeIsp homePid pidPct ispPct weights =>
    rw [hroute] at hpct hwithout
    obtain ⟨hisp, hpid, -⟩ := route_valid ctx peer (.inr ⟨_, _, _, hroute⟩)
    obtain ⟨home, rfl, -, hhome⟩ := h.exists_route_home (.inr ⟨_, _, _, hroute⟩)
    intro view hfound
    have hstored := hstored homeIsp view hisp hfound
    rw [← hpid] at hstored
    exact weightsKeepsSelf_of_without (h.buckets _ _ hfound) hhome hstored hpct hfound hwithout

end SelectPeers

/-- The selected peers are distinct and stored. The requesting one is not among them exactly where the
first stage takes all peers of the home PID, or the last one has nothing to do. -/
theorem selected_fresh_iff (h : ctx.Loaded) (numPeers : Nat) (s : Selecting Peer) (randMax : Nat) :
    (∀ peer homeIsp (homePid : Int), -2 ^ 31 ≤ homePid → homePid < 2 ^ 31 →
      Throughout (ctx.selectPeersLocationOnly peer homeIsp homePid numPeers :
        Selector randMax Peer Int) s (Distinct (ctx.StoredAt homeIsp) s) ∧
      (ctx.LocalKeepsSelf peer homeIsp homePid numPeers s →
        Throughout (ctx.selectPeersLocationOnly peer homeIsp homePid numPeers :
          Selector randMax Peer Int) s (Without peer s)) ∧
      (Percentages (ofDouble (ctx.manager.getConfiguredOptions homeIsp).intrapidPct)
          (ofDouble (ctx.manager.getConfiguredOptions homeIsp).intraispPct) →
        (∀ view, ctx.manager.ispPeers.views[homeIsp]? = some view →
          StoredFor randMax view (ctx.objects.pidMap homeIsp).numTotalPIDs numPeers peer
            homePid.toNat) →
        Throughout (ctx.selectPeersLocationOnly peer homeIsp homePid numPeers :
          Selector randMax Peer Int) s (Without peer s) →
        ctx.LocalKeepsSelf peer homeIsp homePid numPeers s)) ∧
    ∀ peer,
      Throughout (ctx.selectPeers peer numPeers : Selector randMax Peer Int) s
        (Distinct (ctx.StoredHome peer) s) ∧
      (ctx.KeepsSelfFor peer numPeers s →
        Throughout (ctx.selectPeers peer numPeers : Selector randMax Peer Int) s (Without peer s)) ∧
      (ctx.PercentagesFor peer → ctx.StoredForHome randMax peer numPeers →
        Throughout (ctx.selectPeers peer numPeers : Selector randMax Peer Int) s (Without peer s) →
        ctx.KeepsSelfFor peer numPeers s) :=
  ⟨fun _ _ _ hlow hhigh => ⟨selectPeersLocationOnly_distinct h hlow hhigh,
      selectPeersLocationOnly_without h hlow hhigh, localKeepsSelf_of_without h hlow hhigh⟩,
    fun _ => ⟨selectPeers_distinct h, selectPeers_without h, keepsSelfFor_of_without h⟩⟩

/-- The home PID of the peer 0 gives both of its peers. -/
theorem selected_fresh_home :
    Throughout ((smallSwarm .double true .locationOnly 1 1 []).selectPeersLocationOnly 0 0 0 2 :
      Selector 32767 Nat Int) { outPeers := [] } (Without 0 { outPeers := [] }) := by
  refine ((selected_fresh_iff (loaded_smallSwarm .double true .locationOnly 1 1 []) 2 { outPeers := [] }
    32767).1 0 0 0 (by decide) (by decide)).2.1 fun view hfound _ => ?_
  obtain rfl : threePids = view := by
    simpa [smallSwarm] using hfound
  have hall : ∀ i : Nat, i < 3 → 0 ∈ (threePids.listPIDPeers i).getD [] → i = 0 := by decide +kernel
  intro i hi hmem
  exact .inr ⟨hall i hi hmem, by decide +kernel⟩

/-- No peer is to come from the home PID, so that the requesting one is still there for the last
stage. -/
theorem selected_not_fresh :
    ¬ Throughout ((smallSwarm .double true .locationOnly 0 0 []).selectPeersLocationOnly 0 0 0 2 :
      Selector 32767 Nat Int) { outPeers := [] } (Without 0 { outPeers := [] }) := by
  intro h
  have hnot := (h [0, 0, 0, 0]).imp (fun _ _ hself => hself.not_mem rfl)
    (fun _ hself => hself.not_mem rfl) fun _ hself => hself.not_mem rfl
  exact absurd hnot (by decide +kernel)

end SelectionContext

end Alto.Selection
