import Alto.Verify.FillSound
import Alto.Verify.SelectionRules

/-!
# The course of a selection

`selectPeers` with weights and `selectPeersLocationOnly` both go through four stages: the home PID, other
internal PIDs, external PIDs, and all PIDs. A `Plan` says how many peers each stage appends if it comes
to its end. Every run follows its plan, wherever it ends (`selectByWeights_follows`,
`selectPeersLocationOnly_follows`).
-/

namespace Alto.Selection

open Common Lib App Guidance

variable {randMax : Nat} {Peer ISP Mgr : Type} [LinearOrder Peer] [LinearOrder ISP]

namespace Selector

variable {n : Nat} {is js : List Nat} {s t t' : Selecting Peer} {out skipped first rest : List Peer}

/-! ## Stages behind each other -/

/-- The records of the quotas do not matter for what is drawn. -/
theorem Drew.requote (hd : Drew n is s out skipped t) (quotas : List (ℚ × Nat)) :
    Drew n is { s with quotas } out skipped { t with quotas } :=
  ⟨hd.outPeers, hd.peersLocks, hd.viewsLocks, rfl, hd.ready, hd.ispPeers, hd.totalPeers, hd.others,
    hd.perm⟩

theorem Drew.subset (hd : Drew n is s out skipped t) : out ⊆ s.helper.pool is :=
  fun _ hp => hd.perm.subset (List.mem_append_left _ hp)

theorem Drew.length_le (hd : Drew n is s out skipped t) : out.length ≤ (s.helper.pool is).length := by
  have hlen := hd.perm.length_eq
  rw [List.length_append] at hlen
  omega

theorem pool_eq_of_others {h h' : PIDPeerSelectionHelper Peer}
    (hothers : ∀ j, j ∉ is → h'.left j = h.left j) (hdisjoint : ∀ j ∈ js, j ∉ is) :
    h'.pool js = h.pool js :=
  List.flatMap_congr fun j hj => hothers j (hdisjoint j hj)

/-- The stage for the home PID is over. It has appended `first`, and later stages have appended `rest`
from some other PIDs. -/
structure Course (n : Nat) (peer : Peer) (home number : Nat) (js : List Nat) (s : Selecting Peer)
    (first rest : List Peer) (t : Selecting Peer) : Prop where
  drew : ∃ k, Drew n (home :: js) s (first ++ rest) (List.replicate k peer)
    { t with quotas := s.quotas }
  self : peer ∉ first
  size : first.length = homeSize peer number s.helper home
  dry : first.length = number ∨ t.helper.left home = []

variable {peer : Peer} {home number : Nat}

theorem DrewHome.course {quotas : List (ℚ × Nat)}
    (hd : DrewHome n peer home number { s with quotas } out t)
    (hend : out.length = number ∨ t.helper.left home = []) :
    Course n peer home number [] s out [] t where
  drew := by
    obtain ⟨k, hdrew⟩ := hd.drew
    refine ⟨k, ?_⟩
    rw [List.append_nil]
    exact hdrew.requote s.quotas
  self := hd.self
  size := hd.length_eq hend
  dry := hend

/-- A further stage, for PIDs that have not been drawn from. -/
theorem Course.add (hc : Course n peer home number js s first rest t) {quotas : List (ℚ × Nat)}
    (hd : Drew n is { t with quotas } out [] t') (hnodup : (home :: (js ++ is)).Nodup) :
    Course n peer home number (js ++ is) s first (rest ++ out) t' where
  drew := by
    obtain ⟨k, hdrew⟩ := hc.drew
    refine ⟨k, ?_⟩
    have hsub : home :: js ⊆ home :: (js ++ is) :=
      List.cons_subset_cons _ (List.subset_append_left _ _)
    have hbefore := hdrew.widen hsub (hnodup.sublist (List.Sublist.cons_cons _
      (List.sublist_append_left _ _))) hnodup
    have hsub' : is ⊆ home :: (js ++ is) := fun _ hi =>
      List.mem_cons_of_mem _ (List.mem_append_right _ hi)
    have hthen := (hd.requote s.quotas).widen hsub'
      (hnodup.sublist ((List.sublist_append_right _ _).cons _)) hnodup
    have htrans := hbefore.trans hthen
    rw [List.append_nil, List.append_assoc] at htrans
    exact htrans
  self := hc.self
  size := hc.size
  dry := by
    refine hc.dry.imp_right fun hnil => ?_
    have hhome : home ∉ is := fun hi =>
      (List.nodup_cons.1 hnodup).1 (List.mem_append_right _ hi)
    exact (hd.others home hhome).trans hnil

/-! ## Filling from a distribution -/

variable {fp : Rounding} {view : PerISPPeerDistribution Peer} {weights : List ℚ} {homePid : Int}

/-- The numbers of peers that are handed to `fillPeers`. -/
def fillCounts (view : PerISPPeerDistribution Peer) (is : List Nat) : List Nat :=
  is.map fun i : Nat => toUnsigned (view.getNumPeers i)

/-- The number of peers that `fillPeers` appends if it returns. -/
def fillNumber (view : PerISPPeerDistribution Peer) (is : List Nat) (size maxPeers : Nat) : Nat :=
  fillSize is size maxPeers (toUnsigned (fillCounts view is).sum)

theorem fillFrom_spec (fp : Rounding) (hr : s.helper.Ready n) (his : ∀ i ∈ is, i < n) (hnodup : is.Nodup)
    (view : PerISPPeerDistribution Peer) (weights : List ℚ) (maxPeers : Nat)
    (rs : List (Fin (randMax + 1))) :
    (SelectionContext.fillFrom fp view weights is maxPeers s rs).Holds
      (fun _ t => ∃ out, Drew n is s out [] t ∧
        out.length = fillNumber view is s.outPeers.length maxPeers)
      (fun t => ∃ out, Drew n is s out [] t ∧
        out.length < fillNumber view is s.outPeers.length maxPeers)
      (fun t => ∃ out, Drew n is s out [] t ∧
        out.length < fillNumber view is s.outPeers.length maxPeers) :=
  fillPeers_spec hr his hnodup (List.length_map _) (List.length_map _) maxPeers rs

/-- The PIDs are all valid, the last one has enough peers, and rounding does no harm. -/
def FillSafe (fp : Rounding) (view : PerISPPeerDistribution Peer) (weights : List ℚ) (is : List Nat)
    (size maxPeers : Nat) : Prop :=
  (∀ i ∈ is, 0 ≤ view.getNumPeers i) ∧
    Suffices size (is.map fun i : Nat => (view.getNumPeers i).toNat) maxPeers ∧
    WeightHolds fp size (is.map fun i : Nat => (view.getNumPeers i).toNat)
      (is.map fun i => (weights[i]?).getD 0) maxPeers

theorem getNumPeers_toNat (view : PerISPPeerDistribution Peer) (i : Nat) :
    (view.getNumPeers i).toNat = ((view.listPIDPeers i).getD []).length := by
  rw [PIDPeerSelectionHelper.getNumPeers_eq]
  cases view.listPIDPeers i with
  | none => rfl
  | some peers => simp

/-- The counts that do not wrap around. -/
theorem fillCounts_eq (hvalid : ∀ i ∈ is, 0 ≤ view.getNumPeers i)
    (hsum : (is.map fun i : Nat => (view.getNumPeers i).toNat).sum < 2 ^ 32) :
    fillCounts view is = is.map fun i : Nat => (view.getNumPeers i).toNat := by
  refine List.map_congr_left fun i hi => toUnsigned_of_lt (hvalid i hi) ?_
  have hle := List.single_le_sum (l := is.map fun i : Nat => (view.getNumPeers i).toNat)
    (fun _ _ => Nat.zero_le _) _ (List.mem_map.2 ⟨i, hi, rfl⟩)
  omega

/-- The arguments of `fillPeers` for PIDs that passed the filter. -/
theorem filling_of_passes (hr : s.helper.Ready n) (his : ∀ i ∈ is, i < n) (hnodup : is.Nodup)
    (hpasses : ∀ i ∈ is, SelectionContext.passes view weights homePid i = true)
    (hleft : ∀ i ∈ is, s.helper.left i = (view.listPIDPeers i).getD [])
    (hvalid : ∀ i ∈ is, 0 ≤ view.getNumPeers i)
    (hsum : (is.map fun i : Nat => (view.getNumPeers i).toNat).sum < 2 ^ 32) :
    Filling n s is (fillCounts view is) (is.map fun i => (weights[i]?).getD 0) where
  ready := hr
  valid := his
  nodup := hnodup
  peercount_eq := by
    rw [fillCounts_eq hvalid hsum]
    refine List.map_congr_left fun i hi => ?_
    rw [getNumPeers_toNat, hleft i hi]
  peercount_pos := by
    rw [fillCounts_eq hvalid hsum]
    intro count hcount
    obtain ⟨i, hi, rfl⟩ := List.mem_map.1 hcount
    have hpass := hpasses i hi
    have hpos := hvalid i hi
    simp only [SelectionContext.passes, Bool.and_eq_true, decide_eq_true_eq] at hpass
    omega
  length_weights := by rw [List.length_map]
  weights_pos := by
    intro w hw
    obtain ⟨i, hi, rfl⟩ := List.mem_map.1 hw
    have hpass := hpasses i hi
    simp only [SelectionContext.passes, Bool.and_eq_true, decide_eq_true_eq] at hpass
    exact hpass.1.1

/-- A safe stage does not throw. -/
theorem fillFrom_safe (hr : s.helper.Ready n) (his : ∀ i ∈ is, i < n) (hnodup : is.Nodup)
    (hpasses : ∀ i ∈ is, SelectionContext.passes view weights homePid i = true)
    (hleft : ∀ i ∈ is, s.helper.left i = (view.listPIDPeers i).getD []) {maxPeers : Nat}
    (hsafe : FillSafe fp view weights is s.outPeers.length maxPeers) (rs : List (Fin (randMax + 1))) :
    (SelectionContext.fillFrom fp view weights is maxPeers s rs).Holds (fun _ _ => True)
      (fun _ => False) (fun _ => True) := by
  obtain ⟨hvalid, hsuffices, hholds⟩ := hsafe
  rcases eq_or_ne is [] with rfl | hne
  · trivial
  have hsum : (is.map fun i : Nat => (view.getNumPeers i).toNat).sum < 2 ^ 32 := by
    rcases hsuffices with hnil | hsuffices
    · exact absurd (List.map_eq_nil_iff.1 hnil) hne
    · exact hsuffices.1
  have hf := filling_of_passes hr his hnodup hpasses hleft hvalid hsum
  rw [← fillCounts_eq hvalid hsum] at hsuffices hholds
  have hsound := fillPeers_safe hf hsuffices hholds rs
  rw [fillPeers_eq hf hne, ← fillPeers_eq hf hne maxPeers s.fill] at hsound
  exact hsound.imp (fun _ _ _ => trivial) (fun _ => id) fun _ _ => trivial

/-- What a stage does: it appends this many peers if it returns, and throws only if it is not safe. -/
def StageHolds (n : Nat) (is : List Nat) (s : Selecting Peer) (number : Nat) (safe : Prop)
    (run : Drawn (Fin (randMax + 1)) (Selecting Peer) Unit) : Prop :=
  run.Holds (fun _ t => ∃ out, Drew n is s out [] t ∧ out.length = number)
    (fun t => (∃ out, Drew n is s out [] t ∧ out.length ≤ number) ∧ ¬ safe)
    (fun t => ∃ out, Drew n is s out [] t ∧ out.length ≤ number)

theorem fillFrom_stage (fp : Rounding) (hr : s.helper.Ready n) (his : ∀ i ∈ is, i < n) (hnodup : is.Nodup)
    (hpasses : ∀ i ∈ is, SelectionContext.passes view weights homePid i = true)
    (hleft : ∀ i ∈ is, s.helper.left i = (view.listPIDPeers i).getD []) (maxPeers : Nat)
    (rs : List (Fin (randMax + 1))) :
    StageHolds n is s (fillNumber view is s.outPeers.length maxPeers)
      (FillSafe fp view weights is s.outPeers.length maxPeers)
      (SelectionContext.fillFrom fp view weights is maxPeers s rs) := by
  have hspec := fillFrom_spec fp hr his hnodup view weights maxPeers rs
  have hle : ∀ t, (∃ out, Drew n is s out [] t ∧
      out.length < fillNumber view is s.outPeers.length maxPeers) →
      ∃ out, Drew n is s out [] t ∧
        out.length ≤ fillNumber view is s.outPeers.length maxPeers :=
    fun _ ⟨out, hd, hlt⟩ => ⟨out, hd, hlt.le⟩
  by_cases hsafe : FillSafe fp view weights is s.outPeers.length maxPeers
  · exact (hspec.and (fillFrom_safe hr his hnodup hpasses hleft hsafe rs)).imp
      (fun _ _ h => h.1) (fun _ h => h.2.elim) fun _ h => hle _ h.1
  · exact hspec.imp (fun _ _ => id) (fun _ h => ⟨hle _ h, hsafe⟩) hle

theorem selectFrom_stage (hr : s.helper.Ready n) (his : ∀ i ∈ is, i < n) (hnodup : is.Nodup)
    (number : Nat) (rs : List (Fin (randMax + 1))) :
    StageHolds n is s (min number (stock s.helper is).toNat) True
      (selectFrom (pidList is) number s rs) :=
  (selectFrom_spec hr his hnodup number rs).imp (fun _ _ => id) (fun _ => False.elim) fun _ => id

/-! ## Plans -/

/-- The number of peers of the home PID that are appended. -/
def homeNumber (view : PerISPPeerDistribution Peer) (peer : Peer) (home number : Nat) : Nat :=
  min number (((view.listPIDPeers home).getD []).filter fun p => p ≠ peer).length

/-- The stages of a selection: the PIDs of each, how many peers it appends if it comes to its end, and
the quotas that are recorded before it. A stage that is safe does not throw. -/
structure Plan (Peer : Type) [LinearOrder Peer] where
  view : PerISPPeerDistribution Peer
  numPids : Nat
  numPeers : Nat
  peer : Peer
  home : Nat
  number : Nat
  intra : List Nat
  numIntra : Nat
  ext : List Nat
  numExt : Nat
  numRandom : Nat
  homeQuota : List (ℚ × Nat)
  intraQuota : List (ℚ × Nat)
  extQuota : List (ℚ × Nat)
  randomQuota : List (ℚ × Nat)
  intraSafe : Prop
  extSafe : Prop

namespace Plan

variable (plan : Plan Peer)

/-- The state with the helper. -/
def start (s : Selecting Peer) : Selecting Peer :=
  s.entered.helped plan.view plan.numPids plan.numPeers

/-- The number of peers of some PIDs. -/
def cap (is : List Nat) : Nat := ((plan.start { outPeers := [] }).helper.pool is).length

/-- The number of peers of the home PID that are appended. -/
def numHome : Nat :=
  homeSize plan.peer plan.number (plan.start { outPeers := [] }).helper plan.home

theorem numHome_eq (hhome : plan.home < plan.numPids) :
    plan.numHome = homeNumber plan.view plan.peer plan.home plan.number := by
  have hleft : (plan.start { outPeers := [] }).helper.left plan.home =
      (plan.view.listPIDPeers plan.home).getD [] := PIDPeerSelectionHelper.left_create hhome
  rw [numHome, homeSize, homeNumber, hleft]

/-- The PIDs of the stages are different PIDs of the map. -/
structure Proper : Prop where
  buckets : plan.view.Buckets
  nodup : (plan.home :: (plan.intra ++ plan.ext)).Nodup
  valid : ∀ i ∈ plan.home :: (plan.intra ++ plan.ext), i < plan.numPids

/-- In the first stage. -/
def InHome (s t : Selecting Peer) : Prop :=
  ∃ out, DrewHome plan.numPids plan.peer plan.home plan.number
    { plan.start s with quotas := s.quotas ++ plan.homeQuota } out t

/-- The stages have appended these peers of the internal and the external PIDs. -/
structure Appended (s t : Selecting Peer) (js : List Nat) (intra ext : List Peer)
    (quotas : List (ℚ × Nat)) : Prop where
  course : ∃ first, Course plan.numPids plan.peer plan.home plan.number js (plan.start s) first
    (intra ++ ext) t
  quotas_eq : t.quotas = s.quotas ++ quotas
  intra_mem : intra ⊆ (plan.start s).helper.pool plan.intra
  ext_mem : ext ⊆ (plan.start s).helper.pool plan.ext

/-- In the second stage. -/
def InIntra (s t : Selecting Peer) : Prop :=
  ∃ intra, plan.Appended s t plan.intra intra [] (plan.homeQuota ++ plan.intraQuota) ∧
    intra.length ≤ min plan.numIntra (plan.cap plan.intra)

/-- The first two stages are over. -/
def BeforeExt (s t : Selecting Peer) : Prop :=
  ∃ intra, plan.Appended s t plan.intra intra [] (plan.homeQuota ++ plan.intraQuota) ∧
    intra.length = plan.numIntra ∧ plan.numIntra ≤ plan.cap plan.intra

/-- In the third stage. -/
def InExt (s t : Selecting Peer) : Prop :=
  ∃ intra ext, plan.Appended s t (plan.intra ++ plan.ext) intra ext
      (plan.homeQuota ++ plan.intraQuota ++ plan.extQuota) ∧
    intra.length = plan.numIntra ∧ plan.numIntra ≤ plan.cap plan.intra ∧
    ext.length ≤ min plan.numExt (plan.cap plan.ext)

/-- The first three stages are over. -/
def BeforeRandom (s t : Selecting Peer) : Prop :=
  ∃ intra ext, plan.Appended s t (plan.intra ++ plan.ext) intra ext
      (plan.homeQuota ++ plan.intraQuota ++ plan.extQuota) ∧
    intra.length = plan.numIntra ∧ plan.numIntra ≤ plan.cap plan.intra ∧
    ext.length = plan.numExt ∧ plan.numExt ≤ plan.cap plan.ext

/-- In the last stage. -/
def InRandom (s t : Selecting Peer) : Prop :=
  ∃ u out, plan.BeforeRandom s u ∧
    Drew plan.numPids (List.range plan.numPids)
      { u with quotas := u.quotas ++ plan.randomQuota } out [] t ∧
    out.length ≤ plan.numRandom

/-- Where a selection can throw. -/
def Threw (s t : Selecting Peer) : Prop :=
  plan.InIntra s t ∧ ¬ plan.intraSafe ∨ plan.InExt s t ∧ ¬ plan.extSafe

/-- Where it can wait. -/
def Waits (s t : Selecting Peer) : Prop :=
  plan.InHome s t ∨ plan.InIntra s t ∨ plan.InExt s t ∨ plan.InRandom s t

/-- A run is in one of the stages wherever it ends. -/
def Follows (s : Selecting Peer) (run : Drawn (Fin (randMax + 1)) (Selecting Peer) Int) : Prop :=
  run.Holds (fun value t => value = 0 ∧ ∃ u, plan.InRandom s u ∧ t = u.released) (plan.Threw s)
    (plan.Waits s)

/-! ## From stage to stage -/

variable {plan} {s t : Selecting Peer}

/-- The first stage. -/
theorem home_holds (hp : plan.Proper) (s : Selecting Peer) (rs : List (Fin (randMax + 1))) :
    (selectHome plan.peer plan.home plan.number
      { plan.start s with quotas := s.quotas ++ plan.homeQuota } rs).Holds
      (fun _ t => plan.Appended s t [] [] [] plan.homeQuota) (fun _ => False) (plan.InHome s) := by
  have hr : (plan.start s).helper.Ready plan.numPids :=
    PIDPeerSelectionHelper.ready_create hp.buckets _ _
  have hspec := selectHome_spec (s := { plan.start s with quotas := s.quotas ++ plan.homeQuota })
    hr (hp.valid _ List.mem_cons_self) plan.peer plan.number rs
  refine hspec.imp ?_ (fun _ => id) fun _ => id
  rintro _ t ⟨out, hd, hend⟩
  obtain ⟨k, hdrew⟩ := hd.drew
  exact ⟨⟨out, hd.course hend⟩, hdrew.quotas, List.nil_subset _, List.nil_subset _⟩

theorem Appended.ready {js : List Nat} {intra ext : List Peer} {quotas : List (ℚ × Nat)}
    (h : plan.Appended s t js intra ext quotas) : t.helper.Ready plan.numPids := by
  obtain ⟨⟨first, hc⟩, -⟩ := h
  obtain ⟨k, hdrew⟩ := hc.drew
  exact hdrew.ready

theorem Appended.ispPeers {js : List Nat} {intra ext : List Peer} {quotas : List (ℚ × Nat)}
    (h : plan.Appended s t js intra ext quotas) : t.helper.ispPeers = plan.view := by
  obtain ⟨⟨first, hc⟩, -⟩ := h
  obtain ⟨k, hdrew⟩ := hc.drew
  exact hdrew.ispPeers

theorem Appended.length {js : List Nat} {intra ext : List Peer} {quotas : List (ℚ × Nat)}
    (h : plan.Appended s t js intra ext quotas) :
    t.outPeers.length = s.outPeers.length + plan.numHome + intra.length + ext.length := by
  obtain ⟨⟨first, hc⟩, -⟩ := h
  obtain ⟨k, hdrew⟩ := hc.drew
  have hout : t.outPeers = s.outPeers ++ (first ++ (intra ++ ext)) := hdrew.outPeers
  have hsize : first.length = plan.numHome := hc.size
  rw [hout]
  simp only [List.length_append]
  omega

/-- A PID that has not been drawn from has all its peers. -/
theorem Appended.left {js : List Nat} {intra ext : List Peer} {quotas : List (ℚ × Nat)}
    (h : plan.Appended s t js intra ext quotas) {i : Nat} (hi : i < plan.numPids)
    (hnew : i ∉ plan.home :: js) : t.helper.left i = (plan.view.listPIDPeers i).getD [] := by
  obtain ⟨⟨first, hc⟩, -⟩ := h
  obtain ⟨k, hdrew⟩ := hc.drew
  exact (hdrew.others i hnew).trans (PIDPeerSelectionHelper.left_create hi)

/-! ## The PIDs of the stages -/

theorem Proper.nodup_intra (hp : plan.Proper) : plan.intra.Nodup :=
  (List.nodup_append.1 (List.nodup_cons.1 hp.nodup).2).1

theorem Proper.nodup_ext (hp : plan.Proper) : plan.ext.Nodup :=
  (List.nodup_append.1 (List.nodup_cons.1 hp.nodup).2).2.1

theorem Proper.home_lt (hp : plan.Proper) : plan.home < plan.numPids :=
  hp.valid _ List.mem_cons_self

theorem Proper.intra_lt (hp : plan.Proper) {i : Nat} (hi : i ∈ plan.intra) : i < plan.numPids :=
  hp.valid i (List.mem_cons_of_mem _ (List.mem_append_left _ hi))

theorem Proper.ext_lt (hp : plan.Proper) {i : Nat} (hi : i ∈ plan.ext) : i < plan.numPids :=
  hp.valid i (List.mem_cons_of_mem _ (List.mem_append_right _ hi))

theorem Proper.home_not_mem_intra (hp : plan.Proper) : plan.home ∉ plan.intra :=
  fun hmem => (List.nodup_cons.1 hp.nodup).1 (List.mem_append_left _ hmem)

theorem Proper.home_not_mem_ext (hp : plan.Proper) : plan.home ∉ plan.ext :=
  fun hmem => (List.nodup_cons.1 hp.nodup).1 (List.mem_append_right _ hmem)

/-- At the start of the second stage its PIDs have all their peers. -/
theorem Appended.left_intra (hp : plan.Proper) {quotas : List (ℚ × Nat)}
    (h : plan.Appended s t [] [] [] quotas) {i : Nat} (hi : i ∈ plan.intra) :
    t.helper.left i = (plan.view.listPIDPeers i).getD [] := by
  refine h.left (hp.intra_lt hi) fun hmem => hp.home_not_mem_intra ?_
  exact List.mem_singleton.1 hmem ▸ hi

/-- At the start of the third stage its PIDs have all their peers. -/
theorem Appended.left_ext (hp : plan.Proper) {intra ext : List Peer} {quotas : List (ℚ × Nat)}
    (h : plan.Appended s t plan.intra intra ext quotas) {i : Nat} (hi : i ∈ plan.ext) :
    t.helper.left i = (plan.view.listPIDPeers i).getD [] := by
  refine h.left (hp.ext_lt hi) fun hmem => ?_
  rcases List.mem_cons.1 hmem with rfl | hmem
  · exact hp.home_not_mem_ext hi
  · exact (List.nodup_append.1 (List.nodup_cons.1 hp.nodup).2).2.2 i hmem i hi rfl

/-! ## What a stage adds -/

/-- The second stage has appended `out`. -/
theorem Appended.addIntra (hp : plan.Proper) (h : plan.Appended s t [] [] [] plan.homeQuota)
    {out : List Peer} {t' : Selecting Peer}
    (hd : Drew plan.numPids plan.intra { t with quotas := t.quotas ++ plan.intraQuota } out [] t') :
    plan.Appended s t' plan.intra out [] (plan.homeQuota ++ plan.intraQuota) ∧
      out.length ≤ plan.cap plan.intra := by
  obtain ⟨⟨first, hc⟩, hquotas, -, -⟩ := h
  have hnodup : (plan.home :: ([] ++ plan.intra)).Nodup :=
    hp.nodup.sublist (List.Sublist.cons_cons _ (List.sublist_append_left _ _))
  have hpool : t.helper.pool plan.intra = (plan.start s).helper.pool plan.intra := by
    obtain ⟨k, hdrew⟩ := hc.drew
    refine pool_eq_of_others hdrew.others fun i hi hhome => ?_
    exact (List.nodup_cons.1 hnodup).1 (List.mem_singleton.1 hhome ▸ hi)
  refine ⟨⟨⟨first, ?_⟩, ?_, ?_, List.nil_subset _⟩, ?_⟩
  · rw [List.append_nil]
    exact hc.add hd hnodup
  · rw [hd.quotas, ← List.append_assoc, ← hquotas]
  · exact hpool ▸ hd.subset
  · exact hd.length_le.trans_eq (congrArg List.length hpool)

/-- The third stage has appended `out`. -/
theorem Appended.addExt (hp : plan.Proper) {intra : List Peer}
    (h : plan.Appended s t plan.intra intra [] (plan.homeQuota ++ plan.intraQuota))
    {out : List Peer} {t' : Selecting Peer}
    (hd : Drew plan.numPids plan.ext { t with quotas := t.quotas ++ plan.extQuota } out [] t') :
    plan.Appended s t' (plan.intra ++ plan.ext) intra out
        (plan.homeQuota ++ plan.intraQuota ++ plan.extQuota) ∧
      out.length ≤ plan.cap plan.ext := by
  obtain ⟨⟨first, hc⟩, hquotas, hmem, -⟩ := h
  rw [List.append_nil] at hc
  obtain ⟨hhome, hlists⟩ := List.nodup_cons.1 hp.nodup
  have hpool : t.helper.pool plan.ext = (plan.start s).helper.pool plan.ext := by
    obtain ⟨k, hdrew⟩ := hc.drew
    refine pool_eq_of_others hdrew.others fun i hi hmem => ?_
    rcases List.mem_cons.1 hmem with rfl | hmem
    · exact hhome (List.mem_append_right _ hi)
    · exact (List.nodup_append.1 hlists).2.2 i hmem i hi rfl
  refine ⟨⟨⟨first, hc.add hd hp.nodup⟩, ?_, hmem, ?_⟩, ?_⟩
  · rw [hd.quotas, ← List.append_assoc s.quotas, ← hquotas]
  · exact hpool ▸ hd.subset
  · exact hd.length_le.trans_eq (congrArg List.length hpool)

section Stages

variable {run : Drawn (Fin (randMax + 1)) (Selecting Peer) Unit}

theorem intra_holds (hp : plan.Proper) (h : plan.Appended s t [] [] [] plan.homeQuota)
    (hstage : StageHolds plan.numPids plan.intra { t with quotas := t.quotas ++ plan.intraQuota }
      plan.numIntra plan.intraSafe run) :
    run.Holds (fun _ => plan.BeforeExt s) (plan.Threw s) (plan.Waits s) := by
  refine hstage.imp ?_ ?_ ?_
  · rintro _ t' ⟨out, hd, hout⟩
    obtain ⟨happended, hcap⟩ := h.addIntra hp hd
    exact ⟨out, happended, hout, hout ▸ hcap⟩
  · rintro t' ⟨⟨out, hd, hout⟩, hnot⟩
    obtain ⟨happended, hcap⟩ := h.addIntra hp hd
    exact .inl ⟨⟨out, happended, le_min hout hcap⟩, hnot⟩
  · rintro t' ⟨out, hd, hout⟩
    obtain ⟨happended, hcap⟩ := h.addIntra hp hd
    exact .inr (.inl ⟨out, happended, le_min hout hcap⟩)

theorem ext_holds (hp : plan.Proper) (h : plan.BeforeExt s t)
    (hstage : StageHolds plan.numPids plan.ext { t with quotas := t.quotas ++ plan.extQuota }
      plan.numExt plan.extSafe run) :
    run.Holds (fun _ => plan.BeforeRandom s) (plan.Threw s) (plan.Waits s) := by
  obtain ⟨intra, h, hintra, hcapIntra⟩ := h
  refine hstage.imp ?_ ?_ ?_
  · rintro _ t' ⟨out, hd, hout⟩
    obtain ⟨happended, hcap⟩ := h.addExt hp hd
    exact ⟨intra, out, happended, hintra, hcapIntra, hout, hout ▸ hcap⟩
  · rintro t' ⟨⟨out, hd, hout⟩, hnot⟩
    obtain ⟨happended, hcap⟩ := h.addExt hp hd
    exact .inr ⟨⟨intra, out, happended, hintra, hcapIntra, le_min hout hcap⟩, hnot⟩
  · rintro t' ⟨out, hd, hout⟩
    obtain ⟨happended, hcap⟩ := h.addExt hp hd
    exact .inr (.inr (.inl ⟨intra, out, happended, hintra, hcapIntra, le_min hout hcap⟩))

/-- The last stage, from all PIDs. -/
theorem random_holds (h : plan.BeforeRandom s t) (rs : List (Fin (randMax + 1))) :
    (selectFrom (pidList (List.range plan.numPids)) plan.numRandom
      { t with quotas := t.quotas ++ plan.randomQuota } rs).Holds
      (fun _ => plan.InRandom s) (plan.Threw s) (plan.Waits s) := by
  obtain ⟨intra, ext, happended, -⟩ := id h
  have hrange : ∀ i ∈ List.range plan.numPids, i < plan.numPids := fun _ => List.mem_range.1
  have hspec := selectFrom_spec (s := { t with quotas := t.quotas ++ plan.randomQuota })
    happended.ready hrange List.nodup_range plan.numRandom rs
  refine hspec.imp ?_ (fun _ => False.elim) ?_
  · rintro _ t' ⟨out, hd, hout⟩
    exact ⟨t, out, h, hd, hout.trans_le (Nat.min_le_left _ _)⟩
  · rintro t' ⟨out, hd, hout⟩
    exact .inr (.inr (.inr ⟨t, out, h, hd, hout.trans (Nat.min_le_left _ _)⟩))

theorem BeforeExt.length (h : plan.BeforeExt s t) :
    t.outPeers.length = s.outPeers.length + plan.numHome + plan.numIntra := by
  obtain ⟨intra, happended, hintra, -⟩ := h
  have hlen := happended.length
  rw [List.length_nil] at hlen
  omega

theorem BeforeRandom.length (h : plan.BeforeRandom s t) : t.outPeers.length =
    s.outPeers.length + plan.numHome + plan.numIntra + plan.numExt := by
  obtain ⟨intra, ext, happended, hintra, -, hext, -⟩ := h
  have hlen := happended.length
  omega

end Stages

end Plan

end Selector

/-! ## The plans of the two functions -/

namespace SelectionContext

open Selector

variable (ctx : SelectionContext Peer ISP Mgr) (view : PerISPPeerDistribution Peer) (peer : Peer)
  (homeIsp : ISP) (home numPeers : Nat) (s : Selecting Peer)

/-- The last stage, and the end. -/
theorem lastStage_holds {plan : Plan Peer} {t : Selecting Peer} {view : PerISPPeerDistribution Peer}
    {prefilled : Nat} (hfound : ctx.manager.ispPeers.views[homeIsp]? = some view)
    (h : plan.BeforeRandom s t) (hpids : (ctx.objects.pidMap homeIsp).numTotalPIDs = plan.numPids)
    (hnumber : missing numPeers prefilled t.outPeers.length = plan.numRandom)
    (hquota : missingQuota numPeers prefilled t.outPeers.length = plan.randomQuota)
    (rs : List (Fin (randMax + 1))) :
    (ctx.lastStage homeIsp numPeers prefilled t rs).Holds
      (fun value t => value = 0 ∧ ∃ u, plan.InRandom s u ∧ t = u.released) (plan.Threw s)
      (plan.Waits s) := by
  unfold lastStage unlock releasePeerDistribution
  simp only [Draws.bind_apply, remaining_apply, Drawn.returned_andThen, hpids, hnumber, hquota]
  refine (Plan.random_holds h rs).andThen fun _ u rest hu => ?_
  simp only [Draws.bind_apply, Draws.modify_apply, Drawn.returned_andThen, hfound, Draws.pure_apply]
  exact ⟨rfl, u, hu, rfl⟩

section Weights

variable (pidPct ispPct : ℚ) (weights : List ℚ)

/-- The plan of `selectPeers` with weights. -/
def weightsPlan : Plan Peer :=
  let map := ctx.objects.pidMap homeIsp
  let prefilled := s.outPeers.length
  let number := truncate (homeShare ctx.arith numPeers pidPct)
  let intra := intraISPPids map view weights home
  let ext := externalPids map view weights home
  let sizeHome := prefilled + homeNumber view peer home number
  let maxIntra := truncate (intraLimit ctx.arith numPeers ispPct prefilled)
  let sizeIntra := sizeHome + fillNumber view intra sizeHome maxIntra
  let maxExt := limit numPeers prefilled
  let sizeExt := sizeIntra + fillNumber view ext sizeIntra maxExt
  { view
    numPids := map.numTotalPIDs
    numPeers
    peer
    home
    number
    intra
    numIntra := fillNumber view intra sizeHome maxIntra
    ext
    numExt := fillNumber view ext sizeIntra maxExt
    numRandom := missing numPeers prefilled sizeExt
    homeQuota := truncatedQuota (homeShare ctx.arith numPeers pidPct)
    intraQuota := truncatedQuota (intraLimit ctx.arith numPeers ispPct prefilled)
    extQuota := limitQuota numPeers prefilled
    randomQuota := missingQuota numPeers prefilled sizeExt
    intraSafe := FillSafe ctx.arith view weights intra sizeHome maxIntra
    extSafe := FillSafe ctx.arith view weights ext sizeIntra maxExt }

variable {ctx view peer homeIsp home numPeers s pidPct ispPct weights}

theorem weightsPlan_proper (hview : view.Buckets)
    (hhome : home < (ctx.objects.pidMap homeIsp).numTotalPIDs) :
    (ctx.weightsPlan view peer homeIsp home numPeers s pidPct ispPct weights).Proper where
  buckets := hview
  nodup := by
    refine List.nodup_cons.2 ⟨fun hmem => ?_, List.nodup_append.2 ⟨?_, ?_, ?_⟩⟩
    · rcases List.mem_append.1 hmem with hmem | hmem <;>
        simp [weightsPlan, intraISPPids, externalPids, passes] at hmem
    · exact List.nodup_range.filter _
    · exact List.nodup_range.filter _
    · rintro i hi j hj rfl
      simp only [weightsPlan, intraISPPids, externalPids, List.mem_filter, Bool.and_eq_true,
        Bool.not_eq_true', decide_eq_true_eq, decide_eq_false_iff_not] at hi hj
      exact hj.2.2 hi.2.2
  valid := by
    intro i hi
    rcases List.mem_cons.1 hi with rfl | hi
    · exact hhome
    rcases List.mem_append.1 hi with hi | hi <;>
      exact List.mem_range.1 (List.mem_filter.1 hi).1

section Stages

variable {plan : Plan Peer} {t : Selecting Peer}

/-- The stage for the intra-ISP PIDs. -/
theorem weights_intra
    (hplan : plan = ctx.weightsPlan view peer homeIsp home numPeers s pidPct ispPct weights)
    (hp : plan.Proper) (h : plan.Appended s t [] [] [] plan.homeQuota)
    (rs : List (Fin (randMax + 1))) :
    StageHolds plan.numPids plan.intra { t with quotas := t.quotas ++ plan.intraQuota }
      plan.numIntra plan.intraSafe
      (fillFrom ctx.arith plan.view weights plan.intra
        (truncate (intraLimit ctx.arith numPeers ispPct s.outPeers.length))
        { t with quotas := t.quotas ++ plan.intraQuota } rs) := by
  have hlen := h.length
  rw [plan.numHome_eq hp.home_lt] at hlen
  have hpasses : ∀ i ∈ plan.intra, passes plan.view weights home i = true := by
    subst hplan
    exact fun i hi => (Bool.and_eq_true_iff.1 (List.mem_filter.1 hi).2).1
  have hstage := fillFrom_stage ctx.arith (s := { t with quotas := t.quotas ++ plan.intraQuota }) h.ready
    (fun _ => hp.intra_lt) hp.nodup_intra hpasses (fun _ => h.left_intra hp)
    (truncate (intraLimit ctx.arith numPeers ispPct s.outPeers.length)) rs
  dsimp only at hstage
  rw [hlen] at hstage
  subst hplan
  exact hstage

/-- The stage for the external PIDs. -/
theorem weights_ext
    (hplan : plan = ctx.weightsPlan view peer homeIsp home numPeers s pidPct ispPct weights)
    (hp : plan.Proper) (h : plan.BeforeExt s t) (rs : List (Fin (randMax + 1))) :
    StageHolds plan.numPids plan.ext { t with quotas := t.quotas ++ plan.extQuota }
      plan.numExt plan.extSafe
      (fillFrom ctx.arith plan.view weights plan.ext (limit numPeers s.outPeers.length)
        { t with quotas := t.quotas ++ plan.extQuota } rs) := by
  have hlen := h.length
  rw [plan.numHome_eq hp.home_lt] at hlen
  obtain ⟨intra, h, -⟩ := h
  have hpasses : ∀ i ∈ plan.ext, passes plan.view weights home i = true := by
    subst hplan
    exact fun i hi => (Bool.and_eq_true_iff.1 (List.mem_filter.1 hi).2).1
  have hstage := fillFrom_stage ctx.arith (s := { t with quotas := t.quotas ++ plan.extQuota }) h.ready
    (fun _ => hp.ext_lt) hp.nodup_ext hpasses (fun _ => h.left_ext hp)
    (limit numPeers s.outPeers.length) rs
  dsimp only at hstage
  rw [hlen] at hstage
  subst hplan
  exact hstage

end Stages

/-- The first stages follow the plan. -/
theorem weightsStages_holds (hview : view.Buckets)
    (hhome : home < (ctx.objects.pidMap homeIsp).numTotalPIDs) (rs : List (Fin (randMax + 1))) :
    (ctx.weightsStages view peer homeIsp home numPeers s.outPeers.length pidPct ispPct weights
      (s.entered.helped view (ctx.objects.pidMap homeIsp).numTotalPIDs numPeers) rs).Holds
      (fun _ =>
        (ctx.weightsPlan view peer homeIsp home numPeers s pidPct ispPct weights).BeforeRandom s)
      ((ctx.weightsPlan view peer homeIsp home numPeers s pidPct ispPct weights).Threw s)
      ((ctx.weightsPlan view peer homeIsp home numPeers s pidPct ispPct weights).Waits s) := by
  let plan := ctx.weightsPlan view peer homeIsp home numPeers s pidPct ispPct weights
  have hp : plan.Proper := weightsPlan_proper hview hhome
  unfold weightsStages
  simp only [Draws.bind_apply, truncated_apply, Drawn.returned_andThen]
  have hfirst := (Plan.home_holds hp s rs).imp (fun _ _ => id)
    (fun t => (False.elim : False → plan.Threw s t)) fun _ => (.inl : _ → plan.Waits s _)
  refine hfirst.andThen fun _ t rs h => ?_
  refine (Plan.intra_holds hp h (weights_intra rfl hp h rs)).andThen fun _ t rs h => ?_
  rw [Draws.bind_apply, withPrefilled_apply, Drawn.returned_andThen]
  exact Plan.ext_holds hp h (weights_ext rfl hp h rs)

theorem selectByWeights_follows (hfound : ctx.manager.ispPeers.views[homeIsp]? = some view)
    (hview : view.Buckets) (hhome : home < (ctx.objects.pidMap homeIsp).numTotalPIDs)
    (rs : List (Fin (randMax + 1))) :
    (ctx.weightsPlan view peer homeIsp home numPeers s pidPct ispPct weights).Follows s
      (ctx.selectByWeights peer homeIsp home numPeers pidPct ispPct weights s rs) := by
  let plan := ctx.weightsPlan view peer homeIsp home numPeers s pidPct ispPct weights
  have hnum : plan.numHome = homeNumber view peer home (truncate (homeShare ctx.arith numPeers pidPct)) :=
    plan.numHome_eq hhome
  rw [selectByWeights_eq ctx _ _ _ _ _ _ hfound]
  refine Draws.holds_bind (weightsStages_holds hview hhome rs) fun _ t rest h => ?_
  have hlen := h.length
  rw [hnum] at hlen
  exact lastStage_holds ctx homeIsp numPeers s hfound h rfl (by rw [hlen]; rfl)
    (by rw [hlen]; rfl) rest

end Weights

section LocationOnly

/-- The sum that `selectPeer` computes for some PIDs that have not been drawn from. -/
def viewStock (view : PerISPPeerDistribution Peer) (is : List Nat) : Int :=
  (is.map fun i : Nat => view.getNumPeers i).sum

/-- The plan of `selectPeersLocationOnly`. -/
def localPlan : Plan Peer :=
  let map := ctx.objects.pidMap homeIsp
  let prefilled := s.outPeers.length
  let number := truncate (homeShare ctx.arith numPeers (ctx.intrapidPct homeIsp))
  let intra := ctx.otherInternalPids homeIsp home
  let ext := ctx.outerPids homeIsp
  let sizeHome := prefilled + homeNumber view peer home number
  let share := intraShare ctx.arith numPeers (ctx.intraispPct homeIsp) prefilled sizeHome
  let sizeIntra := sizeHome + min (truncate share) (viewStock view intra).toNat
  let sizeExt := sizeIntra + min (missing numPeers prefilled sizeIntra) (viewStock view ext).toNat
  { view
    numPids := map.numTotalPIDs
    numPeers
    peer
    home
    number
    intra
    numIntra := min (truncate share) (viewStock view intra).toNat
    ext
    numExt := min (missing numPeers prefilled sizeIntra) (viewStock view ext).toNat
    numRandom := missing numPeers prefilled sizeExt
    homeQuota := truncatedQuota (homeShare ctx.arith numPeers (ctx.intrapidPct homeIsp))
    intraQuota := truncatedQuota share
    extQuota := missingQuota numPeers prefilled sizeIntra
    randomQuota := missingQuota numPeers prefilled sizeExt
    intraSafe := True
    extSafe := True }

variable {ctx view peer homeIsp home numPeers s}

theorem localPlan_proper (hview : view.Buckets)
    (hmap : (ctx.objects.pidMap homeIsp).numIntraISPPIDs ≤
      (ctx.objects.pidMap homeIsp).numTotalPIDs)
    (hint : home < 2 ^ 31) (hhome : home < (ctx.objects.pidMap homeIsp).numIntraISPPIDs) :
    (ctx.localPlan view peer homeIsp home numPeers s).Proper where
  buckets := hview
  nodup := by
    have hself : toUnsigned home = home := toUnsigned_natCast (by omega)
    have houter : ∀ i ∈ ctx.outerPids homeIsp, (ctx.objects.pidMap homeIsp).numIntraISPPIDs ≤ i := by
      intro i hi
      rw [outerPids, List.range_eq_range', List.drop_range', List.mem_range'] at hi
      obtain ⟨k, -, rfl⟩ := hi
      omega
    refine List.nodup_cons.2 ⟨fun hmem => ?_, List.nodup_append.2 ⟨?_, ?_, ?_⟩⟩
    · rcases List.mem_append.1 hmem with hmem | hmem
      · have hne := (List.mem_filter.1 hmem).2
        rw [hself] at hne
        simp [localPlan] at hne
      · exact absurd (houter _ hmem) (not_le.2 hhome)
    · exact List.nodup_range.filter _
    · exact List.nodup_range.sublist (List.drop_sublist _ _)
    · rintro i hi j hj rfl
      have hlt := List.mem_range.1 (List.mem_filter.1 hi).1
      exact absurd (houter _ hj) (not_le.2 hlt)
  valid := by
    intro i hi
    rcases List.mem_cons.1 hi with rfl | hi
    · exact hhome.trans_le hmap
    rcases List.mem_append.1 hi with hi | hi
    · exact (List.mem_range.1 (List.mem_filter.1 hi).1).trans_le hmap
    · exact List.mem_range.1 (List.mem_of_mem_drop hi)

/-- The sum of some PIDs that have not been drawn from. -/
theorem stock_eq {t : Selecting Peer} {is : List Nat} (hview : t.helper.ispPeers = view)
    (hleft : ∀ i ∈ is, t.helper.left i = (view.listPIDPeers i).getD []) :
    stock t.helper is = viewStock view is := by
  unfold stock viewStock
  congr 1
  refine List.map_congr_left fun i hi => ?_
  rw [hleft i hi, hview, PIDPeerSelectionHelper.getNumPeers_eq]
  cases view.listPIDPeers i with
  | none => rfl
  | some peers => rfl

section Stages

variable {plan : Plan Peer} {t : Selecting Peer}

/-- The number of peers to be selected from the intra-ISP PIDs. -/
theorem local_intra (hplan : plan = ctx.localPlan view peer homeIsp home numPeers s)
    (hp : plan.Proper) (h : plan.Appended s t [] [] [] plan.homeQuota)
    (rs : List (Fin (randMax + 1))) :
    StageHolds plan.numPids plan.intra { t with quotas := t.quotas ++ plan.intraQuota }
      plan.numIntra plan.intraSafe
      (selectFrom (pidList plan.intra) (truncate (intraShare ctx.arith numPeers
        (ctx.intraispPct homeIsp) s.outPeers.length t.outPeers.length))
        { t with quotas := t.quotas ++ plan.intraQuota } rs) := by
  have hlen := h.length
  rw [plan.numHome_eq hp.home_lt] at hlen
  have hstock : stock t.helper plan.intra = viewStock plan.view plan.intra :=
    stock_eq h.ispPeers fun _ => h.left_intra hp
  have hstage := selectFrom_stage (s := { t with quotas := t.quotas ++ plan.intraQuota }) h.ready
    (fun _ => hp.intra_lt) hp.nodup_intra (truncate (intraShare ctx.arith numPeers
        (ctx.intraispPct homeIsp) s.outPeers.length t.outPeers.length)) rs
  dsimp only at hstage
  rw [hstock] at hstage
  subst hplan
  rw [hlen] at hstage ⊢
  exact hstage

/-- The stage for the external PIDs. -/
theorem local_ext (hplan : plan = ctx.localPlan view peer homeIsp home numPeers s)
    (hp : plan.Proper) (h : plan.BeforeExt s t) (rs : List (Fin (randMax + 1))) :
    StageHolds plan.numPids plan.ext { t with quotas := t.quotas ++ plan.extQuota }
      plan.numExt plan.extSafe
      (selectFrom (pidList plan.ext) (missing numPeers s.outPeers.length t.outPeers.length)
        { t with quotas := t.quotas ++ plan.extQuota } rs) := by
  have hlen := h.length
  rw [plan.numHome_eq hp.home_lt] at hlen
  obtain ⟨intra, h, -⟩ := h
  have hstock : stock t.helper plan.ext = viewStock plan.view plan.ext :=
    stock_eq h.ispPeers fun _ => h.left_ext hp
  have hstage := selectFrom_stage (s := { t with quotas := t.quotas ++ plan.extQuota }) h.ready
    (fun _ => hp.ext_lt) hp.nodup_ext (missing numPeers s.outPeers.length t.outPeers.length) rs
  dsimp only at hstage
  rw [hstock] at hstage
  subst hplan
  rw [hlen] at hstage ⊢
  exact hstage

end Stages

theorem localStages_holds (hview : view.Buckets)
    (hmap : (ctx.objects.pidMap homeIsp).numIntraISPPIDs ≤
      (ctx.objects.pidMap homeIsp).numTotalPIDs)
    (hint : home < 2 ^ 31) (hhome : home < (ctx.objects.pidMap homeIsp).numIntraISPPIDs)
    (rs : List (Fin (randMax + 1))) :
    (ctx.localStages peer homeIsp home numPeers s.outPeers.length
      (s.entered.helped view (ctx.objects.pidMap homeIsp).numTotalPIDs numPeers) rs).Holds
      (fun _ => (ctx.localPlan view peer homeIsp home numPeers s).BeforeRandom s)
      ((ctx.localPlan view peer homeIsp home numPeers s).Threw s)
      ((ctx.localPlan view peer homeIsp home numPeers s).Waits s) := by
  let plan := ctx.localPlan view peer homeIsp home numPeers s
  have hp : plan.Proper := localPlan_proper hview hmap hint hhome
  unfold localStages
  simp only [Draws.bind_apply, truncated_apply, Drawn.returned_andThen]
  have hfirst := (Plan.home_holds hp s rs).imp (fun _ _ => id)
    (fun t => (False.elim : False → plan.Threw s t)) fun _ => (.inl : _ → plan.Waits s _)
  refine hfirst.andThen fun _ t rs h => ?_
  have hlen : t.outPeers.length = s.outPeers.length +
      homeNumber view peer home (truncate (homeShare ctx.arith numPeers (ctx.intrapidPct homeIsp))) :=
    plan.numHome_eq hp.home_lt ▸ h.length
  have hquota : plan.intraQuota = truncatedQuota (intraShare ctx.arith numPeers
        (ctx.intraispPct homeIsp) s.outPeers.length t.outPeers.length) := by
    rw [hlen]
    rfl
  rw [Draws.bind_apply, Draws.get_apply, Drawn.returned_andThen]
  simp only [Draws.bind_apply, truncated_apply, Drawn.returned_andThen, ← hquota]
  refine (Plan.intra_holds hp h (local_intra rfl hp h rs)).andThen fun _ t rs h => ?_
  have hlen : t.outPeers.length = _ := plan.numHome_eq hp.home_lt ▸ h.length
  have hquota : plan.extQuota = missingQuota numPeers s.outPeers.length t.outPeers.length := by
    rw [hlen]
    rfl
  rw [Draws.bind_apply, remaining_apply, Drawn.returned_andThen, ← hquota]
  exact Plan.ext_holds hp h (local_ext rfl hp h rs)

theorem selectPeersLocationOnly_follows
    (hfound : ctx.manager.ispPeers.views[homeIsp]? = some view) (hview : view.Buckets)
    (hmap : (ctx.objects.pidMap homeIsp).numIntraISPPIDs ≤
      (ctx.objects.pidMap homeIsp).numTotalPIDs)
    (hint : home < 2 ^ 31) (hhome : home < (ctx.objects.pidMap homeIsp).numIntraISPPIDs)
    (rs : List (Fin (randMax + 1))) :
    (ctx.localPlan view peer homeIsp home numPeers s).Follows s
      (ctx.selectPeersLocationOnly peer homeIsp home numPeers s rs) := by
  let plan := ctx.localPlan view peer homeIsp home numPeers s
  have hnum : plan.numHome = homeNumber view peer home
      (truncate (homeShare ctx.arith numPeers (ctx.intrapidPct homeIsp))) :=
    plan.numHome_eq (hhome.trans_le hmap)
  have hinternal : ¬ (ctx.objects.pidMap homeIsp).numIntraISPPIDs ≤ toUnsigned home := by
    rw [toUnsigned_natCast (by omega)]
    omega
  rw [selectPeersLocationOnly_eq ctx _ _ hfound hinternal]
  refine Draws.holds_bind (localStages_holds hview hmap hint hhome rs) fun _ t rest h => ?_
  have hlen := h.length
  rw [hnum] at hlen
  exact lastStage_holds ctx homeIsp numPeers s hfound h rfl (by rw [hlen]; rfl)
    (by rw [hlen]; rfl) rest

end LocationOnly

end SelectionContext

end Alto.Selection
