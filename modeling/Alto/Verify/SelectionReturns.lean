import Alto.Verify.SelectionEnds

/-!
# Selections in a regular distribution

In a `Regular` distribution the numbers of peers do not wrap around, and `rand` can reach each peer. There
both functions can return, with each stage at its number of peers, and `selectPeers` with weights can throw
if one of its stages is not safe.
-/

namespace Alto.Selection

open Common Lib App Guidance

variable {randMax : Nat} {Peer ISP Mgr : Type} [LinearOrder Peer] [LinearOrder ISP]

/-- A distribution with a bucket for each PID, whose numbers of peers do not wrap around, and all of whose
peers `rand` can reach. -/
structure Regular (randMax : Nat) (view : PerISPPeerDistribution Peer) (numPids numPeers : Nat) :
    Prop where
  rand : 0 < randMax
  reachable : Selector.Reachable randMax view
  valid : ∀ i < numPids, 0 ≤ view.getNumPeers i
  few : ((List.range numPids).map fun i : Nat => (view.getNumPeers i).toNat).sum < 2 ^ 32
  small : 4 * (numPeers + 1) < 2 ^ 32

namespace Regular

open Selector

variable {n i numPeers : Nat} {is : List Nat} {view : PerISPPeerDistribution Peer}
  {h : PIDPeerSelectionHelper Peer}

theorem valid_of_sublist (hreg : Regular randMax view n numPeers)
    (hsub : is.Sublist (List.range n)) : ∀ i ∈ is, 0 ≤ view.getNumPeers i :=
  fun i hi => hreg.valid i (List.mem_range.1 (hsub.subset hi))

theorem sum_lt (hreg : Regular randMax view n numPeers) (hsub : is.Sublist (List.range n)) :
    (is.map fun i : Nat => (view.getNumPeers i).toNat).sum < 2 ^ 32 :=
  ((hsub.map _).sum_le_sum fun _ _ => Nat.zero_le _).trans_lt hreg.few

theorem fillCounts_eq (hreg : Regular randMax view n numPeers) (hsub : is.Sublist (List.range n)) :
    fillCounts view is = is.map fun i : Nat => (view.getNumPeers i).toNat :=
  Selector.fillCounts_eq (hreg.valid_of_sublist hsub) (hreg.sum_lt hsub)

/-- A PID is copied that has no more peers than are to be selected. -/
theorem copies (hreg : Regular randMax view n numPeers) (hisp : h.ispPeers = view)
    (htotal : h.totalPeers = toUnsigned (numPeers + 1))
    (hfew : ((view.listPIDPeers i).getD []).length ≤ 4 * (numPeers + 1)) : Copies h i := by
  have hsmall := hreg.small
  have htotal : h.totalPeers = numPeers + 1 := by
    rw [htotal, toUnsigned_of_lt (by omega) (by omega)]
    omega
  intro peers hpeers
  rw [hisp] at hpeers
  rw [hpeers, Option.getD_some] at hfew
  have htimes : toUnsigned (4 * h.totalPeers) = 4 * (numPeers + 1) := by
    rw [htotal]
    exact toUnsigned_natCast hsmall
  rw [htimes]
  exact (toUnsigned_natCast_le _).trans hfew

end Regular

namespace Selector

namespace Plan

variable {plan : Plan Peer} {s t : Selecting Peer}

/-- The peers of the home PID. -/
def homePeers (plan : Plan Peer) : List Peer := (plan.view.listPIDPeers plan.home).getD []

/-- The requesting peer has not been drawn, unless the stage for the home PID has to. -/
def Spares (plan : Plan Peer) (t : Selecting Peer) : Prop :=
  plan.peer ∈ plan.homePeers →
    plan.number ≤ (plan.homePeers.filter fun p => p ≠ plan.peer).length →
    plan.peer ∈ t.helper.left plan.home

theorem start_left (hp : plan.Proper) (s : Selecting Peer) :
    (plan.start s).helper.left plan.home = plan.homePeers :=
  PIDPeerSelectionHelper.left_create hp.home_lt

theorem nodup_homePeers (hp : plan.Proper) : plan.homePeers.Nodup := by
  unfold homePeers
  cases hpeers : plan.view.listPIDPeers plan.home with
  | none => exact List.nodup_nil
  | some peers => exact PIDPeerSelectionHelper.nodup_listPIDPeers hp.buckets hpeers

/-- The peers of the home PID but one. -/
theorem length_filter_homePeers (hp : plan.Proper) (hmem : plan.peer ∈ plan.homePeers) :
    (plan.homePeers.filter fun p => p ≠ plan.peer).length + 1 = plan.homePeers.length := by
  have herase := (nodup_homePeers hp).erase_eq_filter plan.peer
  have hfilter : (plan.homePeers.filter fun p => p ≠ plan.peer) = plan.homePeers.erase plan.peer := by
    rw [herase]
    refine List.filter_congr fun p _ => ?_
    by_cases hself : p = plan.peer <;> simp [hself]
  rw [hfilter, List.length_erase_of_mem hmem]
  have := List.length_pos_of_mem hmem
  omega

/-- The stage for the home PID can return. -/
theorem may_home (hp : plan.Proper) (hreg : Regular randMax plan.view plan.numPids plan.numPeers)
    (hnumber : plan.number ≤ plan.numPeers) (s : Selecting Peer) :
    Draws.May (fun t => t = { plan.start s with quotas := s.quotas ++ plan.homeQuota })
      (selectHome plan.peer plan.home plan.number : Selector randMax Peer Unit)
      (fun _ t => plan.Spares t ∧ plan.Appended s t [] [] [] plan.homeQuota) := by
  let start : Selecting Peer := { plan.start s with quotas := s.quotas ++ plan.homeQuota }
  have hleft : start.helper.left plan.home = plan.homePeers := start_left hp s
  have hr : start.helper.Ready plan.numPids :=
    PIDPeerSelectionHelper.ready_create hp.buckets _ _
  have hends : HomeEnds plan.peer plan.home plan.number start.helper := by
    unfold HomeEnds
    rw [hleft]
    rcases Nat.lt_or_ge (4 * (plan.numPeers + 1)) plan.homePeers.length with hlarge | hfew
    · left
      by_cases hmem : plan.peer ∈ plan.homePeers
      · have hlen := length_filter_homePeers hp hmem
        omega
      · have hall : (plan.homePeers.filter fun p => p ≠ plan.peer) = plan.homePeers := by
          refine List.filter_eq_self.2 fun p hpm => ?_
          exact decide_eq_true fun hself : p = plan.peer => hmem (hself ▸ hpm)
        rw [hall]
        omega
    · exact .inr (hreg.copies rfl rfl hfew)
  refine ((may_selectHome hr hp.home_lt hreg.reachable hends).and_holds
    (Plan.home_holds hp s)).imp (fun _ => id) ?_
  rintro _ t ⟨⟨out, hsparing⟩, happended⟩
  refine ⟨fun hmem hnum => hsparing.spared ?_ ?_, happended⟩
  · exact hleft ▸ hmem
  · exact hleft ▸ hnum

section Stages

variable {run : Selector randMax Peer Unit}

theorem others_of_stage {n number : Nat} {is : List Nat} {safe : Prop}
    {result : Drawn (Fin (randMax + 1)) (Selecting Peer) Unit}
    (hstage : StageHolds n is s number safe result) :
    result.Holds (fun _ t => ∀ j ∉ is, t.helper.left j = s.helper.left j) (fun _ => True)
      (fun _ => True) :=
  hstage.imp (fun _ _ ⟨_, hd, _⟩ => hd.others) (fun _ _ => trivial) fun _ _ => trivial

/-- The second stage can return. -/
theorem may_intra (hp : plan.Proper) (h : plan.Appended s t [] [] [] plan.homeQuota)
    (hspares : plan.Spares t)
    (hstage : ∀ rs, StageHolds plan.numPids plan.intra
      { t with quotas := t.quotas ++ plan.intraQuota } plan.numIntra plan.intraSafe
      (run { t with quotas := t.quotas ++ plan.intraQuota } rs))
    (hmay : Draws.May (fun u => u = { t with quotas := t.quotas ++ plan.intraQuota }) run
      (fun _ _ => True)) :
    Draws.May (fun u => u = { t with quotas := t.quotas ++ plan.intraQuota }) run
      (fun _ u => plan.Spares u ∧ plan.BeforeExt s u) := by
  refine (hmay.and_holds fun rs => (others_of_stage (hstage rs)).and
    (intra_holds hp h (hstage rs))).imp (fun _ => id) ?_
  rintro _ u ⟨-, hothers, hbefore⟩
  refine ⟨fun hmem hnum => ?_, hbefore⟩
  rw [hothers plan.home hp.home_not_mem_intra]
  exact hspares hmem hnum

/-- The third stage can return. -/
theorem may_ext (hp : plan.Proper) (h : plan.BeforeExt s t) (hspares : plan.Spares t)
    (hstage : ∀ rs, StageHolds plan.numPids plan.ext
      { t with quotas := t.quotas ++ plan.extQuota } plan.numExt plan.extSafe
      (run { t with quotas := t.quotas ++ plan.extQuota } rs))
    (hmay : Draws.May (fun u => u = { t with quotas := t.quotas ++ plan.extQuota }) run
      (fun _ _ => True)) :
    Draws.May (fun u => u = { t with quotas := t.quotas ++ plan.extQuota }) run
      (fun _ u => plan.Spares u ∧ plan.BeforeRandom s u) := by
  refine (hmay.and_holds fun rs => (others_of_stage (hstage rs)).and
    (ext_holds hp h (hstage rs))).imp (fun _ => id) ?_
  rintro _ u ⟨-, hothers, hbefore⟩
  refine ⟨fun hmem hnum => ?_, hbefore⟩
  rw [hothers plan.home hp.home_not_mem_ext]
  exact hspares hmem hnum

end Stages

theorem Appended.totalPeers {js : List Nat} {intra ext : List Peer} {quotas : List (ℚ × Nat)}
    (h : plan.Appended s t js intra ext quotas) :
    t.helper.totalPeers = toUnsigned (plan.numPeers + 1) := by
  obtain ⟨⟨first, hc⟩, -⟩ := h
  obtain ⟨k, hdrew⟩ := hc.drew
  exact hdrew.totalPeers

end Plan

end Selector

namespace SelectionContext

open Selector

variable {ctx : SelectionContext Peer ISP Mgr} {view : PerISPPeerDistribution Peer} {peer : Peer}
  {homeIsp : ISP} {home numPeers : Nat} {s t : Selecting Peer} {plan : Plan Peer}

/-- The PID maps have been loaded, so that they count their internal PIDs. The indexes of PIDs are
of the type `int`. The views are kept by their operations. -/
structure Loaded (ctx : SelectionContext Peer ISP Mgr) : Prop where
  buckets : ∀ (isp : ISP) (view : PerISPPeerDistribution Peer),
    ctx.manager.ispPeers.views[isp]? = some view → view.Buckets
  intra_le : ∀ isp : ISP,
    (ctx.objects.pidMap isp).numIntraISPPIDs ≤ (ctx.objects.pidMap isp).numTotalPIDs
  total_le : ∀ isp : ISP, (ctx.objects.pidMap isp).numTotalPIDs ≤ 2 ^ 31
  homePID_lt : ∀ peer : Peer, (ctx.objects.peer peer).homePID < 2 ^ 31

/-- The home PID is an internal one. -/
theorem Loaded.exists_home (h : ctx.Loaded) {homePid : Int} (hlow : -2 ^ 31 ≤ homePid)
    (hhigh : homePid < 2 ^ 31)
    (hinternal : toUnsigned homePid < (ctx.objects.pidMap homeIsp).numIntraISPPIDs) :
    ∃ home : Nat, homePid = home ∧ home < 2 ^ 31 ∧
      home < (ctx.objects.pidMap homeIsp).numIntraISPPIDs := by
  have hintra := h.intra_le homeIsp
  have htotal := h.total_le homeIsp
  unfold toUnsigned at hinternal
  exact ⟨homePid.toNat, by omega, by omega, by omega⟩

/-- The home PID that `selectPeers` hands on. -/
theorem Loaded.exists_route_home (h : ctx.Loaded) {homePid : Int}
    (hroute : ctx.route peer = .locationOnly homeIsp homePid ∨
      ∃ pidPct ispPct weights, ctx.route peer = .byWeights homeIsp homePid pidPct ispPct weights) :
    ∃ home : Nat, homePid = home ∧ home < 2 ^ 31 ∧
      home < (ctx.objects.pidMap homeIsp).numTotalPIDs := by
  obtain ⟨-, hpid, hnonneg, hlt⟩ := route_valid ctx peer hroute
  have hhigh := h.homePID_lt peer
  have htotal := h.total_le homeIsp
  rw [← hpid] at hhigh
  unfold toUnsigned at hlt
  exact ⟨homePid.toNat, by omega, by omega, by omega⟩

/-- The percentages that `setLocationSelectionPercentage` can set. -/
structure Percentages (pidPct ispPct : ℚ) : Prop where
  nonneg : 0 ≤ pidPct
  le : pidPct ≤ ispPct
  le_one : ispPct ≤ 1

/-- A share of the peers is rounded to no more than all of them. -/
theorem Percentages.round_mem (fp : Rounding) {pidPct ispPct : ℚ} (hpct : Percentages pidPct ispPct)
    (hn : numPeers < 2 ^ 32) :
    0 ≤ fp.mul numPeers pidPct ∧ fp.mul numPeers pidPct ≤ fp.mul numPeers ispPct ∧
      fp.mul numPeers ispPct ≤ numPeers := by
  have hpos : (0 : ℚ) ≤ numPeers := Nat.cast_nonneg _
  refine ⟨fp.round_nonneg (mul_nonneg hpos hpct.nonneg),
    fp.mono (mul_le_mul_of_nonneg_left hpct.le hpos), ?_⟩
  calc fp.mul numPeers ispPct ≤ fp.round numPeers :=
        fp.mono (mul_le_of_le_one_right hpos hpct.le_one)
    _ = numPeers := fp.round_natCast (by omega)

/-- The share of the home PID is not greater than the number of peers. -/
theorem Percentages.number_range (fp : Rounding) {pidPct ispPct : ℚ}
    (hpct : Percentages pidPct ispPct) (hn : numPeers < 2 ^ 32) :
    0 ≤ homeShare fp numPeers pidPct ∧ homeShare fp numPeers pidPct ≤ numPeers + 1 / 2 := by
  obtain ⟨hnonneg, hle, hmax⟩ := hpct.round_mem fp hn
  refine ⟨?_, fp.add_half_le (by omega) (hle.trans hmax)⟩
  have hhalf := fp.half_le_add hnonneg
  unfold homeShare
  linarith

theorem Percentages.number_le (fp : Rounding) {pidPct ispPct : ℚ}
    (hpct : Percentages pidPct ispPct) (hn : numPeers < 2 ^ 32) :
    truncate (homeShare fp numPeers pidPct) ≤ numPeers := by
  obtain ⟨hnonneg, hle⟩ := hpct.number_range fp hn
  exact truncate_le hnonneg (by linarith) hn

/-- The limit for the intra-ISP PIDs is not greater than that for all PIDs. -/
theorem Percentages.maxIntra (fp : Rounding) {pidPct ispPct : ℚ} {prefilled : Nat}
    (hpct : Percentages pidPct ispPct) (hprefilled : prefilled < 2 ^ 31)
    (hlimit : numPeers + prefilled < 2 ^ 32) :
    0 ≤ intraLimit fp numPeers ispPct prefilled ∧
      intraLimit fp numPeers ispPct prefilled ≤ numPeers + prefilled + 1 / 2 ∧
      truncate (intraLimit fp numPeers ispPct prefilled) ≤ numPeers + prefilled := by
  obtain ⟨hnonneg, hle, hmax⟩ := hpct.round_mem fp (show numPeers < 2 ^ 32 by omega)
  have hlen : (0 : ℚ) ≤ prefilled := Nat.cast_nonneg _
  have hsum : fp.add (fp.mul numPeers ispPct) prefilled ≤ ((numPeers + prefilled : Nat) : ℚ) := by
    calc fp.add (fp.mul numPeers ispPct) prefilled ≤ fp.round ((numPeers + prefilled : Nat) : ℚ) := by
          refine fp.mono ?_
          push_cast
          linarith
      _ = _ := fp.round_natCast (by omega)
  have hsumNonneg : 0 ≤ fp.add (fp.mul numPeers ispPct) prefilled :=
    fp.round_nonneg (add_nonneg (hnonneg.trans hle) hlen)
  have hhalf := fp.half_le_add hsumNonneg
  have htop := fp.add_half_le (by omega) hsum
  unfold intraLimit
  rw [toInt_of_lt hprefilled, fp.mul_swap ispPct, Int.cast_natCast]
  push_cast at htop ⊢
  refine ⟨by linarith, htop, truncate_le (by linarith) ?_ hlimit⟩
  push_cast
  linarith

/-- The distribution of an ISP, if there is one, is regular. -/
def RegularAt (ctx : SelectionContext Peer ISP Mgr) (randMax : Nat) (homeIsp : ISP) (numPeers : Nat) :
    Prop :=
  ∀ view, ctx.manager.ispPeers.views[homeIsp]? = some view →
    Regular randMax view (ctx.objects.pidMap homeIsp).numTotalPIDs numPeers

/-- The distribution of the home ISP of a peer is regular. -/
def RegularFor (ctx : SelectionContext Peer ISP Mgr) (randMax : Nat) (peer : Peer) (numPeers : Nat) :
    Prop :=
  match ctx.route peer with
  | .refused => True
  | .locationOnly homeIsp _ => ctx.RegularAt randMax homeIsp numPeers
  | .byWeights homeIsp _ _ _ _ => ctx.RegularAt randMax homeIsp numPeers

/-- The percentages that a selection for a peer works with are such percentages. -/
def PercentagesFor (ctx : SelectionContext Peer ISP Mgr) (peer : Peer) : Prop :=
  match ctx.route peer with
  | .refused => True
  | .locationOnly homeIsp _ => Percentages
      (ofDouble (ctx.manager.getConfiguredOptions homeIsp).intrapidPct)
      (ofDouble (ctx.manager.getConfiguredOptions homeIsp).intraispPct)
  | .byWeights _ _ pidPct ispPct _ => Percentages pidPct ispPct

/-- The last stage can return. -/
theorem may_lastStage (hfound : ctx.manager.ispPeers.views[homeIsp]? = some view)
    (h : plan.BeforeRandom s t) (hreg : Selector.Reachable randMax plan.view)
    (hpids : (ctx.objects.pidMap homeIsp).numTotalPIDs = plan.numPids) (numPeers prefilled : Nat) :
    Draws.May (fun u => u = t) (ctx.lastStage homeIsp numPeers prefilled : Selector randMax Peer Int)
      (fun _ _ => True) := by
  obtain ⟨intra, ext, happended, -⟩ := h
  unfold lastStage unlock releasePeerDistribution
  rw [hpids]
  refine Draws.may_bind_eq (remaining_apply _ · _ _) ?_
  have hrange : ∀ i ∈ List.range plan.numPids, i < plan.numPids := fun _ => List.mem_range.1
  have hview : Reachable randMax t.helper.ispPeers := by
    rw [happended.ispPeers]
    exact hreg
  have hselect := may_selectFrom (s := t.noted (missingQuota numPeers prefilled t.outPeers.length))
    happended.ready hrange List.nodup_range hview (missing numPeers prefilled t.outPeers.length)
  refine hselect.bind_at fun _ _ _ => ?_
  rintro u rfl
  refine ⟨[], 0, u.released, trivial, fun rest => ?_⟩
  simp only [Draws.bind_apply, Draws.modify_apply, Drawn.returned_andThen, hfound, Draws.pure_apply]
  rfl

section Weights

variable {pidPct ispPct : ℚ} {weights : List ℚ}

section Stages

variable (hplan : plan = ctx.weightsPlan view peer homeIsp home numPeers s pidPct ispPct weights)
  (hp : plan.Proper) (hreg : Regular randMax plan.view plan.numPids plan.numPeers)

include hplan in
theorem intra_sublist : plan.intra.Sublist (List.range plan.numPids) := by
  subst hplan
  exact List.filter_sublist

include hplan in
theorem ext_sublist : plan.ext.Sublist (List.range plan.numPids) := by
  subst hplan
  exact List.filter_sublist

include hplan hp hreg

/-- The arguments of `fillPeers` for the intra-ISP PIDs. -/
theorem filling_intra (h : plan.Appended s t [] [] [] plan.homeQuota) :
    Filling plan.numPids { t with quotas := t.quotas ++ plan.intraQuota } plan.intra
      (fillCounts plan.view plan.intra) (plan.intra.map fun i => (weights[i]?).getD 0) := by
  have hsub := intra_sublist hplan
  have hpasses : ∀ i ∈ plan.intra, passes plan.view weights home i = true := by
    subst hplan
    exact fun i hi => (Bool.and_eq_true_iff.1 (List.mem_filter.1 hi).2).1
  exact filling_of_passes h.ready (fun _ => hp.intra_lt) hp.nodup_intra hpasses
    (fun _ => h.left_intra hp) (hreg.valid_of_sublist hsub) (hreg.sum_lt hsub)

/-- The arguments of `fillPeers` for the external PIDs. -/
theorem filling_ext (h : plan.BeforeExt s t) :
    Filling plan.numPids { t with quotas := t.quotas ++ plan.extQuota } plan.ext
      (fillCounts plan.view plan.ext) (plan.ext.map fun i => (weights[i]?).getD 0) := by
  have hsub := ext_sublist hplan
  obtain ⟨intra, h, -⟩ := h
  have hpasses : ∀ i ∈ plan.ext, passes plan.view weights home i = true := by
    subst hplan
    exact fun i hi => (Bool.and_eq_true_iff.1 (List.mem_filter.1 hi).2).1
  exact filling_of_passes h.ready (fun _ => hp.ext_lt) hp.nodup_ext hpasses
    (fun _ => h.left_ext hp) (hreg.valid_of_sublist hsub) (hreg.sum_lt hsub)

/-- The stage for the intra-ISP PIDs can return. -/
theorem may_weights_intra (h : plan.Appended s t [] [] [] plan.homeQuota) (hspares : plan.Spares t) :
    Draws.May (fun u => u = { t with quotas := t.quotas ++ plan.intraQuota })
      (fillFrom ctx.arith plan.view weights plan.intra
        (truncate (intraLimit ctx.arith numPeers ispPct s.outPeers.length)) : Selector randMax Peer Unit)
      (fun _ u => plan.Spares u ∧ plan.BeforeExt s u) := by
  have hsub := intra_sublist hplan
  have hview : Reachable randMax t.helper.ispPeers := by
    rw [h.ispPeers]
    exact hreg.reachable
  refine Plan.may_intra hp h hspares (weights_intra hplan hp h) ?_
  refine may_fillFrom (filling_intra hplan hp hreg h) hview ?_
  rw [hreg.fillCounts_eq hsub]
  exact hreg.sum_lt hsub

/-- The stage for the external PIDs can return. -/
theorem may_weights_ext (h : plan.BeforeExt s t) (hspares : plan.Spares t) :
    Draws.May (fun u => u = { t with quotas := t.quotas ++ plan.extQuota })
      (fillFrom ctx.arith plan.view weights plan.ext (limit numPeers s.outPeers.length) :
        Selector randMax Peer Unit)
      (fun _ u => plan.Spares u ∧ plan.BeforeRandom s u) := by
  have hsub := ext_sublist hplan
  obtain ⟨intra, happended, -⟩ := id h
  have hview : Reachable randMax t.helper.ispPeers := by
    rw [happended.ispPeers]
    exact hreg.reachable
  refine Plan.may_ext hp h hspares (weights_ext hplan hp h) ?_
  refine may_fillFrom (filling_ext hplan hp hreg h) hview ?_
  rw [hreg.fillCounts_eq hsub]
  exact hreg.sum_lt hsub

end Stages

section Whole

variable (hview : view.Buckets) (hhome : home < (ctx.objects.pidMap homeIsp).numTotalPIDs)
  (hreg : Regular randMax view (ctx.objects.pidMap homeIsp).numTotalPIDs numPeers)
  (hpct : Percentages pidPct ispPct)

include hview hhome hreg hpct

/-- The first stages can return, and spare the requesting peer. -/
theorem may_weightsStages :
    Draws.May (fun u => u = s.entered.helped view (ctx.objects.pidMap homeIsp).numTotalPIDs numPeers)
      (ctx.weightsStages view peer homeIsp home numPeers s.outPeers.length pidPct ispPct weights :
        Selector randMax Peer Unit)
      (fun _ u =>
        (ctx.weightsPlan view peer homeIsp home numPeers s pidPct ispPct weights).Spares u ∧
        (ctx.weightsPlan view peer homeIsp home numPeers s pidPct ispPct weights).BeforeRandom s u) := by
  have hp : (ctx.weightsPlan view peer homeIsp home numPeers s pidPct ispPct weights).Proper :=
    weightsPlan_proper hview hhome
  have hsmall := hreg.small
  unfold weightsStages
  refine Draws.may_bind_eq (truncated_apply _ · _) ?_
  refine (Plan.may_home hp hreg (hpct.number_le _ (by omega)) s).bind_at fun _ t h => ?_
  refine Draws.may_bind_eq (truncated_apply _ · _) ?_
  refine (may_weights_intra rfl hp hreg h.2 h.1).bind_at fun _ t h => ?_
  refine Draws.may_bind_eq (withPrefilled_apply _ · _ _) ?_
  exact may_weights_ext rfl hp hreg h.2 h.1

variable (hfound : ctx.manager.ispPeers.views[homeIsp]? = some view)

include hfound

/-- `selectPeers` with weights can return. -/
theorem may_selectByWeights :
    Draws.May (fun u => u = s)
      (ctx.selectByWeights peer homeIsp home numPeers pidPct ispPct weights : Selector randMax Peer Int)
      (fun _ _ => True) := by
  rintro s rfl
  have hstages : Draws.May _ (ctx.weightsStages view peer homeIsp home numPeers s.outPeers.length
      pidPct ispPct weights : Selector randMax Peer Unit) _ :=
    may_weightsStages hview hhome hreg hpct
  have hmay := hstages.bind_at fun _ t h =>
    may_lastStage hfound h.2 hreg.reachable rfl numPeers s.outPeers.length
  obtain ⟨rs, value, t, -, hrun⟩ := hmay _ rfl
  refine ⟨rs, value, t, trivial, fun rest => ?_⟩
  rw [selectByWeights_eq ctx _ _ _ _ _ _ hfound]
  exact hrun rest

end Whole

end Weights

section LocationOnly

/-- The percentages that `selectPeersLocationOnly` works with are in order if the configured ones
are. -/
theorem Percentages.configured (h : Percentages
    (ofDouble (ctx.manager.getConfiguredOptions homeIsp).intrapidPct)
    (ofDouble (ctx.manager.getConfiguredOptions homeIsp).intraispPct)) :
    Percentages (ctx.intrapidPct homeIsp) (ctx.intraispPct homeIsp) := by
  unfold intrapidPct
  split
  · exact ⟨h.nonneg.trans h.le, le_refl _, h.le_one⟩
  · exact ⟨h.nonneg, h.le, h.le_one⟩

variable (hview : view.Buckets)
  (hmap : (ctx.objects.pidMap homeIsp).numIntraISPPIDs ≤ (ctx.objects.pidMap homeIsp).numTotalPIDs)
  (hint : home < 2 ^ 31) (hhome : home < (ctx.objects.pidMap homeIsp).numIntraISPPIDs)
  (hreg : Regular randMax view (ctx.objects.pidMap homeIsp).numTotalPIDs numPeers)
  (hpct : Percentages (ctx.intrapidPct homeIsp) (ctx.intraispPct homeIsp))

include hview hmap hint hhome hreg hpct

/-- The first stages can return, and spare the requesting peer. -/
theorem may_localStages :
    Draws.May (fun u => u = s.entered.helped view (ctx.objects.pidMap homeIsp).numTotalPIDs numPeers)
      (ctx.localStages peer homeIsp home numPeers s.outPeers.length : Selector randMax Peer Unit)
      (fun _ u => (ctx.localPlan view peer homeIsp home numPeers s).Spares u ∧
        (ctx.localPlan view peer homeIsp home numPeers s).BeforeRandom s u) := by
  let plan := ctx.localPlan view peer homeIsp home numPeers s
  have hp : plan.Proper := localPlan_proper hview hmap hint hhome
  have hreg' : Regular randMax plan.view plan.numPids plan.numPeers := hreg
  have hsmall := hreg.small
  unfold localStages
  refine Draws.may_bind_eq (truncated_apply _ · _) ?_
  refine (Plan.may_home hp hreg' (hpct.number_le _ (by omega)) s).bind_at fun _ t h => ?_
  obtain ⟨hspares, h⟩ := h
  have hlen : t.outPeers.length = s.outPeers.length +
      homeNumber view peer home (truncate (homeShare ctx.arith numPeers (ctx.intrapidPct homeIsp))) :=
    plan.numHome_eq hp.home_lt ▸ h.length
  have hreach : Reachable randMax t.helper.ispPeers := by
    rw [h.ispPeers]
    exact hreg.reachable
  have hquota : truncatedQuota (intraShare ctx.arith numPeers
      (ctx.intraispPct homeIsp) s.outPeers.length t.outPeers.length) = plan.intraQuota := by
    rw [hlen]
    rfl
  refine Draws.may_bind_eq (Draws.get_apply _) ?_
  refine Draws.may_bind_eq (truncated_apply _ · _) ?_
  rw [hquota]
  refine Draws.May.bind_at (Plan.may_intra hp h hspares (local_intra rfl hp h)
    (may_selectFrom (s := { t with quotas := t.quotas ++ plan.intraQuota }) h.ready
      (fun _ => hp.intra_lt) hp.nodup_intra hreach _)) fun _ t h => ?_
  obtain ⟨hspares, h⟩ := h
  have hlen : t.outPeers.length = _ := plan.numHome_eq hp.home_lt ▸ h.length
  have hquota : missingQuota numPeers s.outPeers.length t.outPeers.length = plan.extQuota := by
    rw [hlen]
    rfl
  obtain ⟨intra, happended, -⟩ := id h
  have hreach : Reachable randMax t.helper.ispPeers := by
    rw [happended.ispPeers]
    exact hreg.reachable
  refine Draws.may_bind_eq (remaining_apply _ · _ _) ?_
  rw [hquota]
  exact Plan.may_ext hp h hspares (local_ext rfl hp h)
    (may_selectFrom (s := { t with quotas := t.quotas ++ plan.extQuota }) happended.ready
      (fun _ => hp.ext_lt) hp.nodup_ext hreach _)

/-- `selectPeersLocationOnly` can return. -/
theorem may_selectPeersLocationOnly (hfound : ctx.manager.ispPeers.views[homeIsp]? = some view) :
    Draws.May (fun u => u = s)
      (ctx.selectPeersLocationOnly peer homeIsp home numPeers : Selector randMax Peer Int)
      (fun _ _ => True) := by
  rintro s rfl
  have hinternal : ¬ (ctx.objects.pidMap homeIsp).numIntraISPPIDs ≤ toUnsigned home := by
    rw [toUnsigned_natCast (by omega)]
    omega
  have hstages : Draws.May _ (ctx.localStages peer homeIsp home numPeers s.outPeers.length :
      Selector randMax Peer Unit) _ :=
    may_localStages hview hmap hint hhome hreg hpct
  have hmay := hstages.bind_at fun _ t h =>
    may_lastStage hfound h.2 hreg.reachable rfl numPeers s.outPeers.length
  obtain ⟨rs, value, t, -, hrun⟩ := hmay _ rfl
  refine ⟨rs, value, t, trivial, fun rest => ?_⟩
  rw [selectPeersLocationOnly_eq ctx _ _ hfound hinternal]
  exact hrun rest

end LocationOnly

end SelectionContext

/-! ## A small swarm -/

/-- Three PIDs, with the peers 0 and 3, the peers 1 and 4, and the peer 2. -/
def threePids : PerISPPeerDistribution Nat :=
  ({} : PerISPPeerDistribution Nat).addAll 3 (fun p => (p : Int) % 3)
    [(0, {}), (1, {}), (2, {}), (3, {}), (4, {})]

/-- A PID map with three PIDs, the last of which can be external. -/
def threePidMap (external : Bool) : ISPPIDMap :=
  .ofPrefixes (fun _ _ => false)
    [(⟨"isp", 1, false⟩, []), (⟨"isp", 2, false⟩, []), (⟨"isp", 3, external⟩, [])]

/-- An ISP with these PIDs, and with the same guidance for each of them. -/
def smallSwarm (arith : Rounding) (external : Bool) (opttype : OptType) (pidPct ispPct : ℚ)
    (weights : List ℚ) : SelectionContext Nat Nat Nat where
  objects :=
    { pidMap := fun _ => threePidMap external
      peer := fun p =>
        { ipAddress := .ofRaw .inet [] 0, homeISP := some 0, homePID := (p : Int) % 3 }
      ispManager := fun _ => ∅ }
  manager :=
    { ispPeers := { views := (∅ : StdMap Nat _).insert 0 threePids }
      guidanceOptsDefault := { opttype, intrapidPct := .fin pidPct, intraispPct := .fin ispPct }
      guidance := (∅ : StdMap Nat (Option Nat)).insert 0 (some 0) }
  tables := fun _ =>
    { options := { opttype }
      weights := [weights, weights, weights]
      intrapidPcts := [pidPct, pidPct, pidPct]
      intraispPcts := [ispPct, ispPct, ispPct] }
  arith

theorem buckets_threePids : threePids.Buckets :=
  PerISPPeerDistribution.buckets_empty.addAll _ _ _

theorem loaded_smallSwarm (arith : Rounding) (external : Bool) (opttype : OptType) (pidPct ispPct : ℚ)
    (weights : List ℚ) : (smallSwarm arith external opttype pidPct ispPct weights).Loaded where
  buckets isp view hview := by
    have hview : ((∅ : StdMap Nat (PerISPPeerDistribution Nat)).insert 0 threePids)[isp]? =
      some view := hview
    rw [Std.ExtTreeMap.getElem?_insert] at hview
    split at hview
    · cases hview
      exact buckets_threePids
    · simp at hview
  intra_le _ := by
    change (threePidMap external).numIntraISPPIDs ≤ (threePidMap external).numTotalPIDs
    cases external <;> decide
  total_le _ := by
    change (threePidMap external).numTotalPIDs ≤ 2 ^ 31
    exact (by decide : 3 ≤ 2 ^ 31)
  homePID_lt p := by
    change (p : Int) % 3 < 2 ^ 31
    omega

end Alto.Selection
