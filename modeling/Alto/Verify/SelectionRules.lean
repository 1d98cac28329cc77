import Alto.Verify.FillPeers

/-!
# Rules for the selection of peers

A run of `selectByWeights` or of `selectPeersLocationOnly` behind its checks is one stage after the
other, between a state that takes the locks and one that gives them back. What is to be shown of a run
is shown stage by stage.
-/

namespace Alto.Selection

open Common Lib App Guidance

variable {randMax : Nat} {Peer ISP Mgr : Type} [LinearOrder Peer] [LinearOrder ISP]

/-! ## The states between the stages -/

namespace Selecting

/-- Both locks are taken. -/
def entered (s : Selecting Peer) : Selecting Peer :=
  { s with peersLocks := s.peersLocks + 1, viewsLocks := s.viewsLocks + 1 }

/-- Both locks are given back. -/
def released (s : Selecting Peer) : Selecting Peer :=
  { s with peersLocks := s.peersLocks - 1, viewsLocks := s.viewsLocks - 1 }

/-- A helper is created. -/
def helped (s : Selecting Peer) (view : PerISPPeerDistribution Peer) (numPids numPeers : Nat) :
    Selecting Peer :=
  { s with helper := .create view numPids (toUnsigned (numPeers + 1)) }

/-- Quotas are recorded. -/
def noted (s : Selecting Peer) (quotas : List (ℚ × Nat)) : Selecting Peer :=
  { s with quotas := s.quotas ++ quotas }

end Selecting

/-- `num_peers + num_prefilled`, as `unsigned int`. -/
def limit (numPeers prefilled : Nat) : Nat :=
  toUnsigned (numPeers + (toUnsigned (toInt prefilled) : Int))

theorem toInt_of_lt {n : Nat} (h : n < 2 ^ 31) : toInt n = n := by
  unfold toInt
  rw [Int.bmod_def]
  split <;> omega

/-- The limit does not wrap around. -/
theorem limit_eq {numPeers prefilled : Nat} (hprefilled : prefilled < 2 ^ 31)
    (h : numPeers + prefilled < 2 ^ 32) : limit numPeers prefilled = numPeers + prefilled := by
  rw [limit, toInt_of_lt hprefilled, toUnsigned_natCast (by omega), ← Nat.cast_add,
    toUnsigned_natCast h]

/-- The number of peers that are missing. -/
def missing (numPeers prefilled size : Nat) : Nat :=
  toUnsigned (((limit numPeers prefilled : Int) - size) % 2 ^ 64)

/-- What is recorded for a `double` that is converted. -/
def truncatedQuota (x : ℚ) : List (ℚ × Nat) := [(x, truncate x)]

/-- What is recorded for `num_peers + num_prefilled`. -/
def limitQuota (numPeers prefilled : Nat) : List (ℚ × Nat) :=
  [((toInt prefilled : ℚ), toUnsigned (toInt prefilled)),
    ((numPeers : ℚ) + toUnsigned (toInt prefilled), limit numPeers prefilled)]

/-- What is recorded for the number of peers that are missing. -/
def missingQuota (numPeers prefilled size : Nat) : List (ℚ × Nat) :=
  limitQuota numPeers prefilled ++
    [((limit numPeers prefilled : ℚ) - size, missing numPeers prefilled size)]

namespace Selector

variable (s : Selecting Peer) (rs : List (Fin (randMax + 1))) (numPeers prefilled : Nat)

theorem truncated_apply (x : ℚ) :
    truncated x s rs = .returned (truncate x) (s.noted (truncatedQuota x)) rs :=
  rfl

theorem withPrefilled_apply : withPrefilled numPeers prefilled s rs =
    .returned (limit numPeers prefilled) (s.noted (limitQuota numPeers prefilled)) rs := by
  unfold withPrefilled quota
  simp only [Draws.bind_apply, Draws.modify_apply, Draws.pure_apply, Drawn.returned_andThen,
    List.append_assoc]
  rfl

theorem remaining_apply : remaining numPeers prefilled s rs =
    .returned (missing numPeers prefilled s.outPeers.length)
      (s.noted (missingQuota numPeers prefilled s.outPeers.length)) rs := by
  unfold remaining quota
  simp only [Draws.bind_apply, withPrefilled_apply, Drawn.returned_andThen, Draws.get_apply,
    Draws.modify_apply, Draws.pure_apply]
  unfold Selecting.noted missingQuota
  simp only [List.append_assoc]
  rfl

end Selector

namespace SelectionContext

variable (ctx : SelectionContext Peer ISP Mgr) (view : PerISPPeerDistribution Peer) (peer : Peer)
  (homeIsp : ISP) (homePid : Int) (numPeers prefilled : Nat)

/-! ## The stages of the two functions -/

/-- The last stage, behind which the locks are given back. -/
def lastStage : Selector randMax Peer Int := do
  let numRandom ← Selector.remaining numPeers prefilled
  Selector.selectFrom (Selector.pidList (List.range (ctx.objects.pidMap homeIsp).numTotalPIDs))
    numRandom
  unlock
  ctx.releasePeerDistribution homeIsp
  pure 0

section Weights

variable (pidPct ispPct : ℚ) (weights : List ℚ)

/-- The first stages of `selectPeers` with weights. -/
def weightsStages : Selector randMax Peer Unit := do
  let numIntrapid ← Selector.truncated (Selector.homeShare ctx.arith numPeers pidPct)
  Selector.selectHome peer homePid numIntrapid
  let maxIntraisp ← Selector.truncated (Selector.intraLimit ctx.arith numPeers ispPct prefilled)
  fillFrom ctx.arith view weights (intraISPPids (ctx.objects.pidMap homeIsp) view weights homePid)
    maxIntraisp
  let maxExternal ← Selector.withPrefilled numPeers prefilled
  fillFrom ctx.arith view weights (externalPids (ctx.objects.pidMap homeIsp) view weights homePid)
    maxExternal

variable {view homeIsp}

theorem selectByWeights_none (hview : ctx.manager.ispPeers.views[homeIsp]? = none)
    (s : Selecting Peer) (rs : List (Fin (randMax + 1))) :
    ctx.selectByWeights peer homeIsp homePid numPeers pidPct ispPct weights s rs =
      .returned errGuidanceUnavailable s rs := by
  have hlocks : s.viewsLocks + 1 - 1 = s.viewsLocks := by omega
  unfold selectByWeights getPeerDistribution
  simp only [Draws.bind_apply, Draws.modify_apply, Draws.pure_apply, Drawn.returned_andThen, hview,
    hlocks]

theorem selectByWeights_eq (hview : ctx.manager.ispPeers.views[homeIsp]? = some view)
    (s : Selecting Peer) (rs : List (Fin (randMax + 1))) :
    ctx.selectByWeights peer homeIsp homePid numPeers pidPct ispPct weights s rs =
      (ctx.weightsStages view peer homeIsp homePid numPeers s.outPeers.length pidPct ispPct weights
        >>= fun _ => ctx.lastStage homeIsp numPeers s.outPeers.length)
        (s.entered.helped view (ctx.objects.pidMap homeIsp).numTotalPIDs numPeers) rs := by
  unfold selectByWeights getPeerDistribution lock weightsStages lastStage
  simp only [bind_assoc]
  simp only [Draws.bind_apply, Draws.modify_apply, Draws.pure_apply, Draws.get_apply,
    Drawn.returned_andThen, hview]
  rfl

end Weights

section LocationOnly

/-- The percentage of intra-ISP peers that `selectPeersLocationOnly` works with. -/
def intraispPct : ℚ := ofDouble (ctx.manager.getConfiguredOptions homeIsp).intraispPct

/-- Its percentage of intra-PID peers. -/
def intrapidPct : ℚ :=
  if ctx.intraispPct homeIsp < ofDouble (ctx.manager.getConfiguredOptions homeIsp).intrapidPct ∨
      ((ctx.objects.pidMap homeIsp).pids.filter fun pid => !pid.external).length = 1 then
    ctx.intraispPct homeIsp
  else ofDouble (ctx.manager.getConfiguredOptions homeIsp).intrapidPct

/-- The internal PIDs but the home PID. -/
def otherInternalPids : List Nat :=
  (List.range (ctx.objects.pidMap homeIsp).numIntraISPPIDs).filter fun i => i ≠ toUnsigned homePid

/-- The PIDs behind the internal ones. -/
def outerPids : List Nat :=
  (List.range (ctx.objects.pidMap homeIsp).numTotalPIDs).drop
    (ctx.objects.pidMap homeIsp).numIntraISPPIDs

/-- The first stages of `selectPeersLocationOnly`. -/
def localStages : Selector randMax Peer Unit := do
  let numIntrapid ← Selector.truncated
    (Selector.homeShare ctx.arith numPeers (ctx.intrapidPct homeIsp))
  Selector.selectHome peer homePid numIntrapid
  let size := (← Draws.get).outPeers.length
  let numIntraisp ← Selector.truncated
    (Selector.intraShare ctx.arith numPeers (ctx.intraispPct homeIsp) prefilled size)
  Selector.selectFrom (Selector.pidList (ctx.otherInternalPids homeIsp homePid)) numIntraisp
  let numExternal ← Selector.remaining numPeers prefilled
  Selector.selectFrom (Selector.pidList (ctx.outerPids homeIsp)) numExternal

variable {view homeIsp homePid}

theorem selectPeersLocationOnly_none (hview : ctx.manager.ispPeers.views[homeIsp]? = none)
    (s : Selecting Peer) (rs : List (Fin (randMax + 1))) :
    ctx.selectPeersLocationOnly peer homeIsp homePid numPeers s rs =
      .returned errGuidanceUnavailable s rs := by
  have hlocks : s.viewsLocks + 1 - 1 = s.viewsLocks := by omega
  unfold selectPeersLocationOnly getPeerDistribution
  simp only [Draws.bind_apply, Draws.modify_apply, Draws.pure_apply, Drawn.returned_andThen, hview,
    hlocks]

/-- For an external PID the locks are kept. -/
theorem selectPeersLocationOnly_external (hview : ctx.manager.ispPeers.views[homeIsp]? = some view)
    (hhome : (ctx.objects.pidMap homeIsp).numIntraISPPIDs ≤ toUnsigned homePid)
    (s : Selecting Peer) (rs : List (Fin (randMax + 1))) :
    ctx.selectPeersLocationOnly peer homeIsp homePid numPeers s rs =
      .returned errGuidanceUnavailable s.entered rs := by
  unfold selectPeersLocationOnly getPeerDistribution lock
  simp only [Draws.bind_apply, Draws.modify_apply, Draws.pure_apply, Draws.get_apply,
    Drawn.returned_andThen, hview, if_pos hhome]
  rfl

theorem selectPeersLocationOnly_eq (hview : ctx.manager.ispPeers.views[homeIsp]? = some view)
    (hinternal : ¬ (ctx.objects.pidMap homeIsp).numIntraISPPIDs ≤ toUnsigned homePid)
    (s : Selecting Peer) (rs : List (Fin (randMax + 1))) :
    ctx.selectPeersLocationOnly peer homeIsp homePid numPeers s rs =
      (ctx.localStages peer homeIsp homePid numPeers s.outPeers.length
        >>= fun _ => ctx.lastStage homeIsp numPeers s.outPeers.length)
        (s.entered.helped view (ctx.objects.pidMap homeIsp).numTotalPIDs numPeers) rs := by
  unfold selectPeersLocationOnly getPeerDistribution lock localStages lastStage
  simp only [bind_assoc]
  simp only [Draws.bind_apply, Draws.modify_apply, Draws.pure_apply, Draws.get_apply,
    Drawn.returned_andThen, hview, if_neg hinternal]
  rfl

end LocationOnly

/-! ## The way of a selection -/

/-- What `selectPeers` hands a request to. -/
inductive Route (ISP : Type) where
  | refused
  | locationOnly (homeIsp : ISP) (homePid : Int)
  | byWeights (homeIsp : ISP) (homePid : Int) (pidPct ispPct : ℚ) (weights : List ℚ)

/-- The checks of `selectPeers`. -/
def route (peer : Peer) : Route ISP :=
  match (ctx.objects.peer peer).homeISP with
  | none => .refused
  | some homeIsp =>
    let homePid := (ctx.objects.peer peer).homePID
    if homePid < 0 then .refused
    else if (ctx.objects.pidMap homeIsp).numTotalPIDs ≤ toUnsigned homePid then .refused
    else if (ctx.manager.getConfiguredOptions homeIsp).opttype = .locationOnly then
      .locationOnly homeIsp homePid
    else
      match ctx.lookupWeights homeIsp homePid with
      | none => .refused
      | some (pidPct, ispPct, weights) => .byWeights homeIsp homePid pidPct ispPct weights

theorem selectPeers_eq (peer : Peer) (numPeers : Nat) :
    (ctx.selectPeers peer numPeers : Selector randMax Peer Int) = match ctx.route peer with
      | .refused => pure errGuidanceUnavailable
      | .locationOnly homeIsp homePid => ctx.selectPeersLocationOnly peer homeIsp homePid numPeers
      | .byWeights homeIsp homePid pidPct ispPct weights =>
        ctx.selectByWeights peer homeIsp homePid numPeers pidPct ispPct weights := by
  unfold selectPeers route
  cases (ctx.objects.peer peer).homeISP with
  | none => rfl
  | some homeIsp =>
    dsimp only
    split
    · rfl
    split
    · rfl
    split
    · rfl
    · cases ctx.lookupWeights homeIsp (ctx.objects.peer peer).homePID with
      | none => rfl
      | some found => rfl

/-- The home PID that is handed on is a PID of the map. -/
theorem route_valid {homeIsp : ISP} {homePid : Int}
    (h : ctx.route peer = .locationOnly homeIsp homePid ∨
      ∃ pidPct ispPct weights, ctx.route peer = .byWeights homeIsp homePid pidPct ispPct weights) :
    (ctx.objects.peer peer).homeISP = some homeIsp ∧ homePid = (ctx.objects.peer peer).homePID ∧
      0 ≤ homePid ∧ toUnsigned homePid < (ctx.objects.pidMap homeIsp).numTotalPIDs := by
  unfold route at h
  cases hisp : (ctx.objects.peer peer).homeISP with
  | none => simp [hisp] at h
  | some isp =>
    simp only [hisp] at h
    split at h
    · simp at h
    next hpos =>
    split at h
    · simp at h
    next hlt =>
    split at h
    · obtain ⟨rfl, rfl⟩ : isp = homeIsp ∧ (ctx.objects.peer peer).homePID = homePid := by
        simpa using h
      exact ⟨rfl, rfl, by omega, by omega⟩
    · cases hfound : ctx.lookupWeights isp (ctx.objects.peer peer).homePID with
      | none => simp [hfound] at h
      | some found =>
        obtain ⟨rfl, rfl, -⟩ : isp = homeIsp ∧ (ctx.objects.peer peer).homePID = homePid ∧ True := by
          simpa [hfound] using h
        exact ⟨rfl, rfl, by omega, by omega⟩

end SelectionContext

end Alto.Selection
