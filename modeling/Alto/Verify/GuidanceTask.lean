import Alto.App.Refresh
import Alto.Lib.MapEntries
import Alto.Verify.PeerManager
import Alto.Verify.UnknownISP

/-!
# The selection manager that a guidance task sees

`System` keeps of a `PGMSelectionManager` its ISPs and when their matrices are computed again; the rest
of it stands in `Alto.App.PGMSelectionManager`. Each call that the update manager makes ends in both in
the same way, so a task comes to the same outcome (`outcome_eq_taskOutcome`), and what `System` keeps
stays true (`Shows.executed`).
-/

namespace Alto.Selection

open Common Lib App Guidance

variable {Peer Mgr : Type} [LinearOrder Peer] [Inhabited Peer]

/-- What `System` keeps of a selection manager: the ISPs of its views, and which of the ISPs in the map
of matrices have one. -/
structure Shows (sel : PGMSelectionManager Peer Nat Mgr) (view : App.PGMSelectionManager) : Prop where
  initialized : view.initialized = sel.guidanceInitialized
  ispPeers : ∀ isp : Nat, isp ∈ view.ispPeers ↔ isp ∈ sel.ispPeers.views
  guidance : ∀ isp : Nat, view.guidance[isp]?.map Option.isSome = sel.guidance[isp]?.map Option.isSome

namespace Shows

variable {sel : PGMSelectionManager Peer Nat Mgr} {view : App.PGMSelectionManager}

omit [Inhabited Peer] in
theorem mem_guidance (h : Shows sel view) (isp : Nat) : isp ∈ view.guidance ↔ isp ∈ sel.guidance := by
  have hsome := congrArg Option.isSome (h.guidance isp)
  rw [Option.isSome_map, Option.isSome_map] at hsome
  rw [Std.ExtTreeMap.mem_iff_isSome_getElem?, Std.ExtTreeMap.mem_iff_isSome_getElem?, hsome]

omit [Inhabited Peer] in
/-- A new selection manager with the ISPs of an ISP manager. -/
theorem setISPManager (o : Objects Peer Nat Mgr) (ispMgr : Mgr) {isps : List Nat}
    (hisps : ∀ isp, isp ∈ isps ↔ isp ∈ (o.ispManager ispMgr).toList.map (·.2)) :
    Shows (PGMSelectionManager.setISPManager o {} ispMgr).2 (.setISPManager isps) := by
  obtain ⟨-, hviews⟩ := PeerDistributionManager.consistent_empty.addISPs
    (Std.ExtTreeMap.isEmpty_empty) ((o.ispManager ispMgr).toList.map (·.2))
    (m := ({} : PeerDistributionManager Peer Nat))
  refine ⟨rfl, fun isp => ?_, fun isp => ?_⟩
  · refine (StdSet.mem_foldl_insert isps ∅).trans (Iff.trans ?_ (hviews isp).symm)
    exact or_congr (hisps isp) (iff_of_false Std.ExtTreeSet.not_mem_empty Std.ExtTreeMap.not_mem_empty)
  · have hloop : ∀ {V : Type} (l : List Nat),
        (l.foldl (fun guidance isp => guidance.insert isp none) (∅ : StdMap Nat (Option V)))[isp]? =
          if isp ∈ l then some none else none := by
      intro V l
      rcases StdMap.get_foldl_insert (fun i : Nat => i) (fun _ => (none : Option V)) l ∅ isp with
        ⟨x, hx, rfl, h⟩ | ⟨hno, h⟩
      · rw [if_pos hx]
        exact h
      · rw [if_neg fun hmem => hno isp hmem rfl]
        exact h.trans Std.ExtTreeMap.getElem?_empty
    refine (congrArg _ (hloop isps)).trans (Eq.trans ?_ (congrArg _ (hloop _)).symm)
    simp only [← hisps]
    split <;> rfl

theorem updatePeerDistribution (h : Shows sel view) (behind : Peer → Behind)
    (o : Objects Peer Nat Mgr) (isp : Nat) :
    view.updatePeerDistribution isp = (sel.updatePeerDistribution behind o isp).1 ∧
      Shows (sel.updatePeerDistribution behind o isp).2.2 view := by
  simp only [App.PGMSelectionManager.updatePeerDistribution,
    PGMSelectionManager.updatePeerDistribution, P4PSelectionManager.updatePeerDistribution,
    PeerDistributionManager.updatePeerDistribution]
  by_cases hisp : isp ∈ sel.ispPeers.views
  · rw [if_pos hisp, if_pos ((h.ispPeers isp).2 hisp)]
    refine ⟨rfl, h.initialized, fun i => (h.ispPeers i).trans ?_, h.guidance⟩
    rw [Std.ExtTreeMap.mem_insert, compare_eq_iff_eq]
    exact (or_iff_right_of_imp fun heq => heq ▸ hisp).symm
  · rw [if_neg hisp, if_neg fun hmem => hisp ((h.ispPeers isp).1 hmem)]
    exact ⟨rfl, h⟩

variable {engine : Engine Nat} {m m' : PeeringGuidanceMatrixManager Nat}
  {sel' : PGMSelectionManager Peer Nat Mgr} {isp : Nat} {rc : Int}

omit [Inhabited Peer] in
theorem recompute_returned {matrix : Option Nat}
    (h : PGMSelectionManager.recompute engine m sel matrix = .returned rc (m', sel')) :
    sel' = sel ∧ ∃ address, matrix = some address := by
  unfold PGMSelectionManager.recompute at h
  split at h
  · cases h
  next address =>
  split at h
  · cases h
  split at h
  · dsimp only at h
    split at h <;> cases h <;> exact ⟨rfl, address, rfl⟩
  · cases h
    exact ⟨rfl, address, rfl⟩

omit [Inhabited Peer] in
/-- A computation that returns a code has found the entry of the ISP and leaves a matrix there. -/
theorem computeGuidance (h : Shows sel view) (matrix : App.PeeringGuidanceMatrix)
    (hreturned : sel.computeGuidance engine m isp = .returned rc (m', sel')) :
    ∃ view', view.computeGuidance isp matrix (some rc) = some (view', rc) ∧ Shows sel' view' := by
  unfold PGMSelectionManager.computeGuidance at hreturned
  split at hreturned
  · cases hreturned
  next entry hentry =>
  have hmem : isp ∈ view.guidance := (h.mem_guidance isp).2 (StdMap.mem_iff_get.2 ⟨entry, hentry⟩)
  have hsel : ∃ address, sel' = { sel with guidance := sel.guidance.insert isp (some address) } := by
    split at hreturned
    · obtain ⟨rfl, address, rfl⟩ := recompute_returned hreturned
      exact ⟨address, rfl⟩
    · cases hreturned
    · cases hreturned
  obtain ⟨address, rfl⟩ := hsel
  refine ⟨_, if_pos hmem, h.initialized, h.ispPeers, fun i => ?_⟩
  rw [StdMap.get_insert, StdMap.get_insert]
  split
  · rfl
  · exact h.guidance i

end Shows

section Task

variable {sel sel' : PGMSelectionManager Peer Nat Mgr} {sys : App.System} {task : Task} {selMgr : Nat}

/-- A guidance task comes to the same outcome in both. -/
theorem outcome_eq_taskOutcome (behind : Peer → Behind) (o : Objects Peer Nat Mgr)
    (engine : Engine Nat) (m : PeeringGuidanceMatrixManager Nat) (hsel : task.selMgr = some selMgr)
    (h : Shows sel (sys.selMgrs selMgr)) (now : Int) (matrix : App.PeeringGuidanceMatrix) :
    sys.outcome task
        ⟨now, 0, 0, matrix, (taskOutcome behind o engine m sel task.isp now).computeGuidance⟩ =
      taskOutcome behind o engine m sel task.isp now := by
  obtain ⟨hcode, hshows⟩ := h.updatePeerDistribution behind o task.isp
  have hcompute : ∀ rc, sys.compute task ⟨now, 0, 0, matrix, rc⟩ =
      (sys.selMgrs selMgr).computeGuidance task.isp matrix rc := by
    intro rc
    rw [System.compute, hsel]
  simp only [System.outcome, hcompute, hsel, hcode]
  unfold taskOutcome
  dsimp only
  cases hguidance : (sel.updatePeerDistribution behind o task.isp).2.2.computeGuidance engine m
      task.isp with
  | returned rc s =>
    obtain ⟨m', sel'⟩ := s
    obtain ⟨view', hview, hshows'⟩ := hshows.computeGuidance matrix hguidance
    simp only [hview, Option.map_some, App.PGMSelectionManager.getNextComputeTime,
      PGMSelectionManager.getNextComputeTime, hshows'.mem_guidance]
  | threw s => simp [App.PGMSelectionManager.computeGuidance]
  | undefined => simp [App.PGMSelectionManager.computeGuidance]

/-- A guidance task that has been executed leaves the selection manager that `System` shows. -/
theorem Shows.executed {behind : Peer → Behind} {o : Objects Peer Nat Mgr} {engine : Engine Nat}
    {m m' : PeeringGuidanceMatrixManager Nat} {rc : Int} (h : Shows sel (sys.selMgrs selMgr))
    (htype : task.type = .guidance) (hsel : task.selMgr = some selMgr) {answer : Answer}
    (hanswer : answer.compute = some rc)
    (hreturned : (sel.updatePeerDistribution behind o task.isp).2.2.computeGuidance engine m task.isp =
      .returned rc (m', sel')) :
    Shows sel' ((sys.executed task answer).selMgrs selMgr) := by
  obtain ⟨view', hview, hshows⟩ := (h.updatePeerDistribution behind o task.isp).2.computeGuidance
    answer.matrix hreturned
  simpa [System.executed, htype, hsel, System.compute, hanswer, hview] using hshows

end Task

end Alto.Selection
