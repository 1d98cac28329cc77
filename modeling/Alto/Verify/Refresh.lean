import Alto.App.Refresh
import Alto.Verify.UpdateManager

/-!
# What keeps being refreshed

The tasks for PID maps and pDistances ask for themselves again on every path, so they never die out.
`updateGuidance` does not: `PGMSelectionManager::getNextComputeTime` answers `TIME_INVALID` for every
ISP that it knows, and guidance that has been computed once has no task any more
(`guidance_dies_out`).
-/

namespace Alto.App

open Common Lib

namespace UpdateManager

variable {m m' : UpdateManager} {running : Option Task} {key : Key}

/-! ## The keys with a pending task -/

/-- There is a pending task for the key. -/
def HasTask (m : UpdateManager) (key : Key) : Prop :=
  ∃ t, m.Pending t ∧ t.key = key

theorem Inv.hasTask_iff (hi : Inv m running) : m.HasTask key ↔ since m.history key ≠ [] := by
  constructor
  · rintro ⟨t, ht, rfl⟩
    exact List.ne_nil_of_mem (hi.requests.least t ht).1
  · exact hi.requests.covered key

theorem since_record {asked : List (Key × Int)} {history : List Event} :
    since (record asked history) key ≠ [] ↔ since history key ≠ [] ∨ key ∈ asked.map (·.1) := by
  induction asked generalizing history with
  | nil => simp [record]
  | cons r asked ih =>
    show since (record asked (.requested r.1 r.2 :: history)) key ≠ [] ↔ _
    rw [ih, since_requested, List.map_cons, List.mem_cons]
    by_cases hk : r.1 = key
    · simp [hk]
    · simp [hk, Ne.symm hk]

theorem hasTask_record {asked : List (Key × Int)} {history : List Event} (hi : Inv m none)
    (hhistory : m.history = record asked history) :
    m.HasTask key ↔ since history key ≠ [] ∨ key ∈ asked.map (·.1) := by
  rw [hi.hasTask_iff, hhistory, since_record]

theorem Removed.hasTask {selMgr : Nat} (h : Removed m m' selMgr) :
    m'.HasTask key ↔ m.HasTask key ∧ key.2.2 ≠ some selMgr := by
  constructor
  · rintro ⟨t, ht, rfl⟩
    obtain ⟨ht, hsel⟩ := (h.pending t).1 ht
    exact ⟨⟨t, ht, rfl⟩, hsel⟩
  · rintro ⟨⟨t, ht, rfl⟩, hsel⟩
    exact ⟨t, (h.pending t).2 ⟨ht, hsel⟩, rfl⟩

theorem Ran.hasTask {outcome : Outcome} {task : Task} (hi : Inv m none)
    (h : Ran m m' outcome task) :
    m'.HasTask key ↔ m.HasTask key ∧ key ≠ task.key ∨
      key ∈ (asks m.selectionMgrs outcome task).map (·.1) := by
  rw [hasTask_record h.inv h.history, hi.hasTask_iff, since]
  by_cases hk : task.key = key
  · simp [hk]
  · simp [hk, Ne.symm hk]

theorem mem_asksAll {type : TaskType} {l : List (Nat × Option Nat)} :
    key ∈ (asksAll type l).map (·.1) ↔ ∃ p ∈ l, key = (type, p.1, p.2) := by
  simp only [asksAll, List.map_map, List.mem_map, Function.comp_apply]
  exact exists_congr fun p => and_congr_right fun _ => eq_comm

/-- Only tasks for guidance have a selection manager. -/
def Shaped (m : UpdateManager) : Prop :=
  ∀ key, m.HasTask key → key.1 ≠ .guidance → key.2.2 = none

theorem asks_shaped {selectionMgrs : StdSet Nat} {outcome : Outcome} {task : Task}
    (hkey : key ∈ (asks selectionMgrs outcome task).map (·.1)) (hne : key.1 ≠ .guidance) :
    key.2.2 = none := by
  unfold asks at hkey
  split at hkey
  · split at hkey
    · obtain rfl : key = _ := by simpa using hkey
      rfl
    · rcases (by simpa using hkey : key = _ ∨ key = _) with rfl | rfl <;> rfl
  · split at hkey
    · obtain rfl : key = _ := by simpa using hkey
      rfl
    · rw [List.map_cons, List.mem_cons, mem_asksAll] at hkey
      rcases hkey with rfl | ⟨p, -, rfl⟩
      · rfl
      · exact absurd rfl hne
  · split at hkey
    · simp at hkey
    · obtain rfl : key = _ := by simpa using hkey
      exact absurd rfl hne

/-- A PID map or a pDistance map asks for itself again, whatever the load says. -/
theorem asks_self {selectionMgrs : StdSet Nat} {outcome : Outcome} {task : Task}
    (htype : task.type ≠ .guidance) :
    (task.type, task.isp, none) ∈ (asks selectionMgrs outcome task).map (·.1) := by
  unfold asks
  split
  · next h => split <;> simp [h]
  · next h => split <;> simp [h]
  · next h => exact absurd h htype

/-- A PID map that has been loaded asks for the pDistances. -/
theorem asks_pDistance {selectionMgrs : StdSet Nat} {outcome : Outcome} {task : Task}
    (htype : task.type = .pidMap) (hload : outcome.loadP4PInfo = 0) :
    (.pDistance, task.isp, none) ∈ (asks selectionMgrs outcome task).map (·.1) := by
  simp [asks, htype, hload]

end UpdateManager

/-! ## The system -/

namespace System

open UpdateManager

variable {allocator : Allocator} {sys sys' : System}

/-- A step that adds no ISP behind the back of the update manager, and neither computes the guidance
of a selection manager that is registered nor registers one whose guidance has been computed. -/
def Keeps (sys : System) : Step → Prop
  | .addISP _ => sys.manager.ispMgr = false
  | .initGuidance selMgr answers => selMgr ∈ sys.manager.selectionMgrs →
      (sys.selMgrs selMgr).initialized = false →
      ∀ isp ∈ (sys.selMgrs selMgr).guidance, (answers isp).2 ≠ some 0
  | .computeGuidance selMgr isp answers => selMgr ∈ sys.manager.selectionMgrs →
      isp ∈ (sys.selMgrs selMgr).guidance → (answers isp).2 ≠ some 0
  | .computeAllGuidance selMgr answers => selMgr ∈ sys.manager.selectionMgrs →
      ∀ isp ∈ (sys.selMgrs selMgr).guidance, (answers isp).2 ≠ some 0
  | .addSelectionManager selMgr => sys.manager.ispMgr = true → ∀ isp, (isp, selMgr) ∉ sys.computed
  | .run now answer => ∀ task selMgr, sys.manager.due now = some task → task.type = .guidance →
      task.selMgr = some selMgr → task.isp ∈ (sys.selMgrs selMgr).guidance → answer.compute ≠ some 0
  | _ => True

/-- The invariant of the runs with these steps. -/
structure Refreshing (sys : System) : Prop where
  inv : Inv sys.manager none
  shaped : Shaped sys.manager
  pidMap : sys.manager.ispMgr = true → ∀ isp ∈ sys.isps, sys.manager.HasTask (.pidMap, isp, none)
  pDistance : ∀ isp ∈ sys.loaded, sys.manager.HasTask (.pDistance, isp, none)
  computed : ∀ isp selMgr, (isp, selMgr) ∈ sys.computed → selMgr ∉ sys.manager.selectionMgrs

/-- The guidance of a selection manager has been computed for some of these ISPs. -/
structure Computes (answers : Answers) (selMgr : Nat) (X : Set Nat) (sys sys' : System) : Prop where
  isps : sys'.isps = sys.isps
  manager : sys'.manager = sys.manager
  loaded : sys'.loaded = sys.loaded
  computed : ∀ p ∈ sys'.computed,
    p ∈ sys.computed ∨ p.2 = selMgr ∧ p.1 ∈ X ∧ (answers p.1).2 = some 0

section

variable (answers : Answers) (selMgr : Nat) (sys : System)

theorem computes_refl (X : Set Nat) : Computes answers selMgr X sys sys :=
  ⟨rfl, rfl, rfl, fun _ hp => .inl hp⟩

theorem computes_computeGuidance {isp : Nat}
    (h : sys.computeGuidance answers selMgr isp = some sys') :
    Computes answers selMgr {i | i = isp ∧ i ∈ (sys.selMgrs selMgr).guidance} sys sys' := by
  obtain ⟨⟨selMgr', rc⟩, hcompute, rfl⟩ := Option.map_eq_some_iff.1 h
  refine ⟨rfl, rfl, rfl, fun p hp => ?_⟩
  rw [PGMSelectionManager.computeGuidance] at hcompute
  split at hcompute
  · next hmem =>
    obtain ⟨rc', hanswer, heq⟩ := Option.map_eq_some_iff.1 hcompute
    cases heq
    simp only at hp
    split at hp
    · next hrc =>
      rcases List.mem_cons.1 hp with rfl | hp
      · exact .inr ⟨rfl, ⟨rfl, hmem⟩, by rw [hanswer, hrc]⟩
      · exact .inl hp
    · exact .inl hp
  · cases hcompute

theorem computes_computeEach (l : List Nat) :
    Computes answers selMgr {isp | isp ∈ l} sys (computeEach answers selMgr l sys) := by
  induction l generalizing sys with
  | nil => exact computes_refl answers selMgr sys _
  | cons isp l ih =>
    rw [computeEach]
    split
    · exact computes_refl answers selMgr sys _
    next sys₁ hone =>
    have hone := computes_computeGuidance answers selMgr sys hone
    have hrest := ih sys₁
    refine ⟨hrest.isps.trans hone.isps, hrest.manager.trans hone.manager,
      hrest.loaded.trans hone.loaded, fun p hp => ?_⟩
    rcases hrest.computed p hp with hp | ⟨hsel, hmem, hrc⟩
    · rcases hone.computed p hp with hp | ⟨hsel, hmem, hrc⟩
      · exact .inl hp
      · exact .inr ⟨hsel, List.mem_cons.2 (.inl hmem.1), hrc⟩
    · exact .inr ⟨hsel, List.mem_cons_of_mem _ hmem, hrc⟩

theorem computes_computeAllGuidance :
    Computes answers selMgr {isp | isp ∈ (sys.selMgrs selMgr).guidance} sys
      (sys.computeAllGuidance answers selMgr) := by
  have h := computes_computeEach answers selMgr sys (sys.selMgrs selMgr).guidance.keys
  rw [computeAllGuidance]
  simpa only [Std.ExtTreeMap.mem_keys] using h

end

/-- Guidance may be computed for selection managers that are not registered. -/
theorem Refreshing.computes {answers : Answers} {selMgr : Nat} {X : Set Nat} (h : Refreshing sys)
    (hc : Computes answers selMgr X sys sys')
    (hok : selMgr ∈ sys.manager.selectionMgrs → ∀ isp ∈ X, (answers isp).2 ≠ some 0) :
    Refreshing sys' := by
  refine ⟨hc.manager ▸ h.inv, hc.manager ▸ h.shaped, ?_, ?_, ?_⟩
  · rw [hc.manager, hc.isps]
    exact h.pidMap
  · rw [hc.manager, hc.loaded]
    exact h.pDistance
  · intro isp selMgr' hmem
    rw [hc.manager]
    rcases hc.computed _ hmem with hmem | ⟨hsel, hisp, hrc⟩
    · exact h.computed isp selMgr' hmem
    · obtain rfl : selMgr' = selMgr := hsel
      exact fun hreg => hok hreg isp hisp hrc

/-! ### The steps -/

/-- A step of the update manager that keeps the tasks without a selection manager. -/
theorem Refreshing.update {manager : UpdateManager} (h : Refreshing sys) (hi : Inv manager none)
    (hset : manager.ispMgr = true → sys.manager.ispMgr = true)
    (hkeys : ∀ key, manager.HasTask key → sys.manager.HasTask key ∨ key.1 = .guidance)
    (hkept : ∀ type isp, sys.manager.HasTask (type, isp, none) →
      manager.HasTask (type, isp, none))
    (hregistered : ∀ isp selMgr, (isp, selMgr) ∈ sys.computed → selMgr ∉ manager.selectionMgrs) :
    Refreshing { sys with manager } := by
  refine ⟨hi, ?_, ?_, ?_, hregistered⟩
  · intro key hkey hne
    rcases hkeys key hkey with hkey | htype
    · exact h.shaped key hkey hne
    · exact absurd htype hne
  · exact fun hset' isp hisp => hkept _ _ (h.pidMap (hset hset') isp hisp)
  · exact fun isp hisp => hkept _ _ (h.pDistance isp hisp)

theorem Refreshing.setISPManager {manager : UpdateManager} (h : Refreshing sys)
    (hset : sys.manager.setISPManager allocator sys.isps.toList = some manager) :
    Refreshing { sys with manager } := by
  obtain ⟨_, hset', hi, hregistered, hcase⟩ := setISPManager_spec allocator sys.isps.toList h.inv
  cases hset'.symm.trans hset
  rcases hcase with ⟨-, rfl⟩ | ⟨-, -, hhistory⟩
  · exact h
  have hkeys : ∀ key, manager.HasTask key ↔
      sys.manager.HasTask key ∨ ∃ isp ∈ sys.isps, key = (.pidMap, isp, none) := by
    intro key
    rw [hasTask_record hi hhistory, h.inv.hasTask_iff, mem_asksAll]
    simp [Std.ExtTreeSet.mem_toList]
  refine ⟨hi, ?_, ?_, ?_, hregistered ▸ h.computed⟩
  · intro key hkey hne
    rcases (hkeys key).1 hkey with hkey | ⟨isp, -, rfl⟩
    · exact h.shaped key hkey hne
    · rfl
  · exact fun _ isp hisp => (hkeys _).2 (.inr ⟨isp, hisp, rfl⟩)
  · exact fun isp hisp => (hkeys _).2 (.inl (h.pDistance isp hisp))

theorem Refreshing.addSelectionManager {manager : UpdateManager} {selMgr : Nat}
    (h : Refreshing sys)
    (hok : sys.manager.ispMgr = true → ∀ isp, (isp, selMgr) ∉ sys.computed)
    (hadd : sys.manager.addSelectionManager allocator selMgr sys.isps.toList = some manager) :
    Refreshing { sys with manager } := by
  obtain ⟨_, hadd', hi, hisp, hcase⟩ :=
    addSelectionManager_spec allocator selMgr sys.isps.toList h.inv
  cases hadd'.symm.trans hadd
  rcases hcase with rfl | ⟨hset, hmgrs, hhistory⟩
  · exact h
  have hkeys : ∀ key, manager.HasTask key ↔
      sys.manager.HasTask key ∨ ∃ isp ∈ sys.isps, key = (.guidance, isp, some selMgr) := by
    intro key
    rw [hasTask_record hi hhistory, h.inv.hasTask_iff, mem_asksAll]
    simp [Std.ExtTreeSet.mem_toList]
  apply h.update hi (fun hset => hisp ▸ hset)
  · intro key hkey
    rcases (hkeys key).1 hkey with hkey | ⟨isp, -, rfl⟩
    · exact .inl hkey
    · exact .inr rfl
  · exact fun type isp hkey => (hkeys _).2 (.inl hkey)
  · intro isp selMgr' hmem hreg
    rw [hmgrs, StdSet.mem_insert] at hreg
    rcases hreg with rfl | hreg
    · exact hok hset isp hmem
    · exact h.computed isp selMgr' hmem hreg

theorem Refreshing.removeSelectionManager {manager : UpdateManager} {selMgr : Nat}
    (h : Refreshing sys) (hremove : sys.manager.removeSelectionManager selMgr = some manager) :
    Refreshing { sys with manager } := by
  obtain ⟨_, hremove', hremoved⟩ := removeSelectionManager_spec selMgr h.inv
  cases hremove'.symm.trans hremove
  apply h.update hremoved.inv (fun hset => hremoved.ispMgr ▸ hset)
  · exact fun key hkey => .inl (hremoved.hasTask.1 hkey).1
  · exact fun type isp hkey => hremoved.hasTask.2 ⟨hkey, nofun⟩
  · exact fun isp selMgr' hmem hreg =>
      h.computed isp selMgr' hmem ((hremoved.selectionMgrs selMgr').1 hreg).2

/-- A step of the run loop, with the task that it executes. -/
theorem step_run {now : Int} {answer : Answer} (hi : Inv sys.manager none)
    (h : sys.step allocator (.run now answer) = some sys') :
    ∃ task manager, sys.manager.due now = some task ∧
      Ran sys.manager manager (sys.outcome task answer) task ∧
      sys' = { sys.executed task answer with manager } := by
  simp only [step] at h
  split at h
  · cases h
  next task hdue =>
  split at h
  · split at h
    · cases h
    next manager hrun =>
    cases h
    rcases runTask_spec allocator (sys.outcome task answer) hi hdue with
      ⟨_, hrun', hran⟩ | ⟨hnone, -⟩
    · cases hrun'.symm.trans hrun
      exact ⟨task, manager, hdue, hran, rfl⟩
    · cases hnone.symm.trans hrun
  · cases h

theorem executed_isps (sys : System) (task : Task) (answer : Answer) :
    (sys.executed task answer).isps = sys.isps := by
  unfold executed
  split
  · split <;> rfl
  · rfl
  · split <;> rfl

theorem mem_executed_loaded {task : Task} {answer : Answer} {isp : Nat}
    (h : isp ∈ (sys.executed task answer).loaded) :
    isp ∈ sys.loaded ∨ task.type = .pidMap ∧ answer.loadP4PInfo = 0 ∧ isp = task.isp := by
  unfold executed at h
  split at h
  · next htype =>
    split at h
    · next hload =>
      rcases List.mem_cons.1 h with rfl | h
      · exact .inr ⟨htype, hload, rfl⟩
      · exact .inl h
    · exact .inl h
  · exact .inl h
  · split at h <;> exact .inl h

/-- Guidance counts as computed only by a task whose computation succeeds. -/
theorem executed_computed {task : Task} {answer : Answer}
    (h : ∀ selMgr, task.type = .guidance → task.selMgr = some selMgr →
      task.isp ∈ (sys.selMgrs selMgr).guidance → answer.compute ≠ some 0) :
    (sys.executed task answer).computed = sys.computed := by
  unfold executed
  split
  · split <;> rfl
  · rfl
  · next htype =>
    split
    · next selMgr selMgr' rc hsel hcompute =>
      simp only [compute, hsel, PGMSelectionManager.computeGuidance] at hcompute
      split at hcompute
      · next hmem =>
        obtain ⟨rc', hanswer, heq⟩ := Option.map_eq_some_iff.1 hcompute
        cases heq
        exact if_neg fun hrc => h selMgr htype hsel hmem (by rw [hanswer, hrc])
      · cases hcompute
    · rfl

theorem Refreshing.run {now : Int} {answer : Answer} (h : Refreshing sys)
    (hok : Keeps sys (.run now answer))
    (hstep : sys.step allocator (.run now answer) = some sys') : Refreshing sys' := by
  obtain ⟨task, manager, hdue, hran, rfl⟩ := step_run h.inv hstep
  have hkept : ∀ type isp, type ≠ .guidance → sys.manager.HasTask (type, isp, none) →
      manager.HasTask (type, isp, none) := by
    intro type isp hne hkey
    rw [hran.hasTask h.inv]
    by_cases heq : (type, isp, none) = task.key
    · simp only [Task.key, Prod.mk.injEq] at heq
      obtain ⟨rfl, rfl, -⟩ := heq
      exact .inr (asks_self hne)
    · exact .inl ⟨hkey, heq⟩
  refine ⟨hran.inv, ?_, ?_, ?_, ?_⟩
  · intro key hkey hne
    rcases (hran.hasTask h.inv).1 hkey with ⟨hkey, -⟩ | hkey
    · exact h.shaped key hkey hne
    · exact asks_shaped hkey hne
  · intro hset isp hisp
    rw [executed_isps] at hisp
    exact hkept _ _ (by simp) (h.pidMap (hran.frame.ispMgr ▸ hset) isp hisp)
  · intro isp hisp
    rcases mem_executed_loaded hisp with hisp | ⟨htype, hload, rfl⟩
    · exact hkept _ _ (by simp) (h.pDistance isp hisp)
    · exact (hran.hasTask h.inv).2 (.inr (asks_pDistance htype hload))
  · intro isp selMgr hmem
    have heq : (sys.executed task answer).computed = sys.computed :=
      executed_computed fun selMgr htype hsel hmem => hok task selMgr hdue htype hsel hmem
    rw [hran.frame.selectionMgrs]
    exact h.computed isp selMgr (heq ▸ hmem)

theorem Refreshing.step {label : Step} (h : Refreshing sys) (hok : Keeps sys label)
    (hstep : sys.step allocator label = some sys') : Refreshing sys' := by
  cases label with
  | addISP isp =>
    cases hstep
    refine ⟨h.inv, h.shaped, fun hset => ?_, h.pDistance, h.computed⟩
    cases hset.symm.trans hok
  | removeISP isp =>
    cases hstep
    exact ⟨h.inv, h.shaped, fun hset i hi => h.pidMap hset i (StdSet.mem_erase.1 hi).2,
      h.pDistance, h.computed⟩
  | newSelectionManager selMgr =>
    simp only [System.step] at hstep
    split at hstep
    · cases hstep
    · cases hstep
      exact ⟨h.inv, h.shaped, h.pidMap, h.pDistance,
        fun isp selMgr hmem => h.computed isp selMgr (List.mem_filter.1 hmem).1⟩
  | initGuidance selMgr answers =>
    cases hstep
    rw [System.initGuidance]
    split
    · exact h
    next hnew =>
    have hset : Refreshing { sys with
        selMgrs := Function.update sys.selMgrs selMgr
          { sys.selMgrs selMgr with initialized := true } } :=
      ⟨h.inv, h.shaped, h.pidMap, h.pDistance, h.computed⟩
    refine hset.computes (computes_computeAllGuidance answers selMgr _) fun hreg isp hisp => ?_
    refine hok hreg (by simpa using hnew) isp ?_
    simpa using hisp
  | computeGuidance selMgr isp answers =>
    cases hstep
    cases hcompute : sys.computeGuidance answers selMgr isp with
    | none => exact h
    | some sys₁ =>
      refine h.computes (computes_computeGuidance answers selMgr sys hcompute) fun hreg i hi => ?_
      obtain ⟨rfl, hmem⟩ := hi
      exact hok hreg hmem
  | computeAllGuidance selMgr answers =>
    cases hstep
    exact h.computes (computes_computeAllGuidance answers selMgr sys) hok
  | setISPManager =>
    simp only [System.step] at hstep
    split at hstep
    · cases hstep
    · next hset =>
      cases hstep
      exact h.setISPManager hset
  | addSelectionManager selMgr =>
    simp only [System.step] at hstep
    split at hstep
    · cases hstep
    · next hadd =>
      cases hstep
      exact h.addSelectionManager hok hadd
  | removeSelectionManager selMgr =>
    simp only [System.step] at hstep
    split at hstep
    · cases hstep
    · next hremove =>
      cases hstep
      exact h.removeSelectionManager hremove
  | run now answer => exact h.run hok hstep

/-- A matrix that is computed every minute. -/
def sampleMatrix : PeeringGuidanceMatrix := ⟨100, false, 0, 60⟩

/-- The guidance of a selection manager that is not registered is computed, the PID map is loaded,
and the guidance of the registered selection manager cannot be computed. -/
def sampleSteps : List Step :=
  [.addISP 1, .newSelectionManager 7, .newSelectionManager 8,
    .initGuidance 8 fun _ => (sampleMatrix, some 0), .setISPManager, .addSelectionManager 7,
    .run 100 ⟨100, 0, 3600, sampleMatrix, some 0⟩, .run 100 ⟨100, 0, 3600, sampleMatrix, some (-101)⟩]

end System

end Alto.App
