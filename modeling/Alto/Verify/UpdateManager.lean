import Alto.Lib.MapEntries
import Alto.Lib.Run
import Alto.Verify.TaskStore

/-!
# The steps of the update manager

Between two steps of `P4PUpdateManager` there is at most one pending task for each key, it has the
earliest execution time that was asked for, and `m_selmgr_tasks` holds exactly the pending tasks of
each selection manager (`tasks_consistent`).
-/

namespace Alto.App

open Common Lib RandomAccessSet MaxHeapWithDelete

namespace UpdateManager

variable {m m' : UpdateManager} {running : Option Task} {task t u : Task} {selMgr : Nat}

/-! ## Executing a task -/

/-- The requests that executing a task makes. -/
def asks (selectionMgrs : StdSet Nat) (outcome : Outcome) (task : Task) : List (Key × Int) :=
  match task.type with
  | .pidMap =>
    if outcome.loadP4PInfo ≠ 0 then [((.pidMap, task.isp, none), outcome.now + 15 * 60)]
    else [((.pidMap, task.isp, none), outcome.now + outcome.ttl), ((.pDistance, task.isp, none), 0)]
  | .pDistance =>
    if outcome.loadP4PInfo ≠ 0 then [((.pDistance, task.isp, none), outcome.now + 15 + 60)]
    else ((.pDistance, task.isp, none), outcome.now + outcome.ttl) ::
      asksAll .guidance (selectionMgrs.toList.map fun selMgr => (task.isp, some selMgr))
  | .guidance =>
    if outcome.updatePeerDistribution = errInvalidISP ∨
        outcome.computeGuidance = some errInvalidISP ∨ outcome.nextComputeTime = timeInvalid then []
    else [((.guidance, task.isp, task.selMgr), outcome.nextComputeTime)]

/-- The exception of `computeGuidance` leaves the task. -/
def Throws (outcome : Outcome) (task : Task) : Prop :=
  task.type = .guidance ∧ outcome.updatePeerDistribution ≠ errInvalidISP ∧
    outcome.computeGuidance = none

theorem executeTask_throws {allocator : Allocator} {outcome : Outcome}
    (h : Throws outcome task) : m.executeTask allocator outcome task = none := by
  obtain ⟨htype, hdist, hthrow⟩ := h
  rw [executeTask, htype]
  simp only [updateGuidance, if_neg hdist, hthrow]

/-- Executing a task leaves `computeGuidance`'s exception aside and makes its requests. -/
theorem executeTask_spec (allocator : Allocator) (outcome : Outcome) (task : Task)
    (hi : Inv m running)
    (hreg : ∀ selMgr, task.selMgr = some selMgr → selMgr ∈ m.selectionMgrs) :
    (∃ m', m.executeTask allocator outcome task = some m' ∧
      Asked m m' running (asks m.selectionMgrs outcome task)) ∨
    (m.executeTask allocator outcome task = none ∧ Throws outcome task) := by
  have hnone : ∀ selMgr, (none : Option Nat) = some selMgr → selMgr ∈ m.selectionMgrs := nofun
  unfold executeTask asks
  cases htype : task.type with
  | pidMap =>
    left
    simp only [updatePIDMap]
    split
    · exact enqueueTask_asked allocator _ _ _ hi hnone
    · obtain ⟨m₁, h₁, ha₁⟩ := enqueueTask_asked allocator (outcome.now + outcome.ttl) .pidMap
        task.isp hi hnone
      have hnone₁ : ∀ selMgr, (none : Option Nat) = some selMgr → selMgr ∈ m₁.selectionMgrs :=
        nofun
      obtain ⟨m₂, h₂, ha₂⟩ := enqueueTask_asked allocator 0 .pDistance task.isp ha₁.inv hnone₁
      rw [h₁]
      exact ⟨m₂, h₂, ha₁.trans ha₂⟩
  | pDistance =>
    left
    simp only [updatePDistanceMap]
    split
    · exact enqueueTask_asked allocator _ _ _ hi hnone
    · obtain ⟨m₁, h₁, ha₁⟩ := enqueueTask_asked allocator (outcome.now + outcome.ttl) .pDistance
        task.isp hi hnone
      have hreg₁ : ∀ p ∈ m.selectionMgrs.toList.map fun selMgr => (task.isp, some selMgr),
          ∀ selMgr, p.2 = some selMgr → selMgr ∈ m₁.selectionMgrs := by
        intro p hp selMgr hsel
        obtain ⟨s, hs, rfl⟩ := List.mem_map.1 hp
        cases hsel
        rw [ha₁.frame.selectionMgrs]
        exact Std.ExtTreeSet.mem_toList.1 hs
      obtain ⟨m₂, h₂, ha₂⟩ := enqueueAll_spec allocator .guidance ha₁.inv hreg₁
      rw [h₁]
      refine ⟨m₂, ?_, ha₁.trans ha₂⟩
      rw [← ha₁.frame.selectionMgrs] at h₂
      exact h₂
  | guidance =>
    simp only [updateGuidance]
    split
    · next h => exact .inl ⟨m, rfl, by simpa [h] using Asked.refl hi⟩
    next hdist =>
    cases hc : outcome.computeGuidance with
    | none => exact .inr ⟨rfl, htype, hdist, hc⟩
    | some rc =>
      left
      simp only [Option.some.injEq, hdist, false_or]
      split
      · next h => exact ⟨m, rfl, by simpa [h] using Asked.refl hi⟩
      next hrc =>
      split
      · next h => exact ⟨m, rfl, by simpa [h] using Asked.refl hi⟩
      next hnext =>
      rw [if_neg (by simp [hrc, hnext])]
      exact enqueueTask_asked allocator _ _ _ hi hreg

/-! ## The steps -/

theorem inv_init : Inv init none := by
  have hpending : ∀ t, ¬ init.Pending t := fun t => not_mem_empty
  have hheld : ∀ t, ¬ init.Held none t := by
    rintro t (ht | ht)
    · exact hpending t ht
    · cases ht
  refine ⟨⟨wellFormed_empty, ?_, ?_, ?_, nofun, ?_⟩, ?_, ?_⟩
  · intro selMgr addr t
    simp only [hheld, false_and, iff_false]
    simp [indexed, init]
  · exact fun t u ht => absurd ht (hheld t)
  · exact fun t ht => absurd ht (hheld t)
  · intro selMgr hmem
    simp [init] at hmem
  · exact fun t ht => absurd ht (hpending t)
  · exact fun key hkey => absurd rfl hkey

/-- The loop of `removeSelectionManager` takes its tasks off the heap. -/
theorem removeTasks_spec {tasks : List Task} (hi : Inv m none) (hnodup : tasks.Nodup)
    (htasks : ∀ t ∈ tasks, m.Pending t) :
    ∃ m', removeTasks tasks m = some m' ∧ Inv m' none ∧ Frame m m' ∧
      (∀ t, m'.Pending t ↔ m.Pending t ∧ t ∉ tasks) ∧
      m'.history = (tasks.map fun t => Event.removed t.key).reverse ++ m.history := by
  induction tasks generalizing m with
  | nil => exact ⟨m, rfl, hi, .refl m, by simp, rfl⟩
  | cons task tasks ih =>
    obtain ⟨hout, hnodup⟩ := List.nodup_cons.1 hnodup
    have htask := htasks task List.mem_cons_self
    obtain ⟨m₁, hremove, hs₁, hframe₁, hhistory₁, -, hpending₁⟩ := removeTask_spec hi.store htask
    have hi₁ : Inv { m₁ with history := .removed task.key :: m₁.history } none := by
      refine ⟨⟨hs₁.heap, hs₁.index, hs₁.addr, hs₁.live, hs₁.out, hs₁.registered⟩, ?_⟩
      exact hi.requests.ended hi.store htask rfl (.inr rfl) hpending₁
        (by rw [hhistory₁])
    obtain ⟨m', hrest, hi', hframe', hpending', hhistory'⟩ := ih hi₁ hnodup (by
      intro t ht
      refine (hpending₁ t).2 ⟨htasks t (List.mem_cons_of_mem _ ht), ?_⟩
      rintro rfl
      exact hout ht)
    refine ⟨m', ?_, hi', ⟨hframe'.ispMgr.trans hframe₁.ispMgr,
      hframe'.selectionMgrs.trans hframe₁.selectionMgrs⟩, ?_, ?_⟩
    · rw [removeTasks, hremove]
      exact hrest
    · intro t
      rw [hpending']
      show m₁.Pending t ∧ _ ↔ _
      rw [hpending₁, List.mem_cons]
      tauto
    · rw [hhistory']
      simp [hhistory₁]

/-- The tasks of a selection manager in its index entry. -/
theorem mem_index_values {entry : StdMap Nat Task} (hs : Store m none)
    (hentry : m.selmgrTasks[selMgr]? = some entry) :
    t ∈ entry.toList.map (·.2) ↔ m.Pending t ∧ t.selMgr = some selMgr := by
  have hindexed : ∀ addr, m.indexed selMgr addr = entry[addr]? := by
    intro addr
    rw [indexed, hentry, Option.getD_some]
  have hheld : m.Held none t ↔ m.Pending t := by simp [Held]
  rw [List.mem_map]
  constructor
  · rintro ⟨⟨addr, u⟩, hmem, rfl⟩
    rw [Std.ExtTreeMap.mem_toList_iff_getElem?_eq_some, ← hindexed, hs.index, hheld] at hmem
    exact ⟨hmem.1, hmem.2.1⟩
  · rintro ⟨ht, hsel⟩
    refine ⟨(t.addr, t), ?_, rfl⟩
    rw [Std.ExtTreeMap.mem_toList_iff_getElem?_eq_some, ← hindexed, hs.index, hheld]
    exact ⟨ht, hsel, rfl⟩

theorem nodup_index_values {entry : StdMap Nat Task} (hs : Store m none)
    (hentry : m.selmgrTasks[selMgr]? = some entry) : (entry.toList.map (·.2)).Nodup := by
  have haddr : ∀ p ∈ entry.toList, p.2.addr = p.1 := by
    rintro ⟨addr, t⟩ hmem
    rw [Std.ExtTreeMap.mem_toList_iff_getElem?_eq_some] at hmem
    have hindexed : m.indexed selMgr addr = some t := by
      rw [indexed, hentry, Option.getD_some]
      exact hmem
    exact ((hs.index _ _ _).1 hindexed).2.2
  rw [List.Nodup, List.pairwise_map]
  apply Std.ExtTreeMap.distinct_keys_toList.imp_of_mem
  intro p q hp hq hne heq
  apply hne
  rw [compare_eq_iff_eq, ← haddr p hp, ← haddr q hq, heq]

/-- Forgetting a selection manager that has no tasks. -/
theorem Inv.forget {registered : StdSet Nat} (hi : Inv m none)
    (hno : ∀ t, m.Pending t → t.selMgr ≠ some selMgr)
    (hreg : ∀ s, s ∈ registered ↔ selMgr ≠ s ∧ s ∈ m.selectionMgrs) :
    Inv { m with selmgrTasks := m.selmgrTasks.erase selMgr, selectionMgrs := registered } none := by
  have hs := hi.store
  refine ⟨⟨hs.heap, ?_, hs.addr, hs.live, hs.out, ?_⟩,
    hi.requests.least, hi.requests.covered⟩
  · intro s addr t
    have hindexed : ((m.selmgrTasks.erase selMgr)[s]?.getD ∅)[addr]? =
        if selMgr = s then none else m.indexed s addr := by
      rw [StdMap.get_erase]
      split <;> rfl
    show ((m.selmgrTasks.erase selMgr)[s]?.getD ∅)[addr]? = some t ↔ _
    rw [hindexed]
    split
    · next heq =>
      subst heq
      simp only [reduceCtorEq, false_iff]
      rintro ⟨ht | ht, hsel, -⟩
      · exact hno t ht hsel
      · cases ht
    · exact hs.index s addr t
  · intro s hmem
    simp only [StdMap.mem_iff_get, StdMap.get_erase] at hmem
    obtain ⟨entry, hentry⟩ := hmem
    split at hentry
    · cases hentry
    · next hne => exact (hreg s).2 ⟨hne, hs.registered s (StdMap.mem_iff_get.2 ⟨entry, hentry⟩)⟩

/-- What `removeSelectionManager` leaves. -/
structure Removed (m m' : UpdateManager) (selMgr : Nat) : Prop where
  inv : Inv m' none
  ispMgr : m'.ispMgr = m.ispMgr
  pending : ∀ t, m'.Pending t ↔ m.Pending t ∧ t.selMgr ≠ some selMgr
  entry : m'.selmgrTasks[selMgr]? = none
  selectionMgrs : ∀ s, s ∈ m'.selectionMgrs ↔ selMgr ≠ s ∧ s ∈ m.selectionMgrs

theorem removeSelectionManager_spec (selMgr : Nat) (hi : Inv m none) :
    ∃ m', m.removeSelectionManager selMgr = some m' ∧ Removed m m' selMgr := by
  have hs := hi.store
  rw [removeSelectionManager]
  split
  · next hreg =>
    have hmem : ∀ s, s ∈ m.selectionMgrs.erase selMgr ↔ selMgr ≠ s ∧ s ∈ m.selectionMgrs :=
      fun s => StdSet.mem_erase
    split
    · next hentry =>
      have hno : ∀ t, m.Pending t → t.selMgr ≠ some selMgr := by
        intro t ht hsel
        have hidx := (hs.index selMgr t.addr t).2 ⟨.inl ht, hsel, rfl⟩
        simp [indexed, hentry] at hidx
      have herase : m.selmgrTasks.erase selMgr = m.selmgrTasks := by
        apply StdMap.ext_get
        intro s
        rw [StdMap.get_erase]
        split
        · next heq => rw [← heq, hentry]
        · rfl
      have hinv := hi.forget hno hmem
      rw [herase] at hinv
      exact ⟨_, rfl, hinv, rfl, fun t => ⟨fun ht => ⟨ht, hno t ht⟩, And.left⟩, hentry, hmem⟩
    · next entry hentry =>
      obtain ⟨m₁, hremove, hi₁, hframe₁, hpending₁, -⟩ :=
        removeTasks_spec hi (nodup_index_values hs hentry)
          (fun t ht => ((mem_index_values hs hentry).1 ht).1)
      have hno : ∀ t, m₁.Pending t → t.selMgr ≠ some selMgr := by
        intro t ht hsel
        obtain ⟨ht, hout⟩ := (hpending₁ t).1 ht
        exact hout ((mem_index_values hs hentry).2 ⟨ht, hsel⟩)
      have hmem₁ : ∀ s, s ∈ m₁.selectionMgrs.erase selMgr ↔
          selMgr ≠ s ∧ s ∈ m.selectionMgrs := by
        rw [hframe₁.selectionMgrs]
        exact hmem
      rw [hremove]
      refine ⟨_, rfl, hi₁.forget hno ?_, hframe₁.ispMgr, ?_, ?_, hmem₁⟩
      · rw [hframe₁.selectionMgrs]
        exact hmem
      · intro t
        show m₁.Pending t ↔ _
        rw [hpending₁, mem_index_values hs hentry]
        tauto
      · exact (StdMap.get_erase).trans (if_pos rfl)
  · next hreg =>
    refine ⟨m, rfl, hi, rfl, ?_, ?_, ?_⟩
    · intro t
      refine ⟨fun ht => ⟨ht, fun hsel => hreg (hs.held_registered (.inl ht) hsel)⟩, And.left⟩
    · by_contra hne
      exact hreg (hs.registered selMgr (StdMap.mem_iff_get.2 (Option.ne_none_iff_exists'.1 hne)))
    · intro s
      refine ⟨fun hs => ⟨?_, hs⟩, And.right⟩
      rintro rfl
      exact hreg hs

/-- The task that a round of the loop takes off the heap. -/
theorem due_spec {now : Int} (hdue : m.due now = some task) :
    m.Pending task ∧ m.tasks.top = task ∧ 0 < m.tasks.size ∧ task.exectime ≤ now ∧
      m.ispMgr = true := by
  unfold due at hdue
  split at hdue
  · cases hdue
  next hisp =>
  split at hdue
  · cases hdue
  next hsize =>
  split at hdue
  · cases hdue
  next htime =>
  cases hdue
  have hpos : 0 < m.tasks.size := Nat.pos_of_ne_zero hsize
  exact ⟨mem_top hpos, rfl, hpos, by omega, by simpa using hisp⟩

/-- The state in which a task is executed. -/
theorem pop_inv {now : Int} (hi : Inv m none) (hdue : m.due now = some task) :
    ∃ tasks, pop Task.less Task.earlier m.tasks = some tasks ∧
      Inv { m with tasks, history := .executed task.key :: m.history } (some task) ∧
      ∀ t, tasks.Mem t ↔ m.Pending t ∧ t ≠ task := by
  have hs := hi.store
  obtain ⟨ht, htop, hpos, -⟩ := due_spec hdue
  obtain ⟨tasks, hpop, hwf, hmem⟩ := pop_spec Task.less_order Task.earlier_order hs.heap hpos
  rw [htop] at hmem
  have hheld : ∀ t, (tasks.Mem t ∨ some task = some t) ↔ m.Held none t := by
    intro t
    rw [hmem, Held, Option.some.injEq]
    constructor
    · rintro (⟨h, -⟩ | rfl)
      · exact .inl h
      · exact .inl ht
    · rintro (h | h)
      · by_cases heq : task = t
        · exact .inr heq
        · exact .inl ⟨h, Ne.symm heq⟩
      · cases h
  refine ⟨tasks, hpop, ⟨⟨hwf, ?_, ?_, ?_, ?_, hs.registered⟩, ?_⟩, hmem⟩
  · intro selMgr addr t
    exact (hs.index selMgr addr t).trans (and_congr_left' (hheld t).symm)
  · exact fun t u ht hu => hs.addr t u ((hheld t).1 ht) ((hheld u).1 hu)
  · exact fun t ht => hs.live t ((hheld t).1 ht)
  · rintro t heq hmem'
    cases heq
    exact ((hmem task).1 hmem').2 rfl
  · exact hi.requests.ended hs ht rfl (.inl rfl) hmem rfl

theorem runTask_throws {allocator : Allocator} {now : Int} {outcome : Outcome}
    (hdue : m.due now = some task) (h : Throws outcome task) :
    m.runTask allocator now outcome = none := by
  rw [runTask, hdue]
  dsimp only
  split
  · rfl
  · rw [executeTask_throws h]

/-- What one round of the loop leaves: the task's requests and nothing else. -/
structure Ran (m m' : UpdateManager) (outcome : Outcome) (task : Task) : Prop where
  inv : Inv m' none
  frame : Frame m m'
  history : m'.history =
    record (asks m.selectionMgrs outcome task) (.executed task.key :: m.history)

theorem runTask_spec (allocator : Allocator) {now : Int} (outcome : Outcome) (hi : Inv m none)
    (hdue : m.due now = some task) :
    (∃ m', m.runTask allocator now outcome = some m' ∧ Ran m m' outcome task) ∨
    (m.runTask allocator now outcome = none ∧ Throws outcome task) := by
  obtain ⟨tasks, hpop, hi₁, hmem⟩ := pop_inv hi hdue
  have hreg : ∀ selMgr, task.selMgr = some selMgr → selMgr ∈ m.selectionMgrs :=
    fun selMgr hsel => hi.store.held_registered (.inl (due_spec hdue).1) hsel
  rw [runTask, hdue]
  simp only [hpop]
  rcases executeTask_spec allocator outcome task hi₁ hreg with ⟨m₂, hexec, h₂⟩ | ⟨hexec, hnone⟩
  · left
    rw [hexec]
    simp only [removeTask, Bool.false_eq_true, if_false]
    have hs₂ := h₂.inv.store
    obtain ⟨htasks, hframe, hhistory, -⟩ := deleteTask_frame m₂ task
    have hs₃ : Store (m₂.deleteTask task) none := by
      refine deleteTask_spec hs₂ (.inr rfl) hs₂.heap (fun u => ?_) (by simp)
      constructor
      · rintro (hu | hu)
        · refine ⟨.inl hu, ?_⟩
          rintro rfl
          exact hs₂.out u rfl hu
        · cases hu
      · rintro ⟨hu | hu, hne⟩
        · exact .inl hu
        · exact absurd (Option.some.inj hu).symm hne
    refine ⟨_, rfl, ⟨hs₃, ?_⟩, ?_, ?_⟩
    · have hr := h₂.inv.requests
      constructor
      · intro t ht
        rw [hhistory]
        rw [Pending, htasks] at ht
        exact hr.least t ht
      · intro key hkey
        rw [hhistory] at hkey
        obtain ⟨t, ht, hk⟩ := hr.covered key hkey
        refine ⟨t, ?_, hk⟩
        rw [Pending, htasks]
        exact ht
    · exact ⟨hframe.ispMgr.trans h₂.frame.ispMgr,
        hframe.selectionMgrs.trans h₂.frame.selectionMgrs⟩
    · rw [hhistory, h₂.history]
  · right
    rw [hexec]
    exact ⟨rfl, hnone⟩

theorem setISPManager_spec (allocator : Allocator) (isps : List Nat) (hi : Inv m none) :
    ∃ m', m.setISPManager allocator isps = some m' ∧ Inv m' none ∧
      m'.selectionMgrs = m.selectionMgrs ∧
      (m.ispMgr = true ∧ m' = m ∨ m.ispMgr = false ∧ m'.ispMgr = true ∧
        m'.history = record (asksAll .pidMap (isps.map fun isp => (isp, none))) m.history) := by
  rw [setISPManager]
  cases hisp : m.ispMgr with
  | true => exact ⟨m, rfl, hi, rfl, .inl ⟨rfl, rfl⟩⟩
  | false =>
    have hi' : Inv { m with ispMgr := true } none :=
      ⟨⟨hi.store.heap, hi.store.index, hi.store.addr, hi.store.live, hi.store.out,
        hi.store.registered⟩, hi.requests.least, hi.requests.covered⟩
    have hreg : ∀ p ∈ isps.map fun isp => ((isp, none) : Nat × Option Nat), ∀ selMgr,
        p.2 = some selMgr → selMgr ∈ m.selectionMgrs := by
      intro p hp selMgr hsel
      obtain ⟨isp, -, rfl⟩ := List.mem_map.1 hp
      cases hsel
    obtain ⟨m', henqueue, h⟩ := enqueueAll_spec allocator .pidMap hi' hreg
    exact ⟨m', henqueue, h.inv, h.frame.selectionMgrs, .inr ⟨rfl, h.frame.ispMgr, h.history⟩⟩

theorem addSelectionManager_spec (allocator : Allocator) (selMgr : Nat) (isps : List Nat)
    (hi : Inv m none) :
    ∃ m', m.addSelectionManager allocator selMgr isps = some m' ∧ Inv m' none ∧
      m'.ispMgr = m.ispMgr ∧
      (m' = m ∨ m.ispMgr = true ∧ m'.selectionMgrs = m.selectionMgrs.insert selMgr ∧ m'.history =
        record (asksAll .guidance (isps.map fun isp => (isp, some selMgr))) m.history) := by
  rw [addSelectionManager]
  split
  · exact ⟨m, rfl, hi, rfl, .inl rfl⟩
  next hset =>
  split
  · exact ⟨m, rfl, hi, rfl, .inl rfl⟩
  · have hi' : Inv { m with selectionMgrs := m.selectionMgrs.insert selMgr } none :=
      ⟨⟨hi.store.heap, hi.store.index, hi.store.addr, hi.store.live, hi.store.out,
        fun s hs => StdSet.mem_insert.2 (.inr (hi.store.registered s hs))⟩,
        hi.requests.least, hi.requests.covered⟩
    have hreg : ∀ p ∈ isps.map fun isp => (isp, some selMgr), ∀ s,
        p.2 = some s → s ∈ m.selectionMgrs.insert selMgr := by
      intro p hp s hsel
      obtain ⟨isp, -, rfl⟩ := List.mem_map.1 hp
      cases hsel
      exact StdSet.mem_insert.2 (.inl rfl)
    obtain ⟨m', henqueue, h⟩ := enqueueAll_spec allocator .guidance hi' hreg
    exact ⟨m', henqueue, h.inv, h.frame.ispMgr, .inr ⟨by simpa using hset, h.frame.selectionMgrs,
      h.history⟩⟩

theorem runTask_due {allocator : Allocator} {now : Int} {outcome : Outcome}
    (h : m.runTask allocator now outcome = some m') : ∃ task, m.due now = some task := by
  cases hdue : m.due now with
  | none => simp [runTask, hdue] at h
  | some task => exact ⟨task, rfl⟩

/-- Every step keeps the invariant. -/
theorem step_inv {allocator : Allocator} {label : Step} (hi : Inv m none)
    (h : m.step allocator label = some m') : Inv m' none := by
  cases label with
  | setISPManager isps =>
    obtain ⟨_, h', hi', -⟩ := setISPManager_spec allocator isps hi
    cases h'.symm.trans h
    exact hi'
  | addSelectionManager selMgr isps =>
    obtain ⟨_, h', hi', -⟩ := addSelectionManager_spec allocator selMgr isps hi
    cases h'.symm.trans h
    exact hi'
  | removeSelectionManager selMgr =>
    obtain ⟨_, h', hi'⟩ := removeSelectionManager_spec selMgr hi
    cases h'.symm.trans h
    exact hi'.inv
  | run now outcome =>
    obtain ⟨task, hdue⟩ := runTask_due h
    rcases runTask_spec allocator outcome hi hdue with ⟨_, h', hi'⟩ | ⟨hnone, -⟩
    · cases h'.symm.trans h
      exact hi'.inv
    · cases hnone.symm.trans h

theorem run_inv {allocator : Allocator} {steps : List Step}
    (hrun : Run (step allocator) (fun _ _ => True) init steps m) : Inv m none :=
  hrun.invariant inv_init fun _ _ _ hi _ h => step_inv hi h

/-- In every reachable state there is at most one pending task for each key, with the earliest
time asked for since the key was last executed or removed; the index holds exactly the pending
tasks of each selection manager; and a selection manager that is removed leaves nothing behind. -/
theorem tasks_consistent (allocator : Allocator) (steps : List Step) (m : UpdateManager)
    (hrun : Run (step allocator) (fun _ _ => True) init steps m) :
    (∀ t u, m.Pending t → m.Pending u → t.key = u.key → t = u) ∧
    (∀ t, m.Pending t → t.exectime ∈ since m.history t.key ∧
      ∀ x ∈ since m.history t.key, t.exectime ≤ x) ∧
    (∀ selMgr addr t, m.indexed selMgr addr = some t ↔
      m.Pending t ∧ t.selMgr = some selMgr ∧ t.addr = addr) ∧
    ∀ selMgr, ∃ m', m.step allocator (.removeSelectionManager selMgr) = some m' ∧
      (∀ t, m'.Pending t → t.selMgr ≠ some selMgr) ∧ m'.selmgrTasks[selMgr]? = none := by
  have hi := run_inv hrun
  refine ⟨fun t u ht hu => hi.store.key_unique ht hu, hi.requests.least, ?_, ?_⟩
  · intro selMgr addr t
    rw [hi.store.index, Held]
    simp
  · intro selMgr
    obtain ⟨m', hremove, h⟩ := removeSelectionManager_spec selMgr hi
    exact ⟨m', hremove, fun t ht => ((h.pending t).1 ht).2, h.entry⟩

/-- The addresses one after the other. -/
def sampleAllocator : Allocator where
  alloc live := live.foldr max 0 + 1
  fresh := foldr_max_succ_notMem

/-- Two ISPs and a selection manager: the PID map of the first ISP is loaded, the guidance of the second
one is computed, and the pDistances of the first one are loaded. -/
def sampleSteps : List Step :=
  [.setISPManager [1, 2], .addSelectionManager 7 [1, 2], .run 100 ⟨100, 0, 3600, 0, some 0, 160⟩,
    .run 100 ⟨100, 0, 3600, 0, some 0, 160⟩, .run 100 ⟨100, 0, 3600, 0, some 0, 160⟩]

/-- The tasks of the selection manager are gone once it is removed. -/
theorem tasks_consistent_run :
    ∃ m, Run (step sampleAllocator) (fun _ _ => True) init sampleSteps m ∧ m.tasks.size = 5 ∧
      ∃ m', m.step sampleAllocator (.removeSelectionManager 7) = some m' ∧
        (∀ t, m'.Pending t → t.selMgr ≠ some 7) ∧ m'.selmgrTasks[7]? = none := by
  have hrun : Run (step sampleAllocator) (fun _ _ => True) init sampleSteps _ :=
    .cons trivial rfl (.cons trivial rfl (.cons trivial rfl (.cons trivial rfl
      (.cons trivial rfl (.nil _)))))
  exact ⟨_, hrun, rfl, (tasks_consistent sampleAllocator _ _ hrun).2.2.2 7⟩

end UpdateManager

end Alto.App
