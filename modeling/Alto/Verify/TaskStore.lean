import Alto.App.UpdateManager
import Alto.Verify.HeapWithDelete

/-!
# The tasks of the update manager

The two structures that hold the tasks of `P4PUpdateManager`, and what the task operations do to
them. While a task is executed it has left the heap and is still in the index; `Store` takes this
task as an argument. `Requests` ties the pending tasks to the requests that have been made, and
`enqueueTask` keeps both.
-/

namespace Alto.App

open Common Lib RandomAccessSet MaxHeapWithDelete

/-! ## The comparators -/

namespace Task

theorem less_iff {t u : Task} :
    t.less u ↔ t.type.toNat < u.type.toNat ∨ t.type.toNat = u.type.toNat ∧
      (t.isp < u.isp ∨ t.isp = u.isp ∧ t.selMgrPtr < u.selMgrPtr) := by
  unfold less
  split
  · simp only [true_iff]; omega
  split
  · simp only [Bool.false_eq_true, false_iff]; omega
  split
  · simp only [true_iff]; omega
  split
  · simp only [Bool.false_eq_true, false_iff]; omega
  split
  · simp only [true_iff]; omega
  split <;> simp only [Bool.false_eq_true, false_iff] <;> omega

theorem less_order : StrictWeakOrder less where
  irrefl a := by rw [less_iff]; omega
  trans := by
    intro a b c
    simp only [less_iff]
    omega
  negTrans := by
    intro a b c
    simp only [less_iff]
    omega

theorem earlier_order : StrictWeakOrder earlier where
  irrefl a := by simp [earlier]
  trans := by
    intro a b c
    simp only [earlier, decide_eq_true_eq]
    omega
  negTrans := by
    intro a b c
    simp only [earlier, decide_eq_true_eq]
    omega

theorem toNat_injective {a b : TaskType} (h : a.toNat = b.toNat) : a = b := by
  cases a <;> cases b <;> first | rfl | cases h

theorem selMgrPtr_injective {t u : Task} (h : t.selMgrPtr = u.selMgrPtr) :
    t.selMgr = u.selMgr := by
  unfold selMgrPtr at h
  split at h <;> split at h <;> simp_all

/-- Two tasks are duplicates if their keys are the same. -/
theorem equiv_iff {t u : Task} : equiv less t u ↔ t.key = u.key := by
  simp only [equiv, Bool.and_eq_true, Bool.not_eq_eq_eq_not, Bool.not_true, ← Bool.not_eq_true,
    less_iff, key, Prod.mk.injEq]
  constructor
  · rintro ⟨h₁, h₂⟩
    exact ⟨toNat_injective (by omega), by omega, selMgrPtr_injective (by omega)⟩
  · rintro ⟨h₁, h₂, h₃⟩
    have hptr : t.selMgrPtr = u.selMgrPtr := by rw [selMgrPtr, selMgrPtr, h₃]
    rw [h₁, h₂, hptr]
    omega

end Task

namespace UpdateManager

variable {m m' : UpdateManager} {running : Option Task} {task t u : Task} {selMgr : Nat}

/-! ## Two structures for the tasks -/

/-- A task in the heap. -/
def Pending (m : UpdateManager) (t : Task) : Prop := m.tasks.Mem t

/-- A task that has not been deleted: it is pending or executed. -/
def Held (m : UpdateManager) (running : Option Task) (t : Task) : Prop :=
  m.Pending t ∨ running = some t

/-- The entry of `m_selmgr_tasks` at an address. -/
def indexed (m : UpdateManager) (selMgr addr : Nat) : Option Task :=
  (m.selmgrTasks[selMgr]?.getD ∅)[addr]?

/-- The heap and the index agree while `running` is executed. -/
structure Store (m : UpdateManager) (running : Option Task) : Prop where
  heap : WellFormed Task.less Task.earlier m.tasks
  index : ∀ selMgr addr t, m.indexed selMgr addr = some t ↔
    m.Held running t ∧ t.selMgr = some selMgr ∧ t.addr = addr
  addr : ∀ t u, m.Held running t → m.Held running u → t.addr = u.addr → t = u
  live : ∀ t, m.Held running t → t.addr ∈ m.live
  out : ∀ t, running = some t → ¬ m.Pending t
  registered : ∀ selMgr, selMgr ∈ m.selmgrTasks → selMgr ∈ m.selectionMgrs

/-- What no task operation changes. -/
structure Frame (m m' : UpdateManager) : Prop where
  ispMgr : m'.ispMgr = m.ispMgr
  selectionMgrs : m'.selectionMgrs = m.selectionMgrs

theorem Frame.refl (m : UpdateManager) : Frame m m := ⟨rfl, rfl⟩

theorem Frame.trans {m₁ m₂ m₃ : UpdateManager} (h₁ : Frame m₁ m₂) (h₂ : Frame m₂ m₃) :
    Frame m₁ m₃ :=
  ⟨h₂.ispMgr.trans h₁.ispMgr, h₂.selectionMgrs.trans h₁.selectionMgrs⟩

/-- Two pending tasks have different keys. -/
theorem Store.key_unique (hs : Store m running) (ht : m.Pending t) (hu : m.Pending u)
    (hkey : t.key = u.key) : t = u :=
  hs.heap.indexed.mem_unique ht hu (Task.equiv_iff.2 hkey)

theorem Store.held_registered (hs : Store m running) (ht : m.Held running t)
    (hsel : t.selMgr = some selMgr) : selMgr ∈ m.selectionMgrs := by
  apply hs.registered
  have hidx := (hs.index selMgr t.addr t).2 ⟨ht, hsel, rfl⟩
  rw [indexed] at hidx
  rw [StdMap.mem_iff_get]
  cases hget : m.selmgrTasks[selMgr]? with
  | none => simp [hget] at hidx
  | some indexed => exact ⟨indexed, rfl⟩

theorem findValue_none (hs : Store m running) (hnone : m.tasks.findValue task = none)
    (ht : m.Pending t) : t.key ≠ task.key := by
  intro hkey
  have hfind : m.tasks.find task = none := by
    simpa [MaxHeapWithDelete.findValue] using hnone
  exact hs.heap.indexed.find_none hfind ht (Task.equiv_iff.2 hkey.symm)

theorem findValue_some (hs : Store m running) (hsome : m.tasks.findValue task = some t) :
    m.Pending t ∧ t.key = task.key := by
  obtain ⟨idx, hfind, rfl⟩ := Option.map_eq_some_iff.1 hsome
  obtain ⟨hidx, hequiv⟩ := hs.heap.indexed.vec_index task idx hfind
  exact ⟨⟨idx, hidx, rfl⟩, (Task.equiv_iff.1 hequiv).symm⟩

/-! ## The index -/

/-- What `addTask` does once the task is in the heap. -/
theorem addTask_eq {tasks : MaxHeapWithDelete Task}
    (hpush : push Task.less Task.earlier m.tasks task = some tasks) :
    ∃ m', m.addTask task = some m' ∧ m'.tasks = tasks ∧ Frame m m' ∧ m'.history = m.history ∧
      m'.live = m.live ∧
      (∀ selMgr addr, m'.indexed selMgr addr =
        if task.selMgr = some selMgr ∧ task.addr = addr ∧ m.indexed selMgr addr = none then
          some task
        else m.indexed selMgr addr) ∧
      ∀ selMgr, selMgr ∈ m'.selmgrTasks ↔ selMgr ∈ m.selmgrTasks ∨ task.selMgr = some selMgr := by
  rw [addTask, hpush]
  cases hsel : task.selMgr with
  | none => exact ⟨_, rfl, rfl, ⟨rfl, rfl⟩, rfl, rfl, by simp [indexed], by simp⟩
  | some s =>
    refine ⟨_, rfl, rfl, ⟨rfl, rfl⟩, rfl, rfl, fun selMgr addr => ?_, fun selMgr => ?_⟩
    · simp only [indexed, StdMap.get_insert, Option.some.injEq]
      by_cases hs : s = selMgr
      · subst hs
        simp only [if_true, Option.getD_some, StdMap.get_insertIfNew, true_and]
        by_cases ha : task.addr = addr
        · subst ha
          simp
        · simp [ha]
      · simp [hs]
    · simp only [StdMap.mem_iff_get, StdMap.get_insert, Option.some.injEq]
      by_cases hs : s = selMgr <;> simp [hs]

theorem deleteTask_frame (m : UpdateManager) (task : Task) :
    (m.deleteTask task).tasks = m.tasks ∧ Frame m (m.deleteTask task) ∧
      (m.deleteTask task).history = m.history ∧
      (m.deleteTask task).live = m.live.erase task.addr := by
  unfold deleteTask
  split <;> exact ⟨rfl, ⟨rfl, rfl⟩, rfl, rfl⟩

theorem deleteTask_indexed (m : UpdateManager) (task : Task) (selMgr addr : Nat) :
    (m.deleteTask task).indexed selMgr addr =
      if task.selMgr = some selMgr ∧ task.addr = addr then none else m.indexed selMgr addr := by
  unfold deleteTask
  cases hsel : task.selMgr with
  | none => simp [indexed]
  | some s =>
    simp only [indexed, StdMap.get_insert, Option.some.injEq]
    by_cases hs : s = selMgr
    · subst hs
      simp [StdMap.get_erase]
    · simp [hs]

theorem deleteTask_mem (m : UpdateManager) (task : Task) :
    selMgr ∈ (m.deleteTask task).selmgrTasks ↔
      selMgr ∈ m.selmgrTasks ∨ task.selMgr = some selMgr := by
  unfold deleteTask
  cases hsel : task.selMgr with
  | none => simp
  | some s =>
    simp only [StdMap.mem_iff_get, StdMap.get_insert, Option.some.injEq]
    by_cases hs : s = selMgr <;> simp [hs]

/-! ## Adding and removing a task -/

theorem addTask_spec (hs : Store m running) (hkey : ∀ t, m.Pending t → t.key ≠ task.key)
    (haddr : ∀ t, m.Held running t → t.addr ≠ task.addr) (hlive : task.addr ∈ m.live)
    (hreg : ∀ selMgr, task.selMgr = some selMgr → selMgr ∈ m.selectionMgrs) :
    ∃ m', m.addTask task = some m' ∧ Store m' running ∧ Frame m m' ∧ m'.history = m.history ∧
      ∀ t, m'.Pending t ↔ m.Pending t ∨ t = task := by
  have hfind : m.tasks.find task = none := by
    cases hfind : m.tasks.find task with
    | none => rfl
    | some idx =>
      obtain ⟨hidx, hequiv⟩ := hs.heap.indexed.vec_index task idx hfind
      exact absurd (Task.equiv_iff.1 hequiv).symm (hkey _ ⟨idx, hidx, rfl⟩)
  obtain ⟨tasks, hpush, hwf, hmem⟩ :=
    push_spec Task.less_order Task.earlier_order hs.heap hfind
  obtain ⟨m', hadd, htasks, hframe, hhistory, hlive', hindexed, hkeys⟩ := addTask_eq hpush
  have hpending : ∀ t, m'.Pending t ↔ m.Pending t ∨ t = task := by
    intro t
    rw [Pending, htasks]
    exact hmem t
  have hheld : ∀ t, m'.Held running t ↔ m.Held running t ∨ t = task := by
    intro t
    rw [Held, hpending, Held]
    tauto
  refine ⟨m', hadd, ?_, hframe, hhistory, hpending⟩
  constructor
  · rwa [htasks]
  · intro selMgr addr t
    rw [hindexed, hheld]
    split
    · next h =>
      obtain ⟨hsel, ha, hnone⟩ := h
      simp only [Option.some.injEq]
      constructor
      · rintro rfl
        exact ⟨.inr rfl, hsel, ha⟩
      · rintro ⟨ht | rfl, hsel', ha'⟩
        · exact absurd (ha'.trans ha.symm) (haddr t ht)
        · rfl
    · next h =>
      rw [hs.index]
      constructor
      · exact fun ⟨ht, hrest⟩ => ⟨.inl ht, hrest⟩
      · rintro ⟨ht | rfl, hsel, ha⟩
        · exact ⟨ht, hsel, ha⟩
        · refine absurd ⟨hsel, ha, ?_⟩ h
          rw [Option.eq_none_iff_forall_ne_some]
          intro u hu
          obtain ⟨hu, -, hua⟩ := (hs.index _ _ _).1 hu
          exact haddr u hu (hua.trans ha.symm)
  · intro t u ht hu heq
    rcases (hheld t).1 ht with ht | rfl <;> rcases (hheld u).1 hu with hu | rfl
    · exact hs.addr t u ht hu heq
    · exact absurd heq (haddr t ht)
    · exact absurd heq.symm (haddr u hu)
    · rfl
  · intro t ht
    rw [hlive']
    rcases (hheld t).1 ht with ht | rfl
    · exact hs.live t ht
    · exact hlive
  · intro t ht hp
    rcases (hpending t).1 hp with hp | rfl
    · exact hs.out t ht hp
    · exact haddr t (.inr ht) rfl
  · intro selMgr hmem
    rw [hframe.selectionMgrs]
    rcases (hkeys selMgr).1 hmem with hmem | hsel
    · exact hs.registered selMgr hmem
    · exact hreg selMgr hsel

/-- Deleting a task that has left the heap. -/
theorem deleteTask_spec {heap : MaxHeapWithDelete Task} {running' : Option Task}
    (hs : Store m running) (ht : m.Held running task)
    (hwf : WellFormed Task.less Task.earlier heap)
    (hheld : ∀ u, (heap.Mem u ∨ running' = some u) ↔ m.Held running u ∧ u ≠ task)
    (hout : ∀ u, running' = some u → ¬ heap.Mem u) :
    Store (deleteTask { m with tasks := heap } task) running' := by
  obtain ⟨htasks, hframe, -, hlive⟩ := deleteTask_frame { m with tasks := heap } task
  have hheld' : ∀ u, (deleteTask { m with tasks := heap } task).Held running' u ↔
      m.Held running u ∧ u ≠ task := by
    intro u
    rw [Held, Pending, htasks]
    exact hheld u
  constructor
  · rwa [htasks]
  · intro selMgr addr u
    rw [deleteTask_indexed, hheld']
    show (if _ then _ else m.indexed selMgr addr) = some u ↔ _
    split
    · next h =>
      simp only [reduceCtorEq, false_iff]
      rintro ⟨⟨hu, hne⟩, -, ha⟩
      exact hne (hs.addr u task hu ht (ha.trans h.2.symm))
    · next h =>
      rw [hs.index]
      constructor
      · rintro ⟨hu, hsel, ha⟩
        refine ⟨⟨hu, ?_⟩, hsel, ha⟩
        rintro rfl
        exact h ⟨hsel, ha⟩
      · exact fun ⟨⟨hu, _⟩, hrest⟩ => ⟨hu, hrest⟩
  · intro u v hu hv heq
    exact hs.addr u v ((hheld' u).1 hu).1 ((hheld' v).1 hv).1 heq
  · intro u hu
    obtain ⟨hu, hne⟩ := (hheld' u).1 hu
    rw [hlive]
    have haddr : u.addr ≠ task.addr := fun heq => hne (hs.addr u task hu ht heq)
    exact (List.mem_erase_of_ne haddr).2 (hs.live u hu)
  · intro u hu
    rw [Pending, htasks]
    exact hout u hu
  · intro selMgr hmem
    rw [hframe.selectionMgrs]
    rcases (deleteTask_mem _ _).1 hmem with hmem | hsel
    · exact hs.registered selMgr hmem
    · exact hs.held_registered ht hsel

theorem removeTask_spec (hs : Store m running) (ht : m.Pending task) :
    ∃ m', m.removeTask task true = some m' ∧ Store m' running ∧ Frame m m' ∧
      m'.history = m.history ∧ m'.live = m.live.erase task.addr ∧
      ∀ u, m'.Pending u ↔ m.Pending u ∧ u ≠ task := by
  obtain ⟨idx, hidx, rfl⟩ := ht
  have hfind := hs.heap.indexed.index_vec idx hidx
  obtain ⟨heap, herase, hwf, hmem⟩ :=
    erase_spec Task.less_order Task.earlier_order hs.heap hfind
  have ht : m.Pending (m.tasks.vec idx) := ⟨idx, hidx, rfl⟩
  have hdelete := deleteTask_frame { m with tasks := heap } (m.tasks.vec idx)
  refine ⟨deleteTask { m with tasks := heap } (m.tasks.vec idx), ?_, ?_,
    ⟨hdelete.2.1.ispMgr, hdelete.2.1.selectionMgrs⟩, hdelete.2.2.1, hdelete.2.2.2, ?_⟩
  · rw [removeTask, if_pos rfl, herase]
  · apply deleteTask_spec hs (.inl ht) hwf
    · intro u
      rw [hmem, Held]
      constructor
      · rintro (⟨hu, hne⟩ | hu)
        · exact ⟨.inl hu, hne⟩
        · refine ⟨.inr hu, ?_⟩
          rintro rfl
          exact hs.out _ hu ht
      · rintro ⟨hu | hu, hne⟩
        · exact .inl ⟨hu, hne⟩
        · exact .inr hu
    · exact fun u hu hp => hs.out u hu ((hmem u).1 hp).1
  · intro u
    rw [Pending, hdelete.1]
    exact hmem u

/-! ## The requests -/

/-- The execution times asked for a key since it was last executed or removed. -/
def since : List Event → Key → List Int
  | [], _ => []
  | .requested k exectime :: history, key =>
    if k = key then exectime :: since history key else since history key
  | .executed k :: history, key => if k = key then [] else since history key
  | .removed k :: history, key => if k = key then [] else since history key

/-- The pending tasks are what has been asked for, at the earliest time. -/
structure Requests (m : UpdateManager) : Prop where
  least : ∀ t, m.Pending t → t.exectime ∈ since m.history t.key ∧
    ∀ x ∈ since m.history t.key, t.exectime ≤ x
  covered : ∀ key, since m.history key ≠ [] → ∃ t, m.Pending t ∧ t.key = key

/-- The invariant of the update manager while `running` is executed. -/
structure Inv (m : UpdateManager) (running : Option Task) : Prop where
  store : Store m running
  requests : Requests m

/-- A key is taken off the requests together with its task. -/
theorem Requests.ended {event : Event} {key : Key} (hr : Requests m) (hs : Store m running)
    (ht : m.Pending t) (hkey : t.key = key)
    (hevent : event = .executed key ∨ event = .removed key)
    (hpending : ∀ u, m'.Pending u ↔ m.Pending u ∧ u ≠ t)
    (hhistory : m'.history = event :: m.history) : Requests m' := by
  have hsince : ∀ k, since m'.history k = if key = k then [] else since m.history k := by
    intro k
    rw [hhistory]
    rcases hevent with rfl | rfl <;> rfl
  constructor
  · intro u hu
    obtain ⟨hu, hne⟩ := (hpending u).1 hu
    have hk : key ≠ u.key := fun heq => hne (hs.key_unique hu ht (heq.symm.trans hkey.symm))
    rw [hsince, if_neg hk]
    exact hr.least u hu
  · intro k hk
    rw [hsince] at hk
    split at hk
    · exact absurd rfl hk
    · next hne =>
      obtain ⟨u, hu, huk⟩ := hr.covered k hk
      refine ⟨u, (hpending u).2 ⟨hu, ?_⟩, huk⟩
      rintro rfl
      exact hne (hkey.symm.trans huk)

section Enqueue

variable {allocator : Allocator} {exectime : Int} {type : TaskType} {isp : Nat}
  {selMgr? : Option Nat}

/-- A request for a key. -/
theorem since_requested {history : List Event} {k key : Key} {x : Int} :
    since (.requested k x :: history) key =
      if k = key then x :: since history key else since history key := rfl

/-- The requests after `enqueueTask`: the task for the key is the new one or an earlier one. -/
theorem Requests.requested (hr : Requests m)
    (hhistory : m'.history = .requested t.key exectime :: m.history) (ht : m'.Pending t)
    (hother : ∀ u, u.key ≠ t.key → (m'.Pending u ↔ m.Pending u))
    (hunique : ∀ u, m'.Pending u → u.key = t.key → u = t)
    (hleast : t.exectime ∈ exectime :: since m.history t.key ∧
      ∀ x ∈ exectime :: since m.history t.key, t.exectime ≤ x) : Requests m' := by
  constructor
  · intro u hu
    rw [hhistory, since_requested]
    by_cases hk : t.key = u.key
    · rw [if_pos hk, hunique u hu hk.symm]
      exact hleast
    · rw [if_neg hk]
      exact hr.least u ((hother u (Ne.symm hk)).1 hu)
  · intro k hk
    rw [hhistory, since_requested] at hk
    by_cases hkey : t.key = k
    · exact ⟨t, ht, hkey⟩
    · rw [if_neg hkey] at hk
      obtain ⟨u, hu, rfl⟩ := hr.covered k hk
      exact ⟨u, (hother u (Ne.symm hkey)).2 hu, rfl⟩

/-- `m₁` is `m` with a new task allocated and its request recorded. -/
structure Allocated (m : UpdateManager) (running : Option Task) (task : Task)
    (m₁ : UpdateManager) : Prop where
  store : Store m₁ running
  frame : Frame m m₁
  pending : ∀ t, m₁.Pending t ↔ m.Pending t
  history : m₁.history = .requested task.key task.exectime :: m.history
  live : task.addr ∈ m₁.live
  fresh : ∀ t, m₁.Held running t → t.addr ≠ task.addr
  registered : ∀ selMgr, task.selMgr = some selMgr → selMgr ∈ m₁.selectionMgrs

/-- There is no task with the key. -/
theorem Allocated.adds {m₁ : UpdateManager} (hr : Requests m) (h : Allocated m running task m₁)
    (hfind : m₁.tasks.findValue task = none) :
    ∃ m', m₁.addTask task = some m' ∧ Inv m' running ∧ Frame m m' ∧
      m'.history = .requested task.key task.exectime :: m.history := by
  have hno : ∀ t, m₁.Pending t → t.key ≠ task.key := fun t => findValue_none h.store hfind
  obtain ⟨m', hadd, hs', hframe, hhistory, hpending⟩ :=
    addTask_spec h.store hno h.fresh h.live h.registered
  have hhistory' := hhistory.trans h.history
  refine ⟨m', hadd, ⟨hs', ?_⟩, h.frame.trans hframe, hhistory'⟩
  have hnil : since m.history task.key = [] := by
    by_contra hne
    obtain ⟨t, ht, hk⟩ := hr.covered _ hne
    exact hno t ((h.pending t).2 ht) hk
  apply hr.requested hhistory' ((hpending task).2 (.inr rfl))
  · intro u hu
    rw [hpending, h.pending]
    refine or_iff_left ?_
    rintro rfl
    exact hu rfl
  · intro u hu hk
    rcases (hpending u).1 hu with hu | rfl
    · exact absurd hk (hno u hu)
    · rfl
  · simp [hnil]

/-- The existing task is due no later than the new one. -/
theorem Allocated.keeps {m₁ : UpdateManager} {existing : Task} (hr : Requests m)
    (h : Allocated m running task m₁) (hfind : m₁.tasks.findValue task = some existing)
    (hle : existing.exectime ≤ task.exectime) :
    Inv { m₁ with live := m₁.live.erase task.addr } running := by
  obtain ⟨hex, hexkey⟩ := findValue_some h.store hfind
  have hs := h.store
  refine ⟨⟨hs.heap, hs.index, hs.addr, ?_, hs.out, hs.registered⟩, ?_⟩
  · intro t ht
    exact (List.mem_erase_of_ne (h.fresh t ht)).2 (hs.live t ht)
  · have hleast := hr.least existing ((h.pending existing).1 hex)
    have hhistory : m₁.history = .requested existing.key task.exectime :: m.history := by
      rw [h.history, hexkey]
    refine hr.requested hhistory hex (fun u _ => h.pending u)
      (fun u hu hk => hs.key_unique hu hex hk) ⟨List.mem_cons_of_mem _ hleast.1, ?_⟩
    intro x hx
    rcases List.mem_cons.1 hx with rfl | hx
    · exact hle
    · exact hleast.2 x hx

/-- The existing task is replaced. -/
theorem Allocated.replaces {m₁ : UpdateManager} {existing : Task} (hr : Requests m)
    (h : Allocated m running task m₁) (hfind : m₁.tasks.findValue task = some existing)
    (hgt : ¬ existing.exectime ≤ task.exectime) :
    ∃ m₂ m', m₁.removeTask existing true = some m₂ ∧ m₂.addTask task = some m' ∧
      Inv m' running ∧ Frame m m' ∧
      m'.history = .requested task.key task.exectime :: m.history := by
  obtain ⟨hex, hexkey⟩ := findValue_some h.store hfind
  obtain ⟨m₂, hremove, hs₂, hframe₂, hhistory₂, hlive₂, hpending₂⟩ := removeTask_spec h.store hex
  have hno : ∀ t, m₂.Pending t → t.key ≠ task.key := by
    intro t ht hk
    obtain ⟨ht, hne⟩ := (hpending₂ t).1 ht
    exact hne (h.store.key_unique ht hex (hk.trans hexkey.symm))
  have hfresh : ∀ t, m₂.Held running t → t.addr ≠ task.addr := by
    intro t ht
    exact h.fresh t (ht.imp_left fun h => ((hpending₂ t).1 h).1)
  have hlive : task.addr ∈ m₂.live := by
    rw [hlive₂, List.mem_erase_of_ne (h.fresh existing (.inl hex)).symm]
    exact h.live
  have hreg : ∀ selMgr, task.selMgr = some selMgr → selMgr ∈ m₂.selectionMgrs := by
    rw [hframe₂.selectionMgrs]
    exact h.registered
  obtain ⟨m', hadd, hs', hframe, hhistory, hpending⟩ := addTask_spec hs₂ hno hfresh hlive hreg
  have hhistory' := (hhistory.trans hhistory₂).trans h.history
  refine ⟨m₂, m', hremove, hadd, ⟨hs', ?_⟩, (h.frame.trans hframe₂).trans hframe, hhistory'⟩
  apply hr.requested hhistory' ((hpending task).2 (.inr rfl))
  · intro u hu
    rw [hpending, hpending₂, h.pending]
    constructor
    · rintro (⟨hp, -⟩ | rfl)
      · exact hp
      · exact absurd rfl hu
    · intro hp
      refine .inl ⟨hp, ?_⟩
      rintro rfl
      exact hu hexkey
  · intro u hu hk
    rcases (hpending u).1 hu with hu | rfl
    · exact absurd hk (hno u hu)
    · rfl
  · have hleast := hr.least existing ((h.pending existing).1 hex)
    rw [hexkey] at hleast
    refine ⟨List.mem_cons_self, ?_⟩
    intro x hx
    rcases List.mem_cons.1 hx with rfl | hx
    · exact Int.le_refl _
    · have := hleast.2 x hx
      omega

/-- `enqueueTask` never fails, and only records its request. -/
theorem enqueueTask_spec (hi : Inv m running)
    (hreg : ∀ selMgr, selMgr? = some selMgr → selMgr ∈ m.selectionMgrs) :
    ∃ m', m.enqueueTask allocator exectime type isp selMgr? = some m' ∧ Inv m' running ∧
      Frame m m' ∧ m'.history = .requested (type, isp, selMgr?) exectime :: m.history := by
  obtain ⟨hs, hr⟩ := hi
  let addr := allocator.alloc m.live
  let task : Task := ⟨addr, exectime, type, isp, selMgr?⟩
  let m₁ : UpdateManager := { m with
    live := addr :: m.live
    history := .requested task.key exectime :: m.history }
  have h : Allocated m running task m₁ := by
    refine ⟨⟨hs.heap, hs.index, hs.addr, fun t ht => List.mem_cons_of_mem _ (hs.live t ht), hs.out,
      hs.registered⟩, ⟨rfl, rfl⟩, fun _ => Iff.rfl, rfl, List.mem_cons_self, ?_, hreg⟩
    intro t ht heq
    have hlive := hs.live t ht
    rw [heq] at hlive
    exact allocator.fresh m.live hlive
  unfold enqueueTask
  cases hfind : m.tasks.findValue ⟨allocator.alloc m.live, exectime, type, isp, selMgr?⟩ with
  | none =>
    simp only [hfind]
    exact h.adds hr hfind
  | some existing =>
    simp only [hfind]
    by_cases hle : existing.exectime ≤ exectime
    · simp only [if_pos hle]
      exact ⟨_, rfl, h.keeps hr hfind hle, ⟨rfl, rfl⟩, rfl⟩
    · obtain ⟨m₂, m', hremove, hadd, hspec⟩ := h.replaces hr hfind hle
      simp only [m₁, task, addr] at hremove
      simp only [if_neg hle, hremove]
      exact ⟨m', hadd, hspec⟩

/-- The history after requests in this order. -/
def record (asked : List (Key × Int)) (history : List Event) : List Event :=
  asked.foldl (fun history r => .requested r.1 r.2 :: history) history

theorem record_append (asked asked' : List (Key × Int)) (history : List Event) :
    record (asked ++ asked') history = record asked' (record asked history) :=
  List.foldl_append

/-- `m'` comes from `m` by these requests. -/
structure Asked (m m' : UpdateManager) (running : Option Task) (asked : List (Key × Int)) :
    Prop where
  inv : Inv m' running
  frame : Frame m m'
  history : m'.history = record asked m.history

theorem Asked.refl (hi : Inv m running) : Asked m m running [] :=
  ⟨hi, .refl m, rfl⟩

theorem Asked.trans {m₁ m₂ m₃ : UpdateManager} {asked asked' : List (Key × Int)}
    (h₁ : Asked m₁ m₂ running asked) (h₂ : Asked m₂ m₃ running asked') :
    Asked m₁ m₃ running (asked ++ asked') :=
  ⟨h₂.inv, h₁.frame.trans h₂.frame, by rw [h₂.history, h₁.history, record_append]⟩

theorem enqueueTask_asked (allocator : Allocator) (exectime : Int) (type : TaskType) (isp : Nat)
    (hi : Inv m running) (hreg : ∀ selMgr, selMgr? = some selMgr → selMgr ∈ m.selectionMgrs) :
    ∃ m', m.enqueueTask allocator exectime type isp selMgr? = some m' ∧
      Asked m m' running [((type, isp, selMgr?), exectime)] := by
  obtain ⟨m', henqueue, hi', hframe, hhistory⟩ := enqueueTask_spec hi hreg
  exact ⟨m', henqueue, hi', hframe, hhistory⟩

/-- The requests of a loop. -/
def asksAll (type : TaskType) (l : List (Nat × Option Nat)) : List (Key × Int) :=
  l.map fun p => ((type, p.1, p.2), 0)

theorem enqueueAll_spec (allocator : Allocator) (type : TaskType) {l : List (Nat × Option Nat)}
    (hi : Inv m running)
    (hreg : ∀ p ∈ l, ∀ selMgr, p.2 = some selMgr → selMgr ∈ m.selectionMgrs) :
    ∃ m', enqueueAll allocator type l m = some m' ∧ Asked m m' running (asksAll type l) := by
  induction l generalizing m with
  | nil => exact ⟨m, rfl, .refl hi⟩
  | cons p l ih =>
    obtain ⟨m₁, henqueue, h₁⟩ := enqueueTask_asked allocator 0 type p.1 hi
      (hreg p List.mem_cons_self)
    have hreg₁ : ∀ q ∈ l, ∀ selMgr, q.2 = some selMgr → selMgr ∈ m₁.selectionMgrs := by
      rw [h₁.frame.selectionMgrs]
      exact fun q hq => hreg q (List.mem_cons_of_mem p hq)
    obtain ⟨m', hrest, h'⟩ := ih h₁.inv hreg₁
    refine ⟨m', ?_, h₁.trans h'⟩
    rw [enqueueAll, henqueue]
    exact hrest

end Enqueue

end UpdateManager

end Alto.App
