import Alto.Lib.Agenda
import Alto.Verify.Refresh

/-!
# The loop of the update manager comes to rest

While the clock stands still, the inner loop of `P4PUpdateManager::run` executes the tasks that are
due. A PID map that has been loaded asks for the pDistances at once, and these for guidance, so the
tasks that are due form an agenda in which a task only puts tasks of later types on. The exception is
a task that asks for itself again and is due at once, as it is with a time-to-live of 0: then the loop
does not end.
-/

namespace Alto.App

open Common Lib

namespace UpdateManager

variable {allocator : Allocator} {m m' : UpdateManager} {now : Int} {outcome : Outcome} {task : Task}
  {key : Key}

/-! ## What is due -/

/-- The keys that a history has requested. -/
def requestedKeys : List Event → List Key
  | [] => []
  | .requested k _ :: history => k :: requestedKeys history
  | .executed _ :: history => requestedKeys history
  | .removed _ :: history => requestedKeys history

theorem mem_requestedKeys {history : List Event} {x : Int} (h : x ∈ since history key) :
    key ∈ requestedKeys history := by
  induction history with
  | nil => cases h
  | cons event history ih =>
    cases event with
    | requested k y =>
      rw [since_requested] at h
      split at h
      · next hk => exact hk ▸ List.mem_cons_self
      · exact List.mem_cons_of_mem _ (ih h)
    | executed k =>
      rw [since] at h
      split at h
      · cases h
      · exact ih h
    | removed k =>
      rw [since] at h
      split at h
      · cases h
      · exact ih h

/-- The keys with a task that is due. -/
def dueKeys (m : UpdateManager) (now : Int) : Finset Key :=
  (requestedKeys m.history).toFinset.filter fun key => ∃ x ∈ since m.history key, x ≤ now

theorem mem_dueKeys : key ∈ m.dueKeys now ↔ ∃ x ∈ since m.history key, x ≤ now := by
  rw [dueKeys, Finset.mem_filter, List.mem_toFinset]
  exact ⟨And.right, fun h => ⟨mem_requestedKeys h.choose_spec.1, h⟩⟩

theorem due_mem_dueKeys (hi : Inv m none) (hdue : m.due now = some task) :
    task.key ∈ m.dueKeys now := by
  obtain ⟨ht, -, -, hle, -⟩ := due_spec hdue
  exact mem_dueKeys.2 ⟨_, (hi.requests.least task ht).1, hle⟩

/-- As long as something is due, the loop takes a task. -/
theorem exists_due (hi : Inv m none) (hmgr : m.ispMgr = true) (hkey : key ∈ m.dueKeys now) :
    ∃ task, m.due now = some task := by
  obtain ⟨x, hx, hle⟩ := mem_dueKeys.1 hkey
  obtain ⟨t, ht, rfl⟩ := hi.requests.covered key (List.ne_nil_of_mem hx)
  have hsize : m.tasks.size ≠ 0 := by
    obtain ⟨i, hlt, -⟩ := ht
    omega
  have htop := hi.store.heap.top_max Task.earlier_order ht
  have hleast := (hi.requests.least t ht).2 x hx
  refine ⟨m.tasks.top, ?_⟩
  rw [due, if_neg (by simp [hmgr]), if_neg hsize, if_neg]
  simp only [Task.earlier, decide_eq_true_eq] at htop
  omega

theorem mem_since_record {asked : List (Key × Int)} {history : List Event} {x : Int} :
    x ∈ since (record asked history) key ↔ (key, x) ∈ asked ∨ x ∈ since history key := by
  induction asked generalizing history with
  | nil => simp [record]
  | cons r asked ih =>
    show x ∈ since (record asked (.requested r.1 r.2 :: history)) key ↔ _
    rw [ih, since_requested, List.mem_cons]
    by_cases hk : r.1 = key
    · subst hk
      simp only [if_true, List.mem_cons, Prod.ext_iff, true_and]
      tauto
    · have hne : (key, x) ≠ r := fun h => hk (congrArg Prod.fst h).symm
      simp [hk, hne]

/-- A round takes its task off and puts on what the task asks for at once. -/
theorem Ran.mem_dueKeys (h : Ran m m' outcome task) :
    key ∈ m'.dueKeys now ↔ key ∈ m.dueKeys now ∧ key ≠ task.key ∨
      ∃ x, (key, x) ∈ asks m.selectionMgrs outcome task ∧ x ≤ now := by
  simp only [UpdateManager.mem_dueKeys, h.history, mem_since_record, since]
  by_cases hk : task.key = key
  · subst hk
    simp
  · simp only [hk, if_false, or_and_right, exists_or, ne_eq, Ne.symm hk, not_false_eq_true, and_true]
    rw [or_comm]

/-! ## What a task puts on -/

/-- The first key belongs to tasks of a later type. -/
def Later (key key' : Key) : Prop :=
  key'.1.toNat < key.1.toNat

theorem later_wf : WellFounded Later := by
  have hlt : ∀ type : TaskType, type.toNat ≤ 2 := fun type => by cases type <;> decide
  refine Subrelation.wf (r := InvImage (· < ·) fun key : Key => 2 - key.1.toNat) ?_
    (InvImage.wf _ Nat.lt_wfRel.wf)
  intro key key' h
  have := hlt key.1
  simp only [Later] at h
  simp only [InvImage]
  omega

/-- The task asks for itself again at a time that has come. -/
def Overdue (now : Int) (outcome : Outcome) (task : Task) : Prop :=
  match task.type with
  | .pidMap | .pDistance => outcome.loadP4PInfo = 0 ∧ outcome.ttl ≤ 0
  | .guidance => outcome.updatePeerDistribution ≠ errInvalidISP ∧
      outcome.computeGuidance ≠ some errInvalidISP ∧ outcome.nextComputeTime ≠ timeInvalid ∧
      outcome.nextComputeTime ≤ now

/-- Any other task only puts tasks of later types on. -/
theorem asks_later {selectionMgrs : StdSet Nat} {x : Int} (hnow : outcome.now = now)
    (hok : ¬ Overdue now outcome task) (hmem : (key, x) ∈ asks selectionMgrs outcome task)
    (hle : x ≤ now) : Later key task.key := by
  obtain ⟨addr, exectime, type, isp, selMgr⟩ := task
  cases type with
  | pidMap =>
    simp only [asks, hnow] at hmem
    simp only [Overdue, not_and, not_le] at hok
    split at hmem
    · simp only [List.mem_cons, List.not_mem_nil, or_false, Prod.mk.injEq] at hmem
      omega
    next hload =>
    have := hok (not_not.1 hload)
    simp only [List.mem_cons, List.not_mem_nil, or_false, Prod.mk.injEq] at hmem
    rcases hmem with ⟨-, rfl⟩ | ⟨rfl, -⟩
    · omega
    · exact Nat.zero_lt_one
  | pDistance =>
    simp only [asks, hnow] at hmem
    simp only [Overdue, not_and, not_le] at hok
    split at hmem
    · simp only [List.mem_cons, List.not_mem_nil, or_false, Prod.mk.injEq] at hmem
      omega
    next hload =>
    have := hok (not_not.1 hload)
    rcases List.mem_cons.1 hmem with heq | hmem
    · cases heq
      omega
    · have hkey := List.mem_map_of_mem (f := Prod.fst) hmem
      rw [mem_asksAll] at hkey
      obtain ⟨p, -, rfl⟩ := hkey
      exact Nat.lt_succ_self 1
  | guidance =>
    simp only [asks] at hmem
    split at hmem
    · cases hmem
    next hno =>
    simp only [not_or] at hno
    simp only [List.mem_cons, List.not_mem_nil, or_false, Prod.mk.injEq] at hmem
    obtain ⟨rfl, rfl⟩ := hmem
    exact absurd ⟨hno.1, hno.2.1, hno.2.2, hle⟩ hok

theorem Ran.serves (hi : Inv m none) (hdue : m.due now = some task)
    (h : Ran m m' outcome task) (hnow : outcome.now = now) (hok : ¬ Overdue now outcome task) :
    Serves Later (m.dueKeys now) task.key (m'.dueKeys now) := by
  refine ⟨due_mem_dueKeys hi hdue,
    (((asks m.selectionMgrs outcome task).filter (·.2 ≤ now)).map (·.1)).toFinset, ?_, ?_⟩
  · intro key hkey
    simp only [List.mem_toFinset, List.mem_map, List.mem_filter, decide_eq_true_eq] at hkey
    obtain ⟨⟨key, x⟩, ⟨hmem, hle⟩, rfl⟩ := hkey
    exact asks_later hnow hok hmem hle
  · ext key
    rw [h.mem_dueKeys, Finset.mem_union, Finset.mem_erase, List.mem_toFinset, and_comm]
    refine or_congr_right ?_
    simp only [List.mem_map, List.mem_filter, decide_eq_true_eq]
    constructor
    · rintro ⟨x, hmem, hle⟩
      exact ⟨(key, x), ⟨hmem, hle⟩, rfl⟩
    · rintro ⟨⟨_, x⟩, ⟨hmem, hle⟩, rfl⟩
      exact ⟨x, hmem, hle⟩

/-! ## The loop -/

/-- The update manager after some rounds of the inner loop while the clock stands still; `none` if
there are not so many. -/
def rounds (allocator : Allocator) (now : Int) (outcomes : ℕ → Outcome) (m : UpdateManager) :
    ℕ → Option UpdateManager
  | 0 => some m
  | n + 1 => (rounds allocator now outcomes m n).bind fun m => m.runTask allocator now (outcomes n)

/-- The loop finds no task that is due, and releases the mutex. -/
def Rests (allocator : Allocator) (now : Int) (outcomes : ℕ → Outcome) (m : UpdateManager) : Prop :=
  ∃ n m', rounds allocator now outcomes m n = some m' ∧ m'.due now = none

section Rounds

variable {outcomes : ℕ → Outcome} {n : ℕ}

theorem rounds_inv (hi : Inv m none) (h : rounds allocator now outcomes m n = some m') :
    Inv m' none := by
  induction n generalizing m' with
  | zero =>
    obtain rfl := Option.some.inj h
    exact hi
  | succ n ih =>
    obtain ⟨m₁, h₁, hrun⟩ := Option.bind_eq_some_iff.1 h
    have hstep : m₁.step allocator (.run now (outcomes n)) = some m' := hrun
    exact step_inv (ih h₁) hstep

/-- A round whose task does not throw. -/
theorem rounds_succ (hi : Inv m none) (h : rounds allocator now outcomes m n = some m')
    (hdue : m'.due now = some task) (hok : ¬ Throws (outcomes n) task) :
    ∃ m'', rounds allocator now outcomes m (n + 1) = some m'' ∧ Ran m' m'' (outcomes n) task := by
  rw [rounds, h, Option.bind_some]
  rcases runTask_spec allocator (outcomes n) (rounds_inv hi h) hdue with hran | ⟨-, hthrows⟩
  · exact hran
  · exact absurd hthrows hok

/-- The loop goes on for at least as long as it has gone on. -/
theorem rounds_none (h : rounds allocator now outcomes m n = none) {k : ℕ} (hle : n ≤ k) :
    rounds allocator now outcomes m k = none := by
  induction k, hle using Nat.le_induction with
  | base => exact h
  | succ k _ ih => rw [rounds, ih, Option.bind_none]

/-- No round follows one that finds nothing due or throws. -/
theorem rounds_stop (h : rounds allocator now outcomes m n = some m')
    (hstop : ∀ task, m'.due now = some task → Throws (outcomes n) task) :
    rounds allocator now outcomes m (n + 1) = none := by
  rw [rounds, h, Option.bind_some]
  cases hdue : m'.due now with
  | none => rw [runTask, hdue]
  | some task => exact runTask_throws hdue (hstop task hdue)

/-- A key whose tasks ask for themselves at once stays due. -/
theorem rounds_keep (hi : Inv m none) (hmgr : m.ispMgr = true) (hkey : key ∈ m.dueKeys now)
    (hself : ∀ n task selectionMgrs, task.key = key →
      ∃ x, (key, x) ∈ asks selectionMgrs (outcomes n) task ∧ x ≤ now)
    (h : rounds allocator now outcomes m n = some m') :
    m'.ispMgr = true ∧ key ∈ m'.dueKeys now := by
  induction n generalizing m' with
  | zero =>
    obtain rfl := Option.some.inj h
    exact ⟨hmgr, hkey⟩
  | succ n ih =>
    obtain ⟨m₁, h₁, hrun⟩ := Option.bind_eq_some_iff.1 h
    obtain ⟨hmgr₁, hkey₁⟩ := ih h₁
    obtain ⟨task, hdue⟩ := runTask_due hrun
    rcases runTask_spec allocator (outcomes n) (rounds_inv hi h₁) hdue with
      ⟨_, hrun', hran⟩ | ⟨hnone, -⟩
    · obtain rfl := Option.some.inj (hrun'.symm.trans hrun)
      refine ⟨hran.frame.ispMgr.trans hmgr₁, hran.mem_dueKeys.2 ?_⟩
      by_cases heq : key = task.key
      · exact .inr (hself n task _ heq.symm)
      · exact .inl ⟨hkey₁, heq⟩
    · cases hnone.symm.trans hrun

end Rounds

/-- While the clock stands still, the loop comes to rest if and only if no task that is executed
throws, and from some round on no task asks for itself again at a time that has come. -/
theorem update_loop_rests_iff (allocator : Allocator) (steps : List Step) (m : UpdateManager)
    (hrun : Run (step allocator) (fun _ _ => True) init steps m) (now : Int)
    (outcomes : ℕ → Outcome) (hnow : ∀ n, (outcomes n).now = now) :
    Rests allocator now outcomes m ↔
      (∀ n m' task, rounds allocator now outcomes m n = some m' → m'.due now = some task →
        ¬ Throws (outcomes n) task) ∧
      ∃ N, ∀ n ≥ N, ∀ m' task, rounds allocator now outcomes m n = some m' →
        m'.due now = some task → ¬ Overdue now (outcomes n) task := by
  have hi := run_inv hrun
  constructor
  · rintro ⟨n, m', hm, hrest⟩
    have hstop : rounds allocator now outcomes m (n + 1) = none :=
      rounds_stop hm fun task hdue => by cases hrest.symm.trans hdue
    refine ⟨fun k m₁ task h₁ hdue hthrows => ?_, n + 1, fun k hle m₁ task h₁ => ?_⟩
    · have hstop₁ := rounds_stop h₁ fun task' hdue' =>
        Option.some.inj (hdue.symm.trans hdue') ▸ hthrows
      have hlt : n < k + 1 := by
        by_contra hle
        cases (rounds_none hstop₁ (Nat.le_of_not_lt hle)).symm.trans hm
      have hlt' : k < n + 1 := by
        by_contra hle
        cases (rounds_none hstop (Nat.le_of_not_lt hle)).symm.trans h₁
      obtain rfl : k = n := by omega
      obtain rfl := Option.some.inj (h₁.symm.trans hm)
      cases hrest.symm.trans hdue
    · cases (rounds_none hstop hle).symm.trans h₁
  · rintro ⟨hthrows, N, hoverdue⟩
    by_contra hno
    have hall : ∀ n, ∃ m', rounds allocator now outcomes m n = some m' := by
      intro n
      induction n with
      | zero => exact ⟨m, rfl⟩
      | succ n ih =>
        obtain ⟨m', hm⟩ := ih
        cases hdue : m'.due now with
        | none => exact absurd ⟨n, m', hm, hdue⟩ hno
        | some task =>
          obtain ⟨m'', hm'', -⟩ := rounds_succ hi hm hdue (hthrows n m' task hm hdue)
          exact ⟨m'', hm''⟩
    choose s hs using hall
    refine not_endless later_wf (fun n => (s (N + n)).dueKeys now) fun n => ?_
    have hm := hs (N + n)
    cases hdue : (s (N + n)).due now with
    | none => exact absurd ⟨_, _, hm, hdue⟩ hno
    | some task =>
      obtain ⟨m', hm', hran⟩ := rounds_succ hi hm hdue (hthrows _ _ task hm hdue)
      obtain rfl := Option.some.inj ((hs (N + n + 1)).symm.trans hm')
      exact ⟨task.key, hran.serves (rounds_inv hi hm) hdue (hnow _)
        (hoverdue _ (Nat.le_add_right N n) _ task hm hdue)⟩

/-- Every load and computation succeeds at time 100. -/
def steady (ttl : Int) : Outcome := ⟨100, 0, ttl, 0, some 0, timeInvalid⟩

theorem update_loop_rests_hour :
    ∃ m, Run (step sampleAllocator) (fun _ _ => True) init [.setISPManager [1]] m ∧
      Rests sampleAllocator 100 (fun _ => steady 3600) m := by
  obtain ⟨m, hm, -⟩ := setISPManager_spec sampleAllocator [1] inv_init
  have hrun : Run (step sampleAllocator) (fun _ _ => True) init [.setISPManager [1]] m :=
    .cons trivial hm (.nil m)
  refine ⟨m, hrun, (update_loop_rests_iff sampleAllocator _ m hrun 100 _ fun _ => rfl).2 ⟨?_, 0, ?_⟩⟩
  · rintro n m' task - - ⟨-, -, hthrow⟩
    cases hthrow
  · intro n _ m' task _ _ hoverdue
    unfold Overdue at hoverdue
    split at hoverdue
    · exact absurd hoverdue.2 (by decide)
    · exact absurd hoverdue.2 (by decide)
    · exact hoverdue.2.2.1 rfl

/-- With a time-to-live of 0 the PID map of ISP 1 is loaded for ever. -/
theorem update_loop_spins :
    ¬ ∀ (allocator : Allocator) (steps : List Step) (m : UpdateManager),
      Run (step allocator) (fun _ _ => True) init steps m → ∀ (now : Int) (outcomes : ℕ → Outcome),
        (∀ n, (outcomes n).now = now) → Rests allocator now outcomes m := by
  intro h
  obtain ⟨m, hm, hi, -, ⟨hmgr, -⟩ | ⟨-, hmgr, hhistory⟩⟩ :=
    setISPManager_spec sampleAllocator [1] inv_init
  · cases hmgr
  have hrun : Run (step sampleAllocator) (fun _ _ => True) init [.setISPManager [1]] m :=
    .cons trivial hm (.nil m)
  have hkey : ((.pidMap, 1, none) : Key) ∈ m.dueKeys 100 := by
    rw [mem_dueKeys, hhistory]
    exact ⟨0, by decide, by decide⟩
  obtain ⟨n, m', hm', hrest⟩ := h sampleAllocator _ m hrun 100 (fun _ => steady 0) fun _ => rfl
  obtain ⟨hmgr', hkey'⟩ := rounds_keep hi hmgr hkey (fun n task selectionMgrs htask => by
    refine ⟨100, ?_, le_rfl⟩
    obtain ⟨addr, exectime, type, isp, selMgr⟩ := task
    cases htask
    simp [asks, steady]) hm'
  obtain ⟨task, hdue⟩ := exists_due (rounds_inv hi hm') hmgr' hkey'
  cases hrest.symm.trans hdue

end UpdateManager

end Alto.App
