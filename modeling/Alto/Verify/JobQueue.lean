import Alto.Lib.Run
import Alto.Portal.AdminState

/-!
# The jobs that the queue keeps

`JobQueue` orders its jobs by their deadlines and nothing else, so that a job is dropped if another
one with the same deadline is queued. Away from such ties (`Free`), `enqueue` keeps every job, and
the queue holds the earliest job of each class of equal jobs.
-/

namespace Alto.JobQueue

open Lib

variable {J : Type} {deadline : J → Nat} {equals : J → J → Bool} {queue queue' : List J}
  {job j k : J}

/-- The order of `queue_`. -/
def Sorted (deadline : J → Nat) (queue : List J) : Prop :=
  queue.Pairwise fun j k => deadline j < deadline k

theorem Sorted.nodup (h : Sorted deadline queue) : queue.Nodup :=
  h.imp fun hlt heq => (heq ▸ hlt).false

theorem Sorted.eq_of_deadline (h : Sorted deadline queue) (hj : j ∈ queue) (hk : k ∈ queue)
    (heq : deadline j = deadline k) : j = k := by
  induction queue with
  | nil => cases hj
  | cons x queue ih =>
    obtain ⟨hx, hqueue⟩ := List.pairwise_cons.1 h
    rcases List.mem_cons.1 hj with rfl | hj' <;> rcases List.mem_cons.1 hk with rfl | hk'
    · rfl
    · exact absurd heq (hx k hk').ne
    · exact absurd heq (hx j hj').ne'
    · exact ih hqueue hj' hk'

/-! ## Insertion -/

theorem mem_insert (h : Sorted deadline queue) :
    j ∈ insert deadline queue job ↔
      j ∈ queue ∨ j = job ∧ ∀ k ∈ queue, deadline k ≠ deadline job := by
  induction queue with
  | nil => simp [insert]
  | cons x queue ih =>
    obtain ⟨hx, hqueue⟩ := List.pairwise_cons.1 h
    rw [insert]
    split
    · next hlt =>
      have hne : ∀ k ∈ x :: queue, deadline k ≠ deadline job := by
        intro k hk
        rcases List.mem_cons.1 hk with rfl | hk
        · omega
        · have := hx k hk
          omega
      simp only [List.mem_cons, forall_eq_or_imp] at hne ⊢
      tauto
    · next hge =>
      split
      · next hlt =>
        have hne : deadline x ≠ deadline job := by omega
        simp only [List.mem_cons, ih hqueue, forall_eq_or_imp, ne_eq, hne, not_false_eq_true,
          true_and, or_assoc]
      · next hge' =>
        have heq : deadline x = deadline job := by omega
        simp [heq]

theorem sorted_insert (h : Sorted deadline queue) (job : J) :
    Sorted deadline (insert deadline queue job) := by
  induction queue with
  | nil => simp [insert, Sorted]
  | cons x queue ih =>
    obtain ⟨hx, hqueue⟩ := List.pairwise_cons.1 h
    rw [insert]
    split
    · next hlt =>
      refine List.pairwise_cons.2 ⟨fun k hk => ?_, h⟩
      rcases List.mem_cons.1 hk with rfl | hk
      · exact hlt
      · exact hlt.trans (hx k hk)
    · split
      · next hlt =>
        refine List.pairwise_cons.2 ⟨fun k hk => ?_, ih hqueue⟩
        rcases (mem_insert hqueue).1 hk with hk | ⟨rfl, -⟩
        · exact hx k hk
        · exact hlt
      · exact h

/-! ## Calls -/

/-- A job that `enqueue` drops because an equal one is due no later. -/
def Duplicate (deadline : J → Nat) (equals : J → J → Bool) (queue : List J) (job : J) : Prop :=
  ∃ j ∈ queue, equals job j = true ∧ deadline j ≤ deadline job

/-- No other job has the deadline of the new one, or it would be dropped anyway. -/
def Free (deadline : J → Nat) (equals : J → J → Bool) (queue : List J) (job : J) : Prop :=
  Duplicate deadline equals queue job ∨ ∀ k ∈ queue, deadline k = deadline job → k = job

theorem find?_first (h : Sorted deadline queue) (hf : queue.find? (equals job) = some j)
    (hk : k ∈ queue) (heq : equals job k = true) : deadline j ≤ deadline k := by
  induction queue with
  | nil => cases hf
  | cons x queue ih =>
    obtain ⟨hx, hqueue⟩ := List.pairwise_cons.1 h
    rw [List.find?_cons] at hf
    split at hf
    · cases hf
      rcases List.mem_cons.1 hk with rfl | hk
      · exact le_rfl
      · exact (hx k hk).le
    · next hno =>
      rcases List.mem_cons.1 hk with rfl | hk
      · exact absurd (heq.symm.trans hno) (by simp)
      · exact ih hqueue hf hk

theorem enqueue_of_duplicate (h : Sorted deadline queue)
    (hd : Duplicate deadline equals queue job) : enqueue deadline equals queue job = queue := by
  obtain ⟨j, hj, heq, hle⟩ := hd
  rw [enqueue]
  split
  · next hf => exact absurd heq (by simpa using List.find?_eq_none.1 hf j hj)
  · next x hf =>
    have := find?_first h hf hj heq
    rw [if_neg (by omega)]

theorem mem_eraseP_find? (h : Sorted deadline queue) (hf : queue.find? (equals job) = some j) :
    k ∈ queue.eraseP (equals job) ↔ k ∈ queue ∧ k ≠ j := by
  induction queue with
  | nil => cases hf
  | cons x queue ih =>
    obtain ⟨hx, hqueue⟩ := List.pairwise_cons.1 h
    rw [List.find?_cons] at hf
    rw [List.eraseP_cons]
    split at hf
    · next hx' =>
      cases hf
      rw [hx', cond_true, List.mem_cons]
      constructor
      · intro hk
        refine ⟨Or.inr hk, ?_⟩
        rintro rfl
        exact (hx k hk).false
      · rintro ⟨rfl | hk, hne⟩
        · exact absurd rfl hne
        · exact hk
    · next hx' =>
      rw [hx', cond_false, List.mem_cons, List.mem_cons, ih hqueue hf]
      have hne : x ≠ j := by
        rintro rfl
        exact (hx x (List.mem_of_find?_eq_some hf)).false
      constructor
      · rintro (rfl | ⟨hk, hkj⟩)
        · exact ⟨Or.inl rfl, hne⟩
        · exact ⟨Or.inr hk, hkj⟩
      · rintro ⟨rfl | hk, hkj⟩
        · exact Or.inl rfl
        · exact Or.inr ⟨hk, hkj⟩

theorem sorted_eraseP (h : Sorted deadline queue) (p : J → Bool) :
    Sorted deadline (queue.eraseP p) := h.sublist List.eraseP_sublist

theorem sorted_enqueue (h : Sorted deadline queue) (job : J) :
    Sorted deadline (enqueue deadline equals queue job) := by
  rw [enqueue]
  split
  · exact sorted_insert h job
  · split
    · exact sorted_insert (sorted_eraseP h _) job
    · exact h

/-- The jobs after `enqueue` of one that is no duplicate. -/
theorem mem_enqueue (h : Sorted deadline queue) (hd : ¬ Duplicate deadline equals queue job) :
    k ∈ enqueue deadline equals queue job ↔ k ∈ queue ∧ queue.find? (equals job) ≠ some k ∨
      k = job ∧ ∀ x ∈ queue, deadline x ≠ deadline job := by
  rw [enqueue]
  split
  · next hf => simp [mem_insert h, hf]
  · next j hf =>
    have hlt : deadline job < deadline j := by
      by_contra hge
      exact hd ⟨j, List.mem_of_find?_eq_some hf, List.find?_some hf, Nat.le_of_not_lt hge⟩
    rw [if_pos hlt, mem_insert (sorted_eraseP h _)]
    simp only [mem_eraseP_find? h hf, hf, ne_eq, Option.some.injEq, eq_comm (a := j)]
    refine or_congr Iff.rfl (and_congr_right fun _ => ⟨fun hall x hx => ?_, fun hall x hx => ?_⟩)
    · by_cases hxj : x = j
      · subst hxj
        omega
      · exact hall x ⟨hx, hxj⟩
    · exact hall x hx.1

/-! ## What a call keeps -/

/-- What `enqueue` owes: a job without an equal one in the queue is held, and a queued job stays
unless an equal one that is due earlier takes its place. -/
structure Enqueued (deadline : J → Nat) (equals : J → J → Bool) (queue : List J) (job : J)
    (queue' : List J) : Prop where
  held : (∀ j ∈ queue, equals job j = false) → job ∈ queue'
  stays : ∀ j ∈ queue, j ∈ queue' ∨
    equals job j = true ∧ deadline job < deadline j ∧ job ∈ queue'
  only : ∀ j ∈ queue', j ∈ queue ∨ j = job

/-- What `dequeue` owes: a job with the least deadline, and no other one, is taken. -/
structure Dequeued (deadline : J → Nat) (queue : List J) (job : J) (queue' : List J) : Prop where
  queued : job ∈ queue
  first : ∀ j ∈ queue, deadline job ≤ deadline j
  rest : ∀ j, j ∈ queue' ↔ j ∈ queue ∧ j ≠ job

theorem enqueued_iff_free (h : Sorted deadline queue) :
    Enqueued deadline equals queue job (enqueue deadline equals queue job) ↔
      Free deadline equals queue job := by
  by_cases hd : Duplicate deadline equals queue job
  · rw [enqueue_of_duplicate h hd]
    refine iff_of_true ⟨fun hno => ?_, fun j hj => Or.inl hj, fun j hj => Or.inl hj⟩ (Or.inl hd)
    obtain ⟨j, hj, heq, -⟩ := hd
    exact absurd (heq.symm.trans (hno j hj)) (by simp)
  have hmem := fun k => mem_enqueue (k := k) h hd
  have hlt : ∀ j ∈ queue, equals job j = true → deadline job < deadline j := fun j hj heq =>
    Nat.lt_of_not_le fun hle => hd ⟨j, hj, heq, hle⟩
  constructor
  · refine fun he => Or.inr fun k hk htie => ?_
    by_contra hne
    -- the job is dropped, and with it the equal job that it should replace
    have hjob : job ∉ queue := fun hin => hne (h.eq_of_deadline hk hin htie)
    have hout : job ∉ enqueue deadline equals queue job := by
      rw [hmem]
      rintro (⟨hin, -⟩ | ⟨-, hall⟩)
      · exact hjob hin
      · exact hall k hk htie
    cases hf : queue.find? (equals job) with
    | none => exact hout (he.held fun j hj => by simpa using List.find?_eq_none.1 hf j hj)
    | some j =>
      rcases he.stays j (List.mem_of_find?_eq_some hf) with hin | ⟨-, -, hin⟩
      · rcases (hmem j).1 hin with ⟨-, hno⟩ | ⟨rfl, -⟩
        · exact hno hf
        · exact hjob (List.mem_of_find?_eq_some hf)
      · exact hout hin
  · intro hfree
    have htie := hfree.resolve_left hd
    have hjob : job ∈ enqueue deadline equals queue job := by
      rw [hmem]
      by_cases hin : job ∈ queue
      · refine Or.inl ⟨hin, fun hf => ?_⟩
        exact (hlt job hin (List.find?_some hf)).false
      · exact Or.inr ⟨rfl, fun x hx heq => hin (htie x hx heq ▸ hx)⟩
    refine ⟨fun _ => hjob, fun j hj => ?_, fun j hj => ?_⟩
    · by_cases hf : queue.find? (equals job) = some j
      · exact Or.inr ⟨List.find?_some hf, hlt j hj (List.find?_some hf), hjob⟩
      · exact Or.inl ((hmem j).2 (Or.inl ⟨hj, hf⟩))
    · rcases (hmem j).1 hj with ⟨hj, -⟩ | ⟨rfl, -⟩
      · exact Or.inl hj
      · exact Or.inr rfl

theorem dequeued (h : Sorted deadline queue) {now : Nat}
    (hd : dequeue deadline now queue = some (job, queue')) : Dequeued deadline queue job queue' := by
  unfold dequeue at hd
  split at hd
  · cases hd
  · next x rest =>
    split at hd
    · cases hd
    · cases hd
      obtain ⟨hx, -⟩ := List.pairwise_cons.1 h
      refine ⟨List.mem_cons_self, fun j hj => ?_, fun j => ?_⟩
      · rcases List.mem_cons.1 hj with rfl | hj
        · exact le_rfl
        · exact (hx j hj).le
      · rw [List.mem_cons]
        constructor
        · intro hj
          refine ⟨Or.inr hj, ?_⟩
          rintro rfl
          exact (hx j hj).false
        · rintro ⟨rfl | hj, hne⟩
          · exact absurd rfl hne
          · exact hj

theorem sorted_dequeue (h : Sorted deadline queue) {now : Nat}
    (hd : dequeue deadline now queue = some (job, queue')) : Sorted deadline queue' := by
  unfold dequeue at hd
  split at hd
  · cases hd
  · split at hd
    · cases hd
    · cases hd
      exact (List.pairwise_cons.1 h).2

/-! ## Runs -/

/-- The calls of a queue. A `dequeue` is one that returns a job. -/
inductive Call (J : Type) where
  | enqueue (job : J)
  | dequeue (now : Nat)

/-- What has happened to a queue. -/
inductive Event (J : Type) where
  | enqueued (job : J)
  | dequeued (job : J)

/-- A queue and its past, the last event first. -/
structure State (J : Type) where
  queue : List J
  log : List (Event J)

/-- A new queue. -/
def State.init : State J := ⟨[], []⟩

/-- A call. -/
def step (deadline : J → Nat) (equals : J → J → Bool) (s : State J) : Call J → Option (State J)
  | .enqueue job => some ⟨enqueue deadline equals s.queue job, .enqueued job :: s.log⟩
  | .dequeue now => (dequeue deadline now s.queue).map fun r => ⟨r.2, .dequeued r.1 :: s.log⟩

/-- Calls without a tie of deadlines. -/
def Call.Free (deadline : J → Nat) (equals : J → J → Bool) (s : State J) : Call J → Prop
  | .enqueue job => JobQueue.Free deadline equals s.queue job
  | .dequeue _ => True

theorem sorted_step {s s' : State J} {c : Call J} (h : Sorted deadline s.queue)
    (hs : step deadline equals s c = some s') : Sorted deadline s'.queue := by
  cases c with
  | enqueue job =>
    cases hs
    exact sorted_enqueue h job
  | dequeue now =>
    obtain ⟨⟨job, queue'⟩, hd, rfl⟩ := Option.map_eq_some_iff.1 hs
    exact sorted_dequeue h hd

/-- Two jobs of one class. A job whose `equals` is always false is a class of its own. -/
def Same (equals : J → J → Bool) (j k : J) : Prop := j = k ∨ equals j k = true

/-- `equals` puts the jobs into classes. -/
structure Classes (equals : J → J → Bool) : Prop where
  symm : ∀ j k, equals j k = true → equals k j = true
  trans : ∀ i j k, equals i j = true → equals j k = true → equals i k = true

theorem Same.symm (hc : Classes equals) (h : Same equals j k) : Same equals k j :=
  h.imp Eq.symm (hc.symm j k)

theorem Same.trans {i : J} (hc : Classes equals) (h : Same equals i j) (h' : Same equals j k) :
    Same equals i k := by
  rcases h with rfl | h
  · exact h'
  · rcases h' with rfl | h'
    · exact Or.inr h
    · exact Or.inr (hc.trans i j k h h')

section Earliest

variable [DecidableEq J]

instance (equals : J → J → Bool) (j k : J) : Decidable (Same equals j k) :=
  inferInstanceAs (Decidable (_ ∨ _))

/-- The earliest deadline that was enqueued for the class of a job since a job of the class was last
dequeued. -/
def earliest (deadline : J → Nat) (equals : J → J → Bool) (k : J) : List (Event J) → Option Nat
  | [] => none
  | .enqueued j :: log =>
    if Same equals j k then
      some ((earliest deadline equals k log).elim (deadline j) (min (deadline j)))
    else earliest deadline equals k log
  | .dequeued j :: log => if Same equals j k then none else earliest deadline equals k log

/-- The queue holds one job for each class that has been enqueued: its earliest. -/
structure Represents (deadline : J → Nat) (equals : J → J → Bool) (s : State J) : Prop where
  apart : ∀ j ∈ s.queue, ∀ k ∈ s.queue, j ≠ k → equals j k = false
  earliest : ∀ k d, earliest deadline equals k s.log = some d ↔
    ∃ j ∈ s.queue, Same equals j k ∧ deadline j = d

theorem represents_init : Represents deadline equals (State.init : State J) :=
  ⟨by simp [State.init], by simp [State.init, JobQueue.earliest]⟩

namespace Represents

variable {s : State J}

/-- There is only one job of each class. -/
theorem unique (h : Represents deadline equals s) (hj : j ∈ s.queue)
    (hk : k ∈ s.queue) (hjk : Same equals j k) : j = k := by
  by_contra hne
  exact absurd ((hjk.resolve_left hne).symm.trans (h.apart j hj k hk hne)) (by simp)

/-- The queue changes only in the class of the new job, which is then represented by `x`. -/
theorem enqueued (hc : Classes equals) (h : Represents deadline equals s)
    {x : J} (hx : x ∈ queue') (hxjob : Same equals x job)
    (hle : deadline x ≤ deadline job) (heq : deadline x = deadline job ∨ x ∈ s.queue)
    (hold : ∀ j ∈ s.queue, Same equals j job → deadline x ≤ deadline j)
    (hclass : ∀ j ∈ queue', Same equals j job → j = x)
    (hother : ∀ j, ¬ Same equals j job → (j ∈ queue' ↔ j ∈ s.queue)) :
    Represents deadline equals ⟨queue', .enqueued job :: s.log⟩ := by
  refine ⟨fun j hj k hk hne => ?_, fun k d => ?_⟩
  · by_contra hjk
    have hjk : Same equals j k := Or.inr (by simpa using hjk)
    by_cases hjob : Same equals j job
    · exact hne ((hclass j hj hjob).trans (hclass k hk ((hjk.symm hc).trans hc hjob)).symm)
    · have hkjob : ¬ Same equals k job := fun hk' => hjob (hjk.trans hc hk')
      exact hne (h.unique ((hother j hjob).1 hj) ((hother k hkjob).1 hk) hjk)
  · rw [JobQueue.earliest]
    split
    · next hk =>
      -- the new deadline, or that of the job that was there before
      have hnew : ((JobQueue.earliest deadline equals k s.log).elim (deadline job)
          (min (deadline job))) = deadline x := by
        cases he : JobQueue.earliest deadline equals k s.log with
        | none =>
          refine (heq.resolve_right fun hin => ?_).symm
          have := (h.earliest k (deadline x)).2 ⟨x, hin, hxjob.trans hc hk, rfl⟩
          rw [he] at this
          cases this
        | some e =>
          obtain ⟨j, hj, hjk, rfl⟩ := (h.earliest k e).1 he
          have hjx := hold j hj (hjk.trans hc (hk.symm hc))
          rcases heq with heq | hin
          · rw [Option.elim_some, ← heq, min_eq_left hjx]
          · obtain rfl := h.unique hj hin ((hjk.trans hc (hk.symm hc)).trans hc (hxjob.symm hc))
            rw [Option.elim_some, min_eq_right hle]
      rw [hnew, Option.some.injEq]
      constructor
      · rintro rfl
        exact ⟨x, hx, hxjob.trans hc hk, rfl⟩
      · rintro ⟨j, hj, hjk, rfl⟩
        rw [hclass j hj (hjk.trans hc (hk.symm hc))]
    · next hk =>
      rw [h.earliest]
      refine exists_congr fun j => ?_
      by_cases hjk : Same equals j k
      · have hjob : ¬ Same equals j job := fun hj => hk ((hj.symm hc).trans hc hjk)
        rw [hother j hjob]
      · simp [hjk]

theorem step_enqueue (hc : Classes equals) (h : Represents deadline equals s)
    (hs : Sorted deadline s.queue) (hfree : Free deadline equals s.queue job) :
    Represents deadline equals ⟨enqueue deadline equals s.queue job, .enqueued job :: s.log⟩ := by
  by_cases hd : Duplicate deadline equals s.queue job
  · rw [enqueue_of_duplicate hs hd]
    obtain ⟨j, hj, heq, hle⟩ := hd
    have hjob : Same equals j job := Or.inr (hc.symm job j heq)
    have hclass : ∀ k ∈ s.queue, Same equals k job → k = j := fun k hk hkjob =>
      h.unique hk hj (hkjob.trans hc (hjob.symm hc))
    refine h.enqueued hc hj hjob hle (Or.inr hj) (fun k hk hkjob => ?_) hclass fun k _ => Iff.rfl
    rw [hclass k hk hkjob]
  · have hmem := fun k => mem_enqueue (k := k) hs hd
    have he := (enqueued_iff_free hs).2 hfree
    have hlt : ∀ j ∈ s.queue, equals job j = true → deadline job < deadline j := fun j hj heq =>
      Nat.lt_of_not_le fun hle => hd ⟨j, hj, heq, hle⟩
    have hjob : job ∈ enqueue deadline equals s.queue job := by
      cases hf : s.queue.find? (equals job) with
      | none => exact he.held fun j hj => by simpa using List.find?_eq_none.1 hf j hj
      | some j =>
        rcases he.stays j (List.mem_of_find?_eq_some hf) with hin | ⟨-, -, hin⟩
        · rcases (hmem j).1 hin with ⟨-, hno⟩ | ⟨rfl, -⟩
          · exact absurd hf hno
          · exact hin
        · exact hin
    refine h.enqueued hc hjob (Or.inl rfl) le_rfl (Or.inl rfl) (fun k hk hkjob => ?_)
      (fun k hk hkjob => ?_) fun k hkjob => ?_
    · rcases hkjob with rfl | hkjob
      · exact le_rfl
      · exact (hlt k hk (hc.symm k job hkjob)).le
    · rcases (hmem k).1 hk with ⟨hk, hno⟩ | ⟨rfl, -⟩
      · rcases hkjob with rfl | hkjob
        · rfl
        · -- the first job that is equal to the new one is the only one
          have heq := hc.symm k job hkjob
          cases hf : s.queue.find? (equals job) with
          | none => exact absurd heq (by simpa using List.find?_eq_none.1 hf k hk)
          | some j =>
            have hjk : Same equals j k :=
              Or.inr (hc.trans j job k (hc.symm job j (List.find?_some hf)) heq)
            rw [h.unique (List.mem_of_find?_eq_some hf) hk hjk] at hf
            exact absurd hf hno
      · rfl
    · have hne : k ≠ job := fun heq => hkjob (Or.inl heq)
      rw [hmem]
      constructor
      · rintro (⟨hk, -⟩ | ⟨rfl, -⟩)
        · exact hk
        · exact absurd rfl hne
      · refine fun hk => Or.inl ⟨hk, fun hf => hkjob (Or.inr ?_)⟩
        exact hc.symm job k (List.find?_some hf)

theorem step_dequeue (hc : Classes equals) (h : Represents deadline equals s)
    (hd : Dequeued deadline s.queue job queue') :
    Represents deadline equals ⟨queue', .dequeued job :: s.log⟩ := by
  refine ⟨fun j hj k hk hne => ?_, fun k d => ?_⟩
  · exact h.apart j ((hd.rest j).1 hj).1 k ((hd.rest k).1 hk).1 hne
  · rw [JobQueue.earliest]
    split
    · next hk =>
      refine iff_of_false (by simp) ?_
      rintro ⟨j, hj, hjk, -⟩
      obtain ⟨hj, hne⟩ := (hd.rest j).1 hj
      exact hne (h.unique hj hd.queued (hjk.trans hc (hk.symm hc)))
    · next hk =>
      rw [h.earliest]
      refine exists_congr fun j => ?_
      show _ ↔ j ∈ queue' ∧ _
      rw [hd.rest]
      constructor
      · rintro ⟨hj, hjk, rfl⟩
        refine ⟨⟨hj, ?_⟩, hjk, rfl⟩
        rintro rfl
        exact hk hjk
      · rintro ⟨⟨hj, -⟩, hjk, rfl⟩
        exact ⟨hj, hjk, rfl⟩

end Represents

/-- In every run in which no job is enqueued with the deadline of another queued job, unless it is
dropped for an equal one, the queue holds the earliest job of each class of equal jobs. In every
state of such a run `dequeue` takes a job with the least deadline, and `enqueue` keeps all jobs
exactly if there is no such tie. -/
theorem enqueued_jobs_are_kept (deadline : J → Nat) (equals : J → J → Bool) {calls : List (Call J)}
    {s : State J} (hr : Run (step deadline equals) (Call.Free deadline equals) .init calls s) :
    (∀ job, Enqueued deadline equals s.queue job (enqueue deadline equals s.queue job) ↔
      Free deadline equals s.queue job) ∧
    (∀ now job queue', dequeue deadline now s.queue = some (job, queue') →
      Dequeued deadline s.queue job queue') ∧
    (Classes equals → Represents deadline equals s) := by
  have hs : Sorted deadline s.queue :=
    hr.invariant (I := fun s : State J => Sorted deadline s.queue) List.Pairwise.nil
      fun _ _ _ h _ hstep => sorted_step h hstep
  refine ⟨fun job => enqueued_iff_free hs, fun now job queue' hd => dequeued hs hd, fun hc => ?_⟩
  refine (hr.invariant (I := fun s : State J => Sorted deadline s.queue ∧ Represents deadline equals s)
    ⟨List.Pairwise.nil, represents_init⟩ fun s c s' h hfree hstep => ?_).2
  refine ⟨sorted_step h.1 hstep, ?_⟩
  cases c with
  | enqueue job =>
    cases hstep
    exact h.2.step_enqueue hc h.1 hfree
  | dequeue now =>
    obtain ⟨⟨job, queue'⟩, hd, rfl⟩ := Option.map_eq_some_iff.1 hstep
    exact h.2.step_dequeue hc (dequeued h.1 hd)

end Earliest

/-- Two views that are due at different times. -/
theorem enqueued_jobs_are_kept_two :
    Run (step ViewUpdateJob.deadline fun j k => decide (j.name = k.name))
        (Call.Free ViewUpdateJob.deadline fun j k => decide (j.name = k.name)) .init
        [.enqueue ⟨5, "isp"⟩, .enqueue ⟨3, "other"⟩]
        ⟨[⟨3, "other"⟩, ⟨5, "isp"⟩], [.enqueued ⟨3, "other"⟩, .enqueued ⟨5, "isp"⟩]⟩ ∧
      Represents ViewUpdateJob.deadline (fun j k => decide (j.name = k.name))
        ⟨[⟨3, "other"⟩, ⟨5, "isp"⟩], [.enqueued ⟨3, "other"⟩, .enqueued ⟨5, "isp"⟩]⟩ := by
  have hr : Run (step ViewUpdateJob.deadline fun j k => decide (j.name = k.name))
      (Call.Free ViewUpdateJob.deadline fun j k => decide (j.name = k.name)) .init
      [.enqueue ⟨5, "isp"⟩, .enqueue ⟨3, "other"⟩]
      ⟨[⟨3, "other"⟩, ⟨5, "isp"⟩], [.enqueued ⟨3, "other"⟩, .enqueued ⟨5, "isp"⟩]⟩ := by
    refine .cons (Or.inr (by simp [State.init])) rfl (.cons (Or.inr ?_) rfl (.nil _))
    decide
  refine ⟨hr, (enqueued_jobs_are_kept _ _ hr).2.2 ⟨?_, ?_⟩⟩
  · intro j k h
    simpa [eq_comm] using h
  · intro i j k h h'
    simp only [decide_eq_true_eq] at h h' ⊢
    exact h.trans h'

/-- Of two views that are due at the same time, one is not updated. -/
theorem enqueue_drops_tie :
    ¬ Enqueued ViewUpdateJob.deadline (fun j k => decide (j.name = k.name)) [⟨5, "isp"⟩]
        ⟨5, "other"⟩ (Server.enqueue [⟨5, "isp"⟩] ⟨5, "other"⟩) ∧
      Server.enqueue (Server.enqueue [] ⟨5, "isp"⟩) ⟨5, "other"⟩ = [⟨5, "isp"⟩] := by
  refine ⟨fun h => ?_, by decide⟩
  exact absurd (h.held (by decide)) (by decide)

end Alto.JobQueue
