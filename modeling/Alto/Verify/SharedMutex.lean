import Mathlib
import Alto.Common.SharedMutex
import Alto.Lib.Run

/-!
# Exclusion and wake-ups of the shared mutex

Counters and ownership are right in every run. Wake-ups are lost in one way: the last reader resets
the event in `shared_unlock` while another reader, for whom it was set, has left its critical section
and not yet come to wait.
-/

namespace Alto.Win32

open Lib

variable {T : Type} [Fintype T] [DecidableEq T]

namespace SharedMutex

/-! ## What the mutex is for -/

/-- The threads with a shared lock. -/
def readers (s : SharedMutex T) : Nat := count s.phase .reading + count s.phase .sharedNotify

/-- The threads with the exclusive lock, or the signal that gives it to one. -/
def writers (s : SharedMutex T) : Nat :=
  count s.phase .writing + s.hReadyToWrite + count s.phase .notifyWriter

/-- A signal is still to be sent. -/
def Signals (s : SharedMutex T) : Prop :=
  ∃ t, s.phase t = .sharedNotify ∨ s.phase t = .notifyWriter ∨ s.phase t = .notifyReaders

/-- A reader waits for a free lock that nobody will wake it for. -/
def Lost (s : SharedMutex T) : Prop :=
  s.activeWriterReaders = 0 ∧ s.numWritersWaiting = 0 ∧ ¬s.Signals ∧
    ∃ t, s.phase t = .blocked ∧ s.hReadyToRead = false

/-- Exclusion, the count of the active threads, and no lost wake-up. -/
structure Correct (s : SharedMutex T) : Prop where
  excludes : ∀ t t', s.phase t = .writing → t' ≠ t →
    s.phase t' ≠ .writing ∧ s.phase t' ≠ .reading ∧ s.phase t' ≠ .sharedNotify
  active : s.activeWriterReaders = s.readers ∧ s.writers = 0 ∨
    s.activeWriterReaders = makelong 0 1 ∧ s.readers = 0 ∧ s.writers = 1
  wakes : ¬s.Lost

/-- The last reader does not leave while another one is about to wait, unless the event is yet to be
set. -/
def Timely (s : SharedMutex T) : T × Call → Prop
  | (t, call) => call = .sharedUnlock → s.phase t = .reading → s.activeWriterReaders = 1 →
    s.numWritersWaiting = 0 → (∃ t', s.phase t' = .beforeWait) → ∃ t', s.phase t' = .notifyReaders

/-! ## Counters and ownership -/

/-- What holds in every run. -/
structure Inv (s : SharedMutex T) : Prop where
  readersWaiting : s.numReadersWaiting =
    count s.phase .beforeWait + count s.phase .blocked + count s.phase .woken
  writersWaiting : (count s.phase .waitWrite : Int) =
    s.numWritersWaiting + s.hReadyToWrite + count s.phase .notifyWriter
  nonneg : 0 ≤ s.numWritersWaiting
  active : s.activeWriterReaders = s.readers ∧ s.writers = 0 ∨
    s.activeWriterReaders = 2 ^ 16 ∧ s.readers = 0 ∧ s.writers = 1
  waiting : s.numWritersWaiting ≠ 0 → s.activeWriterReaders ≠ 0
  blocked : 0 < count s.phase .blocked → s.hReadyToRead = false

/-- What holds if no last reader leaves too early: while no writer has or awaits the lock and nobody
is about to set the event, nobody waits for it unless it is set. -/
def Awake (s : SharedMutex T) : Prop :=
  s.hReadyToRead = false → s.writers = 0 → s.numWritersWaiting = 0 →
    count s.phase .sharedNotify = 0 → count s.phase .notifyReaders = 0 →
      count s.phase .beforeWait = 0 ∧ count s.phase .blocked = 0

variable {s s' : SharedMutex T} {t : T} {p q : Phase}

@[simp] theorem count_goto (s : SharedMutex T) (t : T) (q p : Phase) :
    count (s.goto t q).phase p =
      count s.phase p + (if q = p then 1 else 0) - (if s.phase t = p then 1 else 0) := by
  have h := count_update s.phase t q p
  change count (Function.update s.phase t q) p = _
  omega

omit [DecidableEq T] in
theorem count_phase (h : s.phase t = p) : 0 < count s.phase p := count_pos.2 ⟨t, h⟩

omit [DecidableEq T] in
theorem readers_lt (hcard : Fintype.card T < 2 ^ 16) (s : SharedMutex T) : s.readers < 2 ^ 16 :=
  lt_of_le_of_lt (count_add_le_card (by decide)) hcard

theorem hiword_pos {x : Nat} : 0 < hiword x ↔ 2 ^ 16 ≤ x := by
  unfold hiword
  omega

theorem hiword_eq_zero {x : Nat} : hiword x = 0 ↔ x < 2 ^ 16 := by
  unfold hiword
  omega

theorem increment_eq {x : Nat} (h : x < 2 ^ 16) : increment x = x + 1 := by
  unfold increment
  split <;> omega

theorem decrement_eq {x : Nat} (h : 0 < x) : decrement x = x - 1 := by
  unfold decrement
  split <;> omega

theorem Inv.sharedLock (hcard : Fintype.card T < 2 ^ 16) (h : Inv s) (ht : s.phase t = .idle) :
    Inv (s.sharedLock t) := by
  obtain ⟨hr, hw, hn, ha, hwait, hb⟩ := h
  have hlt := s.readers_lt hcard
  unfold readers writers at *
  unfold SharedMutex.sharedLock
  split
  · constructor <;> simp [readers, writers, ht, resetEvent] <;> omega
  · next hfree =>
    rw [not_or, hiword_pos] at hfree
    have hinc : increment s.activeWriterReaders = s.activeWriterReaders + 1 :=
      increment_eq (by omega)
    dsimp only
    rw [hinc]
    split
    · constructor <;> simp [readers, writers, ht] <;> omega
    · constructor <;> simp [readers, writers, ht] <;> omega

theorem Inv.wait (h : Inv s) (ht : s.phase t = .beforeWait) :
    Inv (s.goto t (if s.hReadyToRead then .woken else .blocked)) := by
  obtain ⟨hr, hw, hn, ha, hwait, hb⟩ := h
  have hpos := count_phase ht
  unfold readers writers at *
  cases hevent : s.hReadyToRead
  · constructor <;> simp [readers, writers, ht] <;> omega
  · constructor <;> simp [readers, writers, ht] <;> omega

theorem Inv.sharedLockLoop (hcard : Fintype.card T < 2 ^ 16) (h : Inv s)
    (ht : s.phase t = .woken) : Inv (s.sharedLockLoop t) := by
  obtain ⟨hr, hw, hn, ha, hwait, hb⟩ := h
  have hlt := s.readers_lt hcard
  have hpos := count_phase ht
  unfold readers writers at *
  unfold SharedMutex.sharedLockLoop
  split
  · next hfree =>
    have hsmall := hiword_eq_zero.1 hfree.2
    have hinc : increment s.activeWriterReaders = s.activeWriterReaders + 1 := increment_eq hsmall
    rw [hinc]
    constructor <;> simp [readers, writers, ht] <;> omega
  · constructor <;> simp [readers, writers, ht, resetEvent] <;> omega

omit [Fintype T] in
/-- What `shared_unlock` does: another reader is left, the lock is free, or it goes to a writer. -/
theorem sharedUnlock_cases (hpos : 0 < s.activeWriterReaders) (hsem : s.hReadyToWrite = 0) :
    s.activeWriterReaders ≠ 1 ∧ s.sharedUnlock t =
        { s with activeWriterReaders := s.activeWriterReaders - 1 }.goto t .idle ∨
      s.activeWriterReaders = 1 ∧ s.numWritersWaiting = 0 ∧ s.sharedUnlock t =
        { s with activeWriterReaders := 0, hReadyToRead := false }.goto t .idle ∨
      s.activeWriterReaders = 1 ∧ s.numWritersWaiting ≠ 0 ∧ s.sharedUnlock t =
        { s with
          numWritersWaiting := s.numWritersWaiting - 1
          activeWriterReaders := 2 ^ 16
          hReadyToRead := false
          hReadyToWrite := 1 }.goto t .idle := by
  unfold sharedUnlock
  dsimp only
  rw [decrement_eq hpos]
  by_cases hlast : s.activeWriterReaders = 1
  · rw [hlast]
    by_cases hww : s.numWritersWaiting = 0
    · exact .inr (.inl ⟨rfl, hww, by simp [hww, resetEvent]⟩)
    · exact .inr (.inr ⟨rfl, hww, by simp [hww, hsem, resetEvent, releaseSemaphore, makelong]⟩)
  · have hne : s.activeWriterReaders - 1 ≠ 0 := by omega
    exact .inl ⟨hlast, by simp [hne]⟩

theorem Inv.sharedUnlock (h : Inv s) (ht : s.phase t = .reading) : Inv (s.sharedUnlock t) := by
  obtain ⟨hr, hw, hn, ha, hwait, hb⟩ := h
  have hpos := count_phase ht
  unfold readers writers at *
  rcases sharedUnlock_cases (s := s) (t := t) (by omega) (by omega) with
    ⟨hne, heq⟩ | ⟨hlast, hww, heq⟩ | ⟨hlast, hww, heq⟩
  · rw [heq]
    constructor <;> simp [readers, writers, ht] <;> omega
  · rw [heq]
    constructor <;> simp [readers, writers, ht] <;> omega
  · rw [heq]
    constructor <;> simp [readers, writers, ht] <;> omega

omit [DecidableEq T] in
@[simp] theorem count_setEvent (s : SharedMutex T) (p : Phase) :
    count s.setEvent.phase p = if p = .blocked then 0
      else if p = .woken then count s.phase .blocked + count s.phase .woken
      else count s.phase p := by
  split
  · next h =>
    subst h
    exact count_wake_self (by decide)
  · next hblocked =>
    split
    · next h =>
      subst h
      exact count_wake_target (by decide)
    · next hwoken => exact count_wake_other hblocked hwoken

omit [Fintype T] [DecidableEq T] in
theorem phase_setEvent (h : s.phase t = p) (hp : p ≠ .blocked) : s.setEvent.phase t = p :=
  (if_neg (h ▸ hp)).trans h

omit [DecidableEq T] in
theorem Inv.setEvent (h : Inv s) : Inv s.setEvent := by
  obtain ⟨hr, hw, hn, ha, hwait, hb⟩ := h
  unfold readers writers at *
  constructor <;> simp [readers, writers] <;> omega

/-- Behind a signal, a thread holds the lock if it did before. -/
theorem Inv.notified (h : Inv s) (ht : s.phase t = p)
    (hp : p = .sharedNotify ∧ q = .reading ∨ p = .notifyReaders ∧ q = .idle) :
    Inv (s.goto t q) := by
  obtain ⟨hr, hw, hn, ha, hwait, hb⟩ := h
  have hpos := count_phase ht
  unfold readers writers at *
  rcases hp with ⟨rfl, rfl⟩ | ⟨rfl, rfl⟩
  · constructor <;> simp [readers, writers, ht] <;> omega
  · constructor <;> simp [readers, writers, ht] <;> omega

theorem Inv.exclusiveLock (h : Inv s) (ht : s.phase t = .idle) : Inv (s.exclusiveLock t) := by
  obtain ⟨hr, hw, hn, ha, hwait, hb⟩ := h
  unfold readers writers at *
  unfold SharedMutex.exclusiveLock
  split
  · constructor <;> simp [readers, writers, ht] <;> omega
  · constructor <;> simp [readers, writers, ht, makelong] <;> omega

theorem Inv.takeSemaphore (h : Inv s) (ht : s.phase t = .waitWrite) (hpos : 0 < s.hReadyToWrite) :
    Inv ({ s with hReadyToWrite := s.hReadyToWrite - 1 }.goto t .writing) := by
  obtain ⟨hr, hw, hn, ha, hwait, hb⟩ := h
  have hcount := count_phase ht
  unfold readers writers at *
  constructor <;> simp [readers, writers, ht] <;> omega

theorem Inv.exclusiveUnlock (h : Inv s) (ht : s.phase t = .writing) :
    Inv (s.exclusiveUnlock t) := by
  obtain ⟨hr, hw, hn, ha, hwait, hb⟩ := h
  have hpos := count_phase ht
  unfold readers writers at *
  unfold SharedMutex.exclusiveUnlock
  dsimp only
  split
  · constructor <;> simp [readers, writers, ht] <;> omega
  split
  · constructor <;> simp [readers, writers, ht] <;> omega
  · constructor <;> simp [readers, writers, ht] <;> omega

theorem Inv.releaseSemaphore (h : Inv s) (ht : s.phase t = .notifyWriter) :
    Inv (s.releaseSemaphore.goto t .idle) := by
  obtain ⟨hr, hw, hn, ha, hwait, hb⟩ := h
  have hpos := count_phase ht
  unfold readers writers at *
  have hrelease : s.releaseSemaphore = { s with hReadyToWrite := s.hReadyToWrite + 1 } :=
    if_pos (by omega)
  rw [hrelease]
  constructor <;> simp [readers, writers, ht] <;> omega

omit [Fintype T] in
/-- What a step can do. -/
theorem step_cases {call : Call} (h : step s (t, call) = some s') :
    s.phase t = .idle ∧ s' = s.sharedLock t ∨
    s.phase t = .beforeWait ∧ s' = s.goto t (if s.hReadyToRead then .woken else .blocked) ∨
    s.phase t = .woken ∧ s' = s.sharedLockLoop t ∨
    s.phase t = .sharedNotify ∧ s' = s.setEvent.goto t .reading ∨
    s.phase t = .reading ∧ call = .sharedUnlock ∧ s' = s.sharedUnlock t ∨
    s.phase t = .idle ∧ s' = s.exclusiveLock t ∨
    s.phase t = .waitWrite ∧ 0 < s.hReadyToWrite ∧
      s' = { s with hReadyToWrite := s.hReadyToWrite - 1 }.goto t .writing ∨
    s.phase t = .writing ∧ s' = s.exclusiveUnlock t ∨
    s.phase t = .notifyWriter ∧ s' = s.releaseSemaphore.goto t .idle ∨
    s.phase t = .notifyReaders ∧ s' = s.setEvent.goto t .idle := by
  simp only [step] at h
  split at h
  case h_7 ht =>
    split at h
    · next hpos => simp_all
    · cases h
  case h_11 => cases h
  all_goals simp_all

theorem Inv.step (hcard : Fintype.card T < 2 ^ 16) (h : Inv s) {x : T × Call}
    (hstep : step s x = some s') : Inv s' := by
  obtain ⟨t, call⟩ := x
  rcases step_cases hstep with ⟨ht, rfl⟩ | ⟨ht, rfl⟩ | ⟨ht, rfl⟩ | ⟨ht, rfl⟩ | ⟨ht, -, rfl⟩ |
    ⟨ht, rfl⟩ | ⟨ht, hpos, rfl⟩ | ⟨ht, rfl⟩ | ⟨ht, rfl⟩ | ⟨ht, rfl⟩
  · exact h.sharedLock hcard ht
  · exact h.wait ht
  · exact h.sharedLockLoop hcard ht
  · exact h.setEvent.notified (phase_setEvent ht (by decide)) (.inl ⟨rfl, rfl⟩)
  · exact h.sharedUnlock ht
  · exact h.exclusiveLock ht
  · exact h.takeSemaphore ht hpos
  · exact h.exclusiveUnlock ht
  · exact h.releaseSemaphore ht
  · exact h.setEvent.notified (phase_setEvent ht (by decide)) (.inr ⟨rfl, rfl⟩)

/-! ## Wake-ups -/

omit [DecidableEq T] in
/-- A step of the readers that moves nobody into or out of a wait. -/
theorem Awake.of_eq (h : Awake s) (hevent : s'.hReadyToRead = s.hReadyToRead)
    (hww : s'.numWritersWaiting = s.numWritersWaiting) (hw : s'.writers = s.writers)
    (hcount : ∀ p, p = .beforeWait ∨ p = .blocked ∨ p = .sharedNotify ∨ p = .notifyReaders →
      count s'.phase p = count s.phase p) : Awake s' := by
  unfold Awake
  rw [hevent, hww, hw, hcount _ (.inl rfl), hcount _ (.inr (.inl rfl)),
    hcount _ (.inr (.inr (.inl rfl))), hcount _ (.inr (.inr (.inr rfl)))]
  exact h

omit [DecidableEq T] in
/-- A writer has the lock, is given it or waits for it. -/
theorem awake_of_writers (h : s.writers ≠ 0 ∨ s.numWritersWaiting ≠ 0) : Awake s := by
  intro _ hw hww
  rcases h with h | h
  · exact absurd hw h
  · exact absurd hww h

omit [DecidableEq T] in
/-- While a reader has to wait, a writer has or awaits the lock. -/
theorem Inv.writers_of_busy (hcard : Fintype.card T < 2 ^ 16) (hI : Inv s)
    (h : s.numWritersWaiting ≠ 0 ∨ hiword s.activeWriterReaders ≠ 0) :
    s.writers ≠ 0 ∨ s.numWritersWaiting ≠ 0 := by
  have hlt := s.readers_lt hcard
  have ha := hI.active
  rw [ne_eq (hiword _), hiword_eq_zero] at h
  omega

theorem Awake.sharedLock (hcard : Fintype.card T < 2 ^ 16) (hI : Inv s) (h : Awake s)
    (ht : s.phase t = .idle) : Awake (s.sharedLock t) := by
  unfold SharedMutex.sharedLock
  split
  · next hbusy =>
    have hbusy := hI.writers_of_busy hcard (by omega)
    refine awake_of_writers ?_
    simpa [writers, ht, resetEvent] using hbusy
  · dsimp only
    split
    · intro _ _ _ hsn
      simp [ht] at hsn
    · refine h.of_eq rfl rfl (by simp [writers, ht]) ?_
      rintro p (rfl | rfl | rfl | rfl) <;> simp [ht]

theorem Awake.wait (h : Awake s) (ht : s.phase t = .beforeWait) :
    Awake (s.goto t (if s.hReadyToRead then .woken else .blocked)) := by
  intro hevent hw hww hsn hnr
  rw [goto_hReadyToRead] at hevent
  simp [writers, hevent, ht] at hw hsn hnr
  have hnone := (h hevent (by unfold writers; omega) hww hsn hnr).1
  have hpos := count_phase ht
  omega

theorem Awake.sharedLockLoop (hcard : Fintype.card T < 2 ^ 16) (hI : Inv s) (h : Awake s)
    (ht : s.phase t = .woken) : Awake (s.sharedLockLoop t) := by
  unfold SharedMutex.sharedLockLoop
  split
  · refine h.of_eq rfl rfl (by simp [writers, ht]) ?_
    rintro p (rfl | rfl | rfl | rfl) <;> simp [ht]
  · next hbusy =>
    have hbusy := hI.writers_of_busy hcard (not_and_or.1 hbusy)
    refine awake_of_writers ?_
    simpa [writers, ht, resetEvent] using hbusy

/-- A last reader that leaves in time, or one that is not the last. -/
theorem Awake.sharedUnlock (hI : Inv s) (h : Awake s) (ht : s.phase t = .reading)
    (hok : Timely s (t, .sharedUnlock)) : Awake (s.sharedUnlock t) := by
  have ha := hI.active
  have hpos := count_phase ht
  have hreaders : 0 < s.readers := by
    unfold readers
    omega
  have hwriters : s.writers = 0 := by omega
  rcases sharedUnlock_cases (s := s) (t := t) (by omega) (by unfold writers at hwriters; omega) with
    ⟨hne, heq⟩ | ⟨hlast, hww, heq⟩ | ⟨hlast, hww, heq⟩
  · rw [heq]
    refine h.of_eq rfl rfl (by simp [writers, ht]) ?_
    rintro p (rfl | rfl | rfl | rfl) <;> simp [ht]
  · rw [heq]
    intro _ _ _ hsn hnr
    simp [ht] at hsn hnr ⊢
    refine ⟨?_, ?_⟩
    · by_contra hne
      have hbefore := count_pos.1 (Nat.pos_of_ne_zero hne)
      have hnotify := count_pos.2 (hok rfl ht hlast hww hbefore)
      omega
    · by_contra hne
      -- whoever waited before the last reader came has been woken
      exact hne (h (hI.blocked (Nat.pos_of_ne_zero hne)) hwriters hww hsn hnr).2
  · refine awake_of_writers (.inl ?_)
    simp [heq, writers, ht]

theorem Awake.exclusiveLock (hI : Inv s) (ht : s.phase t = .idle) : Awake (s.exclusiveLock t) := by
  have hn := hI.nonneg
  refine awake_of_writers ?_
  unfold SharedMutex.exclusiveLock
  split
  · refine .inr ?_
    simp
    omega
  · refine .inl ?_
    simp [writers, ht]

theorem Awake.exclusiveUnlock (hI : Inv s) (ht : s.phase t = .writing) :
    Awake (s.exclusiveUnlock t) := by
  have hr := hI.readersWaiting
  unfold SharedMutex.exclusiveUnlock
  dsimp only
  split
  · refine awake_of_writers (.inl ?_)
    simp [writers, ht]
  split
  · intro _ _ _ _ hnr
    simp [ht] at hnr
  · intro _ _ _ _ _
    simp [ht]
    omega

theorem Awake.step (hcard : Fintype.card T < 2 ^ 16) (hI : Inv s) (h : Awake s) {x : T × Call} (hok : Timely s x)
    (hstep : step s x = some s') : Awake s' := by
  obtain ⟨t, call⟩ := x
  rcases step_cases hstep with ⟨ht, rfl⟩ | ⟨ht, rfl⟩ | ⟨ht, rfl⟩ | ⟨ht, rfl⟩ | ⟨ht, rfl, rfl⟩ |
    ⟨ht, rfl⟩ | ⟨ht, hpos, rfl⟩ | ⟨ht, rfl⟩ | ⟨ht, rfl⟩ | ⟨ht, rfl⟩
  · exact h.sharedLock hcard hI ht
  · exact h.wait ht
  · exact h.sharedLockLoop hcard hI ht
  · exact nofun
  · exact h.sharedUnlock hI ht hok
  · exact Awake.exclusiveLock hI ht
  · refine awake_of_writers (.inl ?_)
    simp [writers, ht]
  · exact Awake.exclusiveUnlock hI ht
  · refine awake_of_writers (.inl ?_)
    unfold writers releaseSemaphore
    split
    · simp [ht]
    · next hfull =>
      simp [ht]
      omega
  · exact nofun

/-! ## Runs -/

/-- A new mutex. -/
def init : SharedMutex T := {}

omit [DecidableEq T] in
theorem count_init (p : Phase) (hp : p ≠ .idle) : count (fun _ : T => Phase.idle) p = 0 :=
  count_eq_zero.2 fun _ => hp.symm

omit [DecidableEq T] in
theorem Inv.init : Inv (init (T := T)) := by
  constructor <;> simp [readers, writers, count_init, SharedMutex.init]

omit [DecidableEq T] in
theorem Inv.correct (hI : Inv s) (h : Awake s) : Correct s := by
  obtain ⟨hr, hw, hn, ha, hwait, hb⟩ := hI
  have hactive : s.activeWriterReaders = s.readers ∧ s.writers = 0 ∨
      s.activeWriterReaders = makelong 0 1 ∧ s.readers = 0 ∧ s.writers = 1 := ha
  refine ⟨?_, hactive, ?_⟩
  · intro t t' ht hne
    have hpos := count_phase ht
    unfold readers writers at ha
    refine ⟨fun ht' => hne (eq_of_count_eq_one (by omega) ht ht'), fun ht' => ?_, fun ht' => ?_⟩
    · have hpos' := count_phase ht'
      omega
    · have hpos' := count_phase ht'
      omega
  · rintro ⟨hfree, hww, hsignals, t, ht, hevent⟩
    have hpos := count_phase ht
    have hnone : ∀ p, p = .sharedNotify ∨ p = .notifyReaders → count s.phase p = 0 := by
      intro p hp
      rw [count_eq_zero]
      intro t ht
      refine hsignals ⟨t, ?_⟩
      rcases hp with rfl | rfl
      · exact .inl ht
      · exact .inr (.inr ht)
    have hwriters : s.writers = 0 := by omega
    have hblocked := (h hevent hwriters hww (hnone _ (.inl rfl)) (hnone _ (.inr rfl))).2
    omega

/-- Where the last reader leaves too early, the next step of the other one is lost. -/
theorem lost_of_not_timely (hI : Inv s) {call : Call} (h : ¬Timely s (t, call)) :
    ∃ s' t' s'', step s (t, call) = some s' ∧ step s' (t', .resume) = some s'' ∧ s''.Lost := by
  simp only [Timely, Classical.not_imp] at h
  obtain ⟨rfl, ht, hlast, hww, ⟨t', ht'⟩, hnotify⟩ := h
  have ha := hI.active
  have hpos := count_phase ht
  have hnr := count_eq_zero.2 (not_exists.1 hnotify)
  unfold readers writers at ha
  have hunlock : s.sharedUnlock t =
      { s with activeWriterReaders := 0, hReadyToRead := false }.goto t .idle := by
    rcases sharedUnlock_cases (s := s) (t := t) (by omega) (by omega) with
      ⟨hne, -⟩ | ⟨-, -, heq⟩ | ⟨-, hne, -⟩
    · exact absurd hlast hne
    · exact heq
    · exact absurd hww hne
  have hne : t' ≠ t := by
    rintro rfl
    rw [ht] at ht'
    cases ht'
  have hphase : (s.sharedUnlock t).phase t' = .beforeWait := by
    rw [hunlock]
    exact (Function.update_of_ne hne _ _).trans ht'
  have hwait : step (s.sharedUnlock t) (t', .resume) = some ((s.sharedUnlock t).goto t' .blocked) := by
    simp only [step, hphase]
    simp [hunlock]
  have hnone : ∀ p, p = .sharedNotify ∨ p = .notifyWriter ∨ p = .notifyReaders →
      count ((s.sharedUnlock t).goto t' .blocked).phase p = 0 := by
    rintro p (rfl | rfl | rfl)
    · simp [hunlock, ht]
      omega
    · simp [hunlock, ht]
      omega
    · simp [hunlock, ht, hnr]
  refine ⟨s.sharedUnlock t, t', _, by simp [step, ht], hwait, ?_⟩
  refine ⟨by simp [hunlock], by simpa [hunlock] using hww, ?_, t', by simp [goto], by simp [hunlock]⟩
  rintro ⟨u, hu | hu | hu⟩
  · exact count_eq_zero.1 (hnone _ (.inl rfl)) u hu
  · exact count_eq_zero.1 (hnone _ (.inr (.inl rfl))) u hu
  · exact count_eq_zero.1 (hnone _ (.inr (.inr rfl))) u hu

/-- In every run in which the last reader leaves in time, the mutex is correct in all states. -/
theorem shared_mutex_correct (hcard : Fintype.card T < 2 ^ 16) {calls : List (T × Call)}
    (hr : Run step Timely init calls s) : Correct s := by
  have hinv : Inv s ∧ Awake s := by
    refine hr.invariant (I := fun s => Inv s ∧ Awake s) ⟨Inv.init, ?_⟩ ?_
    · intro _ _ _ _ _
      exact ⟨count_init _ (by decide), count_init _ (by decide)⟩
    · intro s x s' h hok hstep
      exact ⟨h.1.step hcard hstep, h.2.step hcard h.1 hok hstep⟩
  exact hinv.1.correct hinv.2

/-- A reader comes and goes beside a writer. -/
theorem shared_mutex_correct_two : ∃ s : SharedMutex (Fin 2),
    Run step Timely init [(0, .exclusiveLock), (1, .sharedLock), (0, .exclusiveUnlock),
      (1, .resume), (0, .resume), (1, .resume)] s ∧ Correct s := by
  have hr : ∃ s : SharedMutex (Fin 2),
      Run step Timely init [(0, .exclusiveLock), (1, .sharedLock), (0, .exclusiveUnlock),
        (1, .resume), (0, .resume), (1, .resume)] s :=
    ⟨_, .cons nofun rfl (.cons nofun rfl (.cons nofun rfl (.cons nofun rfl (.cons nofun rfl
      (.cons nofun rfl (.nil _))))))⟩
  obtain ⟨s, hr⟩ := hr
  exact ⟨s, hr, shared_mutex_correct (by decide) hr⟩

/-- Thread 1 waits for the writer 0, which sets the event; thread 2 resets it before thread 1 comes
to wait. -/
theorem shared_mutex_loses : ¬∀ (T : Type) [Fintype T] [DecidableEq T], Fintype.card T < 2 ^ 16 →
    ∀ (calls : List (T × Call)) (s : SharedMutex T),
      Run step (fun _ _ => True) init calls s → Correct s := by
  intro hall
  have hlost : ∃ (calls : List (Fin 3 × Call)) (s : SharedMutex (Fin 3)),
      Run step (fun _ _ => True) init calls s ∧ s.Lost := by
    refine ⟨[(0, .exclusiveLock), (1, .sharedLock), (0, .exclusiveUnlock), (2, .sharedLock),
      (2, .resume), (0, .resume), (2, .sharedUnlock), (1, .resume)], _, .cons trivial rfl
      (.cons trivial rfl (.cons trivial rfl (.cons trivial rfl (.cons trivial rfl (.cons trivial rfl
      (.cons trivial rfl (.cons trivial rfl (.nil _)))))))), rfl, rfl, ?_, 1, rfl, rfl⟩
    unfold Signals
    decide
  obtain ⟨calls, s, hr, hs⟩ := hlost
  exact (hall (Fin 3) (by decide) calls s hr).wakes hs

end SharedMutex

end Alto.Win32
