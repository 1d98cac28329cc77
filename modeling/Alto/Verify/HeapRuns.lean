import Mathlib
import Alto.Lib.Run
import Alto.Verify.HeapWithDelete

/-!
# Runs of the heap with deletion

What holds of a `RandomAccessSet` after any calls with valid indices, and of a `MaxHeapWithDelete`
after any calls at all: it has answered as a priority queue without duplicates (`Queue`), and is one.
Whether its indices stay inside the vector is another matter: `checked_run_iff`.
-/

namespace Alto.Common

open Lib StrictWeakOrder

variable {T : Type} {less larger : T → T → Bool}

/-! ## The set -/

namespace RandomAccessSet

variable {s s' : RandomAccessSet T} {i j : Nat} {t u : T}

theorem indexed_fresh (memory : Nat → T) : Indexed less (empty memory) where
  index_vec i hi := absurd hi (Nat.not_lt_zero i)
  vec_index _ _ h := nomatch h
  congr _ _ _ := rfl

@[simp] theorem length_elements : s.elements.length = s.size := by
  simp [elements]

/-- Sets with the same elements differ in their order only. -/
theorem Indexed.perm (hr : StrictWeakOrder less) (h : Indexed less s) (h' : Indexed less s')
    (hmem : ∀ u, s'.Mem u ↔ s.Mem u) : s'.elements.Perm s.elements := by
  refine (List.perm_ext_iff_of_nodup (h'.nodup_elements hr) (h.nodup_elements hr)).2 fun u => ?_
  rw [mem_elements, mem_elements, hmem]

/-- One set has one more element than the other. -/
theorem Indexed.perm_cons (hr : StrictWeakOrder less) (h : Indexed less s) (h' : Indexed less s')
    (ht : ¬ s.Mem t) (hmem : ∀ u, s'.Mem u ↔ s.Mem u ∨ u = t) :
    s'.elements.Perm (t :: s.elements) := by
  have hnodup : (t :: s.elements).Nodup :=
    List.nodup_cons.2 ⟨fun hmem => ht (mem_elements.1 hmem), h.nodup_elements hr⟩
  refine (List.perm_ext_iff_of_nodup (h'.nodup_elements hr) hnodup).2 fun u => ?_
  rw [mem_elements, hmem, List.mem_cons, mem_elements]
  exact or_comm

/-- One element has been taken out. -/
theorem Indexed.perm_removed (hr : StrictWeakOrder less) (h : Indexed less s)
    (h' : Indexed less s') (ht : s.Mem t) (hmem : ∀ u, s'.Mem u ↔ s.Mem u ∧ u ≠ t) :
    s.elements.Perm (t :: s'.elements) := by
  refine h'.perm_cons hr h (fun ht' => ((hmem t).1 ht').2 rfl) fun u => ?_
  rw [hmem]
  by_cases hu : u = t
  · subst hu
    simp [ht]
  · simp [hu]

/-- What `find` says of a value. -/
theorem Indexed.find_isSome_iff (h : Indexed less s) :
    (s.find t).isSome ↔ ∃ u ∈ s.elements, equiv less t u := by
  constructor
  · intro hsome
    obtain ⟨i, hi⟩ := Option.isSome_iff_exists.1 hsome
    obtain ⟨hlt, heq⟩ := h.vec_index t i hi
    exact ⟨s.vec i, mem_elements.2 ⟨i, hlt, rfl⟩, heq⟩
  · rintro ⟨u, hu, heq⟩
    cases hfind : s.find t with
    | some i => rfl
    | none => exact absurd heq (h.find_none hfind (mem_elements.1 hu))

theorem Indexed.find_eq_none_iff (h : Indexed less s) :
    s.find t = none ↔ ∀ u ∈ s.elements, ¬ equiv less t u := by
  rw [← Option.not_isSome_iff_eq_none, h.find_isSome_iff]
  exact ⟨fun hno u hu heq => hno ⟨u, hu, heq⟩, fun hno ⟨u, hu, heq⟩ => hno u hu heq⟩

theorem pushBackAnswer_iff : s.pushBackAnswer t = true ↔ s.find t = none := by
  cases hfind : s.find t <;> simp [pushBackAnswer, hfind]

theorem eraseAnswer_iff : s.eraseAnswer t = true ↔ (s.find t).isSome := by
  cases hfind : s.find t <;> simp [eraseAnswer, hfind]

/-- A call that changes the set. -/
inductive Call (T : Type) where
  | pushBack (value : T)
  | popBack
  | erase (value : T)
  | swap (idx₁ idx₂ : Nat)

/-- The set after a call. -/
def after (less : T → T → Bool) (s : RandomAccessSet T) : Call T → RandomAccessSet T
  | .pushBack value => s.pushBack less value
  | .popBack => s.popBack less
  | .erase value => s.erase less value
  | .swap idx₁ idx₂ => s.swap less idx₁ idx₂

/-- Indices are those of elements. -/
def Valid (s : RandomAccessSet T) : Call T → Prop
  | .swap idx₁ idx₂ => idx₁ < s.size ∧ idx₂ < s.size
  | _ => True

/-- What a call answers and how it changes the elements. -/
def Effect (less : T → T → Bool) (s s' : RandomAccessSet T) : Call T → Prop
  | .pushBack value =>
    (s.pushBackAnswer value = true ↔ ∀ u ∈ s.elements, ¬ equiv less value u) ∧
    s'.elements.Perm (if s.pushBackAnswer value then value :: s.elements else s.elements)
  | .popBack =>
    s.elements = [] ∧ s'.elements = [] ∨
    ∃ u, s.elements.getLast? = some u ∧ s.elements.Perm (u :: s'.elements)
  | .erase value =>
    (s.eraseAnswer value = true ↔ ∃ u ∈ s.elements, equiv less value u) ∧
    (s.eraseAnswer value = true →
      ∃ u, equiv less value u ∧ s.elements.Perm (u :: s'.elements)) ∧
    (s.eraseAnswer value = false → s'.elements.Perm s.elements)
  | .swap _ _ => s'.elements.Perm s.elements

theorem popBack_of_size_eq_zero (hzero : s.size = 0) : s.popBack less = s := by
  simp [RandomAccessSet.popBack, hzero]

/-- What a call keeps and does. -/
theorem Indexed.after (hr : StrictWeakOrder less) (h : Indexed less s) {call : Call T}
    (hvalid : s.Valid call) :
    Indexed less (s.after less call) ∧ Effect less s (s.after less call) call := by
  cases call with
  | pushBack value =>
    have hanswer := pushBackAnswer_iff.trans (h.find_eq_none_iff (t := value))
    cases hfind : s.find value with
    | some idx =>
      have hsame : s.pushBack less value = s := by simp [RandomAccessSet.pushBack, hfind]
      have hno : s.pushBackAnswer value = false := by simp [pushBackAnswer, hfind]
      refine ⟨by rwa [RandomAccessSet.after, hsame], hanswer, ?_⟩
      rw [RandomAccessSet.after, hsame, hno]
      exact .refl _
    | none =>
      have h' := h.pushBack hr hfind
      have hnot : ¬ s.Mem value := fun hmem => h.find_none hfind hmem hr.equiv_refl
      refine ⟨h', hanswer, ?_⟩
      rw [if_pos (pushBackAnswer_iff.2 hfind)]
      exact h.perm_cons hr h' hnot fun u => mem_pushBack hfind
  | popBack =>
    rcases Nat.eq_zero_or_pos s.size with hzero | hpos
    · have hnil : s.elements = [] := List.length_eq_zero_iff.1 (length_elements.trans hzero)
      simp only [RandomAccessSet.after, Effect, popBack_of_size_eq_zero hzero]
      exact ⟨h, .inl ⟨hnil, hnil⟩⟩
    · have h' := h.popBack hr hpos
      have hlast : s.Mem (s.vec (s.size - 1)) := ⟨s.size - 1, Nat.sub_lt hpos Nat.one_pos, rfl⟩
      refine ⟨h', .inr ⟨s.vec (s.size - 1), ?_, h.perm_removed hr h' hlast fun u =>
        mem_popBack hr h hpos⟩⟩
      obtain ⟨n, hn⟩ := Nat.exists_eq_succ_of_ne_zero hpos.ne'
      simp [elements, hn, List.range_succ]
  | erase value =>
    obtain ⟨h', hmem⟩ := RandomAccessSet.erase_spec hr h value
    refine ⟨h', eraseAnswer_iff.trans h.find_isSome_iff, fun hyes => ?_, fun hno => ?_⟩
    · obtain ⟨u, hu, heq⟩ := h.find_isSome_iff.1 (eraseAnswer_iff.1 hyes)
      rw [mem_elements] at hu
      refine ⟨u, heq, h.perm_removed hr h' hu fun v => ?_⟩
      rw [RandomAccessSet.after, hmem]
      refine and_congr_right fun hv => not_congr ⟨fun hveq => ?_, ?_⟩
      · exact h.mem_unique hv hu (hr.equiv_trans (equiv_symm hveq) heq)
      · rintro rfl
        exact heq
    · refine h.perm hr h' fun u => ?_
      rw [RandomAccessSet.after, hmem]
      refine and_iff_left_of_imp fun hu heq => ?_
      have hyes := eraseAnswer_iff.2 (h.find_isSome_iff.2 ⟨u, mem_elements.2 hu, heq⟩)
      exact Bool.false_ne_true (hno.symm.trans hyes)
  | swap idx₁ idx₂ =>
    have h' := h.swap hr hvalid.1 hvalid.2
    exact ⟨h', h.perm hr h' fun u => mem_swap hvalid.1 hvalid.2⟩

theorem indexed_of_run (hr : StrictWeakOrder less) {memory : Nat → T} {calls : List (Call T)}
    (hrun : Run (fun s call => some (s.after less call)) Valid (empty memory) calls s) :
    Indexed less s := by
  refine hrun.invariant (indexed_fresh memory) fun s call s' h hvalid hstep => ?_
  obtain rfl := Option.some.inj hstep
  exact (h.after hr hvalid).1

/-- After any calls with valid indices the index maps every element to its position and nothing
else to any, no two elements are duplicates of each other, and the next call answers and changes the
elements as it says. -/
theorem run_inverse (hr : StrictWeakOrder less) {memory : Nat → T} {calls : List (Call T)}
    (hrun : Run (fun s call => some (s.after less call)) Valid (empty memory) calls s) :
    (∀ i < s.size, s.vecIndex (s.vec i) = some i) ∧
    (∀ t i, s.vecIndex t = some i → i < s.size ∧ equiv less t (s.vec i)) ∧
    (∀ i < s.size, ∀ j < s.size, equiv less (s.vec i) (s.vec j) → i = j) ∧
    ∀ call, s.Valid call → Effect less s (s.after less call) call := by
  have h := indexed_of_run hr hrun
  refine ⟨h.index_vec, h.vec_index, fun i hi j hj heq => h.eq_of_equiv hi hj heq, ?_⟩
  exact fun call hvalid => (h.after hr hvalid).2

/-- An order that only looks at the last digit. -/
def digitLess (a b : Nat) : Bool := decide (a % 10 < b % 10)

theorem digitLess_order : StrictWeakOrder digitLess where
  irrefl a := by simp [digitLess]
  trans := by
    intro a b c
    simp only [digitLess, decide_eq_true_eq]
    omega
  negTrans := by
    intro a b c
    simp only [digitLess, decide_eq_true_eq]
    omega

/-- An element is swapped with itself, and erased through a duplicate. -/
theorem run_inverse_digits : ∃ s : RandomAccessSet Nat,
    Run (fun s call => some (s.after digitLess call)) Valid (empty fun _ => 0)
      [.pushBack 3, .pushBack 14, .swap 1 1, .erase 23] s ∧
    (∀ i < s.size, s.vecIndex (s.vec i) = some i) ∧
    (∀ t i, s.vecIndex t = some i → i < s.size ∧ equiv digitLess t (s.vec i)) ∧
    (∀ i < s.size, ∀ j < s.size, equiv digitLess (s.vec i) (s.vec j) → i = j) ∧
    ∀ call, s.Valid call → Effect digitLess s (s.after digitLess call) call := by
  let s₂ : RandomAccessSet Nat :=
    ((empty fun _ => 0).after digitLess (.pushBack 3)).after digitLess (.pushBack 14)
  have hvalid : s₂.Valid (.swap 1 1) := ⟨by decide, by decide⟩
  have hrun : Run (fun s call => some (s.after digitLess call)) Valid (empty fun _ => 0)
      [.pushBack 3, .pushBack 14, .swap 1 1, .erase 23]
      ((s₂.after digitLess (.swap 1 1)).after digitLess (.erase 23)) :=
    .cons trivial rfl (.cons trivial rfl (.cons hvalid rfl (.cons trivial rfl (.nil _))))
  exact ⟨_, hrun, run_inverse digitLess_order hrun⟩

end RandomAccessSet

/-! ## The priority queue -/

namespace MaxHeapWithDelete

open RandomAccessSet

variable {h h' : MaxHeapWithDelete T} {t u : T}

/-- A call that changes the heap. -/
inductive Call (T : Type) where
  | push (value : T)
  | pop
  | erase (value : T)

/-- The answer, and the heap after it; a call that answers `false` has changed nothing. -/
def answered (h : MaxHeapWithDelete T) : Option (MaxHeapWithDelete T) → Bool × MaxHeapWithDelete T
  | some h' => (true, h')
  | none => (false, h)

/-- What a call answers and leaves. -/
def after (less larger : T → T → Bool) (h : MaxHeapWithDelete T) :
    Call T → Bool × MaxHeapWithDelete T
  | .push value => answered h (push less larger h value)
  | .pop => answered h (pop less larger h)
  | .erase value => answered h (MaxHeapWithDelete.erase less larger h value)

/-- A step of a run: a call that gives this answer. -/
def step (less larger : T → T → Bool) (h : MaxHeapWithDelete T) (call : Call T × Bool) :
    Option (MaxHeapWithDelete T) :=
  if (after less larger h call.1).1 = call.2 then some (after less larger h call.1).2 else none

/-- The elements without their order. -/
def contents (h : MaxHeapWithDelete T) : Multiset T := h.elements

/-- What a call to a priority queue without duplicates may answer, and what it does to the
contents. -/
inductive Queue (less larger : T → T → Bool) : Multiset T → Call T → Bool → Multiset T → Prop
  | pushed {m : Multiset T} {t : T} (hnew : ∀ u ∈ m, ¬ equiv less t u) :
    Queue less larger m (.push t) true (t ::ₘ m)
  | held {m : Multiset T} {t u : T} (hu : u ∈ m) (heq : equiv less t u) :
    Queue less larger m (.push t) false m
  | popped {m : Multiset T} {u : T} (hmax : ∀ v ∈ m, ¬ larger v u) :
    Queue less larger (u ::ₘ m) .pop true m
  | drained : Queue less larger 0 .pop false 0
  | erased {m : Multiset T} {t u : T} (heq : equiv less t u) :
    Queue less larger (u ::ₘ m) (.erase t) true m
  | absent {m : Multiset T} {t : T} (hnew : ∀ u ∈ m, ¬ equiv less t u) :
    Queue less larger m (.erase t) false m

/-- The calls with their answers, one after the other. -/
inductive Queues (less larger : T → T → Bool) :
    Multiset T → List (Call T × Bool) → Multiset T → Prop
  | nil (m : Multiset T) : Queues less larger m [] m
  | cons {m m' m'' : Multiset T} {call : Call T} {answer : Bool} {calls : List (Call T × Bool)}
    (h : Queue less larger m call answer m') (hr : Queues less larger m' calls m'') :
    Queues less larger m ((call, answer) :: calls) m''

/-- The elements in the order in which `pop` takes them off. -/
def drain (less larger : T → T → Bool) (h : MaxHeapWithDelete T) : Nat → List T
  | 0 => []
  | fuel + 1 =>
    match pop less larger h with
    | none => []
    | some h' => h.top :: drain less larger h' fuel

/-- A heap that is a priority queue without duplicates. -/
structure IsQueue (less larger : T → T → Bool) (h : MaxHeapWithDelete T) : Prop where
  ordered : Ordered larger h
  distinct : ∀ i < h.size, ∀ j < h.size, equiv less (h.vec i) (h.vec j) → i = j
  found : ∀ t u, findValue h t = some u ↔ u ∈ h.elements ∧ equiv less t u
  top : 0 < h.size → h.top ∈ h.elements ∧ ∀ u ∈ h.elements, ¬ larger u h.top
  drains : (drain less larger h h.size).Perm h.elements ∧
    (drain less larger h h.size).Pairwise fun t u => ¬ larger u t

theorem findValue_iff (hx : Indexed less h) :
    findValue h t = some u ↔ u ∈ h.elements ∧ equiv less t u := by
  simp only [findValue, Option.map_eq_some_iff, mem_elements]
  constructor
  · rintro ⟨i, hi, rfl⟩
    obtain ⟨hlt, heq⟩ := hx.vec_index t i hi
    exact ⟨⟨i, hlt, rfl⟩, heq⟩
  · rintro ⟨⟨i, hi, rfl⟩, heq⟩
    exact ⟨i, (hx.congr _ _ heq).trans (hx.index_vec i hi), rfl⟩

section Orders

variable (hless : StrictWeakOrder less) (hlarger : StrictWeakOrder larger)

include hless hlarger

/-- Taking the top off leaves the other elements. -/
theorem pop_contents (hwf : WellFormed less larger h) (hpos : 0 < h.size) :
    ∃ h', pop less larger h = some h' ∧ WellFormed less larger h' ∧
      h.elements.Perm (h.top :: h'.elements) ∧ ∀ u ∈ h'.elements, ¬ larger u h.top := by
  obtain ⟨h', hpop, hwf', hmem⟩ := pop_spec hless hlarger hwf hpos
  refine ⟨h', hpop, hwf', ?_, fun u hu => ?_⟩
  · exact hwf.indexed.perm_removed hless hwf'.indexed (mem_top hpos) hmem
  · exact hwf.top_max hlarger ((hmem u).1 (mem_elements.1 hu)).1

/-- One call of the heap is one call of the queue. -/
theorem WellFormed.after (hwf : WellFormed less larger h) (call : Call T) :
    WellFormed less larger (MaxHeapWithDelete.after less larger h call).2 ∧
    Queue less larger h.contents call (MaxHeapWithDelete.after less larger h call).1
      (contents (MaxHeapWithDelete.after less larger h call).2) := by
  cases call with
  | push t =>
    cases hfind : h.find t with
    | none =>
      obtain ⟨h', hpush, hwf', hmem⟩ := push_spec hless hlarger hwf hfind
      have hnew := hwf.indexed.find_eq_none_iff.1 hfind
      have hperm := hwf.indexed.perm_cons hless hwf'.indexed
        (fun ht => hnew t (mem_elements.2 ht) hless.equiv_refl) hmem
      simp only [MaxHeapWithDelete.after, hpush, answered]
      refine ⟨hwf', ?_⟩
      rw [show contents h' = t ::ₘ h.contents from Multiset.coe_eq_coe.2 hperm]
      exact .pushed hnew
    | some idx =>
      obtain ⟨u, hu, heq⟩ := hwf.indexed.find_isSome_iff.1 (Option.isSome_iff_exists.2 ⟨_, hfind⟩)
      have hpush : push less larger h t = none := by simp [push, hfind]
      simp only [MaxHeapWithDelete.after, hpush, answered]
      exact ⟨hwf, .held hu heq⟩
  | pop =>
    rcases Nat.eq_zero_or_pos h.size with hzero | hpos
    · have hpop : pop less larger h = none := by rw [pop, if_pos hzero]
      have hnil : h.elements = [] := List.length_eq_zero_iff.1 (length_elements.trans hzero)
      simp only [MaxHeapWithDelete.after, hpop, answered]
      refine ⟨hwf, ?_⟩
      rw [show contents h = 0 from congrArg _ hnil]
      exact .drained
    · obtain ⟨h', hpop, hwf', hperm, hmax⟩ := pop_contents hless hlarger hwf hpos
      simp only [MaxHeapWithDelete.after, hpop, answered]
      refine ⟨hwf', ?_⟩
      rw [show contents h = h.top ::ₘ contents h' from Multiset.coe_eq_coe.2 hperm]
      exact .popped hmax
  | erase t =>
    cases hfind : h.find t with
    | none =>
      simp only [MaxHeapWithDelete.after, erase_eq_none hfind, answered]
      exact ⟨hwf, .absent (hwf.indexed.find_eq_none_iff.1 hfind)⟩
    | some idx =>
      obtain ⟨h', herase, hwf', hmem⟩ := erase_spec hless hlarger hwf hfind
      obtain ⟨hlt, heq⟩ := hwf.indexed.vec_index t idx hfind
      have hperm := hwf.indexed.perm_removed hless hwf'.indexed ⟨idx, hlt, rfl⟩ hmem
      simp only [MaxHeapWithDelete.after, herase, answered]
      refine ⟨hwf', ?_⟩
      rw [show contents h = h.vec idx ::ₘ contents h' from Multiset.coe_eq_coe.2 hperm]
      exact .erased heq

theorem queues_of_run {s : MaxHeapWithDelete T} {calls : List (Call T × Bool)}
    (hwf : WellFormed less larger s) (hrun : Run (step less larger) (fun _ _ => True) s calls h) :
    WellFormed less larger h ∧ Queues less larger s.contents calls h.contents := by
  induction hrun with
  | nil s => exact ⟨hwf, .nil _⟩
  | @cons s s' s'' call calls _ hstep _ ih =>
    obtain ⟨hwf', hqueue⟩ := hwf.after hless hlarger call.1
    rw [step] at hstep
    split at hstep
    next hanswer =>
      obtain rfl := Option.some.inj hstep
      rw [hanswer] at hqueue
      exact ⟨(ih hwf').1, .cons hqueue (ih hwf').2⟩
    next => cases hstep

theorem drain_spec (hwf : WellFormed less larger h) {n : Nat} (hn : h.size = n) :
    (drain less larger h n).Perm h.elements ∧
      (drain less larger h n).Pairwise fun t u => ¬ larger u t := by
  induction n generalizing h with
  | zero =>
    have hnil : h.elements = [] := List.length_eq_zero_iff.1 (length_elements.trans hn)
    rw [hnil, drain]
    exact ⟨.nil, .nil⟩
  | succ n ih =>
    obtain ⟨h', hpop, hwf', hperm, hmax⟩ := pop_contents hless hlarger hwf (by omega)
    have hsize : h'.size = n := by
      have hlen := hperm.length_eq
      simp only [length_elements, List.length_cons] at hlen
      omega
    obtain ⟨hrest, hsorted⟩ := ih hwf' hsize
    simp only [drain, hpop]
    refine ⟨(hrest.cons _).trans hperm.symm, List.pairwise_cons.2 ⟨fun u hu => ?_, hsorted⟩⟩
    exact hmax u (hrest.mem_iff.1 hu)

theorem WellFormed.isQueue (hwf : WellFormed less larger h) : IsQueue less larger h where
  ordered := hwf.ordered
  distinct _ hi _ hj heq := hwf.indexed.eq_of_equiv hi hj heq
  found _ _ := findValue_iff hwf.indexed
  top hpos := ⟨mem_elements.2 (mem_top hpos), fun _ hu => hwf.top_max hlarger (mem_elements.1 hu)⟩
  drains := drain_spec hless hlarger hwf rfl

omit hless hlarger in
theorem wellFormed_fresh (memory : Nat → T) : WellFormed less larger (empty memory) :=
  ⟨indexed_fresh memory, fun i _ hi => absurd hi (Nat.not_lt_zero i)⟩

/-- After any calls the heap has answered as a priority queue without duplicates that was empty at
first, it holds what that queue holds, and it is such a queue itself. -/
theorem run_priorityQueue {memory : Nat → T} {calls : List (Call T × Bool)}
    (hrun : Run (step less larger) (fun _ _ => True) (empty memory) calls h) :
    Queues less larger 0 calls h.contents ∧ IsQueue less larger h := by
  obtain ⟨hwf, hqueues⟩ := queues_of_run hless hlarger (wellFormed_fresh memory) hrun
  exact ⟨hqueues, hwf.isQueue hless hlarger⟩

end Orders

/-- The greater number is the larger one. -/
def natLarger (a b : Nat) : Bool := decide (b < a)

theorem natLarger_order : StrictWeakOrder natLarger where
  irrefl a := by simp [natLarger]
  trans := by
    intro a b c
    simp only [natLarger, decide_eq_true_eq]
    omega
  negTrans := by
    intro a b c
    simp only [natLarger, decide_eq_true_eq]
    omega

/-- A duplicate is refused, and an element is erased through another one. -/
theorem run_priorityQueue_digits : ∃ h : MaxHeapWithDelete Nat,
    Run (step digitLess natLarger) (fun _ _ => True) (empty fun _ => 0)
      [(.push 3, true), (.push 14, true), (.push 24, false), (.erase 13, true), (.pop, true)] h ∧
    Queues digitLess natLarger 0
      [(.push 3, true), (.push 14, true), (.push 24, false), (.erase 13, true), (.pop, true)]
      h.contents ∧
    IsQueue digitLess natLarger h := by
  have hrun : Run (step digitLess natLarger) (fun _ _ => True) (empty fun _ => 0)
      [(.push 3, true), (.push 14, true), (.push 24, false), (.erase 13, true), (.pop, true)] _ :=
    .cons trivial rfl (.cons trivial rfl (.cons trivial rfl (.cons trivial rfl
      (.cons trivial rfl (.nil _)))))
  exact ⟨_, hrun, run_priorityQueue digitLess_order natLarger_order hrun⟩

/-! ## Indices -/

theorem read_eq {i : Nat} (hi : i < h.size) : h.read i = some (h.vec i) := by
  rw [RandomAccessSet.read, if_pos hi]

theorem swapChecked_eq {i j : Nat} (hi : i < h.size) (hj : j < h.size) :
    h.swapChecked less i j = some (h.swap less i j) := by
  rw [RandomAccessSet.swapChecked, if_pos ⟨hi, hj⟩]

theorem isLargerChecked_eq {i j : Nat} (hi : i < h.size) (hj : j < h.size) :
    isLargerChecked larger h i j = some (larger (h.vec i) (h.vec j)) := by
  simp [isLargerChecked, read_eq hi, read_eq hj]

theorem lt_leftChild (idx : Nat) : idx < leftChild idx := by
  unfold leftChild
  omega

theorem lt_rightChild (idx : Nat) : idx < rightChild idx := by
  unfold rightChild
  omega

/-- Children are read only if they are inside, and then so is the element above them. -/
theorem largestChecked_eq (larger : T → T → Bool) (h : MaxHeapWithDelete T) (idx : Nat) :
    largestChecked larger h idx = some (largest larger h idx) := by
  have hleft := lt_leftChild idx
  have hright := lt_rightChild idx
  by_cases hl : leftChild idx < h.size
  · have hidx : idx < h.size := by omega
    have hbest : ∀ b : Bool, (if b then leftChild idx else idx) < h.size := by
      intro b
      cases b
      · exact hidx
      · exact hl
    simp only [largestChecked, largest, if_true, isLargerChecked_eq hl hidx, Option.bind_eq_bind,
      Option.bind_some, hl, true_and]
    by_cases hr : rightChild idx < h.size
    · simp only [if_true, isLargerChecked_eq hr (hbest _), Option.bind_some, hr, true_and]
      rfl
    · simp [hr]
  · have hr : ¬ rightChild idx < h.size := by
      unfold leftChild at hl
      unfold rightChild
      omega
    simp [largestChecked, largest, hl, hr]

theorem largest_lt {idx : Nat} (hne : largest larger h idx ≠ idx) :
    largest larger h idx < h.size ∧ idx < h.size := by
  have hleft := lt_leftChild idx
  have hright := lt_rightChild idx
  unfold largest at hne ⊢
  split at hne <;> split <;> grind

theorem percolateDownChecked_eq (less larger : T → T → Bool) (h : MaxHeapWithDelete T)
    (idx fuel : Nat) :
    percolateDownChecked less larger h idx fuel = some (percolateDown less larger h idx fuel) := by
  induction fuel generalizing h idx with
  | zero => rfl
  | succ fuel ih =>
    simp only [percolateDownChecked, percolateDown, largestChecked_eq, Option.bind_eq_bind,
      Option.bind_some]
    split
    · next hne =>
      obtain ⟨hlargest, hidx⟩ := largest_lt hne
      rw [swapChecked_eq hlargest hidx, Option.bind_some]
      exact ih _ _
    · rfl

theorem percolateUpChecked_eq (less larger : T → T → Bool) {h : MaxHeapWithDelete T} {idx : Nat}
    (hidx : idx < h.size) (moved : Bool) (fuel : Nat) :
    percolateUpChecked less larger h idx moved fuel =
      some (percolateUp less larger h idx moved fuel) := by
  induction fuel generalizing h idx moved with
  | zero => rfl
  | succ fuel ih =>
    rw [percolateUpChecked, percolateUp]
    by_cases hpos : 0 < idx
    · have hparent := parent_lt hpos
      have hlt : parent idx < h.size := by omega
      simp only [hpos, if_true, isLargerChecked_eq hidx hlt, Option.bind_eq_bind,
        Option.bind_some, true_and]
      by_cases hup : larger (h.vec idx) (h.vec (parent idx)) = true
      · rw [if_pos hup, if_pos hup, swapChecked_eq hidx hlt, Option.bind_some]
        exact ih (h := h.swap less idx (parent idx)) hlt true
      · rw [if_neg hup, if_neg hup]
    · simp [hpos]

/-- The slot behind the last element is read. -/
theorem percolateUpChecked_eq_none {idx : Nat} (hpos : 0 < idx) (hsize : h.size ≤ idx) :
    percolateUpChecked less larger h idx false idx = none := by
  obtain ⟨fuel, rfl⟩ := Nat.exists_eq_succ_of_ne_zero hpos.ne'
  have hread : h.read (fuel + 1) = none := by
    rw [RandomAccessSet.read, if_neg (by omega)]
  simp [percolateUpChecked, isLargerChecked, hread]

theorem pushChecked_eq (less larger : T → T → Bool) (h : MaxHeapWithDelete T) (t : T) :
    pushChecked less larger h t = some (push less larger h t) := by
  simp only [pushChecked, push]
  split
  · rfl
  · next hnone =>
    have hsize : (h.pushBack less t).size = h.size + 1 := by
      rw [pushBack_eq (Option.not_isSome_iff_eq_none.1 hnone)]
    rw [percolateUpChecked_eq less larger (by omega)]
    rfl

theorem popChecked_eq (less larger : T → T → Bool) (h : MaxHeapWithDelete T) :
    popChecked less larger h = some (pop less larger h) := by
  simp only [popChecked, pop]
  split
  · rfl
  · next hne =>
    rw [swapChecked_eq (by omega) (by omega)]
    simp [percolateDownChecked_eq]

/-- An element in the last of several slots is erased. -/
def LastOfSeveral (h : MaxHeapWithDelete T) : Call T → Prop
  | .erase value => h.find value = some (h.size - 1) ∧ 2 ≤ h.size
  | _ => False

theorem eraseChecked_eq (larger : T → T → Bool) (hx : Indexed less h)
    (hlast : ¬ LastOfSeveral h (.erase t)) :
    eraseChecked less larger h t = some (MaxHeapWithDelete.erase less larger h t) := by
  rw [eraseChecked, MaxHeapWithDelete.erase]
  cases hfind : h.find t with
  | none => rfl
  | some idx =>
    obtain ⟨hidx, -⟩ := hx.vec_index t idx hfind
    simp only [swapChecked_eq hidx (show h.size - 1 < h.size by omega), Option.bind_eq_bind,
      Option.bind_some]
    have hup : percolateUpChecked less larger ((h.swap less idx (h.size - 1)).popBack less) idx
        false idx = some (percolateUp less larger ((h.swap less idx (h.size - 1)).popBack less) idx
          false idx) := by
      rcases Nat.eq_zero_or_pos idx with rfl | hpos
      · rfl
      · refine percolateUpChecked_eq less larger ?_ false idx
        rw [popBack_eq (show 0 < (h.swap less idx (h.size - 1)).size by rw [swap_size]; omega)]
        show idx < h.size - 1
        have hne : idx ≠ h.size - 1 := by
          rintro rfl
          exact hlast ⟨hfind, by omega⟩
        omega
    rw [hup, Option.bind_some]
    rcases percolateUp less larger ((h.swap less idx (h.size - 1)).popBack less) idx false idx with
      ⟨_ | _, h'⟩
    · simp [percolateDownChecked_eq]
    · rfl

theorem eraseChecked_eq_none (hlast : LastOfSeveral h (.erase t)) :
    eraseChecked less larger h t = none := by
  obtain ⟨hfind, hsize⟩ := hlast
  have hpos : 0 < h.size - 1 := by omega
  have hlt : h.size - 1 < h.size := by omega
  rw [eraseChecked, hfind]
  simp only [swapChecked_eq hlt hlt, Option.bind_eq_bind, Option.bind_some]
  rw [percolateUpChecked_eq_none hpos, Option.bind_none]
  rw [popBack_eq (show 0 < (h.swap less (h.size - 1) (h.size - 1)).size by rw [swap_size]; omega)]
  exact le_rfl

/-- What a call leaves, if all its indices are inside. -/
def stepChecked (less larger : T → T → Bool) (h : MaxHeapWithDelete T) :
    Call T → Option (MaxHeapWithDelete T)
  | .push value => (pushChecked less larger h value).map fun r => (answered h r).2
  | .pop => (popChecked less larger h).map fun r => (answered h r).2
  | .erase value => (eraseChecked less larger h value).map fun r => (answered h r).2

theorem stepChecked_eq_some_iff (larger : T → T → Bool) (hx : Indexed less h) {call : Call T} :
    stepChecked less larger h call = some h' ↔
      ¬ LastOfSeveral h call ∧ (MaxHeapWithDelete.after less larger h call).2 = h' := by
  cases call with
  | push value =>
    simp [stepChecked, pushChecked_eq, MaxHeapWithDelete.after, LastOfSeveral]
  | pop =>
    simp [stepChecked, popChecked_eq, MaxHeapWithDelete.after, LastOfSeveral]
  | erase value =>
    by_cases hlast : LastOfSeveral h (.erase value)
    · simp [stepChecked, eraseChecked_eq_none hlast, hlast]
    · simp [stepChecked, eraseChecked_eq larger hx hlast, MaxHeapWithDelete.after, hlast]

/-- In a run every index is inside the vector exactly if no element is erased from the last of
several slots. -/
theorem checked_run_iff (hless : StrictWeakOrder less) (hlarger : StrictWeakOrder larger)
    (memory : Nat → T) (calls : List (Call T)) (h : MaxHeapWithDelete T) :
    Run (stepChecked less larger) (fun _ _ => True) (empty memory) calls h ↔
      Run (fun h call => some (MaxHeapWithDelete.after less larger h call).2)
        (fun h call => ¬ LastOfSeveral h call) (empty memory) calls h := by
  generalize hs : empty memory = s
  have hwf : WellFormed less larger s := hs ▸ wellFormed_fresh memory
  clear hs
  constructor
  · intro hrun
    induction hrun with
    | nil => exact .nil _
    | @cons s s' _ call _ _ hstep _ ih =>
      obtain ⟨hlast, rfl⟩ := (stepChecked_eq_some_iff larger hwf.indexed).1 hstep
      exact .cons hlast rfl (ih (hwf.after hless hlarger call).1)
  · intro hrun
    induction hrun with
    | nil => exact .nil _
    | @cons s s' _ call _ hlast hstep _ ih =>
      obtain rfl := Option.some.inj hstep
      refine .cons trivial ?_ (ih (hwf.after hless hlarger call).1)
      exact (stepChecked_eq_some_iff larger hwf.indexed).2 ⟨hlast, rfl⟩

/-- The first one of two elements is erased. -/
theorem checked_run_first : ∃ h : MaxHeapWithDelete Nat,
    Run (stepChecked digitLess natLarger) (fun _ _ => True) (empty fun _ => 0)
      [.push 2, .push 1, .erase 2] h := by
  have herase : ¬ LastOfSeveral (MaxHeapWithDelete.after digitLess natLarger
      (MaxHeapWithDelete.after digitLess natLarger (empty fun _ => 0) (.push 2)).2
      (.push 1)).2 (.erase 2) := by
    rintro ⟨hfind, -⟩
    exact absurd hfind (by decide)
  exact ⟨_, (checked_run_iff digitLess_order natLarger_order _ _ _).2
    (.cons id rfl (.cons id rfl (.cons herase rfl (.nil _))))⟩

/-- The smaller one of two elements stands last. -/
theorem not_checked_run_last : ¬ ∃ h : MaxHeapWithDelete Nat,
    Run (stepChecked digitLess natLarger) (fun _ _ => True) (empty fun _ => 0)
      [.push 2, .push 1, .erase 1] h := by
  rintro ⟨h, hrun⟩
  cases hrun with | cons _ h₁ hrun =>
  cases hrun with | cons _ h₂ hrun =>
  cases hrun with | cons _ h₃ hrun =>
  obtain rfl := Option.some.inj h₁
  obtain rfl := Option.some.inj h₂
  cases h₃

end MaxHeapWithDelete

end Alto.Common
