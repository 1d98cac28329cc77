import Alto.Portal.AdminTxn
import Alto.Verify.DistObj

/-!
# Isolation of copy-on-write transactions

While a copy-on-write transaction runs, the objects that were there when it began are not written
to, whatever its actions do. `Isolated` is the invariant: `new_state_` and all write-locked objects
are newer than the transaction, and only objects that are newer, or that the transaction holds a
read lock for, can be reached.
-/

namespace Alto

open Lib

variable {P O : Type}

/-- What a reader sees of an object, if `view` is what the getters of its class show. -/
def Obj.seen (view : P → O) (o : Obj P) : O × List (Option Nat) × Nat × Bool :=
  (view o.payload, o.children, o.version, o.fired)

/-- The objects of `h₀` look the same in `h`. -/
def Heap.Kept (view : P → O) (h₀ h : Heap P) : Prop :=
  h₀.length ≤ h.length ∧
    ∀ a, a < h₀.length → (h[a]?).map (Obj.seen view) = (h₀[a]?).map (Obj.seen view)

namespace Heap.Kept

variable {view : P → O} {h₀ h h' : Heap P}

theorem refl (h : Heap P) : h.Kept view h := ⟨le_rfl, fun _ _ => rfl⟩

theorem trans (hk : h₀.Kept view h) (hk' : h.Kept view h') : h₀.Kept view h' :=
  ⟨hk.1.trans hk'.1, fun a ha => (hk'.2 a (ha.trans_le hk.1)).trans (hk.2 a ha)⟩

theorem append (l : Heap P) : h.Kept view (h ++ l) :=
  ⟨by simp, fun a ha => by rw [List.getElem?_append_left ha]⟩

/-- An edit of a newer object. -/
theorem modify (hk : h₀.Kept view h) {a : Nat} (ha : h₀.length ≤ a) (f : Obj P → Obj P) :
    h₀.Kept view (h.modify a f) := by
  refine ⟨by simpa using hk.1, fun x hx => ?_⟩
  have hne : a ≠ x := by omega
  rw [List.getElem?_modify, ← hk.2 x hx]
  simp [hne]

/-- An edit that a reader does not see. -/
theorem modify_unseen (a : Nat) {f : Obj P → Obj P} (hf : ∀ o, (f o).seen view = o.seen view) :
    h.Kept view (h.modify a f) := by
  refine ⟨by simp, fun x _ => ?_⟩
  rw [List.getElem?_modify]
  cases h[x]? with
  | none => rfl
  | some o => by_cases hax : a = x <;> simp [hax, hf]

theorem links (hk : h₀.Kept view h) {a : Nat} (ha : a < h₀.length) (i : Nat) :
    h.links a i = h₀.links a i := by
  have heq := hk.2 a ha
  cases hh : h[a]? <;> cases hh₀ : h₀[a]? <;> simp_all [Heap.links, Obj.getChild, Obj.seen]

end Heap.Kept

/-- The invariant of a copy-on-write transaction that began with the objects of `h₀`. -/
structure Isolated (view : P → O) (h₀ : Heap P) (w : Work P) : Prop where
  kept : h₀.Kept view w.heap
  type : w.txn.type = .copyOnWrite
  newState : h₀.length ≤ w.txn.newState
  writeLocks : ∀ a ∈ w.txn.writeLocks, h₀.length ≤ a
  closed : ∀ a i b, a ∈ w.txn.oldStateLocks ∨ h₀.length ≤ a → w.heap.links a i = some b →
    b ∈ w.txn.oldStateLocks ∨ h₀.length ≤ b

namespace Isolated

variable {view : P → O} {h₀ : Heap P} {w w' : Work P} {c : Copying P} {p q : Path} {a i : Nat}
  {o : Obj P}

theorem of_find (hw : Isolated view h₀ w) (h : w.find p = some (a, o)) :
    a ∈ w.txn.oldStateLocks ∨ h₀.length ≤ a :=
  resolve_mem (S := fun a => a ∈ w.txn.oldStateLocks ∨ h₀.length ≤ a) (Or.inr hw.newState)
    hw.closed (Heap.find_eq_some.1 h).1

theorem of_canWrite (hw : Isolated view h₀ w) (h : w.canWrite a = true) : h₀.length ≤ a :=
  hw.writeLocks a (by simpa [Work.canWrite] using h)

/-- Newer objects may be edited as long as their children stay newer or read-locked. -/
theorem of_edit (hw : Isolated view h₀ w) {h : Heap P} (hk : h₀.Kept view h)
    (hl : ∀ a i b, h.links a i = some b → w.heap.links a i = some b ∨ h₀.length ≤ b ∨
      ∃ x j, (x ∈ w.txn.oldStateLocks ∨ h₀.length ≤ x) ∧ w.heap.links x j = some b) :
    Isolated view h₀ ⟨h, w.txn⟩ where
  kept := hk
  type := hw.type
  newState := hw.newState
  writeLocks := hw.writeLocks
  closed a i b ha hab := by
    rcases hl a i b hab with h' | h' | ⟨x, j, hx, h'⟩
    · exact hw.closed a i b ha h'
    · exact Or.inr h'
    · exact hw.closed x j b hx h'

theorem modify (hw : Isolated view h₀ w) (ha : h₀.length ≤ a) {f : Obj P → Obj P}
    (hf : ∀ o, (f o).children = o.children) : Isolated view h₀ ⟨w.heap.modify a f, w.txn⟩ :=
  hw.of_edit (hw.kept.modify ha f) fun x i b h => by
    rw [Heap.links_modify hf] at h
    exact Or.inl h

theorem lock (hw : Isolated view h₀ w) (ha : h₀.length ≤ a) : Isolated view h₀ (w.lock a) where
  kept := hw.kept.modify ha _
  type := hw.type
  newState := hw.newState
  writeLocks x hx := by
    rcases StdSet.mem_insert.1 hx with rfl | h
    · exact ha
    · exact hw.writeLocks x h
  closed x i b hx hb := by
    have hb' : Heap.links (w.heap.modify a Obj.resetFired) x i = some b := hb
    rw [Heap.links_resetFired] at hb'
    exact hw.closed x i b hx hb'

theorem setChild (hw : Isolated view h₀ w) (ha : h₀.length ≤ a) (halt : a < w.heap.length)
    (i : Nat) {value : Option Nat} (hv : ∀ b ∈ value, h₀.length ≤ b) :
    Isolated view h₀ ⟨w.heap.modify a (·.setChild i value), w.txn⟩ :=
  hw.of_edit (hw.kept.modify ha _) fun x j b h => by
    rw [Heap.links_setChild halt] at h
    split at h
    · exact Or.inr (Or.inl (hv b h))
    · exact Or.inl h

/-- New objects have new children, or the children of an object that can be reached. -/
theorem append (hw : Isolated view h₀ w) {l : Heap P}
    (hl : ∀ n i b, l.links n i = some b → h₀.length ≤ b ∨
      ∃ x j, (x ∈ w.txn.oldStateLocks ∨ h₀.length ≤ x) ∧ w.heap.links x j = some b) :
    Isolated view h₀ ⟨w.heap ++ l, w.txn⟩ :=
  hw.of_edit (hw.kept.trans (.append l)) fun x i b h => by
    by_cases hx : x < w.heap.length
    · rw [Heap.links_append_left hx] at h
      exact Or.inl h
    · obtain ⟨n, rfl⟩ := Nat.exists_eq_add_of_le (Nat.le_of_not_lt hx)
      rw [Heap.links_append_right] at h
      exact Or.inr (hl n i b h)

theorem copyObject (hview : ∀ x, view (c.leave x) = view x) (hw : Isolated view h₀ w)
    {parent idx : Nat} (hp : h₀.length ≤ parent) (hplt : parent < w.heap.length)
    (ha : a ∈ w.txn.oldStateLocks ∨ h₀.length ≤ a) (ho : w.heap[a]? = some o) :
    Isolated view h₀ (w.copyObject c parent idx a o) := by
  have hunseen : ∀ o : Obj P, (o.afterCopy c).seen view = o.seen view := fun o => by
    simp [Obj.seen, Obj.afterCopy, hview]
  have hleave : Isolated view h₀ ⟨w.heap.modify a (·.afterCopy c), w.txn⟩ :=
    hw.of_edit (hw.kept.trans (.modify_unseen a hunseen)) fun x i b h => by
      rw [Heap.links_afterCopy] at h
      exact Or.inl h
  have hcopy := hleave.append (l := [o.copy c w.heap.length]) fun n i b h => by
    refine Or.inr ⟨a, i, ha, ?_⟩
    cases n with
    | zero =>
      have hab : w.heap.links a i = some b := by
        rw [Heap.links, ho]
        exact h
      rwa [← Heap.links_afterCopy (a := a) (c := c)] at hab
    | succ n => cases h
  refine (hcopy.setChild hp ?_ idx ?_).lock hw.kept.1
  · simp only [List.length_append, List.length_modify]
    omega
  · rintro b ⟨rfl⟩
    exact hw.kept.1

/-! ## The calls of an action -/

theorem readObjectRef (hw : Isolated view h₀ w) (h : w.readObjectRef q i = some w') :
    Isolated view h₀ w' := by
  obtain ⟨⟨parent, po⟩, -, h⟩ := Option.bind_eq_some_iff.1 h
  obtain ⟨-, -, h⟩ := Option.bind_eq_some_iff.1 h
  obtain ⟨⟨a, o⟩, ha, h⟩ := Option.bind_eq_some_iff.1 h
  dsimp only at h
  split at h
  · cases h
    exact hw
  · next hr =>
    cases h
    refine hw.lock ((hw.of_find ha).resolve_left fun hold => hr ?_)
    simp [Work.canRead, hold]

theorem writeObjectRef (hview : ∀ x, view (c.leave x) = view x) (hw : Isolated view h₀ w)
    (h : w.writeObjectRef c q i = some w') : Isolated view h₀ w' := by
  obtain ⟨⟨parent, po⟩, hp, h⟩ := Option.bind_eq_some_iff.1 h
  obtain ⟨_, hlock, h⟩ := Option.bind_eq_some_iff.1 h
  obtain ⟨⟨a, o⟩, ha, h⟩ := Option.bind_eq_some_iff.1 h
  have hparent : h₀.length ≤ parent := hw.of_canWrite (by simpa using hlock)
  dsimp only at h
  split at h
  · cases h
    exact hw
  split at h
  · next hold =>
    cases h
    exact hw.lock ((hw.of_find ha).resolve_left hold)
  rw [hw.type] at h
  obtain ⟨idx, -, h⟩ := Option.bind_eq_some_iff.1 h
  cases h
  refine hw.copyObject hview hparent ?_ (hw.of_find ha) (Heap.find_eq_some.1 ha).2
  exact (List.getElem?_eq_some_iff.1 (Heap.find_eq_some.1 hp).2).1

theorem store (hw : Isolated view h₀ w) {x : P} {notify : Bool}
    (h : w.store p x notify = some w') : Isolated view h₀ w' := by
  obtain ⟨⟨a, o⟩, -, h⟩ := Option.bind_eq_some_iff.1 h
  obtain ⟨_, hlock, h⟩ := Option.bind_eq_some_iff.1 h
  cases h
  exact hw.modify (hw.of_canWrite (by simpa using hlock)) fun o => o.store_children x notify

theorem setChild_new (hw : Isolated view h₀ w) {value : Option (NewObj P)}
    (h : w.setChild c p i value = some w') : Isolated view h₀ w' := by
  obtain ⟨⟨a, o⟩, ha, h⟩ := Option.bind_eq_some_iff.1 h
  obtain ⟨_, hlock, h⟩ := Option.bind_eq_some_iff.1 h
  have hle : h₀.length ≤ a := hw.of_canWrite (by simpa using hlock)
  have halt : a < w.heap.length := (List.getElem?_eq_some_iff.1 (Heap.find_eq_some.1 ha).2).1
  cases value with
  | none =>
    cases h
    exact hw.setChild hle halt i (by simp)
  | some x =>
    cases h
    have hnew : Isolated view h₀ ⟨w.heap ++ Heap.newObjs c w.heap.length x, w.txn⟩ := by
      refine hw.append fun n j b hb => Or.inl ?_
      rw [Heap.links_newObjs] at hb
      split at hb
      · cases hb
        have := hw.kept.1
        omega
      · cases hb
    refine hnew.setChild hle ?_ i ?_
    · simp only [List.length_append]
      omega
    · rintro b ⟨rfl⟩
      exact hw.kept.1

/-- Whatever an action does, it keeps the transaction isolated. -/
theorem exec (hview : ∀ x, view (c.leave x) = view x) {α : Type} (prog : Prog P α)
    (hw : Isolated view h₀ w) : Isolated view h₀ (prog.exec c w).2 := by
  induction prog generalizing w with
  | ret | throw | undef => exact hw
  | read q i k ih =>
    rw [Prog.exec]
    split
    · next h => exact ih (hw.readObjectRef h)
    · exact hw
  | write q i k ih =>
    rw [Prog.exec]
    split
    · next h => exact ih (hw.writeObjectRef hview h)
    · exact hw
  | load p k ih =>
    rw [Prog.exec]
    split
    · exact ih _ hw
    · exact hw
  | slots p k ih =>
    rw [Prog.exec]
    split
    · exact ih _ hw
    · exact hw
  | store q i x notify k ih =>
    rw [Prog.exec]
    split
    · next h => exact ih (hw.store h)
    · exact hw
  | setChild q j i value k ih =>
    rw [Prog.exec]
    split
    · next h => exact ih (hw.setChild_new h)
    · exact hw

end Isolated

end Alto
