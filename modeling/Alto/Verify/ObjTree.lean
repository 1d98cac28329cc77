import Alto.Portal.AdminTxn
import Alto.Verify.DistObj

/-!
# Objects by path

The state that a program works on, as a tree: what is found at each path, without the numbers of the
objects. `Prog.run` is the meaning of a program on trees. In a direct transaction a reference for
writing only locks the object; in a copy-on-write transaction the first one replaces an old object
by its copy.
-/

namespace Alto

open Lib

/-- What is found at a path: the payload, the number of child slots, `version_`, `changed_fired_`,
whether the object is older than the transaction and whether the transaction has a write lock. -/
structure Cell (P : Type) where
  payload : P
  width : Nat
  version : Nat
  fired : Bool
  old : Bool
  locked : Bool

/-- The cells by path, and the number of the next object. -/
@[ext]
structure ObjTree (P : Type) where
  cells : Path → Option (Cell P)
  next : Nat

namespace Cell

variable {P : Type}

/-- `LocalObject::changed`. -/
def changed (x : Cell P) : Cell P :=
  if x.fired then x else { x with version := (x.version + 1) % 2 ^ 32, fired := true }

/-- `DistributedObject::set_child`. -/
def setChild (x : Cell P) (i : Nat) : Cell P := changed { x with width := max x.width (i + 1) }

/-- A write lock is taken. -/
def lock (x : Cell P) : Cell P := { x with fired := false, locked := true }

/-- The transaction has some lock. -/
def readable (x : Cell P) : Bool := x.locked || x.old

/-- A setter. -/
def store (x : Cell P) (y : P) (notify : Bool) : Cell P :=
  if notify then changed { x with payload := y } else { x with payload := y }

@[simp] theorem changed_payload (x : Cell P) : x.changed.payload = x.payload := by
  unfold changed
  split <;> rfl

@[simp] theorem changed_width (x : Cell P) : x.changed.width = x.width := by
  unfold changed
  split <;> rfl

@[simp] theorem changed_old (x : Cell P) : x.changed.old = x.old := by
  unfold changed
  split <;> rfl

@[simp] theorem changed_locked (x : Cell P) : x.changed.locked = x.locked := by
  unfold changed
  split <;> rfl

@[simp] theorem setChild_payload (x : Cell P) (i : Nat) : (x.setChild i).payload = x.payload := by
  simp [setChild]

@[simp] theorem setChild_width (x : Cell P) (i : Nat) :
    (x.setChild i).width = max x.width (i + 1) := by simp [setChild]

@[simp] theorem setChild_old (x : Cell P) (i : Nat) : (x.setChild i).old = x.old := by
  simp [setChild]

@[simp] theorem setChild_locked (x : Cell P) (i : Nat) : (x.setChild i).locked = x.locked := by
  simp [setChild]

@[simp] theorem store_payload (x : Cell P) (y : P) (notify : Bool) :
    (x.store y notify).payload = y := by
  unfold store
  split <;> simp

@[simp] theorem store_width (x : Cell P) (y : P) (notify : Bool) :
    (x.store y notify).width = x.width := by
  unfold store
  split <;> simp

@[simp] theorem store_old (x : Cell P) (y : P) (notify : Bool) :
    (x.store y notify).old = x.old := by
  unfold store
  split <;> simp

@[simp] theorem store_locked (x : Cell P) (y : P) (notify : Bool) :
    (x.store y notify).locked = x.locked := by
  unfold store
  split <;> simp

end Cell

/-- The part of a path below another one. -/
def below (p r : Path) : Option Path :=
  if p <:+ r then some (r.take (r.length - p.length)) else none

theorem below_append (s p : Path) : below p (s ++ p) = some s := by
  simp [below]

theorem below_eq_none {p r : Path} : below p r = none ↔ ¬ p <:+ r := by
  simp [below]

namespace ObjTree

variable {P : Type}

/-- Edit the cell at a path. -/
def modify (T : ObjTree P) (p : Path) (f : Cell P → Cell P) : ObjTree P :=
  { T with cells := fun r => if r = p then (T.cells r).map f else T.cells r }

/-- Replace everything from a path on downwards. -/
def graft (T : ObjTree P) (p : Path) (new : Path → Option (Cell P)) : ObjTree P :=
  { T with
    cells := fun r =>
      match below p r with
      | some s => new s
      | none => T.cells r }

@[simp] theorem modify_self (T : ObjTree P) (p : Path) (f : Cell P → Cell P) :
    (T.modify p f).cells p = (T.cells p).map f := by simp [modify]

theorem modify_ne (T : ObjTree P) {p r : Path} (f : Cell P → Cell P) (h : r ≠ p) :
    (T.modify p f).cells r = T.cells r := by simp [modify, h]

theorem graft_below (T : ObjTree P) (p s : Path) (new : Path → Option (Cell P)) :
    (T.graft p new).cells (s ++ p) = new s := by simp [graft, below_append]

theorem graft_other (T : ObjTree P) {p r : Path} (new : Path → Option (Cell P))
    (h : ¬ p <:+ r) : (T.graft p new).cells r = T.cells r := by
  simp [graft, below_eq_none.2 h]

/-- The copy-on-write branch of `write_object_ref`. -/
def copyAt (c : Copying P) (T : ObjTree P) (q : Path) (i : Nat) (x : Cell P) : ObjTree P :=
  modify
    { cells := fun r =>
        if r = i :: q then some ⟨c.copyOf x.payload, x.width, c.junk T.next, false, false, true⟩
        else T.cells r
      next := T.next + 1 }
    q (·.setChild i)

/-- `read_object_ref`. -/
def read (T : ObjTree P) (q : Path) (i : Nat) : Option (ObjTree P) :=
  match T.cells q, T.cells (i :: q) with
  | some y, some x =>
    if y.readable then some (if x.readable then T else T.modify (i :: q) Cell.lock) else none
  | _, _ => none

/-- `write_object_ref`. -/
def write (c : Copying P) (type : TxnType) (T : ObjTree P) (q : Path) (i : Nat) :
    Option (ObjTree P) :=
  match T.cells q, T.cells (i :: q) with
  | some y, some x =>
    if y.locked then
      some (if x.locked then T
        else if type = .copyOnWrite ∧ x.old then T.copyAt c q i x
        else T.modify (i :: q) Cell.lock)
    else none
  | _, _ => none

/-- The cells of a new object and its children. -/
def newCells (c : Copying P) (n : Nat) (x : NewObj P) : Path → Option (Cell P)
  | [] => some ⟨x.payload, x.leaves.length, c.junk n, false, false, false⟩
  | [j] => (x.leaves[j]?).map fun y => ⟨y, 0, c.junk (n + 1 + j), false, false, false⟩
  | _ => none

/-- `set_child` with a null pointer or a new object. -/
def setChild (c : Copying P) (T : ObjTree P) (p : Path) (i : Nat) (value : Option (NewObj P)) :
    ObjTree P :=
  let T' := (T.modify p (·.setChild i)).graft (i :: p)
    (value.elim (fun _ => none) (newCells c T.next))
  { T' with next := T.next + value.elim 0 fun x => x.leaves.length + 1 }

/-- A getter. -/
def load (T : ObjTree P) (p : Path) : Option (Cell P) := (T.cells p).filter (·.readable)

/-- A setter. -/
def store (T : ObjTree P) (p : Path) (x : P) (notify : Bool) : Option (ObjTree P) :=
  match T.cells p with
  | some y => if y.locked then some (T.modify p (·.store x notify)) else none
  | none => none

/-- `set_child`, if the object is locked. -/
def setChild? (c : Copying P) (T : ObjTree P) (p : Path) (i : Nat) (value : Option (NewObj P)) :
    Option (ObjTree P) :=
  match T.cells p with
  | some y => if y.locked then some (T.setChild c p i value) else none
  | none => none

/-- Which slots of the object at `p` are filled. -/
def slots (T : ObjTree P) (p : Path) (x : Cell P) : List Bool :=
  (List.range x.width).map fun i => (T.cells (i :: p)).isSome

end ObjTree

/-- The meaning of a program on trees. -/
def Prog.run {P α : Type} (c : Copying P) (type : TxnType) :
    Prog P α → ObjTree P → Outcome α × ObjTree P
  | ret x, T => (.ok x, T)
  | throw msg, T => (.error msg, T)
  | undef, T => (.undefined, T)
  | read q i k, T =>
    match T.read q i with
    | some T => k.run c type T
    | none => (.undefined, T)
  | write q i k, T =>
    match T.write c type q i with
    | some T => k.run c type T
    | none => (.undefined, T)
  | load p k, T =>
    match T.load p with
    | some x => (k x.payload).run c type T
    | none => (.undefined, T)
  | slots p k, T =>
    match T.load p with
    | some x => (k (T.slots p x)).run c type T
    | none => (.undefined, T)
  | store q i x notify k, T =>
    match T.store (i :: q) x notify with
    | some T => k.run c type T
    | none => (.undefined, T)
  | setChild q j i value k, T =>
    match T.setChild? c (j :: q) i value with
    | some T => k.run c type T
    | none => (.undefined, T)

/-- What the calls of a program preserve, the program preserves. -/
theorem Prog.run_invariant {P α : Type} {c : Copying P} {type : TxnType} {I : ObjTree P → Prop}
    (hlock : ∀ (T : ObjTree P) q i x, I T → T.cells (i :: q) = some x → x.locked = false →
      x.old = false ∨ type = .directWrite → I (T.modify (i :: q) Cell.lock))
    (hcopy : ∀ (T : ObjTree P) q i x y, I T → type = .copyOnWrite → T.cells (i :: q) = some x →
      x.locked = false → x.old = true → T.cells q = some y → y.locked = true → I (T.copyAt c q i x))
    (hstore : ∀ (T : ObjTree P) q i x v notify, I T → T.cells (i :: q) = some x →
      x.locked = true → I (T.modify (i :: q) (·.store v notify)))
    (hset : ∀ (T : ObjTree P) q j i x value, I T → T.cells (j :: q) = some x →
      x.locked = true → I (T.setChild c (j :: q) i value))
    (prog : Prog P α) {T : ObjTree P} (h : I T) : I (prog.run c type T).2 := by
  induction prog generalizing T with
  | ret | throw | undef => exact h
  | read q i k ih =>
    rw [run]
    unfold ObjTree.read
    split
    · next T' hT' =>
      split at hT'
      · next y x hq hi =>
        split at hT'
        · cases hT'
          refine ih ?_
          split
          · exact h
          · next hx =>
            simp only [Cell.readable, Bool.or_eq_true, not_or, Bool.not_eq_true] at hx
            exact hlock T q i x h hi hx.1 (Or.inl hx.2)
        · cases hT'
      · cases hT'
    · exact h
  | write q i k ih =>
    rw [run]
    unfold ObjTree.write
    split
    · next T' hT' =>
      split at hT'
      · next y x hq hi =>
        split at hT'
        · next hy =>
          cases hT'
          refine ih ?_
          split
          · exact h
          · next hx =>
            split
            · next hc => exact hcopy T q i x y h hc.1 hi (by simpa using hx) hc.2 hq hy
            · next hc =>
              refine hlock T q i x h hi (by simpa using hx) ?_
              cases type with
              | directWrite => exact Or.inr rfl
              | copyOnWrite => exact Or.inl (by simpa using hc)
        · cases hT'
      · cases hT'
    · exact h
  | load p k ih =>
    rw [run]
    split
    · exact ih _ h
    · exact h
  | slots p k ih =>
    rw [run]
    split
    · exact ih _ h
    · exact h
  | store q i x notify k ih =>
    rw [run]
    unfold ObjTree.store
    split
    · next T' hT' =>
      split at hT'
      · next y hi =>
        split at hT'
        · next hy =>
          cases hT'
          exact ih (hstore T q i y x notify h hi hy)
        · cases hT'
      · cases hT'
    · exact h
  | setChild q j i value k ih =>
    rw [run]
    unfold ObjTree.setChild?
    split
    · next T' hT' =>
      split at hT'
      · next y hi =>
        split at hT'
        · next hy =>
          cases hT'
          exact ih (hset T q j i y value h hi hy)
        · cases hT'
      · cases hT'
    · exact h

/-! ## Objects and trees -/

variable {P : Type}

/-- The cell of an object. -/
def Work.cell (w : Work P) (a : Nat) (o : Obj P) : Cell P :=
  ⟨o.payload, o.children.length, o.version, o.fired, a ∈ w.txn.oldStateLocks,
    a ∈ w.txn.writeLocks⟩

/-- Objects that a transaction does not reach, and `new_state_` itself if the transaction is a direct
one. -/
structure Outside (P : Type) where
  others : List (Nat × Obj P)
  root : Option (Obj P)

/-- The tree shows what is found below `new_state_`, and the objects outside are as given. -/
structure Sim (out : Outside P) (w : Work P) (T : ObjTree P) : Prop where
  next : T.next = w.heap.length
  cells : ∀ p, T.cells p = (w.find p).map fun x => w.cell x.1 x.2
  tree : w.heap.Treelike w.txn.newState
  unfired : ∀ p a o, w.find p = some (a, o) → a ∉ w.txn.writeLocks → o.fired = false
  old_lt : ∀ a ∈ w.txn.oldStateLocks, a < w.heap.length
  locks_lt : ∀ a ∈ w.txn.writeLocks, a < w.heap.length
  apart : w.txn.type = .copyOnWrite → ∀ a ∈ w.txn.writeLocks, a ∉ w.txn.oldStateLocks
  others : ∀ x ∈ out.others, w.heap[x.1]? = some x.2 ∧
    ∀ p, resolve w.heap.links w.txn.newState p ≠ some x.1
  root : w.txn.type = .directWrite → w.heap[w.txn.newState]? = out.root

end Alto
