import Alto.Verify.ObjTree

/-!
# Programs on objects and on trees

A program does on the objects what it does on the tree: `Sim.exec`. Every call of an action has one
lemma; those that edit the graph of objects use the lemmas on replacing and setting a successor.
-/

namespace Alto

open Lib

variable {P : Type} {out : Outside P} {w w' : Work P} {T : ObjTree P} {c : Copying P}
  {p q : Path} {a i j : Nat} {o : Obj P}

theorem Heap.find_modify {h : Heap P} {f : Obj P → Obj P} (hf : ∀ o, (f o).children = o.children)
    (root : Nat) (p : Path) :
    Heap.find (h.modify a f) root p =
      (h.find root p).map fun x => (x.1, if x.1 = a then f x.2 else x.2) := by
  rw [Heap.find, Heap.find, Heap.links_modify hf]
  cases resolve h.links root p with
  | none => rfl
  | some x =>
    simp only [Option.bind_eq_bind, Option.bind_some, List.getElem?_modify]
    cases h[x]? with
    | none => rfl
    | some o => by_cases hx : x = a <;> simp [hx, Ne.symm, eq_comm]

namespace Sim

theorem find_lt (hs : Sim out w T) (h : w.find p = some (a, o)) : a < w.heap.length :=
  hs.tree.resolve_lt (Heap.find_eq_some.1 h).1

theorem path_eq (hs : Sim out w T) {o' : Obj P} (h : w.find p = some (a, o))
    (h' : w.find q = some (a, o')) : p = q :=
  hs.tree.unshared p q a (Heap.find_eq_some.1 h).1 (Heap.find_eq_some.1 h').1

theorem cells_eq (hs : Sim out w T) (h : w.find p = some (a, o)) :
    T.cells p = some (w.cell a o) := by
  rw [hs.cells, h]
  rfl

theorem ne_other (hs : Sim out w T) (h : w.find p = some (a, o)) {x : Nat × Obj P}
    (hx : x ∈ out.others) : a ≠ x.1 := by
  rintro rfl
  exact (hs.others x hx).2 p (Heap.find_eq_some.1 h).1

theorem ne_root (hs : Sim out w T) (h : w.find (i :: p) = some (a, o)) : a ≠ w.txn.newState := by
  intro hne
  have hroot : w.find [] = some (a, o) :=
    Heap.find_eq_some.2 ⟨by rw [resolve_nil, hne], (Heap.find_eq_some.1 h).2⟩
  cases hs.path_eq h hroot

/-- An edit of the payload, the version or the notification of one object. -/
theorem modify (hs : Sim out w T) (h : w.find (i :: p) = some (a, o)) {f : Obj P → Obj P}
    {g : Cell P → Cell P} (hf : ∀ o, (f o).children = o.children)
    (hg : ∀ o, w.cell a (f o) = g (w.cell a o))
    (hlock : a ∈ w.txn.writeLocks) :
    Sim out { w with heap := w.heap.modify a f } (T.modify (i :: p) g) := by
  have hfind : ∀ r, Work.find { w with heap := w.heap.modify a f } r =
      (w.find r).map fun x => (x.1, if x.1 = a then f x.2 else x.2) :=
    fun r => Heap.find_modify hf _ r
  have hlinks : Heap.links (w.heap.modify a f) = w.heap.links := Heap.links_modify hf
  refine ⟨by simpa [ObjTree.modify] using hs.next, fun r => ?_, ?_, ?_, by simpa using hs.old_lt,
    by simpa using hs.locks_lt, hs.apart, fun x hx => ?_, fun hd => ?_⟩
  · rw [hfind]
    by_cases hr : r = i :: p
    · subst hr
      rw [ObjTree.modify_self, hs.cells_eq h, h, Option.map_some, ← hg]
      simp only [Option.map_some, if_true]
      rfl
    · rw [ObjTree.modify_ne T g hr, hs.cells]
      cases hx : w.find r with
      | none => rfl
      | some x =>
        have hxa : x.1 ≠ a := fun hxa => hr (hs.path_eq hx (hxa ▸ h))
        simp only [Option.map_some, hxa, if_false]
        rfl
  · exact ⟨fun hp => by simpa using hs.tree.resolve_lt (hlinks ▸ hp),
      by rw [hlinks]; exact hs.tree.unshared⟩
  · intro r x o' hr hx
    rw [hfind] at hr
    obtain ⟨⟨y, oy⟩, hy, hyx⟩ := Option.map_eq_some_iff.1 hr
    cases hyx
    have hya : y ≠ a := fun hya => hx (hya ▸ hlock)
    rw [if_neg hya]
    exact hs.unfired r y oy hy hx
  · have hne := hs.ne_other h hx
    refine ⟨?_, fun r => by rw [hlinks]; exact (hs.others x hx).2 r⟩
    rw [List.getElem?_modify, (hs.others x hx).1]
    simp [hne]
  · have hne := hs.ne_root h
    rw [← hs.root hd, List.getElem?_modify]
    simp [hne]

/-- Locking an object. -/
theorem lock (hs : Sim out w T) (h : w.find (i :: p) = some (a, o))
    (hcow : w.txn.type = .copyOnWrite → a ∉ w.txn.oldStateLocks) :
    Sim out (w.lock a) (T.modify (i :: p) Cell.lock) := by
  have hfind : ∀ r, (w.lock a).find r =
      (w.find r).map fun x => (x.1, if x.1 = a then x.2.resetFired else x.2) :=
    fun r => Heap.find_modify (f := Obj.resetFired) (fun _ => rfl) _ r
  have hlinks : (w.lock a).heap.links = w.heap.links := Heap.links_resetFired
  have hmem : ∀ x, x ∈ (w.lock a).txn.writeLocks ↔ a = x ∨ x ∈ w.txn.writeLocks :=
    fun x => StdSet.mem_insert
  have hlen : (w.lock a).heap.length = w.heap.length := by simp [Work.lock]
  refine ⟨by rw [hlen, ← hs.next]; rfl, fun r => ?_, ⟨fun hp => ?_, ?_⟩, fun r x o' hr hx => ?_,
    fun x hx => hlen ▸ hs.old_lt x hx, fun x hx => ?_, fun ht x hx => ?_, fun x hx => ⟨?_, fun r => ?_⟩,
    fun hd => ?_⟩
  · rw [hfind]
    by_cases hr : r = i :: p
    · subst hr
      rw [ObjTree.modify_self, hs.cells_eq h, h]
      simp [Work.cell, Cell.lock, Obj.resetFired, hmem]
      rfl
    · rw [ObjTree.modify_ne T _ hr, hs.cells]
      cases hx : w.find r with
      | none => rfl
      | some x =>
        have hxa : x.1 ≠ a := fun hxa => hr (hs.path_eq hx (hxa ▸ h))
        simp [Work.cell, hmem, hxa, Ne.symm hxa]
        rfl
  · rw [hlen]
    exact hs.tree.resolve_lt (hlinks ▸ hp)
  · rw [hlinks]
    exact hs.tree.unshared
  · rw [hmem, not_or] at hx
    rw [hfind] at hr
    obtain ⟨⟨y, oy⟩, hy, hyx⟩ := Option.map_eq_some_iff.1 hr
    cases hyx
    rw [if_neg (Ne.symm hx.1)]
    exact hs.unfired r y oy hy hx.2
  · rw [hlen]
    rcases (hmem x).1 hx with rfl | hx
    · exact hs.find_lt h
    · exact hs.locks_lt x hx
  · rcases (hmem x).1 hx with rfl | hx
    · exact hcow ht
    · exact hs.apart ht x hx
  · have hne := hs.ne_other h hx
    rw [Work.lock, List.getElem?_modify, (hs.others x hx).1]
    simp [hne]
  · rw [hlinks]
    exact (hs.others x hx).2 r
  · have hne := hs.ne_root h
    rw [← hs.root hd, Work.lock, List.getElem?_modify]
    simp [hne]

/-! ## Copying -/

theorem copyObject_get {b : Nat} (ha : a < w.heap.length) (hb : b < w.heap.length) (hab : a ≠ b)
    (x : Nat) :
    (w.copyObject c b i a o).heap[x]? =
      if x = w.heap.length then some (o.copy c w.heap.length)
      else if x = b then (w.heap[x]?).map (·.setChild i (some w.heap.length))
      else if x = a then (w.heap[x]?).map (·.afterCopy c)
      else w.heap[x]? := by
  have hlen : (w.heap.modify a (·.afterCopy c)).length = w.heap.length := by simp
  simp only [Work.copyObject, Work.lock, List.getElem?_modify]
  rcases lt_trichotomy x w.heap.length with hx | rfl | hx
  · rw [List.getElem?_append_left (by omega), List.getElem?_modify, List.getElem?_eq_getElem hx]
    have hxn : w.heap.length ≠ x := by omega
    by_cases hxb : x = b
    · subst hxb
      simp [hxn, hxn.symm, hab]
    · by_cases hxa : x = a
      · subst hxa
        simp [hxn, hxn.symm, hab, hab.symm]
      · simp [hxn, hxn.symm, hxa, hxb, Ne.symm hxa, Ne.symm hxb]
  · have hbn : b ≠ w.heap.length := by omega
    rw [List.getElem?_append_right (by omega), hlen]
    simp [hbn, Obj.resetFired, Obj.copy]
  · rw [List.getElem?_eq_none (by simp; omega), List.getElem?_eq_none (by omega)]
    have hxn : x ≠ w.heap.length := by omega
    simp [hxn]

theorem copyObject_links {b : Nat} (ha : w.heap[a]? = some o) (hb : b < w.heap.length)
    (hab : a ≠ b) (x j : Nat) :
    (w.copyObject c b i a o).heap.links x j =
      if x = w.heap.length then o.getChild j
      else if x = b ∧ j = i then some w.heap.length
      else w.heap.links x j := by
  have halt : a < w.heap.length := (List.getElem?_eq_some_iff.1 ha).1
  rw [Heap.links, copyObject_get halt hb hab]
  by_cases hx : x = w.heap.length
  · simp only [hx, if_true, Option.bind_some]
    rfl
  · rw [if_neg hx, if_neg hx]
    by_cases hxb : x = b
    · subst hxb
      rw [if_pos rfl, List.getElem?_eq_getElem hb, Heap.links, List.getElem?_eq_getElem hb]
      simp [Obj.getChild_setChild]
    · have hne : ¬ (x = b ∧ j = i) := fun h => hxb h.1
      rw [if_neg hxb, if_neg hne, Heap.links]
      split
      · cases w.heap[x]? <;> rfl
      · rfl

section

variable {b : Nat} {ob : Obj P}

theorem ne_parent (hs : Sim out w T) (hb : w.find q = some (b, ob))
    (ha : w.find (i :: q) = some (a, o)) : a ≠ b := by
  rintro rfl
  simpa using hs.path_eq ha hb

/-- `find_child` finds the slot through which the object was reached. -/
theorem findChild_eq (hs : Sim out w T) (hb : w.find q = some (b, ob))
    (ha : w.find (i :: q) = some (a, o)) : ob.findChild a = some i := by
  obtain ⟨hrb, hob⟩ := Heap.find_eq_some.1 hb
  have hra := (Heap.find_eq_some.1 ha).1
  have hlinks : ∀ y, resolve w.heap.links w.txn.newState (y :: q) = ob.getChild y := by
    intro y
    rw [resolve_cons, hrb, Option.bind_some, Heap.links, hob, Option.bind_some]
  refine Obj.findChild_eq (by rw [← hlinks, hra]) fun y hy => ?_
  rw [← hlinks] at hy
  simpa using hs.tree.unshared _ _ _ hy hra

theorem copyObject_resolve (hs : Sim out w T) (hb : w.find q = some (b, ob))
    (ha : w.find (i :: q) = some (a, o)) (r : Path) :
    resolve (w.copyObject c b i a o).heap.links w.txn.newState r =
      if r = i :: q then some w.heap.length else resolve w.heap.links w.txn.newState r := by
  have hblt := hs.find_lt hb
  have hrb := (Heap.find_eq_some.1 hb).1
  obtain ⟨hra, hoa⟩ := Heap.find_eq_some.1 ha
  have hlinks := copyObject_links (i := i) (c := c) hoa hblt (hs.ne_parent hb ha)
  have hbi : w.heap.links b i = some a := by
    rw [resolve_cons, hrb] at hra
    exact hra
  refine resolve_replace hs.tree.unshared hrb hbi (fun r x hx hxb y => ?_) (fun y hy => ?_) ?_
    (fun y => ?_) r
  · rw [hlinks, if_neg (hs.tree.resolve_lt hx).ne, if_neg fun h => hxb h.1]
  · rw [hlinks, if_neg hblt.ne, if_neg fun h => hy h.2]
  · rw [hlinks, if_neg hblt.ne, if_pos ⟨rfl, rfl⟩]
  · rw [hlinks, if_pos rfl, Heap.links, hoa]
    rfl

/-- What is found at a path after the copy. -/
theorem copyObject_find (hs : Sim out w T) (hb : w.find q = some (b, ob))
    (ha : w.find (i :: q) = some (a, o)) (r : Path) :
    (w.copyObject c b i a o).find r =
      if r = i :: q then some (w.heap.length, o.copy c w.heap.length)
      else if r = q then some (b, ob.setChild i (some w.heap.length))
      else w.find r := by
  have hblt := hs.find_lt hb
  obtain ⟨hrb, hob⟩ := Heap.find_eq_some.1 hb
  have hra := (Heap.find_eq_some.1 ha).1
  have hget := copyObject_get (i := i) (o := o) (c := c) (hs.find_lt ha) hblt (hs.ne_parent hb ha)
  rw [Work.find, Heap.find]
  show (resolve (w.copyObject c b i a o).heap.links w.txn.newState r).bind _ = _
  rw [hs.copyObject_resolve hb ha]
  by_cases hr : r = i :: q
  · rw [if_pos hr, if_pos hr, Option.bind_some, hget, if_pos rfl]
    rfl
  · rw [if_neg hr, if_neg hr]
    by_cases hrq : r = q
    · subst hrq
      rw [hrb, Option.bind_some, hget, if_neg hblt.ne, if_pos rfl, hob]
      simp
    · rw [if_neg hrq, Work.find, Heap.find]
      cases hx : resolve w.heap.links w.txn.newState r with
      | none => rfl
      | some x =>
        have hxb : x ≠ b := by
          rintro rfl
          exact hrq (hs.tree.unshared _ _ _ hx hrb)
        have hxa : x ≠ a := by
          rintro rfl
          exact hr (hs.tree.unshared _ _ _ hx hra)
        simp only [Option.bind_some, Option.bind_eq_bind]
        rw [hget, if_neg (hs.tree.resolve_lt hx).ne, if_neg hxb, if_neg hxa]

theorem cell_setChild (w : Work P) (b : Nat) (ob : Obj P) (i : Nat) (value : Option Nat) :
    w.cell b (ob.setChild i value) = (w.cell b ob).setChild i := by
  have hwidth : (Obj.putChild ob.children i value).length = max ob.children.length (i + 1) := by
    simp only [Obj.putChild, List.length_set, List.length_append, List.length_replicate]
    omega
  simp only [Work.cell, Cell.setChild, Cell.changed, Obj.setChild, Obj.changed]
  by_cases hf : ob.fired <;> simp [hf, hwidth]

theorem copyObject (hs : Sim out w T) (hb : w.find q = some (b, ob))
    (ha : w.find (i :: q) = some (a, o)) (hlock : b ∈ w.txn.writeLocks)
    (hcow : w.txn.type = .copyOnWrite) :
    Sim out (w.copyObject c b i a o) (T.copyAt c q i (w.cell a o)) := by
  have hget := copyObject_get (i := i) (o := o) (c := c) (hs.find_lt ha) (hs.find_lt hb)
    (hs.ne_parent hb ha)
  have hres := hs.copyObject_resolve (c := c) hb ha
  have hfind := hs.copyObject_find (c := c) hb ha
  have hfresh : ∀ r, resolve w.heap.links w.txn.newState r ≠ some w.heap.length :=
    fun r hr => (hs.tree.resolve_lt hr).ne rfl
  have hlen : (w.copyObject c b i a o).heap.length = w.heap.length + 1 := by
    simp [Work.copyObject, Work.lock]
  have hold : w.heap.length ∉ w.txn.oldStateLocks := fun h => (hs.old_lt _ h).ne rfl
  have hblt := hs.find_lt hb
  have hcell : ∀ {x : Nat} {y : Obj P}, x < w.heap.length →
      (w.copyObject c b i a o).cell x y = w.cell x y := by
    intro x y hx
    simp [Work.cell, Work.copyObject, Work.lock, hx.ne']
    rfl
  refine ⟨by rw [hlen, ← hs.next]; rfl, fun r => ?_, ⟨fun {r x} hx => ?_, ?_⟩, fun r x y hr hx => ?_,
    fun x hx => ?_, fun x hx => ?_, fun ht x hx => ?_, fun x hx => ⟨?_, fun r => ?_⟩, fun hd => ?_⟩
  · rw [hfind, ObjTree.copyAt]
    by_cases hrq : r = q
    · subst hrq
      have hne : r ≠ i :: r := fun h => by simpa using congrArg List.length h
      simp only [ObjTree.modify_self, if_neg hne, if_true, hs.cells_eq hb, Option.map_some,
        ← cell_setChild w b ob i (some w.heap.length)]
      rw [hcell hblt]
    · rw [ObjTree.modify_ne _ _ hrq]
      by_cases hr : r = i :: q
      · simp only [hr, if_true, Option.map_some, Work.cell, Obj.copy, hs.next]
        simp [Work.copyObject, Work.lock, hold]
      · simp only [if_neg hr, if_neg hrq]
        rw [hs.cells]
        cases hx : w.find r with
        | none => rfl
        | some x => simp only [Option.map_some, hcell (hs.find_lt hx)]
  · rw [hlen]
    have hx' : resolve (w.copyObject c b i a o).heap.links w.txn.newState r = some x := hx
    rw [hres] at hx'
    split at hx'
    · cases hx'
      omega
    · have := hs.tree.resolve_lt hx'
      omega
  · exact unshared_replace hs.tree.unshared hfresh hres
  · rw [hfind] at hr
    have hmem : x ∉ w.txn.writeLocks.insert w.heap.length := hx
    rw [StdSet.mem_insert, not_or] at hmem
    split at hr
    · cases hr
      exact absurd rfl hmem.1
    · split at hr
      · cases hr
        exact absurd hlock hmem.2
      · exact hs.unfired r x y hr hmem.2
  · rw [hlen]
    have := hs.old_lt x hx
    omega
  · rw [hlen]
    have hmem : x ∈ w.txn.writeLocks.insert w.heap.length := hx
    rcases StdSet.mem_insert.1 hmem with rfl | hx
    · omega
    · have := hs.locks_lt x hx
      omega
  · have hmem : x ∈ w.txn.writeLocks.insert w.heap.length := hx
    rcases StdSet.mem_insert.1 hmem with rfl | hx
    · exact hold
    · exact hs.apart ht x hx
  · have hxlt : x.1 < w.heap.length := (List.getElem?_eq_some_iff.1 (hs.others x hx).1).1
    rw [hget, if_neg hxlt.ne, if_neg (hs.ne_other hb hx).symm, if_neg (hs.ne_other ha hx).symm]
    exact (hs.others x hx).1
  · have hxlt : x.1 < w.heap.length := (List.getElem?_eq_some_iff.1 (hs.others x hx).1).1
    show resolve (w.copyObject c b i a o).heap.links w.txn.newState r ≠ some x.1
    rw [hres]
    split
    · intro h
      exact hxlt.ne (Option.some.inj h).symm
    · exact (hs.others x hx).2 r
  · have hd' : w.txn.type = .directWrite := hd
    rw [hcow] at hd'
    cases hd'

end

/-! ## Setting a child -/

/-- The objects after `set_child` with a null pointer or a new object. -/
def setChildHeap (c : Copying P) (h : Heap P) (a i : Nat) (value : Option (NewObj P)) : Heap P :=
  (h ++ value.elim [] (Heap.newObjs c h.length)).modify a
    (·.setChild i (value.map fun _ => h.length))

variable {h : Heap P} {value : Option (NewObj P)} {root : Nat}

theorem setChildHeap_get (c : Copying P) (i : Nat) (value : Option (NewObj P))
    (ha : a < h.length) (x : Nat) :
    (setChildHeap c h a i value)[x]? =
      if x = a then (h[x]?).map (·.setChild i (value.map fun _ => h.length))
      else (h ++ value.elim [] (Heap.newObjs c h.length))[x]? := by
  rw [setChildHeap, List.getElem?_modify]
  by_cases hx : x = a
  · subst hx
    rw [List.getElem?_append_left ha]
    simp
  · simp [hx, Ne.symm hx]

theorem setChildHeap_links (ha : a < h.length) {x : Nat} (hx : x < h.length) (y : Nat) :
    (setChildHeap c h a i value).links x y =
      if x = a ∧ y = i then value.map fun _ => h.length else h.links x y := by
  rw [setChildHeap, Heap.links_setChild (by simp; omega)]
  split
  · rfl
  · exact Heap.links_append_left hx

theorem setChildHeap_links_new (ha : a < h.length) {x : NewObj P} (n y : Nat) :
    (setChildHeap c h a i (some x)).links (h.length + n) y =
      if n = 0 ∧ y < x.leaves.length then some (h.length + 1 + y) else none := by
  rw [setChildHeap, Heap.links_setChild (by simp; omega), if_neg (by omega)]
  exact (Heap.links_append_right).trans Heap.links_newObjs

theorem setChildHeap_length (c : Copying P) (h : Heap P) (a i : Nat) (value : Option (NewObj P)) :
    (setChildHeap c h a i value).length =
      h.length + value.elim 0 fun x => x.leaves.length + 1 := by
  cases value <;> simp [setChildHeap, Heap.newObjs]

/-- The numbers of a new object and its children. -/
def newNumber (n : Nat) (x : NewObj P) : Path → Option Nat
  | [] => some n
  | [y] => if y < x.leaves.length then some (n + 1 + y) else none
  | _ => none

theorem setChildHeap_resolve_new (ha : a < h.length) {x : NewObj P} (s : Path) :
    resolve (setChildHeap c h a i (some x)).links h.length s = newNumber h.length x s := by
  have hroot : ∀ y, (setChildHeap c h a i (some x)).links h.length y =
      if y < x.leaves.length then some (h.length + 1 + y) else none := by
    intro y
    have := setChildHeap_links_new (c := c) (i := i) (x := x) ha 0 y
    simpa using this
  have hleaf : ∀ y z, (setChildHeap c h a i (some x)).links (h.length + 1 + y) z = none := by
    intro y z
    have := setChildHeap_links_new (c := c) (i := i) (x := x) ha (1 + y) z
    rw [← Nat.add_assoc] at this
    rw [this, if_neg (by omega)]
  induction s with
  | nil => rfl
  | cons y s ih =>
    rw [resolve_cons, ih]
    match s with
    | [] => exact hroot y
    | [z] =>
      simp only [newNumber]
      split
      · exact hleaf z y
      · rfl
    | _ :: _ :: _ => rfl

theorem setChildHeap_resolve (c : Copying P) (i : Nat) (value : Option (NewObj P))
    (ht : h.Treelike root) (ha : resolve h.links root p = some a) (r : Path) :
    resolve (setChildHeap c h a i value).links root r =
      match below (i :: p) r with
      | some s => value.bind fun x => newNumber h.length x s
      | none => resolve h.links root r := by
  have halt := ht.resolve_lt ha
  have hother : ∀ r, ¬ (i :: p) <:+ r →
      resolve (setChildHeap c h a i value).links root r = resolve h.links root r := by
    intro r hr
    refine resolve_set ht.unshared ha (fun r x hx hxa y => ?_) (fun y hy => ?_) hr
    · rw [setChildHeap_links halt (ht.resolve_lt hx), if_neg fun h => hxa h.1]
    · rw [setChildHeap_links halt halt, if_neg fun h => hy h.2]
  by_cases hr : (i :: p) <:+ r
  · obtain ⟨s, rfl⟩ := hr
    have hp : resolve (setChildHeap c h a i value).links root p = some a := by
      rw [hother p not_suffix_self, ha]
    rw [below_append, resolve_set_below hp, setChildHeap_links halt halt, if_pos ⟨rfl, rfl⟩]
    cases value with
    | none => rfl
    | some x => exact setChildHeap_resolve_new halt s
  · rw [below_eq_none.2 hr]
    exact hother r hr

theorem newNumber_bounds {n : Nat} {x : NewObj P} {s : Path} {y : Nat}
    (hy : newNumber n x s = some y) : n ≤ y ∧ y < n + (x.leaves.length + 1) := by
  match s with
  | [] =>
    cases hy
    omega
  | [z] =>
    simp only [newNumber] at hy
    split at hy
    · cases hy
      omega
    · cases hy
  | _ :: _ :: _ => cases hy

theorem newNumber_inj {n : Nat} {x : NewObj P} {s t : Path} {y : Nat}
    (hs : newNumber n x s = some y) (ht : newNumber n x t = some y) : s = t := by
  match s, t with
  | [], [] => rfl
  | [], [z] =>
    simp only [newNumber] at hs ht
    split at ht <;> simp_all
    omega
  | [z], [] =>
    simp only [newNumber] at hs ht
    split at hs <;> simp_all
    omega
  | [z], [z'] =>
    simp only [newNumber] at hs ht
    split at hs <;> split at ht <;> simp_all
    omega
  | _ :: _ :: _, _ => cases hs
  | _, _ :: _ :: _ => cases ht

theorem setChildHeap_treelike (ht : h.Treelike root) (ha : resolve h.links root p = some a) :
    (setChildHeap c h a i value).Treelike root := by
  have hres := setChildHeap_resolve c i value ht ha
  have hbelow : ∀ s, resolve (setChildHeap c h a i value).links root (s ++ i :: p) =
      value.bind fun x => newNumber h.length x s := fun s => by rw [hres, below_append]
  have hother : ∀ r, ¬ (i :: p) <:+ r →
      resolve (setChildHeap c h a i value).links root r = resolve h.links root r :=
    fun r hr => by rw [hres, below_eq_none.2 hr]
  constructor
  · intro r x hx
    rw [setChildHeap_length]
    by_cases hr : (i :: p) <:+ r
    · obtain ⟨s, rfl⟩ := hr
      rw [hbelow] at hx
      obtain ⟨y, rfl, hy⟩ := Option.bind_eq_some_iff.1 hx
      exact (newNumber_bounds hy).2
    · rw [hother r hr] at hx
      have := ht.resolve_lt hx
      omega
  · refine unshared_set ht.unshared hother (fun s x hx r hr => ?_) (fun s s' x hx hx' => ?_)
    · rw [hbelow] at hx
      obtain ⟨y, rfl, hy⟩ := Option.bind_eq_some_iff.1 hx
      have := (newNumber_bounds hy).1
      have := ht.resolve_lt hr
      omega
    · rw [hbelow] at hx hx'
      obtain ⟨y, rfl, hy⟩ := Option.bind_eq_some_iff.1 hx
      exact newNumber_inj hy hx'

/-- The new objects, as cells. -/
theorem newObjs_cell (hold : ∀ a ∈ w.txn.oldStateLocks, a < w.heap.length)
    (hlocks : ∀ a ∈ w.txn.writeLocks, a < w.heap.length) {x : NewObj P} (s : Path) :
    ((newNumber w.heap.length x s).bind fun y =>
        ((w.heap ++ Heap.newObjs c w.heap.length x)[y]?).map fun o => w.cell y o) =
      ObjTree.newCells c w.heap.length x s := by
  have hnew : ∀ n, w.heap.length + n ∉ w.txn.oldStateLocks ∧
      w.heap.length + n ∉ w.txn.writeLocks := by
    refine fun n => ⟨fun hn => ?_, fun hn => ?_⟩
    · have := hold _ hn
      omega
    · have := hlocks _ hn
      omega
  match s with
  | [] =>
    have h0 := hnew 0
    simp only [newNumber, Option.bind_some, ObjTree.newCells]
    rw [List.getElem?_append_right le_rfl]
    simpa [Heap.newObjs, Work.cell] using h0
  | [j] =>
    have hj := hnew (1 + j)
    rw [← Nat.add_assoc] at hj
    simp only [newNumber, ObjTree.newCells]
    split
    · next hlt =>
      rw [Option.bind_some, List.getElem?_append_right (by omega)]
      have hidx : w.heap.length + 1 + j - w.heap.length = j + 1 := by omega
      rw [hidx, Heap.newObjs, List.getElem?_cons_succ, List.getElem?_mapIdx,
        List.getElem?_eq_getElem hlt]
      simpa [Work.cell] using hj
    · next hlt =>
      rw [List.getElem?_eq_none (by omega)]
      rfl
  | _ :: _ :: _ => rfl

theorem setChild (c : Copying P) (i : Nat) (value : Option (NewObj P))
    (hs : Sim out w T) (ha : w.find (j :: q) = some (a, o))
    (hlock : a ∈ w.txn.writeLocks) :
    Sim out { w with heap := setChildHeap c w.heap a i value }
      (T.setChild c (j :: q) i value) := by
  obtain ⟨hra, hoa⟩ := Heap.find_eq_some.1 ha
  have halt := hs.find_lt ha
  have hget := setChildHeap_get c i value halt
  have hres := setChildHeap_resolve c i value hs.tree hra
  have hlen := setChildHeap_length c w.heap a i value
  have hother : ∀ r, ¬ (i :: j :: q) <:+ r →
      resolve (setChildHeap c w.heap a i value).links w.txn.newState r =
        resolve w.heap.links w.txn.newState r := fun r hr => by rw [hres, below_eq_none.2 hr]
  have hbelow : ∀ s, resolve (setChildHeap c w.heap a i value).links w.txn.newState
      (s ++ i :: j :: q) = value.bind fun x => newNumber w.heap.length x s :=
    fun s => by rw [hres, below_append]
  -- what is found at a path that does not go through the new child
  have hfind : ∀ r, ¬ (i :: j :: q) <:+ r →
      Work.find { w with heap := setChildHeap c w.heap a i value } r =
        (w.find r).map fun x => (x.1, if x.1 = a then
          x.2.setChild i (value.map fun _ => w.heap.length) else x.2) := by
    intro r hr
    rw [Work.find, Work.find, Heap.find, Heap.find]
    show (resolve (setChildHeap c w.heap a i value).links w.txn.newState r).bind _ = _
    rw [hother r hr]
    cases hx : resolve w.heap.links w.txn.newState r with
    | none => rfl
    | some x =>
      have hxlt := hs.tree.resolve_lt hx
      simp only [Option.bind_eq_bind, Option.bind_some]
      rw [hget, List.getElem?_append_left hxlt]
      by_cases hxa : x = a
      · simp only [hxa, if_true]
        cases w.heap[a]? <;> simp
      · simp only [hxa, if_false]
        cases w.heap[x]? <;> simp [hxa]
  -- and at one that does
  have hfindNew : ∀ s, Work.find { w with heap := setChildHeap c w.heap a i value }
      (s ++ i :: j :: q) = value.bind fun x => (newNumber w.heap.length x s).bind fun y =>
        ((w.heap ++ Heap.newObjs c w.heap.length x)[y]?).map fun o => (y, o) := by
    intro s
    rw [Work.find, Heap.find]
    show (resolve (setChildHeap c w.heap a i value).links w.txn.newState _).bind _ = _
    rw [hbelow]
    cases value with
    | none => rfl
    | some x =>
      simp only [Option.bind_some]
      cases hy : newNumber w.heap.length x s with
      | none => rfl
      | some y =>
        have hya : y ≠ a := by
          have := (newNumber_bounds hy).1
          omega
        simp only [Option.bind_eq_bind, Option.bind_some]
        rw [hget, if_neg hya]
        simp only [Option.elim_some]
        cases (w.heap ++ Heap.newObjs c w.heap.length x)[y]? <;> rfl
  refine ⟨?_, fun r => ?_, setChildHeap_treelike hs.tree hra, fun r x y hr hx => ?_, fun x hx => ?_,
    fun x hx => ?_, hs.apart, fun x hx => ⟨?_, fun r => ?_⟩, fun hd => ?_⟩
  · rw [hlen, ObjTree.setChild, hs.next]
  · show ((T.modify (j :: q) (·.setChild i)).graft (i :: j :: q) _).cells r = _
    by_cases hr : (i :: j :: q) <:+ r
    · obtain ⟨s, rfl⟩ := hr
      rw [ObjTree.graft_below, hfindNew]
      cases value with
      | none => rfl
      | some x =>
        simp only [Option.elim_some, Option.bind_some, hs.next]
        rw [← newObjs_cell hs.old_lt hs.locks_lt]
        cases newNumber w.heap.length x s with
        | none => rfl
        | some y =>
          simp only [Option.bind_some, Option.map_map]
          rfl
    · rw [ObjTree.graft_other _ _ hr, hfind r hr]
      by_cases hrp : r = j :: q
      · subst hrp
        rw [ObjTree.modify_self, hs.cells_eq ha, ha, Option.map_some, Option.map_some,
          ← cell_setChild w a o i (value.map fun _ => w.heap.length)]
        simp only [Option.map_some, if_true]
        rfl
      · rw [ObjTree.modify_ne _ _ hrp, hs.cells]
        cases hx : w.find r with
        | none => rfl
        | some x =>
          have hxa : x.1 ≠ a := fun hxa => hrp (hs.path_eq hx (hxa ▸ ha))
          simp only [Option.map_some, hxa, if_false]
          rfl
  · by_cases hbel : (i :: j :: q) <:+ r
    · obtain ⟨s, rfl⟩ := hbel
      rw [hfindNew] at hr
      obtain ⟨z, rfl, hz⟩ := Option.bind_eq_some_iff.1 hr
      obtain ⟨n, hn, hz⟩ := Option.bind_eq_some_iff.1 hz
      obtain ⟨oz, hoz, hz⟩ := Option.map_eq_some_iff.1 hz
      cases hz
      have hn' := (newNumber_bounds hn).1
      rw [List.getElem?_append_right hn'] at hoz
      have hmem := List.mem_of_getElem? hoz
      rcases List.mem_cons.1 hmem with rfl | hmem
      · rfl
      · obtain ⟨k, hk, rfl⟩ := List.mem_mapIdx.1 hmem
        rfl
    · rw [hfind r hbel] at hr
      obtain ⟨z, hz, hr⟩ := Option.map_eq_some_iff.1 hr
      cases hr
      have hza : z.1 ≠ a := fun hza => hx (hza ▸ hlock)
      rw [if_neg hza]
      exact hs.unfired r z.1 z.2 hz hx
  · rw [hlen]
    have := hs.old_lt x hx
    omega
  · rw [hlen]
    have := hs.locks_lt x hx
    omega
  · have hxlt : x.1 < w.heap.length := (List.getElem?_eq_some_iff.1 (hs.others x hx).1).1
    rw [hget, if_neg (hs.ne_other ha hx).symm, List.getElem?_append_left hxlt]
    exact (hs.others x hx).1
  · have hxlt : x.1 < w.heap.length := (List.getElem?_eq_some_iff.1 (hs.others x hx).1).1
    show resolve (setChildHeap c w.heap a i value).links w.txn.newState r ≠ some x.1
    by_cases hr : (i :: j :: q) <:+ r
    · obtain ⟨s, rfl⟩ := hr
      rw [hbelow]
      intro hx'
      obtain ⟨y, rfl, hy⟩ := Option.bind_eq_some_iff.1 hx'
      have := (newNumber_bounds hy).1
      omega
    · rw [hother r hr]
      exact (hs.others x hx).2 r
  · have hroot := (hs.ne_root ha).symm
    have hlt : w.txn.newState < w.heap.length := hs.tree.resolve_lt (p := []) rfl
    show (setChildHeap c w.heap a i value)[w.txn.newState]? = _
    rw [hget, if_neg hroot, List.getElem?_append_left hlt]
    exact hs.root hd

/-! ## The calls of an action -/

/-- A call has a result on the objects exactly if it has one on the tree, and the results agree. -/
def Results (out : Outside P) (w : Work P) : Option (Work P) → Option (ObjTree P) → Prop
  | some w', some T' =>
    Sim out w' T' ∧ w'.txn.type = w.txn.type ∧ w'.txn.newState = w.txn.newState
  | none, none => True
  | _, _ => False

theorem cells_none (hs : Sim out w T) (h : w.find p = none) : T.cells p = none := by
  rw [hs.cells, h]
  rfl

theorem readable_iff : (w.cell a o).readable = w.canRead a := by
  simp [Cell.readable, Work.cell, Work.canRead]

theorem locked_iff : (w.cell a o).locked = w.canWrite a := by
  simp [Work.cell, Work.canWrite]

theorem readObjectRef (hs : Sim out w T) (q : Path) (i : Nat) :
    Results out w (w.readObjectRef q i) (T.read q i) := by
  unfold Work.readObjectRef ObjTree.read
  cases hb : w.find q with
  | none => simp [hs.cells_none hb, Results]
  | some b =>
    rw [hs.cells_eq hb]
    cases ha : w.find (i :: q) with
    | none => by_cases hr : w.canRead b.1 <;> simp [hs.cells_none ha, Results, guard]
    | some a =>
      rw [hs.cells_eq ha]
      simp only [readable_iff]
      by_cases hr : w.canRead b.1
      · by_cases har : w.canRead a.1
        · simpa [hr, har, Results] using hs
        · have hold : a.1 ∉ w.txn.oldStateLocks := fun h => har (by simp [Work.canRead, h])
          simpa [hr, har, Results] using ⟨hs.lock ha fun _ => hold, rfl, rfl⟩
      · simp [hr, Results, guard]

theorem writeObjectRef (hs : Sim out w T) (q : Path) (i : Nat) :
    Results out w (w.writeObjectRef c q i) (T.write c w.txn.type q i) := by
  unfold Work.writeObjectRef ObjTree.write
  cases hb : w.find q with
  | none => simp [hs.cells_none hb, Results]
  | some b =>
    rw [hs.cells_eq hb]
    cases ha : w.find (i :: q) with
    | none => by_cases hl : w.canWrite b.1 <;> simp [hs.cells_none ha, Results, guard]
    | some a =>
      rw [hs.cells_eq ha]
      simp only [locked_iff]
      by_cases hl : w.canWrite b.1
      · by_cases hal : w.canWrite a.1
        · simpa [hl, hal, Results] using hs
        · by_cases hold : a.1 ∈ w.txn.oldStateLocks
          · have holdc : (w.cell a.1 a.2).old = true := by simp [Work.cell, hold]
            cases htype : w.txn.type with
            | directWrite =>
              have hsim := hs.lock ha fun ht => by simp [htype] at ht
              simpa [hl, hal, hold, holdc, Results] using ⟨hsim, rfl, rfl⟩
            | copyOnWrite =>
              have hsim := hs.copyObject (c := c) hb ha (by simpa [Work.canWrite] using hl) htype
              simpa [hl, hal, hold, holdc, Results, hs.findChild_eq hb ha] using
                ⟨hsim, rfl, rfl⟩
          · have holdc : (w.cell a.1 a.2).old = false := by simp [Work.cell, hold]
            simpa [hl, hal, hold, holdc, Results] using ⟨hs.lock ha fun _ => hold, rfl, rfl⟩
      · simp [hl, Results, guard]

theorem slots_eq (hs : Sim out w T) (ha : w.find p = some (a, o)) :
    T.slots p (w.cell a o) = o.children.map Option.isSome := by
  obtain ⟨hra, hoa⟩ := Heap.find_eq_some.1 ha
  refine List.ext_getElem (by simp [ObjTree.slots, Work.cell]) fun i hi hi' => ?_
  have hlt : i < o.children.length := by simpa using hi'
  simp only [ObjTree.slots, List.getElem_map, List.getElem_range, hs.cells, Option.isSome_map]
  have hchild : resolve w.heap.links w.txn.newState (i :: p) = o.children[i] := by
    rw [resolve_cons, hra, Option.bind_some, Heap.links, hoa]
    simp [Obj.getChild, List.getElem?_eq_getElem hlt]
  rw [Work.find, Heap.find, hchild]
  cases hc : o.children[i] with
  | none => rfl
  | some b =>
    rw [hc] at hchild
    simp [List.getElem?_eq_getElem (hs.tree.resolve_lt hchild)]

theorem load (hs : Sim out w T) (p : Path) :
    (w.load p = none ∧ T.load p = none) ∨ ∃ o x, w.load p = some o ∧ T.load p = some x ∧
      x.payload = o.payload ∧ T.slots p x = o.children.map Option.isSome := by
  unfold Work.load ObjTree.load
  cases ha : w.find p with
  | none => exact Or.inl (by simp [hs.cells_none ha])
  | some a =>
    rw [hs.cells_eq ha]
    by_cases hr : w.canRead a.1
    · refine Or.inr ⟨a.2, w.cell a.1 a.2, by simp [hr], ?_, rfl, hs.slots_eq ha⟩
      rw [Option.filter_some, readable_iff, hr]
      rfl
    · refine Or.inl ⟨by simp [hr, guard], ?_⟩
      rw [Option.filter_some, readable_iff, if_neg hr]

theorem store (hs : Sim out w T) (q : Path) (i : Nat) (x : P) (notify : Bool) :
    Results out w (w.store (i :: q) x notify) (T.store (i :: q) x notify) := by
  unfold Work.store ObjTree.store
  cases ha : w.find (i :: q) with
  | none => simp [hs.cells_none ha, Results]
  | some a =>
    rw [hs.cells_eq ha]
    simp only [locked_iff]
    by_cases hl : w.canWrite a.1
    · have hsim := hs.modify ha (f := (·.store x notify)) (g := (·.store x notify))
        (fun o => o.store_children x notify) (fun o => by
          simp only [Work.cell, Obj.store, Cell.store, Obj.changed, Cell.changed]
          cases notify <;> by_cases hf : o.fired <;> simp [hf])
        (by simpa [Work.canWrite] using hl)
      simpa [hl, Results] using hsim
    · simp [hl, Results, guard]

theorem setChild_result (hs : Sim out w T) (q : Path) (j i : Nat) (value : Option (NewObj P)) :
    Results out w (w.setChild c (j :: q) i value) (T.setChild? c (j :: q) i value) := by
  unfold Work.setChild ObjTree.setChild?
  cases ha : w.find (j :: q) with
  | none => simp [hs.cells_none ha, Results]
  | some a =>
    rw [hs.cells_eq ha]
    simp only [locked_iff]
    by_cases hl : w.canWrite a.1
    · have hsim := hs.setChild c i value ha
        (by simpa [Work.canWrite] using hl)
      cases value with
      | none =>
        rw [setChildHeap] at hsim
        simpa [hl, Results] using hsim
      | some x =>
        rw [setChildHeap] at hsim
        simpa [hl, Results] using hsim
    · simp [hl, Results, guard]

/-- The results of a program on the objects of `w` and on a tree agree. -/
structure Agrees {α : Type} (out : Outside P) (w : Work P) (x : Outcome α × Work P)
    (y : Outcome α × ObjTree P) : Prop where
  outcome : y.1 = x.1
  sim : Sim out x.2 y.2
  type : x.2.txn.type = w.txn.type
  newState : x.2.txn.newState = w.txn.newState

/-- A program goes on behind a call that has a result. -/
theorem agrees_next {α : Type} {k : Prog P α} (hs : Sim out w T)
    (ih : ∀ {w : Work P} {T : ObjTree P}, Sim out w T →
      Agrees out w (k.exec c w) (k.run c w.txn.type T))
    (w' : Option (Work P)) (T' : Option (ObjTree P)) :
    Results out w w' T' →
      Agrees out w (match w' with | some w => k.exec c w | none => (.undefined, w))
        (match T' with | some T => k.run c w.txn.type T | none => (.undefined, T)) := by
  intro hres
  match w', T', hres with
  | some w', some T', ⟨hs', ht, hn⟩ =>
    have hk := ih hs'
    rw [ht] at hk
    exact ⟨hk.outcome, hk.sim, hk.type.trans ht, hk.newState.trans hn⟩
  | none, none, _ => exact ⟨rfl, hs, rfl, rfl⟩

/-- A program does the same on the objects and on the tree. -/
theorem exec {α : Type} (prog : Prog P α) (hs : Sim out w T) :
    Agrees out w (prog.exec c w) (prog.run c w.txn.type T) := by
  induction prog generalizing w T with
  | ret | throw | undef => exact ⟨rfl, hs, rfl, rfl⟩
  | read q i k ih => exact agrees_next hs ih _ _ (hs.readObjectRef q i)
  | write q i k ih => exact agrees_next hs ih _ _ (hs.writeObjectRef q i)
  | load p k ih =>
    rw [Prog.exec, Prog.run]
    rcases hs.load p with ⟨hw, hT⟩ | ⟨o, x, hw, hT, hp, -⟩
    · rw [hw, hT]
      exact ⟨rfl, hs, rfl, rfl⟩
    · simp only [hw, hT, hp]
      exact ih o.payload hs
  | slots p k ih =>
    rw [Prog.exec, Prog.run]
    rcases hs.load p with ⟨hw, hT⟩ | ⟨o, x, hw, hT, -, hsl⟩
    · rw [hw, hT]
      exact ⟨rfl, hs, rfl, rfl⟩
    · simp only [hw, hT, hsl]
      exact ih _ hs
  | store q i x notify k ih => exact agrees_next hs ih _ _ (hs.store q i x notify)
  | setChild q j i value k ih => exact agrees_next hs ih _ _ (hs.setChild_result q j i value)

end Sim

end Alto
