import Alto.Server.DistObj

/-!
# Stored objects as a graph

How the edits of the object heap change the graph of children. A heap is a tree below a root if
every path leads to an object and no two paths lead to the same one (`Heap.Treelike`).
-/

namespace Alto

open Lib

variable {P : Type}

namespace Obj

theorem getChild_putChild (l : List (Option Nat)) (i j : Nat) (value : Option Nat) :
    ((putChild l i value)[j]?).join = if j = i then value else (l[j]?).join := by
  have hlen : (l ++ List.replicate (i + 1 - l.length) (none : Option Nat)).length =
      max l.length (i + 1) := by
    simp only [List.length_append, List.length_replicate]
    omega
  rw [putChild, List.getElem?_set, hlen]
  by_cases hij : j = i
  · subst hij
    simp
  · rw [if_neg (Ne.symm hij), if_neg hij, List.getElem?_append]
    split
    · rfl
    · next hj =>
      rw [List.getElem?_eq_none (l := l) (by omega), List.getElem?_replicate]
      split <;> rfl

@[simp] theorem changed_payload (o : Obj P) : o.changed.payload = o.payload := by
  unfold changed
  split <;> rfl

@[simp] theorem changed_children (o : Obj P) : o.changed.children = o.children := by
  unfold changed
  split <;> rfl

@[simp] theorem setChild_payload (o : Obj P) (i : Nat) (value : Option Nat) :
    (o.setChild i value).payload = o.payload := by simp [setChild]

@[simp] theorem setChild_children (o : Obj P) (i : Nat) (value : Option Nat) :
    (o.setChild i value).children = putChild o.children i value := by simp [setChild]

theorem getChild_setChild (o : Obj P) (i j : Nat) (value : Option Nat) :
    (o.setChild i value).getChild j = if j = i then value else o.getChild j := by
  simp only [getChild, setChild_children, getChild_putChild]

@[simp] theorem store_children (o : Obj P) (x : P) (notify : Bool) :
    (o.store x notify).children = o.children := by
  unfold store
  split <;> simp

@[simp] theorem store_payload (o : Obj P) (x : P) (notify : Bool) :
    (o.store x notify).payload = x := by
  unfold store
  split <;> simp

theorem findChild_eq {o : Obj P} {a i : Nat} (h : o.getChild i = some a)
    (huniq : ∀ j, o.getChild j = some a → j = i) : o.findChild a = some i := by
  have hi : o.children[i]? = some (some a) := Option.join_eq_some_iff.1 h
  obtain ⟨hlt, hget⟩ := List.getElem?_eq_some_iff.1 hi
  rw [findChild, List.idxOf?, List.findIdx?_eq_some_iff_getElem]
  refine ⟨hlt, by simp [hget], fun j hj => ?_⟩
  intro hja
  have hj' : o.getChild j = some a := by
    have hjlt : j < o.children.length := by omega
    simp only [getChild, List.getElem?_eq_getElem hjlt]
    simpa using hja
  have := huniq j hj'
  omega

theorem mem_getChildren {o : Obj P} {a : Nat} : a ∈ o.getChildren ↔ ∃ i, o.getChild i = some a := by
  have hmem : a ∈ o.getChildren ↔ some a ∈ o.children := by simp [getChildren]
  rw [hmem, List.mem_iff_getElem?]
  exact exists_congr fun i => Option.join_eq_some_iff.symm

end Obj

namespace Heap

variable {h : Heap P} {a b n i j : Nat}

theorem links_eq_some : h.links a i = some b ↔ ∃ o, h[a]? = some o ∧ o.getChild i = some b :=
  Option.bind_eq_some_iff

/-- An edit that keeps the children of an object keeps the graph. -/
theorem links_modify {f : Obj P → Obj P} (hf : ∀ o, (f o).children = o.children) :
    links (h.modify a f) = h.links := by
  funext x y
  rw [links, links, List.getElem?_modify]
  cases h[x]? with
  | none => rfl
  | some o =>
    by_cases hax : a = x <;> simp [hax, Obj.getChild, hf]

theorem links_resetFired : links (h.modify a Obj.resetFired) = h.links :=
  links_modify fun _ => rfl

theorem links_afterCopy {c : Copying P} : links (h.modify a (·.afterCopy c)) = h.links :=
  links_modify fun _ => rfl

theorem links_setChild {value : Option Nat} (hb : b < h.length) :
    links (h.modify b (·.setChild i value)) a j =
      if a = b ∧ j = i then value else h.links a j := by
  rw [links, links, List.getElem?_modify]
  by_cases hab : b = a
  · subst hab
    rw [List.getElem?_eq_getElem hb]
    simp [Obj.getChild_setChild]
  · have hba : ¬ (a = b ∧ j = i) := fun h' => hab h'.1.symm
    rw [if_neg hba]
    simp [hab]

theorem links_append_left {l : Heap P} (ha : a < h.length) :
    links (h ++ l) a i = h.links a i := by
  rw [links, links, List.getElem?_append_left ha]

theorem links_append_right {l : Heap P} :
    links (h ++ l) (h.length + n) i = l.links n i := by
  rw [links, links, List.getElem?_append_right (by omega)]
  simp

theorem links_newObjs {c : Copying P} {x : NewObj P} :
    links (newObjs c n x) a i =
      if a = 0 ∧ i < x.leaves.length then some (n + 1 + i) else none := by
  cases a with
  | zero =>
    simp only [links, newObjs, List.getElem?_cons_zero, Option.bind_some, Obj.getChild,
      List.getElem?_map]
    by_cases hi : i < x.leaves.length <;> simp [hi]
  | succ a =>
    simp only [links, newObjs, List.getElem?_cons_succ, List.getElem?_mapIdx]
    cases x.leaves[a]? <;> simp [Obj.getChild]

/-- Every object that a path leads to exists, and no object is reached along two paths. -/
structure Treelike (h : Heap P) (root : Nat) : Prop where
  resolve_lt : ∀ {p : Path} {a : Nat}, resolve h.links root p = some a → a < h.length
  unshared : Unshared h.links root

namespace Treelike

variable {root : Nat} {p : Path}

/-- What is found at a path is the object that the path leads to. -/
theorem find_eq (ht : h.Treelike root) (hp : resolve h.links root p = some a) :
    ∃ o, h[a]? = some o ∧ h.find root p = some (a, o) := by
  have hlt := ht.resolve_lt hp
  exact ⟨h[a], List.getElem?_eq_getElem hlt, by
    simp [find, hp, List.getElem?_eq_getElem hlt]⟩

/-- The loop of `txn_begin` finds every object below the root. -/
theorem mem_collect (ht : h.Treelike root) :
    a ∈ h.collect root ↔ ∃ p, resolve h.links root p = some a := by
  constructor
  · refine resolve_of_mem_levels (fun x y hy => ?_) (fun x hx => ?_)
    · cases hx : h[x]? with
      | none => simp [hx] at hy
      | some o =>
        simp only [hx, Option.elim_some, Obj.mem_getChildren] at hy
        obtain ⟨i, hi⟩ := hy
        exact ⟨i, links_eq_some.2 ⟨o, hx, hi⟩⟩
    · rw [List.mem_singleton] at hx
      exact ⟨[], by rw [resolve_nil, hx]⟩
  · rintro ⟨p, hp⟩
    refine mem_levels_of_resolve (fun x i y hxy => ?_) (List.mem_singleton_self _) hp ?_
    · obtain ⟨o, ho, hi⟩ := links_eq_some.1 hxy
      rw [ho, Option.elim_some, Obj.mem_getChildren]
      exact ⟨i, hi⟩
    · have hlen := length_lt_of_unshared (n := Finset.range h.length) ht.unshared
        (fun q x hq => Finset.mem_range.2 (ht.resolve_lt hq)) hp
      rwa [Finset.card_range] at hlen

end Treelike

end Heap

theorem Heap.find_eq_some {h : Heap P} {root a : Nat} {p : Path} {o : Obj P} :
    h.find root p = some (a, o) ↔ resolve h.links root p = some a ∧ h[a]? = some o := by
  constructor
  · intro hf
    obtain ⟨x, hx, hf⟩ := Option.bind_eq_some_iff.1 hf
    obtain ⟨y, hy, hf⟩ := Option.bind_eq_some_iff.1 hf
    cases hf
    exact ⟨hx, hy⟩
  · rintro ⟨hp, ho⟩
    simp [Heap.find, hp, ho]

end Alto
