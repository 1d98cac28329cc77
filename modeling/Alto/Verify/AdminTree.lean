import Alto.Portal.AdminState
import Alto.Verify.ObjSim

/-!
# Transactions on trees

A server without an open transaction is a tree of objects below `GLOBAL_STATE` (`Server.tree`). What
a transaction does to it is `Server.runActions` on the tree with a fresh root: the lemmas here follow
a transaction from `txn_begin` to its end, and give the tree of the server after it.
-/

namespace Alto

open Lib

/-! ## Changing the root -/

/-- The tree with another cell at the root. -/
def ObjTree.withRoot {P : Type} (T : ObjTree P) (x : Cell P) : ObjTree P :=
  { T with cells := fun p => if p = [] then some x else T.cells p }

/-- The tree after all locks have been released. -/
def ObjTree.settle {P : Type} (T : ObjTree P) : ObjTree P :=
  { T with
    cells := fun p =>
      (T.cells p).map fun x => { x with fired := false, old := true, locked := false } }

namespace Sim

variable {P : Type} {out : Outside P} {w : Work P} {T : ObjTree P} {g : Nat} {og : Obj P}

/-- A work with another root. -/
def reroot (w : Work P) (g : Nat) (f : Obj P → Obj P) : Work P :=
  ⟨w.heap.modify g f, { w.txn with type := .directWrite, newState := g }⟩

theorem reroot_links {f : Obj P → Obj P} (hget : w.heap[g]? = some og)
    (hch : ∀ i, (f og).getChild i = w.heap.links w.txn.newState i) (x i : Nat) :
    (reroot w g f).heap.links x i =
      if x = g then w.heap.links w.txn.newState i else w.heap.links x i := by
  rw [Heap.links, reroot, List.getElem?_modify]
  by_cases hx : x = g
  · subst hx
    simp [hget, hch]
  · simp [hx, Ne.symm hx, Heap.links]

/-- An object that takes over the children of `new_state_` takes over everything below it. -/
theorem reroot_resolve (hs : Sim out w T) (hg : (g, og) ∈ out.others) {f : Obj P → Obj P}
    (hch : ∀ i, (f og).getChild i = w.heap.links w.txn.newState i) {p : Path} (hp : p ≠ []) :
    resolve (reroot w g f).heap.links g p = resolve w.heap.links w.txn.newState p := by
  have hlinks := reroot_links (hs.others _ hg).1 hch
  refine resolve_root (fun i => by rw [hlinks, if_pos rfl]) (fun p x _ hx i => ?_) hp
  rw [hlinks, if_neg]
  rintro rfl
  exact (hs.others _ hg).2 p hx

theorem sim_reroot (hs : Sim out w T) (hg : (g, og) ∈ out.others) {f : Obj P → Obj P}
    (hch : ∀ i, (f og).getChild i = w.heap.links w.txn.newState i) (hf : (f og).fired = false) :
    Sim ⟨[], some (f og)⟩ (reroot w g f) (T.withRoot ((reroot w g f).cell g (f og))) := by
  obtain ⟨hget, hun⟩ := hs.others _ hg
  have hglt : g < w.heap.length := (List.getElem?_eq_some_iff.1 hget).1
  have hlen : (reroot w g f).heap.length = w.heap.length := by simp [reroot]
  have hres : ∀ {p : Path}, p ≠ [] → resolve (reroot w g f).heap.links g p =
      resolve w.heap.links w.txn.newState p := fun hp => hs.reroot_resolve hg hch hp
  have hself : (reroot w g f).heap[g]? = some (f og) := by
    simp [reroot, hget]
  have hother : ∀ {x : Nat}, x ≠ g → (reroot w g f).heap[x]? = w.heap[x]? := by
    intro x hx
    rw [reroot, List.getElem?_modify]
    simp [Ne.symm hx]
  have hfind : ∀ {p : Path}, p ≠ [] → (reroot w g f).find p = w.find p := by
    intro p hp
    rw [Work.find, Heap.find]
    show (resolve (reroot w g f).heap.links g p).bind _ = _
    rw [hres hp, Work.find, Heap.find]
    cases hx : resolve w.heap.links w.txn.newState p with
    | none => rfl
    | some x =>
      have hxg : x ≠ g := by
        rintro rfl
        exact hun p hx
      simp only [Option.bind_some, Option.bind_eq_bind, hother hxg]
  have hroot : (reroot w g f).find [] = some (g, f og) :=
    Heap.find_eq_some.2 ⟨rfl, hself⟩
  refine ⟨by rw [hlen]; exact hs.next, fun p => ?_, ⟨fun {p a} hp => ?_,
    unshared_root hs.tree.unshared (fun p hp => hres hp) fun p _ => hun p⟩,
    fun p a o hp ha => ?_, fun a ha => hlen ▸ hs.old_lt a ha, fun a ha => hlen ▸ hs.locks_lt a ha,
    fun h => ?_, fun x hx => ?_, fun _ => hself⟩
  · by_cases hp : p = []
    · subst hp
      rw [hroot]
      simp [ObjTree.withRoot]
    · rw [hfind hp]
      simp only [ObjTree.withRoot, if_neg hp]
      exact hs.cells p
  · rw [hlen]
    by_cases hp' : p = []
    · subst hp'
      cases hp
      exact hglt
    · exact hs.tree.resolve_lt ((hres hp').symm.trans hp)
  · by_cases hp' : p = []
    · subst hp'
      rw [hroot] at hp
      cases hp
      exact hf
    · rw [hfind hp'] at hp
      exact hs.unfired p a o hp ha
  · cases h
  · cases hx

end Sim

namespace Server

variable {env : Env} {s s' : Server} {w : Work Payload} {T : ObjTree Payload}
  {out : Outside Payload}

/-! ## Idle servers -/

/-- What is found below `GLOBAL_STATE`. -/
def tree (s : Server) : ObjTree Payload where
  cells p := (s.findLive p).map fun x =>
    ⟨x.2.payload, x.2.children.length, x.2.version, x.2.fired, true, false⟩
  next := s.heap.length

/-- A server without an open transaction. -/
structure Idle (s : Server) : Prop where
  tree : s.heap.Treelike s.globalState
  unfired : ∀ p a o, s.findLive p = some (a, o) → o.fired = false
  clear : s.admin = .clear
  root : ∃ o, s.heap[s.globalState]? = some o ∧ o.payload = .globalState ∧ o.children.length = 2

theorem endWrite_get (h : Heap Payload) (locks : StdSet Nat) (x : Nat) :
    (endWrite h locks)[x]? =
      (h[x]?).map fun o => if x ∈ locks then o.resetFired else o := by
  have hmem : x ∈ locks ↔ x ∈ locks.toList := by simp
  unfold endWrite
  simp only [hmem]
  generalize locks.toList = l
  induction l generalizing h with
  | nil => simp
  | cons a l ih =>
    rw [List.foldl_cons, ih, List.getElem?_modify]
    cases h[x]? with
    | none => rfl
    | some o =>
      by_cases hxa : a = x
      · by_cases hxl : x ∈ l <;> simp [hxa, hxl, Obj.resetFired]
      · simp [hxa, Ne.symm hxa]

theorem endWrite_links (h : Heap Payload) (locks : StdSet Nat) :
    (endWrite h locks).links = h.links := by
  funext x i
  rw [Heap.links, Heap.links, endWrite_get]
  cases h[x]? with
  | none => rfl
  | some o => by_cases hx : x ∈ locks <;> simp [hx, Obj.resetFired, Obj.getChild]

theorem endWrite_length (h : Heap Payload) (locks : StdSet Nat) :
    (endWrite h locks).length = h.length := by
  unfold endWrite
  generalize locks.toList = l
  induction l generalizing h with
  | nil => rfl
  | cons a l ih => rw [List.foldl_cons, ih, List.length_modify]

/-- After its locks have been released, the objects of a transaction are an idle server. -/
theorem idle_of_sim (hs : Sim out w T)
    (hw : ∀ x, T.cells [] = some x → x.payload = .globalState ∧ x.width = 2)
    (jobs : List ViewUpdateJob) :
    Idle ⟨endWrite w.heap w.txn.writeLocks, w.txn.newState, .clear, jobs⟩ ∧
      tree ⟨endWrite w.heap w.txn.writeLocks, w.txn.newState, .clear, jobs⟩ = T.settle := by
  have hfind : ∀ p, findLive ⟨endWrite w.heap w.txn.writeLocks, w.txn.newState, .clear, jobs⟩ p =
      (w.find p).map fun x => (x.1, if x.1 ∈ w.txn.writeLocks then x.2.resetFired else x.2) := by
    intro p
    rw [findLive, Work.find, Heap.find, Heap.find, endWrite_links]
    cases resolve w.heap.links w.txn.newState p with
    | none => rfl
    | some a =>
      simp only [Option.bind_some, Option.bind_eq_bind, endWrite_get]
      cases w.heap[a]? <;> rfl
  have hfired : ∀ p a o, w.find p = some (a, o) →
      (if a ∈ w.txn.writeLocks then o.resetFired else o).fired = false := by
    intro p a o h
    split
    · rfl
    · next hl => exact hs.unfired p a o h hl
  refine ⟨⟨⟨fun {p a} hp => ?_, ?_⟩, fun p a o hp => ?_, rfl, ?_⟩, ?_⟩
  · rw [endWrite_length]
    rw [endWrite_links] at hp
    exact hs.tree.resolve_lt hp
  · rw [endWrite_links]
    exact hs.tree.unshared
  · rw [hfind] at hp
    obtain ⟨⟨b, ob⟩, hb, heq⟩ := Option.map_eq_some_iff.1 hp
    cases heq
    exact hfired p b ob hb
  · obtain ⟨o, ho, hf⟩ := hs.tree.find_eq (p := []) rfl
    have hcell := hs.cells_eq (p := []) hf
    refine ⟨if w.txn.newState ∈ w.txn.writeLocks then o.resetFired else o, ?_, ?_⟩
    · rw [endWrite_get, ho]
      rfl
    · have hwidth : o.payload = .globalState ∧ o.children.length = 2 := hw _ hcell
      split <;> exact hwidth
  · refine ObjTree.ext (funext fun p => ?_) ?_
    · show (findLive _ p).map _ = (T.cells p).map _
      rw [hfind, hs.cells]
      cases hp : w.find p with
      | none => rfl
      | some x =>
        have hf := hfired p x.1 x.2 hp
        simp only [Option.map_some, Work.cell, hf]
        split <;> rfl
    · show (endWrite _ _).length = T.next
      rw [endWrite_length, hs.next]

/-! ## The start of a transaction -/

/-- The tree that a transaction starts with. -/
def beginTree (env : Env) (s : Server) : ObjTree Payload where
  cells p :=
    if p = [] then some ⟨.globalState, 2, env.junk s.heap.length, false, false, true⟩
    else s.tree.cells p
  next := s.heap.length + 1

theorem sim_begin (env : Env) (hi : Idle s) (type : TxnType) {o : Obj Payload}
    (ho : s.heap[s.globalState]? = some o) :
    Sim ⟨[(s.globalState, o)], some (o.copy env.copying s.heap.length)⟩
      ⟨s.heap ++ [o.copy env.copying s.heap.length],
        ⟨type, s.heap.length, .ofList (s.heap.collect s.globalState) compare, {s.heap.length}⟩⟩
      (s.beginTree env) := by
  obtain ⟨o', ho', hpayload, hwidth⟩ := hi.root
  obtain rfl : o' = o := Option.some.inj (ho'.symm.trans ho)
  have hlinks : ∀ x i, x < s.heap.length →
      Heap.links (s.heap ++ [o'.copy env.copying s.heap.length]) x i = s.heap.links x i :=
    fun x i hx => Heap.links_append_left hx
  have hnew : (s.heap ++ [o'.copy env.copying s.heap.length])[s.heap.length]? =
      some (o'.copy env.copying s.heap.length) := by simp
  have hres : ∀ p, p ≠ [] → resolve (Heap.links (s.heap ++ [o'.copy env.copying s.heap.length]))
      s.heap.length p = resolve s.heap.links s.globalState p := by
    intro p hp
    refine resolve_root (fun i => ?_) (fun q x _ hx i => hlinks x i (hi.tree.resolve_lt hx)) hp
    rw [Heap.links, hnew, Heap.links, ho]
    rfl
  have hmem : ∀ a, a ∈ (.ofList (s.heap.collect s.globalState) compare : StdSet Nat) ↔
      ∃ p, resolve s.heap.links s.globalState p = some a := by
    intro a
    rw [← hi.tree.mem_collect]
    simp
  have hne : ∀ p, resolve s.heap.links s.globalState p ≠ some s.heap.length :=
    fun p hp => (hi.tree.resolve_lt hp).false
  have hold : ∀ a ∈ (.ofList (s.heap.collect s.globalState) compare : StdSet Nat),
      a < s.heap.length := by
    intro a ha
    obtain ⟨p, hp⟩ := (hmem a).1 ha
    exact hi.tree.resolve_lt hp
  have hfind : ∀ p, p ≠ [] →
      Heap.find (s.heap ++ [o'.copy env.copying s.heap.length]) s.heap.length p =
        s.findLive p := by
    intro p hp
    rw [Heap.find, findLive, Heap.find, hres p hp]
    cases hx : resolve s.heap.links s.globalState p with
    | none => rfl
    | some x =>
      simp only [Option.bind_some, Option.bind_eq_bind,
        List.getElem?_append_left (hi.tree.resolve_lt hx)]
  have hroot : Heap.find (s.heap ++ [o'.copy env.copying s.heap.length]) s.heap.length [] =
      some (s.heap.length, o'.copy env.copying s.heap.length) := Heap.find_eq_some.2 ⟨rfl, hnew⟩
  have hlen : (s.heap ++ [o'.copy env.copying s.heap.length]).length = s.heap.length + 1 := by simp
  refine ⟨by simp [beginTree], fun p => ?_, ⟨fun {p a} hp => ?_, ?_⟩, fun p a x hp ha => ?_,
    fun a ha => ?_, fun a ha => ?_, fun _ a ha ha' => ?_, fun x hx => ⟨?_, fun p hp => ?_⟩,
    fun _ => hnew⟩
  · by_cases hp : p = []
    · subst hp
      rw [Work.find, hroot]
      have hcopy : o'.copy env.copying s.heap.length =
          ⟨.globalState, o'.children, env.junk s.heap.length, false⟩ := by
        simp [Obj.copy, Env.copying, hpayload, Payload.copyOf]
      have hnew : s.heap.length ∉ s.heap.collect s.globalState :=
        fun h => (hold _ (by simpa using h)).false
      simp [beginTree, Work.cell, hcopy, hwidth, hnew]
    · rw [Work.find, hfind p hp]
      simp only [beginTree, if_neg hp, tree]
      cases hx : s.findLive p with
      | none => rfl
      | some x =>
        have hx' : resolve s.heap.links s.globalState p = some x.1 := (Heap.find_eq_some.1 hx).1
        have hxn : x.1 ≠ s.heap.length := fun h => hne p (h ▸ hx')
        have hxo : x.1 ∈ s.heap.collect s.globalState := hi.tree.mem_collect.2 ⟨p, hx'⟩
        simp [Work.cell, hxo, Ne.symm hxn]
  · rw [hlen]
    by_cases hp' : p = []
    · subst hp'
      cases hp
      exact Nat.lt_succ_self _
    · exact (hi.tree.resolve_lt ((hres p hp').symm.trans hp)).trans (Nat.lt_succ_self _)
  · exact unshared_root hi.tree.unshared hres fun p _ => hne p
  · by_cases hp' : p = []
    · subst hp'
      rw [Work.find, hroot] at hp
      cases hp
      rfl
    · rw [Work.find, hfind p hp'] at hp
      exact hi.unfired p a x hp
  · rw [hlen]
    exact (hold a ha).trans (Nat.lt_succ_self _)
  · rw [hlen, StdSet.mem_singleton.1 ha]
    exact Nat.lt_succ_self _
  · rw [StdSet.mem_singleton.1 ha] at ha'
    exact (hold _ ha').false
  · obtain rfl := List.mem_singleton.1 hx
    rw [List.getElem?_append_left (List.getElem?_eq_some_iff.1 ho).1]
    exact ho
  · obtain rfl := List.mem_singleton.1 hx
    by_cases hp' : p = []
    · subst hp'
      exact hne [] hp.symm
    · have hp := (hres p hp').symm.trans hp
      cases hi.tree.unshared p [] _ hp rfl
      exact hp' rfl

end Server

end Alto
