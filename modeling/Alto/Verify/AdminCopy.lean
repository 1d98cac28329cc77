import Alto.Verify.AdminRollback

/-!
# The two kinds of transactions

A copy-on-write transaction replaces each object that an action asks for writing by its copy. It
does what a direct transaction does, and what the actions do one after the other without a
transaction, as long as the copies of the objects lose nothing (`Payload.Lossless`).
-/

namespace Alto

open Lib Prog

/-! ## Programs and copies -/

namespace Prog

variable {P α β : Type} {c : Copying P} {type : TxnType} {T T₁ : ObjTree P} {Q : P → Prop}

/-- The program asks for writing only at paths in `wr`, and stores and sets children only at paths
in `ed`. -/
def Calls (wr ed : Path → Prop) : Prog P α → Prop
  | ret _ | throw _ | undef => True
  | read _ _ k => k.Calls wr ed
  | write q i k => wr (i :: q) ∧ k.Calls wr ed
  | load _ k => ∀ x, (k x).Calls wr ed
  | slots _ k => ∀ s, (k s).Calls wr ed
  | store q i _ _ k => ed (i :: q) ∧ k.Calls wr ed
  | setChild q j i _ k => ed (i :: j :: q) ∧ k.Calls wr ed

variable {wr ed : Path → Prop}

theorem Calls.bind {prog : Prog P α} {f : α → Prog P β} (h : prog.Calls wr ed)
    (hf : ∀ x, (f x).Calls wr ed) : (prog >>= f).Calls wr ed := by
  show (prog.bind f).Calls wr ed
  induction prog with
  | ret x => exact hf x
  | throw | undef => trivial
  | read q i k ih => exact ih h
  | write q i k ih => exact ⟨h.1, ih h.2⟩
  | load p k ih => exact fun x => ih x (h x)
  | slots p k ih => exact fun s => ih s (h s)
  | store q i v notify k ih => exact ⟨h.1, ih h.2⟩
  | setChild q j i value k ih => exact ⟨h.1, ih h.2⟩

/-- The program asks for no object for writing. -/
def Plain (prog : Prog P α) : Prop := prog.Calls (fun _ => False) fun _ => True

theorem Plain.copies {prog : Prog P α} (h : prog.Plain) : prog.Copies c type Q T := by
  induction prog generalizing T with
  | ret | throw | undef => trivial
  | read q i k ih => exact fun _ _ => ih h
  | write q i k => exact h.1.elim
  | load p k ih => exact fun x _ => ih x.payload (h x.payload)
  | slots p k ih => exact fun x _ => ih _ (h _)
  | store q i v notify k ih => exact fun _ _ => ih h.2
  | setChild q j i value k ih => exact fun _ _ => ih h.2

theorem Copies.bind {prog : Prog P α} {f : α → Prog P β} (h : prog.Copies c type Q T)
    (hf : prog.Post c type T (fun x T' => (f x).Copies c type Q T') fun _ => True) :
    (prog >>= f).Copies c type Q T := by
  show (prog.bind f).Copies c type Q T
  induction prog generalizing T with
  | ret x => exact hf
  | throw | undef => trivial
  | read q i k ih =>
    intro T' hT'
    simp only [Post, run, hT'] at hf
    exact ih (h T' hT') hf
  | write q i k ih =>
    refine ⟨h.1, fun T' hT' => ?_⟩
    simp only [Post, run, hT'] at hf
    exact ih (h.2 T' hT') hf
  | load p k ih =>
    intro x hx
    simp only [Post, run, hx] at hf
    exact ih _ (h x hx) hf
  | slots p k ih =>
    intro x hx
    simp only [Post, run, hx] at hf
    exact ih _ (h x hx) hf
  | store q i v notify k ih =>
    intro T' hT'
    simp only [Post, run, hT'] at hf
    exact ih (h T' hT') hf
  | setChild q j i value k ih =>
    intro T' hT'
    simp only [Post, run, hT'] at hf
    exact ih (h T' hT') hf

end Prog

/-- If asking for the object at a path for writing makes a copy, `Q` holds of the object. -/
def ObjTree.Copyable {P : Type} (Q : P → Prop) (T : ObjTree P) (p : Path) : Prop :=
  ∀ x, T.cells p = some x → x.locked = false → x.old = true → Q x.payload

theorem Refs.copyable {P : Type} {c : Copying P} {type : TxnType} {T T₁ : ObjTree P}
    {Q : P → Prop} {p : Path} (h : Refs c type T T₁) (hq : T.Copyable Q p) : T₁.Copyable Q p := by
  intro y hy hl ho
  have hcell := h.cell (R := fun x y => y.locked = false → y.old = true →
      x.locked = false ∧ x.old = true ∧ y.payload = x.payload)
    (fun x hl ho => ⟨hl, ho, rfl⟩)
    (fun x y z hxy hyz hl ho => by
      obtain ⟨hyl, hyo, hp⟩ := hyz hl ho
      obtain ⟨hxl, hxo, hp'⟩ := hxy hyl hyo
      exact ⟨hxl, hxo, hp.trans hp'⟩)
    (fun x _ _ hl _ => by cases hl) (fun x n _ _ _ hl _ => by cases hl)
    (fun x i _ hx hl _ => by simp [hx] at hl) p
  rcases hcell with ⟨-, hn⟩ | ⟨x, z, hx, hz, hxz⟩
  · cases hn.symm.trans hy
  · obtain rfl := Option.some.inj (hz.symm.trans hy)
    obtain ⟨hxl, hxo, hp⟩ := hxz hl ho
    rw [hp]
    exact hq x hx hxl hxo

namespace Action

variable {env : Env} {type : TxnType} {T T₁ : ObjTree Payload} {Q : Payload → Prop} {view : String}

/-! ## What an action asks for -/

/-- What is asked of the objects that an action on a view asks for writing. -/
structure OnView (Q : Payload → Prop) (T : ObjTree Payload) (view : String)
    (cs : List ViewChild) : Prop where
  registry : T.Copyable Q viewsPath
  self : ∀ i, Slot T view i → T.Copyable Q (viewPath i)
  child : ∀ i c, Slot T view i → c ∈ cs → T.Copyable Q (childPath i c)

end Action

theorem Refs.slot_of {env : Env} {type : TxnType} {T T₁ : ObjTree Payload} {view : String} {i : Nat}
    (h : Refs env.copying type T T₁) (hs : Slot T₁ view i) : Slot T view i := by
  obtain ⟨views, hp, hi, hsome⟩ := hs
  refine ⟨views, ?_, hi, by rwa [h.isSome_eq] at hsome⟩
  rcases h.payload_cases viewsPath with ⟨-, hn⟩ | ⟨x, y, hx, hy, hxy⟩
  · simp [ObjTree.payload, hn] at hp
  · rw [ObjTree.payload_of_cells hy, Option.some.injEq] at hp
    rw [ObjTree.payload_of_cells hx]
    rcases hxy with ⟨heq, -⟩ | ⟨-, -, -, heq⟩
    · rw [← heq, hp]
    · rw [hp] at heq
      cases hpx : x.payload with
      | viewRegistry views' =>
        rw [hpx] at heq
        exact congrArg some heq.symm
      | _ =>
        rw [hpx] at heq
        cases heq

namespace Action

variable {env : Env} {type : TxnType} {T T₁ : ObjTree Payload} {Q : Payload → Prop} {view : String}
  {cs : List ViewChild}

theorem OnView.refs (h : OnView Q T view cs) (hr : Refs env.copying type T T₁) :
    OnView Q T₁ view cs where
  registry := hr.copyable h.registry
  self i hs := hr.copyable (h.self i (hr.slot_of hs))
  child i c hs hc := hr.copyable (h.child i c (hr.slot_of hs) hc)

/-! ## The programs of the actions -/

section Calls

variable {α : Type} {wr ed : Path → Prop}

end Calls

/-! ## The copies that an action makes -/

end Action

/-! ## Copies that lose nothing -/

/-- What `do_copy_properties` of each class does not lose: everything but the name of a view and a
plugin that is not registered, the links of an aggregation, static routes in another mode and their
index, and name maps that are not those of the graph. -/
def Payload.Lossless (env : Env) : Payload → Prop
  | globalState | viewRegistry _ | matrix _ => True
  | netState net => net.doCopyProperties = net
  | view v => v.name = "" ∧ (v.pluginName = "" ∨ env.getInstance v.pluginName = true)
  | aggregation agg => agg.linkRecords = ∅
  | pidMap m => m.copyFrom env.behind = m
  | routing r => r.staticRoutePtrs = [] ∧ (r.routeMode = .static ∨ r.staticRoutes = [])

/-- The same objects. -/
def ObjTree.Alike (T T₁ : ObjTree Payload) : Prop :=
  ∀ p, (T.cells p).map (fun x => (x.payload, x.width)) =
    (T₁.cells p).map fun x => (x.payload, x.width)

namespace ObjTree.Alike

variable {T T₁ T₂ : ObjTree Payload}

theorem trans (h : T.Alike T₁) (h₁ : T₁.Alike T₂) : T.Alike T₂ := fun p => (h p).trans (h₁ p)

theorem symm (h : T.Alike T₁) : T₁.Alike T := fun p => (h p).symm

theorem cases (h : T.Alike T₁) (p : Path) : (T.cells p = none ∧ T₁.cells p = none) ∨
    ∃ x y, T.cells p = some x ∧ T₁.cells p = some y ∧ y.payload = x.payload ∧
      y.width = x.width := by
  have hp := h p
  cases hx : T.cells p with
  | none =>
    rw [hx] at hp
    exact .inl ⟨rfl, Option.map_eq_none_iff.1 hp.symm⟩
  | some x =>
    rw [hx] at hp
    obtain ⟨y, hy, hxy⟩ := Option.map_eq_some_iff.1 hp.symm
    obtain ⟨hpay, hw⟩ := Prod.mk.inj hxy
    exact .inr ⟨x, y, rfl, hy, hpay, hw⟩

theorem payload (h : T.Alike T₁) (p : Path) : T.payload p = T₁.payload p := by
  have hp := congrArg (Option.map Prod.fst) (h p)
  rw [Option.map_map, Option.map_map] at hp
  exact hp

end ObjTree.Alike

namespace Server

variable {env : Env} {s s' : Server} {T T₁ : ObjTree Payload} {actions : List Action}

/-- The end of a commit, `ViewRegistry::on_update` on the live state. -/
def onUpdate : Prog Payload Unit := .write [] viewsIdx ViewRegistry.onUpdate

/-- What runs without a transaction has all locks on the old objects. -/
structure AllLocked (T : ObjTree Payload) : Prop where
  root : ∃ x, T.cells [] = some x ∧ x.old = true
  locked : ∀ p x, T.cells p = some x → x.old = true → x.locked = true

theorem AllLocked.modify (h : AllLocked T) {q : Path} {i : Nat} {f : Cell Payload → Cell Payload}
    (ho : ∀ x, (f x).old = x.old) (hl : ∀ x, x.locked = true → (f x).locked = true) :
    AllLocked (T.modify (i :: q) f) := by
  refine ⟨?_, fun p x hx hxo => ?_⟩
  · rw [ObjTree.modify_ne T f (List.cons_ne_nil i q).symm]
    exact h.root
  · by_cases hp : p = i :: q
    · subst hp
      rw [ObjTree.modify_self] at hx
      obtain ⟨y, hy, rfl⟩ := Option.map_eq_some_iff.1 hx
      exact hl y (h.locked _ y hy ((ho y).symm.trans hxo))
    · rw [ObjTree.modify_ne T f hp] at hx
      exact h.locked p x hx hxo

theorem AllLocked.setChild (h : AllLocked T) (c : Copying Payload) (q : Path) (j i : Nat)
    (value : Option (NewObj Payload)) : AllLocked (T.setChild c (j :: q) i value) := by
  have hm : AllLocked (T.modify (j :: q) (·.setChild i)) := h.modify (by simp) (by simp)
  refine ⟨?_, fun p x hx hxo => ?_⟩
  · rw [show (T.setChild c (j :: q) i value).cells [] = (T.modify (j :: q) (·.setChild i)).cells []
      from ObjTree.graft_other _ _ (by simp)]
    exact hm.root
  · by_cases hs : (i :: j :: q) <:+ p
    · obtain ⟨r, rfl⟩ := hs
      rw [ObjTree.setChild, ObjTree.graft_below] at hx
      cases value with
      | none => cases hx
      | some y =>
        have := (ObjTree.newCells_fresh T.next y r x hx).1
        exact absurd (this.symm.trans hxo) (by simp)
    · rw [ObjTree.setChild, ObjTree.graft_other _ _ hs] at hx
      exact hm.locked p x hx hxo

theorem AllLocked.run {α : Type} (env : Env) (h : AllLocked T) (prog : Prog Payload α) :
    AllLocked (prog.run env.copying .directWrite T).2 :=
  Prog.run_invariant (I := AllLocked) (fun _ _ _ _ h _ _ _ => h.modify (fun _ => rfl) fun _ _ => rfl)
    (fun _ _ _ _ _ _ ht => absurd ht (by simp))
    (fun _ _ _ _ v notify h _ _ => h.modify (by simp) (by simp))
    (fun _ _ _ _ _ _ h _ _ => h.setChild _ _ _ _ _) prog h

theorem AllLocked.runActions (env : Env) (actions : List Action) (h : AllLocked T) :
    AllLocked (runActions env .directWrite actions T).2 := by
  induction actions generalizing T with
  | nil => exact h
  | cons a actions ih =>
    have hrun := h.run env (a.commit env)
    rw [Server.runActions]
    split
    · next he => exact ih (by rwa [he] at hrun)
    all_goals next he => rwa [he] at hrun

theorem AllLocked.readable (h : AllLocked T) (p : Path) (x : Cell Payload)
    (hx : T.cells p = some x) (hr : x.readable = true) : x.locked = true := by
  cases hl : x.locked with
  | true => rfl
  | false =>
    have ho : x.old = true := by simpa [Cell.readable, hl] using hr
    exact hl.symm.trans (h.locked p x hx ho)

end Server

end Alto
