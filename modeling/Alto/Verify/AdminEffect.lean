import Alto.Portal.AdminAction
import Alto.Verify.ProgPost
import Alto.Verify.ProgUnder

/-!
# What an action does

`commit_post` is the one place where the actions are unfolded: an action first asks for references,
and then changes the tree in one of the ways of `Action.Does`, or fails and leaves it as it is.
-/

namespace Alto

open Lib Prog

namespace ObjTree

variable {P : Type}

/-- The payload of the object at a path. -/
def payload (T : ObjTree P) (p : Path) : Option P := (T.cells p).map (·.payload)

theorem payload_of_cells {T : ObjTree P} {p : Path} {x : Cell P} (h : T.cells p = some x) :
    T.payload p = some x.payload := by
  rw [payload, h]
  rfl

theorem payload_modify_ne (T : ObjTree P) {p r : Path} (f : Cell P → Cell P) (h : r ≠ p) :
    (T.modify p f).payload r = T.payload r := by
  rw [payload, modify_ne T f h, payload]

theorem payload_store (T : ObjTree P) {p : Path} {x y : P} (notify : Bool)
    (h : T.payload p = some x) : (T.modify p (·.store y notify)).payload p = some y := by
  obtain ⟨z, hz, -⟩ := Option.map_eq_some_iff.1 h
  rw [payload, modify_self, hz]
  simp

theorem setChild_self (T : ObjTree P) (c : Copying P) (p : Path) (i : Nat)
    (value : Option (NewObj P)) :
    (T.setChild c p i value).cells p = (T.cells p).map (·.setChild i) := by
  have hcells : (T.setChild c p i value).cells p = (T.modify p (·.setChild i)).cells p :=
    graft_other _ _ not_suffix_self
  rw [hcells, modify_self]

theorem payload_setChild_below (T : ObjTree P) (c : Copying P) (p : Path) (i : Nat)
    (value : Option (NewObj P)) (s : Path) :
    (T.setChild c p i value).payload (s ++ i :: p) =
      value.bind fun x => (newCells c T.next x s).map (·.payload) := by
  have hcells : (T.setChild c p i value).cells (s ++ i :: p) =
      value.elim none fun x => newCells c T.next x s := by
    cases value <;> exact graft_below _ _ _ _
  rw [payload, hcells]
  cases value <;> rfl

theorem payload_setChild_other (T : ObjTree P) (c : Copying P) {p r : Path} (i : Nat)
    (value : Option (NewObj P)) (h : ¬ (i :: p) <:+ r) :
    (T.setChild c p i value).payload r = T.payload r := by
  have hcells : (T.setChild c p i value).cells r = (T.modify p (·.setChild i)).cells r :=
    graft_other _ _ h
  rw [payload, hcells]
  by_cases hr : r = p
  · subst hr
    rw [modify_self, payload, Option.map_map]
    congr 1
    funext x
    simp
  · rw [modify_ne T _ hr, payload]

theorem payload_isSome (T : ObjTree P) (p : Path) : (T.payload p).isSome = (T.cells p).isSome := by
  simp [payload]

end ObjTree

/-- A view is registered in a slot. -/
def Slot (T : ObjTree Payload) (view : String) (i : Nat) : Prop :=
  ∃ views, T.payload viewsPath = some (.viewRegistry views) ∧
    views[ViewRegistry.resolveName view]? = some i ∧ (T.cells (viewPath i)).isSome

/-- The view in a slot has a PID under a name. -/
def Named (T : ObjTree Payload) (i : Nat) (name : String) (pid : PID) : Prop :=
  ∃ agg, T.payload (childPath i .aggregation) = some (.aggregation agg) ∧
    agg.lookup name = pid ∧ pid.isInvalid = false

namespace Refs

variable {env : Env} {type : TxnType} {T T₁ : ObjTree Payload} {i : Nat}

/-- A reference keeps an object, or replaces it by its copy. -/
theorem payload_cases (h : Refs env.copying type T T₁) (p : Path) :
    (T.cells p = none ∧ T₁.cells p = none) ∨ ∃ x y, T.cells p = some x ∧ T₁.cells p = some y ∧
      (y.payload = x.payload ∧ y.old = x.old ∨
        type = .copyOnWrite ∧ x.old = true ∧ y.old = false ∧ y.payload = x.payload.copyOf env) := by
  refine h.cell (fun x => Or.inl ⟨rfl, rfl⟩) (fun x y z hxy hyz => ?_)
    (fun x _ _ => Or.inl ⟨rfl, rfl⟩) (fun x n ht _ ho => Or.inr ⟨ht, ho, rfl, rfl⟩)
    (fun x i _ _ => Or.inl ⟨by simp, by simp⟩) p
  rcases hxy with ⟨hp, ho⟩ | ⟨ht, hx, hy, hp⟩
  · rcases hyz with ⟨hp', ho'⟩ | ⟨ht', hy', hz', hp'⟩
    · exact Or.inl ⟨hp'.trans hp, ho'.trans ho⟩
    · exact Or.inr ⟨ht', ho ▸ hy', hz', hp ▸ hp'⟩
  · rcases hyz with ⟨hp', ho'⟩ | ⟨-, hy', -, -⟩
    · exact Or.inr ⟨ht, hx, ho'.trans hy, hp'.trans hp⟩
    · exact absurd (hy'.symm.trans hy) (by simp)

theorem payload_direct (h : Refs env.copying .directWrite T T₁) (p : Path) :
    T₁.payload p = T.payload p := by
  rcases h.payload_cases p with ⟨hn, hn'⟩ | ⟨x, y, hx, hy, ⟨hp, -⟩ | ⟨ht, -⟩⟩
  · rw [ObjTree.payload, ObjTree.payload, hn, hn']
  · rw [ObjTree.payload_of_cells hx, ObjTree.payload_of_cells hy, hp]
  · cases ht

theorem isSome_eq (h : Refs env.copying type T T₁) (p : Path) :
    (T₁.cells p).isSome = (T.cells p).isSome := by
  rcases h.payload_cases p with ⟨hn, hn'⟩ | ⟨x, y, hx, hy, -⟩
  · rw [hn, hn']
  · rw [hx, hy]
    rfl

/-- What the copy of an object keeps, a reference keeps. -/
theorem payload_of {p : Path} {x : Payload} {Q : Payload → Prop} (h : Refs env.copying type T T₁)
    (hp : T.payload p = some x) (hx : Q x) (hc : Q (x.copyOf env)) :
    ∃ y, T₁.payload p = some y ∧ Q y := by
  rcases h.payload_cases p with ⟨hn, -⟩ | ⟨z, y, hz, hy, hyz⟩
  · simp [ObjTree.payload, hn] at hp
  · rw [ObjTree.payload_of_cells hz] at hp
    cases hp
    refine ⟨y.payload, ObjTree.payload_of_cells hy, ?_⟩
    rcases hyz with ⟨heq, -⟩ | ⟨-, -, -, heq⟩
    · rwa [heq]
    · rwa [heq]

theorem registry {views : StdMap String Nat} (h : Refs env.copying type T T₁)
    (hp : T.payload viewsPath = some (.viewRegistry views)) :
    T₁.payload viewsPath = some (.viewRegistry views) := by
  obtain ⟨y, hy, rfl⟩ := h.payload_of (Q := (· = .viewRegistry views)) hp rfl rfl
  exact hy

theorem slot {view : String} (h : Refs env.copying type T T₁) (hs : Slot T view i) :
    Slot T₁ view i := by
  obtain ⟨views, hp, hi, hsome⟩ := hs
  exact ⟨views, h.registry hp, hi, by rwa [h.isSome_eq]⟩

theorem named {name : String} {pid : PID} (h : Refs env.copying type T T₁)
    (hn : Named T i name pid) : Named T₁ i name pid := by
  obtain ⟨agg, hp, hl, hv⟩ := hn
  obtain ⟨y, hy, agg', rfl, hl'⟩ := h.payload_of
    (Q := fun y => ∃ agg', y = .aggregation agg' ∧ agg'.lookup name = pid) hp ⟨agg, rfl, hl⟩
    ⟨_, rfl, hl⟩
  exact ⟨agg', hy, hl', hv⟩

end Refs

theorem Slot.eq {T : ObjTree Payload} {view : String} {i j : Nat} (h : Slot T view i)
    (h' : Slot T view j) : i = j := by
  obtain ⟨views, hp, hi, -⟩ := h
  obtain ⟨views', hp', hj, -⟩ := h'
  rw [hp] at hp'
  cases hp'
  exact Option.some.inj (hi.symm.trans hj)

theorem Named.eq {T : ObjTree Payload} {i : Nat} {name : String} {p q : PID} (h : Named T i name p)
    (h' : Named T i name q) : p = q := by
  obtain ⟨agg, hp, rfl, -⟩ := h
  obtain ⟨agg', hp', rfl, -⟩ := h'
  rw [hp] at hp'
  cases hp'
  rfl

namespace Action

variable {env : Env} {type : TxnType} {T : ObjTree Payload} {err : ObjTree Payload → Prop}
  {view pid : String}

/-! ## References -/

theorem post_read {α : Type} {ok : α → ObjTree Payload → Prop} {q : Path} {i : Nat} {n : α}
    (h : ∀ T', Refs env.copying type T T' → ok n T') :
    (read q i (ret n)).Post env.copying type T ok err :=
  Post.read fun T' hT' => Post.ret (h T' (Refs.read hT'))

theorem post_write {α : Type} {ok : α → ObjTree Payload → Prop} {q : Path} {i : Nat} {n : α}
    (h : ∀ T', Refs env.copying type T T' → ok n T') :
    (write q i (ret n)).Post env.copying type T ok err :=
  Post.write fun T' hT' => Post.ret (h T' (Refs.write hT'))

/-! ## Getters -/

theorem post_loadViews {ok : StdMap String Nat → ObjTree Payload → Prop} {p : Path}
    (h : ∀ views, T.payload p = some (.viewRegistry views) → ok views T) :
    (loadViews p).Post env.copying type T ok err := by
  refine Post.load fun x hx => ?_
  cases hp : x.payload with
  | viewRegistry views => exact Post.ret (h views (by rw [ObjTree.payload_of_cells hx, hp]))
  | _ => exact Post.undef

theorem post_loadNet {ok : NetState → ObjTree Payload → Prop} {p : Path}
    (h : ∀ net, T.payload p = some (.netState net) → ok net T) :
    (loadNet p).Post env.copying type T ok err := by
  refine Post.load fun x hx => ?_
  cases hp : x.payload with
  | netState net => exact Post.ret (h net (by rw [ObjTree.payload_of_cells hx, hp]))
  | _ => exact Post.undef

theorem post_loadView {ok : View → ObjTree Payload → Prop} {p : Path}
    (h : ∀ v, T.payload p = some (.view v) → ok v T) :
    (loadView p).Post env.copying type T ok err := by
  refine Post.load fun x hx => ?_
  cases hp : x.payload with
  | view v => exact Post.ret (h v (by rw [ObjTree.payload_of_cells hx, hp]))
  | _ => exact Post.undef

theorem post_loadAggregation {ok : PIDAggregation → ObjTree Payload → Prop} {p : Path}
    (h : ∀ agg, T.payload p = some (.aggregation agg) → ok agg T) :
    (loadAggregation p).Post env.copying type T ok err := by
  refine Post.load fun x hx => ?_
  cases hp : x.payload with
  | aggregation agg => exact Post.ret (h agg (by rw [ObjTree.payload_of_cells hx, hp]))
  | _ => exact Post.undef

theorem post_loadPIDMap {ok : PIDMap → ObjTree Payload → Prop} {p : Path}
    (h : ∀ m, T.payload p = some (.pidMap m) → ok m T) :
    (loadPIDMap p).Post env.copying type T ok err := by
  refine Post.load fun x hx => ?_
  cases hp : x.payload with
  | pidMap m => exact Post.ret (h m (by rw [ObjTree.payload_of_cells hx, hp]))
  | _ => exact Post.undef

theorem post_loadRouting {ok : PIDRouting → ObjTree Payload → Prop} {p : Path}
    (h : ∀ r, T.payload p = some (.routing r) → ok r T) :
    (loadRouting p).Post env.copying type T ok err := by
  refine Post.load fun x hx => ?_
  cases hp : x.payload with
  | routing r => exact Post.ret (h r (by rw [ObjTree.payload_of_cells hx, hp]))
  | _ => exact Post.undef

theorem post_loadMatrix {ok : PIDMatrix → ObjTree Payload → Prop} {p : Path}
    (h : ∀ m, T.payload p = some (.matrix m) → ok m T) :
    (loadMatrix p).Post env.copying type T ok err := by
  refine Post.load fun x hx => ?_
  cases hp : x.payload with
  | matrix m => exact Post.ret (h m (by rw [ObjTree.payload_of_cells hx, hp]))
  | _ => exact Post.undef

theorem post_orUndef {α : Type} {ok : α → ObjTree Payload → Prop} {x : Option α}
    (h : ∀ y, x = some y → ok y T) : (orUndef x).Post env.copying type T ok err := by
  cases x with
  | none => exact Post.undef
  | some y => exact Post.ret (h y rfl)

theorem post_put {ok : Unit → ObjTree Payload → Prop} {q : Path} {i : Nat} {v : Payload}
    {notify : Bool} (h : ok () (T.modify (i :: q) (·.store v notify))) :
    (put q i v notify).Post env.copying type T ok err :=
  Post.store fun _ _ _ => Post.ret h

/-- There is no such view. -/
def Missing (T : ObjTree Payload) (view : String) : Prop := T.Fits → ∀ i, ¬ Slot T view i

/-- `ViewRegistry::get`. -/
theorem post_get {ok : Option Nat → ObjTree Payload → Prop} (hnone : Missing T view → ok none T)
    (h : ∀ i, Slot T view i → ok (some i) T) :
    (ViewRegistry.get view).Post env.copying type T ok err := by
  refine Post.bind (post_loadViews fun views hviews => ?_)
  cases hi : views[ViewRegistry.resolveName view]? with
  | none =>
    refine Post.pure (hnone fun _ i hs => ?_)
    obtain ⟨views', hviews', hi', -⟩ := hs
    rw [hviews] at hviews'
    cases hviews'
    exact absurd (hi.symm.trans hi') (by simp)
  | some i =>
    refine Post.slots fun x hx => Post.ret ?_
    split
    · next hf =>
      refine h i ⟨views, hviews, hi, ?_⟩
      by_cases hlt : i < x.width
      · simpa [ViewRegistry.filled, ObjTree.slots, hlt, viewPath] using hf
      · simp [ViewRegistry.filled, ObjTree.slots, hlt] at hf
    · next hf =>
      refine hnone fun hfits j hs => hf ?_
      obtain ⟨views', hviews', hj, hsome⟩ := hs
      rw [hviews] at hviews'
      cases hviews'
      obtain rfl := Option.some.inj (hi.symm.trans hj)
      have hlt := hfits viewsPath i x hx hsome
      simpa [ViewRegistry.filled, ObjTree.slots, hlt, viewPath] using hsome

theorem post_findView {ok : Nat → ObjTree Payload → Prop} (h : ∀ i, Slot T view i → ok i T)
    (herr : Missing T view → err T) : (findView view).Post env.copying type T ok err := by
  refine Post.bind (post_get (fun hm => ?_) fun i hi => ?_)
  · exact Post.throw (herr hm)
  · exact Post.pure (h i hi)

/-- A reference to a view, and the ways to it. -/
def Reaches (env : Env) (type : TxnType) (T : ObjTree Payload) (view : String) (i : Nat)
    (T' : ObjTree Payload) : Prop :=
  Refs env.copying type T T' ∧ Slot T' view i

theorem post_getViewRead {ok : Nat → ObjTree Payload → Prop}
    (h : ∀ i T', Reaches env type T view i T' → ok i T')
    (herr : ∀ T', Refs env.copying type T T' → Missing T' view → err T') :
    (getViewRead view).Post env.copying type T ok err :=
  Post.bind (post_read fun T₁ h₁ =>
    Post.bind (post_findView (fun i hi => post_read fun T₂ h₂ => h i T₂ ⟨h₁.trans h₂, h₂.slot hi⟩)
      (herr T₁ h₁)))

theorem post_getViewWrite {ok : Nat → ObjTree Payload → Prop}
    (h : ∀ i T', Reaches env type T view i T' → ok i T')
    (herr : ∀ T', Refs env.copying type T T' → Missing T' view → err T') :
    (getViewWrite view).Post env.copying type T ok err :=
  Post.bind (post_write fun T₁ h₁ =>
    Post.bind (post_findView (fun i hi => post_write fun T₂ h₂ => h i T₂ ⟨h₁.trans h₂, h₂.slot hi⟩)
      (herr T₁ h₁)))

theorem post_getChildRead {ok : Nat → ObjTree Payload → Prop} {c : ViewChild}
    (h : ∀ i T', Reaches env type T view i T' → ok i T')
    (herr : ∀ T', Refs env.copying type T T' → Missing T' view → err T') :
    (getChildRead c view).Post env.copying type T ok err :=
  Post.bind (post_getViewRead (fun i _ h₁ => post_read fun T₂ h₂ =>
    h i T₂ ⟨h₁.1.trans h₂, h₂.slot h₁.2⟩) herr)

theorem post_getChildWrite {ok : Nat → ObjTree Payload → Prop} {c : ViewChild}
    (h : ∀ i T', Reaches env type T view i T' → ok i T')
    (herr : ∀ T', Refs env.copying type T T' → Missing T' view → err T') :
    (getChildWrite c view).Post env.copying type T ok err :=
  Post.bind (post_getViewWrite (fun i _ h₁ => post_write fun T₂ h₂ =>
    h i T₂ ⟨h₁.1.trans h₂, h₂.slot h₁.2⟩) herr)

/-- `AdminViewBase::lookup_pid`. -/
theorem post_lookupPid {ok : PID → ObjTree Payload → Prop}
    (h : ∀ p i T', Reaches env type T view i T' → Named T' i pid p → ok p T')
    (herr : ∀ T', Refs env.copying type T T' → err T') :
    (lookupPid view pid).Post env.copying type T ok err := by
  refine Post.bind (post_getViewRead (fun _ T₁ h₁ => ?_) fun T₁ h₁ _ => herr T₁ h₁)
  refine Post.bind (post_getChildRead (fun i T₂ h₂ => ?_) fun T₂ h₂ _ => herr T₂ (h₁.1.trans h₂))
  refine Post.bind (post_loadAggregation fun agg hagg => ?_)
  split
  · exact Post.throw (herr T₂ (h₁.1.trans h₂.1))
  · next hv =>
    exact Post.pure (h _ i T₂ ⟨h₁.1.trans h₂.1, h₂.2⟩ ⟨agg, hagg, rfl, by simpa using hv⟩)

/-! ## Effects -/

/-- The view that an action works on. -/
def viewOf : Action → String
  | base | netNodeAdd _ _ | netNodeDelete _ | netLinkAdd _ _ _ | netLinkDelete _ => ""
  | viewAdd view | viewDelete view | viewPDistanceUpdate view | viewAddPID view _ _
  | viewDeletePID view _ | viewAddPIDLink view _ _ _ | viewDeletePIDLink view _
  | viewAddPIDPrefixes view _ _ | viewDeletePIDPrefixes view _ _ | viewClearPIDPrefixes view _
  | viewAddPIDNodes view _ _ | viewDeletePIDNodes view _ _ | viewClearPIDNodes view _
  | viewSetLinkCost view _ _ | viewSetLinkWeight view _ _ | viewPropGet view _ _ _
  | viewPropSet view _ _ _ => view

/-- What a network action makes of the network state, and whether `changed` is called. -/
inductive OnNet (net : NetState) : Action → NetState → Bool → Prop
  | nodeAdd {node : String} {external : Bool} {v : NetVertex} {net₁ net' : NetState}
      (hv : net.addNode node = (some v, net₁)) (h : net₁.setExternal v external = some net') :
      OnNet net (.netNodeAdd node external) net' true
  | nodeDelete {node : String} {net' : NetState} (h : net.removeNode node = some (true, net')) :
      OnNet net (.netNodeDelete node) net' true
  | linkAdd {link src dst : String} {vSrc vDst : NetVertex} {e : NetEdge} {net₁ net' : NetState}
      (he : net.addEdge vSrc vDst = some (some e, net₁)) (h : net₁.setEdgeName e link = some net') :
      OnNet net (.netLinkAdd link src dst) net' true
  | linkDelete {link : String} {e : NetEdge} {net' : NetState} (he : net.getEdge link = some e)
      (h : net.removeEdge e = some net') : OnNet net (.netLinkDelete link) net' false

/-- What an action that works on one child of a view makes of the child, and whether it changes it.
The PIDs of the view are those of `T`. -/
inductive OnChild (env : Env) (T : ObjTree Payload) (i : Nat) :
    Action → ViewChild → Payload → Bool × Payload → Prop
  | addPrefixes {view pid : String} {p : PID} {prefixes : List IPPrefix} {m : PIDMap}
      (hp : Named T i pid p) :
      OnChild env T i (.viewAddPIDPrefixes view pid prefixes) .prefixes (.pidMap m)
        ((changePrefixes (fun m pfx => m.add env.behind pfx p) m prefixes).map id .pidMap)
  | deletePrefixes {view pid : String} {p : PID} {prefixes : List IPPrefix} {m : PIDMap}
      (hp : Named T i pid p) :
      OnChild env T i (.viewDeletePIDPrefixes view pid prefixes) .prefixes (.pidMap m)
        ((changePrefixes (fun m pfx => m.remove env.behind pfx p) m prefixes).map id .pidMap)
  | clearPrefixes {view pid : String} {p : PID} {m : PIDMap} (hp : Named T i pid p)
      (h : (m.removeVal p).1 = true) :
      OnChild env T i (.viewClearPIDPrefixes view pid) .prefixes (.pidMap m)
        (true, .pidMap (m.removeVal p).2)
  | addNodes {view pid : String} {p : PID} {nodes : StdSet String} {agg : PIDAggregation}
      (hp : Named T i pid p) (h : (agg.addVertices p nodes).1 = true) :
      OnChild env T i (.viewAddPIDNodes view pid nodes) .aggregation (.aggregation agg)
        (true, .aggregation (agg.addVertices p nodes).2)
  | deleteNodes {view pid : String} {p : PID} {nodes : StdSet String} {agg : PIDAggregation}
      (hp : Named T i pid p) (h : (agg.removeVertices p nodes).1 = true) :
      OnChild env T i (.viewDeletePIDNodes view pid nodes) .aggregation (.aggregation agg)
        (true, .aggregation (agg.removeVertices p nodes).2)
  | clearNodes {view pid : String} {p : PID} {agg : PIDAggregation} (hp : Named T i pid p)
      (h : (agg.clearVertices p).1 = true) :
      OnChild env T i (.viewClearPIDNodes view pid) .aggregation (.aggregation agg)
        (true, .aggregation (agg.clearVertices p).2)
  | addLink {view link src dst : String} {p q : PID} {agg : PIDAggregation} (hp : Named T i src p)
      (hq : Named T i dst q) (h : (agg.defineLink link p q).1 = true) :
      OnChild env T i (.viewAddPIDLink view link src dst) .aggregation (.aggregation agg)
        (true, .aggregation (agg.defineLink link p q).2)
  | deleteLink {view link : String} {agg : PIDAggregation} (h : (agg.undefineLink link).1 = true) :
      OnChild env T i (.viewDeletePIDLink view link) .aggregation (.aggregation agg)
        (true, .aggregation (agg.undefineLink link).2)
  | setCost {view link : String} {cost : Double} {p q : PID} {m : PIDMatrix}
      (h : (m.setByPid p q cost).1 = true) :
      OnChild env T i (.viewSetLinkCost view link cost) .linkPDistances (.matrix m)
        (true, .matrix (m.setByPid p q cost).2)
  | setWeight {view link : String} {weight : Double} {p q : PID} {r : PIDRouting}
      (h : (r.setWeight p q weight).1 = true) :
      OnChild env T i (.viewSetLinkWeight view link weight) .intraRouting (.routing r)
        (true, .routing (r.setWeight p q weight).2)

/-- The tree with another payload of a child of a view. -/
def putAt (T : ObjTree Payload) (i : Nat) (c : ViewChild) (x : Payload) : ObjTree Payload :=
  T.modify (childPath i c) (·.store x true)

/-- `View::add_pid` and `View::remove_pid`: three children of the view change. -/
def putPids (T : ObjTree Payload) (i : Nat) (agg : PIDAggregation) (r : PIDRouting)
    (link : Bool × PIDMatrix) : ObjTree Payload :=
  let T' := putAt (putAt T i .aggregation (.aggregation agg)) i .intraRouting (.routing r)
  if link.1 then putAt T' i .linkPDistances (.matrix link.2) else T'

/-- The aggregation, the routing and the link matrix of the view in a slot. -/
structure Parts (T : ObjTree Payload) (i : Nat) (agg : PIDAggregation) (r : PIDRouting)
    (link : PIDMatrix) : Prop where
  aggregation : T.payload (childPath i .aggregation) = some (.aggregation agg)
  routing : T.payload (childPath i .intraRouting) = some (.routing r)
  link : T.payload (childPath i .linkPDistances) = some (.matrix link)

/-- The two matrices that an update of a view sets. -/
def setPDistances (env : Env) (T : ObjTree Payload) (i : Nat) (intra inter : PIDMatrix) :
    ObjTree Payload :=
  (T.setChild env.copying (viewPath i) ViewChild.intraPDistances.idx
    (some ⟨.matrix intra, []⟩)).setChild env.copying (viewPath i) ViewChild.interPDistances.idx
    (some ⟨.matrix inter, []⟩)

/-- An update of the view in a slot computes matrices. -/
structure Computes (env : Env) (T : ObjTree Payload) (i : Nat) (v : View)
    (intra inter : PIDMatrix) : Prop where
  view : T.payload (viewPath i) = some (.view v)
  result : ∃ net agg r link, T.payload netPath = some (.netState net) ∧ Parts T i agg r link ∧
    env.computeResult net v agg r link = some (some (intra, inter))

/-- What an action that returns true does to the tree, once it has its references. -/
inductive Does (env : Env) (T : ObjTree Payload) : Action → ObjTree Payload → Prop
  | base : Does env T .base T
  | propGet {view prop value : String} {valid : Bool} :
      Does env T (.viewPropGet view prop value valid) T
  | net {a : Action} {net net' : NetState} {notify : Bool}
      (hp : T.payload netPath = some (.netState net)) (h : OnNet net a net' notify) :
      Does env T a (T.modify netPath (·.store (.netState net') notify))
  | viewAdd {view : String} {i : Nat} {x : Cell Payload} {views : StdMap String Nat}
      (hx : T.cells viewsPath = some x) (hp : x.payload = .viewRegistry views)
      (hi : ViewRegistry.freeSlot (T.slots viewsPath x) = some i) :
      Does env T (.viewAdd view)
        ((T.setChild env.copying viewsPath i (some (newView view))).modify viewsPath
          (·.store (.viewRegistry (views.insert view i)) true))
  | viewDelete {view : String} {i : Nat} {views : StdMap String Nat}
      (hp : T.payload viewsPath = some (.viewRegistry views)) (hi : views[view]? = some i) :
      Does env T (.viewDelete view)
        ((T.setChild env.copying viewsPath i none).modify viewsPath
          (·.store (.viewRegistry (views.erase view)) true))
  | update {view : String} {i : Nat} {v : View} {intra inter : PIDMatrix} (hs : Slot T view i)
      (h : Computes env T i v intra inter) (hv : v.updateInterval ≠ 0) :
      Does env T (.viewPDistanceUpdate view) (setPDistances env T i intra inter)
  | addPID {view pid : String} {pidObj : PID} {i : Nat} {agg : PIDAggregation} {r : PIDRouting}
      {link : PIDMatrix} (hs : Slot T view i) (hp : Parts T i agg r link)
      (h : (agg.add pid pidObj ∅).1 = true) :
      Does env T (.viewAddPID view pid pidObj)
        (putPids T i (agg.add pid pidObj ∅).2 (r.addPid pidObj) (link.addPid pidObj))
  | deletePID {view pid : String} {pidObj : PID} {i : Nat} {agg : PIDAggregation}
      {r r' : PIDRouting} {link : PIDMatrix} (hs : Slot T view i) (hn : Named T i pid pidObj)
      (hp : Parts T i agg r link) (ha : agg.has pidObj = true) (h : r.removePid pidObj = some r') :
      Does env T (.viewDeletePID view pid)
        (putPids T i (agg.remove pidObj).2 r' (link.removePid pidObj))
  | child {a : Action} {i : Nat} {c : ViewChild} {x : Payload} {y : Bool × Payload}
      (hs : Slot T a.viewOf i) (hp : T.payload (childPath i c) = some x) (h : OnChild env T i a c x y) :
      Does env T a (if y.1 then putAt T i c y.2 else T)
  | propSet {view prop value : String} {valid : Bool} {i : Nat} {v v' : View} (hs : Slot T view i)
      (hp : T.payload (viewPath i) = some (.view v))
      (h : setProp env.lexicalCast v prop value = some v') :
      Does env T (.viewPropSet view prop value valid)
        (T.modify (viewPath i) (·.store (.view v') true))

/-- An update that sets the matrices of a view and then returns false, since the view is not updated
periodically. -/
def SetsMatrices (env : Env) (T : ObjTree Payload) (a : Action) : Prop :=
  ∃ view i v intra inter, a = .viewPDistanceUpdate view ∧ Slot T view i ∧
    Computes env T i v intra inter ∧ v.updateInterval = 0

/-- What an action that fails does to the tree, once it has its references. -/
inductive Fails (env : Env) (T : ObjTree Payload) : Action → ObjTree Payload → Prop
  | none {a : Action} (h : T.Fits → ¬ a.SetsMatrices env T) : Fails env T a T
  | update {view : String} {i : Nat} {v : View} {intra inter : PIDMatrix} (hs : Slot T view i)
      (h : Computes env T i v intra inter) (hv : v.updateInterval = 0) :
      Fails env T (.viewPDistanceUpdate view) (setPDistances env T i intra inter)

/-- What an action does to the tree, if it returns `b`; throwing counts as false. -/
def Ran (env : Env) (type : TxnType) (T : ObjTree Payload) (a : Action) (b : Bool)
    (T' : ObjTree Payload) : Prop :=
  ∃ T₁, Refs env.copying type T T₁ ∧ if b then Does env T₁ a T' else Fails env T₁ a T'

/-- The actions that return false or true. -/
def Spec (env : Env) (type : TxnType) (T : ObjTree Payload) (a : Action)
    (prog : Prog Payload Bool) : Prop :=
  prog.Post env.copying type T (Ran env type T a) (Ran env type T a false)

variable {a : Action}

theorem Ran.refused {T' : ObjTree Payload} (hu : ∀ view, a ≠ .viewPDistanceUpdate view)
    (h : Refs env.copying type T T') : Ran env type T a false T' :=
  ⟨T', h, .none fun _ hs => by
    obtain ⟨view, -, -, -, -, ha, -⟩ := hs
    exact hu view ha⟩

theorem Ran.missing {T' : ObjTree Payload} (h : Refs env.copying type T T') (hm : Missing T' view) :
    Ran env type T (.viewPDistanceUpdate view) false T' :=
  ⟨T', h, .none fun hf hs => by
    obtain ⟨view', i, -, -, -, ha, hs, -⟩ := hs
    cases ha
    exact hm hf i hs⟩

theorem Ran.done {T₁ T' : ObjTree Payload} (h : Refs env.copying type T T₁)
    (hd : Does env T₁ a T') : Ran env type T a true T' := ⟨T₁, h, hd⟩

/-! ## Network actions -/

theorem netNodeAdd_spec (node : String) (external : Bool) :
    Spec env type T (.netNodeAdd node external) (netNodeAddCommit node external) := by
  refine Post.bind (post_write fun T₁ h₁ => Post.bind (post_loadNet fun net hnet => ?_))
  split
  · exact Post.pure (.refused nofun h₁)
  · next v net₁ hv =>
    refine Post.bind (post_orUndef fun net' hnet' => Post.bind (post_put (Post.pure ?_)))
    exact .done h₁ (.net hnet (.nodeAdd hv hnet'))

theorem netNodeDelete_spec (node : String) :
    Spec env type T (.netNodeDelete node) (netNodeDeleteCommit node) := by
  refine Post.bind (post_write fun T₁ h₁ => Post.bind (post_loadNet fun net hnet => ?_))
  refine Post.bind (post_orUndef fun r hr => ?_)
  match r, hr with
  | (false, _), _ => exact Post.pure (.refused nofun h₁)
  | (true, net'), hr =>
    exact Post.bind (post_put (Post.pure (.done h₁ (.net hnet (.nodeDelete hr)))))

theorem netLinkAdd_spec (link src dst : String) :
    Spec env type T (.netLinkAdd link src dst) (netLinkAddCommit link src dst) := by
  refine Post.bind (post_write fun T₁ h₁ => Post.bind (post_loadNet fun net hnet => ?_))
  split
  · refine Post.bind (post_orUndef fun r hr => ?_)
    match r, hr with
    | (none, _), _ => exact Post.pure (.refused nofun h₁)
    | (some e, net₁), hr =>
      refine Post.bind (post_orUndef fun net' hnet' => Post.bind (post_put (Post.pure ?_)))
      exact .done h₁ (.net hnet (.linkAdd hr hnet'))
  · exact Post.pure (.refused nofun h₁)

theorem netLinkDelete_spec (link : String) :
    Spec env type T (.netLinkDelete link) (netLinkDeleteCommit link) := by
  refine Post.bind (post_write fun T₁ h₁ => Post.bind (post_loadNet fun net hnet => ?_))
  split
  · exact Post.pure (.refused nofun h₁)
  · next e he =>
    refine Post.bind (post_orUndef fun net' hnet' => Post.bind (post_put (Post.pure ?_)))
    exact .done h₁ (.net hnet (.linkDelete he hnet'))

/-! ## Views -/

theorem viewAdd_spec (view : String) : Spec env type T (.viewAdd view) (viewAddCommit view) := by
  refine Post.bind (post_write fun T₁ h₁ => Post.slots fun x hx => ?_)
  cases hi : ViewRegistry.freeSlot (T₁.slots viewsPath x) with
  | none => exact Post.ret (.refused nofun h₁)
  | some i =>
    refine Post.bind (Post.setChild fun _ _ _ => Post.ret ?_)
    refine Post.bind (post_loadViews fun views hviews => Post.bind (post_put (Post.pure ?_)))
    rw [show [viewsIdx] = viewsPath from rfl, ObjTree.payload_setChild_other _ _ _ _ not_suffix_self,
      ObjTree.payload_of_cells hx] at hviews
    exact .done h₁ (.viewAdd hx (Option.some.inj hviews) hi)

theorem viewDelete_spec (view : String) :
    Spec env type T (.viewDelete view) (viewDeleteCommit view) := by
  refine Post.bind (post_write fun T₁ h₁ => Post.bind (post_loadViews fun views hviews => ?_))
  cases hi : views[view]? with
  | none => exact Post.pure (.refused nofun h₁)
  | some i =>
    refine Post.bind (Post.setChild fun _ _ _ => Post.ret ?_)
    exact Post.bind (post_put (Post.pure (.done h₁ (.viewDelete hviews hi))))

/-- `do_update`: nothing happens if the computation fails. -/
theorem post_doUpdate {ok : Nat → ObjTree Payload → Prop} {i : Nat}
    (hfail : (∀ v intra inter, ¬ Computes env T i v intra inter) → ok 0 T)
    (h : ∀ v intra inter, Computes env T i v intra inter →
      ok v.updateInterval (setPDistances env T i intra inter)) :
    (doUpdate env i).Post env.copying type T ok err := by
  refine Post.bind (post_loadNet fun net hnet => Post.bind (post_loadView fun v hv => ?_))
  refine Post.bind (post_loadAggregation fun agg hagg => Post.bind (post_loadRouting fun r hr => ?_))
  refine Post.bind (post_loadMatrix fun link hlink => Post.bind (post_orUndef fun res hres => ?_))
  match res, hres with
  | none, hres =>
    refine Post.pure (hfail fun v' intra inter hc => ?_)
    obtain ⟨hv', net', agg', r', link', hnet', hp', hres'⟩ := hc
    rw [hv] at hv'
    rw [hnet] at hnet'
    have hagg' := hp'.aggregation
    rw [hagg] at hagg'
    have hr' := hp'.routing
    rw [hr] at hr'
    have hlink' := hp'.link
    rw [hlink] at hlink'
    cases hv'
    cases hnet'
    cases hagg'
    cases hr'
    cases hlink'
    exact absurd (hres.symm.trans hres') (by simp)
  | some (intra, inter), hres =>
    refine Post.bind (Post.setChild fun _ _ _ => Post.ret ?_)
    refine Post.bind (Post.setChild fun _ _ _ => Post.ret (Post.pure ?_))
    exact h v intra inter ⟨hv, net, agg, r, link, hnet, ⟨hagg, hr, hlink⟩, hres⟩

theorem viewPDistanceUpdate_spec (view : String) :
    Spec env type T (.viewPDistanceUpdate view) (viewPDistanceUpdateCommit env view) := by
  refine Post.bind (post_read fun T₁ h₁ => Post.bind (post_write fun T₂ h₂ => ?_))
  have h₂ := h₁.trans h₂
  refine Post.bind (post_getViewWrite (fun _ T₃ h₃ => ?_) fun T₃ h₃ hm => .missing (h₂.trans h₃) hm)
  have h₃ := h₂.trans h₃.1
  refine Post.bind (post_getChildRead (fun _ T₄ h₄ => ?_) fun T₄ h₄ hm => .missing (h₃.trans h₄) hm)
  have h₄ := h₃.trans h₄.1
  refine Post.bind (post_getChildRead (fun _ T₅ h₅ => ?_) fun T₅ h₅ hm => .missing (h₄.trans h₅) hm)
  have h₅ := h₄.trans h₅.1
  refine Post.bind (post_getChildRead (fun _ T₆ h₆ => ?_) fun T₆ h₆ hm => .missing (h₅.trans h₆) hm)
  have h₆ := h₅.trans h₆.1
  refine Post.bind (post_getChildRead (fun i T₇ h₇ => ?_) fun T₇ h₇ hm => .missing (h₆.trans h₇) hm)
  have h₇' := h₆.trans h₇.1
  refine Post.bind (post_doUpdate (fun hfail => Post.pure ⟨T₇, h₇', .none fun _ hs => ?_⟩)
    fun v intra inter hc => Post.pure ?_)
  · obtain ⟨view', j, v, intra, inter, ha, hs, hc, -⟩ := hs
    cases ha
    obtain rfl := h₇.2.eq hs
    exact hfail v intra inter hc
  by_cases hv : v.updateInterval = 0
  · refine ⟨T₇, h₇', ?_⟩
    simp only [hv, ne_eq, not_true_eq_false, decide_false, Bool.false_eq_true, if_false]
    exact .update h₇.2 hc hv
  · refine ⟨T₇, h₇', ?_⟩
    simp only [hv, ne_eq, not_false_eq_true, decide_true, if_true]
    exact .update h₇.2 hc hv

/-! ## PIDs -/

theorem post_putChild {ok : Bool → ObjTree Payload → Prop} {i : Nat} {c : ViewChild}
    {r : Bool × Payload} (h : ok r.1 (if r.1 then putAt T i c r.2 else T)) :
    (putChild i c r).Post env.copying type T ok err := by
  unfold putChild
  split
  · next hr =>
    rw [hr, if_pos rfl] at h
    exact Post.bind (post_put (Post.pure h))
  · next hr =>
    have hr' : r.1 = false := by simpa using hr
    rw [hr'] at h
    exact Post.pure h

theorem payload_putAt_ne {i : Nat} {c d : ViewChild} {x : Payload} (h : d ≠ c) :
    (putAt T i c x).payload (childPath i d) = T.payload (childPath i d) := by
  refine ObjTree.payload_modify_ne T _ fun heq => h ?_
  have hidx : d.idx = c.idx := by simpa [childPath] using heq
  cases d <;> cases c <;> first | rfl | exact absurd hidx (by decide)

/-- The references that `AdminViewAddPID` and `AdminViewDeletePID` ask for. -/
theorem post_pidRefs {f : Nat → Prog Payload Bool} (hu : ∀ view, a ≠ .viewPDistanceUpdate view)
    (h : ∀ i T', Reaches env type T view i T' →
      (f i).Post env.copying type T' (Ran env type T a) (Ran env type T a false)) :
    Spec env type T a (do
      let _ ← getViewWrite view
      let _ ← getChildWrite .aggregation view
      let _ ← getChildWrite .intraRouting view
      let i ← getChildWrite .linkPDistances view
      f i) := by
  refine Post.bind (post_getViewWrite (fun _ T₁ h₁ => ?_) fun T₁ h₁ _ => .refused hu h₁)
  have h₁ := h₁.1
  refine Post.bind (post_getChildWrite (fun _ T₂ h₂ => ?_) fun T₂ h₂ _ => .refused hu (h₁.trans h₂))
  have h₂ := h₁.trans h₂.1
  refine Post.bind (post_getChildWrite (fun _ T₃ h₃ => ?_) fun T₃ h₃ _ => .refused hu (h₂.trans h₃))
  have h₃ := h₂.trans h₃.1
  refine Post.bind (post_getChildWrite (fun i T₄ h₄ => ?_) fun T₄ h₄ _ => .refused hu (h₃.trans h₄))
  exact h i T₄ ⟨h₃.trans h₄.1, h₄.2⟩

theorem viewAddPID_spec (view pid : String) (pidObj : PID) :
    Spec env type T (.viewAddPID view pid pidObj) (viewAddPIDCommit view pid pidObj) := by
  refine post_pidRefs nofun fun i T₁ h₁ => Post.bind (post_loadAggregation fun agg hagg => ?_)
  refine Post.bind (post_putChild ?_)
  cases hadd : (agg.add pid pidObj ∅).1 with
  | false =>
    simp only [Prod.map_fst, id_eq, hadd]
    exact Post.pure (.refused nofun h₁.1)
  | true =>
    simp only [Prod.map_fst, Prod.map_snd, id_eq, hadd, if_true]
    refine Post.bind (post_loadRouting fun r hr => Post.bind (post_put ?_))
    refine Post.bind (post_loadMatrix fun link hlink => Post.bind (post_putChild (Post.pure ?_)))
    rw [payload_putAt_ne (by decide)] at hr
    rw [show ViewChild.intraRouting.idx :: viewPath i = childPath i .intraRouting from rfl,
      ← putAt, payload_putAt_ne (by decide), payload_putAt_ne (by decide)] at hlink
    exact .done h₁.1 (.addPID h₁.2 ⟨hagg, hr, hlink⟩ hadd)

theorem viewDeletePID_spec (view pid : String) :
    Spec env type T (.viewDeletePID view pid) (viewDeletePIDCommit view pid) := by
  refine post_pidRefs nofun fun i T₁ h₁ => Post.bind (post_lookupPid (fun p j T₂ h₂ hn => ?_)
    fun T₂ h₂ => .refused nofun (h₁.1.trans h₂))
  obtain rfl : i = j := (h₂.1.slot h₁.2).eq h₂.2
  refine Post.bind (post_loadAggregation fun agg hagg => ?_)
  split
  · next ha =>
    have hrem : (agg.remove p).1 = true := by rw [PIDAggregation.remove, if_pos ha]
    refine Post.bind (post_putChild ?_)
    simp only [Prod.map_fst, Prod.map_snd, id_eq, hrem, if_true]
    refine Post.bind (post_loadRouting fun r hr => Post.bind (post_orUndef fun r' hr' => ?_))
    refine Post.bind (post_put (Post.bind (post_loadMatrix fun link hlink =>
      Post.bind (post_putChild (Post.pure ?_)))))
    rw [payload_putAt_ne (by decide)] at hr
    rw [show ViewChild.intraRouting.idx :: viewPath i = childPath i .intraRouting from rfl,
      ← putAt, payload_putAt_ne (by decide), payload_putAt_ne (by decide)] at hlink
    exact .done (h₁.1.trans h₂.1) (.deletePID h₂.2 hn ⟨hagg, hr, hlink⟩ ha hr')
  · exact Post.pure (.refused nofun (h₁.1.trans h₂.1))

/-! ## Children of a view -/

/-- An action that ends with a setter of one child. -/
theorem post_child {i : Nat} {c : ViewChild} {x : Payload} {r : Bool × Payload}
    {T₁ : ObjTree Payload} (hu : ∀ view, a ≠ .viewPDistanceUpdate view) (h₁ : Refs env.copying type T T₁) (hs : Slot T₁ a.viewOf i)
    (hp : T₁.payload (childPath i c) = some x)
    (h : r.1 = true → OnChild env T₁ i a c x (true, r.2)) :
    (putChild i c r).Post env.copying type T₁ (Ran env type T a) (Ran env type T a false) := by
  refine post_putChild ?_
  cases hr : r.1 with
  | false => exact .refused hu h₁
  | true => exact .done h₁ (.child (y := (true, r.2)) hs hp (h hr))

theorem viewAddPIDPrefixes_spec (view pid : String) (prefixes : List IPPrefix) :
    Spec env type T (.viewAddPIDPrefixes view pid prefixes)
      (viewAddPIDPrefixesCommit env view pid prefixes) := by
  refine Post.bind (post_getChildWrite (fun i T₁ h₁ => ?_) fun T₁ h₁ _ => .refused nofun h₁)
  refine Post.bind (post_lookupPid (fun p j T₂ h₂ hn => ?_) fun T₂ h₂ => .refused nofun (h₁.1.trans h₂))
  obtain rfl : i = j := (h₂.1.slot h₁.2).eq h₂.2
  refine Post.bind (post_loadPIDMap fun m hm => Post.bind (post_putChild (Post.pure ?_)))
  exact .done (h₁.1.trans h₂.1) (.child h₂.2 hm (.addPrefixes hn))

theorem viewDeletePIDPrefixes_spec (view pid : String) (prefixes : List IPPrefix) :
    Spec env type T (.viewDeletePIDPrefixes view pid prefixes)
      (viewDeletePIDPrefixesCommit env view pid prefixes) := by
  refine Post.bind (post_getChildWrite (fun i T₁ h₁ => ?_) fun T₁ h₁ _ => .refused nofun h₁)
  refine Post.bind (post_lookupPid (fun p j T₂ h₂ hn => ?_) fun T₂ h₂ => .refused nofun (h₁.1.trans h₂))
  obtain rfl : i = j := (h₂.1.slot h₁.2).eq h₂.2
  refine Post.bind (post_loadPIDMap fun m hm => Post.bind (post_putChild (Post.pure ?_)))
  exact .done (h₁.1.trans h₂.1) (.child h₂.2 hm (.deletePrefixes hn))

theorem viewClearPIDPrefixes_spec (view pid : String) :
    Spec env type T (.viewClearPIDPrefixes view pid) (viewClearPIDPrefixesCommit view pid) := by
  refine Post.bind (post_getChildWrite (fun i T₁ h₁ => ?_) fun T₁ h₁ _ => .refused nofun h₁)
  refine Post.bind (post_lookupPid (fun p j T₂ h₂ hn => ?_) fun T₂ h₂ => .refused nofun (h₁.1.trans h₂))
  obtain rfl : i = j := (h₂.1.slot h₁.2).eq h₂.2
  refine Post.bind (post_loadPIDMap fun m hm => ?_)
  exact post_child nofun (h₁.1.trans h₂.1) h₂.2 hm fun h => .clearPrefixes hn h

theorem viewAddPIDNodes_spec (view pid : String) (nodes : StdSet String) :
    Spec env type T (.viewAddPIDNodes view pid nodes) (viewAddPIDNodesCommit view pid nodes) := by
  refine Post.bind (post_lookupPid (fun p j T₁ h₁ hn => ?_) fun T₁ h₁ => .refused nofun h₁)
  split
  · exact Post.pure (.refused nofun h₁.1)
  · refine Post.bind (post_getChildWrite (fun i T₂ h₂ => ?_) fun T₂ h₂ _ =>
      .refused nofun (h₁.1.trans h₂))
    obtain rfl : j = i := (h₂.1.slot h₁.2).eq h₂.2
    refine Post.bind (post_loadAggregation fun agg hagg => ?_)
    exact post_child nofun (h₁.1.trans h₂.1) h₂.2 hagg fun h => .addNodes (h₂.1.named hn) h

theorem changeNodes_spec {f : PIDAggregation → PID → Bool × PIDAggregation}
    (hu : ∀ view, a ≠ .viewPDistanceUpdate view) (hv : a.viewOf = view)
    (hf : ∀ T₁ i p agg, Named T₁ i pid p → (f agg p).1 = true →
      OnChild env T₁ i a .aggregation (.aggregation agg) (true, .aggregation (f agg p).2)) :
    Spec env type T a (changeNodesCommit f view pid) := by
  refine Post.bind (post_getChildWrite (fun i T₁ h₁ => ?_) fun T₁ h₁ _ => .refused hu h₁)
  refine Post.bind (post_lookupPid (fun p j T₂ h₂ hn => ?_) fun T₂ h₂ => .refused hu (h₁.1.trans h₂))
  obtain rfl : i = j := (h₂.1.slot h₁.2).eq h₂.2
  refine Post.bind (post_loadAggregation fun agg hagg => ?_)
  exact post_child hu (h₁.1.trans h₂.1) (hv ▸ h₂.2) hagg fun h => hf T₂ i p agg hn h

theorem viewSetLinkCost_spec (view link : String) (cost : Double) :
    Spec env type T (.viewSetLinkCost view link cost) (viewSetLinkCostCommit view link cost) := by
  refine Post.bind (post_getChildRead (fun _ T₁ h₁ => ?_) fun T₁ h₁ _ => .refused nofun h₁)
  refine Post.bind (post_getChildWrite (fun i T₂ h₂ => ?_) fun T₂ h₂ _ => .refused nofun (h₁.1.trans h₂))
  refine Post.bind (post_loadAggregation fun agg _ => ?_)
  split
  · exact Post.pure (.refused nofun (h₁.1.trans h₂.1))
  · refine Post.bind (post_loadMatrix fun m hm => ?_)
    exact post_child nofun (h₁.1.trans h₂.1) h₂.2 hm fun h => .setCost h

theorem viewSetLinkWeight_spec (view link : String) (weight : Double) :
    Spec env type T (.viewSetLinkWeight view link weight)
      (viewSetLinkWeightCommit view link weight) := by
  refine Post.bind (post_getChildRead (fun _ T₁ h₁ => ?_) fun T₁ h₁ _ => .refused nofun h₁)
  refine Post.bind (post_getChildWrite (fun i T₂ h₂ => ?_) fun T₂ h₂ _ => .refused nofun (h₁.1.trans h₂))
  refine Post.bind (post_loadAggregation fun agg _ => ?_)
  split
  · exact Post.pure (.refused nofun (h₁.1.trans h₂.1))
  · refine Post.bind (post_loadRouting fun r hr => ?_)
    exact post_child nofun (h₁.1.trans h₂.1) h₂.2 hr fun h => .setWeight h

theorem viewAddPIDLink_spec (view link src dst : String) :
    Spec env type T (.viewAddPIDLink view link src dst)
      (viewAddPIDLinkCommit view link src dst) := by
  refine Post.bind (post_getChildWrite (fun i T₁ h₁ => ?_) fun T₁ h₁ _ => .refused nofun h₁)
  refine Post.bind (post_lookupPid (fun p j T₂ h₂ hn => ?_) fun T₂ h₂ => .refused nofun (h₁.1.trans h₂))
  obtain rfl : i = j := (h₂.1.slot h₁.2).eq h₂.2
  have h₂' := h₁.1.trans h₂.1
  refine Post.bind (post_lookupPid (fun q j T₃ h₃ hn' => ?_) fun T₃ h₃ => .refused nofun (h₂'.trans h₃))
  obtain rfl : i = j := (h₃.1.slot h₂.2).eq h₃.2
  refine Post.bind (post_loadAggregation fun agg hagg => ?_)
  exact post_child nofun (h₂'.trans h₃.1) h₃.2 hagg fun h => .addLink (h₃.1.named hn) hn' h

theorem viewDeletePIDLink_spec (view link : String) :
    Spec env type T (.viewDeletePIDLink view link) (viewDeletePIDLinkCommit view link) := by
  refine Post.bind (post_getChildWrite (fun i T₁ h₁ => ?_) fun T₁ h₁ _ => .refused nofun h₁)
  refine Post.bind (post_loadAggregation fun agg hagg => ?_)
  exact post_child nofun h₁.1 h₁.2 hagg fun h => .deleteLink h

/-! ## All actions -/

theorem viewPropSet_spec (view prop value : String) (valid : Bool) :
    Spec env type T (.viewPropSet view prop value valid) (viewPropSetCommit env view prop value) := by
  refine Post.bind (post_getViewWrite (fun i T₁ h₁ => ?_) fun T₁ h₁ _ => .refused nofun h₁)
  refine Post.bind (post_loadView fun v hv => ?_)
  split
  · exact Post.pure (.refused nofun h₁.1)
  · next v' hv' =>
    exact Post.bind (post_put (Post.pure (.done h₁.1 (.propSet h₁.2 hv hv'))))

theorem keep_post {prog : Prog Payload Bool} (b : Action) (h : Spec env type T a prog) :
    (keep b prog).Post env.copying type T (fun r => Ran env type T a r.isSome)
      (Ran env type T a false) := by
  refine Post.bind (h.imp (fun r T' hr => ?_) fun T' hT' => hT')
  cases r with
  | false => exact Post.pure hr
  | true => exact Post.pure hr

/-- What an action does. -/
theorem commit_post (env : Env) (type : TxnType) (a : Action) (T : ObjTree Payload) :
    (a.commit env).Post env.copying type T (fun r => Ran env type T a r.isSome)
      (Ran env type T a false) := by
  cases a with
  | base => exact Post.pure (.done .refl .base)
  | netNodeAdd node external => exact keep_post _ (netNodeAdd_spec node external)
  | netNodeDelete node => exact keep_post _ (netNodeDelete_spec node)
  | netLinkAdd link src dst => exact keep_post _ (netLinkAdd_spec link src dst)
  | netLinkDelete link => exact keep_post _ (netLinkDelete_spec link)
  | viewAdd view => exact keep_post _ (viewAdd_spec view)
  | viewDelete view => exact keep_post _ (viewDelete_spec view)
  | viewPDistanceUpdate view => exact keep_post _ (viewPDistanceUpdate_spec view)
  | viewAddPID view pid pidObj => exact keep_post _ (viewAddPID_spec view pid pidObj)
  | viewDeletePID view pid => exact keep_post _ (viewDeletePID_spec view pid)
  | viewAddPIDLink view link src dst => exact keep_post _ (viewAddPIDLink_spec view link src dst)
  | viewDeletePIDLink view link => exact keep_post _ (viewDeletePIDLink_spec view link)
  | viewAddPIDPrefixes view pid prefixes =>
    exact keep_post _ (viewAddPIDPrefixes_spec view pid prefixes)
  | viewDeletePIDPrefixes view pid prefixes =>
    exact keep_post _ (viewDeletePIDPrefixes_spec view pid prefixes)
  | viewClearPIDPrefixes view pid => exact keep_post _ (viewClearPIDPrefixes_spec view pid)
  | viewAddPIDNodes view pid nodes => exact keep_post _ (viewAddPIDNodes_spec view pid nodes)
  | viewDeletePIDNodes view pid nodes =>
    exact keep_post _ (changeNodes_spec nofun rfl fun _ _ _ _ hn h => .deleteNodes hn h)
  | viewClearPIDNodes view pid =>
    exact keep_post _ (changeNodes_spec nofun rfl fun _ _ _ _ hn h => .clearNodes hn h)
  | viewSetLinkCost view link cost => exact keep_post _ (viewSetLinkCost_spec view link cost)
  | viewSetLinkWeight view link weight =>
    exact keep_post _ (viewSetLinkWeight_spec view link weight)
  | viewPropGet view prop value valid =>
    refine Post.bind (Post.bind (post_getViewRead (fun i T₁ h₁ => ?_) fun T₁ h₁ _ => .refused nofun h₁))
    refine Post.bind (post_loadView fun v _ => Post.pure ?_)
    split
    · exact Post.pure (.refused nofun h₁.1)
    · exact Post.pure (.done h₁.1 .propGet)
  | viewPropSet view prop value valid =>
    exact keep_post _ (viewPropSet_spec view prop value valid)

end Action

end Alto
