import Alto.Lib.Run
import Alto.Verify.AdminCopy

/-!
# The objects of a view

Each view has six child objects. `ViewStep` says how they change together: by copies, by the actions
on the view, and by updates. The children of the view in a slot of the server change in these steps
only, over every run of transactions and view update jobs (`Server.views_of_run`).
-/

namespace Alto

open Lib Prog

/-- The children of a view; there are none in an empty slot. -/
abbrev ViewObjects := ViewChild → Option Payload

/-- The children of the view in a slot. -/
def ObjTree.objects (T : ObjTree Payload) (i : Nat) : ViewObjects :=
  fun c => T.payload (childPath i c)

/-- The children that `View::View` creates. -/
def newObjects : ViewObjects
  | .aggregation => some (.aggregation .empty)
  | .prefixes => some (.pidMap .empty)
  | .intraRouting => some (.routing (.new defaultWeight))
  | .linkPDistances | .intraPDistances | .interPDistances => some (.matrix .empty)

/-- A step that changes the aggregation, the routing and the link matrix. -/
structure SetsParts (v w : ViewObjects) (agg : PIDAggregation) (r : PIDRouting)
    (link : PIDMatrix) : Prop where
  aggregation : w .aggregation = some (.aggregation agg)
  routing : w .intraRouting = some (.routing r)
  link : w .linkPDistances = some (.matrix link)
  other : ∀ c, c ≠ .aggregation → c ≠ .intraRouting → c ≠ .linkPDistances → w c = v c

/-- How the children of a view change: objects are replaced by their copies, or are copied; a view is
installed or removed; an update sets the two matrices of pDistances; or an action works on the view,
where `P` holds of the tree and the action. -/
inductive ViewStep (env : Env) (P : ObjTree Payload → Action → Prop) :
    ViewObjects → ViewObjects → Prop
  | refs {v w : ViewObjects}
      (h : ∀ c, w c = v c ∨ ∃ x, v c = some x ∧ w c = some (x.copyOf env)) : ViewStep env P v w
  | copied {v w : ViewObjects}
      (h : ∀ c, (w c).map Payload.getters = (v c).map Payload.getters) : ViewStep env P v w
  | install {v : ViewObjects} : ViewStep env P v newObjects
  | remove {v : ViewObjects} : ViewStep env P v fun _ => none
  | update {v w : ViewObjects}
      (h : ∀ c, c ≠ .intraPDistances → c ≠ .interPDistances → w c = v c) : ViewStep env P v w
  | addPID {v w : ViewObjects} {pid : String} {pidObj : PID} {agg : PIDAggregation}
      {r : PIDRouting} {link : PIDMatrix} (hagg : v .aggregation = some (.aggregation agg))
      (hr : v .intraRouting = some (.routing r)) (hlink : v .linkPDistances = some (.matrix link))
      (h : (agg.add pid pidObj ∅).1 = true)
      (hw : SetsParts v w (agg.add pid pidObj ∅).2 (r.addPid pidObj) (link.addPid pidObj).2) :
      ViewStep env P v w
  | deletePID {T : ObjTree Payload} {i : Nat} {view pid : String} {v w : ViewObjects} {pidObj : PID}
      {agg : PIDAggregation} {r r' : PIDRouting} {link : PIDMatrix}
      (hagg : v .aggregation = some (.aggregation agg))
      (hr : v .intraRouting = some (.routing r)) (hlink : v .linkPDistances = some (.matrix link))
      (h : r.removePid pidObj = some r')
      (hw : SetsParts v w (agg.remove pidObj).2 r' (link.removePid pidObj).2)
      (ha : P T (.viewDeletePID view pid)) (hT : T.objects i = v) (hs : Slot T view i)
      (hn : Named T i pid pidObj) : ViewStep env P v w
  | child {T : ObjTree Payload} {i : Nat} {v : ViewObjects} {a : Action} {c : ViewChild}
      {x : Payload} {y : Bool × Payload} (ha : P T a) (hT : T.objects i = v) (hx : v c = some x)
      (h : Action.OnChild env T i a c x y) : ViewStep env P v (Function.update v c (some y.2))

/-! ## Paths -/

theorem childPath_inj {i j : Nat} {c d : ViewChild} :
    childPath i c = childPath j d ↔ i = j ∧ c = d := by
  constructor
  · intro h
    simp only [childPath, viewPath, List.cons.injEq] at h
    refine ⟨h.2.1, ?_⟩
    have hidx := h.1
    cases c <;> cases d <;> first | rfl | exact absurd hidx (by decide)
  · rintro ⟨rfl, rfl⟩
    rfl

theorem objects_modify_other (T : ObjTree Payload) {p : Path} (f : Cell Payload → Cell Payload)
    (i : Nat) (h : ∀ c, childPath i c ≠ p) : (T.modify p f).objects i = T.objects i :=
  funext fun c => T.payload_modify_ne f (h c)

theorem childPath_ne_short {p : Path} (h : p.length ≠ 3) (i : Nat) (c : ViewChild) :
    childPath i c ≠ p := by
  rintro rfl
  exact h rfl

namespace Action

variable {env : Env} {T T' : ObjTree Payload} {i j : Nat} {c : ViewChild} {x y : Payload}

theorem objects_putAt_self (h : T.objects i c = some x) :
    (putAt T i c y).objects i = Function.update (T.objects i) c (some y) := by
  funext d
  by_cases hd : d = c
  · subst hd
    rw [Function.update_self]
    exact T.payload_store true h
  · rw [Function.update_of_ne hd]
    exact payload_putAt_ne hd

theorem objects_putAt_ne (h : j ≠ i) : (putAt T i c y).objects j = T.objects j :=
  objects_modify_other T _ j fun _ heq => h (childPath_inj.1 heq).1

/-- The three parts of a view are set, where a matrix that does not change need not be. -/
theorem objects_putPids {agg agg' : PIDAggregation} {r r' : PIDRouting} {link : PIDMatrix}
    {res : Bool × PIDMatrix} (hp : Parts T i agg r link) (hres : res.1 = false → res.2 = link) :
    SetsParts (T.objects i) ((putPids T i agg' r' res).objects i) agg' r' res.2 := by
  have hagg : T.objects i .aggregation = some (.aggregation agg) := hp.aggregation
  have hr : (putAt T i .aggregation (.aggregation agg')).objects i .intraRouting =
      some (.routing r) := by
    rw [objects_putAt_self hagg, Function.update_of_ne (by decide)]
    exact hp.routing
  have hlink : (putAt (putAt T i .aggregation (.aggregation agg')) i .intraRouting
      (.routing r')).objects i .linkPDistances = some (.matrix link) := by
    rw [objects_putAt_self hr, Function.update_of_ne (by decide), objects_putAt_self hagg,
      Function.update_of_ne (by decide)]
    exact hp.link
  have hset : (putPids T i agg' r' res).objects i =
      Function.update (Function.update (Function.update (T.objects i) .aggregation
        (some (.aggregation agg'))) .intraRouting (some (.routing r'))) .linkPDistances
        (some (.matrix res.2)) := by
    unfold putPids
    dsimp only
    split
    · rw [objects_putAt_self hlink, objects_putAt_self hr, objects_putAt_self hagg]
    · next hfalse =>
      rw [objects_putAt_self hr, objects_putAt_self hagg, hres (by simpa using hfalse)]
      refine (Function.update_eq_self_iff.2 ?_).symm
      rw [Function.update_of_ne (by decide), Function.update_of_ne (by decide)]
      exact hp.link.symm
  rw [hset]
  refine ⟨?_, ?_, by rw [Function.update_self], fun d h₁ h₂ h₃ => ?_⟩
  · rw [Function.update_of_ne (by decide), Function.update_of_ne (by decide),
      Function.update_self]
  · rw [Function.update_of_ne (by decide), Function.update_self]
  · rw [Function.update_of_ne h₃, Function.update_of_ne h₂, Function.update_of_ne h₁]

theorem objects_putPids_ne {agg : PIDAggregation} {r : PIDRouting} {res : Bool × PIDMatrix}
    (h : j ≠ i) : (putPids T i agg r res).objects j = T.objects j := by
  unfold putPids
  dsimp only
  split
  · rw [objects_putAt_ne h, objects_putAt_ne h, objects_putAt_ne h]
  · rw [objects_putAt_ne h, objects_putAt_ne h]

/-! ## Actions -/

variable {P : ObjTree Payload → Action → Prop} {type : TxnType} {a : Action}

/-- The views of a tree change in steps. -/
def Steps (env : Env) (P : ObjTree Payload → Action → Prop) (T T' : ObjTree Payload) : Prop :=
  ∀ i, T'.objects i = T.objects i ∨ ViewStep env P (T.objects i) (T'.objects i)

theorem Steps.of_eq (h : ∀ i, T'.objects i = T.objects i) : Steps env P T T' :=
  fun i => .inl (h i)

/-- A step of one view. -/
theorem Steps.one (h : ViewStep env P (T.objects i) (T'.objects i))
    (hne : ∀ j, j ≠ i → T'.objects j = T.objects j) : Steps env P T T' := by
  intro j
  by_cases hj : j = i
  · subst hj
    exact .inr h
  · exact .inl (hne j hj)

theorem steps_refs (h : Refs env.copying type T T') : Steps env P T T' := by
  refine fun i => .inr (.refs fun c => ?_)
  rcases h.payload_cases (childPath i c) with ⟨hn, hn'⟩ | ⟨x, y, hx, hy, hxy⟩
  · left
    rw [ObjTree.objects, ObjTree.objects, ObjTree.payload, ObjTree.payload, hn, hn']
  · have hT : T.objects i c = some x.payload := ObjTree.payload_of_cells hx
    have hT' : T'.objects i c = some y.payload := ObjTree.payload_of_cells hy
    rcases hxy with ⟨hp, -⟩ | ⟨-, -, -, hp⟩
    · exact .inl (by rw [hT, hT', hp])
    · exact .inr ⟨x.payload, hT, by rw [hT', hp]⟩

theorem steps_setPDistances (env : Env) (P : ObjTree Payload → Action → Prop) (T : ObjTree Payload) (i : Nat)
    (intra inter : PIDMatrix) : Steps env P T (setPDistances env T i intra inter) := by
  have hne : ∀ (T : ObjTree Payload) (c : ViewChild) (value : Option (NewObj Payload)) j d,
      ¬ (j = i ∧ d = c) →
      (T.setChild env.copying (viewPath i) c.idx value).payload (childPath j d) =
        T.payload (childPath j d) := by
    intro T c value j d hno
    refine T.payload_setChild_other env.copying _ value fun hs => hno ?_
    exact childPath_inj.1 (hs.eq_of_length rfl).symm
  refine Steps.one (i := i) (.update fun c h₁ h₂ => ?_) fun j hj => funext fun c => ?_
  · exact (hne _ _ _ _ _ fun h => h₂ h.2).trans (hne _ _ _ _ _ fun h => h₁ h.2)
  · exact (hne _ _ _ _ _ fun h => hj h.1).trans (hne _ _ _ _ _ fun h => hj h.1)

/-- A new view in a slot of the registry, or none. -/
theorem objects_setSlot (env : Env) (T : ObjTree Payload) (i : Nat)
    (value : Option (NewObj Payload)) (views : StdMap String Nat) :
    (∀ c, ((T.setChild env.copying viewsPath i value).modify viewsPath
      (·.store (.viewRegistry views) true)).objects i c =
        value.bind fun x => (x.leaves[c.idx]?)) ∧
      ∀ j, j ≠ i → ((T.setChild env.copying viewsPath i value).modify viewsPath
        (·.store (.viewRegistry views) true)).objects j = T.objects j := by
  have hviews : ∀ j, ((T.setChild env.copying viewsPath i value).modify viewsPath
      (·.store (.viewRegistry views) true)).objects j =
        (T.setChild env.copying viewsPath i value).objects j :=
    fun j => objects_modify_other _ _ j (childPath_ne_short (by decide) j)
  constructor
  · intro c
    rw [hviews]
    refine (T.payload_setChild_below env.copying viewsPath i value [c.idx]).trans ?_
    cases value with
    | none => rfl
    | some x =>
      show ((x.leaves[c.idx]?).map _).map _ = x.leaves[c.idx]?
      cases x.leaves[c.idx]? <;> rfl
  · intro j hj
    rw [hviews]
    refine funext fun c => T.payload_setChild_other env.copying i value fun hs => hj ?_
    have hsuffix : i :: viewsPath <:+ viewPath j := by
      rcases List.suffix_cons_iff.1 hs with heq | hs
      · have hlen := congrArg List.length heq
        simp [viewsPath, viewPath] at hlen
      · exact hs
    exact ((List.cons.inj (hsuffix.eq_of_length rfl)).1).symm

theorem steps_install (env : Env) (P : ObjTree Payload → Action → Prop) (T : ObjTree Payload)
    (i : Nat) (name : String) (views : StdMap String Nat) :
    Steps env P T ((T.setChild env.copying viewsPath i (some (newView name))).modify viewsPath
      (·.store (.viewRegistry views) true)) := by
  obtain ⟨hself, hother⟩ := objects_setSlot env T i (some (newView name)) views
  refine Steps.one (i := i) ?_ hother
  have hnew : ((T.setChild env.copying viewsPath i (some (newView name))).modify viewsPath
      (·.store (.viewRegistry views) true)).objects i = newObjects := by
    funext c
    rw [hself]
    cases c <;> rfl
  rw [hnew]
  exact .install

/-- What a successful action does to the views. -/
theorem steps_does (h : Does env T a T') (ha : P T a) : Steps env P T T' := by
  cases h with
  | base => exact .of_eq fun _ => rfl
  | propGet => exact .of_eq fun _ => rfl
  | net hp h =>
    exact .of_eq fun i => objects_modify_other T _ i (childPath_ne_short (by decide) i)
  | viewAdd hx hp hi => exact steps_install env P T _ _ _
  | @viewDelete view i views hp hi =>
    obtain ⟨hself, hother⟩ := objects_setSlot env T i none (views.erase view)
    refine Steps.one (i := i) ?_ hother
    have hnone : ((T.setChild env.copying viewsPath i none).modify viewsPath
        (·.store (.viewRegistry (views.erase view)) true)).objects i = fun _ => none :=
      funext hself
    rw [hnone]
    exact .remove
  | update hs h hv => exact steps_setPDistances env P T _ _ _
  | @addPID view pid pidObj i agg r link hs hp h =>
    refine Steps.one (i := i) (.addPID hp.aggregation hp.routing hp.link h
      (objects_putPids hp fun hres => ?_)) fun j hj => objects_putPids_ne hj
    unfold PIDMatrix.addPid at hres ⊢
    split at hres
    · rfl
    · cases hres
  | @deletePID view pid pidObj i agg r r' link hs hn hp hagg h =>
    refine Steps.one (i := i) (.deletePID hp.aggregation hp.routing hp.link h
      (objects_putPids hp fun hres => ?_) ha rfl hs hn) fun j hj => objects_putPids_ne hj
    unfold PIDMatrix.removePid at hres ⊢
    split at hres
    · rfl
    · cases hres
  | @child _ i c x y hs hp h =>
    split
    · refine Steps.one (i := i) ?_ fun j hj => objects_putAt_ne hj
      rw [objects_putAt_self hp]
      exact .child ha rfl hp h
    · exact .of_eq fun _ => rfl
  | propSet hs hp h =>
    exact .of_eq fun i => objects_modify_other T _ i
      (childPath_ne_short (by simp [viewPath, viewsPath]) i)

theorem steps_fails (h : Fails env T a T') : Steps env P T T' := by
  cases h with
  | none h => exact .of_eq fun _ => rfl
  | update hs h hv => exact steps_setPDistances env P T _ _ _

end Action

/-! ## Runs -/

/-- Every view of a tree has `Q`. -/
def Views (Q : ViewObjects → Prop) (T : ObjTree Payload) : Prop := ∀ i, Q (T.objects i)

section Views

variable {env : Env} {P : ObjTree Payload → Action → Prop} {Q : ViewObjects → Prop}
  {T T' : ObjTree Payload} {type : TxnType} {a : Action}

/-- Where every view has `Q`, what `P` says of an action still holds once the action has its
references. -/
def KeptByRefs (env : Env) (P : ObjTree Payload → Action → Prop) (Q : ViewObjects → Prop) : Prop :=
  ∀ (type : TxnType) (T T₁ : ObjTree Payload) (a : Action), Views Q T →
    Refs env.copying type T T₁ → P T a → P T₁ a

theorem Action.Steps.views (hQ : ∀ v w, ViewStep env P v w → Q v → Q w)
    (h : Steps env P T T') (hT : Views Q T) : Views Q T' := by
  intro i
  rcases h i with heq | hstep
  · rw [heq]
    exact hT i
  · exact hQ _ _ hstep (hT i)

/-- An action keeps what the steps of the views keep. -/
theorem views_commit (hQ : ∀ v w, ViewStep env P v w → Q v → Q w) (hP : KeptByRefs env P Q)
    (ha : P T a) (hT : Views Q T) :
    (a.commit env).Post env.copying type T (fun _ => Views Q) (Views Q) := by
  have hran : ∀ b T', Action.Ran env type T a b T' → Views Q T' := by
    rintro b T' ⟨T₁, hrefs, h⟩
    have hT₁ := (Action.steps_refs hrefs).views hQ hT
    cases b with
    | true => exact (Action.steps_does h (hP _ _ _ _ hT hrefs ha)).views hQ hT₁
    | false => exact (Action.steps_fails h).views hQ hT₁
  exact (Action.commit_post env type a T).imp (fun r T' h => hran _ T' h) fun T' h => hran _ T' h

/-- `P` holds of every action of a transaction, on the tree on which it is executed. -/
def Server.ActionsMeet (env : Env) (P : ObjTree Payload → Action → Prop) (type : TxnType) :
    List Action → ObjTree Payload → Prop
  | [], _ => True
  | a :: actions, T => P T a ∧
    match (a.commit env).run env.copying type T with
    | (.ok (some _), T) => ActionsMeet env P type actions T
    | _ => True

theorem views_runActions (hQ : ∀ v w, ViewStep env P v w → Q v → Q w) (hP : KeptByRefs env P Q)
    {actions : List Action} (ha : Server.ActionsMeet env P type actions T) (hT : Views Q T) {b : Bool}
    (h : Server.runActions env type actions T = (some b, T')) : Views Q T' := by
  induction actions generalizing T with
  | nil =>
    cases h
    exact hT
  | cons a actions ih =>
    obtain ⟨ha, hrest⟩ := ha
    have hpost : (a.commit env).Post env.copying type T (fun _ => Views Q) (Views Q) :=
      views_commit hQ hP ha hT
    unfold Prog.Post at hpost
    rw [Server.runActions] at h
    split at h
    · next hr =>
      rw [hr] at hpost hrest
      exact ih hrest hpost h
    · next hr =>
      rw [hr] at hpost
      cases h
      exact hpost
    · next hr =>
      rw [hr] at hpost
      cases h
      exact hpost
    · cases h

theorem views_onUpdate (hQ : ∀ v w, ViewStep env P v w → Q v → Q w) (hT : Views Q T) :
    (Prog.write [] viewsIdx ViewRegistry.onUpdate).Post env.copying type T (fun _ => Views Q)
      (Views Q) := by
  refine Post.write fun T₁ h₁ => ?_
  have hT₁ := (Action.steps_refs (Refs.write h₁)).views hQ hT
  refine Post.slots fun x hx => ?_
  split
  · exact Post.ret hT₁
  · refine Post.bind (Post.slots fun y hy => ?_)
    split
    · exact Post.ret Post.undef
    · next i hi =>
      refine Post.bind (Post.setChild fun _ _ _ => Post.ret ?_)
      refine Post.bind (Action.post_loadViews fun views hviews =>
        Post.bind (Action.post_put (Post.pure (Post.pure ?_))))
      exact (Action.steps_install env P T₁ i _ _).views hQ hT₁

theorem post_reads {q : Path} (cs : List ViewChild) (hQ : ∀ v w, ViewStep env P v w → Q v → Q w)
    (hT : Views Q T) :
    Post env.copying type
      (forIn cs PUnit.unit fun c _ => do
        read q c.idx (ret ())
        pure (ForInStep.yield PUnit.unit))
      T (fun _ => Views Q) (Views Q) := by
  induction cs generalizing T with
  | nil => exact Post.pure hT
  | cons c cs ih =>
    rw [List.forIn_cons]
    refine Post.bind (Post.bind (Action.post_read fun T₁ h₁ => Post.pure ?_))
    exact ih ((Action.steps_refs h₁).views hQ hT)

theorem views_runJob (hQ : ∀ v w, ViewStep env P v w → Q v → Q w) (name : String)
    (hT : Views Q T) :
    (Server.runJob env name).Post env.copying type T (fun _ => Views Q) (Views Q) := by
  have hrefs : ∀ {T T' : ObjTree Payload}, Refs env.copying type T T' → Views Q T → Views Q T' :=
    fun h => (Action.steps_refs h).views hQ
  refine Post.bind (Action.post_write fun T₁ h₁ => ?_)
  refine Post.bind (Action.post_read fun T₂ h₂ => ?_)
  have hT₂ := hrefs h₂ (hrefs h₁ hT)
  refine Post.bind (Action.post_get (fun _ => Post.pure hT₂) fun i hi => ?_)
  refine Post.bind (Action.post_write fun T₃ h₃ => ?_)
  refine Post.bind ((post_reads _ hQ (hrefs h₃ hT₂)).imp (fun _ T₄ hT₄ => ?_) fun _ h => h)
  refine Post.bind (Action.post_doUpdate (fun _ => Post.pure hT₄) fun v intra inter _ =>
    Post.pure ?_)
  exact (Action.steps_setPDistances env P T₄ i intra inter).views hQ hT₄

end Views

namespace Server

/-- A transaction that the client, or the monitor thread, rolls back. -/
def abandon (env : Env) (s : Server) (type : TxnType) (rng : List Nat) (actions : List Action) :
    Option Server := do
  match ← s.txnBegin env type rng with
  | (.error _, s) => return s
  | (.ok token, s) =>
    match ← applyAll env token actions s with
    | (false, s) => return s
    | (true, s) => (s.txnRollback token).map (·.2)

/-- What happens to a server: a whole transaction, one that is rolled back, or a view update job. -/
inductive Event where
  | transact (clock : Nat → Nat) (type : TxnType) (rng : List Nat) (actions : List Action)
  | abandon (type : TxnType) (rng : List Nat) (actions : List Action)
  | job (now done : Nat)

/-- The actions that an event may commit. -/
def Event.actions : Event → List Action
  | .transact _ _ _ actions => actions
  | .abandon _ _ _ | .job _ _ => []

/-- The server after an event. -/
def react (env : Env) (s : Server) : Event → Option Server
  | .transact clock type rng actions => (s.transact env clock type rng actions).map (·.2)
  | .abandon type rng actions => s.abandon env type rng actions
  | .job now done => s.executeJob env now done

/-- `P` holds of every action of an event, on the tree on which it is executed, unless the actions are
rolled back. -/
def Event.Meets (env : Env) (P : ObjTree Payload → Action → Prop) (s : Server) : Event → Prop
  | .transact _ type _ actions =>
    type = .directWrite ∨ (runActions env type actions (s.beginTree env)).1 = some true →
      ActionsMeet env P type actions (s.beginTree env)
  | .abandon _ _ _ | .job _ _ => True

variable {env : Env} {P : ObjTree Payload → Action → Prop} {Q : ViewObjects → Prop} {s s' : Server}
  {T : ObjTree Payload}

theorem views_congr {T T' : ObjTree Payload} (h : ∀ p, p ≠ [] → T'.payload p = T.payload p)
    (hT : Views Q T) : Views Q T' := by
  intro i
  have heq : T'.objects i = T.objects i := funext fun c => h _ (List.cons_ne_nil _ _)
  rw [heq]
  exact hT i

theorem views_after {v : Nat} (h : s.tree = after T v) (hT : Views Q T) : Views Q s.tree := by
  refine views_congr (fun p hp => ?_) hT
  rw [h, ObjTree.payload, ObjTree.payload, after, ObjTree.withRoot]
  simp only [if_neg hp, ObjTree.settle, Option.map_map]
  congr 1

theorem views_liveTree {og : Obj Payload} (hT : Views Q s.tree) : Views Q (s.liveTree og) := by
  refine views_congr (fun p hp => ?_) hT
  rw [ObjTree.payload, ObjTree.payload, liveTree]
  simp only [if_neg hp, Option.map_map]
  congr 1

/-- A program that keeps the views of a tree keeps those of the server. -/
theorem views_runLive {α : Type} {prog : Prog Payload α} {x : α} (hi : Idle s)
    (hprog : ∀ T, Views Q T → prog.Post env.copying .directWrite T (fun _ => Views Q) (Views Q))
    (hs : Views Q s.tree) (h : s.runLive env prog = some (x, s')) :
    Idle s' ∧ Views Q s'.tree := by
  obtain ⟨og, hg⟩ := hi.liveRoot
  obtain ⟨T, hT, hidle, htree, -⟩ := runLive_eq hi hg h
  exact ⟨hidle, views_after htree ((hprog _ (views_liveTree hs)).of_ok hT)⟩

theorem views_updated (hQ : ∀ v w, ViewStep env P v w → Q v → Q w) (hi : Idle s)
    (hs : Views Q s.tree) {clock : Nat → Nat} (h : updated env clock s = some s') :
    Idle s' ∧ Views Q s'.tree := by
  obtain ⟨og, hg⟩ := hi.liveRoot
  obtain ⟨T, hT, hidle, htree, -⟩ := updated_eq hi hg h
  exact ⟨hidle, views_after htree ((views_onUpdate hQ (views_liveTree hs)).of_ok hT)⟩

/-- Objects that look the same make an idle server. -/
theorem Quiet.idle (hi : Idle s) (hq : Quiet s.heap s.globalState s') (hclear : s'.admin = .clear) :
    Idle s' ∧ ∀ p, (s'.tree.payload p).map Payload.getters =
      (s.tree.payload p).map Payload.getters := by
  have hlive := hq.findLive hi.tree
  obtain ⟨og, hg⟩ := hi.liveRoot
  refine ⟨⟨?_, fun p a o hp => ?_, hclear, ?_⟩, fun p => ?_⟩
  · rw [hq.globalState]
    exact treelike_of_kept hq.kept hi.tree
  · have hp' := hlive p
    rw [hp] at hp'
    cases hf : s.findLive p with
    | none =>
      rw [hf] at hp'
      cases hp'
    | some x =>
      rw [hf] at hp'
      simp only [Option.map_some, Option.some.injEq, Prod.mk.injEq, Obj.seen] at hp'
      rw [hp'.2.2.2.2]
      exact hi.unfired p x.1 x.2 hf
  · have hroot : s.findLive [] = some (s.globalState, og) := Heap.find_eq_some.2 ⟨rfl, hg.get⟩
    have hp' := hlive []
    rw [hroot] at hp'
    cases hf : s'.findLive [] with
    | none =>
      rw [hf] at hp'
      cases hp'
    | some x =>
      rw [hf] at hp'
      simp only [Option.map_some, Option.some.injEq, Prod.mk.injEq, Obj.seen, hg.payload] at hp'
      obtain ⟨hres, hget⟩ := Heap.find_eq_some.1 hf
      rw [← Option.some.inj hres] at hget
      refine ⟨x.2, hget, ?_, by rw [hp'.2.2.1, hg.width]⟩
      have hpay := hp'.2.1
      cases hx : x.2.payload with
      | globalState => rfl
      | _ =>
        rw [hx] at hpay
        cases hpay
  · have hp := congrArg (Option.map fun x : Nat × Payload × List (Option Nat) × Nat × Bool => x.2.1)
      (hlive p)
    rw [Option.map_map, Option.map_map] at hp
    show ((s'.findLive p).map _ |>.map _).map _ = ((s.findLive p).map _ |>.map _).map _
    rw [Option.map_map, Option.map_map, Option.map_map, Option.map_map]
    exact hp

theorem views_quiet (hQ : ∀ v w, ViewStep env P v w → Q v → Q w) (hs : Views Q s.tree)
    (h : ∀ p, (s'.tree.payload p).map Payload.getters = (s.tree.payload p).map Payload.getters) :
    Views Q s'.tree :=
  fun i => hQ _ _ (.copied fun c => h (childPath i c)) (hs i)

theorem views_beginTree (hs : Views Q s.tree) : Views Q (s.beginTree env) :=
  views_congr (fun _ hp => payload_beginTree hp) hs

/-! ## Events -/

theorem views_transact (hQ : ∀ v w, ViewStep env P v w → Q v → Q w) (hP : KeptByRefs env P Q)
    (hi : Idle s) (hs : Views Q s.tree) {clock : Nat → Nat} {type : TxnType} {rng : List Nat}
    {actions : List Action} (ha : (Event.transact clock type rng actions).Meets env P s) {r : Except String Bool}
    (h : s.transact env clock type rng actions = some (r, s')) : Idle s' ∧ Views Q s'.tree := by
  obtain ⟨og, hg⟩ := hi.liveRoot
  cases htok : generateToken rng with
  | error e =>
    rw [transact_refused hi htok] at h
    cases h
    exact ⟨hi, hs⟩
  | ok token =>
    match r, h with
    | .ok true, h =>
      obtain ⟨T, s₁, hrun, hi₁, htree, -, hup⟩ := transact_committed hi hg h
      have hmeets : ActionsMeet env P type actions (s.beginTree env) := ha (.inr (by rw [hrun]))
      have hT := views_runActions hQ hP hmeets (views_beginTree hs) hrun
      exact views_updated hQ hi₁ (views_after htree hT) hup
    | .ok false, h =>
      obtain ⟨T, hrun, hclear, -, hdirect⟩ := transact_failed hi hg h
      cases type with
      | directWrite =>
        obtain ⟨hi', htree⟩ := hdirect rfl
        exact ⟨hi', views_after htree (views_runActions hQ hP (ha (.inl rfl)) (views_beginTree hs) hrun)⟩
      | copyOnWrite =>
        obtain ⟨hi', hsame⟩ := (quiet_transact hi.tree hi.clear h).idle hi hclear
        exact ⟨hi', views_quiet hQ hs hsame⟩
    | .error e, h =>
      obtain ⟨w, -, hends⟩ := transact_ends env type actions hi hg htok clock
      rcases hrun : runActions env type actions (s.beginTree env) with ⟨r, T⟩
      rw [hrun, h] at hends
      match r, hends with
      | none, hends => cases hends
      | some false, ⟨w', hfin, _⟩ => cases hfin
      | some true, ⟨w', hfin, _⟩ =>
        obtain ⟨s₂, -, heq⟩ := Option.map_eq_some_iff.1 hfin.symm
        cases heq

theorem txnRollback_opened {token : Nat} {w : Work Payload} (ht : token ≠ invalidToken)
    (unapplied : List Action) : (s.opened token w unapplied).txnRollback token =
      some (.ok (), s.clearTxnState w) := by
  rw [txnRollback, checkTxnToken_opened ht]
  rfl

theorem views_abandon (hQ : ∀ v w, ViewStep env P v w → Q v → Q w) (hi : Idle s)
    (hs : Views Q s.tree) {type : TxnType} {rng : List Nat} {actions : List Action}
    (h : s.abandon env type rng actions = some s') : Idle s' ∧ Views Q s'.tree := by
  obtain ⟨og, hg⟩ := hi.liveRoot
  cases htok : generateToken rng with
  | error e =>
    have hnone : ¬ s.admin.token ≠ invalidToken := by simp [hi.clear, AdminState.clear]
    simp only [abandon, txnBegin, if_neg hnone, htok, Option.bind_eq_bind,
      Option.bind_some] at h
    cases h
    exact ⟨hi, hs⟩
  | ok token =>
    obtain ⟨w, hbegin, htype, hsim⟩ := txnBegin_eq env type hi hg htok
    have ht := generateToken_ne htok
    simp only [abandon, hbegin, Option.bind_eq_bind, Option.bind_some] at h
    cases type with
    | directWrite =>
      simp only [applyAll_direct ht htype, Option.bind_some, txnRollback_opened ht] at h
      cases h
      obtain ⟨hi', htree⟩ := idle_failed_direct hsim htype rfl hg.payload hg.width hg.unfired s.jobs
      exact ⟨hi', views_after htree (views_beginTree hs)⟩
    | copyOnWrite =>
      obtain ⟨⟨b, s₂⟩, happly, h⟩ := Option.bind_eq_some_iff.1 h
      have hq₁ : Quiet s.heap s.globalState (s.opened token w []) :=
        quiet_call env (c := .txnBegin .copyOnWrite rng) hi.tree (quiet_start hi.clear) rfl
          (by simp [call, hbegin])
      have hq₂ := quiet_applyAll hi.tree hq₁ happly
      have hends := applyAll_cow env s actions ht hsim htype
      rw [happly] at hends
      cases hr : (runActions env .copyOnWrite actions (s.beginTree env)).1 with
      | none =>
        rw [hr] at hends
        cases hends
      | some b' =>
        rw [hr] at hends
        obtain ⟨w', heq, -⟩ := hends
        obtain ⟨rfl, rfl⟩ := Prod.mk.inj (Option.some.inj heq)
        cases b with
        | false =>
          cases h
          obtain ⟨hi', hsame⟩ := hq₂.idle hi rfl
          exact ⟨hi', views_quiet hQ hs hsame⟩
        | true =>
          have hback := txnRollback_opened (s := s) (w := w') ht []
          have hq₃ : Quiet s.heap s.globalState (s.clearTxnState w') :=
            quiet_call env (c := .txnRollback token) hi.tree hq₂ trivial (by simp [call, hback])
          simp only [if_true, hback] at h
          cases h
          obtain ⟨hi', hsame⟩ := hq₃.idle hi rfl
          exact ⟨hi', views_quiet hQ hs hsame⟩

theorem views_executeJob (hQ : ∀ v w, ViewStep env P v w → Q v → Q w) (hi : Idle s)
    (hs : Views Q s.tree) {now done : Nat} (h : s.executeJob env now done = some s') :
    Idle s' ∧ Views Q s'.tree := by
  obtain ⟨⟨job, jobs⟩, -, h⟩ := Option.bind_eq_some_iff.1 h
  obtain ⟨⟨interval, s₁⟩, hrun, h⟩ := Option.bind_eq_some_iff.1 h
  obtain ⟨hi₁, hs₁⟩ := views_runLive (hi.jobs jobs)
    (fun T hT => views_runJob hQ job.name hT) hs hrun
  match interval, h with
  | none, h | some 0, h =>
    cases h
    exact ⟨hi₁, hs₁⟩
  | some (n + 1), h =>
    cases h
    exact ⟨hi₁.jobs _, hs₁⟩

theorem views_init (hQ : ∀ v w, ViewStep env P v w → Q v → Q w) (h0 : Q fun _ => none)
    {clock : Nat → Nat} (h : init env clock = some s) : Idle s ∧ Views Q s.tree := by
  refine views_updated hQ (idle_initial env) (fun i => ?_) h
  have hnone : (initial env).tree.objects i = fun _ => none := by
    funext c
    cases hf : (initial env).findLive (childPath i c) with
    | none => simp [ObjTree.objects, ObjTree.payload, tree, hf]
    | some x =>
      rcases initial_resolve (Heap.find_eq_some.1 hf).1 with ⟨hp, -⟩ | ⟨j, hp, -⟩
      · exact absurd hp (List.cons_ne_nil _ _)
      · simp [childPath, viewPath] at hp
  rw [hnone]
  exact h0

/-- What holds where there is no view, and is kept by every step of a view, holds of every view of a
server after a run of events whose actions meet the condition. -/
theorem views_of_meets (hQ : ∀ v w, ViewStep env P v w → Q v → Q w) (hP : KeptByRefs env P Q)
    (h0 : Q fun _ => none) {clock : Nat → Nat} (hinit : init env clock = some s)
    {events : List Event} (hr : Run (react env) (Event.Meets env P) s events s') :
    Idle s' ∧ Views Q s'.tree := by
  refine hr.invariant (I := fun s => Idle s ∧ Views Q s.tree) (views_init hQ h0 hinit) ?_
  rintro s e s' ⟨hi, hs⟩ ha h
  cases e with
  | transact clock type rng actions =>
    obtain ⟨⟨r, s₁⟩, htxn, rfl⟩ := Option.map_eq_some_iff.1 h
    exact views_transact hQ hP hi hs ha htxn
  | abandon type rng actions => exact views_abandon hQ hi hs h
  | job now done => exact views_executeJob hQ hi hs h

theorem actionsMeet_of_forall {type : TxnType} {actions : List Action}
    (ha : ∀ a ∈ actions, ∀ T, P T a) : ActionsMeet env P type actions T := by
  induction actions generalizing T with
  | nil => trivial
  | cons a actions ih =>
    refine ⟨ha a List.mem_cons_self T, ?_⟩
    split
    · exact ih fun a' ha' => ha a' (List.mem_cons_of_mem a ha')
    · trivial

/-- The same for a condition on the actions alone. -/
theorem views_of_run {P : Action → Prop} (hQ : ∀ v w, ViewStep env (fun _ => P) v w → Q v → Q w)
    (h0 : Q fun _ => none) {clock : Nat → Nat} (hinit : init env clock = some s)
    {events : List Event} (hr : Run (react env) (fun _ e => ∀ a ∈ e.actions, P a) s events s') :
    Idle s' ∧ Views Q s'.tree := by
  refine views_of_meets hQ (fun _ _ _ _ _ _ h => h) h0 hinit (hr.mono fun s e h => ?_)
  cases e with
  | transact clock type rng actions => exact fun _ => actionsMeet_of_forall fun a ha _ => h a ha
  | abandon | job => trivial

end Server

end Alto
