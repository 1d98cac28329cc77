import Alto.Verify.AdminTree

/-!
# Whole transactions

A transaction on an idle server runs its actions on the tree (`Server.runActions`) and leaves an idle
server again: after a commit its tree is the one that the actions made, after a failed direct
transaction too, and after a failed copy-on-write transaction it shows what it showed before.
-/

namespace Alto

open Lib

/-! ## The root -/

/-- The root is a `GlobalState` with its two children. -/
def ObjTree.GlobalRoot (T : ObjTree Payload) : Prop :=
  (∃ x, T.cells [] = some x ∧ x.payload = .globalState ∧ x.width = 2) ∧
    ∀ i, 2 ≤ i → T.cells [i] = none

namespace ObjTree.GlobalRoot

variable {T : ObjTree Payload}

theorem modify_below {q : Path} {i : Nat} {f : Cell Payload → Cell Payload} (h : T.GlobalRoot) :
    (T.modify (i :: q) f).GlobalRoot := by
  refine ⟨?_, fun j hj => ?_⟩
  · rw [ObjTree.modify_ne T f (List.cons_ne_nil i q).symm]
    exact h.1
  · by_cases hji : [j] = i :: q
    · rw [← hji, ObjTree.modify_self, h.2 j hj]
      rfl
    · rw [ObjTree.modify_ne T f hji]
      exact h.2 j hj

theorem run {α : Type} (c : Copying Payload) (type : TxnType) (h : T.GlobalRoot)
    (prog : Prog Payload α) : (prog.run c type T).2.GlobalRoot := by
  refine Prog.run_invariant (I := ObjTree.GlobalRoot) (fun T q i x h _ _ _ => h.modify_below)
    (fun T q i x y h _ hi _ _ hq _ => ?_) (fun T q i x v notify h _ _ => h.modify_below)
    (fun T q j i x value h _ _ => ?_) prog h
  · have hlt : q = [] → i < 2 := by
      rintro rfl
      by_contra hi2
      simp [h.2 i (Nat.le_of_not_lt hi2)] at hi
    have hcells : ∀ r, r ≠ i :: q → (T.copyAt c q i x).cells r =
        if r = q then (T.cells r).map (·.setChild i) else T.cells r := by
      intro r hr
      simp [ObjTree.copyAt, ObjTree.modify, hr]
    refine ⟨?_, fun j hj => ?_⟩
    · obtain ⟨z, hz, hp, hw⟩ := h.1
      rw [hcells [] (List.cons_ne_nil i q).symm]
      split
      · next hq' =>
        have := hlt hq'.symm
        exact ⟨z.setChild i, by rw [hz]; rfl, by simpa using hp, by
          rw [Cell.setChild_width, hw]
          omega⟩
      · exact ⟨z, hz, hp, hw⟩
    · rw [hcells [j], h.2 j hj]
      · split <;> rfl
      · rintro heq
        cases heq
        have := hlt rfl
        omega
  · have hcells : ∀ r, ¬ (i :: j :: q) <:+ r → (T.setChild c (j :: q) i value).cells r =
        (T.modify (j :: q) (·.setChild i)).cells r := fun r hr => ObjTree.graft_other _ _ hr
    have hm := h.modify_below (q := q) (i := j) (f := (·.setChild i))
    refine ⟨?_, fun k hk => ?_⟩
    · rw [hcells [] (by simp)]
      exact hm.1
    · rw [hcells [k] (fun hs => by simpa using hs.length_le)]
      exact hm.2 k hk

end ObjTree.GlobalRoot

namespace Server

variable {env : Env} {s s' : Server} {w w' : Work Payload} {T T' : ObjTree Payload}
  {out : Outside Payload} {type : TxnType} {actions : List Action} {r : Option Bool}

/-! ## Lists of actions -/

/-- The actions of a transaction on a tree: whether all of them succeed, or no result. -/
def runActions (env : Env) (type : TxnType) :
    List Action → ObjTree Payload → Option Bool × ObjTree Payload
  | [], T => (some true, T)
  | a :: actions, T =>
    match (a.commit env).run env.copying type T with
    | (.ok (some _), T) => runActions env type actions T
    | (.ok none, T) => (some false, T)
    | (.error _, T) => (some false, T)
    | (.undefined, T) => (none, T)

theorem globalRoot_runActions (env : Env) (type : TxnType) (actions : List Action)
    (h : T.GlobalRoot) : (runActions env type actions T).2.GlobalRoot := by
  induction actions generalizing T with
  | nil => exact h
  | cons a actions ih =>
    have hrun := h.run env.copying type (a.commit env)
    rw [runActions]
    split
    · next he => exact ih (by rwa [he] at hrun)
    all_goals next he => rwa [he] at hrun

/-- The objects of a transaction after some of its actions. -/
structure Reached (out : Outside Payload) (w : Work Payload) (T : ObjTree Payload)
    (w' : Work Payload) : Prop where
  sim : Sim out w' T
  type : w'.txn.type = w.txn.type
  newState : w'.txn.newState = w.txn.newState

theorem Reached.trans {T₁ : ObjTree Payload} {w₁ : Work Payload} (h : Reached out w T₁ w₁)
    (h' : Reached out w₁ T w') : Reached out w T w' :=
  ⟨h'.sim, h'.type.trans h.type, h'.newState.trans h.newState⟩

/-- One action on the objects and on the tree. -/
theorem reached_commit (env : Env) (hs : Sim out w T) (a : Action) :
    ((a.commit env).exec env.copying w).1 = ((a.commit env).run env.copying w.txn.type T).1 ∧
      Reached out w ((a.commit env).run env.copying w.txn.type T).2
        ((a.commit env).exec env.copying w).2 := by
  have h := hs.exec (c := env.copying) (a.commit env)
  exact ⟨h.outcome.symm, h.sim, h.type, h.newState⟩

/-- How actions that give `r` and `T` on the tree end on the objects. -/
def Ends (out : Outside Payload) (w : Work Payload) (T : ObjTree Payload) (undef : Prop)
    (state : Bool → Work Payload → Prop) : Option Bool → Prop
  | none => undef
  | some b => ∃ w', state b w' ∧ Reached out w T w'

theorem Ends.imp {u u' : Prop} {state state' : Bool → Work Payload → Prop}
    (h : Ends out w T u state r) (hu : u → u') (hs : ∀ b w', state b w' → state' b w') :
    Ends out w T u' state' r := by
  cases r with
  | none => exact hu h
  | some b =>
    obtain ⟨w', hw', hr⟩ := h
    exact ⟨w', hs b w' hw', hr⟩

theorem Reached.ends {T₁ : ObjTree Payload} {w₁ : Work Payload} {u : Prop}
    {state : Bool → Work Payload → Prop} (h : Reached out w T₁ w₁) (h' : Ends out w₁ T u state r) :
    Ends out w T u state r := by
  cases r with
  | none => exact h'
  | some b =>
    obtain ⟨w', hw', hr⟩ := h'
    exact ⟨w', hw', h.trans hr⟩

theorem rollbackChanges_eq (applied : List Action) (w : Work Payload) :
    rollbackChanges applied w = w := by
  induction applied with
  | nil => rfl
  | cons a applied ih => exact ih

theorem processChanges_ends (env : Env) (actions : List Action) (hs : Sim out w T)
    (applied : List Action) :
    Ends out w (runActions env w.txn.type actions T).2
      (processChanges env actions applied w = none)
      (fun b w' => ∃ ul al, processChanges env actions applied w = some (b, w', ul, al))
      (runActions env w.txn.type actions T).1 := by
  induction actions generalizing w T applied with
  | nil => exact ⟨w, ⟨[], applied, rfl⟩, hs, rfl, rfl⟩
  | cons a actions ih =>
    obtain ⟨hout, hreached⟩ := reached_commit env hs a
    rw [processChanges, runActions]
    rcases hrun : (a.commit env).run env.copying w.txn.type T with ⟨x, T₁⟩
    rcases hexec : (a.commit env).exec env.copying w with ⟨y, w₁⟩
    rw [hrun, hexec] at hout hreached
    obtain rfl : y = x := hout
    match y with
    | .ok (some a') =>
      have h₁ := ih hreached.sim (applied ++ [a'])
      rw [hreached.type] at h₁
      exact hreached.ends h₁
    | .ok none | .error _ =>
      refine ⟨w₁, ⟨a :: actions, [], ?_⟩, hreached⟩
      simp only [rollbackChanges_eq]
    | .undefined => rfl

/-- A server with an open transaction, in which no action is waiting. -/
def opened (s : Server) (token : Nat) (w : Work Payload) (unapplied : List Action) : Server :=
  { s with heap := w.heap, admin := ⟨token, some w.txn, unapplied, []⟩ }

theorem checkTxnToken_opened {token : Nat} (ht : token ≠ invalidToken) (unapplied : List Action) :
    (s.opened token w unapplied).checkTxnToken token = .ok () := by
  simp [opened, checkTxnToken, ht]

theorem applyAll_direct {token : Nat} (ht : token ≠ invalidToken)
    (htype : w.txn.type = .directWrite) (unapplied : List Action) :
    applyAll env token actions (s.opened token w unapplied) =
      some (true, s.opened token w (unapplied ++ actions)) := by
  induction actions generalizing unapplied with
  | nil => simp [applyAll]
  | cons a actions ih =>
    have happly : (s.opened token w unapplied).txnApply env token a =
        some (.ok (some a), s.opened token w (unapplied ++ [a])) := by
      rw [txnApply, checkTxnToken_opened ht]
      simp [opened, htype]
    rw [applyAll, happly]
    simpa using ih (unapplied ++ [a])

theorem applyAll_cow (env : Env) (s : Server) (actions : List Action) {token : Nat}
    (ht : token ≠ invalidToken) (hs : Sim out w T) (htype : w.txn.type = .copyOnWrite) :
    Ends out w (runActions env .copyOnWrite actions T).2
      (applyAll env token actions (s.opened token w []) = none)
      (fun b w' => applyAll env token actions (s.opened token w []) =
        some (b, if b then s.opened token w' [] else s.clearTxnState w'))
      (runActions env .copyOnWrite actions T).1 := by
  induction actions generalizing w T with
  | nil => exact ⟨w, rfl, hs, rfl, rfl⟩
  | cons a actions ih =>
    obtain ⟨hout, hreached⟩ := reached_commit env hs a
    rw [htype] at hout hreached
    rcases hrun : (a.commit env).run env.copying .copyOnWrite T with ⟨x, T₁⟩
    rcases hexec : (a.commit env).exec env.copying w with ⟨y, w₁⟩
    rw [hrun, hexec] at hout hreached
    obtain rfl : y = x := hout
    have hopen : (s.opened token w []).admin.txn = some w.txn := rfl
    have hwork : (⟨(s.opened token w []).heap, w.txn⟩ : Work Payload) = w := rfl
    simp only [applyAll, txnApply, checkTxnToken_opened ht, runActions, hrun, hopen, htype, hwork,
      Option.bind_eq_bind, Option.bind_some]
    match y with
    | .ok (some a') =>
      have hstep : processChanges env ([] ++ [a]) [] w = some (true, w₁, [], [a']) := by
        simp [processChanges, hexec]
      simp only [show (s.opened token w []).admin.unappliedChanges = [] from rfl,
        show (s.opened token w []).admin.appliedChanges = [] from rfl, hstep, Option.bind_some]
      exact hreached.ends (ih hreached.sim (hreached.type.trans htype))
    | .ok none | .error _ =>
      have hstep : processChanges env ([] ++ [a]) [] w = some (false, w₁, [a], []) := by
        simp [processChanges, hexec, rollbackChanges_eq]
      simp only [show (s.opened token w []).admin.unappliedChanges = [] from rfl,
        show (s.opened token w []).admin.appliedChanges = [] from rfl, hstep, Option.bind_some]
      exact ⟨w₁, rfl, hreached⟩
    | .undefined =>
      have hstep : processChanges env ([] ++ [a]) [] w = none := by
        simp [processChanges, hexec]
      simp only [show (s.opened token w []).admin.unappliedChanges = [] from rfl,
        show (s.opened token w []).admin.appliedChanges = [] from rfl, hstep]
      rfl

/-! ## The end of a transaction -/

/-- The cell of `GLOBAL_STATE`, when no transaction is open. -/
def rootCell (version : Nat) : Cell Payload := ⟨.globalState, 2, version, false, true, false⟩

/-- The tree of a server after a transaction that made `T`. -/
def after (T : ObjTree Payload) (version : Nat) : ObjTree Payload :=
  T.settle.withRoot (rootCell version)

theorem settle_withRoot {x : Cell Payload} (hp : x.payload = .globalState) (hw : x.width = 2) :
    (T.withRoot x).settle = after T x.version := by
  refine ObjTree.ext (funext fun p => ?_) rfl
  by_cases h : p = []
  · subst h
    simp [ObjTree.settle, ObjTree.withRoot, after, rootCell, hp, hw]
  · simp [ObjTree.settle, ObjTree.withRoot, after, h]

/-- The end of a transaction whose root passes its children on to `GLOBAL_STATE`. -/
theorem idle_reroot {g : Nat} {og : Obj Payload} (hs : Sim out w T) (hg : (g, og) ∈ out.others)
    {f : Obj Payload → Obj Payload} (hch : ∀ i, (f og).getChild i = w.heap.links w.txn.newState i)
    (hf : (f og).fired = false) (hp : (f og).payload = .globalState)
    (hw : (f og).children.length = 2) (jobs : List ViewUpdateJob) :
    Idle ⟨endWrite (w.heap.modify g f) w.txn.writeLocks, g, .clear, jobs⟩ ∧
      tree ⟨endWrite (w.heap.modify g f) w.txn.writeLocks, g, .clear, jobs⟩ =
        after T (f og).version := by
  have h := idle_of_sim (hs.sim_reroot hg hch hf) (fun x hx => by
    simp only [ObjTree.withRoot, if_true, Option.some.injEq] at hx
    subst hx
    exact ⟨hp, hw⟩) jobs
  rw [settle_withRoot (by exact hp) (by exact hw)] at h
  exact h

/-- A failed direct transaction leaves what its actions did. -/
theorem idle_failed_direct {g : Nat} {og rc : Obj Payload} (hs : Sim ⟨[(g, og)], some rc⟩ w T)
    (hd : w.txn.type = .directWrite) (hrc : rc.children = og.children)
    (hp : og.payload = .globalState) (hw : og.children.length = 2) (hf : og.fired = false)
    (jobs : List ViewUpdateJob) :
    Idle ⟨endWrite w.heap w.txn.writeLocks, g, .clear, jobs⟩ ∧
      tree ⟨endWrite w.heap w.txn.writeLocks, g, .clear, jobs⟩ = after T og.version := by
  have hid : w.heap.modify g id = w.heap := List.modify_id g w.heap
  have h := idle_reroot (f := id) hs List.mem_cons_self (fun i => ?_) hf hp hw jobs
  · rwa [hid] at h
  · rw [Heap.links, hs.root hd, Option.bind_some]
    simp [Obj.getChild, hrc]

/-- What `GlobalState::apply` makes of `GLOBAL_STATE`. -/
def adopted (og : Obj Payload) (net views : Option Nat) : Obj Payload :=
  (((og.resetFired.setChild netIdx net).setChild viewsIdx views).changed).resetFired

theorem adopted_children (og : Obj Payload) (net views : Option Nat) (hw : og.children.length = 2) :
    (adopted og net views).children = [net, views] := by
  obtain ⟨x, y, hxy⟩ := List.length_eq_two.1 hw
  simp [adopted, Obj.resetFired, netIdx, viewsIdx, Obj.putChild, hxy]

theorem adopted_version (og : Obj Payload) (net views : Option Nat) :
    (adopted og net views).version = (og.version + 1) % 2 ^ 32 := by
  simp [adopted, Obj.resetFired, Obj.setChild, Obj.changed]

theorem adopted_payload (og : Obj Payload) (net views : Option Nat) :
    (adopted og net views).payload = og.payload := by
  simp [adopted, Obj.resetFired]

theorem idle_committed {g : Nat} {og : Obj Payload} (hs : Sim out w T) (hg : (g, og) ∈ out.others)
    (hT : T.GlobalRoot) (hp : og.payload = .globalState) (hw : og.children.length = 2)
    (jobs : List ViewUpdateJob) :
    Idle ⟨endWrite (applyState w.heap g w.txn.newState) w.txn.writeLocks, g, .clear, jobs⟩ ∧
      tree ⟨endWrite (applyState w.heap g w.txn.newState) w.txn.writeLocks, g, .clear, jobs⟩ =
        after T ((og.version + 1) % 2 ^ 32) := by
  have hchildren := adopted_children og (w.heap.links w.txn.newState netIdx)
    (w.heap.links w.txn.newState viewsIdx) hw
  have h := idle_reroot hs hg
    (f := fun o => adopted o (w.heap.links w.txn.newState netIdx)
      (w.heap.links w.txn.newState viewsIdx)) (fun i => ?_) rfl
    (by rw [adopted_payload, hp]) (by simp [hchildren]) jobs
  · rw [adopted_version] at h
    exact h
  · rw [Obj.getChild, hchildren]
    rcases show i = 0 ∨ i = 1 ∨ 2 ≤ i by omega with rfl | rfl | hi
    · rfl
    · rfl
    · -- `new_state_` has no further children
      obtain ⟨i, rfl⟩ := Nat.exists_eq_add_of_le' hi
      have hnone := hT.2 (i + 2) (by omega)
      rw [hs.cells, Option.map_eq_none_iff] at hnone
      cases hl : w.heap.links w.txn.newState (i + 2) with
      | none => rfl
      | some a =>
        obtain ⟨o, -, ho⟩ := hs.tree.find_eq (p := [i + 2]) (by simpa [resolve_cons] using hl)
        exact absurd ho (by rw [← Work.find, hnone]; simp)

/-! ## Transactions -/

/-- The last step of a transaction: the transaction is over, and a commit updates the state. -/
def finish (env : Env) (clock : Nat → Nat) (s : Server) (w : Work Payload) :
    Bool → Option (Except String Bool × Server)
  | false => some (.ok false, s.clearTxnState w)
  | true =>
    (updated env clock (s.clearTxnState
      { w with heap := applyState w.heap s.globalState w.txn.newState })).map (.ok true, ·)

theorem txnCommit_ends (env : Env) (s : Server) (actions : List Action) {token : Nat}
    (ht : token ≠ invalidToken) (hs : Sim out w T) (clock : Nat → Nat) :
    Ends out w (runActions env w.txn.type actions T).2
      ((s.opened token w actions).txnCommit env clock token = none)
      (fun b w' => (s.opened token w actions).txnCommit env clock token = finish env clock s w' b)
      (runActions env w.txn.type actions T).1 := by
  refine (processChanges_ends env actions hs []).imp ?_ ?_
  all_goals
    have hopen : (s.opened token w actions).admin = ⟨token, some w.txn, actions, []⟩ := rfl
    have hwork : (⟨(s.opened token w actions).heap, w.txn⟩ : Work Payload) = w := rfl
    simp only [txnCommit, checkTxnToken_opened ht, hopen, hwork, Option.bind_eq_bind,
      Option.bind_some]
  · intro h
    rw [h]
    rfl
  · rintro b w' ⟨ul, al, h⟩
    rw [h]
    cases b with
    | false => rfl
    | true =>
      simp only [Option.bind_some, finish]
      exact Option.map_eq_bind.symm

/-- `GLOBAL_STATE` of an idle server. -/
structure LiveRoot (s : Server) (og : Obj Payload) : Prop where
  get : s.heap[s.globalState]? = some og
  payload : og.payload = .globalState
  width : og.children.length = 2
  unfired : og.fired = false

theorem Idle.liveRoot (hi : Idle s) : ∃ og, LiveRoot s og := by
  obtain ⟨og, hget, hp, hw⟩ := hi.root
  exact ⟨og, hget, hp, hw, hi.unfired [] s.globalState og (Heap.find_eq_some.2 ⟨rfl, hget⟩)⟩

/-- The objects that a transaction does not reach. -/
def outside (env : Env) (s : Server) (og : Obj Payload) : Outside Payload :=
  ⟨[(s.globalState, og)], some (og.copy env.copying s.heap.length)⟩

theorem txnBegin_eq (env : Env) (type : TxnType) (hi : Idle s) {og : Obj Payload}
    (hg : LiveRoot s og) {rng : List Nat} {token : Nat} (htok : generateToken rng = .ok token) :
    ∃ w, s.txnBegin env type rng = some (.ok token, s.opened token w []) ∧ w.txn.type = type ∧
      Sim (s.outside env og) w (s.beginTree env) := by
  refine ⟨_, ?_, rfl, sim_begin env hi type hg.get⟩
  have hsame : s.heap.modify s.globalState (·.afterCopy env.copying) = s.heap := by
    have hog : og.afterCopy env.copying = og := by
      obtain ⟨payload, children, version, fired⟩ := og
      obtain rfl : payload = .globalState := hg.payload
      rfl
    refine List.ext_getElem? fun i => ?_
    rw [List.getElem?_modify]
    by_cases hi : s.globalState = i
    · subst hi
      simp [hg.get, hog]
    · simp [hi]
  have hnone : ¬ s.admin.token ≠ invalidToken := by simp [hi.clear, AdminState.clear]
  rw [txnBegin, if_neg hnone, htok]
  simp [hg.get, hsame, hi.clear, opened, AdminState.clear]

theorem globalRoot_beginTree (env : Env) (hi : Idle s) : (s.beginTree env).GlobalRoot := by
  refine ⟨⟨_, rfl, rfl, rfl⟩, fun i hi2 => ?_⟩
  obtain ⟨og, hg⟩ := hi.liveRoot
  have hnone : s.heap.links s.globalState i = none := by
    rw [Heap.links, hg.get, Option.bind_some, Obj.getChild,
      List.getElem?_eq_none (by rw [hg.width]; exact hi2)]
    rfl
  have hfind : s.findLive [i] = none := by
    rw [findLive, Heap.find, resolve_cons, resolve_nil, Option.bind_some, hnone]
    rfl
  simp [beginTree, tree, hfind]

theorem generateToken_ne {rng : List Nat} {token : Nat} (htok : generateToken rng = .ok token) :
    token ≠ invalidToken := by
  intro h
  unfold generateToken at htok
  split at htok
  · next hf =>
    cases htok
    simpa [h] using List.find?_some hf
  · cases htok

/-- A transaction on an idle server, by what its actions do on the tree. -/
theorem transact_ends (env : Env) (type : TxnType) (actions : List Action) (hi : Idle s)
    {og : Obj Payload} (hg : LiveRoot s og) {rng : List Nat} {token : Nat} (htok : generateToken rng = .ok token) (clock : Nat → Nat) :
    ∃ w, w.txn.type = type ∧
      Ends (s.outside env og) w (runActions env type actions (s.beginTree env)).2
        (s.transact env clock type rng actions = none)
        (fun b w' => s.transact env clock type rng actions = finish env clock s w' b)
        (runActions env type actions (s.beginTree env)).1 := by
  obtain ⟨w, hbegin, htype, hs⟩ := txnBegin_eq env type hi hg htok
  have ht := generateToken_ne htok
  refine ⟨w, htype, ?_⟩
  simp only [transact, hbegin, Option.bind_eq_bind, Option.bind_some]
  cases type with
  | directWrite =>
    rw [applyAll_direct ht htype]
    have h := txnCommit_ends env s actions ht hs clock
    rw [htype] at h
    exact h
  | copyOnWrite =>
    have happly := applyAll_cow env s actions ht hs htype
    cases hr : (runActions env .copyOnWrite actions (s.beginTree env)).1 with
    | none =>
      rw [hr] at happly
      rw [happly]
      rfl
    | some b =>
      rw [hr] at happly
      obtain ⟨w', happly, hreached⟩ := happly
      cases b with
      | false =>
        refine ⟨w', ?_, hreached⟩
        rw [happly]
        rfl
      | true =>
        obtain ⟨w₂, hcommit, hreached₂⟩ :=
          txnCommit_ends env s [] ht hreached.sim clock
        refine ⟨w₂, ?_, hreached.trans hreached₂⟩
        rw [happly]
        exact hcommit

theorem transact_refused (hi : Idle s) {rng : List Nat} {e : String}
    (h : generateToken rng = .error e) (clock : Nat → Nat) :
    s.transact env clock type rng actions = some (.error e, s) := by
  have hnone : ¬ s.admin.token ≠ invalidToken := by simp [hi.clear, AdminState.clear]
  simp [transact, txnBegin, hnone, h]

/-- What a committed transaction did. -/
theorem transact_committed (hi : Idle s) {og : Obj Payload} (hg : LiveRoot s og) {rng : List Nat}
    {clock : Nat → Nat} (h : s.transact env clock type rng actions = some (.ok true, s')) :
    ∃ T s₁, runActions env type actions (s.beginTree env) = (some true, T) ∧ Idle s₁ ∧
      s₁.tree = after T ((og.version + 1) % 2 ^ 32) ∧ s₁.jobs = s.jobs ∧
      updated env clock s₁ = some s' := by
  cases htok : generateToken rng with
  | error e =>
    rw [transact_refused hi htok] at h
    cases h
  | ok token =>
    obtain ⟨w, -, hends⟩ := transact_ends env type actions hi hg
      htok clock
    rcases hrun : runActions env type actions (s.beginTree env) with ⟨r, T⟩
    rw [hrun, h] at hends
    match r, hends with
    | none, hends => cases hends
    | some false, ⟨w', hfin, _⟩ => cases hfin
    | some true, ⟨w', hfin, hreached⟩ =>
      obtain ⟨s₂, hup, heq⟩ := Option.map_eq_some_iff.1 hfin.symm
      cases heq
      have hroot : T.GlobalRoot := by
        have := globalRoot_runActions env type actions (globalRoot_beginTree env hi)
        rwa [hrun] at this
      obtain ⟨hidle, htree⟩ := idle_committed hreached.sim (List.mem_cons_self) hroot hg.payload
        hg.width s.jobs
      exact ⟨T, _, rfl, hidle, htree, rfl, hup⟩

/-- What a failed transaction did. -/
theorem transact_failed (hi : Idle s) {og : Obj Payload} (hg : LiveRoot s og) {rng : List Nat}
    {clock : Nat → Nat} (h : s.transact env clock type rng actions = some (.ok false, s')) :
    ∃ T, runActions env type actions (s.beginTree env) = (some false, T) ∧ s'.admin = .clear ∧
      s'.jobs = s.jobs ∧ (type = .directWrite → Idle s' ∧ s'.tree = after T og.version) := by
  cases htok : generateToken rng with
  | error e =>
    rw [transact_refused hi htok] at h
    cases h
  | ok token =>
    obtain ⟨w, htype, hends⟩ := transact_ends env type actions hi hg
      htok clock
    rcases hrun : runActions env type actions (s.beginTree env) with ⟨r, T⟩
    rw [hrun, h] at hends
    match r, hends with
    | none, hends => cases hends
    | some true, ⟨w', hfin, _⟩ =>
      obtain ⟨s₂, -, heq⟩ := Option.map_eq_some_iff.1 hfin.symm
      cases heq
    | some false, ⟨w', hfin, hreached⟩ =>
      cases hfin
      refine ⟨T, rfl, rfl, rfl, fun hd => ?_⟩
      exact idle_failed_direct hreached.sim (hreached.type.trans (htype.trans hd)) rfl hg.payload
        hg.width hg.unfired s.jobs

/-! ## Programs on the live state -/

/-- The tree that the code outside of transactions works on. -/
def liveTree (s : Server) (og : Obj Payload) : ObjTree Payload where
  cells p :=
    if p = [] then some ⟨.globalState, 2, og.version, false, false, true⟩
    else (s.tree.cells p).map fun x => { x with old := false }
  next := s.heap.length

theorem sim_live (hi : Idle s) {og : Obj Payload} (hg : LiveRoot s og) :
    Sim ⟨[], some og⟩ s.live (s.liveTree og) := by
  have hroot : s.findLive [] = some (s.globalState, og) := Heap.find_eq_some.2 ⟨rfl, hg.get⟩
  have hlocks : ∀ a, a ∈ s.live.txn.writeLocks ↔ a = s.globalState :=
    fun a => StdSet.mem_singleton
  have hempty : ∀ a, a ∉ s.live.txn.oldStateLocks := fun a => Std.ExtTreeSet.not_mem_empty
  refine ⟨rfl, fun p => ?_, hi.tree, fun p a o hp _ => hi.unfired p a o hp,
    fun a ha => absurd ha (hempty a), fun a ha => ?_, fun h => ?_, fun x hx => ?_, fun _ => hg.get⟩
  · show _ = (s.findLive p).map _
    by_cases hp : p = []
    · subst hp
      rw [hroot]
      simp [liveTree, Work.cell, hg.payload, hg.width, hg.unfired, hlocks, hempty]
    · simp only [liveTree, if_neg hp, tree]
      cases hx : s.findLive p with
      | none => rfl
      | some x =>
        have hne : x.1 ≠ s.globalState := by
          intro heq
          have hres := (Heap.find_eq_some.1 hx).1
          rw [heq] at hres
          exact hp (hi.tree.unshared p [] _ hres rfl)
        simp [Work.cell, hlocks, hempty, hne]
  · rw [(hlocks a).1 ha]
    exact hi.tree.resolve_lt (p := []) rfl
  · cases h
  · cases hx

/-- A program on the live state leaves an idle server, with the same `GLOBAL_STATE`. -/
theorem runLive_eq (hi : Idle s) {og : Obj Payload} (hg : LiveRoot s og) {α : Type}
    {prog : Prog Payload α} {x : α} (h : s.runLive env prog = some (x, s')) :
    ∃ T, prog.run env.copying .directWrite (s.liveTree og) = (.ok x, T) ∧ Idle s' ∧
      s'.tree = after T og.version ∧ s'.jobs = s.jobs ∧ LiveRoot s' og := by
  have hexec := (sim_live hi hg).exec (c := env.copying) prog
  unfold runLive at h
  split at h
  · next x' w hw =>
    cases h
    rw [hw] at hexec
    obtain ⟨hout, hsim, htype, hnew⟩ := hexec
    have hnew : w.txn.newState = s.globalState := hnew
    have hget : w.heap[w.txn.newState]? = some og := hsim.root htype
    have hroot := hsim.cells_eq (p := []) (Heap.find_eq_some.2 ⟨rfl, hget⟩)
    have hidle := idle_of_sim hsim (fun x hx => by
      rw [hroot] at hx
      cases hx
      exact ⟨hg.payload, hg.width⟩) s.jobs
    have hserver : ({ s with heap := endWrite w.heap w.txn.writeLocks } : Server) =
        ⟨endWrite w.heap w.txn.writeLocks, w.txn.newState, .clear, s.jobs⟩ := by
      rw [hnew, ← hi.clear]
    refine ⟨_, Prod.ext hout rfl, hserver ▸ hidle.1, ?_, rfl, ?_, hg.payload, hg.width,
      hg.unfired⟩
    · rw [hserver, hidle.2]
      refine ObjTree.ext (funext fun p => ?_) rfl
      by_cases hp : p = []
      · subst hp
        simp [ObjTree.settle, after, ObjTree.withRoot, rootCell, hroot, Work.cell, hg.payload,
          hg.width]
      · simp only [after, ObjTree.withRoot, if_neg hp]
        rfl
    · have hsame : og.resetFired = og := by
        rw [Obj.resetFired, ← hg.unfired]
      show (endWrite w.heap w.txn.writeLocks)[s.globalState]? = some og
      rw [endWrite_get, ← hnew, hget]
      simp [hsame]
  · cases h

theorem Idle.jobs (hi : Idle s) (jobs : List ViewUpdateJob) : Idle { s with jobs := jobs } :=
  ⟨hi.tree, hi.unfired, hi.clear, hi.root⟩

theorem updated_eq (hi : Idle s) {og : Obj Payload} (hg : LiveRoot s og) {clock : Nat → Nat}
    (h : updated env clock s = some s') :
    ∃ T, (Prog.write [] viewsIdx ViewRegistry.onUpdate).run env.copying .directWrite
        (s.liveTree og) = (.ok (), T) ∧ Idle s' ∧ s'.tree = after T og.version ∧
      s'.jobs = s'.viewSlots.foldl (fun jobs i => s'.viewOnUpdate (clock i) jobs i) s.jobs ∧
      LiveRoot s' og := by
  obtain ⟨⟨u, s₁⟩, hrun, heq⟩ := Option.bind_eq_some_iff.1 h
  cases heq
  obtain ⟨T, hT, hidle, htree, hjobs, hroot⟩ := runLive_eq hi hg hrun
  refine ⟨T, hT, hidle.jobs _, htree, ?_, hroot.get, hroot.payload, hroot.width, hroot.unfired⟩
  show s₁.viewSlots.foldl _ s₁.jobs = s₁.viewSlots.foldl _ s.jobs
  rw [hjobs]
  rfl

theorem initial_links {a i b : Nat} (h : (initial env).heap.links a i = some b) :
    a = 0 ∧ b = i + 1 ∧ i < 2 := by
  match a, i with
  | 0, 0 | 0, 1 => simpa [initial, Heap.links, Obj.getChild, eq_comm] using h
  | 0, i + 2 | 1, i | 2, i | a + 3, i => simp [initial, Heap.links, Obj.getChild] at h

theorem initial_resolve {p : Path} {a : Nat} (h : resolve (initial env).heap.links 0 p = some a) :
    p = [] ∧ a = 0 ∨ ∃ i, p = [i] ∧ a = i + 1 ∧ i < 2 := by
  induction p generalizing a with
  | nil =>
    cases h
    exact Or.inl ⟨rfl, rfl⟩
  | cons i p ih =>
    obtain ⟨x, hx, hxa⟩ := Option.bind_eq_some_iff.1 h
    obtain ⟨rfl, rfl, hi⟩ := initial_links hxa
    rcases ih hx with ⟨rfl, -⟩ | ⟨j, -, hj, -⟩
    · exact Or.inr ⟨i, rfl, rfl, hi⟩
    · cases hj

/-- The objects that `init_state` creates are an idle server. -/
theorem idle_initial (env : Env) : Idle (initial env) := by
  refine ⟨⟨fun {p a} hp => ?_, fun p q a hp hq => ?_⟩, fun p a o hp => ?_, rfl, _, rfl, rfl, rfl⟩
  · show a < 3
    rcases initial_resolve hp with ⟨-, rfl⟩ | ⟨i, -, rfl, hi⟩ <;> omega
  · rcases initial_resolve hp with ⟨rfl, rfl⟩ | ⟨i, rfl, rfl, -⟩ <;>
      rcases initial_resolve hq with ⟨rfl, hq⟩ | ⟨j, rfl, hq, -⟩
    · rfl
    · omega
    · omega
    · rw [Nat.succ.inj hq]
  · have hmem := List.mem_of_getElem? (Heap.find_eq_some.1 hp).2
    simp only [initial, List.mem_cons, List.not_mem_nil, or_false] at hmem
    rcases hmem with rfl | rfl | rfl <;> rfl

theorem idle_init {clock : Nat → Nat} (h : init env clock = some s) : Idle s := by
  obtain ⟨og, hg⟩ := (idle_initial env).liveRoot
  obtain ⟨T, -, hi, -⟩ := updated_eq (idle_initial env) hg h
  exact hi

end Server

end Alto
