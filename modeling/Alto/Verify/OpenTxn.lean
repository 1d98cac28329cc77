import Alto.Verify.AdminIsolation
import Alto.Verify.AdminRun
import Alto.Verify.ProgPost

/-!
# The objects of an open transaction

What an action does on the tree, it does on the objects of any transaction that the server has opened.
-/

namespace Alto

open Lib Prog

variable {env : Env} {type : TxnType} {w w' : Work Payload}

/-- The tree of the objects of a transaction. -/
def Work.tree {P : Type} (w : Work P) : ObjTree P where
  cells p := (w.find p).map fun x => w.cell x.1 x.2
  next := w.heap.length

/-- The objects of an open transaction. -/
def OpenTxn {P : Type} (w : Work P) : Prop := ∃ out, Sim out w w.tree

theorem Sim.tree_eq {P : Type} {out : Outside P} {w : Work P} {T : ObjTree P} (h : Sim out w T) :
    w.tree = T :=
  ObjTree.ext (funext fun p => (h.cells p).symm) h.next.symm

theorem OpenTxn.commit (hw : OpenTxn w) (env : Env) (a : Action) :
    OpenTxn ((a.commit env).exec env.copying w).2 := by
  obtain ⟨out, hsim⟩ := hw
  have hsim' := (Server.reached_commit env hsim a).2.sim
  exact ⟨out, hsim'.tree_eq ▸ hsim'⟩

theorem openTxn_begin {s s' : Server} (hi : s.Idle) {rng : List Nat} {token : Nat}
    (hbegin : s.txnBegin env type rng = some (.ok token, s')) :
    ∃ txn, s'.admin.txn = some txn ∧ OpenTxn ⟨s'.heap, txn⟩ := by
  obtain ⟨og, hg⟩ := hi.liveRoot
  cases htok : Server.generateToken rng with
  | error e =>
    have hnone : ¬ s.admin.token ≠ invalidToken := by simp [hi.clear, AdminState.clear]
    rw [Server.txnBegin, if_neg hnone, htok] at hbegin
    cases hbegin
  | ok token' =>
    obtain ⟨w, heq, -, hsim⟩ := Server.txnBegin_eq env type hi hg htok
    rw [heq] at hbegin
    obtain ⟨-, rfl⟩ := Prod.mk.inj (Option.some.inj hbegin)
    exact ⟨w.txn, rfl, _, hsim.tree_eq ▸ hsim⟩

/-- A program of an open transaction that returns, on the tree. -/
theorem Prog.Post.of_exec {α : Type} {prog : Prog Payload α} {ok : α → ObjTree Payload → Prop}
    {err : ObjTree Payload → Prop} (hw : OpenTxn w)
    (h : prog.Post env.copying w.txn.type w.tree ok err) {x : α}
    (hexec : prog.exec env.copying w = (.ok x, w')) : ok x w'.tree := by
  obtain ⟨out, hsim⟩ := hw
  have hagrees := hsim.exec (c := env.copying) prog
  rw [hexec] at hagrees
  rw [hagrees.sim.tree_eq]
  exact h.of_ok (Prod.ext hagrees.outcome rfl)

theorem Prog.exec_bind {P α β : Type} (c : Copying P) (prog : Prog P α) (f : α → Prog P β)
    (w : Work P) : (prog >>= f).exec c w =
      match prog.exec c w with
      | (.ok x, w') => (f x).exec c w'
      | (.error msg, w') => (.error msg, w')
      | (.undefined, w') => (.undefined, w') := by
  change (prog.bind f).exec c w = _
  induction prog generalizing w with
  | ret | throw | undef => rfl
  | read q i k ih =>
    simp only [Prog.bind, exec]
    cases w.readObjectRef q i with
    | none => rfl
    | some w' => exact ih w'
  | write q i k ih =>
    simp only [Prog.bind, exec]
    cases w.writeObjectRef c q i with
    | none => rfl
    | some w' => exact ih w'
  | load p k ih =>
    simp only [Prog.bind, exec]
    cases w.load p with
    | none => rfl
    | some o => exact ih _ w
  | slots p k ih =>
    simp only [Prog.bind, exec]
    cases w.load p with
    | none => rfl
    | some o => exact ih _ w
  | store q i x notify k ih =>
    simp only [Prog.bind, exec]
    cases w.store (i :: q) x notify with
    | none => rfl
    | some w' => exact ih w'
  | setChild q j i value k ih =>
    simp only [Prog.bind, exec]
    cases w.setChild c (j :: q) i value with
    | none => rfl
    | some w' => exact ih w'

/-- An action that returns a flag. -/
theorem exec_keep {a : Action} {prog : Prog Payload Bool} {r : Bool}
    (h : prog.exec env.copying w = (.ok r, w')) :
    (a.keep prog).exec env.copying w = (.ok (if r then some a else none), w') := by
  rw [Action.keep, exec_bind, h]
  cases r <;> rfl

/-- The objects of a direct transaction on a new server after some actions. -/
def sampleWork (actions : List Action) : Option (Work Payload) := do
  let (_, s) ← (Server.initial Server.sampleEnv).txnBegin Server.sampleEnv .directWrite [1]
  let txn ← s.admin.txn
  return actions.foldl (fun w a => ((a.commit Server.sampleEnv).exec
    Server.sampleEnv.copying w).2) ⟨s.heap, txn⟩

theorem openTxn_foldl (env : Env) (actions : List Action) (hw : OpenTxn w) :
    OpenTxn (actions.foldl (fun w a => ((a.commit env).exec env.copying w).2) w) := by
  induction actions generalizing w with
  | nil => exact hw
  | cons a actions ih => exact ih (hw.commit env a)

theorem openTxn_sampleWork {actions : List Action} (h : sampleWork actions = some w) :
    OpenTxn w := by
  simp only [sampleWork, Option.bind_eq_bind, Option.bind_eq_some_iff] at h
  obtain ⟨⟨token, s⟩, hbegin, txn, htxn, h⟩ := h
  cases token with
  | error e => cases hbegin
  | ok token =>
    obtain ⟨txn', htxn', hopen⟩ := openTxn_begin (Server.idle_initial Server.sampleEnv) hbegin
    obtain rfl := Option.some.inj (htxn.symm.trans htxn')
    obtain rfl := Option.some.inj h
    exact openTxn_foldl _ _ hopen

end Alto
