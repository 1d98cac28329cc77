import Alto.Portal.ViewUpdate
import Alto.Verify.OpenTxn
import Alto.Verify.ViewInterdomain

/-!
# Actions that fail

An action that returns false or throws an `admin_error` ends its transaction. The exception
specification of `commit` lets no other exception through: the process ends where one is thrown.
-/

namespace Alto

open Lib Prog Server

variable {env : Env} {w w' : Work Payload} {s : Server} {actions applied : List Action}
  {o : Outcome (Option Action)} {token : Nat} {txn : Txn}

/-- The first of the actions that does not succeed, and what it does instead. -/
inductive FailsWith (env : Env) : List Action → Work Payload → Outcome (Option Action) → Prop
  | here {a : Action} {actions : List Action} {w w' : Work Payload} {o : Outcome (Option Action)}
      (hexec : (a.commit env).exec env.copying w = (o, w')) (ho : ∀ a', o ≠ .ok (some a')) :
      FailsWith env (a :: actions) w o
  | later {a a' : Action} {actions : List Action} {w w' : Work Payload}
      {o : Outcome (Option Action)}
      (hexec : (a.commit env).exec env.copying w = (.ok (some a'), w'))
      (h : FailsWith env actions w' o) : FailsWith env (a :: actions) w o

/-- The changes stop at the action that fails, unless the process does. -/
theorem processChanges_fails (h : FailsWith env actions w o) (applied : List Action) :
    (o = .undefined ∧ processChanges env actions applied w = none) ∨
      (o ≠ .undefined ∧ ∃ w' l l', processChanges env actions applied w = some (false, w', l, l')) := by
  induction h generalizing applied with
  | @here a actions w w' o hexec ho =>
    rw [processChanges, hexec]
    cases o with
    | ok result =>
      cases result with
      | none => exact .inr ⟨by simp, _, _, _, rfl⟩
      | some a' => exact absurd rfl (ho a')
    | error msg => exact .inr ⟨by simp, _, _, _, rfl⟩
    | undefined => exact .inl ⟨rfl, rfl⟩
  | later hexec h ih =>
    rw [processChanges, hexec]
    exact ih _

/-- There is no transaction and no change log any more, and the token is refused. -/
structure TxnEnded (env : Env) (token : Nat) (s : Server) : Prop where
  admin : s.admin = .clear
  refused : ∀ clock, ∃ msg, s.txnCommit env clock token = some (.error msg, s)

theorem txnEnded_clear (s : Server) (w : Work Payload) : TxnEnded env token (s.clearTxnState w) :=
  ⟨rfl, fun _ => ⟨"No transaction in progress", rfl⟩⟩

/-- The server has an open transaction with this token. -/
structure Opened (s : Server) (token : Nat) (txn : Txn) : Prop where
  tokenIs : s.admin.token = token
  valid : token ≠ invalidToken
  txnIs : s.admin.txn = some txn

theorem Opened.check (h : Opened s token txn) : s.checkTxnToken token = .ok () := by
  rw [checkTxnToken, h.tokenIs, if_neg h.valid, if_neg (not_not.2 rfl)]

/-- A failure during `txn_apply` is reported by the empty pointer. -/
theorem txnApply_fails (h : Opened s token txn) (hcow : txn.type = .copyOnWrite) {a : Action}
    (hfails : FailsWith env (s.admin.unappliedChanges ++ [a]) ⟨s.heap, txn⟩ o) :
    (o = .undefined ∧ s.txnApply env token a = none) ∨
      (o ≠ .undefined ∧ ∃ s', s.txnApply env token a = some (.ok none, s') ∧
        TxnEnded env token s') := by
  rw [txnApply, h.check]
  simp only [h.txnIs, Option.bind_eq_bind, Option.bind_some, hcow]
  rcases processChanges_fails hfails s.admin.appliedChanges with ⟨ho, hnone⟩ | ⟨ho, w', l, l', hrun⟩
  · rw [hnone]
    exact .inl ⟨ho, rfl⟩
  · rw [hrun]
    exact .inr ⟨ho, _, rfl, txnEnded_clear s w'⟩

/-- A failure during `txn_commit` is reported by false. -/
theorem txnCommit_fails (clock : Nat → Nat) (h : Opened s token txn)
    (hfails : FailsWith env s.admin.unappliedChanges ⟨s.heap, txn⟩ o) :
    (o = .undefined ∧ s.txnCommit env clock token = none) ∨
      (o ≠ .undefined ∧ ∃ s', s.txnCommit env clock token = some (.ok false, s') ∧
        TxnEnded env token s') := by
  rw [txnCommit, h.check]
  simp only [h.txnIs, Option.bind_eq_bind, Option.bind_some]
  rcases processChanges_fails hfails s.admin.appliedChanges with ⟨ho, hnone⟩ | ⟨ho, w', l, l', hrun⟩
  · rw [hnone]
    exact .inl ⟨ho, rfl⟩
  · rw [hrun]
    exact .inr ⟨ho, _, rfl, txnEnded_clear s w'⟩

/-- An action that fails in an open transaction is reported and ends the transaction exactly if it
returns false or throws an `admin_error`. -/
theorem failing_action_ends_transaction (h : Opened s token txn) :
    (∀ a, txn.type = .copyOnWrite →
      FailsWith env (s.admin.unappliedChanges ++ [a]) ⟨s.heap, txn⟩ o →
      ((∃ s', s.txnApply env token a = some (.ok none, s') ∧ TxnEnded env token s') ↔
        o ≠ .undefined)) ∧
    ∀ clock, FailsWith env s.admin.unappliedChanges ⟨s.heap, txn⟩ o →
      ((∃ s', s.txnCommit env clock token = some (.ok false, s') ∧ TxnEnded env token s') ↔
        o ≠ .undefined) := by
  constructor
  · intro a hcow hfails
    rcases txnApply_fails h hcow hfails with ⟨ho, hnone⟩ | ⟨ho, hended⟩
    · exact iff_of_false (by rw [hnone]; simp) (not_not.2 ho)
    · exact iff_of_true hended ho
  · intro clock hfails
    rcases txnCommit_fails clock h hfails with ⟨ho, hnone⟩ | ⟨ho, hended⟩
    · exact iff_of_false (by rw [hnone]; simp) (not_not.2 ho)
    · exact iff_of_true hended ho

/-- An environment in which views are updated by the code of `ViewUpdateBase`. -/
def updateEnv : Env :=
  { sampleEnv with
    computeResult := fun net v agg r link =>
      (ViewUpdate.computeResult ViewUpdate.borderLibs (fun _ _ => .empty) net v agg r link).toOption }

/-- A transaction in which a view with a PID without nodes was added. -/
def emptyPid : Option Server := do
  let (_, s) ← (initial updateEnv).txnBegin updateEnv .copyOnWrite [1]
  let (_, s) ← s.applyAll updateEnv 1
    [.viewAdd "isp", .viewAddPID "isp" "west" ⟨"isp.example", 1, false⟩]
  return s

/-- The deletion of a view that does not exist returns false. -/
theorem failing_action_ends_transaction_delete :
    ∃ s s', emptyPid = some s ∧
      s.txnApply updateEnv 1 (.viewDelete "other") = some (.ok none, s') ∧
      TxnEnded updateEnv 1 s' := by
  have hstart : ∃ s txn, emptyPid = some s ∧ Opened s 1 txn ∧ txn.type = .copyOnWrite ∧
      s.admin.unappliedChanges = [] ∧ ((Action.viewDelete "other").commit updateEnv).exec
        updateEnv.copying ⟨s.heap, txn⟩ = (.ok none, ⟨s.heap, txn⟩) :=
    ⟨_, _, rfl, ⟨rfl, by decide, rfl⟩, rfl, rfl, rfl⟩
  obtain ⟨s, txn, hs, hopened, hcow, hempty, hexec⟩ := hstart
  have hfails : FailsWith updateEnv (s.admin.unappliedChanges ++ [.viewDelete "other"])
      ⟨s.heap, txn⟩ (.ok none) := by
    rw [hempty]
    exact .here hexec (by simp)
  obtain ⟨s', hrun, hended⟩ :=
    ((failing_action_ends_transaction hopened).1 _ hcow hfails).2 (by simp)
  exact ⟨s, s', hs, hrun, hended⟩

/-- The update of the view throws for the PID without nodes, and the process ends. -/
theorem update_ends_the_process :
    ¬ ∀ (env : Env) (s : Server) (token : Nat) (txn : Txn) (a : Action)
      (o : Outcome (Option Action)), Opened s token txn → txn.type = .copyOnWrite →
      FailsWith env (s.admin.unappliedChanges ++ [a]) ⟨s.heap, txn⟩ o →
      ∃ s', s.txnApply env token a = some (.ok none, s') ∧ TxnEnded env token s' := by
  intro h
  have hstart : ∃ s txn w, emptyPid = some s ∧ Opened s 1 txn ∧ txn.type = .copyOnWrite ∧
      s.admin.unappliedChanges = [] ∧ ((Action.viewPDistanceUpdate "isp").commit updateEnv).exec
        updateEnv.copying ⟨s.heap, txn⟩ = (.undefined, w) ∧
      s.txnApply updateEnv 1 (.viewPDistanceUpdate "isp") = none :=
    ⟨_, _, _, rfl, ⟨rfl, by decide, rfl⟩, rfl, rfl, rfl, rfl⟩
  obtain ⟨s, txn, w, -, hopened, hcow, hempty, hexec, hnone⟩ := hstart
  have hfails : FailsWith updateEnv (s.admin.unappliedChanges ++ [.viewPDistanceUpdate "isp"])
      ⟨s.heap, txn⟩ .undefined := by
    rw [hempty]
    exact .here hexec (by simp)
  obtain ⟨s', hrun, -⟩ := h _ _ _ _ _ _ hopened hcow hfails
  rw [hnone] at hrun
  cases hrun

end Alto
