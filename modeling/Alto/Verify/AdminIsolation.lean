import Alto.Lib.Run
import Alto.Verify.AdminRun
import Alto.Verify.Isolation

/-!
# Rolled back transactions

No call on `AdminState` but a successful commit changes what a reader of `GLOBAL_STATE` sees, as
long as transactions are copy-on-write. Copying a `PIDRouting` does write to the object that is
copied, but only to its private index of static routes, which no getter shows.
-/

namespace Alto

open Lib

/-- What the getters of an object show: everything but `static_route_ptrs_`. -/
def Payload.getters : Payload → Payload
  | routing r => routing { r with staticRoutePtrs := [] }
  | x => x

theorem Payload.getters_leave (x : Payload) : x.leave.getters = x.getters := by
  cases x with
  | routing r =>
    simp only [leave, getters, PIDRouting.afterCopyProperties]
    split <;> rfl
  | _ => rfl

namespace Server

/-- The calls that the protocol handlers and the monitor thread make. -/
inductive Call where
  | txnBegin (type : TxnType) (rng : List Nat)
  | txnApply (token : Nat) (action : Action)
  | txnCommit (token : Nat) (clock : Nat → Nat)
  | txnRollback (token : Nat)

/-- The state after a call. -/
def call (env : Env) (s : Server) : Call → Option Server
  | .txnBegin type rng => (s.txnBegin env type rng).map (·.2)
  | .txnApply token action => (s.txnApply env token action).map (·.2)
  | .txnCommit token clock => (s.txnCommit env clock token).map (·.2)
  | .txnRollback token => (s.txnRollback token).map (·.2)

/-- Transactions are copy-on-write, and no commit returns true. -/
def Uncommitted (env : Env) (s : Server) : Call → Prop
  | .txnBegin type _ => type = .copyOnWrite
  | .txnCommit token clock => ∀ s', s.txnCommit env clock token ≠ some (.ok true, s')
  | _ => True

/-- The transaction that is open in `s`, if any, is isolated from the objects of `h₀`. -/
structure Quiet (h₀ : Heap Payload) (g : Nat) (s : Server) : Prop where
  globalState : s.globalState = g
  kept : h₀.Kept Payload.getters s.heap
  txn : ∀ txn, s.admin.txn = some txn →
    ∃ h, h₀.Kept Payload.getters h ∧ Isolated Payload.getters h ⟨s.heap, txn⟩

variable {env : Env} {s s' : Server} {h₀ h : Heap Payload} {g : Nat} {w w' : Work Payload}

theorem kept_endWrite {locks : StdSet Nat} (hk : h₀.Kept Payload.getters h)
    (hl : ∀ a ∈ locks, h₀.length ≤ a) : h₀.Kept Payload.getters (endWrite h locks) := by
  have hl' : ∀ a ∈ locks.toList, h₀.length ≤ a := fun a ha => hl a (by simpa using ha)
  unfold endWrite
  generalize locks.toList = l at hl'
  induction l generalizing h with
  | nil => exact hk
  | cons a l ih =>
    exact ih (hk.modify (hl' a List.mem_cons_self) _) fun b hb => hl' b (List.mem_cons_of_mem a hb)

/-- Ending an isolated transaction. -/
theorem quiet_clearTxnState (hg : s.globalState = g) (hk : h₀.Kept Payload.getters h)
    (hw : Isolated Payload.getters h w) : Quiet h₀ g (s.clearTxnState w) where
  globalState := hg
  kept := hk.trans (kept_endWrite hw.kept hw.writeLocks)
  txn txn h := by cases h

theorem isolated_processChanges {b : Bool} {unapplied applied ul al : List Action}
    (hw : Isolated Payload.getters h w)
    (hp : processChanges env unapplied applied w = some (b, w', ul, al)) :
    Isolated Payload.getters h w' := by
  induction unapplied generalizing applied w with
  | nil =>
    cases hp
    exact hw
  | cons a unapplied ih =>
    have hexec := hw.exec (c := env.copying) Payload.getters_leave (a.commit env)
    rw [processChanges] at hp
    split at hp
    · next he => exact ih (by rwa [he] at hexec) hp
    · next he =>
      cases hp
      rw [he] at hexec
      rwa [rollbackChanges_eq]
    · next he =>
      cases hp
      rw [he] at hexec
      rwa [rollbackChanges_eq]
    · cases hp

/-- The start of a copy-on-write transaction. -/
theorem isolated_txnBegin (env : Env) (ht : s.heap.Treelike s.globalState) {o : Obj Payload} {txn : Txn}
    (ho : s.heap[s.globalState]? = some o)
    (htxn : txn = ⟨.copyOnWrite, s.heap.length,
      .ofList (s.heap.collect s.globalState) compare, {s.heap.length}⟩) :
    Isolated Payload.getters s.heap
      ⟨s.heap.modify s.globalState (·.afterCopy env.copying) ++
        [o.copy env.copying s.heap.length], txn⟩ := by
  have hunseen : ∀ o : Obj Payload,
      (o.afterCopy env.copying).seen Payload.getters = o.seen Payload.getters := fun o => by
    simp only [Obj.seen, Obj.afterCopy, Env.copying, Payload.getters_leave]
  have hmem : ∀ a, a ∈ txn.oldStateLocks ↔
      ∃ p, resolve s.heap.links s.globalState p = some a := by
    intro a
    rw [htxn, ← ht.mem_collect]
    simp
  have hstep : ∀ a i b, a ∈ txn.oldStateLocks → s.heap.links a i = some b →
      b ∈ txn.oldStateLocks := by
    intro a i b ha hab
    obtain ⟨p, hp⟩ := (hmem a).1 ha
    exact (hmem b).2 ⟨i :: p, by simp [resolve_cons, hp, hab]⟩
  have hlt : ∀ a ∈ txn.oldStateLocks, a < s.heap.length := by
    intro a ha
    obtain ⟨p, hp⟩ := (hmem a).1 ha
    exact ht.resolve_lt hp
  refine ⟨.trans (.modify_unseen _ hunseen) (.append _), by rw [htxn], by simp [htxn], ?_, ?_⟩
  · intro a ha
    rw [htxn] at ha
    exact (StdSet.mem_singleton.1 ha).ge
  · rintro a i b ha hab
    rw [Heap.links] at hab
    by_cases hlen : a < s.heap.length
    · have hlinks : s.heap.links a i = some b := by
        rw [List.getElem?_append_left (by simpa using hlen)] at hab
        rw [← Heap.links_afterCopy (a := s.globalState) (c := env.copying)]
        exact hab
      exact Or.inl (hstep a i b (ha.resolve_right (by simpa using hlen)) hlinks)
    · -- the only new object is the copy of the root, with the children of the root
      obtain ⟨n, rfl⟩ := Nat.exists_eq_add_of_le (Nat.le_of_not_lt hlen)
      rw [List.getElem?_append_right (by simp)] at hab
      cases n with
      | zero =>
        have hlinks : s.heap.links s.globalState i = some b := by
          rw [Heap.links, ho]
          simpa [Obj.copy, Obj.getChild] using hab
        exact Or.inl (hstep _ i b ((hmem _).2 ⟨[], rfl⟩) hlinks)
      | succ n => simp at hab

theorem treelike_of_kept (hk : h₀.Kept Payload.getters h) (ht : h₀.Treelike g) : h.Treelike g := by
  have hres : ∀ p, resolve h.links g p = resolve h₀.links g p :=
    resolve_congr fun p a hp i => hk.links (ht.resolve_lt hp) i
  constructor
  · intro p a hp
    rw [hres] at hp
    exact (ht.resolve_lt hp).trans_le hk.1
  · intro p q a hp hq
    rw [hres] at hp hq
    exact ht.unshared p q a hp hq

theorem quiet_call (env : Env) (ht : h₀.Treelike g) (hq : Quiet h₀ g s) {c : Call} (hc : Uncommitted env s c)
    (h : s.call env c = some s') : Quiet h₀ g s' := by
  cases c with
  | txnBegin type rng =>
    obtain ⟨⟨r, s''⟩, hb, rfl⟩ := Option.map_eq_some_iff.1 h
    unfold txnBegin at hb
    split at hb
    · cases hb
      exact hq
    · split at hb
      · cases hb
        exact hq
      · obtain ⟨o, ho, hb⟩ := Option.bind_eq_some_iff.1 hb
        cases hb
        have htree : s.heap.Treelike s.globalState := by
          rw [hq.globalState]
          exact treelike_of_kept hq.kept ht
        obtain rfl : type = .copyOnWrite := hc
        have hiso := isolated_txnBegin env htree ho rfl
        refine ⟨hq.globalState, hq.kept.trans hiso.kept, ?_⟩
        rintro txn ⟨rfl⟩
        exact ⟨s.heap, hq.kept, hiso⟩
  | txnApply token action =>
    obtain ⟨⟨r, s''⟩, hb, rfl⟩ := Option.map_eq_some_iff.1 h
    unfold txnApply at hb
    split at hb
    · cases hb
      exact hq
    · obtain ⟨txn, htxn, hb⟩ := Option.bind_eq_some_iff.1 hb
      obtain ⟨h₁, hk, hiso⟩ := hq.txn txn htxn
      have htype : txn.type = .copyOnWrite := hiso.type
      dsimp only at hb
      rw [htype] at hb
      obtain ⟨⟨b, w, ul, al⟩, hp, hb⟩ := Option.bind_eq_some_iff.1 hb
      have hw := isolated_processChanges hiso hp
      cases b
      · cases hb
        exact quiet_clearTxnState hq.globalState hk hw
      · cases hb
        refine ⟨hq.globalState, hk.trans hw.kept, ?_⟩
        rintro txn ⟨rfl⟩
        exact ⟨h₁, hk, hw⟩
  | txnCommit token clock =>
    obtain ⟨⟨r, s''⟩, hb, rfl⟩ := Option.map_eq_some_iff.1 h
    have hb' := hb
    unfold txnCommit at hb
    split at hb
    · cases hb
      exact hq
    · obtain ⟨txn, htxn, hb⟩ := Option.bind_eq_some_iff.1 hb
      obtain ⟨h₁, hk, hiso⟩ := hq.txn txn htxn
      obtain ⟨⟨b, w, ul, al⟩, hp, hb⟩ := Option.bind_eq_some_iff.1 hb
      have hw := isolated_processChanges hiso hp
      cases b
      · cases hb
        exact quiet_clearTxnState hq.globalState hk hw
      · obtain ⟨s₁, -, hb⟩ := Option.bind_eq_some_iff.1 hb
        cases hb
        exact absurd hb' (hc _)
  | txnRollback token =>
    obtain ⟨⟨r, s''⟩, hb, rfl⟩ := Option.map_eq_some_iff.1 h
    unfold txnRollback at hb
    split at hb
    · cases hb
      exact hq
    · obtain ⟨txn, htxn, hb⟩ := Option.bind_eq_some_iff.1 hb
      obtain ⟨h₁, hk, hiso⟩ := hq.txn txn htxn
      cases hb
      exact quiet_clearTxnState hq.globalState hk hiso

theorem quiet_start (hclear : s.admin = .clear) : Quiet s.heap s.globalState s := by
  refine ⟨rfl, .refl _, fun txn h => ?_⟩
  rw [hclear] at h
  cases h

/-- The objects below `GLOBAL_STATE` are found where they were, and look the same. -/
theorem Quiet.findLive (ht : s.heap.Treelike s.globalState) (hq : Quiet s.heap s.globalState s')
    (p : Path) :
    (s'.findLive p).map (fun x => (x.1, x.2.seen Payload.getters)) =
      (s.findLive p).map (fun x => (x.1, x.2.seen Payload.getters)) := by
  have hres : resolve s'.heap.links s.globalState p = resolve s.heap.links s.globalState p :=
    resolve_congr (fun p a hp i => hq.kept.links (ht.resolve_lt hp) i) p
  rw [Server.findLive, Server.findLive, hq.globalState, Heap.find, Heap.find, hres]
  cases hp : resolve s.heap.links s.globalState p with
  | none => rfl
  | some a =>
    have hseen := hq.kept.2 a (ht.resolve_lt hp)
    cases h1 : s'.heap[a]? <;> cases h2 : s.heap[a]? <;> simp_all

/-- Isolation: from a state with no open transaction, in which the objects form a tree below
`GLOBAL_STATE`, no sequence of calls without a successful commit changes an object that was there,
or the path to it. -/
theorem cow_transactions_isolated (env : Env) (s s' : Server) (calls : List Call)
    (ht : s.heap.Treelike s.globalState) (hclear : s.admin = .clear)
    (hr : Run (call env) (Uncommitted env) s calls s') :
    s'.globalState = s.globalState ∧ s.heap.Kept Payload.getters s'.heap ∧
      ∀ p, (s'.findLive p).map (fun x => (x.1, x.2.seen Payload.getters)) =
        (s.findLive p).map (fun x => (x.1, x.2.seen Payload.getters)) := by
  have hq := hr.invariant (I := Quiet s.heap s.globalState) (quiet_start hclear)
    fun s₁ c s₂ hq hc h => quiet_call env ht hq hc h
  exact ⟨hq.globalState, hq.kept, hq.findLive ht⟩

/-- An environment without plugins, for views without PIDs. -/
def sampleEnv : Env where
  behind _ _ := false
  junk _ := 0
  getInstance _ := false
  lexicalCast :=
    { ofDouble := fun _ => ""
      ofBool := fun b => if b then "1" else "0"
      ofUnsigned := toString
      toDouble := fun _ => none
      toBool := fun s => if s = "1" then some true else if s = "0" then some false else none
      toUnsigned := fun s => if s = "60" then some 60 else if s = "0" then some 0 else none }
  computeResult _ _ _ _ _ := some (some (.empty, .empty))

/-- A transaction that adds a view with a PID, fails to delete another view and ends with that, and
one that is rolled back. -/
def sampleCalls : List Call :=
  [.txnBegin .copyOnWrite [1], .txnApply 1 (.viewAdd "isp"),
    .txnApply 1 (.viewAddPID "isp" "west" ⟨"isp.example", 1, false⟩),
    .txnApply 1 (.viewDelete "other"), .txnBegin .copyOnWrite [0, 2],
    .txnApply 2 (.netNodeAdd "router" false), .txnRollback 2]

theorem cow_transactions_isolated_sample :
    ∃ s', Run (call sampleEnv) (Uncommitted sampleEnv) (initial sampleEnv) sampleCalls s' ∧
      s'.heap.length = 14 ∧ (initial sampleEnv).heap.Kept Payload.getters s'.heap := by
  have hrun : ∃ s', Run (call sampleEnv) (Uncommitted sampleEnv) (initial sampleEnv) sampleCalls s' ∧
      s'.heap.length = 14 := by
    refine ⟨_, .cons rfl rfl (.cons trivial rfl (.cons trivial rfl (.cons trivial rfl (.cons rfl rfl
      (.cons trivial rfl (.cons trivial rfl (.nil _))))))), ?_⟩
    rfl
  obtain ⟨s', hr, hlen⟩ := hrun
  exact ⟨s', hr, hlen, (cow_transactions_isolated sampleEnv _ s' sampleCalls
    (idle_initial sampleEnv).tree rfl hr).2.1⟩

/-! ## Failed transactions -/

theorem quiet_applyAll (ht : h₀.Treelike g) (hq : Quiet h₀ g s) {token : Nat}
    {actions : List Action} {b : Bool} (h : applyAll env token actions s = some (b, s')) :
    Quiet h₀ g s' := by
  induction actions generalizing s with
  | nil =>
    cases h
    exact hq
  | cons a actions ih =>
    obtain ⟨⟨r, s₁⟩, ha, h⟩ := Option.bind_eq_some_iff.1 h
    have hq₁ : Quiet h₀ g s₁ :=
      quiet_call env (c := .txnApply token a) ht hq trivial (by simp [call, ha])
    match r, h with
    | .ok (some _), h => exact ih hq₁ h
    | .ok none, h | .error _, h =>
      cases h
      exact hq₁

theorem quiet_transact {clock : Nat → Nat} {rng : List Nat} {actions : List Action}
    (ht : s.heap.Treelike s.globalState) (hclear : s.admin = .clear)
    (h : s.transact env clock .copyOnWrite rng actions = some (.ok false, s')) :
    Quiet s.heap s.globalState s' := by
  obtain ⟨⟨r, s₁⟩, hb, h⟩ := Option.bind_eq_some_iff.1 h
  have hq₁ : Quiet s.heap s.globalState s₁ :=
    quiet_call env (c := .txnBegin .copyOnWrite rng) ht (quiet_start hclear) rfl
      (by simp [call, hb])
  match r, h with
  | .error _, h => cases h
  | .ok token, h =>
    obtain ⟨⟨b, s₂⟩, happly, h⟩ := Option.bind_eq_some_iff.1 h
    have hq₂ := quiet_applyAll ht hq₁ happly
    match b, h with
    | false, h =>
      cases h
      exact hq₂
    | true, h =>
      have hfalse : ∀ s₃, s₂.txnCommit env clock token ≠ some (.ok true, s₃) := fun s₃ h₃ => by
        cases h.symm.trans h₃
      exact quiet_call env (c := .txnCommit token clock) ht hq₂ hfalse
        (by simp [call, show s₂.txnCommit env clock token = _ from h])

end Server

end Alto
