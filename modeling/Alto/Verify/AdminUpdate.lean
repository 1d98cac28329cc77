import Alto.Verify.AdminEffect
import Alto.Verify.OpenTxn

/-!
# The forced update of a view

`AdminViewPDistanceUpdate` takes the update interval that `do_update` returns for its success. A view
that is not updated periodically has the interval 0.
-/

namespace Alto

open Lib Prog Alto.Action

variable {env : Env} {type : TxnType} {T T₁ T' : ObjTree Payload} {w w' : Work Payload} {view : String}
  {i : Nat} {v : View} {intra inter : PIDMatrix}

/-! ## The installed matrices -/

/-- The view in a slot has these matrices. -/
structure Installed (T : ObjTree Payload) (i : Nat) (intra inter : PIDMatrix) : Prop where
  intra : T.payload (childPath i .intraPDistances) = some (.matrix intra)
  inter : T.payload (childPath i .interPDistances) = some (.matrix inter)

theorem installed_setPDistances : Installed (setPDistances env T i intra inter) i intra inter := by
  constructor
  · have hne : ¬ (ViewChild.interPDistances.idx :: viewPath i) <:+
        childPath i ViewChild.intraPDistances := by
      intro h
      have heq := h.eq_of_length rfl
      simp [childPath, ViewChild.idx] at heq
    rw [setPDistances, ObjTree.payload_setChild_other _ _ _ _ hne]
    exact ObjTree.payload_setChild_below T env.copying (viewPath i) ViewChild.intraPDistances.idx
      (some ⟨.matrix intra, []⟩) []
  · exact ObjTree.payload_setChild_below _ env.copying (viewPath i) ViewChild.interPDistances.idx
      (some ⟨.matrix inter, []⟩) []

/-- The computation on the objects of the transaction succeeds. -/
def Succeeds (env : Env) (T : ObjTree Payload) (i : Nat) : Prop :=
  ∃ v intra inter, Computes env T i v intra inter

/-- The action works on `T` and leaves `T'`: it has computed matrices and installed them. -/
def Updates (env : Env) (T T' : ObjTree Payload) (i : Nat) : Prop :=
  ∃ v intra inter, Computes env T i v intra inter ∧ Installed T' i intra inter

/-- What the action does: nothing if the computation fails; otherwise the matrices are installed, and
the update interval decides what it returns. -/
theorem post_viewPDistanceUpdate (hslot : Slot T view i)
    (hv : T.payload (viewPath i) = some (.view v)) :
    (viewPDistanceUpdateCommit env view).Post env.copying type T
      (fun r T' => ∃ T₁, Refs env.copying type T T₁ ∧
        ((¬ Succeeds env T₁ i ∧ T' = T₁ ∧ r = false) ∨
          (Succeeds env T₁ i ∧ Updates env T₁ T' i ∧ r = decide (v.updateInterval ≠ 0))))
      fun _ => True := by
  refine Post.bind (post_read fun T₁ h₁ => Post.bind (post_write fun T₂ h₂ => ?_))
  have h₂ := h₁.trans h₂
  refine Post.bind (post_getViewWrite (fun _ T₃ h₃ => ?_) fun _ _ _ => trivial)
  have h₃ := h₂.trans h₃.1
  refine Post.bind (post_getChildRead (fun _ T₄ h₄ => ?_) fun _ _ _ => trivial)
  have h₄ := h₃.trans h₄.1
  refine Post.bind (post_getChildRead (fun _ T₅ h₅ => ?_) fun _ _ _ => trivial)
  have h₅ := h₄.trans h₅.1
  refine Post.bind (post_getChildRead (fun _ T₆ h₆ => ?_) fun _ _ _ => trivial)
  have h₆ := h₅.trans h₆.1
  refine Post.bind (post_getChildRead (fun j T₇ h₇ => ?_) fun _ _ _ => trivial)
  have hrefs := h₆.trans h₇.1
  obtain rfl : i = j := (hrefs.slot hslot).eq h₇.2
  refine Post.bind (post_doUpdate (fun hfail => Post.pure ⟨T₇, hrefs, .inl ⟨?_, rfl, by simp⟩⟩)
    fun v' intra inter hc => Post.pure ⟨T₇, hrefs, .inr ⟨⟨v', intra, inter, hc⟩,
      ⟨v', intra, inter, hc, installed_setPDistances⟩, ?_⟩⟩)
  · rintro ⟨v', intra, inter, hc⟩
    exact hfail v' intra inter hc
  · -- a copy of the view keeps its update interval
    obtain ⟨-, hy, v'', rfl, hinterval⟩ := hrefs.payload_of
      (Q := fun y => ∃ v', y = .view v' ∧ v'.updateInterval = v.updateInterval) hv ⟨v, rfl, rfl⟩
      ⟨_, rfl, rfl⟩
    have hview := hc.view
    rw [hy] at hview
    obtain rfl : v'' = v' := by simpa using hview
    rw [hinterval]

/-- The action tells whether the update succeeded exactly if the view has an update interval or the
computation fails; and only then does a transaction with it abort exactly if the computation fails. -/
theorem forced_update_reports (hw : OpenTxn w) (hslot : Slot w.tree view i)
    (hv : w.tree.payload (viewPath i) = some (.view v)) {r : Bool}
    (hexec : (viewPDistanceUpdateCommit env view).exec env.copying w = (.ok r, w')) :
    ∃ T, Refs env.copying w.txn.type w.tree T ∧
      ((r = true ↔ Updates env T w'.tree i) ↔ v.updateInterval ≠ 0 ∨ ¬ Succeeds env T i) ∧
      (((∃ w₁ l l', Server.processChanges env [.viewPDistanceUpdate view] [] w =
          some (false, w₁, l, l')) ↔ ¬ Succeeds env T i) ↔
        v.updateInterval ≠ 0 ∨ ¬ Succeeds env T i) := by
  obtain ⟨T, hrefs, h⟩ := (post_viewPDistanceUpdate hslot hv).of_exec hw hexec
  have habort : (∃ w₁ l l', Server.processChanges env [.viewPDistanceUpdate view] [] w =
      some (false, w₁, l, l')) ↔ r = false := by
    have hcommit : ((viewPDistanceUpdate view).commit env).exec env.copying w =
        (.ok (if r then some (viewPDistanceUpdate view) else none), w') := exec_keep hexec
    rw [Server.processChanges, hcommit]
    cases r with
    | true => simp [Server.processChanges]
    | false => simp
  refine ⟨T, hrefs, ?_⟩
  rw [habort]
  rcases h with ⟨hfail, rfl, rfl⟩ | ⟨hok, hupdates, rfl⟩
  · have hno : ¬ Updates env w'.tree w'.tree i := by
      rintro ⟨v', intra, inter, hc, -⟩
      exact hfail ⟨v', intra, inter, hc⟩
    simp [hfail, hno]
  · simp [hok, hupdates]

/-- A view that is not updated periodically. -/
def onDemand : List Action := [.viewAdd "isp", .viewPropSet "isp" "update_interval" "0" false]

/-- A new view has an update interval. -/
theorem forced_update_reports_new :
    ∃ w w' T, sampleWork [.viewAdd "isp"] = some w ∧
      (viewPDistanceUpdateCommit Server.sampleEnv "isp").exec Server.sampleEnv.copying w =
        (.ok true, w') ∧ Updates Server.sampleEnv T w'.tree 0 := by
  have hstart : ∃ w w', sampleWork [.viewAdd "isp"] = some w ∧ Slot w.tree "isp" 0 ∧
      w.tree.payload (viewPath 0) = some (.view (.new "isp")) ∧
      (viewPDistanceUpdateCommit Server.sampleEnv "isp").exec Server.sampleEnv.copying w =
        (.ok true, w') :=
    ⟨_, _, rfl, ⟨_, rfl, rfl, rfl⟩, rfl, rfl⟩
  obtain ⟨w, w', hw, hslot, hv, hexec⟩ := hstart
  obtain ⟨T, -, hiff, -⟩ := forced_update_reports (openTxn_sampleWork hw) hslot hv hexec
  exact ⟨w, w', T, hw, hexec, (hiff.2 (.inl (by decide))).1 rfl⟩

/-- An environment in which every computation succeeds does so after references were taken. -/
theorem succeeds_of_refs (h : Refs Server.sampleEnv.copying type T T₁)
    (hnet : ∃ net, T.payload netPath = some (.netState net))
    (hview : ∃ v, T.payload (viewPath i) = some (.view v))
    (hagg : ∃ agg, T.payload (childPath i .aggregation) = some (.aggregation agg))
    (hrouting : ∃ r, T.payload (childPath i .intraRouting) = some (.routing r))
    (hlink : ∃ link, T.payload (childPath i .linkPDistances) = some (.matrix link)) :
    ∃ v, Computes Server.sampleEnv T₁ i v .empty .empty := by
  obtain ⟨net, hnet⟩ := hnet
  obtain ⟨v, hview⟩ := hview
  obtain ⟨agg, hagg⟩ := hagg
  obtain ⟨r, hrouting⟩ := hrouting
  obtain ⟨link, hlink⟩ := hlink
  obtain ⟨-, hnet₁, net₁, rfl⟩ := h.payload_of (Q := fun y => ∃ x, y = .netState x) hnet
    ⟨net, rfl⟩ ⟨_, rfl⟩
  obtain ⟨-, hview₁, v₁, rfl⟩ := h.payload_of (Q := fun y => ∃ x, y = .view x) hview ⟨v, rfl⟩
    ⟨_, rfl⟩
  obtain ⟨-, hagg₁, agg₁, rfl⟩ := h.payload_of (Q := fun y => ∃ x, y = .aggregation x) hagg
    ⟨agg, rfl⟩ ⟨_, rfl⟩
  obtain ⟨-, hrouting₁, r₁, rfl⟩ := h.payload_of (Q := fun y => ∃ x, y = .routing x) hrouting
    ⟨r, rfl⟩ ⟨_, rfl⟩
  obtain ⟨-, hlink₁, link₁, rfl⟩ := h.payload_of (Q := fun y => ∃ x, y = .matrix x) hlink
    ⟨link, rfl⟩ ⟨_, rfl⟩
  exact ⟨v₁, hview₁, net₁, agg₁, r₁, link₁, hnet₁, ⟨hagg₁, hrouting₁, hlink₁⟩, rfl⟩

/-- The matrices of a view with the update interval 0 are computed and installed, and the action
reports a failure. -/
theorem successful_update_reports_failure :
    ¬ ∀ (env : Env) (w w' : Work Payload) (view : String) (i : Nat) (v : View) (r : Bool),
      OpenTxn w → Slot w.tree view i → w.tree.payload (viewPath i) = some (.view v) →
      (viewPDistanceUpdateCommit env view).exec env.copying w = (.ok r, w') →
      ∃ T, Refs env.copying w.txn.type w.tree T ∧ (r = true ↔ Updates env T w'.tree i) := by
  intro h
  have hstart : ∃ w w' v, sampleWork onDemand = some w ∧ Slot w.tree "isp" 0 ∧
      w.tree.payload (viewPath 0) = some (.view v) ∧
      (viewPDistanceUpdateCommit Server.sampleEnv "isp").exec Server.sampleEnv.copying w =
        (.ok false, w') ∧ Installed w'.tree 0 .empty .empty ∧
      (∃ net, w.tree.payload netPath = some (.netState net)) ∧
      (∃ agg, w.tree.payload (childPath 0 .aggregation) = some (.aggregation agg)) ∧
      (∃ r, w.tree.payload (childPath 0 .intraRouting) = some (.routing r)) ∧
      ∃ link, w.tree.payload (childPath 0 .linkPDistances) = some (.matrix link) :=
    ⟨_, _, _, rfl, ⟨_, rfl, rfl, rfl⟩, rfl, rfl, ⟨rfl, rfl⟩, ⟨_, rfl⟩, ⟨_, rfl⟩, ⟨_, rfl⟩, ⟨_, rfl⟩⟩
  obtain ⟨w, w', v, hw, hslot, hv, hexec, hinstalled, hnet, hagg, hrouting, hlink⟩ := hstart
  obtain ⟨T, hrefs, hiff⟩ := h _ _ _ _ _ _ _ (openTxn_sampleWork hw) hslot hv hexec
  obtain ⟨v', hcomputes⟩ := succeeds_of_refs hrefs hnet ⟨v, hv⟩ hagg hrouting hlink
  exact absurd (hiff.2 ⟨v', .empty, .empty, hcomputes, hinstalled⟩) (by simp)

end Alto
