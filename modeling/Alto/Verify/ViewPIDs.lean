import Mathlib
import Alto.Verify.ViewConsistency

/-!
# The PIDs of a view

The aggregation of a view names its PIDs, and the other objects refer to them. `View::remove_pid`
takes a PID out of the aggregation, the routing and the link matrix, but not out of the PID map. Over
every run in which no PID is deleted that still has prefixes, the PID map refers to PIDs of the
aggregation too.
-/

namespace Alto

open Lib

/-! ## PID maps -/

namespace PIDMap

variable {m : PIDMap} {X : Set PID} {pid : PID}

/-- The PIDs that have prefixes. -/
def pids (m : PIDMap) : Set PID := {pid | m.hasPrefixes pid = true}

theorem Operated.inv (h : m.Operated) : PatriciaTrie.Inv m := by
  obtain ⟨ops, rfl⟩ := h
  exact PatriciaTrie.inv_run PatriciaTrie.inv_empty ops

theorem mem_pids (h : PatriciaTrie.Inv m) :
    pid ∈ m.pids ↔ ∃ e ∈ m.tree.walk, e.data = some pid := by
  show m.valCache.contains pid = true ↔ _
  rw [Std.ExtTreeMap.contains_iff_mem, StdMap.mem_iff_get, ← not_iff_not]
  simp only [not_exists, not_and]
  exact Option.eq_none_iff_forall_ne_some.symm.trans h.get_eq_none

theorem pids_empty : pids .empty = ∅ := by
  refine Set.eq_empty_iff_forall_notMem.2 fun pid hpid => ?_
  obtain ⟨e, he, -⟩ := (mem_pids PatriciaTrie.inv_empty).1 hpid
  cases he

theorem pids_add (h : PatriciaTrie.Inv m) (behind : Behind) (pfx : IPPrefix) :
    pids (m.add behind pfx pid).2 ⊆ insert pid m.pids := by
  rcases PatriciaTrie.add_spec h behind pfx pid with ⟨_, _, _, hadd⟩ | ⟨_, _, hinv, hperm⟩
  · rw [hadd]
    exact Set.subset_insert _ _
  · intro q hq
    obtain ⟨e, he, hd⟩ := (mem_pids hinv).1 hq
    rcases List.mem_cons.1 (hperm.mem_iff.1 he) with rfl | he
    · cases hd
      exact .inl rfl
    · exact .inr ((mem_pids h).2 ⟨e, he, hd⟩)

theorem pids_remove (h : PatriciaTrie.Inv m) (behind : Behind) (pfx : IPPrefix) :
    pids (m.remove behind pfx pid).2 ⊆ m.pids := by
  rcases PatriciaTrie.remove_spec h behind pfx pid with ⟨_, _, _, _, _, hinv, hperm⟩ | ⟨_, hrem⟩
  · intro q hq
    obtain ⟨e, he, hd⟩ := (mem_pids hinv).1 hq
    exact (mem_pids h).2 ⟨e, hperm.mem_iff.2 (List.mem_cons_of_mem _ he), hd⟩
  · rw [hrem]

theorem pids_removeVal (h : PatriciaTrie.Inv m) : pids (m.removeVal pid).2 ⊆ m.pids := by
  obtain ⟨-, hinv, hperm⟩ := PatriciaTrie.removeVal_spec h pid
  intro q hq
  obtain ⟨e, he, hd⟩ := (mem_pids hinv).1 hq
  exact (mem_pids h).2 ⟨e, List.mem_of_mem_filter (hperm.mem_iff.1 he), hd⟩

end PIDMap

/-- The PIDs of a matrix are those that it finds. -/
theorem PIDMatrix.IsTable.find_isSome {m : PIDMatrix} {X : Set PID} {pid : PID} (h : m.IsTable X) :
    (m.find pid).isSome = true ↔ pid ∈ X := by
  obtain ⟨S, t, ht, rfl⟩ := h
  rw [← ht.pids]
  constructor
  · intro hfind
    by_contra hno
    rw [ht.square.pids.find_none hno] at hfind
    cases hfind
  · intro hmem
    obtain ⟨i, hi, rfl⟩ := exists_index hmem
    rw [ht.square.pids.find hi]
    rfl

/-! ## Copies -/

namespace Payload

variable {env : Env} {x : Payload}

theorem aggregation_of_copyOf {agg : PIDAggregation} (h : x.copyOf env = .aggregation agg) :
    ∃ agg', x = .aggregation agg' ∧ agg = agg'.doCopyProperties := by
  cases x with
  | aggregation agg' =>
    cases h
    exact ⟨agg', rfl, rfl⟩
  | _ => cases h

theorem pidMap_of_copyOf {m : PIDMap} (h : x.copyOf env = .pidMap m) :
    ∃ m', x = .pidMap m' ∧ (PatriciaTrie.Inv m' → m = m') := by
  cases x with
  | pidMap m' =>
    cases h
    exact ⟨m', rfl, fun hinv => PatriciaTrie.copyFrom_eq hinv env.behind⟩
  | _ => cases h

end Payload

/-! ## Views -/

namespace ViewObjects

variable {env : Env} {v w : ViewObjects}

/-- The PID map refers to PIDs of the aggregation. -/
def Located (v : ViewObjects) : Prop :=
  ∀ agg m, v .aggregation = some (.aggregation agg) → v .prefixes = some (.pidMap m) →
    m.pids ⊆ agg.pids

/-- A PID map with fewer PIDs, or an aggregation with more. -/
theorem Located.mono (hv : v.Located)
    (hagg : ∀ agg, w .aggregation = some (.aggregation agg) →
      ∃ agg', v .aggregation = some (.aggregation agg') ∧ agg'.pids ⊆ agg.pids)
    (hm : ∀ m, w .prefixes = some (.pidMap m) →
      ∃ m', v .prefixes = some (.pidMap m') ∧ m.pids ⊆ m'.pids) : w.Located := by
  intro agg m hwagg hwm
  obtain ⟨agg', hvagg, hpids⟩ := hagg agg hwagg
  obtain ⟨m', hvm, hpids'⟩ := hm m hwm
  exact hpids'.trans ((hv agg' m' hvagg hvm).trans hpids)

/-- The PID map of a view that agrees comes from operations. -/
theorem Consistent.operated {m : PIDMap} (h : v.Consistent) (hm : v .prefixes = some (.pidMap m)) :
    m.Operated := by
  rcases h with h | ⟨_, m', _, _, -, hm', -, -, hagrees⟩
  · cases (h _ (by decide) (by decide)).symm.trans hm
  · cases hm'.symm.trans hm
    exact hagrees.prefixes

/-- An action on the aggregation that is no deletion keeps its PIDs. -/
theorem pids_child {T : ObjTree Payload} {i : Nat} {a : Action} {agg : PIDAggregation}
    {y : Bool × Payload} (h : Action.OnChild env T i a .aggregation (.aggregation agg) y) :
    ∃ agg', y.2 = .aggregation agg' ∧ agg'.pids = agg.pids := by
  cases h with
  | addNodes | deleteNodes | clearNodes => exact ⟨_, rfl, PIDAggregation.pids_updateVertices⟩
  | addLink => exact ⟨_, rfl, PIDAggregation.pids_defineLink⟩
  | deleteLink => exact ⟨_, rfl, PIDAggregation.pids_undefineLink⟩

/-- An action on the PID map adds prefixes only to a PID of the aggregation. -/
theorem located_child {T : ObjTree Payload} {i : Nat} {a : Action} {agg : PIDAggregation}
    {m : PIDMap} {y : Bool × Payload} (h : Action.OnChild env T i a .prefixes (.pidMap m) y)
    (hagg : T.objects i .aggregation = some (.aggregation agg)) (hm : m.Operated)
    (hpids : m.pids ⊆ agg.pids) : ∃ m', y.2 = .pidMap m' ∧ m'.pids ⊆ agg.pids := by
  have hloop : ∀ {f : PIDMap → IPPrefix → Bool × PIDMap} (prefixes : List IPPrefix),
      (∀ m pfx, m.Operated → (f m pfx).2.Operated ∧
        (m.pids ⊆ agg.pids → (f m pfx).2.pids ⊆ agg.pids)) →
      (Action.changePrefixes f m prefixes).2.pids ⊆ agg.pids := fun prefixes hf =>
    (PIDMap.keeps_changePrefixes (I := fun m => m.Operated ∧ m.pids ⊆ agg.pids) ⟨hm, hpids⟩
      (fun m pfx h => ⟨(hf m pfx h.1).1, (hf m pfx h.1).2 h.2⟩) prefixes).2
  cases h with
  | addPrefixes hp =>
    refine ⟨_, rfl, hloop _ fun m pfx hm => ⟨hm.op env.behind (.add pfx _), fun h => ?_⟩⟩
    exact (PIDMap.pids_add hm.inv _ _).trans (Set.insert_subset (named_mem hp hagg) h)
  | deletePrefixes hp =>
    refine ⟨_, rfl, hloop _ fun m pfx hm => ⟨hm.op env.behind (.remove pfx _), fun h => ?_⟩⟩
    exact (PIDMap.pids_remove hm.inv _ _).trans h
  | clearPrefixes hp => exact ⟨_, rfl, (PIDMap.pids_removeVal hm.inv).trans hpids⟩

end ViewObjects

/-- A PID is deleted only if it has no prefixes. -/
def Action.DeletesUnused (T : ObjTree Payload) : Action → Prop
  | .viewDeletePID view name => ∀ (i : Nat) (pid : PID) (m : PIDMap), Slot T view i →
    Named T i name pid → T.objects i .prefixes = some (.pidMap m) → m.hasPrefixes pid = false
  | _ => True

namespace ViewObjects

variable {env : Env} {v w : ViewObjects}

/-- Every step of a view that deletes no PID with prefixes keeps the PID map in the aggregation. -/
theorem Located.step (h : ViewStep env Action.DeletesUnused v w) (hc : v.Consistent)
    (hv : v.Located) : w.Located := by
  cases h with
  | refs h =>
    refine hv.mono (fun agg hagg => ?_) fun m hm => ?_
    · rcases h .aggregation with heq | ⟨x, hx, hcopy⟩
      · exact ⟨agg, heq ▸ hagg, subset_rfl⟩
      · obtain ⟨agg', rfl, rfl⟩ :=
          Payload.aggregation_of_copyOf (Option.some.inj (hcopy.symm.trans hagg))
        exact ⟨agg', hx, subset_rfl⟩
    · rcases h .prefixes with heq | ⟨x, hx, hcopy⟩
      · exact ⟨m, heq ▸ hm, subset_rfl⟩
      · obtain ⟨m', rfl, hcopied⟩ :=
          Payload.pidMap_of_copyOf (Option.some.inj (hcopy.symm.trans hm))
        refine ⟨m', hx, ?_⟩
        rw [hcopied (hc.operated hx).inv]
  | copied h =>
    refine hv.mono (fun agg hagg => ?_) fun m hm => ?_
    · have hmap := h .aggregation
      rw [hagg] at hmap
      obtain ⟨x, hx, hget⟩ := Option.map_eq_some_iff.1 hmap.symm
      cases x <;> cases hget
      exact ⟨agg, hx, subset_rfl⟩
    · have hmap := h .prefixes
      rw [hm] at hmap
      obtain ⟨x, hx, hget⟩ := Option.map_eq_some_iff.1 hmap.symm
      cases x <;> cases hget
      exact ⟨m, hx, subset_rfl⟩
  | install =>
    intro agg m _ hm
    cases hm
    rw [PIDMap.pids_empty]
    exact Set.empty_subset _
  | remove =>
    intro agg m hagg _
    cases hagg
  | update h =>
    refine hv.mono (fun agg hagg => ⟨agg, ?_, subset_rfl⟩) fun m hm => ⟨m, ?_, subset_rfl⟩
    · rwa [h _ (by decide) (by decide)] at hagg
    · rwa [h _ (by decide) (by decide)] at hm
  | addPID hagg hr hlink h hw =>
    intro agg' m hagg' hm
    cases hw.aggregation.symm.trans hagg'
    rw [hw.other _ (by decide) (by decide) (by decide)] at hm
    rw [PIDAggregation.pids_add h]
    exact (hv _ m hagg hm).trans (Set.subset_insert _ _)
  | @deletePID T i view pid _ _ pidObj agg r r' link hagg hr hlink h hw ha hT hs hn =>
    subst hT
    intro agg' m hagg' hm
    cases hw.aggregation.symm.trans hagg'
    rw [hw.other _ (by decide) (by decide) (by decide)] at hm
    have hunused : m.hasPrefixes pidObj = false := ha i pidObj m hs hn hm
    rw [PIDAggregation.pids_remove]
    refine fun q hq => ⟨hv _ m hagg hm hq, ?_⟩
    rintro rfl
    cases hunused.symm.trans hq
  | @child T i _ a c x y _ hT hx h =>
    subst hT
    intro agg m hagg hm
    by_cases hcagg : c = .aggregation
    · subst hcagg
      rw [Function.update_of_ne (by decide)] at hm
      rw [Function.update_self] at hagg
      cases x with
      | aggregation agg₀ =>
        obtain ⟨agg', hy, hpids⟩ := pids_child h
        cases (Option.some.inj hagg).symm.trans hy
        rw [hpids]
        exact hv _ m hx hm
      | _ => cases h
    · rw [Function.update_of_ne (Ne.symm hcagg)] at hagg
      by_cases hcm : c = .prefixes
      · subst hcm
        rw [Function.update_self] at hm
        cases x with
        | pidMap m₀ =>
          obtain ⟨m', hy, hpids⟩ := located_child h hagg (hc.operated hx) (hv _ m₀ hagg hx)
          cases (Option.some.inj hm).symm.trans hy
          exact hpids
        | _ => cases h
      · rw [Function.update_of_ne (Ne.symm hcm)] at hm
        exact hv agg m hagg hm

end ViewObjects

/-! ## References -/

namespace Refs

variable {env : Env} {type : TxnType} {T T₁ : ObjTree Payload}

/-- An object is the one from before the references, or a copy of it. -/
theorem payload_back (h : Refs env.copying type T T₁) {p : Path} {y : Payload}
    (hy : T₁.payload p = some y) : ∃ x, T.payload p = some x ∧ (y = x ∨ y = x.copyOf env) := by
  rcases h.payload_cases p with ⟨-, hn⟩ | ⟨x, x₁, hx, hx₁, hxy⟩
  · rw [ObjTree.payload, hn] at hy
    cases hy
  · have hpayload : T₁.payload p = some x₁.payload := ObjTree.payload_of_cells hx₁
    obtain rfl := Option.some.inj (hpayload.symm.trans hy)
    refine ⟨x.payload, ObjTree.payload_of_cells hx, ?_⟩
    rcases hxy with ⟨hp, -⟩ | ⟨-, -, -, hp⟩
    · exact .inl hp
    · exact .inr hp

theorem slot_back (h : Refs env.copying type T T₁) {view : String} {i : Nat} (hs : Slot T₁ view i) :
    Slot T view i := by
  obtain ⟨views, hviews, hi, hcell⟩ := hs
  obtain ⟨x, hx, hxy⟩ := h.payload_back hviews
  have hregistry : x = .viewRegistry views := by
    rcases hxy with rfl | hcopy
    · rfl
    · cases x <;> cases hcopy
      rfl
  subst hregistry
  refine ⟨views, hx, hi, ?_⟩
  rcases h.payload_cases (viewPath i) with ⟨-, hn⟩ | ⟨y, -, hy, -, -⟩
  · rw [hn] at hcell
    cases hcell
  · rw [hy]
    rfl

theorem named_back (h : Refs env.copying type T T₁) {i : Nat} {name : String} {pid : PID}
    (hn : Named T₁ i name pid) : Named T i name pid := by
  obtain ⟨agg, hagg, hlookup, hvalid⟩ := hn
  obtain ⟨x, hx, rfl | hcopy⟩ := h.payload_back hagg
  · exact ⟨agg, hx, hlookup, hvalid⟩
  · obtain ⟨agg', rfl, rfl⟩ := Payload.aggregation_of_copyOf hcopy.symm
    exact ⟨agg', hx, hlookup, hvalid⟩

end Refs

/-- References do not change which PIDs have prefixes. -/
theorem deletesUnused_kept (env : Env) :
    KeptByRefs env Action.DeletesUnused fun v => v.Consistent ∧ v.Located := by
  intro type T T₁ a hT h ha
  cases a with
  | viewDeletePID view name =>
    intro i pid m hs hn hm
    refine ha i pid m (h.slot_back hs) (h.named_back hn) ?_
    obtain ⟨x, hx, rfl | hcopy⟩ := h.payload_back hm
    · exact hx
    · obtain ⟨m₀, rfl, hcopied⟩ := Payload.pidMap_of_copyOf hcopy.symm
      rw [hcopied ((hT i).1.operated hx).inv]
      exact hx
  | _ => trivial

/-! ## Runs -/

/-- The PIDs of the objects of a view: the aggregation, the link matrix and the weights have the same
ones; the PID map, the links and the static routes refer to these; and each has one name. -/
structure PIDsAgree (agg : PIDAggregation) (m : PIDMap) (r : PIDRouting) (link : PIDMatrix) :
    Prop where
  link : ∀ pid, (link.find pid).isSome = true ↔ agg.has pid = true
  weights : ∀ pid, (r.weights.find pid).isSome = true ↔ agg.has pid = true
  prefixes : ∀ pid, m.hasPrefixes pid = true → agg.has pid = true
  links : ∀ name src dst, agg.getLink name = some (src, dst) →
    agg.has src = true ∧ agg.has dst = true
  routes : ∀ route ∈ r.staticRoutes, ∀ pid ∈ route.route, agg.has pid = true
  names : ∀ name pid, agg.hasName name = true ∧ agg.lookup name = pid ↔
    agg.reverseLookup pid = some name

/-- There is no view, or the PIDs of its objects agree. -/
def ViewObjects.PIDsConsistent (v : ViewObjects) : Prop :=
  (∀ c, c ≠ .intraPDistances → c ≠ .interPDistances → v c = none) ∨ ∃ agg m r link,
    v .aggregation = some (.aggregation agg) ∧ v .prefixes = some (.pidMap m) ∧
    v .intraRouting = some (.routing r) ∧ v .linkPDistances = some (.matrix link) ∧
    PIDsAgree agg m r link

/-- PIDs and names are in one-to-one correspondence. -/
theorem PIDAggregation.lookup_iff {agg : PIDAggregation} {name : String} {pid : PID} :
    agg.hasName name = true ∧ agg.lookup name = pid ↔ agg.reverseLookup pid = some name := by
  constructor
  · rintro ⟨hname, rfl⟩
    obtain ⟨pid, hpid⟩ := Option.isSome_iff_exists.1 hname
    obtain ⟨r, hr, rfl⟩ := PIDRecords.findName_eq_some.1 hpid
    rw [lookup, hpid, Option.getD_some, reverseLookup, hr]
    rfl
  · intro h
    obtain ⟨r, hr, rfl⟩ := Option.map_eq_some_iff.1 h
    have hfind := PIDRecords.findName_eq_some.2 ⟨r, hr, rfl⟩
    rw [hasName, lookup, hfind]
    exact ⟨rfl, rfl⟩

theorem ViewObjects.Consistent.pids {v : ViewObjects} (h : v.Consistent) (hv : v.Located) :
    v.PIDsConsistent := by
  rcases h with h | ⟨agg, m, r, link, hagg, hm, hr, hlink, h⟩
  · exact .inl h
  · refine .inr ⟨agg, m, r, link, hagg, hm, hr, hlink, fun pid => h.link.find_isSome,
      fun pid => h.routing.weights.find_isSome, fun pid hpid => hv agg m hagg hm hpid, h.links, ?_,
      fun _ _ => PIDAggregation.lookup_iff⟩
    rw [h.routing.routes]
    exact List.forall_mem_nil _

namespace Server

variable {env : Env} {s s' : Server} {events : List Event}

/-- Over every run that deletes no PID with prefixes, the PIDs of every view agree. -/
theorem view_pids_agree {clock : Nat → Nat} (hinit : init env clock = some s)
    (hr : Run (react env) (Event.Meets env Action.DeletesUnused) s events s') (i : Nat) :
    (s'.tree.objects i).PIDsConsistent := by
  have hviews := (views_of_meets (Q := fun v => v.Consistent ∧ v.Located)
    (fun v w h hv => ⟨hv.1.step h, hv.2.step h hv.1⟩) (deletesUnused_kept env)
    ⟨.inl fun _ _ _ => rfl, fun _ _ h => nomatch h⟩ hinit hr).2
  exact (hviews i).1.pids (hviews i).2

/-- The PIDs of `linkedView` agree. -/
theorem view_pids_agree_linked : ∃ s : Server, s.ViewAt 1 (linkedView 5) ∧
    (s.tree.objects 1).PIDsConsistent := by
  have hlinked : LinkedServer 5 := by decide +kernel
  obtain ⟨s, hs, hobjects⟩ := Option.map_eq_some_iff.1 hlinked
  obtain ⟨s₀, hinit, hreact⟩ := Option.bind_eq_some_iff.1 hs
  simp only [List.cons.injEq, and_true] at hobjects
  obtain ⟨hprefixes, hagg, hlink, hrouting⟩ := hobjects
  have hmeets : (linkEvent 5).Meets sampleEnv Action.DeletesUnused s₀ := by
    refine fun _ => actionsMeet_of_forall fun a ha T => ?_
    simp only [List.mem_cons, List.not_mem_nil, or_false] at ha
    rcases ha with rfl | rfl | rfl | rfl | rfl <;> trivial
  exact ⟨s, ⟨hprefixes, hagg, hlink, hrouting⟩,
    view_pids_agree hinit (.cons hmeets hreact (.nil _)) 1⟩

/-! ## A deleted PID -/

/-- A PID with a prefix is added and deleted. -/
def deleteEvent : Event :=
  .transact (fun _ => 0) .copyOnWrite [1] [.viewAdd "isp", .viewAddPID "isp" "a" Portal.onePid,
    .viewAddPIDPrefixes "isp" "a" [PatriciaTrie.ten8], .viewDeletePID "isp" "a"]

/-- The server after the transaction. -/
def deletedServer : Option Server :=
  (init sampleEnv fun _ => 0).bind fun s => react sampleEnv s deleteEvent

/-- The prefix has stayed, and the aggregation is empty. -/
theorem objects_deletedServer : deletedServer.map (fun s =>
    [s.tree.objects 1 .prefixes, s.tree.objects 1 .aggregation]) =
    some [some (.pidMap (linkedView 5).prefixes), some (.aggregation .empty)] := by
  decide +kernel

/-- The PID map refers to a PID that has been deleted. -/
theorem view_pids_disagree :
    ¬ ∀ (env : Env) (clock : Nat → Nat) (s s' : Server) (events : List Event) (i : Nat),
      init env clock = some s → Run (react env) (fun _ _ => True) s events s' →
      (s'.tree.objects i).PIDsConsistent := by
  intro hall
  obtain ⟨s, hs, hobjects⟩ := Option.map_eq_some_iff.1 objects_deletedServer
  obtain ⟨s₀, hinit, hreact⟩ := Option.bind_eq_some_iff.1 hs
  simp only [List.cons.injEq, and_true] at hobjects
  obtain ⟨hprefixes, hagg⟩ := hobjects
  rcases hall sampleEnv _ s₀ s _ 1 hinit (.cons trivial hreact (.nil _)) with
    h | ⟨agg, m, _, _, hagg', hm, -, -, h⟩
  · cases (h _ (by decide) (by decide)).symm.trans hagg
  · cases hagg.symm.trans hagg'
    cases hprefixes.symm.trans hm
    have hpid : (linkedView 5).prefixes.hasPrefixes Portal.onePid = true := by decide +kernel
    cases h.prefixes Portal.onePid hpid

end Server

end Alto
