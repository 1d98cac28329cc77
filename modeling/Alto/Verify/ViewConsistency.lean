import Mathlib
import Alto.Verify.CostMaps
import Alto.Verify.PIDTable
import Alto.Verify.PrefixMap

/-!
# The objects of a view agree

The aggregation of a view names its PIDs. Over every run of transactions and view update jobs, the
link matrix and the weights of the routing are tables of exactly these PIDs, every link joins two of
them, the view has no static routes, and its prefixes come from operations on an empty PID map.
-/

namespace Alto

open Lib

/-! ## Matrices -/

namespace PIDMatrix

variable {m : PIDMatrix} {X : Set PID} {pid src dst : PID} {v : Double}

/-- The matrix is a table of values for pairs of these PIDs. -/
def IsTable (m : PIDMatrix) (X : Set PID) : Prop :=
  ∃ S, ∃ t : Table, m.Represents S t ∧ t.pids = X

theorem isTable_empty : empty.IsTable ∅ := ⟨∅, _, represents_empty, rfl⟩

theorem IsTable.addPid (h : m.IsTable X) : (m.addPid pid).2.IsTable (insert pid X) := by
  obtain ⟨S, t, ht, rfl⟩ := h
  have hcall : ∃ S', (m.after (.addPid pid)).Represents S' (t.after (.addPid pid)) :=
    ht.after trivial
  obtain ⟨S', ht'⟩ := hcall
  exact ⟨S', _, ht', rfl⟩

theorem IsTable.removePid (h : m.IsTable X) : (m.removePid pid).2.IsTable (X \ {pid}) := by
  obtain ⟨S, t, ht, rfl⟩ := h
  have hcall : ∃ S', (m.after (.removePid pid)).Represents S' (t.after (.removePid pid)) :=
    ht.after trivial
  obtain ⟨S', ht'⟩ := hcall
  exact ⟨S', _, ht', rfl⟩

theorem IsTable.setByPid (h : m.IsTable X) : (m.setByPid src dst v).2.IsTable X := by
  obtain ⟨S, t, ht, rfl⟩ := h
  refine ⟨S, _, ht.setByPid src dst v, ?_⟩
  rw [Table.after]
  split <;> rfl

end PIDMatrix

/-! ## Aggregations -/

namespace PIDAggregation

variable {agg : PIDAggregation} {pid src dst : PID} {name : String} {vertices : StdSet String}

/-- The PIDs of an aggregation. -/
def pids (agg : PIDAggregation) : Set PID := {pid | agg.has pid = true}

/-- Every link joins two PIDs of the aggregation. -/
def LinksJoin (agg : PIDAggregation) : Prop :=
  ∀ name src dst, agg.getLink name = some (src, dst) → src ∈ agg.pids ∧ dst ∈ agg.pids

theorem getLink_eq_some : agg.getLink name = some (src, dst) ↔
    agg.linkRecords[name]? = some ⟨src, dst⟩ := by
  rw [getLink, Option.map_eq_some_iff]
  constructor
  · rintro ⟨⟨_, _⟩, h, heq⟩
    cases heq
    exact h
  · exact fun h => ⟨_, h, rfl⟩

theorem pids_add (h : (agg.add name pid vertices).1 = true) :
    (agg.add name pid vertices).2.pids = insert pid agg.pids :=
  Set.ext fun _ => has_add h

theorem pids_remove : (agg.remove pid).2.pids = agg.pids \ {pid} := by
  ext p
  exact has_remove.trans and_comm

theorem pids_updateVertices {f : StdSet String → StdSet String} :
    (agg.updateVertices pid f).2.pids = agg.pids := by
  ext p
  exact iff_of_eq (congrArg (· = true) has_updateVertices)

theorem pids_defineLink : (agg.defineLink name src dst).2.pids = agg.pids := by
  unfold defineLink
  split <;> rfl

theorem pids_undefineLink : (agg.undefineLink name).2.pids = agg.pids := by
  unfold undefineLink
  split <;> rfl

theorem linksJoin_empty : empty.LinksJoin := by
  intro name src dst h
  rw [getLink_eq_some] at h
  cases Std.ExtTreeMap.getElem?_empty.symm.trans h

/-- More PIDs with the same links, or fewer links. -/
theorem LinksJoin.mono {agg' : PIDAggregation} (h : agg.LinksJoin) (hpids : agg.pids ⊆ agg'.pids)
    (hlinks : ∀ (name : String) (l : LinkRecord), agg'.linkRecords[name]? = some l →
      agg.linkRecords[name]? = some l) : agg'.LinksJoin := by
  intro name src dst hlink
  have hold := h name src dst (getLink_eq_some.2 (hlinks name _ (getLink_eq_some.1 hlink)))
  exact ⟨hpids hold.1, hpids hold.2⟩

theorem LinksJoin.add (h : agg.LinksJoin) (hadd : (agg.add name pid vertices).1 = true) :
    (agg.add name pid vertices).2.LinksJoin := by
  refine h.mono ?_ fun n l hl => ?_
  · rw [pids_add hadd]
    exact Set.subset_insert _ _
  · unfold PIDAggregation.add at hadd hl
    split at hadd
    · cases hadd
    · next hpid =>
      split at hadd
      · cases hadd
      · next hname =>
        rw [if_neg hpid, if_neg hname] at hl
        exact hl

theorem LinksJoin.remove (h : agg.LinksJoin) : (agg.remove pid).2.LinksJoin := by
  intro name src dst hlink
  rw [getLink_eq_some] at hlink
  rw [pids_remove]
  unfold PIDAggregation.remove at hlink
  split at hlink
  · simp only [Std.ExtTreeMap.getElem?_filter', Option.filter_eq_some_iff, decide_eq_true_eq]
      at hlink
    obtain ⟨⟨hl, hsrc⟩, hdst⟩ := hlink
    have hold := h name src dst (getLink_eq_some.2 hl)
    exact ⟨⟨hold.1, hsrc⟩, hold.2, hdst⟩
  · next hno =>
    have hold := h name src dst (getLink_eq_some.2 hlink)
    refine ⟨⟨hold.1, ?_⟩, hold.2, ?_⟩
    · rintro rfl
      exact hno hold.1
    · rintro rfl
      exact hno hold.2

theorem LinksJoin.updateVertices {f : StdSet String → StdSet String} (h : agg.LinksJoin) :
    (agg.updateVertices pid f).2.LinksJoin := by
  refine h.mono pids_updateVertices.ge fun n l hl => ?_
  unfold PIDAggregation.updateVertices at hl
  split at hl <;> exact hl

theorem LinksJoin.defineLink (h : agg.LinksJoin) (hsrc : src ∈ agg.pids) (hdst : dst ∈ agg.pids) :
    (agg.defineLink name src dst).2.LinksJoin := by
  intro n s d hlink
  rw [getLink_eq_some] at hlink
  rw [pids_defineLink]
  unfold PIDAggregation.defineLink at hlink
  split at hlink
  · exact h n s d (getLink_eq_some.2 hlink)
  · rw [StdMap.get_insert] at hlink
    split at hlink
    · cases hlink
      exact ⟨hsrc, hdst⟩
    · exact h n s d (getLink_eq_some.2 hlink)

theorem LinksJoin.undefineLink (h : agg.LinksJoin) : (agg.undefineLink name).2.LinksJoin := by
  refine h.mono pids_undefineLink.ge fun n l hl => ?_
  unfold PIDAggregation.undefineLink at hl
  split at hl
  · exact hl
  · rw [StdMap.get_erase] at hl
    split at hl
    · cases hl
    · exact hl

theorem LinksJoin.doCopyProperties (agg : PIDAggregation) : agg.doCopyProperties.LinksJoin := by
  intro name src dst h
  rw [getLink_eq_some] at h
  cases Std.ExtTreeMap.getElem?_empty.symm.trans h

/-- A PID that is found under a name is a PID of the aggregation. -/
theorem lookup_mem_pids (h : (agg.lookup name).isInvalid = false) : agg.lookup name ∈ agg.pids := by
  unfold lookup at h ⊢
  cases hfind : agg.pidRecords.findName name with
  | none =>
    rw [hfind] at h
    exact absurd h (by decide)
  | some pid =>
    obtain ⟨r, hr, -⟩ := PIDRecords.findName_eq_some.1 hfind
    show agg.has pid = true
    rw [has, hr]
    rfl

end PIDAggregation

/-! ## Routings -/

namespace PIDRouting

variable {r r' : PIDRouting} {X : Set PID} {pid src dst : PID} {v : Double}

/-- The routing has weights for pairs of these PIDs, and no static routes. -/
structure Weighs (r : PIDRouting) (X : Set PID) : Prop where
  mode : r.routeMode = .weights
  routes : r.staticRoutes = []
  weights : r.weights.IsTable X

theorem weighs_new (v : Double) : (new v).Weighs ∅ := ⟨rfl, rfl, PIDMatrix.isTable_empty⟩

theorem Weighs.addPid (h : r.Weighs X) : (r.addPid pid).Weighs (insert pid X) := by
  unfold PIDRouting.addPid
  split
  · next hstatic => cases hstatic.symm.trans h.mode
  · exact ⟨h.mode, h.routes, h.weights.addPid⟩

theorem Weighs.removePid (h : r.Weighs X) (hr : r.removePid pid = some r') :
    r'.Weighs (X \ {pid}) := by
  unfold PIDRouting.removePid at hr
  split at hr
  · next hstatic => cases hstatic.symm.trans h.mode
  · cases hr
    exact ⟨h.mode, h.routes, h.weights.removePid⟩

theorem Weighs.setWeight (h : r.Weighs X) : (r.setWeight src dst v).2.Weighs X :=
  ⟨h.mode, h.routes, h.weights.setByPid⟩

theorem Weighs.doCopyProperties (h : r.Weighs X) : r.doCopyProperties.Weighs X := by
  refine ⟨h.mode, ?_, h.weights⟩
  simp [PIDRouting.doCopyProperties, h.mode]

end PIDRouting

/-! ## PID maps -/

/-- The PID map comes from operations on an empty one. -/
def PIDMap.Operated (m : PIDMap) : Prop :=
  ∃ ops : List (Behind × PatriciaTrie.Op PID), m = PatriciaTrie.run ops .empty

namespace PIDMap

variable {m : PIDMap}

theorem Operated.op (h : m.Operated) (behind : Behind) (op : PatriciaTrie.Op PID) :
    Operated (op.run behind m).2 := by
  obtain ⟨ops, rfl⟩ := h
  refine ⟨ops ++ [(behind, op)], ?_⟩
  rw [PatriciaTrie.run, PatriciaTrie.run, List.foldl_append]
  rfl

/-- What each call of the loop keeps, the loop keeps. -/
theorem keeps_changePrefixes {I : PIDMap → Prop} {f : PIDMap → IPPrefix → Bool × PIDMap} (h : I m)
    (hf : ∀ m pfx, I m → I (f m pfx).2) (prefixes : List IPPrefix) :
    I (Action.changePrefixes f m prefixes).2 := by
  have hloop : ∀ (prefixes : List IPPrefix) (r : Bool × PIDMap), I r.2 →
      I (prefixes.foldl (fun r pfx => ((f r.2 pfx).1 || r.1, (f r.2 pfx).2)) r).2 := by
    intro prefixes
    induction prefixes with
    | nil => exact fun r hr => hr
    | cons pfx prefixes ih => exact fun r hr => ih _ (hf _ _ hr)
  exact hloop prefixes _ h

end PIDMap

/-! ## Views -/

/-- The objects of a view that administrators change, and how they agree. -/
structure ViewObjects.Agrees (agg : PIDAggregation) (m : PIDMap) (r : PIDRouting)
    (link : PIDMatrix) : Prop where
  links : agg.LinksJoin
  prefixes : m.Operated
  routing : r.Weighs agg.pids
  link : link.IsTable agg.pids

/-- There is no view, or its objects agree. -/
def ViewObjects.Consistent (v : ViewObjects) : Prop :=
  (∀ c, c ≠ .intraPDistances → c ≠ .interPDistances → v c = none) ∨ ∃ agg m r link,
    v .aggregation = some (.aggregation agg) ∧ v .prefixes = some (.pidMap m) ∧ v .intraRouting = some (.routing r) ∧
    v .linkPDistances = some (.matrix link) ∧ Agrees agg m r link

/-- An object that agrees with the other ones where the first one does. -/
inductive Payload.Like : Payload → Payload → Prop
  | refl (x : Payload) : Like x x
  | aggregation {agg agg' : PIDAggregation} (hpids : agg'.pids = agg.pids)
      (hlinks : agg.LinksJoin → agg'.LinksJoin) : Like (.aggregation agg) (.aggregation agg')
  | pidMap {m m' : PIDMap} (h : m.Operated → m'.Operated) : Like (.pidMap m) (.pidMap m')
  | routing {r r' : PIDRouting} (h : ∀ X, r.Weighs X → r'.Weighs X) : Like (.routing r) (.routing r')
  | matrix {m m' : PIDMatrix} (h : ∀ X, m.IsTable X → m'.IsTable X) : Like (.matrix m) (.matrix m')
  | netState (net net' : NetState) : Like (.netState net) (.netState net')
  | view (v v' : View) : Like (.view v) (.view v')

namespace Payload

theorem like_copyOf (env : Env) (x : Payload) : x.Like (x.copyOf env) := by
  cases x with
  | netState net => exact .netState _ _
  | view v => exact .view _ _
  | globalState | viewRegistry => exact .refl _
  | aggregation agg => exact .aggregation rfl fun _ => PIDAggregation.LinksJoin.doCopyProperties agg
  | pidMap m => exact .pidMap fun hm => hm.op env.behind .copy
  | routing r => exact .routing fun _ hr => hr.doCopyProperties
  | matrix m => exact .matrix fun _ => id

theorem like_of_getters {x y : Payload} (h : y.getters = x.getters) : x.Like y := by
  cases y with
  | routing r =>
    cases x with
    | routing r' =>
      injection h with h
      injection h with _ hmode hroutes _ hweights
      exact .routing fun X hr => ⟨hmode.trans hr.mode, hroutes.trans hr.routes, hweights ▸ hr.weights⟩
    | _ => cases h
  | _ =>
    cases x <;> cases h
    exact .refl _

end Payload

namespace ViewObjects

variable {env : Env} {P : ObjTree Payload → Action → Prop} {v w : ViewObjects}

theorem Consistent.like (h : v.Consistent)
    (hnone : ∀ c, c ≠ .intraPDistances → c ≠ .interPDistances → v c = none → w c = none)
    (hsome : ∀ c x, c ≠ .intraPDistances → c ≠ .interPDistances → v c = some x →
      ∃ y, w c = some y ∧ x.Like y) : w.Consistent := by
  rcases h with h | ⟨agg, m, r, link, hagg, hm, hr, hlink, h⟩
  · exact .inl fun c h₁ h₂ => hnone c h₁ h₂ (h c h₁ h₂)
  · obtain ⟨agg', hagg', hpids, hlinks⟩ : ∃ agg', w .aggregation = some (.aggregation agg') ∧
        agg'.pids = agg.pids ∧ (agg.LinksJoin → agg'.LinksJoin) := by
      obtain ⟨y, hy, hlike⟩ := hsome _ _ (by decide) (by decide) hagg
      cases hlike with
      | refl => exact ⟨_, hy, rfl, id⟩
      | aggregation hpids hlinks => exact ⟨_, hy, hpids, hlinks⟩
    obtain ⟨m', hm', hops⟩ : ∃ m', w .prefixes = some (.pidMap m') ∧ m'.Operated := by
      obtain ⟨y, hy, hlike⟩ := hsome _ _ (by decide) (by decide) hm
      cases hlike with
      | refl => exact ⟨_, hy, h.prefixes⟩
      | pidMap hops => exact ⟨_, hy, hops h.prefixes⟩
    obtain ⟨r', hr', hweighs⟩ : ∃ r', w .intraRouting = some (.routing r') ∧
        r'.Weighs agg.pids := by
      obtain ⟨y, hy, hlike⟩ := hsome _ _ (by decide) (by decide) hr
      cases hlike with
      | refl => exact ⟨_, hy, h.routing⟩
      | routing hweighs => exact ⟨_, hy, hweighs _ h.routing⟩
    obtain ⟨link', hlink', htable⟩ : ∃ link', w .linkPDistances = some (.matrix link') ∧
        link'.IsTable agg.pids := by
      obtain ⟨y, hy, hlike⟩ := hsome _ _ (by decide) (by decide) hlink
      cases hlike with
      | refl => exact ⟨_, hy, h.link⟩
      | matrix htable => exact ⟨_, hy, htable _ h.link⟩
    rw [← hpids] at hweighs htable
    exact .inr ⟨agg', m', r', link', hagg', hm', hr', hlink', hlinks h.links, hops, hweighs, htable⟩

theorem consistent_new : newObjects.Consistent := by
  have hpids : (PIDAggregation.empty).pids = ∅ :=
    Set.eq_empty_iff_forall_notMem.2 fun p hp => by cases hp
  refine .inr ⟨_, _, _, _, rfl, rfl, rfl, rfl, ⟨PIDAggregation.linksJoin_empty, ⟨[], rfl⟩, ?_, ?_⟩⟩
  · rw [hpids]
    exact PIDRouting.weighs_new _
  · rw [hpids]
    exact PIDMatrix.isTable_empty

/-- A PID that an action finds is one of the aggregation. -/
theorem named_mem {T : ObjTree Payload} {i : Nat} {name : String} {pid : PID} {agg : PIDAggregation}
    (h : Named T i name pid) (hagg : T.objects i .aggregation = some (.aggregation agg)) :
    pid ∈ agg.pids := by
  obtain ⟨agg', hagg', rfl, hvalid⟩ := h
  cases hagg.symm.trans hagg'
  exact PIDAggregation.lookup_mem_pids hvalid

/-- An action on a child leaves one that agrees with the other ones. -/
theorem like_child {T : ObjTree Payload} {i : Nat} {a : Action} {c : ViewChild} {x : Payload}
    {y : Bool × Payload} (h : Action.OnChild env T i a c x y) (hx : T.objects i c = some x) :
    x.Like y.2 := by
  cases h with
  | addPrefixes =>
    exact .pidMap fun hm => PIDMap.keeps_changePrefixes hm
      (fun m pfx hm => hm.op env.behind (.add pfx _)) _
  | deletePrefixes =>
    exact .pidMap fun hm => PIDMap.keeps_changePrefixes hm
      (fun m pfx hm => hm.op env.behind (.remove pfx _)) _
  | clearPrefixes => exact .pidMap fun hm => hm.op env.behind (.removeVal _)
  | addNodes | deleteNodes | clearNodes =>
    exact .aggregation PIDAggregation.pids_updateVertices fun h => h.updateVertices
  | addLink hp hq =>
    exact .aggregation PIDAggregation.pids_defineLink
      fun h => h.defineLink (named_mem hp hx) (named_mem hq hx)
  | deleteLink =>
    exact .aggregation PIDAggregation.pids_undefineLink fun h => h.undefineLink
  | setCost => exact .matrix fun X hm => hm.setByPid
  | setWeight => exact .routing fun X hr => hr.setWeight

/-- A step that gives a view new parts that agree. -/
theorem Consistent.sets {agg agg' : PIDAggregation} {r : PIDRouting} {link : PIDMatrix}
    (hv : v.Consistent) (hagg : v .aggregation = some (.aggregation agg))
    (hw : SetsParts v w agg' r link) (hlinks : agg'.LinksJoin) (hr : r.Weighs agg'.pids)
    (hlink : link.IsTable agg'.pids) : w.Consistent := by
  rcases hv with hv | ⟨_, m, _, _, -, hm, -, -, h⟩
  · cases (hv _ (by decide) (by decide)).symm.trans hagg
  · have hm' : w .prefixes = some (.pidMap m) := by
      rw [hw.other _ (by decide) (by decide) (by decide)]
      exact hm
    exact .inr ⟨_, _, _, _, hw.aggregation, hm', hw.routing, hw.link, hlinks, h.prefixes, hr, hlink⟩

/-- What is known of the parts of a view. -/
theorem Consistent.agrees {agg : PIDAggregation} {r : PIDRouting} {link : PIDMatrix}
    (hv : v.Consistent) (hagg : v .aggregation = some (.aggregation agg))
    (hr : v .intraRouting = some (.routing r)) (hlink : v .linkPDistances = some (.matrix link)) :
    ∃ m, Agrees agg m r link := by
  rcases hv with hv | ⟨_, m, _, _, hagg', -, hr', hlink', h⟩
  · cases (hv _ (by decide) (by decide)).symm.trans hagg
  · cases hagg.symm.trans hagg'
    cases hr.symm.trans hr'
    cases hlink.symm.trans hlink'
    exact ⟨m, h⟩

/-- Every step of a view keeps its objects in agreement. -/
theorem Consistent.step (h : ViewStep env P v w) (hv : v.Consistent) : w.Consistent := by
  cases h with
  | refs h =>
    refine hv.like (fun c _ _ hc => ?_) fun c x _ _ hx => ?_
    · rcases h c with heq | ⟨x, hx, -⟩
      · exact heq.trans hc
      · cases hc.symm.trans hx
    · rcases h c with heq | ⟨x', hx', hcopy⟩
      · exact ⟨x, heq.trans hx, .refl x⟩
      · cases hx.symm.trans hx'
        exact ⟨_, hcopy, x.like_copyOf env⟩
  | copied h =>
    refine hv.like (fun c _ _ hc => ?_) fun c x _ _ hx => ?_
    · have hmap := h c
      rw [hc] at hmap
      exact Option.map_eq_none_iff.1 hmap
    · have hmap := h c
      rw [hx] at hmap
      obtain ⟨y, hy, hget⟩ := Option.map_eq_some_iff.1 hmap
      exact ⟨y, hy, Payload.like_of_getters hget⟩
  | install => exact consistent_new
  | remove => exact .inl fun _ _ _ => rfl
  | update h =>
    refine hv.like (fun c h₁ h₂ hc => (h c h₁ h₂).trans hc) fun c x h₁ h₂ hx => ?_
    exact ⟨x, (h c h₁ h₂).trans hx, .refl x⟩
  | addPID hagg hr hlink h hw =>
    obtain ⟨m, hagrees⟩ := hv.agrees hagg hr hlink
    have hpids := PIDAggregation.pids_add h
    refine hv.sets hagg hw (hagrees.links.add h) ?_ ?_
    · rw [hpids]
      exact hagrees.routing.addPid
    · rw [hpids]
      exact hagrees.link.addPid
  | deletePID hagg hr hlink h hw =>
    obtain ⟨m, hagrees⟩ := hv.agrees hagg hr hlink
    refine hv.sets hagg hw hagrees.links.remove ?_ ?_
    · rw [PIDAggregation.pids_remove]
      exact hagrees.routing.removePid h
    · rw [PIDAggregation.pids_remove]
      exact hagrees.link.removePid
  | @child T i _ a c x y ha hT hx h =>
    subst hT
    refine hv.like (fun d _ _ hd => ?_) fun d z _ _ hz => ?_
    · have hne : d ≠ c := by
        rintro rfl
        cases hd.symm.trans hx
      rw [Function.update_of_ne hne]
      exact hd
    · by_cases hd : d = c
      · subst hd
        cases hz.symm.trans hx
        exact ⟨y.2, Function.update_self .., like_child h hx⟩
      · exact ⟨z, (Function.update_of_ne hd ..).trans hz, .refl z⟩

end ViewObjects

namespace Server

variable {env : Env} {s s' : Server} {events : List Event}

/-- Over every run of transactions and view update jobs, the objects of every view agree. -/
theorem views_consistent {clock : Nat → Nat} (hinit : init env clock = some s)
    (hr : Run (react env) (fun _ _ => True) s events s') (i : Nat) :
    (s'.tree.objects i).Consistent := by
  have hr' : Run (react env) (fun _ e => ∀ a ∈ e.actions, True) s events s' :=
    hr.mono fun _ _ _ _ _ => trivial
  exact (views_of_run (fun v w h hv => hv.step h) (.inl fun _ _ _ => rfl) hinit hr').2 i

/-- A view with a PID, a prefix and a link. -/
theorem views_consistent_linked : ∃ s : Server, s.ViewAt 1 (linkedView 5) ∧
    (s.tree.objects 1).Consistent := by
  obtain ⟨s₀, s, hinit, hr, hview⟩ := linkedView_reached 5 ⟨5, by decide, rfl⟩ (by decide +kernel)
  exact ⟨s, hview, views_consistent hinit (hr.mono fun _ _ _ => trivial) 1⟩

end Server

end Alto
