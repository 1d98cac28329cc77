import Alto.Verify.ViewPDistances
import Alto.Verify.ViewTopology

/-!
# Interdomain pDistances

The entries between internal and external PIDs that `compute_pdistances` leaves. The pDistance of a
pair is that of the direct link, or is read off the border of the selected route: the hop next to the
external PID. The entry of the pair is what this rule says if that hop is an internal PID of the view.
-/

namespace Alto.ViewUpdate

open Lib PIDMatrix PIDRouting

variable {inp : Inputs} {S E All : StdSet PID} {m m' : Matrices} {src dst hop s d : PID}

/-! ## The rule -/

/-- A link between two PIDs: an edge between vertices of theirs. -/
def Link (net : NetState) (src dst : PID) : Prop :=
  ∃ u v, net.graph.Edge u v ∧ net.getPid u = some src ∧ net.getPid v = some dst

/-- The pDistance of an interdomain link. -/
def linkCost (inp : Inputs) (src dst : PID) : Double :=
  ((defined inp.static src dst).or (defined inp.dynamic src dst)).getD
    inp.view.defaultInterdomainPDistance

/-- The hop next to the external end of the selected route. -/
def borderHop (inp : Inputs) (src dst : PID) : Option PID :=
  (selectedRoute inp src dst).bind fun route => if dst.external then route.reverse[1]? else route[1]?

/-- The link of a route that ends in the external PID. -/
def borderLink (src dst hop : PID) : PID × PID := if dst.external then (hop, dst) else (src, hop)

/-- The part of a route between internal PIDs. -/
def insidePart (src dst hop : PID) : PID × PID := if dst.external then (src, hop) else (hop, dst)

/-- The pDistance of a route over the border. -/
def borderCost (inp : Inputs) (src dst hop : PID) : Double :=
  if inp.view.interdomainIncludesIntradomain then
    (linkCost inp (borderLink src dst hop).1 (borderLink src dst hop).2).add inp.libs.rnd
      (intraSpec inp (insidePart src dst hop).1 (insidePart src dst hop).2)
  else linkCost inp (borderLink src dst hop).1 (borderLink src dst hop).2

/-- The pDistance between an internal and an external PID. -/
inductive InterRule (inp : Inputs) (S : StdSet PID) (src dst : PID) : Double → Prop
  | link (h : Link inp.net src dst) : InterRule inp S src dst (linkCost inp src dst)
  | noRoute (h : ¬ Link inp.net src dst) (hroute : borderHop inp src dst = none) :
      InterRule inp S src dst inp.view.defaultInterdomainPDistance
  | route {hop : PID} (h : ¬ Link inp.net src dst) (hroute : borderHop inp src dst = some hop)
      (hmem : hop ∈ S) (hlink : Link inp.net (borderLink src dst hop).1 (borderLink src dst hop).2) :
      InterRule inp S src dst (borderCost inp src dst hop)

/-- The pair has a direct link, or no route, or a route with an internal PID of the view next to its
external end and a link between the two; and the costs are numbers. -/
structure BorderOk (inp : Inputs) (S : StdSet PID) (src dst : PID) : Prop where
  link : Link inp.net src dst → linkCost inp src dst ≠ .nan
  noRoute : ¬ Link inp.net src dst → borderHop inp src dst = none →
    inp.view.defaultInterdomainPDistance ≠ .nan
  route : ¬ Link inp.net src dst → ∀ hop, borderHop inp src dst = some hop →
    hop ∈ S ∧ Link inp.net (borderLink src dst hop).1 (borderLink src dst hop).2 ∧
      borderCost inp src dst hop ≠ .nan

theorem InterRule.ne_nan {v : Double} (h : InterRule inp S src dst v) (hok : BorderOk inp S src dst) :
    v ≠ .nan := by
  cases h with
  | link h => exact hok.link h
  | noRoute h hroute => exact hok.noRoute h hroute
  | route h hroute => exact (hok.route h _ hroute).2.2

/-- Where the rule gives numbers, the border is as it should be. -/
theorem InterRule.borderOk {v : Double} (h : InterRule inp S src dst v) (hv : v ≠ .nan) :
    BorderOk inp S src dst := by
  cases h with
  | link h => exact ⟨fun _ => hv, fun hno => absurd h hno, fun hno => absurd h hno⟩
  | noRoute h hroute =>
    refine ⟨fun hl => absurd hl h, fun _ _ => hv, fun _ hop hhop => ?_⟩
    rw [hroute] at hhop
    cases hhop
  | route h hroute hmem hlink =>
    refine ⟨fun hl => absurd hl h, fun _ hnone => ?_, fun _ hop hhop => ?_⟩
    · rw [hroute] at hnone
      cases hnone
    · obtain rfl := Option.some.inj (hroute.symm.trans hhop)
      exact ⟨hmem, hlink, hv⟩

theorem add_ne_nan {rnd : ℚ → Double} {x y : Double} (h : x.add rnd y ≠ .nan) : x ≠ .nan := by
  rintro rfl
  exact h rfl

/-- The link at the border of a pair has a border as it should be. -/
theorem BorderOk.border {hop : PID} (h : BorderOk inp S src dst) (hno : ¬ Link inp.net src dst)
    (hroute : borderHop inp src dst = some hop) :
    BorderOk inp S (borderLink src dst hop).1 (borderLink src dst hop).2 := by
  obtain ⟨-, hlink, hcost⟩ := h.route hno hop hroute
  refine ⟨fun _ => ?_, fun hl => absurd hlink hl, fun hl => absurd hlink hl⟩
  rw [borderCost] at hcost
  split at hcost
  · exact add_ne_nan hcost
  · exact hcost

/-! ## Interdomain links -/

/-- The PIDs of a view: internal and external ones. -/
structure ViewPids (S E All : StdSet PID) : Prop where
  internal : ∀ p ∈ S, p.external = false
  external : ∀ p ∈ E, p.external = true
  all : ∀ p, p ∈ All ↔ p ∈ S ∨ p ∈ E

/-- A pair of an internal and an external PID. -/
def Cross (S E : StdSet PID) (src dst : PID) : Prop := (src ∈ S ∧ dst ∈ E) ∨ (src ∈ E ∧ dst ∈ S)

theorem Cross.mem (hpids : ViewPids S E All) (h : Cross S E src dst) : src ∈ All ∧ dst ∈ All := by
  rw [hpids.all, hpids.all]
  rcases h with h | h
  · exact ⟨.inl h.1, .inr h.2⟩
  · exact ⟨.inr h.1, .inl h.2⟩

theorem Cross.external_ne (hpids : ViewPids S E All) (h : Cross S E src dst) :
    src.external ≠ dst.external := by
  rcases h with h | h
  · simp [hpids.internal _ h.1, hpids.external _ h.2]
  · simp [hpids.external _ h.1, hpids.internal _ h.2]

theorem mem_interdomainLinks {net : NetState} {links : List (PID × PID)}
    (h : findInterdomainLinks net = .ok links) :
    (src, dst) ∈ links ↔ Link net src dst ∧ src.external ≠ dst.external := by
  simp only [findInterdomainLinks, bind, Except.bind] at h
  split at h
  · cases h
  · next pairs hpairs =>
    obtain rfl := Except.ok.inj h
    rw [List.mem_filter, mem_mapM_ok hpairs]
    simp only [bne_iff_ne]
    refine and_congr_left fun _ => ⟨?_, ?_⟩
    · rintro ⟨e, he, hok⟩
      cases hu : net.getPid e.1.src with
      | none =>
        rw [hu] at hok
        cases hok
      | some p =>
        cases hv : net.getPid e.1.dst with
        | none =>
          rw [hu, hv] at hok
          cases hok
        | some q =>
          rw [hu, hv] at hok
          obtain ⟨rfl, rfl⟩ := Prod.mk.inj (Except.ok.inj hok)
          exact ⟨_, _, NetGraph.mem_edgeList.2 ⟨e, he, rfl, rfl⟩, hu, hv⟩
    · rintro ⟨u, v, huv, hu, hv⟩
      obtain ⟨e, he, rfl, rfl⟩ := NetGraph.mem_edgeList.1 huv
      refine ⟨e, he, ?_⟩
      rw [hu, hv]
      rfl

theorem setLinks_hasPids {links : List (PID × PID)} {inter : PIDMatrix} (h : inter.HasPids All) :
    (setLinks inp links inter).HasPids All := by
  induction links generalizing inter with
  | nil => exact h
  | cons l links ih => exact ih h.setByPid

theorem setLinks_entry {links : List (PID × PID)} {inter : PIDMatrix} (h : inter.HasPids All)
    (hs : s ∈ All) (hd : d ∈ All) :
    (setLinks inp links inter).entry s d =
      if (s, d) ∈ links then some (linkCost inp s d) else inter.entry s d := by
  induction links generalizing inter with
  | nil => rfl
  | cons l links ih =>
    rw [setLinks, List.foldl_cons, ← setLinks, ih h.setByPid, linkPDistance_eq]
    by_cases hmem : (s, d) ∈ links
    · rw [if_pos hmem, if_pos (List.mem_cons_of_mem _ hmem)]
    · rw [if_neg hmem]
      by_cases hl : (s, d) = l
      · subst hl
        rw [if_pos List.mem_cons_self, h.entry_setByPid hs hd, if_pos ⟨rfl, rfl⟩]
        rfl
      · rw [if_neg fun hin => (List.mem_cons.1 hin).elim hl hmem]
        by_cases hin : l.1 ∈ All ∧ l.2 ∈ All
        · rw [h.entry_setByPid hin.1 hin.2, if_neg fun heq => hl (Prod.ext heq.1.symm heq.2.symm)]
        · rw [h.setByPid_of_not_mem hin]

/-! ## The entries between two rounds -/

/-- The entries of the interdomain matrix: those of the links, and those of the pairs that have been
handled, for the pairs with a border as it should be. -/
structure Handled (inp : Inputs) (S E All : StdSet PID) (H : PID → PID → Prop) (inter : PIDMatrix) :
    Prop where
  pids : inter.HasPids All
  link : ∀ s d, Cross S E s d → BorderOk inp S s d → Link inp.net s d →
    inter.entry s d = some (linkCost inp s d)
  rule : ∀ s d, Cross S E s d → BorderOk inp S s d → ¬ Link inp.net s d → H s d →
    ∃ v, InterRule inp S s d v ∧ inter.entry s d = some v
  unset : ∀ s d, Cross S E s d → BorderOk inp S s d → ¬ Link inp.net s d → ¬ H s d →
    inter.entry s d = none

theorem Handled.congr {H H' : PID → PID → Prop} {inter : PIDMatrix}
    (h : Handled inp S E All H inter) (hiff : ∀ s d, Cross S E s d → (H s d ↔ H' s d)) :
    Handled inp S E All H' inter :=
  ⟨h.pids, h.link, fun s d hc hok hl hH => h.rule s d hc hok hl ((hiff s d hc).2 hH),
    fun s d hc hok hl hH => h.unset s d hc hok hl fun h' => hH ((hiff s d hc).1 h')⟩

/-- The interdomain links, before the loops. -/
theorem handled_setLinks (hpids : ViewPids S E All) {links : List (PID × PID)}
    (hlinks : findInterdomainLinks inp.net = .ok links) :
    Handled inp S E All (fun _ _ => False) (setLinks inp links (PIDMatrix.empty.setPids All)) := by
  have hentry : ∀ s d, Cross S E s d →
      (setLinks inp links (PIDMatrix.empty.setPids All)).entry s d =
        if (s, d) ∈ links then some (linkCost inp s d) else none := by
    intro s d hc
    obtain ⟨hs, hd⟩ := hc.mem hpids
    rw [setLinks_entry hasPids_setPids hs hd, entry_setPids]
  refine ⟨setLinks_hasPids hasPids_setPids, fun s d hc _ hl => ?_, fun s d _ _ _ hno => hno.elim,
    fun s d hc _ hl _ => ?_⟩
  · rw [hentry s d hc, if_pos ((mem_interdomainLinks hlinks).2 ⟨hl, hc.external_ne hpids⟩)]
  · rw [hentry s d hc, if_neg fun hin => hl ((mem_interdomainLinks hlinks).1 hin).1]

/-- A pair is handled: a value is set for it if there is no link. -/
theorem Handled.setInter (hpids : ViewPids S E All) {H : PID → PID → Prop}
    (h : Handled inp S E All H m.inter) (hcross : Cross S E src dst)
    {pdistance : Matrices → PID → PID → Double}
    (hvalue : BorderOk inp S src dst → ¬ Link inp.net src dst →
      InterRule inp S src dst (pdistance m src dst)) :
    Handled inp S E All (fun s d => H s d ∨ (s = src ∧ d = dst))
      (ViewUpdate.setInter pdistance m src dst).inter := by
  have hmem := hcross.mem hpids
  have hget := getByPid_eq (m := m.inter) (s := src) (d := dst)
  by_cases hok : BorderOk inp S src dst
  swap
  · -- nothing is said about this pair, and the other ones keep their entries
    have hne : ∀ s d, BorderOk inp S s d → ¬ (src = s ∧ dst = d) := by
      rintro s d hok' ⟨rfl, rfl⟩
      exact hok hok'
    have hH : ∀ s d, BorderOk inp S s d → ((H s d ∨ s = src ∧ d = dst) ↔ H s d) :=
      fun s d hok' => or_iff_left fun heq => hne s d hok' ⟨heq.1.symm, heq.2.symm⟩
    have hinter : (ViewUpdate.setInter pdistance m src dst).inter.HasPids All ∧
        ∀ s d, BorderOk inp S s d →
          (ViewUpdate.setInter pdistance m src dst).inter.entry s d = m.inter.entry s d := by
      rw [ViewUpdate.setInter]
      split
      · exact ⟨h.pids, fun _ _ _ => rfl⟩
      · exact ⟨h.pids.setByPid, fun s d hok' => by
          rw [h.pids.entry_setByPid hmem.1 hmem.2, if_neg (hne s d hok')]⟩
    refine ⟨hinter.1, fun s d hc hok' hl => ?_, fun s d hc hok' hl hH' => ?_,
      fun s d hc hok' hl hH' => ?_⟩
    · rw [hinter.2 s d hok', h.link s d hc hok' hl]
    · rw [hinter.2 s d hok']
      exact h.rule s d hc hok' hl ((hH s d hok').1 hH')
    · rw [hinter.2 s d hok']
      exact h.unset s d hc hok' hl fun h' => hH' ((hH s d hok').2 h')
  by_cases hl : Link inp.net src dst
  · have hsame : ViewUpdate.setInter pdistance m src dst = m := by
      rw [ViewUpdate.setInter, hget, h.link _ _ hcross hok hl, if_pos]
      exact hok.link hl
    rw [hsame]
    refine ⟨h.pids, h.link, fun s d hc hok' hno hH => ?_, fun s d hc hok' hno hH => ?_⟩
    · rcases hH with hH | ⟨rfl, rfl⟩
      · exact h.rule s d hc hok' hno hH
      · exact absurd hl hno
    · exact h.unset s d hc hok' hno fun hH' => hH (.inl hH')
  · by_cases hH : H src dst
    · obtain ⟨v, hrule, hentry⟩ := h.rule src dst hcross hok hl hH
      have hsame : ViewUpdate.setInter pdistance m src dst = m := by
        rw [ViewUpdate.setInter, hget, hentry, if_pos]
        exact hrule.ne_nan hok
      rw [hsame]
      refine h.congr fun s d _ => ⟨.inl, ?_⟩
      rintro (h' | ⟨rfl, rfl⟩)
      · exact h'
      · exact hH
    · have hset : (ViewUpdate.setInter pdistance m src dst).inter =
          (m.inter.setByPid src dst (pdistance m src dst)).2 := by
        rw [ViewUpdate.setInter, hget, h.unset _ _ hcross hok hl hH, if_neg]
        simp
      rw [hset]
      have hentry := fun a b => h.pids.entry_setByPid (v := pdistance m src dst) (a := a) (b := b)
        hmem.1 hmem.2
      refine ⟨h.pids.setByPid, fun s d hc hok' hlink => ?_, fun s d hc hok' hno hH' => ?_,
        fun s d hc hok' hno hH' => ?_⟩
      · have hne : ¬ (src = s ∧ dst = d) := by
          rintro ⟨rfl, rfl⟩
          exact hl hlink
        rw [hentry, if_neg hne]
        exact h.link s d hc hok' hlink
      · rw [hentry]
        by_cases heq : src = s ∧ dst = d
        · obtain ⟨rfl, rfl⟩ := heq
          exact ⟨_, hvalue hok' hno, if_pos ⟨rfl, rfl⟩⟩
        · rw [if_neg heq]
          exact h.rule s d hc hok' hno (hH'.resolve_right fun h' => heq ⟨h'.1.symm, h'.2.symm⟩)
      · rw [hentry, if_neg fun heq => hH' (.inr ⟨heq.1.symm, heq.2.symm⟩)]
        exact h.unset s d hc hok' hno fun h' => hH' (.inl h')

/-! ## The loops -/

theorem borderHop_eq {ctx : RouteContext} (hroutes : HasRoutes inp ctx src) :
    borderHop inp src dst = ((ctx.result[dst]?).bind fun route =>
      if dst.external then route.reverse[1]? else route[1]?).map (·.pid) := by
  rw [borderHop, ← hroutes dst]
  cases ctx.result[dst]? with
  | none => rfl
  | some route =>
    cases dst.external
    · simp
    · simp [← List.map_reverse]

variable {H : PID → PID → Prop} {done : List PID}

theorem Handled.getByPid_link (h : Handled inp S E All H m.inter) (hcross : Cross S E s d)
    (hok : BorderOk inp S s d) (hl : Link inp.net s d) :
    m.inter.getByPid s d .nan = linkCost inp s d := by
  rw [getByPid_eq, h.link s d hcross hok hl]
  rfl

theorem Filled.getByPid_intra (h : Filled inp S done m) (hs : s ∈ done) (hd : d ∈ S) :
    m.intra.getByPid s d .nan = intraSpec inp s d := by
  rw [getByPid_eq, h.rows s hs d hd]
  rfl

/-- From an internal PID the border is at the end of the route. -/
theorem egressPDistance_rule (hpids : ViewPids S E All) (hfilled : Filled inp S done m)
    (hdone : src ∈ done) (hroutes : HasRoutes inp m.ctx src) (h : Handled inp S E All H m.inter)
    (hdst : dst ∈ E) (hok : BorderOk inp S src dst) (hl : ¬ Link inp.net src dst) :
    InterRule inp S src dst (egressPDistance inp m src dst) := by
  have hext := hpids.external dst hdst
  have hhop := @borderHop_eq _ _ dst _ hroutes
  simp only [hext, if_true] at hhop
  rw [egressPDistance]
  cases hb : (m.ctx.result[dst]?).bind (·.reverse[1]?) with
  | none =>
    rw [hb] at hhop
    exact .noRoute hl hhop
  | some p =>
    rw [hb] at hhop
    obtain ⟨hmem, hlink, -⟩ := hok.route hl p.pid hhop
    have hborder := hok.border hl hhop
    have hrule := InterRule.route hl hhop hmem hlink
    simp only [borderCost, borderLink, insidePart, hext, if_true] at hrule hlink hborder
    simp only [h.getByPid_link (.inl ⟨hmem, hdst⟩) hborder hlink, hfilled.getByPid_intra hdone hmem]
    exact hrule

/-- From an external PID the border is at the start of the route. -/
theorem ingressPDistance_rule (hpids : ViewPids S E All) (hfilled : Filled inp S S.toList m)
    (hroutes : HasRoutes inp m.ctx src) (h : Handled inp S E All H m.inter) (hsrc : src ∈ E)
    (hdst : dst ∈ S) (hok : BorderOk inp S src dst) (hl : ¬ Link inp.net src dst) :
    InterRule inp S src dst (ingressPDistance inp m src dst) := by
  have hext := hpids.internal dst hdst
  have hhop := @borderHop_eq _ _ dst _ hroutes
  simp only [hext, Bool.false_eq_true, if_false] at hhop
  rw [ingressPDistance]
  cases hb : (m.ctx.result[dst]?).bind (·[1]?) with
  | none =>
    rw [hb] at hhop
    exact .noRoute hl hhop
  | some p =>
    rw [hb] at hhop
    obtain ⟨hmem, hlink, -⟩ := hok.route hl p.pid hhop
    have hborder := hok.border hl hhop
    have hrule := InterRule.route hl hhop hmem hlink
    simp only [borderCost, borderLink, insidePart, hext, Bool.false_eq_true,
      if_false] at hrule hlink hborder
    simp only [h.getByPid_link (.inr ⟨hsrc, hmem⟩) hborder hlink,
      hfilled.getByPid_intra (Std.ExtTreeSet.mem_toList.2 hmem) hdst]
    exact hrule

/-- The pairs of one source. -/
theorem foldl_setInter_handled {A : Type*} (hpids : ViewPids S E All) (f : A → PID) {l : List A}
    (hcross : ∀ a ∈ l, Cross S E src (f a)) {pdistance : Matrices → PID → PID → Double}
    (hvalue : ∀ m' H', m'.intra = m.intra → m'.ctx = m.ctx → Handled inp S E All H' m'.inter →
      ∀ a ∈ l, BorderOk inp S src (f a) → ¬ Link inp.net src (f a) →
        InterRule inp S src (f a) (pdistance m' src (f a)))
    (h : Handled inp S E All H m.inter) :
    Handled inp S E All (fun s d => H s d ∨ (s = src ∧ d ∈ l.map f))
      (l.foldl (fun m a => setInter pdistance m src (f a)) m).inter := by
  induction l generalizing m H with
  | nil => exact h.congr fun s d _ => by simp
  | cons a l ih =>
    obtain ⟨hintra, hctx⟩ := @setInter_fields m src (f a) pdistance
    have hstep := h.setInter hpids (hcross a List.mem_cons_self)
      (hvalue m H rfl rfl h a List.mem_cons_self)
    have hrest := ih (fun b hb => hcross b (List.mem_cons_of_mem _ hb))
      (fun m' H' hi hc hh b hb => hvalue m' H' (hi.trans hintra) (hc.trans hctx) hh b
        (List.mem_cons_of_mem _ hb)) hstep
    refine hrest.congr fun s d _ => ?_
    rw [List.map_cons, List.mem_cons]
    tauto

variable {external : StdSet PID} {i : IndexedPID}

theorem fromInternal_handled (hpids : ViewPids S E All) (hpinned : HopsPinned inp)
    (hunique : (inp.pids.map (·.pid)).Nodup) (hfilled : Filled inp S done m)
    (h : Handled inp S E All (fun s _ => s ∈ done) m.inter) (hi : i ∈ indexPids S)
    (hrun : fromInternal inp E m i = .ok m') :
    Filled inp S (done ++ [i.pid]) m' ∧
      Handled inp S E All (fun s _ => s ∈ done ++ [i.pid]) m'.inter := by
  obtain ⟨m₁, hfilled₁, hinter, hroutes, rfl⟩ := fromInternal_ok hpinned hunique hfilled hi hrun
  obtain ⟨hintra, hctx⟩ := @foldl_setInter_fields m₁ i.pid _ (egressPDistance inp) id E.toList
  refine ⟨hfilled₁.congr hintra hctx, ?_⟩
  have hcross : ∀ d ∈ E.toList, Cross S E i.pid d := fun d hd =>
    .inl ⟨pid_mem hi, Std.ExtTreeSet.mem_toList.1 hd⟩
  have hrow := foldl_setInter_handled hpids id hcross
    (fun m' H' hintra hctx hh d hd hok hl => egressPDistance_rule hpids (hfilled₁.congr hintra hctx)
      (List.mem_append_right _ List.mem_cons_self) (by rw [hctx]; exact hroutes) hh
      (Std.ExtTreeSet.mem_toList.1 hd) hok hl) (hinter ▸ h)
  refine hrow.congr fun s d hc => ?_
  rw [List.mem_append, List.mem_singleton, List.map_id]
  refine or_congr_right ⟨And.left, ?_⟩
  rintro rfl
  refine ⟨rfl, Std.ExtTreeSet.mem_toList.2 ?_⟩
  rcases hc with hc | hc
  · exact hc.2
  · exact absurd (hpids.internal _ (pid_mem hi)) (by simp [hpids.external _ hc.1])

theorem fromExternal_handled (hpids : ViewPids S E All) (hpinned : HopsPinned inp)
    (hunique : (inp.pids.map (·.pid)).Nodup) (hfilled : Filled inp S S.toList m)
    (h : Handled inp S E All (fun s _ => s ∈ S ∨ s ∈ done) m.inter) (hi : i ∈ indexPids All)
    (hrun : fromExternal inp m i = .ok m') :
    Filled inp S S.toList m' ∧
      Handled inp S E All (fun s _ => s ∈ S ∨ s ∈ done ++ [i.pid]) m'.inter := by
  have hmem := (hpids.all _).1 (pid_mem hi)
  rcases fromExternal_ok hpinned hunique hfilled hrun with
    ⟨hext, rfl⟩ | ⟨hext, m₁, hfilled₁, hinter, hroutes, rfl⟩
  · -- an internal PID, which the first loop has handled
    have hS : i.pid ∈ S := hmem.resolve_right fun hE => by simp [hpids.external _ hE] at hext
    refine ⟨hfilled, h.congr fun s d _ => ?_⟩
    rw [List.mem_append, List.mem_singleton, ← or_assoc]
    refine ⟨.inl, ?_⟩
    rintro (hs | rfl)
    · exact hs
    · exact .inl hS
  · have hE : i.pid ∈ E := hmem.resolve_left fun hS => by simp [hpids.internal _ hS] at hext
    obtain ⟨hintra, hctx⟩ := @foldl_setInter_fields m₁ i.pid _ (ingressPDistance inp)
      (·.pid) (indexPids S)
    refine ⟨hfilled₁.congr hintra hctx, ?_⟩
    have hcross : ∀ j ∈ indexPids S, Cross S E i.pid j.pid := fun j hj => .inr ⟨hE, pid_mem hj⟩
    have hrow := foldl_setInter_handled hpids (·.pid) hcross
      (fun m' H' hintra hctx hh j hj hok hl => ingressPDistance_rule hpids (hfilled₁.congr hintra hctx)
        (by rw [hctx]; exact hroutes) hh hE (pid_mem hj) hok hl) (hinter ▸ h)
    refine hrow.congr fun s d hc => ?_
    rw [List.mem_append, List.mem_singleton, ← or_assoc, map_pid_indexPids]
    refine or_congr_right ⟨And.left, ?_⟩
    rintro rfl
    refine ⟨rfl, Std.ExtTreeSet.mem_toList.2 ?_⟩
    rcases hc with hc | hc
    · exact absurd hext (by simp [hpids.internal _ hc.1])
    · exact hc.2

/-- Both matrices after the loops: all pairs are handled. -/
theorem computePDistances_handled (hpids : ViewPids S E All) (hpinned : HopsPinned inp)
    (hunique : (inp.pids.map (·.pid)).Nodup)
    (hrun : computePDistances inp E (PIDMatrix.empty.setPids S) (PIDMatrix.empty.setPids All) =
      .ok m) : Filled inp S S.toList m ∧ Handled inp S E All (Cross S E) m.inter := by
  obtain ⟨links, m₁, hlinks, hfirst, hsecond⟩ := computePDistances_loops hrun
  rw [(hasPids_setPids : (PIDMatrix.empty.setPids S).pids = indexPids S)] at hfirst
  have hfirst' : Filled inp S S.toList m₁ ∧
      Handled inp S E All (fun s _ => s ∈ S.toList) m₁.inter := by
    have hloop := (foldlM_ok (P := fun done rest m => done ++ rest = indexPids S ∧
        Filled inp S (done.map (·.pid)) m ∧
        Handled inp S E All (fun s _ => s ∈ done.map (·.pid)) m.inter)
      (fun done i rest m m' hm hround => ?_) ⟨List.nil_append _, ?_, ?_⟩ hfirst).2
    · rwa [map_pid_indexPids] at hloop
    · have hi : i ∈ indexPids S := by
        rw [← hm.1]
        exact List.mem_append_right _ List.mem_cons_self
      rw [List.map_append]
      exact ⟨by simpa using hm.1,
        fromInternal_handled hpids hpinned hunique hm.2.1 hm.2.2 hi hround⟩
    · exact ⟨hasPids_setPids, fits_fresh, fun a ha => by cases ha⟩
    · exact (handled_setLinks hpids hlinks).congr fun s d _ => by simp
  rw [hfirst'.2.pids] at hsecond
  have hsecond' : Filled inp S S.toList m ∧
      Handled inp S E All (fun s _ => s ∈ S ∨ s ∈ All.toList) m.inter := by
    have hloop := (foldlM_ok (P := fun done rest m => done ++ rest = indexPids All ∧
        Filled inp S S.toList m ∧
        Handled inp S E All (fun s _ => s ∈ S ∨ s ∈ done.map (·.pid)) m.inter)
      (fun done i rest m m' hm hround => ?_) ⟨List.nil_append _, hfirst'.1, ?_⟩ hsecond).2
    · rwa [map_pid_indexPids] at hloop
    · have hi : i ∈ indexPids All := by
        rw [← hm.1]
        exact List.mem_append_right _ List.mem_cons_self
      rw [List.map_append]
      exact ⟨by simpa using hm.1,
        fromExternal_handled hpids hpinned hunique hm.2.1 hm.2.2 hi hround⟩
    · exact hfirst'.2.congr fun s d _ => by simp [Std.ExtTreeSet.mem_toList]
  exact ⟨hsecond'.1, hsecond'.2.congr fun s d hc => iff_of_true
    (.inr (Std.ExtTreeSet.mem_toList.2 (hc.mem hpids).1)) hc⟩

/-- With a border as it should be, the entry of a pair is what the rule says. -/
theorem Handled.entry_rule {inter : PIDMatrix} (h : Handled inp S E All (Cross S E) inter)
    (hcross : Cross S E s d) (hok : BorderOk inp S s d) :
    ∃ v, InterRule inp S s d v ∧ v ≠ .nan ∧ inter.entry s d = some v := by
  by_cases hl : Link inp.net s d
  · exact ⟨_, .link hl, hok.link hl, h.link s d hcross hok hl⟩
  · obtain ⟨v, hrule, hentry⟩ := h.rule s d hcross hok hl hcross
    exact ⟨v, hrule, hrule.ne_nan hok, hentry⟩

/-! ## An update that succeeds -/

theorem ViewPids.insert (h : ViewPids S E All) (pid : PID) :
    ViewPids (if pid.external then S else S.insert pid) (if pid.external then E.insert pid else E)
      (All.insert pid) := by
  cases hpid : pid.external with
  | true =>
    refine ⟨h.internal, fun p hp => ?_, fun p => ?_⟩
    · rcases StdSet.mem_insert.1 hp with rfl | hp
      · exact hpid
      · exact h.external p hp
    · rw [StdSet.mem_insert, h.all, if_pos rfl, if_pos rfl, StdSet.mem_insert, or_left_comm]
  | false =>
    refine ⟨fun p hp => ?_, h.external, fun p => ?_⟩
    · rcases StdSet.mem_insert.1 hp with rfl | hp
      · exact hpid
      · exact h.internal p hp
    · simp only [Bool.false_eq_true, if_false, StdSet.mem_insert, h.all, or_assoc]

theorem findRecord_viewPids {st st' : ViewUpdate × FoundPids} {e : PID × PIDRecord}
    (h : ViewPids st.2.internal st.2.external st.2.all) (hrun : findRecord st e = .ok st') :
    ViewPids st'.2.internal st'.2.external st'.2.all := by
  simp only [findRecord, bind, Except.bind] at hrun
  split at hrun
  · cases hrun
  · next flags hflags =>
    split at hrun
    · cases hrun
    · split at hrun
      · cases hrun
      · obtain rfl := Except.ok.inj hrun
        exact h.insert ⟨e.1.isp, e.1.num, flags.any id⟩

theorem aggregateLoop_nodup {libs : ViewLibs} {l : List PinnedPID} {u u' : ViewUpdate}
    {agg agg' : PinnedPIDSet} (h : (agg.map (·.pid)).Nodup)
    (hrun : aggregateLoop libs l u agg = .ok (some (u', agg'))) : (agg'.map (·.pid)).Nodup := by
  induction l generalizing u agg with
  | nil =>
    obtain ⟨-, rfl⟩ := Prod.mk.inj (Option.some.inj (Except.ok.inj hrun))
    exact h
  | cons p l ih =>
    simp only [aggregateLoop, bind, Except.bind] at hrun
    split at hrun
    · cases hrun
    · split at hrun
      · cases hrun
      · split at hrun
        · cases hrun
        · split at hrun
          · cases hrun
          · exact ih (PinnedPIDSet.nodup_insert h) hrun

theorem extraNode_nodup {action : ExtraNodeAction} {verts : StdSet NetVertex}
    {st st' : ViewUpdate × PinnedPIDSet × List NetVertex} {v : NetVertex}
    (h : (st.2.1.map (·.pid)).Nodup) (hrun : extraNode action verts st v = .ok st') :
    (st'.2.1.map (·.pid)).Nodup := by
  obtain ⟨u, pids, extra⟩ := st
  simp only [extraNode, bind, Except.bind] at hrun
  split at hrun
  · obtain rfl := Except.ok.inj hrun
    exact h
  · split at hrun
    · cases hrun
    · split at hrun
      · obtain rfl := Except.ok.inj hrun
        exact h
      · split at hrun
        · obtain rfl := Except.ok.inj hrun
          exact h
        · split at hrun
          · cases hrun
          · obtain rfl := Except.ok.inj hrun
            exact PinnedPIDSet.nodup_insert h

theorem handleExtraNodes_nodup {action : ExtraNodeAction} {u : ViewUpdate} {pids : PinnedPIDSet}
    {st : ViewUpdate × PinnedPIDSet} (h : (pids.map (·.pid)).Nodup)
    (hrun : handleExtraNodes action u pids = .ok st) : (st.2.map (·.pid)).Nodup := by
  simp only [handleExtraNodes, bind, Except.bind] at hrun
  split at hrun
  · cases hrun
  · split at hrun
    · cases hrun
    · next st' hloop =>
      split at hrun
      · cases hrun
      · obtain rfl := Except.ok.inj hrun
        exact foldlM_keeps
          (P := fun st : ViewUpdate × PinnedPIDSet × List NetVertex => (st.2.1.map (·.pid)).Nodup)
          (fun v st st' h hround => extraNode_nodup h hround) h hloop

/-- The PIDs of a view whose passes succeed. -/
theorem prepare_viewPids {libs : ViewLibs} {net : NetState} {view : View} {agg : PIDAggregation}
    {u : ViewUpdate} {found : FoundPids} {pids : PinnedPIDSet}
    (hrun : prepare libs net view agg = .ok (some (u, found, pids))) :
    ViewPids found.internal found.external found.all ∧ (pids.map (·.pid)).Nodup := by
  simp only [prepare, bind, Except.bind] at hrun
  split at hrun
  · cases hrun
  · next st hfind =>
    split at hrun
    · cases hrun
    · next res hagg =>
      split at hrun
      · cases hrun
      · next u₂ pids₂ =>
        split at hrun
        · cases hrun
        · next st₃ hextra =>
          obtain ⟨rfl, hres⟩ := Prod.mk.inj (Option.some.inj (Except.ok.inj hrun))
          obtain ⟨rfl, rfl⟩ := Prod.mk.inj hres
          refine ⟨?_, handleExtraNodes_nodup (aggregateLoop_nodup (by simp) hagg) hextra⟩
          refine foldlM_keeps (P := fun st : ViewUpdate × FoundPids =>
            ViewPids st.2.internal st.2.external st.2.all)
            (fun e st st' h hround => findRecord_viewPids h hround) ⟨?_, ?_, ?_⟩ hfind
          · exact fun p hp => absurd hp Std.ExtTreeSet.not_mem_empty
          · exact fun p hp => absurd hp Std.ExtTreeSet.not_mem_empty
          · exact fun p => by simp

/-- What `compute_pdistances` reads in an update. -/
def updateInputs (libs : ViewLibs) (plugin : NetState → PinnedPIDSet → PIDMatrix) (u : ViewUpdate)
    (pids : PinnedPIDSet) (view : View) (routing : PIDRouting) (link : PIDMatrix) : Inputs where
  libs := libs
  net := u.net
  pids := pids
  routing := routing
  static := link
  dynamic := if view.pluginName = "" then .empty else plugin u.net pids
  view := view

theorem computeResult_matrices {libs : ViewLibs} {plugin : NetState → PinnedPIDSet → PIDMatrix}
    {net : NetState} {view : View} {agg : PIDAggregation} {routing : PIDRouting}
    {link intra inter : PIDMatrix} {u : ViewUpdate} {found : FoundPids} {pids : PinnedPIDSet}
    (hprep : prepare libs net view agg = .ok (some (u, found, pids)))
    (hrun : computeResult libs plugin net view agg routing link = .ok (some (intra, inter))) :
    verifyStaticRouting u.net pids routing.staticRoutes = .ok true ∧
      ∃ m, computePDistances (updateInputs libs plugin u pids view routing link) found.external
          (PIDMatrix.empty.setPids found.internal) (PIDMatrix.empty.setPids found.all) = .ok m ∧
        m.intra = intra ∧ m.inter = inter := by
  simp only [computeResult, hprep, bind, Except.bind] at hrun
  split at hrun
  · cases hrun
  · next ok hverify =>
    split at hrun
    · next hok =>
      rw [hok] at hverify
      split at hrun
      · cases hrun
      · next m hm =>
        obtain ⟨hintra, hinter⟩ := Prod.mk.inj (Option.some.inj (Except.ok.inj hrun))
        exact ⟨hverify, m, hm, hintra, hinter⟩
    · cases hrun

/-- After an update, every pair of an internal and an external PID has a pDistance, the one of its
direct link or of the route over the border, exactly if every pair has a direct link, no route or a
route with a PID of the view next to its external end. -/
theorem computeResult_interdomain {libs : ViewLibs}
    {plugin : NetState → PinnedPIDSet → PIDMatrix} {net : NetState} {view : View}
    {agg : PIDAggregation} {routing : PIDRouting} {link intra inter : PIDMatrix} {u : ViewUpdate}
    {found : FoundPids} {pids : PinnedPIDSet}
    (hprep : prepare libs net view agg = .ok (some (u, found, pids)))
    (hrun : computeResult libs plugin net view agg routing link = .ok (some (intra, inter))) :
    (∀ s d, Cross found.internal found.external s d →
        ∃ v, InterRule (updateInputs libs plugin u pids view routing link) found.internal s d v ∧
          v ≠ .nan ∧ inter.entry s d = some v) ↔
      ∀ s d, Cross found.internal found.external s d →
        BorderOk (updateInputs libs plugin u pids view routing link) found.internal s d := by
  obtain ⟨hpids, hunique⟩ := prepare_viewPids hprep
  obtain ⟨hverify, m, hm, -, rfl⟩ := computeResult_matrices hprep hrun
  constructor
  · intro h s d hcross
    obtain ⟨v, hrule, hv, -⟩ := h s d hcross
    exact hrule.borderOk hv
  · intro hok s d hcross
    exact (computePDistances_handled hpids (hopsPinned_of_verify hverify) hunique hm).2.entry_rule
      hcross (hok s d hcross)

/-- An internal node with a link to an external one, which has a link to another external one. -/
def borderNet : NetState where
  graph :=
    { verts := (((∅ : StdMap NetVertex VertexProps).insert 0 ⟨false, "a", default⟩).insert 1
        ⟨true, "x", default⟩).insert 2 ⟨true, "y", default⟩
      edges := ((∅ : StdMap (NetVertex ×ₗ NetVertex) (Nat × EdgeProps)).insert (toLex (0, 1))
        (3, ⟨"", 0, 1⟩)).insert (toLex (1, 2)) (4, ⟨"", 0, 1⟩)
      next := 5 }
  nameVertMap := ∅
  nameEdgeMap := ∅

/-- A search on this graph. -/
def borderLibs : ViewLibs where
  iter pids := pids
  perm pids := .refl pids
  rnd := .fin
  dijkstra _ src _ _ := some fun v => if src < v then v - 1 else v

/-- PIDs with one node each. -/
def nodeAgg (nodes : List String) : PIDAggregation :=
  nodes.zipIdx.foldl
    (fun agg x => (agg.add x.1 ⟨"isp", x.2, false⟩ ((∅ : StdSet String).insert x.1)).2) .empty

/-- The pDistances of an update of this network state. -/
def borderResult (nodes : List String) : Except UpdateFault (Option (PIDMatrix × PIDMatrix)) :=
  computeResult borderLibs (fun _ _ => .empty) borderNet (.new "") (nodeAgg nodes) (.new 1) .empty

/-- What the update finds without the second external node in the view. -/
def borderChecks : Bool :=
  match prepare borderLibs borderNet (.new "") (nodeAgg ["a", "x"]), borderResult ["a", "x"] with
  | .ok (some (u, found, pids)), .ok (some _) =>
    let inp := updateInputs borderLibs (fun _ _ => .empty) u pids (.new "") (.new 1) .empty
    found.internal.toList == [⟨"isp", 0, false⟩] && found.external.toList == [⟨"isp", 1, true⟩] &&
      decide (toLex (0, 1) ∈ u.net.graph.edges) &&
      (u.net.getPid 0 == some ⟨"isp", 0, false⟩) && (u.net.getPid 1 == some ⟨"isp", 1, true⟩) &&
      (borderHop inp ⟨"isp", 1, true⟩ ⟨"isp", 0, false⟩ == none)
  | _, _ => false

/-- What the update finds with both external nodes in the view. -/
def behindBorderChecks : Bool :=
  match prepare borderLibs borderNet (.new "") (nodeAgg ["a", "x", "y"]),
    borderResult ["a", "x", "y"] with
  | .ok (some (_, found, _)), .ok (some (_, inter)) =>
    decide (⟨"isp", 0, false⟩ ∈ found.internal) && decide (⟨"isp", 2, true⟩ ∈ found.external) &&
      (inter.getByPid ⟨"isp", 0, false⟩ ⟨"isp", 2, true⟩ .nan == .nan)
  | _, _ => false

/-- Without the second external node in the view, its vertex is gone and both pairs have the
pDistance that the rule gives. -/
theorem computeResult_interdomain_border :
    ∃ u found pids intra inter,
      prepare borderLibs borderNet (.new "") (nodeAgg ["a", "x"]) = .ok (some (u, found, pids)) ∧
      borderResult ["a", "x"] = .ok (some (intra, inter)) ∧
      ∀ s d, Cross found.internal found.external s d → ∃ v,
        InterRule (updateInputs borderLibs (fun _ _ => .empty) u pids (.new "") (.new 1) .empty)
          found.internal s d v ∧ v ≠ .nan ∧ inter.entry s d = some v := by
  have hcheck : borderChecks = true := by decide +kernel
  unfold borderChecks at hcheck
  split at hcheck
  · next u found pids res hprep hrun =>
    obtain ⟨intra, inter⟩ := res
    simp only [Bool.and_eq_true, beq_iff_eq, decide_eq_true_eq] at hcheck
    obtain ⟨⟨⟨⟨⟨hint, hext⟩, hedge⟩, hp₀⟩, hp₁⟩, hhop⟩ := hcheck
    refine ⟨u, found, pids, intra, inter, hprep, hrun,
      (computeResult_interdomain hprep hrun).2 fun s d hcross => ?_⟩
    rcases hcross with ⟨hs, hd⟩ | ⟨hs, hd⟩
    · rw [← Std.ExtTreeSet.mem_toList, hint, List.mem_singleton] at hs
      rw [← Std.ExtTreeSet.mem_toList, hext, List.mem_singleton] at hd
      subst hs hd
      have hlink : Link u.net ⟨"isp", 0, false⟩ ⟨"isp", 1, true⟩ := ⟨0, 1, hedge, hp₀, hp₁⟩
      refine ⟨fun _ => ?_, fun hno => absurd hlink hno, fun hno => absurd hlink hno⟩
      change Double.fin 60 ≠ .nan
      simp
    · rw [← Std.ExtTreeSet.mem_toList, hext, List.mem_singleton] at hs
      rw [← Std.ExtTreeSet.mem_toList, hint, List.mem_singleton] at hd
      subst hs hd
      refine ⟨fun _ => ?_, fun _ _ => ?_, fun _ hop h => ?_⟩
      · change Double.fin 60 ≠ .nan
        simp
      · change Double.fin 60 ≠ .nan
        simp
      · rw [hhop] at h
        cases h
  · cases hcheck

/-- The route from the internal PID to the second external one comes through the first: the pDistance
is not a number. -/
theorem interdomain_undefined_behind_external :
    ¬ ∀ (libs : ViewLibs) (plugin : NetState → PinnedPIDSet → PIDMatrix) (net : NetState)
      (view : View) (agg : PIDAggregation) (routing : PIDRouting) (link intra inter : PIDMatrix)
      (u : ViewUpdate) (found : FoundPids) (pids : PinnedPIDSet),
      prepare libs net view agg = .ok (some (u, found, pids)) →
      computeResult libs plugin net view agg routing link = .ok (some (intra, inter)) →
      ∀ s d, Cross found.internal found.external s d →
        ∃ v, InterRule (updateInputs libs plugin u pids view routing link) found.internal s d v ∧
          v ≠ .nan ∧ inter.entry s d = some v := by
  intro h
  have hcheck : behindBorderChecks = true := by decide +kernel
  unfold behindBorderChecks at hcheck
  split at hcheck
  · next hprep hrun =>
    simp only [Bool.and_eq_true, beq_iff_eq, decide_eq_true_eq] at hcheck
    obtain ⟨⟨hint, hext⟩, hnan⟩ := hcheck
    obtain ⟨v, -, hv, hentry⟩ := h _ _ _ _ _ _ _ _ _ _ _ _ hprep hrun _ _ (.inl ⟨hint, hext⟩)
    rw [getByPid_eq, hentry] at hnan
    exact hv hnan
  · cases hcheck

end Alto.ViewUpdate
