import Mathlib
import Alto.Lib.MapEntries
import Alto.Portal.AltoHandlers
import Alto.Verify.PIDMapWrite
import Alto.Verify.ServedCosts

/-!
# Full and filtered maps

A filtered network map is the full one restricted to the names of the request, but for the route
`::/0` that only the full map gives to the default PID. A filtered cost map is made of the PIDs of
the aggregation, the full one of the PIDs that have prefixes; the filter works with one interval in
place of the list of constraints, and it tests the costs before they are rounded and printed.
-/

namespace Alto.Portal

open Lib

/-! ## Addresses in network maps -/

namespace InfoResourceNetworkMap

variable {netmap : InfoResourceNetworkMap} {pid name : String} {ip : List Char}
  {ips : List (List Char)}

/-- The addresses of a PID, in the order in which they have been added. -/
def groupOf (ips : List (List Char)) : Option EndpointAddrGroup :=
  if ips = [] then none else some ⟨ips.filter fun ip => !isIPv6 ip, ips.filter isIPv6⟩

/-- The members of a network map. -/
def group (netmap : InfoResourceNetworkMap) (name : String) : Option EndpointAddrGroup :=
  (netmap.pidsV4[name]?).map fun ipv4 => ⟨ipv4, (netmap.pidsV6[name]?).getD []⟩

/-- These addresses have been added. -/
def Holds (netmap : InfoResourceNetworkMap) (ips : String → List (List Char)) : Prop :=
  ∀ name, netmap.group name = groupOf (ips name)

theorem holds_empty : Holds {} fun _ => [] := by
  intro name
  simp [group, groupOf]

theorem groupOf_append_singleton (ips : List (List Char)) :
    groupOf (ips ++ [ip]) = some (if isIPv6 ip then
      ⟨ips.filter fun ip => !isIPv6 ip, ips.filter isIPv6 ++ [ip]⟩
    else ⟨(ips.filter fun ip => !isIPv6 ip) ++ [ip], ips.filter isIPv6⟩) := by
  cases h : isIPv6 ip <;> simp [groupOf, h]

theorem groupOf_length {ips ips' : List (List Char)} (h : groupOf ips = groupOf ips') :
    ips.length = ips'.length := by
  have hfilter : ∀ l : List (List Char), l.length =
      ((groupOf l).map fun g => g.ipv6.length + g.ipv4.length).getD 0 := by
    intro l
    cases l with
    | nil => rfl
    | cons ip l =>
      rw [groupOf, if_neg (List.cons_ne_nil _ _)]
      exact List.length_eq_length_filter_add isIPv6
  rw [hfilter ips, hfilter ips', h]

/-- What `addIP` finds under the name of the PID, after it has made the entries. -/
theorem addPID_get (h : netmap.group pid = groupOf ips) :
    (netmap.addPID pid).pidsV4[pid]? = some (ips.filter fun ip => !isIPv6 ip) ∧
      ((netmap.addPID pid).pidsV6[pid]?).getD [] = ips.filter isIPv6 := by
  rw [addPID, hasPID]
  cases hpid : netmap.pidsV4[pid]? with
  | none =>
    have hnil : ips = [] := by
      by_contra hne
      simp [group, hpid, groupOf, hne] at h
    simp [hnil]
  | some ipv4 =>
    have hne : ips ≠ [] := by
      rintro rfl
      simp [group, hpid, groupOf] at h
    simp only [group, hpid, Option.map_some, groupOf, if_neg hne, Option.some.injEq,
      EndpointAddrGroup.mk.injEq] at h
    simp [hpid, h]

theorem addPID_get_ne (netmap : InfoResourceNetworkMap) (h : pid ≠ name) :
    (netmap.addPID pid).pidsV4[name]? = netmap.pidsV4[name]? ∧
      (netmap.addPID pid).pidsV6[name]? = netmap.pidsV6[name]? := by
  rw [addPID]
  split
  · exact ⟨rfl, rfl⟩
  · simp [StdMap.get_insert, h]

theorem Holds.addIP {ips : String → List (List Char)} (h : netmap.Holds ips) (pid : String)
    (ip : List Char) :
    (netmap.addIP pid ip).Holds fun name => ips name ++ if pid = name then [ip] else [] := by
  intro name
  show _ = groupOf (ips name ++ if pid = name then [ip] else [])
  by_cases hname : pid = name
  · subst hname
    obtain ⟨h4, h6⟩ := addPID_get (h pid)
    rw [if_pos rfl, groupOf_append_singleton]
    cases hv6 : isIPv6 ip with
    | true => simp [InfoResourceNetworkMap.addIP, hv6, group, push, h4, h6]
    | false => simp [InfoResourceNetworkMap.addIP, hv6, group, push, h4, h6]
  · obtain ⟨h4, h6⟩ := addPID_get_ne netmap hname
    rw [if_neg hname, List.append_nil, ← h name]
    cases hv6 : isIPv6 ip with
    | true =>
      simp [InfoResourceNetworkMap.addIP, hv6, group, push, StdMap.get_insert, hname, h4, h6]
    | false =>
      simp [InfoResourceNetworkMap.addIP, hv6, group, push, StdMap.get_insert, hname, h4, h6]

/-- The entries of the committed map. -/
theorem Holds.commit {ips : String → List (List Char)} (h : netmap.Holds ips) (name : String) :
    netmap.commit[name]? = groupOf (ips name) := by
  have hcommit : netmap.commit = (netmap.pidsV4.toList.filter fun e =>
      decide (e.2 ≠ [] ∨ (netmap.pidsV6[e.1]?).getD [] ≠ [])).foldl
        (fun data e => data.insert e.1 ⟨e.2, (netmap.pidsV6[e.1]?).getD []⟩) ∅ := by
    rw [List.foldl_filter]
    simp only [decide_eq_true_eq]
    rfl
  rw [hcommit, ← h name]
  rcases StdMap.get_foldl_insert (fun e : String × List (List Char) => e.1)
    (fun e => (⟨e.2, (netmap.pidsV6[e.1]?).getD []⟩ : EndpointAddrGroup)) (netmap.pidsV4.toList.filter
      fun e => decide (e.2 ≠ [] ∨ (netmap.pidsV6[e.1]?).getD [] ≠ [])) ∅ name with
    ⟨e, he, rfl, hget⟩ | ⟨hno, hget⟩
  · have hmem := Std.ExtTreeMap.mem_toList_iff_getElem?_eq_some.1 (List.mem_filter.1 he).1
    rw [hget, group, hmem]
    rfl
  · rw [hget]
    cases hv4 : netmap.pidsV4[name]? with
    | none => simp [group, hv4]
    | some ipv4 =>
      exfalso
      have hmem := Std.ExtTreeMap.mem_toList_iff_getElem?_eq_some.2 hv4
      have hgroup := h name
      by_cases hne : ips name = []
      · simp [group, hv4, groupOf, hne] at hgroup
      refine hno (name, ipv4) (List.mem_filter.2 ⟨hmem, ?_⟩) rfl
      simp only [group, hv4, Option.map_some, groupOf, if_neg hne, Option.some.injEq,
        EndpointAddrGroup.mk.injEq] at hgroup
      rw [decide_eq_true_eq, hgroup.1, hgroup.2, ne_eq, ne_eq, ← not_and_or]
      rintro ⟨h4, h6⟩
      change (ips name).filter (fun ip => !isIPv6 ip) = [] at h4
      have hlen := List.length_eq_length_filter_add (l := ips name) isIPv6
      rw [h4, h6] at hlen
      exact hne (List.length_eq_zero_iff.1 hlen)

end InfoResourceNetworkMap

/-! ## Network maps -/

section NetMap

open InfoResourceNetworkMap

variable {netmap : InfoResourceNetworkMap} {ips : String → List (List Char)}

theorem holds_addPrefixes (net : AddressText) (h : netmap.Holds ips) (pidName : String)
    (prefixes : List IPPrefix) : (addPrefixes net netmap pidName prefixes).Holds fun name =>
      ips name ++ if pidName = name then prefixes.map (·.toText net) else [] := by
  induction prefixes generalizing netmap ips with
  | nil =>
    intro name
    simpa [addPrefixes] using h name
  | cons pfx prefixes ih =>
    intro name
    have hnext := ih (h.addIP pidName (pfx.toText net)) name
    rw [addPrefixes, List.foldl_cons]
    refine hnext.trans ?_
    by_cases hname : pidName = name <;> simp [hname]

/-- The prefixes of the PIDs with a name. -/
def prefixTexts (net : AddressText) (view : ViewState) (pids : List (PID × List IPPrefix))
    (name : String) : List (List Char) :=
  pids.flatMap fun pid =>
    if view.pidName pid.1 = name then pid.2.map (·.toText net) else []

/-- What the full map lists besides the prefixes. -/
def routeTexts (net : AddressText) (view : ViewState) (pids : List (PID × List IPPrefix))
    (name : String) : List (List Char) :=
  pids.flatMap fun pid =>
    if view.pidName pid.1 = name then
      pid.2.map (·.toText net) ++ if name = "defaultpid" then ["::/0".toList] else []
    else []

theorem holds_netMap (net : AddressText) (view : ViewState) (h : netmap.Holds ips)
    (pids : List (PID × List IPPrefix)) :
    (pids.foldl (netMapTurn net view) netmap).Holds fun name =>
      ips name ++ routeTexts net view pids name := by
  induction pids generalizing netmap ips with
  | nil =>
    intro name
    simpa [routeTexts] using h name
  | cons pid pids ih =>
    have hpid := holds_addPrefixes net h (view.pidName pid.1) pid.2
    intro name
    rw [List.foldl_cons, netMapTurn]
    split
    · next hdefault =>
      refine (ih (hpid.addIP _ _) name).trans ?_
      by_cases hname : view.pidName pid.1 = name
      · simp [routeTexts, hname, ← hdefault]
      · simp [routeTexts, hname]
    · next hdefault =>
      refine (ih hpid name).trans ?_
      by_cases hname : view.pidName pid.1 = name
      · subst hname
        simp [routeTexts, hdefault]
      · simp [routeTexts, hname]

theorem holds_netMapFiltered (net : AddressText) (pidSet : StdSet String) (view : ViewState)
    (h : netmap.Holds ips) (pids : List (PID × List IPPrefix)) :
    (pids.foldl (netMapFilteredTurn net pidSet view) netmap).Holds fun name =>
      ips name ++ if name ∈ pidSet then prefixTexts net view pids name else [] := by
  induction pids generalizing netmap ips with
  | nil =>
    intro name
    simpa [prefixTexts] using h name
  | cons pid pids ih =>
    have hpid := holds_addPrefixes net h (view.pidName pid.1) pid.2
    intro name
    rw [List.foldl_cons, netMapFilteredTurn]
    split
    · next hmem =>
      refine (ih hpid name).trans ?_
      by_cases hname : view.pidName pid.1 = name
      · subst hname
        simp [prefixTexts, hmem]
      · simp [prefixTexts, hname]
    · next hmem =>
      refine (ih h name).trans ?_
      by_cases hname : view.pidName pid.1 = name
      · simp [← hname, hmem]
      · simp [prefixTexts, hname]

/-- The filtered network map is the full one restricted to the names of the request. -/
def NetMapRestricted (net : AddressText) (pidSet : StdSet String) (view : ViewState) : Prop :=
  ∃ full filtered, getNetMapProcess net (some view) = .ok full ∧
    getNetMapFilteredFinish net pidSet (some view) = .ok filtered ∧
    ∀ name : String, filtered[name]? = if name ∈ pidSet then full[name]? else none

theorem routeTexts_of_ne {net : AddressText} {view : ViewState}
    {pids : List (PID × List IPPrefix)} {name : String}
    (h : name = "defaultpid" → ∀ pid ∈ pids, view.pidName pid.1 ≠ name) :
    routeTexts net view pids name = prefixTexts net view pids name := by
  rw [routeTexts, prefixTexts]
  apply List.flatMap_congr
  intro pid hpid
  split
  · next hname =>
    rw [if_neg fun hdefault => h hdefault pid hpid hname, List.append_nil]
  · rfl

/-- The routes make the difference. -/
theorem length_routeTexts (net : AddressText) (view : ViewState) (pids : List (PID × List IPPrefix)) :
    (routeTexts net view pids "defaultpid").length =
      (prefixTexts net view pids "defaultpid").length +
        pids.countP fun pid => view.pidName pid.1 = "defaultpid" := by
  induction pids with
  | nil => rfl
  | cons pid pids ih =>
    rw [routeTexts, prefixTexts] at ih ⊢
    rw [List.flatMap_cons, List.flatMap_cons, List.length_append, List.length_append, ih,
      List.countP_cons]
    split
    · next hname =>
      simp [hname]
      omega
    · next hname =>
      simp [hname]

theorem netMapRestricted_iff (net : AddressText) (pidSet : StdSet String) (view : ViewState) :
    NetMapRestricted net pidSet view ↔ ("defaultpid" ∈ pidSet →
      ∀ pid ∈ view.prefixes.enumerateValues, view.pidName pid ≠ "defaultpid") := by
  have hpids : ∀ pid, pid ∈ view.prefixes.enumerateValues ↔
      ∃ e ∈ view.prefixes.enumerate [], e.1 = pid := by
    intro pid
    rw [PatriciaTrie.enumerate_nil]
    simp
  have hfull := fun name => (holds_netMap net view holds_empty (view.prefixes.enumerate [])).commit name
  have hfiltered := fun name => (holds_netMapFiltered net pidSet view holds_empty
    (view.prefixes.enumerate [])).commit name
  simp only [List.nil_append] at hfull hfiltered
  constructor
  · rintro ⟨full, filtered, hf, hf', h⟩ hmem pid hpid hname
    cases hf
    cases hf'
    have hd := h "defaultpid"
    rw [hfiltered, hfull, if_pos hmem, if_pos hmem] at hd
    have hlen := groupOf_length hd
    rw [length_routeTexts] at hlen
    obtain ⟨e, he, rfl⟩ := (hpids pid).1 hpid
    have hpos : 0 < (view.prefixes.enumerate []).countP fun pid => view.pidName pid.1 = "defaultpid" :=
      List.countP_pos_iff.2 ⟨e, he, by simpa using hname⟩
    omega
  · intro h
    refine ⟨_, _, rfl, rfl, fun name => ?_⟩
    rw [hfiltered, hfull]
    split
    · next hmem =>
      rw [routeTexts_of_ne]
      rintro rfl e he
      exact h hmem e.1 ((hpids _).2 ⟨e, he, rfl⟩)
    · rfl

end NetMap

/-! ## Entries of cost maps -/

theorem CostMatrix.get_addCost (m : CostMatrix) (src dst src' dst' : String) (cost : Double) :
    (m.addCost src dst cost).get src' dst' =
      if src = src' ∧ dst = dst' then some cost else m.get src' dst' := by
  rw [addCost, get, get, StdMap.get_insert]
  by_cases hsrc : src = src'
  · subst hsrc
    simp only [if_true, Option.bind_some, StdMap.get_insert, true_and]
    split
    · rfl
    · cases m[src]? <;> simp
  · simp [hsrc]

/-- The PIDs that the view knows costs of are named. -/
def ViewState.Linked (view : ViewState) : Prop :=
  ∀ pid, (view.linkPDistances.find pid).isSome = true → view.aggregation.has pid = true

namespace ViewState

variable {view : ViewState} {costMode : String} {src dst src' dst' : PID} {cost cost' : Double}

/-- Both PIDs of an entry are in the matrix. -/
theorem find_of_cost (h : view.cost costMode src dst = some cost) :
    (view.linkPDistances.find src).isSome = true ∧
      (view.linkPDistances.find dst).isSome = true := by
  have hskip : (Double.fin (-1)).isNeg = true := by decide
  cases hs : view.linkPDistances.find src with
  | none => simp [ViewState.cost, PIDMatrix.getByPid, hs, hskip] at h
  | some s =>
    cases hd : view.linkPDistances.find dst with
    | none => simp [ViewState.cost, PIDMatrix.getByPid, hs, hd, hskip] at h
    | some d => exact ⟨rfl, rfl⟩

/-- A PID that has a name is found under it. -/
theorem lookup_pidName {pid : PID} (h : view.aggregation.has pid = true) :
    view.aggregation.lookup (view.pidName pid) = pid := by
  obtain ⟨r, hr⟩ := Option.isSome_iff_exists.1 h
  have hfind : view.aggregation.pidRecords.findName r.name = some pid :=
    PIDRecords.findName_eq_some.2 ⟨r, hr, rfl⟩
  simp [pidName, PIDAggregation.reverseLookup, PIDAggregation.lookup, hr, hfind]

theorem Linked.lookup_src (hv : view.Linked) (h : view.cost costMode src dst = some cost) :
    view.aggregation.lookup (view.pidName src) = src :=
  lookup_pidName (hv src (find_of_cost h).1)

theorem Linked.lookup_dst (hv : view.Linked) (h : view.cost costMode src dst = some cost) :
    view.aggregation.lookup (view.pidName dst) = dst :=
  lookup_pidName (hv dst (find_of_cost h).2)

/-- The names of the PIDs of an entry determine it. -/
theorem Linked.inj (hv : view.Linked) (h : view.cost costMode src dst = some cost)
    (h' : view.cost costMode src' dst' = some cost') (hsrc : view.pidName src = view.pidName src')
    (hdst : view.pidName dst = view.pidName dst') : src = src' ∧ dst = dst' ∧ cost = cost' := by
  obtain rfl : src = src' := by rw [← hv.lookup_src h, hsrc, hv.lookup_src h']
  obtain rfl : dst = dst' := by rw [← hv.lookup_dst h, hdst, hv.lookup_dst h']
  exact ⟨rfl, rfl, Option.some.inj (h.symm.trans h')⟩

end ViewState

theorem mem_pidSetOf {pids : List PID} {pid : PID} : pid ∈ pidSetOf pids ↔ pid ∈ pids := by
  rw [pidSetOf, StdSet.mem_foldl_insert]
  exact or_iff_left Std.ExtTreeSet.not_mem_empty

section CostMap

variable {view : ViewState} {costMode : String} {test : Double → Bool}

/-- An entry that the loops make of a pair. -/
structure MakesEntry (view : ViewState) (costMode : String) (test : Double → Bool) (s d : String)
    (c : Double) (pair : PID × PID) : Prop where
  src : view.pidName pair.1 = s
  dst : view.pidName pair.2 = d
  cost : view.cost costMode pair.1 pair.2 = some c
  test : test c = true

theorem MakesEntry.unique (hv : view.Linked) {s d : String} {c c' : Double}
    {pair pair' : PID × PID} (h : MakesEntry view costMode test s d c pair)
    (h' : MakesEntry view costMode test s d c' pair') : c = c' :=
  (hv.inj h.cost h'.cost (h.src.trans h'.src.symm) (h.dst.trans h'.dst.symm)).2.2

/-- A turn puts its entry into the map, if it makes one. -/
theorem get_costMapTurn (m : CostMatrix) (pair : PID × PID) (s d : String) :
    (∃ c, MakesEntry view costMode test s d c pair ∧
      (costMapTurn view costMode test m pair).get s d = some c) ∨
    (∀ c, ¬ MakesEntry view costMode test s d c pair) ∧
      (costMapTurn view costMode test m pair).get s d = m.get s d := by
  cases hcost : view.cost costMode pair.1 pair.2 with
  | none =>
    refine .inr ⟨fun c h => ?_, ?_⟩
    · rw [h.cost] at hcost
      cases hcost
    · simp only [costMapTurn, hcost]
  | some c =>
    cases htest : test c with
    | false =>
      refine .inr ⟨fun c' h => ?_, ?_⟩
      · cases hcost.symm.trans h.cost
        rw [h.test] at htest
        cases htest
      · simp [costMapTurn, hcost, htest]
    | true =>
      by_cases hnames : view.pidName pair.1 = s ∧ view.pidName pair.2 = d
      · refine .inl ⟨c, ⟨hnames.1, hnames.2, hcost, htest⟩, ?_⟩
        simp [costMapTurn, hcost, htest, CostMatrix.get_addCost, hnames]
      · refine .inr ⟨fun c' h => hnames ⟨h.src, h.dst⟩, ?_⟩
        simp only [costMapTurn, hcost, htest, if_true, CostMatrix.get_addCost, if_neg hnames]

theorem get_foldl_costMapTurn (view : ViewState) (costMode : String) (test : Double → Bool)
    (pairs : List (PID × PID)) (m : CostMatrix) (s d : String) :
    (∃ c, ∃ pair ∈ pairs, MakesEntry view costMode test s d c pair ∧
      (pairs.foldl (costMapTurn view costMode test) m).get s d = some c) ∨
    (∀ pair ∈ pairs, ∀ c, ¬ MakesEntry view costMode test s d c pair) ∧
      (pairs.foldl (costMapTurn view costMode test) m).get s d = m.get s d := by
  induction pairs generalizing m with
  | nil => exact .inr ⟨nofun, rfl⟩
  | cons pair pairs ih =>
    rw [List.foldl_cons]
    rcases ih (costMapTurn view costMode test m pair) with ⟨c, pair', hmem, hc, hget⟩ | ⟨hno, hget⟩
    · exact .inl ⟨c, pair', List.mem_cons_of_mem _ hmem, hc, hget⟩
    rcases get_costMapTurn m pair s d with ⟨c, hc, hget'⟩ | ⟨hno', hget'⟩
    · exact .inl ⟨c, pair, List.mem_cons_self, hc, hget.trans hget'⟩
    · refine .inr ⟨fun x hx => ?_, hget.trans hget'⟩
      rcases List.mem_cons.1 hx with rfl | hx
      · exact hno'
      · exact hno x hx

/-- The entries of the map that the loops make. -/
theorem get_costMapLoop (hv : view.Linked) {allSrc allDst : StdSet PID} {s d : String} {c : Double} :
    (costMapLoop view costMode test allSrc allDst).get s d = some c ↔
      ∃ p ∈ allSrc, ∃ q ∈ allDst, MakesEntry view costMode test s d c (p, q) := by
  have hpairs : ∀ pair : PID × PID, pair ∈ allSrc.toList.product allDst.toList ↔
      pair.1 ∈ allSrc ∧ pair.2 ∈ allDst := by
    rintro ⟨p, q⟩
    exact List.mem_product.trans (and_congr Std.ExtTreeSet.mem_toList Std.ExtTreeSet.mem_toList)
  rw [costMapLoop]
  rcases get_foldl_costMapTurn view costMode test (allSrc.toList.product allDst.toList) ∅ s d with
    ⟨c', pair, hmem, hc', hget⟩ | ⟨hno, hget⟩
  · rw [hget]
    constructor
    · rintro ⟨⟩
      exact ⟨pair.1, ((hpairs pair).1 hmem).1, pair.2, ((hpairs pair).1 hmem).2, hc'⟩
    · rintro ⟨p, -, q, -, hc⟩
      rw [hc'.unique hv hc]
  · rw [hget]
    constructor
    · intro h
      simp [CostMatrix.get] at h
    · rintro ⟨p, hp, q, hq, hc⟩
      exact absurd hc (hno (p, q) ((hpairs _).2 ⟨hp, hq⟩) c)

/-! ## Constraints -/

/-- A constraint on a value. Other operators are no constraint. -/
def ConstraintHolds (strtod : List Char → Double) (value : Double) (cons : List Char) : Prop :=
  let opr := cons.take 2
  let bound := strtod (cons.drop 2)
  (opr = "lt".toList → value.lt bound = true) ∧ (opr = "gt".toList → bound.lt value = true) ∧
    (opr = "le".toList → value.le bound = true) ∧ (opr = "ge".toList → bound.le value = true) ∧
    (opr = "eq".toList → value.eq bound = true)

/-- All constraints of a request hold. -/
def CostFilter.Satisfied (strtod : List Char → Double) (pidMat : CostFilter) (value : Double) :
    Prop :=
  ∀ array, pidMat.constraints = some array → ∀ cons ∈ array, ConstraintHolds strtod value cons

/-- The interval that the filter makes of the constraints holds the value. -/
def CostFilter.admits (strtod : List Char → Double) (pidMat : CostFilter) (value : Double) : Bool :=
  (PostFilter.readConstraints strtod pidMat.constraints).any (·.inConstraints value)

/-- The constraints up to the first equation have an operator. -/
def CostFilter.WellFormed (pidMat : CostFilter) : Prop :=
  ∀ array, pidMat.constraints = some array →
    ∀ cons ∈ array.takeWhile (fun cons => cons.take 2 ≠ "eq".toList), 2 ≤ cons.length

theorem readConstraint_cases (strtod : List Char → Double) (f : PostFilter) (cons : List Char) :
    (cons.length < 2 ∧ PostFilter.readConstraint strtod f cons = none) ∨
      2 ≤ cons.length ∧ ∃ f', PostFilter.readConstraint strtod f cons =
        some (f', decide (cons.take 2 = "eq".toList)) := by
  unfold PostFilter.readConstraint
  split
  · exact .inl ⟨‹_›, rfl⟩
  · refine .inr ⟨by omega, ?_⟩
    dsimp only
    split
    · next h => exact ⟨_, by rw [h.1]; rfl⟩
    split
    · next h => exact ⟨_, by rw [h.1]; rfl⟩
    split
    · next h => exact ⟨_, by rw [h.1]; rfl⟩
    split
    · next h => exact ⟨_, by rw [h.1]; rfl⟩
    split
    · next h => exact ⟨_, by rw [h]; rfl⟩
    · next h => exact ⟨_, by rw [decide_eq_false h]⟩

theorem readLoop_isSome (strtod : List Char → Double) (array : List (List Char)) (f : PostFilter) :
    (PostFilter.readLoop strtod array f).isSome = true ↔
      ∀ cons ∈ array.takeWhile (fun cons => cons.take 2 ≠ "eq".toList), 2 ≤ cons.length := by
  induction array generalizing f with
  | nil => simp [PostFilter.readLoop]
  | cons cons array ih =>
    rw [PostFilter.readLoop]
    rcases readConstraint_cases strtod f cons with ⟨hlt, hr⟩ | ⟨hle, f', hr⟩
    · have hne : cons.take 2 ≠ "eq".toList := by
        intro h
        have := congrArg List.length h
        simp at this
        omega
      rw [hr, List.takeWhile_cons_of_pos (by simpa using hne)]
      simp only [Option.isSome_none, Bool.false_eq_true, false_iff]
      intro h
      have := h cons (by simp)
      omega
    · rw [hr]
      by_cases heq : cons.take 2 = "eq".toList
      · rw [decide_eq_true heq, List.takeWhile_cons_of_neg (by simpa using heq)]
        simp
      · rw [decide_eq_false heq, List.takeWhile_cons_of_pos (by simpa using heq)]
        simp only [ih, List.forall_mem_cons]
        exact ⟨fun h => ⟨hle, h⟩, fun h => h.2⟩

theorem CostFilter.wellFormed_iff (strtod : List Char → Double) (pidMat : CostFilter) :
    pidMat.WellFormed ↔ ∃ f, PostFilter.readConstraints strtod pidMat.constraints = some f := by
  rw [WellFormed, ← Option.isSome_iff_exists]
  cases pidMat.constraints with
  | none => simp [PostFilter.readConstraints]
  | some array =>
    rw [PostFilter.readConstraints, readLoop_isSome]
    simp

/-! ## Filtered cost maps -/

/-- A client reads in the filtered cost map exactly the entries of the full one between sources and
destinations of the request whose cost satisfies all constraints. -/
def CostMapRestricted (ar : Arith) (vtag : String) (strtod : List Char → Double)
    (pidMat : CostFilter) (view : ViewState) : Prop :=
  ∃ full filtered,
    getCostMapFinish ar vtag pidMat.costMode pidMat.costType (some view) = .ok full ∧
    getCostMapFilteredFinish ar vtag strtod pidMat (some view) = some (.ok filtered) ∧
    ∀ (s d : String) (c : Double), servedCost filtered s d = some c ↔
      s ∈ pidMat.srcs ∧ d ∈ pidMat.dsts ∧ servedCost full s d = some c ∧ pidMat.Satisfied strtod c

/-- The requests whose filtered cost map is a part of the full one. -/
structure CostCondition (ar : Arith) (strtod : List Char → Double) (pidMat : CostFilter)
    (view : ViewState) : Prop where
  wellFormed : pidMat.WellFormed
  /-- No cost is admitted of a PID without prefixes, of the PID that stands for unknown names, or
  with a number that violates a constraint. -/
  sound : ∀ s ∈ pidMat.srcs, ∀ d ∈ pidMat.dsts, ∀ p q c, view.aggregation.lookup s = p →
    view.aggregation.lookup d = q → view.cost pidMat.costMode p q = some c →
    pidMat.admits strtod c = true → view.prefixes.hasPrefixes p = true ∧
      view.prefixes.hasPrefixes q = true ∧ view.pidName p ∈ pidMat.srcs ∧
      view.pidName q ∈ pidMat.dsts ∧ pidMat.Satisfied strtod (.fin (ar.served c))
  /-- Every cost whose number satisfies the constraints is admitted. -/
  complete : ∀ p q c, view.prefixes.hasPrefixes p = true → view.prefixes.hasPrefixes q = true →
    view.pidName p ∈ pidMat.srcs → view.pidName q ∈ pidMat.dsts →
    view.cost pidMat.costMode p q = some c → pidMat.Satisfied strtod (.fin (ar.served c)) →
    pidMat.admits strtod c = true

theorem mem_lookupSet {names : StdSet String} {pid : PID} :
    pid ∈ lookupSet view names ↔ ∃ name ∈ names, view.aggregation.lookup name = pid := by
  rw [lookupSet, mem_pidSetOf, List.mem_map]
  simp only [Std.ExtTreeSet.mem_toList]

theorem mem_allPids {pid : PID} :
    pid ∈ pidSetOf view.prefixes.enumerateValues ↔ view.prefixes.hasPrefixes pid = true := by
  rw [mem_pidSetOf, PatriciaTrie.enumerateValues, PatriciaTrie.hasPrefixes,
    Std.ExtTreeMap.mem_keys, Std.ExtTreeMap.contains_iff_mem]

/-- The entries of the full cost map. -/
theorem get_costMap (hv : view.Linked) {ar : Arith} {vtag costType : String} {full : List Char}
    (h : getCostMapFinish ar vtag costMode costType (some view) = .ok full) {s d : String}
    {n : Double} :
    servedCost full s d = some n ↔ ∃ p q c, view.prefixes.hasPrefixes p = true ∧
      view.prefixes.hasPrefixes q = true ∧ view.pidName p = s ∧ view.pidName q = d ∧
      view.cost costMode p q = some c ∧ .fin (ar.served c) = n := by
  rw [getCostMapFinish] at h
  split at h
  · cases h
  split at h
  · cases h
  cases h
  rw [servedCost_commit, Option.map_eq_some_iff]
  simp only [get_costMapLoop hv, mem_allPids]
  constructor
  · rintro ⟨c, ⟨p, hp, q, hq, hc⟩, rfl⟩
    exact ⟨p, q, c, hp, hq, hc.src, hc.dst, hc.cost, rfl⟩
  · rintro ⟨p, q, c, hp, hq, hs, hd, hc, rfl⟩
    exact ⟨c, ⟨p, hp, q, hq, hs, hd, hc, rfl⟩, rfl⟩

/-- The entries of the filtered cost map. -/
theorem get_costMapFiltered (hv : view.Linked) {ar : Arith} {vtag : String}
    {strtod : List Char → Double} {pidMat : CostFilter} {filtered : List Char}
    (h : getCostMapFilteredFinish ar vtag strtod pidMat (some view) = some (.ok filtered))
    {s d : String} {n : Double} :
    servedCost filtered s d = some n ↔ ∃ p q c, p ∈ lookupSet view pidMat.srcs ∧
      q ∈ lookupSet view pidMat.dsts ∧ view.pidName p = s ∧ view.pidName q = d ∧
      view.cost pidMat.costMode p q = some c ∧ pidMat.admits strtod c = true ∧
      .fin (ar.served c) = n := by
  rw [getCostMapFilteredFinish] at h
  cases hf : PostFilter.readConstraints strtod pidMat.constraints with
  | none =>
    rw [hf] at h
    cases h
  | some f =>
    simp only [hf, Option.bind_eq_bind, Option.bind_some] at h
    split at h
    · cases h
    split at h
    · cases h
    cases h
    have hadmits : ∀ c, pidMat.admits strtod c = f.inConstraints c := by
      intro c
      rw [CostFilter.admits, hf]
      rfl
    rw [servedCost_commit, Option.map_eq_some_iff]
    simp only [get_costMapLoop hv, hadmits]
    constructor
    · rintro ⟨c, ⟨p, hp, q, hq, hc⟩, rfl⟩
      exact ⟨p, q, c, hp, hq, hc.src, hc.dst, hc.cost, hc.test, rfl⟩
    · rintro ⟨p, q, c, hp, hq, hs, hd, hc, ht, rfl⟩
      exact ⟨c, ⟨p, hp, q, hq, hs, hd, hc, ht⟩, rfl⟩

theorem costMapRestricted_iff (hv : view.Linked) (ar : Arith) (vtag : String)
    (strtod : List Char → Double) {pidMat : CostFilter} (hmode : pidMat.costMode ∈ costModeSet)
    (htype : pidMat.costType ∈ costTypeSet) :
    CostMapRestricted ar vtag strtod pidMat view ↔ CostCondition ar strtod pidMat view := by
  constructor
  · rintro ⟨full, filtered, hfull, hfiltered, h⟩
    refine ⟨?_, ?_, ?_⟩
    · rw [CostFilter.wellFormed_iff strtod]
      cases hf : PostFilter.readConstraints strtod pidMat.constraints with
      | none =>
        rw [getCostMapFilteredFinish, hf] at hfiltered
        cases hfiltered
      | some f => exact ⟨f, rfl⟩
    · intro s hs d hd p q c hp hq hc hadmits
      have hget : servedCost filtered (view.pidName p) (view.pidName q) =
          some (.fin (ar.served c)) :=
        (get_costMapFiltered hv hfiltered).2 ⟨p, q, c, mem_lookupSet.2 ⟨s, hs, hp⟩,
          mem_lookupSet.2 ⟨d, hd, hq⟩, rfl, rfl, hc, hadmits, rfl⟩
      obtain ⟨hsrc, hdst, hget', hsat⟩ := (h _ _ _).1 hget
      obtain ⟨p', q', c', hp', hq', hnp, hnq, hc', -⟩ := (get_costMap hv hfull).1 hget'
      obtain ⟨rfl, rfl, -⟩ := hv.inj hc' hc hnp hnq
      exact ⟨hp', hq', hsrc, hdst, hsat⟩
    · intro p q c hp hq hsrc hdst hc hsat
      have hget : servedCost full (view.pidName p) (view.pidName q) = some (.fin (ar.served c)) :=
        (get_costMap hv hfull).2 ⟨p, q, c, hp, hq, rfl, rfl, hc, rfl⟩
      obtain ⟨p', q', c', -, -, hnp, hnq, hc', hadmits, -⟩ :=
        (get_costMapFiltered hv hfiltered).1 ((h _ _ _).2 ⟨hsrc, hdst, hget, hsat⟩)
      obtain ⟨-, -, rfl⟩ := hv.inj hc' hc hnp hnq
      exact hadmits
  · rintro ⟨hwf, hsound, hcomplete⟩
    obtain ⟨f, hf⟩ := (CostFilter.wellFormed_iff strtod pidMat).1 hwf
    obtain ⟨full, hfull⟩ : ∃ full,
        getCostMapFinish ar vtag pidMat.costMode pidMat.costType (some view) = .ok full := by
      simp [getCostMapFinish, hmode, htype]
    obtain ⟨filtered, hfiltered⟩ : ∃ filtered,
        getCostMapFilteredFinish ar vtag strtod pidMat (some view) = some (.ok filtered) := by
      simp [getCostMapFilteredFinish, hf, hmode, htype]
    refine ⟨full, filtered, hfull, hfiltered, fun s d n => ?_⟩
    rw [get_costMapFiltered hv hfiltered, get_costMap hv hfull]
    constructor
    · rintro ⟨p, q, c, hp, hq, rfl, rfl, hc, hadmits, rfl⟩
      obtain ⟨s, hs, hps⟩ := mem_lookupSet.1 hp
      obtain ⟨d, hd, hqd⟩ := mem_lookupSet.1 hq
      obtain ⟨hp', hq', hsrc, hdst, hsat⟩ := hsound s hs d hd p q c hps hqd hc hadmits
      exact ⟨hsrc, hdst, ⟨p, q, c, hp', hq', rfl, rfl, hc, rfl⟩, hsat⟩
    · rintro ⟨hsrc, hdst, ⟨p, q, c, hp, hq, rfl, rfl, hc, rfl⟩, hsat⟩
      have hadmits := hcomplete p q c hp hq hsrc hdst hc hsat
      exact ⟨p, q, c, mem_lookupSet.2 ⟨_, hsrc, hv.lookup_src hc⟩,
        mem_lookupSet.2 ⟨_, hdst, hv.lookup_dst hc⟩, rfl, rfl, hc, hadmits, rfl⟩

end CostMap

/-- A filtered network map is the full one restricted to the request exactly if the request does not
name the default PID, or that PID has no prefixes; a filtered cost map is the full one restricted to
the request exactly under `CostCondition`. -/
theorem filtered_maps_restrict_iff (net : AddressText) (ar : Arith) (vtag : String)
    (strtod : List Char → Double) (view : ViewState) (hv : view.Linked) (pidSet : StdSet String)
    (pidMat : CostFilter)
    (hmode : pidMat.costMode ∈ costModeSet) (htype : pidMat.costType ∈ costTypeSet) :
    (NetMapRestricted net pidSet view ↔ ("defaultpid" ∈ pidSet →
      ∀ pid ∈ view.prefixes.enumerateValues, view.pidName pid ≠ "defaultpid")) ∧
    (CostMapRestricted ar vtag strtod pidMat view ↔ CostCondition ar strtod pidMat view) :=
  ⟨netMapRestricted_iff net pidSet view, costMapRestricted_iff hv ar vtag strtod hmode htype⟩

/-! ## Views with one and two PIDs -/

/-- `1.i.isp`. -/
def onePid : PID := ⟨"isp", 1, false⟩

/-- The PID has the prefix `10.0.0.0/8`, this name and a link to itself. -/
def oneView (name : String) : ViewState where
  prefixes := (PatriciaTrie.empty.add (fun _ _ => false) PatriciaTrie.ten8 onePid).2
  aggregation := (PIDAggregation.empty.add name onePid ∅).2
  linkPDistances := ((PIDMatrix.empty.addPid onePid).2.setByPid onePid onePid 5).2
  intradomainRouting := .new 1

/-- Exact arithmetic, which is that of the machine for small numbers. -/
def exactArith : Arith where
  mul
    | .fin x, .fin y => .fin (x * y)
    | _, _ => .nan
  add
    | .fin x, .fin y => .fin (x + y)
    | _, _ => .nan
  toInt
    | .fin x => x.num.tdiv x.den
    | _ => 0
  tenth n := n / 10

/-- `2.i.isp`. -/
def otherPid : PID := ⟨"isp", 2, false⟩

/-- The PID "a" has the prefix `10.0.0.0/8` and a link of cost 5 to the PID "b", which has `10.1.0.0/16`
and a link of cost 100.4 back. -/
def twoView : ViewState where
  prefixes := ((PatriciaTrie.empty.add (fun _ _ => false) PatriciaTrie.ten8 onePid).2.add
    (fun _ _ => false) PatriciaTrie.tenOne16 otherPid).2
  aggregation := ((PIDAggregation.empty.add "a" onePid ∅).2.add "b" otherPid ∅).2
  linkPDistances := ((((PIDMatrix.empty.addPid onePid).2.addPid otherPid).2.setByPid onePid otherPid
    5).2.setByPid otherPid onePid (.fin (1004 / 10))).2
  intradomainRouting := .new 1

theorem twoView_find {pid : PID} (h : (twoView.linkPDistances.find pid).isSome = true) :
    pid = onePid ∨ pid = otherPid := by
  have hpids : twoView.linkPDistances.pids = [⟨onePid, 0⟩, ⟨otherPid, 1⟩] := by decide +kernel
  rw [PIDMatrix.find, hpids, List.find?_isSome] at h
  obtain ⟨p, hp, hpid⟩ := h
  have hpid : p.pid = pid := of_decide_eq_true hpid
  rcases List.mem_cons.1 hp with rfl | hp
  · exact .inl hpid.symm
  · rw [List.mem_singleton.1 hp] at hpid
    exact .inr hpid.symm

theorem twoView_linked : twoView.Linked := by
  intro pid h
  rcases twoView_find h with rfl | rfl
  · decide +kernel
  · decide +kernel

/-- The costs between the two PIDs. -/
theorem twoView_cost {p q : PID} {c : Double} (h : twoView.cost "ordinal" p q = some c) :
    (p = onePid ∧ q = otherPid ∧ c = 5) ∨ (p = otherPid ∧ q = onePid ∧ c = .fin (1004 / 10)) := by
  have hone : twoView.cost "ordinal" onePid onePid = none := by decide +kernel
  have hother : twoView.cost "ordinal" otherPid otherPid = none := by decide +kernel
  obtain ⟨hp, hq⟩ := ViewState.find_of_cost h
  rcases twoView_find hp with rfl | rfl
  · rcases twoView_find hq with rfl | rfl
    · cases hone.symm.trans h
    · exact .inl ⟨rfl, rfl, Option.some.inj (h.symm.trans (by decide +kernel))⟩
  · rcases twoView_find hq with rfl | rfl
    · exact .inr ⟨rfl, rfl, Option.some.inj (h.symm.trans (by decide +kernel))⟩
    · cases hother.symm.trans h

/-- The map of the PID "a", and the costs below 6 between the two. -/
theorem filtered_maps_restrict_iff_two :
    NetMapRestricted tenText {"a"} twoView ∧
      CostMapRestricted exactArith "1" (fun _ => 6)
        ⟨"ordinal", "routingcost", some ["lt6".toList], {"a", "b"}, {"a", "b"}⟩ twoView := by
  obtain ⟨hnet, hcost⟩ := filtered_maps_restrict_iff tenText exactArith "1" (fun _ => 6) twoView
    twoView_linked {"a"} ⟨"ordinal", "routingcost", some ["lt6".toList], {"a", "b"}, {"a", "b"}⟩
    (by decide) (by decide)
  refine ⟨hnet.2 fun hmem => ?_, hcost.2 ⟨?_, ?_, ?_⟩⟩
  · rw [StdSet.mem_singleton] at hmem
    exact absurd hmem (by decide)
  · rintro array ⟨⟩
    decide
  · intro s hs d hd p q c hp hq hc hadmits
    rcases twoView_cost hc with ⟨rfl, rfl, rfl⟩ | ⟨rfl, rfl, rfl⟩
    · refine ⟨by decide +kernel, by decide +kernel, by decide +kernel, by decide +kernel, ?_⟩
      rintro array ⟨⟩ cons hcons
      rw [List.mem_singleton.1 hcons]
      exact ⟨fun _ => by decide +kernel, nofun, nofun, nofun, nofun⟩
    · exact absurd hadmits (by decide +kernel)
  · intro p q c hp hq hs hd hc hsat
    rcases twoView_cost hc with ⟨rfl, rfl, rfl⟩ | ⟨rfl, rfl, rfl⟩
    · decide +kernel
    · exact absurd ((hsat _ rfl _ (List.mem_singleton.2 rfl)).1 rfl) (by decide +kernel)

/-- The filtered map of the default PID lacks `::/0`. -/
theorem not_netMapRestricted_default :
    ¬ NetMapRestricted tenText {"defaultpid"} (oneView "defaultpid") := by
  rw [netMapRestricted_iff]
  intro h
  exact h (StdSet.mem_singleton.2 rfl) onePid (by decide) (by decide)

end Alto.Portal
