import Alto.Verify.AltoMaps

/-!
# The ALTO services side by side

The property of an endpoint comes from a lookup in the trie of prefixes, the network map from an
enumeration of the trie; the cost of a pair of endpoints comes from their PIDs, an entry of the cost map
from the last pair of PIDs with its names.
-/

namespace Alto.PatriciaTrie

open Lib Patricia

variable {T : Type} {M : PrefixMap T} {q p p' : IPPrefix} {behind : Nat → Bool}

/-! ## Where a lookup ends -/

/-- The stored prefix at which a lookup ends: one beyond the query, or else the longest one that shares
its bits with the query. It may be of the other family. -/
inductive Found (M : PrefixMap T) (behind : Nat → Bool) (q p : IPPrefix) : Prop where
  | beyond (h : Beyond M behind q p)
  | longest (hno : ∀ p', ¬ Beyond M behind q p') (hmem : M p ≠ none) (hbits : p.bits <+: q.bits)
      (hmax : ∀ p', M p' ≠ none → p'.bits <+: q.bits → p'.length ≤ p.length)

theorem Found.mem (h : Found M behind q p) : M p ≠ none := by
  cases h with
  | beyond h => exact h.mem
  | longest _ hmem _ _ => exact hmem

theorem Beyond.prefix (h : Beyond M behind q p) : q.bits <+: p.bits := by
  refine prefix_iff_getD.2 ⟨h.longer.le, fun i hi => ?_⟩
  rw [← bitTest_eq q behind hi]
  exact (h.agrees i (hi.trans h.longer)).symm

/-- Among the prefixes of a kind that share their bits with the query there is a longest one. -/
theorem exists_longest {P : IPPrefix → Prop} (hp : P p) (hbits : p.bits <+: q.bits) :
    ∃ p', P p' ∧ p'.bits <+: q.bits ∧
      ∀ p'', P p'' → p''.bits <+: q.bits → p''.length ≤ p'.length := by
  induction hn : q.length - p.length using Nat.strong_induction_on generalizing p with
  | _ n ih =>
    by_cases hmax : ∀ p'', P p'' → p''.bits <+: q.bits → p''.length ≤ p.length
    · exact ⟨p, hp, hbits, hmax⟩
    · push Not at hmax
      obtain ⟨p'', hp'', hbits'', hlt⟩ := hmax
      have hle : p''.length ≤ q.length := hbits''.length_le
      exact ih (q.length - p''.length) (by omega) hp'' hbits'' rfl

theorem exists_found (behind : Nat → Bool) (hp : M p ≠ none) (hbits : p.bits <+: q.bits) : ∃ p', Found M behind q p' := by
  by_cases hbeyond : ∃ p', Beyond M behind q p'
  · obtain ⟨p', hp'⟩ := hbeyond
    exact ⟨p', .beyond hp'⟩
  · obtain ⟨p', hp', hbits', hmax⟩ := exists_longest (P := fun p => M p ≠ none) hp hbits
    exact ⟨p', .longest (fun p'' h => hbeyond ⟨p'', h⟩) hp' hbits' hmax⟩

theorem IsLongestMatch.unique {v v' : T} (h : IsLongestMatch M q p v)
    (h' : IsLongestMatch M q p' v') : p = p' ∧ v = v' := by
  have hlen : p.length = p'.length :=
    Nat.le_antisymm (h'.longest p v h.mem h.contains) (h.longest p' v' h'.mem h'.contains)
  have hbits : p.bits = p'.bits :=
    (List.prefix_of_prefix_length_le h.contains.2 h'.contains.2 hlen.le).eq_of_length hlen
  obtain rfl : p = p' := IPPrefix.ext' (h.contains.1.trans h'.contains.1.symm) hbits
  exact ⟨rfl, Option.some.inj (h.mem.symm.trans h'.mem)⟩

variable [LinearOrder T] {trie : PatriciaTrie T}

/-- A lookup ends at one prefix. -/
theorem Found.unique (h : Represents trie M) (hp : Found M behind q p) (hp' : Found M behind q p') :
    p = p' := by
  have hbits : p.bits = p'.bits := by
    cases hp with
    | beyond hp =>
      cases hp' with
      | beyond hp' =>
        exact (hp.top p' hp'.mem hp'.prefix).eq_of_length_le
          (hp'.top p hp.mem hp.prefix).length_le
      | longest hno => exact absurd hp (hno p)
    | longest hno hmem hbits hmax =>
      cases hp' with
      | beyond hp' => exact absurd hp' (hno p')
      | longest _ hmem' hbits' hmax' =>
        have hlen : p.length = p'.length :=
          Nat.le_antisymm (hmax' p hmem hbits) (hmax p' hmem' hbits')
        exact (List.prefix_of_prefix_length_le hbits hbits' hlen.le).eq_of_length hlen
  obtain ⟨v, hv⟩ := Option.ne_none_iff_exists'.1 hp.mem
  obtain ⟨v', hv'⟩ := Option.ne_none_iff_exists'.1 hp'.mem
  exact h.bits_inj hv hv' hbits

/-- The map that a trie stands for. -/
def contents (trie : PatriciaTrie T) : PrefixMap T := fun p =>
  (trie.tree.walk.find? fun e => decide (e.pfx = p)).bind (·.data)

theorem represents_contents (hinv : Inv trie) : Represents trie trie.contents := by
  refine ⟨hinv, fun p v => ?_⟩
  rw [contents, Option.bind_eq_some_iff]
  constructor
  · rintro ⟨⟨p', data⟩, hfind, rfl⟩
    have hpfx : p' = p := by simpa using List.find?_some hfind
    rw [← hpfx]
    exact List.mem_of_find?_eq_some hfind
  · intro hmem
    cases hfind : trie.tree.walk.find? fun e => decide (e.pfx = p) with
    | none => exact absurd (List.find?_eq_none.1 hfind _ hmem) (by simp)
    | some e =>
      have hpfx : e.pfx = p := by simpa using List.find?_some hfind
      have heq : e = ⟨p, some v⟩ := hinv.wf.key_inj (List.mem_of_find?_eq_some hfind) hmem
        (congrArg IPPrefix.bits hpfx)
      exact ⟨e, rfl, by rw [heq]⟩

theorem lookup_eq_some_iff (h : Represents trie M) (behind : Behind) {v : T} :
    trie.lookup behind q = some (p, v) ↔ Found M (behind q) q p ∧ M p = some v := by
  have hbest := patriciaSearchBest_spec h.inv.wf q (behind q)
  generalize hres : patriciaSearchBest trie.tree q (behind q) = res at hbest
  have hno : (∀ e', ¬ Overshoots q (behind q) trie.tree.walk e') →
      ∀ p', ¬ Beyond M (behind q) q p' := by
    intro hno p' hp'
    obtain ⟨v', hv'⟩ := Option.ne_none_iff_exists'.1 hp'.mem
    have he := (h.mem p' v').1 hv'
    exact hno _ ((h.overshoots_iff he).2 hp')
  have hstored : ∀ p', M p' ≠ none → ∃ v', (⟨p', some v'⟩ : Entry T) ∈ trie.tree.walk := by
    intro p' hp'
    obtain ⟨v', hv'⟩ := Option.ne_none_iff_exists'.1 hp'
    exact ⟨v', (h.mem p' v').1 hv'⟩
  have hsome : ∀ e : Entry T, res = some e → e ∈ trie.tree.walk → Found M (behind q) q e.pfx →
      (trie.lookup behind q = some (p, v) ↔ Found M (behind q) q p ∧ M p = some v) := by
    intro e he hmem hfound
    obtain ⟨w, hd, hw⟩ := h.entry hmem
    have hl : trie.lookup behind q = some (e.pfx, w) := by simp [lookup, hres, he, hd]
    rw [hl, Option.some.injEq, Prod.mk.injEq]
    constructor
    · rintro ⟨rfl, rfl⟩
      exact ⟨hfound, hw⟩
    · rintro ⟨hp, hv⟩
      obtain rfl := hfound.unique h hp
      exact ⟨rfl, Option.some.inj (hw.symm.trans hv)⟩
  cases hbest with
  | @overshot e ho => exact hsome e rfl ho.mem (.beyond ((h.overshoots_iff ho.mem).1 ho))
  | @longest e he hk hmax hnone =>
    obtain ⟨w, -, hw⟩ := h.entry he
    refine hsome e rfl he (.longest (hno hnone) (by simp [hw]) hk fun p' hp' hb => ?_)
    obtain ⟨v', hv'⟩ := hstored p' hp'
    exact hmax _ hv' hb
  | absent hk hnone =>
    have hl : trie.lookup behind q = none := by simp [lookup, hres]
    rw [hl]
    refine iff_of_false (by simp) ?_
    rintro ⟨hp, hv⟩
    cases hp with
    | beyond hp => exact hno hnone p hp
    | longest _ hmem hbits =>
      obtain ⟨v', hv'⟩ := hstored p hmem
      exact hk _ hv' hbits

end Alto.PatriciaTrie

namespace Alto.Portal

open Lib PatriciaTrie InfoResourceNetworkMap

variable {net : AddressText} {behind : Behind} {view : ViewState} {M : PrefixMap PID}
  {full : NetworkMapData} {name : String} {p a : IPPrefix}

/-! ## The network map -/

/-- `::/0`. -/
def anyIPv6 : IPPrefix := .ofRaw .inet6 [] 0

/-- The network map lists a prefix under the name of a PID. -/
def Lists (net : AddressText) (full : NetworkMapData) (name : String) (p : IPPrefix) : Prop :=
  ∃ g text, full[name]? = some g ∧ text ∈ g.ipv4 ++ g.ipv6 ∧ IPPrefix.ofText net text = some p

/-- A PID with prefixes has the name to which the map adds `::/0`. -/
def HasDefault (view : ViewState) (M : PrefixMap PID) : Prop :=
  ∃ p v, M p = some v ∧ view.pidName v = "defaultpid"

theorem mem_groupOf {ips : List (List Char)} {text : List Char} :
    (∃ g, groupOf ips = some g ∧ text ∈ g.ipv4 ++ g.ipv6) ↔ text ∈ ips := by
  unfold groupOf
  constructor
  · rintro ⟨g, hg, htext⟩
    split at hg
    · cases hg
    · obtain rfl := Option.some.inj hg
      rcases List.mem_append.1 htext with h | h
      · exact List.mem_of_mem_filter h
      · exact List.mem_of_mem_filter h
  · intro h
    refine ⟨_, if_neg (List.ne_nil_of_mem h), ?_⟩
    cases hv6 : isIPv6 text <;> simp [h, hv6]

/-- The full map lists the prefixes of the view, and `::/0` under the name of the default PID. -/
theorem lists_netMap (hnet : net.Numeric)
    (hany : IPPrefix.ofText net "::/0".toList = some anyIPv6) (h : Represents view.prefixes M)
    (hfull : getNetMapProcess net (some view) = .ok full) (name : String) (p : IPPrefix) :
    Lists net full name p ↔ (∃ v, M p = some v ∧ view.pidName v = name) ∨
      (name = "defaultpid" ∧ p = anyIPv6 ∧ HasDefault view M) := by
  cases hfull
  have hcommit := (holds_netMap net view holds_empty (view.prefixes.enumerate [])).commit name
  simp only [List.nil_append] at hcommit
  have hlists : Lists net ((view.prefixes.enumerate []).foldl (netMapTurn net view) {}).commit name p ↔
      ∃ text ∈ routeTexts net view (view.prefixes.enumerate []) name,
        IPPrefix.ofText net text = some p := by
    constructor
    · rintro ⟨g, text, hg, htext, hp⟩
      exact ⟨text, mem_groupOf.1 ⟨g, hcommit.symm.trans hg, htext⟩, hp⟩
    · rintro ⟨text, htext, hp⟩
      obtain ⟨g, hg, hmem⟩ := mem_groupOf.2 htext
      exact ⟨g, text, hcommit.trans hg, hmem, hp⟩
  rw [hlists, routeTexts, enumerate_nil]
  simp only [List.mem_flatMap, List.mem_map]
  constructor
  · rintro ⟨text, ⟨e, ⟨v, hv, rfl⟩, htext⟩, hp⟩
    split at htext
    · next hname =>
      rcases List.mem_append.1 htext with htext | htext
      · obtain ⟨p', hp', rfl⟩ := List.mem_map.1 htext
        rw [IPPrefix.ofText_toText hnet] at hp
        obtain rfl := Option.some.inj hp
        exact .inl ⟨v, (mem_getPrefixes h v p').1 hp', hname⟩
      · split at htext
        · next hdefault =>
          rw [List.mem_singleton.1 htext, hany] at hp
          obtain ⟨p', hp'⟩ := (mem_enumerateValues h v).1 hv
          exact .inr ⟨hdefault, (Option.some.inj hp).symm, p', v, hp', hname.trans hdefault⟩
        · cases htext
    · cases htext
  · rintro (⟨v, hv, hname⟩ | ⟨rfl, rfl, p', v, hv, hname⟩)
    · refine ⟨p.toText net, ⟨_, ⟨v, (mem_enumerateValues h v).2 ⟨p, hv⟩, rfl⟩, ?_⟩,
        IPPrefix.ofText_toText hnet p⟩
      rw [if_pos hname]
      exact List.mem_append_left _ (List.mem_map_of_mem ((mem_getPrefixes h v p).2 hv))
    · refine ⟨_, ⟨_, ⟨v, (mem_enumerateValues h v).2 ⟨p', hv⟩, rfl⟩, ?_⟩, hany⟩
      rw [if_pos hname, if_pos rfl]
      exact List.mem_append_right _ (List.mem_singleton.2 rfl)

/-- The map lists the longest prefix of the family of the address that contains it under this name. -/
def ListsLongest (net : AddressText) (full : NetworkMapData) (a : IPPrefix) (name : String) : Prop :=
  ∃ p, Lists net full name p ∧ p.Contains a ∧
    ∀ name' p', Lists net full name' p' → p'.Contains a → p'.length ≤ p.length

/-! ## The property of an endpoint -/

/-- The string stands for an address. -/
def Denotes (net : AddressText) (endPoint : String) (a : IPPrefix) : Prop :=
  ∃ ip, PostFilter.stripIP endPoint.toList = some ip ∧
    IPPrefix.ofText net (cString ip) = some a ∧ a.length = a.family.maxLength

/-- The PID of an endpoint. -/
def endPointPid (net : AddressText) (behind : Behind) (view : ViewState) (endPoint : String) :
    Option PID :=
  (PostFilter.stripIP endPoint.toList).bind (view.lookup net behind)

theorem endPointPid_of_denotes {e : String} (he : Denotes net e a) :
    endPointPid net behind view e = (view.prefixes.lookup behind a).map (·.2) := by
  obtain ⟨ip, hstrip, hparse, -⟩ := he
  rw [endPointPid, hstrip, Option.bind_some, ViewState.lookup, hparse, Option.bind_some]

theorem get_foldlM_endPointTurn {l : List String} {epp epp' : EndPointsProperty}
    (h : l.foldlM (endPointTurn net behind view "pid") epp = some epp') (e : String) :
    epp'[e]? = ((if e ∈ l then endPointPid net behind view e else none).map view.pidName).or epp[e]? := by
  induction l generalizing epp with
  | nil =>
    obtain rfl := Option.some.inj h
    simp
  | cons x l ih =>
    rw [List.foldlM_cons] at h
    obtain ⟨epp₁, hturn, hrest⟩ := Option.bind_eq_some_iff.1 h
    rw [ih hrest]
    obtain ⟨ip, hstrip, hturn⟩ := Option.bind_eq_some_iff.1 hturn
    have hpid : endPointPid net behind view x = view.lookup net behind ip := by
      rw [endPointPid, hstrip, Option.bind_some]
    have hget : epp₁[e]? =
        ((if e = x then endPointPid net behind view x else none).map view.pidName).or epp[e]? := by
      rw [hpid]
      split at hturn
      · next hnone =>
        obtain rfl := Option.some.inj hturn
        simp [hnone]
      · next pid hsome =>
        obtain rfl := Option.some.inj hturn
        rw [hsome, EndPointsProperty.setProp, if_pos rfl, StdMap.get_insert]
        by_cases hx : e = x
        · simp [hx]
        · simp [hx, Ne.symm hx]
    rw [hget, ← Option.or_assoc]
    congr 1
    by_cases hx : e = x
    · subst hx
      by_cases hmem : e ∈ l <;> simp [hmem]
    · simp [hx]

/-- The reported property of an endpoint. -/
theorem get_endPointsProperty {endPoints : StdSet String} {epp : EndPointsProperty}
    (h : getEndPointsPropertyFinish net behind {"pid"} endPoints (some view) = some (.ok epp))
    {e : String} (he : e ∈ endPoints) :
    epp[e]? = (endPointPid net behind view e).map view.pidName := by
  have hprops : ({"pid"} : StdSet String).toList = ["pid"] := rfl
  rw [getEndPointsPropertyFinish, hprops] at h
  simp only [propertyLoop, endPointsPropertySet, List.mem_singleton, not_true_eq_false, if_false] at h
  obtain ⟨epp', hloop, hdone⟩ := Option.bind_eq_some_iff.1 h
  obtain rfl := Except.ok.inj (Option.some.inj hdone)
  rw [get_foldlM_endPointTurn hloop, if_pos (Std.ExtTreeSet.mem_toList.2 he)]
  simp

/-- The service answers if all endpoints are addresses. -/
theorem endPointsProperty_isSome {endPoints : StdSet String}
    (h : ∀ e ∈ endPoints, ∃ a, Denotes net e a) :
    ∃ epp, getEndPointsPropertyFinish net behind {"pid"} endPoints (some view) = some (.ok epp) := by
  have hprops : ({"pid"} : StdSet String).toList = ["pid"] := rfl
  have hloop : ∀ (l : List String) (epp : EndPointsProperty), (∀ e ∈ l, ∃ a, Denotes net e a) →
      ∃ epp', l.foldlM (endPointTurn net behind view "pid") epp = some epp' := by
    intro l
    induction l with
    | nil => exact fun epp _ => ⟨epp, rfl⟩
    | cons e l ih =>
      intro epp hl
      obtain ⟨a, ip, hstrip, -⟩ := hl e List.mem_cons_self
      obtain ⟨epp₁, hturn⟩ : ∃ epp₁, endPointTurn net behind view "pid" epp e = some epp₁ := by
        rw [endPointTurn, hstrip, Option.bind_eq_bind, Option.bind_some]
        split <;> exact ⟨_, rfl⟩
      obtain ⟨epp', hrest⟩ := ih epp₁ fun e' he' => hl e' (List.mem_cons_of_mem _ he')
      exact ⟨epp', by rw [List.foldlM_cons, hturn, Option.bind_eq_bind, Option.bind_some, hrest]⟩
  obtain ⟨epp, hepp⟩ := hloop endPoints.toList ∅ fun e he => h e (Std.ExtTreeSet.mem_toList.1 he)
  refine ⟨epp, ?_⟩
  rw [getEndPointsPropertyFinish, hprops]
  simp only [propertyLoop, endPointsPropertySet, List.mem_singleton, not_true_eq_false, if_false,
    hepp, Option.bind_eq_bind, Option.bind_some]

/-- The property service reports the name under which the network map lists the longest prefix of the
address, and none if it lists no such prefix. -/
def PropertyAgrees (net : AddressText) (behind : Behind) (view : ViewState) (e : String)
    (a : IPPrefix) : Prop :=
  ∀ full, getNetMapProcess net (some view) = .ok full →
    ∀ endPoints, e ∈ endPoints → (∀ e' ∈ endPoints, ∃ a', Denotes net e' a') →
      ∃ epp, getEndPointsPropertyFinish net behind {"pid"} endPoints (some view) = some (.ok epp) ∧
        (∀ name, epp[e]? = some name ↔ ListsLongest net full a name) ∧
        (epp[e]? = none ↔ ∀ name p, Lists net full name p → ¬ p.Contains a)

/-- The map lists no prefix of an address but the `::/0` that it adds. -/
structure DefaultRoute (view : ViewState) (M : PrefixMap PID) (a : IPPrefix) : Prop where
  family : a.family = .inet6
  pid : HasDefault view M
  only : ∀ p, M p ≠ none → p.Contains a → p.length = 0

/-- The PID at which the lookup of an address ends has the name of the longest match; for the addresses
of the default route, the names are those of the default PID. -/
structure NameFound (view : ViewState) (M : PrefixMap PID) (behind : Behind) (a : IPPrefix) :
    Prop where
  plain : ¬ DefaultRoute view M a → ∀ p v, Found M (behind a) a p → M p = some v →
    ∃ p' v', IsLongestMatch M a p' v' ∧ view.pidName v' = view.pidName v
  default : DefaultRoute view M a →
    (∃ p v, Found M (behind a) a p ∧ M p = some v ∧ view.pidName v = "defaultpid") ∧
      ∀ v, M anyIPv6 = some v → view.pidName v = "defaultpid"

theorem eq_anyIPv6 (hc : p.Contains a) (hfamily : a.family = .inet6) (hlen : p.length = 0) :
    p = anyIPv6 :=
  IPPrefix.ext' (hc.1.trans hfamily) (List.length_eq_zero_iff.1 hlen)

section Property

variable (hnet : net.Numeric) (hany : IPPrefix.ofText net "::/0".toList = some anyIPv6)
  (h : Represents view.prefixes M) (hfull : getNetMapProcess net (some view) = .ok full)
include hnet hany h hfull

theorem listsLongest_default (hd : DefaultRoute view M a) :
    ListsLongest net full a name ↔
      name = "defaultpid" ∨ ∃ v, M anyIPv6 = some v ∧ view.pidName v = name := by
  have hlists := lists_netMap hnet hany h hfull
  have hcontains : anyIPv6.Contains a := ⟨hd.family.symm, List.nil_prefix⟩
  have hmax : ∀ name' p', Lists net full name' p' → p'.Contains a → p'.length ≤ anyIPv6.length := by
    intro name' p' hl hc
    rcases (hlists name' p').1 hl with ⟨v, hv, -⟩ | ⟨-, rfl, -⟩
    · exact (hd.only p' (by simp [hv]) hc).le
    · exact Nat.le_refl _
  constructor
  · rintro ⟨p, hl, hc, -⟩
    rcases (hlists name p).1 hl with ⟨v, hv, hname⟩ | ⟨hname, -, -⟩
    · obtain rfl := eq_anyIPv6 hc hd.family (hd.only p (by simp [hv]) hc)
      exact .inr ⟨v, hv, hname⟩
    · exact .inl hname
  · rintro (rfl | ⟨v, hv, hname⟩)
    · exact ⟨anyIPv6, (hlists _ _).2 (.inr ⟨rfl, rfl, hd.pid⟩), hcontains, hmax⟩
    · exact ⟨anyIPv6, (hlists _ _).2 (.inl ⟨v, hv, hname⟩), hcontains, hmax⟩

theorem listsLongest_plain (hd : ¬ DefaultRoute view M a) :
    ListsLongest net full a name ↔ ∃ p v, IsLongestMatch M a p v ∧ view.pidName v = name := by
  have hlists := lists_netMap hnet hany h hfull
  constructor
  · rintro ⟨p, hl, hc, hmax⟩
    rcases (hlists name p).1 hl with ⟨v, hv, hname⟩ | ⟨-, rfl, hpid⟩
    · refine ⟨p, v, ⟨hv, hc, fun p' v' hv' hc' => ?_⟩, hname⟩
      exact hmax _ p' ((hlists _ _).2 (.inl ⟨v', hv', rfl⟩)) hc'
    · -- a longer prefix of the address is listed
      refine absurd ⟨hc.1.symm, hpid, fun p' hp' hc' => ?_⟩ hd
      obtain ⟨v', hv'⟩ := Option.ne_none_iff_exists'.1 hp'
      exact Nat.le_zero.1 (hmax _ p' ((hlists _ _).2 (.inl ⟨v', hv', rfl⟩)) hc')
  · rintro ⟨p, v, hlong, hname⟩
    refine ⟨p, (hlists _ _).2 (.inl ⟨v, hlong.mem, hname⟩), hlong.contains, fun name' p' hl hc => ?_⟩
    rcases (hlists name' p').1 hl with ⟨v', hv', -⟩ | ⟨-, rfl, -⟩
    · exact hlong.longest p' v' hv' hc
    · exact Nat.zero_le _

/-- What a lookup gives is the name under which the longest prefix is listed exactly for these
addresses. -/
theorem named_iff_listsLongest :
    (∀ name, (∃ p v, Found M (behind a) a p ∧ M p = some v ∧ view.pidName v = name) ↔
      ListsLongest net full a name) ↔ NameFound view M behind a := by
  have hunique : ∀ {p v p' v'}, Found M (behind a) a p → M p = some v → Found M (behind a) a p' →
      M p' = some v' → v = v' := by
    intro p v p' v' hp hv hp' hv'
    obtain rfl := hp.unique h hp'
    exact Option.some.inj (hv.symm.trans hv')
  constructor
  · intro hall
    refine ⟨fun hd p v hp hv => ?_, fun hd => ⟨?_, fun v hv => ?_⟩⟩
    · exact (listsLongest_plain hnet hany h hfull hd).1 ((hall _).1 ⟨p, v, hp, hv, rfl⟩)
    · exact (hall _).2 ((listsLongest_default hnet hany h hfull hd).2 (.inl rfl))
    · obtain ⟨p₁, v₁, hp₁, hv₁, hname₁⟩ :=
        (hall _).2 ((listsLongest_default hnet hany h hfull hd).2 (.inl rfl))
      obtain ⟨p₂, v₂, hp₂, hv₂, hname₂⟩ :=
        (hall _).2 ((listsLongest_default hnet hany h hfull hd).2 (.inr ⟨v, hv, rfl⟩))
      obtain rfl := hunique hp₁ hv₁ hp₂ hv₂
      exact hname₂.symm.trans hname₁
  · intro hnamed name
    by_cases hd : DefaultRoute view M a
    · obtain ⟨⟨p, v, hp, hv, hname⟩, hroot⟩ := hnamed.default hd
      rw [listsLongest_default hnet hany h hfull hd]
      constructor
      · rintro ⟨p', v', hp', hv', rfl⟩
        obtain rfl := hunique hp hv hp' hv'
        exact .inl hname
      · rintro (rfl | ⟨v', hv', rfl⟩)
        · exact ⟨p, v, hp, hv, hname⟩
        · exact ⟨p, v, hp, hv, hname.trans (hroot v' hv').symm⟩
    · rw [listsLongest_plain hnet hany h hfull hd]
      constructor
      · rintro ⟨p, v, hp, hv, rfl⟩
        exact hnamed.plain hd p v hp hv
      · rintro ⟨p, v, hlong, rfl⟩
        obtain ⟨p', hp'⟩ := exists_found (behind a) (by simp [hlong.mem] : M p ≠ none)
          hlong.contains.2
        obtain ⟨v', hv'⟩ := Option.ne_none_iff_exists'.1 hp'.mem
        obtain ⟨p'', v'', hlong', hname⟩ := hnamed.plain hd p' v' hp' hv'
        obtain ⟨-, rfl⟩ := hlong.unique hlong'
        exact ⟨p', v', hp', hv', hname.symm⟩

theorem propertyAgrees_iff {e : String} (he : Denotes net e a) :
    PropertyAgrees net behind view e a ↔ NameFound view M behind a := by
  have hget : ∀ {endPoints epp},
      getEndPointsPropertyFinish net behind {"pid"} endPoints (some view) = some (.ok epp) →
      e ∈ endPoints → ∀ name, epp[e]? = some name ↔
        ∃ p v, Found M (behind a) a p ∧ M p = some v ∧ view.pidName v = name := by
    intro endPoints epp hepp hmem name
    rw [get_endPointsProperty hepp hmem, endPointPid_of_denotes he]
    simp only [Option.map_map, Option.map_eq_some_iff, Prod.exists, lookup_eq_some_iff h,
      Function.comp_apply, and_assoc]
  rw [← named_iff_listsLongest hnet hany h hfull]
  constructor
  · intro hagrees name
    have hsingle : ∀ e' ∈ ({e} : StdSet String), ∃ a', Denotes net e' a' := fun e' he' =>
      ⟨a, (StdSet.mem_singleton.1 he').symm ▸ he⟩
    obtain ⟨epp, hepp, hnames, -⟩ :=
      hagrees full hfull {e} (StdSet.mem_singleton.2 rfl) hsingle
    rw [← hget hepp (StdSet.mem_singleton.2 rfl) name]
    exact hnames name
  · intro hall full' hfull' endPoints hmem hdenotes
    obtain rfl : full = full' := Except.ok.inj (hfull.symm.trans hfull')
    obtain ⟨epp, hepp⟩ := endPointsProperty_isSome hdenotes
    have hnames : ∀ name, epp[e]? = some name ↔ ListsLongest net full a name := fun name =>
      (hget hepp hmem name).trans (hall name)
    refine ⟨epp, hepp, hnames, ?_⟩
    constructor
    · intro hnone name p hl hc
      obtain ⟨p', ⟨hc', name', hl'⟩, hbits', hmax⟩ := exists_longest
        (P := fun p => p.Contains a ∧ ∃ name, Lists net full name p) ⟨hc, name, hl⟩ hc.2
      have hlongest : ListsLongest net full a name' :=
        ⟨p', hl', hc', fun name'' p'' hl'' hc'' => hmax p'' ⟨hc'', name'', hl''⟩ hc''.2⟩
      rw [(hnames name').2 hlongest] at hnone
      cases hnone
    · intro hno
      rw [Option.eq_none_iff_forall_ne_some]
      intro name hname
      obtain ⟨p, hl, hc, -⟩ := (hnames name).1 hname
      exact hno name p hl hc

end Property

/-! ## The cost of a pair of endpoints -/

/-- The last pair of PIDs with prefixes that has these names and a cost. -/
structure LastCost (view : ViewState) (costMode s d : String) (p q : PID) (c : Double) : Prop where
  src : view.prefixes.hasPrefixes p = true
  dst : view.prefixes.hasPrefixes q = true
  entry : MakesEntry view costMode (fun _ => true) s d c (p, q)
  last : ∀ p' q' c', view.prefixes.hasPrefixes p' = true → view.prefixes.hasPrefixes q' = true →
    MakesEntry view costMode (fun _ => true) s d c' (p', q') → toLex (p', q') ≤ toLex (p, q)

section Cost

variable {costMode s d : String} {ar : Arith}

theorem pairwise_product (srcs dsts : StdSet PID) :
    (srcs.toList.product dsts.toList).Pairwise fun x y => toLex x < toLex y := by
  have hsrcs : srcs.toList.Pairwise (· < ·) :=
    Std.ExtTreeSet.ordered_toList.imp fun h => compare_lt_iff_lt.1 h
  have hdsts : dsts.toList.Pairwise (· < ·) :=
    Std.ExtTreeSet.ordered_toList.imp fun h => compare_lt_iff_lt.1 h
  rw [List.product, List.pairwise_flatMap]
  constructor
  · intro p _
    rw [List.pairwise_map]
    refine hdsts.imp fun {q q'} (h : q < q') => ?_
    exact Prod.Lex.toLex_lt_toLex.2 (.inr ⟨rfl, h⟩)
  · refine hsrcs.imp fun {p p'} h x hx y hy => ?_
    obtain ⟨q, -, rfl⟩ := List.mem_map.1 hx
    obtain ⟨q', -, rfl⟩ := List.mem_map.1 hy
    exact Prod.Lex.toLex_lt_toLex.2 (.inl h)

/-- The last entry of the loop stays. -/
theorem get_foldl_last (view : ViewState) (costMode s d : String) {pairs : List (PID × PID)}
    (m : CostMatrix)
    (hsorted : pairs.Pairwise fun x y => toLex x < toLex y) :
    (∃ x ∈ pairs, ∃ c, MakesEntry view costMode (fun _ => true) s d c x ∧
        (pairs.foldl (costMapTurn view costMode fun _ => true) m).get s d = some c ∧
        ∀ y ∈ pairs, ∀ c', MakesEntry view costMode (fun _ => true) s d c' y → toLex y ≤ toLex x) ∨
      (∀ x ∈ pairs, ∀ c, ¬ MakesEntry view costMode (fun _ => true) s d c x) ∧
        (pairs.foldl (costMapTurn view costMode fun _ => true) m).get s d = m.get s d := by
  induction pairs using List.reverseRecOn with
  | nil => exact .inr ⟨nofun, rfl⟩
  | append_singleton pairs z ih =>
    obtain ⟨hpairs, -, hlast⟩ := List.pairwise_append.1 hsorted
    rw [List.foldl_append, List.foldl_cons, List.foldl_nil]
    have hturn := @get_costMapTurn view costMode (fun _ => true)
      (pairs.foldl (costMapTurn view costMode fun _ => true) m) z s d
    rcases hturn with ⟨c, hc, hget⟩ | ⟨hno, hget⟩
    · refine .inl ⟨z, by simp, c, hc, hget, fun y hy c' _ => ?_⟩
      rcases List.mem_append.1 hy with hy | hy
      · exact (hlast y hy z (by simp)).le
      · rw [List.mem_singleton.1 hy]
    · rw [hget]
      rcases ih hpairs with ⟨x, hx, c, hc, hget', hmax⟩ | ⟨hno', hget'⟩
      · refine .inl ⟨x, List.mem_append_left _ hx, c, hc, hget', fun y hy c' hc' => ?_⟩
        rcases List.mem_append.1 hy with hy | hy
        · exact hmax y hy c' hc'
        · rw [List.mem_singleton.1 hy] at hc'
          exact absurd hc' (hno c')
      · refine .inr ⟨fun x hx c hc => ?_, hget'⟩
        rcases List.mem_append.1 hx with hx | hx
        · exact hno' x hx c hc
        · rw [List.mem_singleton.1 hx] at hc
          exact hno c hc

/-- The loop of the full cost map leaves the cost of the last pair. -/
theorem lastCost_or (view : ViewState) (costMode s d : String) :
    let loop := costMapLoop view costMode (fun _ => true)
      (pidSetOf view.prefixes.enumerateValues) (pidSetOf view.prefixes.enumerateValues)
    (∃ p q c, LastCost view costMode s d p q c ∧ loop.get s d = some c) ∨
      (∀ p q c, view.prefixes.hasPrefixes p = true → view.prefixes.hasPrefixes q = true →
        ¬ MakesEntry view costMode (fun _ => true) s d c (p, q)) ∧ loop.get s d = none := by
  have hmem : ∀ x : PID × PID, x ∈ (pidSetOf view.prefixes.enumerateValues).toList.product
      (pidSetOf view.prefixes.enumerateValues).toList ↔
        view.prefixes.hasPrefixes x.1 = true ∧ view.prefixes.hasPrefixes x.2 = true := by
    rintro ⟨p, q⟩
    rw [← mem_allPids, ← mem_allPids]
    exact List.mem_product.trans (and_congr Std.ExtTreeSet.mem_toList Std.ExtTreeSet.mem_toList)
  rw [costMapLoop]
  rcases get_foldl_last view costMode s d ∅
    (pairwise_product (pidSetOf view.prefixes.enumerateValues)
      (pidSetOf view.prefixes.enumerateValues)) with ⟨x, hx, c, hc, hget, hmax⟩ | ⟨hno, hget⟩
  · refine .inl ⟨x.1, x.2, c, ⟨((hmem x).1 hx).1, ((hmem x).1 hx).2, hc, ?_⟩, hget⟩
    exact fun p' q' c' hp' hq' hc' => hmax (p', q') ((hmem _).2 ⟨hp', hq'⟩) c' hc'
  · refine .inr ⟨fun p q c hp hq => hno (p, q) ((hmem _).2 ⟨hp, hq⟩) c, ?_⟩
    rw [hget]
    simp [CostMatrix.get]

theorem LastCost.unique {p q p' q' : PID} {c c' : Double} (h : LastCost view costMode s d p q c)
    (h' : LastCost view costMode s d p' q' c') : c = c' := by
  have heq : toLex (p, q) = toLex (p', q') :=
    le_antisymm (h'.last p q c h.src h.dst h.entry) (h.last p' q' c' h'.src h'.dst h'.entry)
  obtain ⟨rfl, rfl⟩ := Prod.mk.inj (toLex.injective heq)
  exact Option.some.inj (h.entry.cost.symm.trans h'.entry.cost)

theorem exists_lastCost {p q : PID} {c : Double} (hp : view.prefixes.hasPrefixes p = true)
    (hq : view.prefixes.hasPrefixes q = true) (hc : view.cost costMode p q = some c) :
    ∃ p' q' c', LastCost view costMode (view.pidName p) (view.pidName q) p' q' c' := by
  rcases lastCost_or view costMode (view.pidName p) (view.pidName q) with
    ⟨p', q', c', hlast, -⟩ | ⟨hno, -⟩
  · exact ⟨p', q', c', hlast⟩
  · exact absurd ⟨rfl, rfl, hc, rfl⟩ (hno p q c hp hq)

/-- The entries of the full cost map. -/
theorem get_fullCostMap {vtag costType : String} {full : List Char}
    (h : getCostMapFinish ar vtag costMode costType (some view) = .ok full) {n : Double} :
    servedCost full s d = some n ↔
      ∃ p q c, LastCost view costMode s d p q c ∧ .fin (ar.served c) = n := by
  rw [getCostMapFinish] at h
  split at h
  · cases h
  split at h
  · cases h
  cases h
  rw [servedCost_commit, Option.map_eq_some_iff]
  rcases lastCost_or view costMode s d with ⟨p, q, c, hlast, hget⟩ | ⟨hno, hget⟩
  · rw [hget]
    constructor
    · rintro ⟨c', hc', rfl⟩
      obtain rfl := Option.some.inj hc'
      exact ⟨p, q, c, hlast, rfl⟩
    · rintro ⟨p', q', c', hlast', rfl⟩
      exact ⟨c', by rw [hlast.unique hlast'], rfl⟩
  · rw [hget]
    constructor
    · rintro ⟨c', hc', -⟩
      cases hc'
    · rintro ⟨p, q, c, hlast, -⟩
      exact absurd hlast.entry (hno p q c hlast.src hlast.dst)

/-- The inner loop of the endpoint cost service. -/
theorem foldlM_endPointCostTurn (costMode : String) {l : List String} (m : CostMatrix) (src : String)
    (p : PID)
    (hl : ∀ e ∈ l, (endPointPid net behind view e).isSome = true) :
    ∃ m', l.foldlM (endPointCostTurn net behind view costMode (fun _ => true) src (some p)) m =
        some m' ∧
      ∀ s d, m'.get s d = (if s = src ∧ d ∈ l then
        (endPointPid net behind view d).bind (view.cost costMode p) else none).or (m.get s d) := by
  induction l generalizing m with
  | nil => exact ⟨m, rfl, by simp⟩
  | cons e l ih =>
    obtain ⟨q, hq⟩ := Option.isSome_iff_exists.1 (hl e List.mem_cons_self)
    obtain ⟨ip, hstrip, hlookup⟩ := Option.bind_eq_some_iff.1 hq
    obtain ⟨m₁, hturn, hget₁⟩ : ∃ m₁,
        endPointCostTurn net behind view costMode (fun _ => true) src (some p) m e = some m₁ ∧
          ∀ s d, m₁.get s d = (if s = src ∧ d = e then view.cost costMode p q else none).or
            (m.get s d) := by
      simp only [endPointCostTurn, hstrip, hlookup, Option.bind_eq_bind, Option.bind_some]
      cases hcost : view.cost costMode p q with
      | none => exact ⟨m, rfl, by simp⟩
      | some c =>
        refine ⟨m.addCost src e c, rfl, fun s d => ?_⟩
        rw [CostMatrix.get_addCost]
        by_cases hsd : s = src ∧ d = e
        · simp [hsd]
        · rw [if_neg hsd, if_neg fun h => hsd ⟨h.1.symm, h.2.symm⟩, Option.none_or]
    obtain ⟨m', hrest, hget⟩ := ih m₁ fun e' he' => hl e' (List.mem_cons_of_mem _ he')
    refine ⟨m', by rw [List.foldlM_cons, hturn, Option.bind_eq_bind, Option.bind_some, hrest],
      fun s d => ?_⟩
    rw [hget, hget₁, ← Option.or_assoc]
    congr 1
    by_cases hs : s = src
    · by_cases hd : d = e
      · subst hd
        by_cases hmem : d ∈ l <;> simp [hs, hq, hmem]
      · simp [hs, hd]
    · simp [hs]

/-- The loops of the endpoint cost service. -/
theorem foldlM_endPointCost (costMode : String) {l dsts : List String} (m : CostMatrix)
    (hl : ∀ e ∈ l, (endPointPid net behind view e).isSome = true)
    (hdsts : ∀ e ∈ dsts, (endPointPid net behind view e).isSome = true) :
    ∃ m', l.foldlM (fun epcost src => do
        let srcIp ← PostFilter.stripIP src.toList
        dsts.foldlM (endPointCostTurn net behind view costMode (fun _ => true) src
          (view.lookup net behind srcIp)) epcost) m = some m' ∧
      ∀ s d, m'.get s d = (if s ∈ l ∧ d ∈ dsts then
        (endPointPid net behind view s).bind fun p =>
          (endPointPid net behind view d).bind (view.cost costMode p) else none).or (m.get s d) := by
  induction l generalizing m with
  | nil => exact ⟨m, rfl, by simp⟩
  | cons e l ih =>
    obtain ⟨p, hp⟩ := Option.isSome_iff_exists.1 (hl e List.mem_cons_self)
    obtain ⟨ip, hstrip, hlookup⟩ := Option.bind_eq_some_iff.1 hp
    obtain ⟨m₁, hturn, hget₁⟩ := foldlM_endPointCostTurn costMode m e p hdsts
    obtain ⟨m', hrest, hget⟩ := ih m₁ fun e' he' => hl e' (List.mem_cons_of_mem _ he')
    refine ⟨m', ?_, fun s d => ?_⟩
    · rw [List.foldlM_cons, hstrip, Option.bind_eq_bind, Option.bind_eq_bind, Option.bind_some,
        hlookup, hturn, Option.bind_some]
      exact hrest
    · rw [hget, hget₁, ← Option.or_assoc]
      congr 1
      by_cases hs : s = e
      · subst hs
        by_cases hmem : s ∈ l <;> by_cases hd : d ∈ dsts <;> simp [hmem, hd, hp]
      · simp [hs]

/-- The cost that a client reads for a pair of endpoints is the one that it reads in the full cost map
under the names of their PIDs. -/
def CostAgrees (ar : Arith) (vtag : String) (strtod : List Char → Double) (net : AddressText)
    (behind : Behind) (view : ViewState) (costMode ea eb : String) (p q : PID) : Prop :=
  ∀ costType ∈ costTypeSet, ∀ full,
    getCostMapFinish ar vtag costMode costType (some view) = .ok full →
    ∀ srcs dsts, ea ∈ srcs → eb ∈ dsts →
      (∀ e, e ∈ srcs ∨ e ∈ dsts → (endPointPid net behind view e).isSome = true) →
      ∃ epcost, getEndPointsCostFinish ar vtag strtod net behind
          ⟨costMode, costType, none, srcs, dsts⟩ (some view) = some (.ok epcost) ∧
        ∀ n, servedCost epcost ea eb = some n ↔
          servedCost full (view.pidName p) (view.pidName q) = some n

/-- The last pair of PIDs with the names of a pair that has a cost has the cost of the pair, as it is
served. -/
structure CostShared (ar : Arith) (view : ViewState) (costMode : String) (p q : PID) : Prop where
  some : ∀ c, view.cost costMode p q = some c → ∀ p' q' c',
    LastCost view costMode (view.pidName p) (view.pidName q) p' q' c' →
      ar.served c' = ar.served c
  none : view.cost costMode p q = none → ∀ p' q' c',
    ¬ LastCost view costMode (view.pidName p) (view.pidName q) p' q' c'

theorem hasPrefixes_of_endPointPid (h : Represents view.prefixes M) {e : String} {p : PID}
    (hp : endPointPid net behind view e = some p) : view.prefixes.hasPrefixes p = true := by
  obtain ⟨ip, -, hlookup⟩ := Option.bind_eq_some_iff.1 hp
  obtain ⟨⟨pfx, v⟩, hfound, rfl⟩ := Option.map_eq_some_iff.1 hlookup
  obtain ⟨a, -, hlookup'⟩ := Option.bind_eq_some_iff.1 hfound
  exact (hasPrefixes_iff h v).2 ⟨pfx, ((lookup_eq_some_iff h behind).1 hlookup').2⟩

theorem getEndPointsCost_get (ar : Arith) (vtag : String) (strtod : List Char → Double)
    {costType : String} (hmode : costMode ∈ costModeSet) (htype : costType ∈ costTypeSet) {srcs dsts : StdSet String}
    (hpids : ∀ e, e ∈ srcs ∨ e ∈ dsts → (endPointPid net behind view e).isSome = true) :
    ∃ epcost, getEndPointsCostFinish ar vtag strtod net behind
        ⟨costMode, costType, none, srcs, dsts⟩ (some view) = some (.ok epcost) ∧
      ∀ ea eb p q, ea ∈ srcs → eb ∈ dsts → endPointPid net behind view ea = some p →
        endPointPid net behind view eb = some q →
        servedCost epcost ea eb = (view.cost costMode p q).map fun c => .fin (ar.served c) := by
  obtain ⟨m, hloop, hget⟩ := foldlM_endPointCost costMode (l := srcs.toList) ∅ (fun e he => hpids e (.inl (Std.ExtTreeSet.mem_toList.1 he)))
    (fun e he => hpids e (.inr (Std.ExtTreeSet.mem_toList.1 he)))
  refine ⟨makeJsonStr (m.commit ar costMode costType vtag), ?_, fun ea eb p q ha hb hp hq => ?_⟩
  · have htest : ({} : PostFilter).inConstraints = fun _ => true := rfl
    simp only [getEndPointsCostFinish, PostFilter.readConstraints, Option.bind_eq_bind,
      Option.bind_some, hmode, htype, not_true_eq_false, if_false, endPointCostLoop, htest]
    rw [Option.bind_eq_bind] at hloop
    rw [hloop]
    rfl
  · rw [servedCost_commit, hget, if_pos ⟨Std.ExtTreeSet.mem_toList.2 ha,
      Std.ExtTreeSet.mem_toList.2 hb⟩, hp, hq]
    simp [CostMatrix.get]

theorem costAgrees_iff (vtag : String) (strtod : List Char → Double) (h : Represents view.prefixes M)
    (hmode : costMode ∈ costModeSet) {ea eb : String} {p q : PID}
    (hp : endPointPid net behind view ea = some p) (hq : endPointPid net behind view eb = some q) :
    CostAgrees ar vtag strtod net behind view costMode ea eb p q ↔
      CostShared ar view costMode p q := by
  have hentry : ∀ {c}, view.cost costMode p q = .some c →
      ∃ p' q' c', LastCost view costMode (view.pidName p) (view.pidName q) p' q' c' :=
    exists_lastCost (hasPrefixes_of_endPointPid h hp) (hasPrefixes_of_endPointPid h hq)
  constructor
  · intro hagrees
    have htype : "routingcost" ∈ costTypeSet := List.mem_singleton.2 rfl
    obtain ⟨full, hfull⟩ : ∃ full,
        getCostMapFinish ar vtag costMode "routingcost" (some view) = .ok full := by
      simp [getCostMapFinish, hmode, htype]
    have hpids : ∀ e, e ∈ ({ea} : StdSet String) ∨ e ∈ ({eb} : StdSet String) →
        (endPointPid net behind view e).isSome = true := by
      rintro e (he | he)
      · rw [StdSet.mem_singleton.1 he, hp]
        rfl
      · rw [StdSet.mem_singleton.1 he, hq]
        rfl
    obtain ⟨epcost, hepcost, hall⟩ := hagrees _ htype full hfull {ea} {eb}
      (StdSet.mem_singleton.2 rfl) (StdSet.mem_singleton.2 rfl) hpids
    obtain ⟨epcost', hepcost', hget⟩ := getEndPointsCost_get ar vtag strtod hmode htype hpids
    obtain rfl : epcost = epcost' :=
      Except.ok.inj (Option.some.inj (hepcost.symm.trans hepcost'))
    have hcost := hget ea eb p q (StdSet.mem_singleton.2 rfl) (StdSet.mem_singleton.2 rfl) hp hq
    have hlast : ∀ p' q' c', LastCost view costMode (view.pidName p) (view.pidName q) p' q' c' →
        (view.cost costMode p q).map (fun c => Double.fin (ar.served c)) =
          .some (.fin (ar.served c')) := by
      intro p' q' c' hl
      rw [← hcost]
      exact (hall _).2 ((get_fullCostMap hfull).2 ⟨p', q', c', hl, rfl⟩)
    constructor
    · intro c hc p' q' c' hl
      have hmap := hlast p' q' c' hl
      rw [hc] at hmap
      exact (Double.fin.inj (Option.some.inj hmap)).symm
    · intro hnone p' q' c' hl
      have hmap := hlast p' q' c' hl
      rw [hnone] at hmap
      cases hmap
  · intro hshared costType htype full hfull srcs dsts ha hb hpids
    obtain ⟨epcost, hepcost, hget⟩ := getEndPointsCost_get ar vtag strtod hmode htype hpids
    refine ⟨epcost, hepcost, fun n => ?_⟩
    rw [hget ea eb p q ha hb hp hq, get_fullCostMap hfull]
    cases hc : view.cost costMode p q with
    | none =>
      refine iff_of_false (by simp) ?_
      rintro ⟨p', q', c', hl, -⟩
      exact hshared.none hc p' q' c' hl
    | some c =>
      rw [Option.map_some, Option.some.injEq]
      constructor
      · rintro rfl
        obtain ⟨p', q', c', hl⟩ := hentry hc
        exact ⟨p', q', c', hl, by rw [hshared.some c hc p' q' c' hl]⟩
      · rintro ⟨p', q', c', hl, rfl⟩
        rw [hshared.some c hc p' q' c' hl]

end Cost

/-! ## The services -/

/-- Whatever operations the PID map has gone through: for each address, the property service and the
network map agree exactly under `NameFound`; for each pair of endpoints with PIDs, the endpoint cost
service and the cost map agree exactly under `CostShared`. -/
theorem services_agree_iff (hnet : net.Numeric)
    (hany : IPPrefix.ofText net "::/0".toList = some anyIPv6) (ops : List (Behind × Op PID))
    (hview : view.prefixes = run ops empty) (behind : Behind) (ar : Arith) (vtag : String)
    (strtod : List Char → Double) :
    (∀ e a, Denotes net e a →
      (PropertyAgrees net behind view e a ↔ NameFound view view.prefixes.contents behind a)) ∧
    ∀ costMode ∈ costModeSet, ∀ ea eb p q, endPointPid net behind view ea = some p →
      endPointPid net behind view eb = some q →
        (CostAgrees ar vtag strtod net behind view costMode ea eb p q ↔
          CostShared ar view costMode p q) := by
  have h : Represents view.prefixes view.prefixes.contents :=
    represents_contents (hview ▸ inv_run inv_empty ops)
  exact ⟨fun _ _ he => propertyAgrees_iff hnet hany h rfl he,
    fun _ hmode _ _ _ _ hp hq => costAgrees_iff vtag strtod h hmode hp hq⟩

theorem oneView_contents {v : PID} :
    (oneView name).prefixes.contents p = some v ↔ p = ten8 ∧ v = onePid := by
  have hinv : Inv (oneView name).prefixes :=
    inv_run inv_empty [((fun _ _ => false : Behind), .add ten8 onePid)]
  have hwalk : (oneView name).prefixes.tree.walk = [⟨ten8, some onePid⟩] := rfl
  rw [(represents_contents hinv).mem, hwalk]
  simp

theorem twoView_contents {v : PID} : twoView.prefixes.contents p = some v ↔
    (p = ten8 ∧ v = onePid) ∨ (p = tenOne16 ∧ v = otherPid) := by
  have hinv : Inv twoView.prefixes := inv_run inv_empty [((fun _ _ => false : Behind), .add ten8 onePid),
    ((fun _ _ => false : Behind), .add tenOne16 otherPid)]
  have hwalk : twoView.prefixes.tree.walk = [⟨ten8, some onePid⟩, ⟨tenOne16, some otherPid⟩] := by
    decide +kernel
  rw [(represents_contents hinv).mem, hwalk]
  simp

/-- The endpoint `ipv4:10.1.0.0` is in the prefixes of both PIDs and has the name of the longer one; and
the cost between the two PIDs is that of the endpoints `ipv4:10.0.0.0` and `ipv4:10.1.0.0`. -/
theorem services_agree_iff_two :
    PropertyAgrees tenText (fun _ _ => false) twoView "ipv4:10.1.0.0"
        (.ofRaw .inet tenOne16.bits 32) ∧
      CostAgrees exactArith "1" (fun _ => 0) tenText (fun _ _ => false) twoView "ordinal"
        "ipv4:10.0.0.0" "ipv4:10.1.0.0" onePid otherPid := by
  have hview : twoView.prefixes = run [((fun _ _ => false : Behind), .add ten8 onePid),
    ((fun _ _ => false : Behind), .add tenOne16 otherPid)] empty := rfl
  obtain ⟨hproperty, hcost⟩ := services_agree_iff tenText_numeric (by decide) _ hview
    (fun _ _ => false) exactArith "1" fun _ => 0
  have hdenotes : Denotes tenText "ipv4:10.1.0.0" (.ofRaw .inet tenOne16.bits 32) :=
    ⟨"10.1.0.0".toList, by decide, by decide, by decide⟩
  have hone : endPointPid tenText (fun _ _ => false) twoView "ipv4:10.0.0.0" = some onePid := by
    decide +kernel
  have hother : endPointPid tenText (fun _ _ => false) twoView "ipv4:10.1.0.0" = some otherPid := by
    decide +kernel
  refine ⟨(hproperty _ _ hdenotes).2 ⟨fun _ p v hp hv => ?_, fun hd => ?_⟩,
    (hcost "ordinal" (by decide) _ _ _ _ hone hother).2 ⟨?_, ?_⟩⟩
  · have hlong : IsLongestMatch twoView.prefixes.contents (.ofRaw .inet tenOne16.bits 32) tenOne16
        otherPid := by
      refine ⟨twoView_contents.2 (.inr ⟨rfl, rfl⟩), by decide, fun p' v' hv' _ => ?_⟩
      rcases twoView_contents.1 hv' with ⟨rfl, -⟩ | ⟨rfl, -⟩ <;> decide
    rcases twoView_contents.1 hv with ⟨rfl, rfl⟩ | ⟨rfl, rfl⟩
    · -- the lookup does not end at the shorter prefix
      cases hp with
      | beyond h => exact absurd h.longer (by decide)
      | longest _ _ _ hmax =>
        exact absurd (hmax tenOne16 (by simp [hlong.mem]) hlong.contains.2) (by decide)
    · exact ⟨tenOne16, otherPid, hlong, rfl⟩
  · exact absurd hd.family (by decide)
  · intro c hc p' q' c' hlast
    have hsrc := hlast.entry.src
    rcases twoView_cost hlast.entry.cost with ⟨rfl, rfl, -⟩ | ⟨rfl, rfl, -⟩
    · rw [Option.some.inj (hlast.entry.cost.symm.trans hc)]
    · exact absurd hsrc (by decide +kernel)
  · intro hnone
    have hsome : twoView.cost "ordinal" onePid otherPid = some 5 := by decide +kernel
    cases hnone.symm.trans hsome

/-- An IPv6 address outside of all prefixes is in the `::/0` that the network map lists for the default
PID, and the property service does not know it. -/
theorem property_lacks_default_route :
    ¬ PropertyAgrees tenText (fun _ _ => false) (oneView "defaultpid") "ipv6:::"
        (.ofRaw .inet6 [] 128) := by
  have hinv : Inv (oneView "defaultpid").prefixes :=
    inv_run inv_empty [((fun _ _ => false : Behind), .add ten8 onePid)]
  have hdenotes : Denotes tenText "ipv6:::" (.ofRaw .inet6 [] 128) :=
    ⟨"::".toList, by decide, by decide +kernel, by decide +kernel⟩
  rw [propertyAgrees_iff tenText_numeric (by decide) (represents_contents hinv) rfl hdenotes]
  intro hnamed
  have hroute : DefaultRoute (oneView "defaultpid") (oneView "defaultpid").prefixes.contents
      (.ofRaw .inet6 [] 128) := by
    refine ⟨rfl, ⟨ten8, onePid, oneView_contents.2 ⟨rfl, rfl⟩, by decide⟩, fun p hp hc => ?_⟩
    obtain ⟨v, hv⟩ := Option.ne_none_iff_exists'.1 hp
    rw [(oneView_contents.1 hv).1] at hc
    exact absurd hc.1 nofun
  obtain ⟨⟨p, v, hfound, hv, -⟩, -⟩ := hnamed.default hroute
  obtain ⟨rfl, rfl⟩ := oneView_contents.1 hv
  cases hfound with
  | beyond h => exact absurd h.longer (by decide +kernel)
  | longest _ _ hbits _ => exact absurd hbits (by decide +kernel)

end Alto.Portal
