import Alto.Common.PortalClient
import Alto.Verify.BlockSizes
import Alto.Verify.ContentReader
import Alto.Verify.ResponseText

/-!
# Loading the PID map of a portal

A client that loads the PID map of a portal, or a file with the same text, answers every lookup as
the portal does: its tree is the portal's with the PIDs replaced by their numbers.
-/

namespace Alto

open Lib Lib.Radix Patricia

/-! ## Trees with other values -/

/-- The entry with its value replaced. -/
def Patricia.Entry.mapVal {T U : Type} (f : T → U) (e : Entry T) : Entry U := ⟨e.pfx, e.data.map f⟩

namespace PatriciaTrie

variable {T U : Type} {f : T → U}

theorem searchStack_map (f : T → U) (addr : Nat → Bool) (bitlen : Nat) (t : Patricia.Tree T)
    (stack : List (Entry T)) :
    searchStack addr bitlen (t.map (Entry.mapVal f)) (stack.map (Entry.mapVal f)) =
      (searchStack addr bitlen t stack).map (Entry.mapVal f) := by
  induction t generalizing stack with
  | nil => rfl
  | node b e l r ihl ihr =>
    have hpush : (e.map (Entry.mapVal f)).toList ++ stack.map (Entry.mapVal f) =
        (e.toList ++ stack).map (Entry.mapVal f) := by
      cases e <;> simp
    simp only [map_node, searchStack, hpush]
    split
    · split
      · exact ihr _
      · exact ihl _
    · rfl

theorem patriciaSearchBest_map (f : T → U) (t : Patricia.Tree T) (p : IPPrefix)
    (behind : Nat → Bool) :
    patriciaSearchBest (t.map (Entry.mapVal f)) p behind =
      (patriciaSearchBest t p behind).map (Entry.mapVal f) := by
  have hstack := searchStack_map f (bitTest p behind) p.length t []
  rw [List.map_nil] at hstack
  rw [patriciaSearchBest, hstack, List.find?_map]
  rfl

variable [LinearOrder T] [LinearOrder U]

/-- A lookup in a tree with other values. -/
theorem lookup_map {trie : PatriciaTrie T} {trie' : PatriciaTrie U}
    (h : trie'.tree = trie.tree.map (Entry.mapVal f)) (behind : Behind) (q : IPPrefix) :
    trie'.lookup behind q = (trie.lookup behind q).map fun x => (x.1, f x.2) := by
  simp only [lookup, h, patriciaSearchBest_map]
  cases patriciaSearchBest trie.tree q (behind q) with
  | none => rfl
  | some e => cases hd : e.data <;> simp [Entry.mapVal, hd]

/-- A lookup answers with an entry of the tree. -/
theorem mem_of_lookup {trie : PatriciaTrie T} (hinv : Inv trie) {behind : Behind} {q pfx : IPPrefix}
    {v : T} (h : trie.lookup behind q = some (pfx, v)) :
    (⟨pfx, some v⟩ : Entry T) ∈ trie.tree.walk := by
  obtain ⟨e, he, h⟩ := Option.bind_eq_some_iff.1 h
  obtain ⟨v', hv, h⟩ := Option.bind_eq_some_iff.1 h
  cases h
  have hbest := patriciaSearchBest_spec hinv.wf q (behind q)
  rw [he] at hbest
  have hmem : e ∈ trie.tree.walk := by
    cases hbest with
    | overshot ho => exact ho.mem
    | longest hm => exact hm
  obtain ⟨pfx, data⟩ := e
  cases hv
  exact hmem

/-- Prefixes that are added one after the other, none of them with different values. -/
theorem foldl_add_spec {trie : PatriciaTrie T} (hinv : Inv trie) (behind : Behind)
    {l : List (IPPrefix × T)} {es : List (Entry T)}
    (hes : es = l.map fun x => ⟨x.1, some x.2⟩)
    (hsame : ∀ e ∈ trie.tree.walk ++ es, ∀ e' ∈ trie.tree.walk ++ es, e.key = e'.key → e = e') :
    Inv (l.foldl (fun trie x => (trie.add behind x.1 x.2).2) trie) ∧
      ∀ e, e ∈ (l.foldl (fun trie x => (trie.add behind x.1 x.2).2) trie).tree.walk ↔
        e ∈ trie.tree.walk ++ es := by
  induction l generalizing trie es with
  | nil =>
    subst hes
    exact ⟨hinv, fun e => by simp⟩
  | cons x l ih =>
    subst hes
    have hx : (⟨x.1, some x.2⟩ : Entry T) ∈ trie.tree.walk ++
        (x :: l).map fun x => (⟨x.1, some x.2⟩ : Entry T) := by simp
    have hmem : ∀ e, e ∈ (trie.add behind x.1 x.2).2.tree.walk ↔
        e ∈ trie.tree.walk ∨ e = ⟨x.1, some x.2⟩ := by
      intro e
      rcases add_spec hinv behind x.1 x.2 with ⟨e', he', hkey, hadd⟩ | ⟨-, -, -, hperm⟩
      · have heq : e' = ⟨x.1, some x.2⟩ :=
          hsame e' (List.mem_append_left _ he') _ hx hkey
        rw [hadd]
        refine (or_iff_left_of_imp ?_).symm
        rintro rfl
        exact heq ▸ he'
      · rw [hperm.mem_iff, List.mem_cons, or_comm]
    have hinv' : Inv (trie.add behind x.1 x.2).2 := by
      rcases add_spec hinv behind x.1 x.2 with ⟨e', -, -, hadd⟩ | ⟨-, -, h, -⟩
      · rw [hadd]
        exact hinv
      · exact h
    have hall : ∀ e, e ∈ (trie.add behind x.1 x.2).2.tree.walk ++
        (l.map fun x => (⟨x.1, some x.2⟩ : Entry T)) ↔
          e ∈ trie.tree.walk ++ (x :: l).map fun x => (⟨x.1, some x.2⟩ : Entry T) := by
      intro e
      rw [List.mem_append, List.mem_append, hmem, List.map_cons, List.mem_cons, or_assoc]
    obtain ⟨h₁, h₂⟩ := ih hinv' rfl fun e he e' he' =>
      hsame e ((hall e).1 he) e' ((hall e').1 he')
    exact ⟨h₁, fun e => (h₂ e).trans (hall e)⟩

end PatriciaTrie

/-! ## The tables of a client -/

namespace ISPPIDMap

open PatriciaTrie

/-- The tables answer every query as a portal with this PID map. -/
structure Mirrors (map : ISPPIDMap) (trie : PatriciaTrie PID) : Prop where
  pids : map.pids = trie.enumerateValues
  index : ∀ pid ∈ trie.enumerateValues, map.getPIDInfo (map.getPIDIndex pid) = pid
  lookup : ∀ (behind : Behind) (q : IPPrefix), map.lookup behind q =
    match trie.lookup behind q with
    | some (pfx, pid) => (map.getPIDIndex pid, some pfx)
    | none => (errUnknownPID, none)
  located : ∀ (behind : Behind) (q : IPPrefix), map.getPIDInfo (map.lookup behind q).1 =
    match trie.lookup behind q with
    | some (_, pid) => pid
    | none => PID.invalid

/-- The entries of the records: each prefix with the number of its record. -/
def numbered (records : List (PID × List IPPrefix)) : List (IPPrefix × Int) :=
  records.zipIdx.flatMap fun x => x.1.2.map fun pfx => (pfx, (x.2 : Int))

theorem trie_ofPrefixes (behind : Behind) (records : List (PID × List IPPrefix)) :
    (ofPrefixes behind records).trie =
      (numbered records).foldl (fun trie x => (trie.add behind x.1 x.2).2) .empty := by
  rw [numbered, List.foldl_flatMap]
  simp only [List.foldl_map]
  rfl

theorem mem_numbered {records : List (PID × List IPPrefix)} {pfx : IPPrefix} {n : Int} :
    (pfx, n) ∈ numbered records ↔ ∃ i : Nat, ∃ record, records[i]? = some record ∧
      pfx ∈ record.2 ∧ n = i := by
  simp only [numbered, List.mem_flatMap, List.mem_map, Prod.mk.injEq, Prod.exists,
    List.mem_zipIdx_iff_getElem?]
  constructor
  · rintro ⟨pid, pfxs, i, hi, p, hp, rfl, rfl⟩
    exact ⟨i, pid, pfxs, hi, hp, rfl⟩
  · rintro ⟨i, pid, pfxs, hi, hp, rfl⟩
    exact ⟨pid, pfxs, i, hi, pfx, hp, rfl, rfl⟩

section

variable {trie : PatriciaTrie PID} {records : List (PID × List IPPrefix)} {map : ISPPIDMap}

/-- The number of a PID among the values of the trie. -/
def numberIn (trie : PatriciaTrie PID) (pid : PID) : Int := trie.enumerateValues.idxOf pid

theorem mem_getPrefixes_iff {pfx : IPPrefix} {pid : PID} :
    pfx ∈ trie.getPrefixes pid ↔ (⟨pfx, some pid⟩ : Entry PID) ∈ trie.tree.walk := by
  simp only [getPrefixes, List.mem_map, List.mem_filter, beq_iff_eq]
  constructor
  · rintro ⟨⟨_, _⟩, ⟨he, rfl⟩, rfl⟩
    exact he
  · exact fun h => ⟨_, ⟨h, rfl⟩, rfl⟩

theorem mem_enumerateValues_of_mem (hinv : Inv trie) {e : Entry PID} (he : e ∈ trie.tree.walk) {pid : PID}
    (hd : e.data = some pid) : pid ∈ trie.enumerateValues := by
  rw [enumerateValues, Std.ExtTreeMap.mem_keys, StdMap.mem_iff_get]
  exact Option.ne_none_iff_exists'.1 fun hnone => hinv.get_eq_none.1 hnone e he hd

/-- The records list the values of a trie with their prefixes. -/
def Lists (records : List (PID × List IPPrefix)) (trie : PatriciaTrie PID) : Prop :=
  records.map (fun x => (x.1, x.2.toFinset)) =
    trie.enumerateValues.map fun pid => (pid, (trie.getPrefixes pid).toFinset)

/-- The entries of the client's tree are those of the portal's. -/
theorem mem_numbered_iff (hinv : Inv trie) (hlists : Lists records trie) {e : Entry Int} :
    e ∈ (numbered records).map (fun x => (⟨x.1, some x.2⟩ : Entry Int)) ↔
      e ∈ trie.tree.walk.map (Entry.mapVal (numberIn trie)) := by
  have hget : ∀ i : Nat, records[i]?.map (fun x => (x.1, x.2.toFinset)) =
      trie.enumerateValues[i]?.map fun pid => (pid, (trie.getPrefixes pid).toFinset) := by
    intro i
    rw [← List.getElem?_map, ← List.getElem?_map, hlists]
  have hnodup : trie.enumerateValues.Nodup := Std.ExtTreeMap.nodup_keys
  rw [List.mem_map, List.mem_map]
  constructor
  · rintro ⟨⟨pfx, n⟩, hmem, rfl⟩
    obtain ⟨i, record, hi, hpfx, rfl⟩ := mem_numbered.1 hmem
    have hi' := hget i
    rw [hi] at hi'
    obtain ⟨pid, hpid, heq⟩ := Option.map_eq_some_iff.1 hi'.symm
    have hpfx' : pfx ∈ trie.getPrefixes pid := by
      rw [← List.mem_toFinset, (Prod.mk.inj heq).2]
      exact List.mem_toFinset.2 hpfx
    refine ⟨_, mem_getPrefixes_iff.1 hpfx', ?_⟩
    obtain ⟨hlt, hval⟩ := List.getElem?_eq_some_iff.1 hpid
    simp only [Entry.mapVal, Option.map_some, numberIn, ← hval, hnodup.idxOf_getElem i hlt]
  · rintro ⟨⟨pfx, data⟩, he, rfl⟩
    obtain ⟨pid, rfl⟩ := Option.isSome_iff_exists.1 (hinv.valued _ he)
    have hmem := mem_enumerateValues_of_mem hinv he rfl
    have hi := hget (trie.enumerateValues.idxOf pid)
    rw [List.getElem?_idxOf hmem] at hi
    obtain ⟨record, hrecord, heq⟩ := Option.map_eq_some_iff.1 hi
    refine ⟨(pfx, numberIn trie pid), mem_numbered.2 ⟨_, record, hrecord, ?_, rfl⟩, rfl⟩
    rw [← List.mem_toFinset, (Prod.mk.inj heq).2]
    exact List.mem_toFinset.2 (mem_getPrefixes_iff.2 he)

/-- The client's tree is the portal's with numbers for PIDs. -/
theorem tree_ofPrefixes (hinv : Inv trie) (hlists : Lists records trie) (behind : Behind) :
    (ofPrefixes behind records).trie.tree = trie.tree.map (Entry.mapVal (numberIn trie)) := by
  have hwf : Patricia.WF (trie.tree.map (Entry.mapVal (numberIn trie))) :=
    hinv.wf.map fun _ _ => rfl
  have hempty : ∀ es : List (Entry Int),
      (PatriciaTrie.empty : PatriciaTrie Int).tree.walk ++ es = es := fun _ => rfl
  obtain ⟨hinv', hmem⟩ := foldl_add_spec (inv_empty (T := Int)) behind
    (l := numbered records) rfl (by
      intro e he e' he' hkey
      rw [hempty, mem_numbered_iff hinv hlists, ← walk_map] at he he'
      exact hwf.key_inj he he' hkey)
  rw [← trie_ofPrefixes] at hinv' hmem
  refine eq_of_walk hinv'.wf hwf fun e => ?_
  rw [hmem, hempty, mem_numbered_iff hinv hlists, walk_map]

theorem pids_ofPrefixes (hlists : Lists records trie) (behind : Behind) :
    (ofPrefixes behind records).pids = trie.enumerateValues := by
  have h := congrArg (List.map Prod.fst) hlists
  rw [List.map_map, List.map_map] at h
  exact h.trans (List.map_id _)

theorem getPIDIndex_of_mem {pid : PID} (hpids : map.pids = trie.enumerateValues)
    (hpid : pid ∈ trie.enumerateValues) : map.getPIDIndex pid = numberIn trie pid := by
  have hidx : trie.enumerateValues.findIdx? (· = pid) =
      some (trie.enumerateValues.idxOf pid) := by
    rw [List.findIdx?_eq_some_iff_findIdx_eq]
    refine ⟨List.idxOf_lt_length_iff.2 hpid, ?_⟩
    rw [List.idxOf]
    rfl
  rw [getPIDIndex, hpids, hidx, numberIn]

theorem getPIDInfo_numberIn {pid : PID} (hpids : map.pids = trie.enumerateValues)
    (hpid : pid ∈ trie.enumerateValues) : map.getPIDInfo (numberIn trie pid) = pid := by
  have hneg : ¬ numberIn trie pid < 0 := not_lt.2 (Int.natCast_nonneg _)
  rw [getPIDInfo, if_neg hneg, numberIn, Int.toNat_natCast, hpids, List.getElem?_idxOf hpid,
    Option.getD_some]

/-- Tables from records that list a PID map mirror it. -/
theorem mirrors_ofPrefixes (hinv : Inv trie) (hlists : Lists records trie) (behind : Behind) :
    (ofPrefixes behind records).Mirrors trie := by
  have hpids := pids_ofPrefixes hlists behind
  have hfound : ∀ (behind : Behind) (q pfx : IPPrefix) (pid : PID),
      trie.lookup behind q = some (pfx, pid) → pid ∈ trie.enumerateValues :=
    fun _ _ _ _ h => mem_enumerateValues_of_mem hinv (mem_of_lookup hinv h) rfl
  have hlookup : ∀ (behind' : Behind) (q : IPPrefix),
      (ofPrefixes behind records).trie.lookup behind' q =
        (trie.lookup behind' q).map fun x => (x.1, numberIn trie x.2) :=
    lookup_map (tree_ofPrefixes hinv hlists behind)
  refine ⟨hpids, fun pid hpid => ?_, fun behind' q => ?_, fun behind' q => ?_⟩
  · rw [getPIDIndex_of_mem hpids hpid, getPIDInfo_numberIn hpids hpid]
  · rw [ISPPIDMap.lookup, hlookup]
    cases hq : trie.lookup behind' q with
    | none => rfl
    | some x =>
      obtain ⟨pfx, pid⟩ := x
      simp only [Option.map_some, getPIDIndex_of_mem hpids (hfound _ _ _ _ hq)]
  · rw [ISPPIDMap.lookup, hlookup]
    cases hq : trie.lookup behind' q with
    | none => rfl
    | some x =>
      obtain ⟨pfx, pid⟩ := x
      exact getPIDInfo_numberIn hpids (hfound _ _ _ _ hq)

end

end ISPPIDMap

/-! ## The response of the portal -/

open Server Portal Response PatriciaTrie

/-- The text of the response to a request for the whole PID map. -/
def Portal.pidMapText (net : AddressText) (prefixes : PIDMap) (sizes : List Nat) :
    Option (List Char) :=
  ContentReaderState.respond (getPIDMapWrite net)
    { callbackData := getPIDMapFinish prefixes [] } sizes

/-- A PID map that can be written and read: its PIDs can be printed, and an `int` numbers them. -/
structure Portal.Loadable (prefixes : PIDMap) : Prop where
  printable : ∀ pid ∈ prefixes.enumerateValues, pid.Printable
  pids : prefixes.enumerateValues.length ≤ 2 ^ 31
  prefixes : ∀ pid ∈ prefixes.enumerateValues, (prefixes.getPrefixes pid).length < 2 ^ 32

/-- Every block of a response has room for its next item. -/
def Portal.PIDMapFits (net : AddressText) (prefixes : PIDMap) (sizes : Nat → Nat) : Prop :=
  ∀ k, ∀ pid ∈ prefixes.enumerateValues, ∀ item ∈ recordItems net (pid, prefixes.getPrefixes pid),
    item.length ≤ sizes k

section Portal

variable {net : AddressText} {prefixes : PIDMap}

theorem pids_getPIDMapFinish (prefixes : PIDMap) : (getPIDMapFinish prefixes []).pids =
    prefixes.enumerateValues.map fun pid => (pid, prefixes.getPrefixes pid) :=
  enumerate_nil prefixes

theorem recordItems_ne_nil (net : AddressText) (record : PID × List IPPrefix) :
    ∀ item ∈ recordItems net record, item ≠ [] := by
  intro item hitem
  rw [recordItems, List.mem_cons, List.mem_append, List.mem_map] at hitem
  rcases hitem with rfl | ⟨p, -, rfl⟩ | hitem
  · simp [headItem]
  · exact List.cons_ne_nil _ _
  · rw [List.mem_singleton.1 hitem]
    exact List.cons_ne_nil _ _

/-- The bytes of the response do not depend on the blocks. -/
theorem respond_pidMap (h : Loadable prefixes) {sizes : Nat → Nat}
    (hfit : PIDMapFits net prefixes sizes) :
    (∃ n, (pidMapText net prefixes ((List.range n).map sizes)).isSome) ∧
    ∀ n text, pidMapText net prefixes ((List.range n).map sizes) = some text →
      text = ((getPIDMapFinish prefixes []).pids.flatMap (recordItems net)).flatten := by
  have hfills : Fills (getPIDMapWrite net) (GetPIDMapState.written net)
      (GetPIDMapState.Writing (getPIDMapFinish prefixes []).pids) :=
    GetPIDMapState.fills_getPIDMapWrite _
  have hstart := GetPIDMapState.writing_start (getPIDMapFinish prefixes []).pids
  have hleft : (getPIDMapFinish prefixes []).written net =
      (getPIDMapFinish prefixes []).pids.flatMap (recordItems net) := by
    rw [GetPIDMapState.written_eq_left, ← GetPIDMapState.left_start]
    · rfl
    · rw [pids_getPIDMapFinish, List.length_map]
      exact lt_of_le_of_lt h.pids (by decide)
    · rw [pids_getPIDMapFinish]
      intro record hrecord
      obtain ⟨pid, hpid, rfl⟩ := List.mem_map.1 hrecord
      exact h.prefixes pid hpid
  have hpacks : ∀ n, Packs ((List.range n).map sizes) ((getPIDMapFinish prefixes []).written net) := by
    intro n
    refine packs_of_forall fun max hmax item hitem => ?_
    obtain ⟨k, -, rfl⟩ := List.mem_map.1 hmax
    rw [hleft, pids_getPIDMapFinish] at hitem
    obtain ⟨record, hrecord, hitem⟩ := List.mem_flatMap.1 hitem
    obtain ⟨pid, hpid, rfl⟩ := List.mem_map.1 hrecord
    exact hfit k pid hpid item hitem
  have hsolid : Solid ((getPIDMapFinish prefixes []).written net) := by
    refine solid_of_forall fun item hitem => ?_
    rw [hleft] at hitem
    obtain ⟨record, -, hitem⟩ := List.mem_flatMap.1 hitem
    exact recordItems_ne_nil net record item hitem
  refine ⟨⟨((getPIDMapFinish prefixes []).written net).length + 1, ?_⟩, fun n text htext => ?_⟩
  · refine ContentReaderState.respond_isSome hfills hstart (hpacks _) hsolid ?_
    rw [List.length_map, List.length_range]
    exact Nat.lt_succ_self _
  · exact (ContentReaderState.respond_eq_flatten hfills hstart (hpacks n) hsolid htext).trans
      (congrArg List.flatten hleft)

/-- What the reader makes of the response lists the PID map. -/
theorem lists_of_view {order : Finset ReadPrefix → List ReadPrefix}
    (horder : ∀ s p, p ∈ order s ↔ p ∈ s) {s : Response.PIDMap}
    (h : pidMapView s = prefixes.enumerateValues.map fun pid =>
      (pid, (prefixes.getPrefixes pid).toFinset)) :
    ISPPIDMap.Lists (s.out.map fun r => (r.pid, (order r.prefixes).map (·.1))) prefixes := by
  have hset : ∀ r : PIDPrefixes, ((order r.prefixes).map (·.1)).toFinset =
      r.prefixes.image Prod.fst := by
    intro r
    ext p
    simp only [List.mem_toFinset, List.mem_map, horder, Finset.mem_image]
  rw [ISPPIDMap.Lists, ← h, List.map_map, pidMapView]
  exact List.map_congr_left fun r _ => by rw [Function.comp_apply, hset]

end Portal

/-- A client that loads a response in blocks that fit mirrors the PID map. -/
theorem Portal.PIDMapFits.loads {net : AddressText} (hnet : net.Numeric) (stack : Nat → Nat)
    (behind : Behind) {order : Finset ReadPrefix → List ReadPrefix}
    (horder : ∀ s p, p ∈ order s ↔ p ∈ s) {prefixes : PIDMap} (hinv : Inv prefixes)
    (h : Loadable prefixes) {sizes : Nat → Nat} (hfit : PIDMapFits net prefixes sizes) {n : Nat}
    {text : List Char} (htext : pidMapText net prefixes ((List.range n).map sizes) = some text)
    {chunks : List (List Char)} {source : DataSource} (hchunks : chunks.flatten = text)
    (hsource : source.Delivers chunks) (old : ISPPIDMap) :
    ∃ map, old.loadP4PInfo behind net stack order source = some (0, map) ∧
      map.Mirrors prefixes := by
  have hrecords : ∀ record ∈ (getPIDMapFinish prefixes []).pids,
      ∃ pid ∈ prefixes.enumerateValues, record = (pid, prefixes.getPrefixes pid) := by
    rw [pids_getPIDMapFinish]
    intro record hrecord
    obtain ⟨pid, hpid, rfl⟩ := List.mem_map.1 hrecord
    exact ⟨pid, hpid, rfl⟩
  obtain ⟨s, hread, hview⟩ := read_records hnet stack
    (fun record hrecord => by
      obtain ⟨pid, hpid, rfl⟩ := hrecords record hrecord
      exact h.printable pid hpid)
    (fun record hrecord => by
      obtain ⟨pid, hpid, rfl⟩ := hrecords record hrecord
      exact h.prefixes pid hpid)
    (fun record hrecord => by
      obtain ⟨pid, hpid, rfl⟩ := hrecords record hrecord
      exact nodup_getPrefixes hinv pid)
    (hchunks.trans ((respond_pidMap h hfit).2 n text htext))
  rw [pids_getPIDMapFinish, List.map_map] at hview
  refine ⟨_, ?_, ISPPIDMap.mirrors_ofPrefixes hinv (lists_of_view horder hview) behind⟩
  rw [ISPPIDMap.loadP4PInfo, DataSource.fetch_of_read hsource hread]
  rfl

/-- Whatever operations a PID map has gone through, a client that loads it, in blocks and chunks of any
sizes, from the portal or from a file, answers every lookup as the portal does. -/
theorem pidMap_loaded {net : AddressText} (hnet : net.Numeric) (stack : Nat → Nat) (behind : Behind)
    {order : Finset ReadPrefix → List ReadPrefix} (horder : ∀ s p, p ∈ order s ↔ p ∈ s)
    (ops : List (Behind × Op PID)) (h : Loadable (run ops empty)) (sizes : Nat → Nat)
    (hfit : PIDMapFits net (run ops empty) sizes) :
    (∃ n, (pidMapText net (run ops empty) ((List.range n).map sizes)).isSome) ∧
    ∀ n text, pidMapText net (run ops empty) ((List.range n).map sizes) = some text →
      ∀ (chunks : List (List Char)) (source : DataSource), chunks.flatten = text →
        source.Delivers chunks → ∀ old : ISPPIDMap, ∃ map,
          old.loadP4PInfo behind net stack order source = some (0, map) ∧
          map.Mirrors (run ops empty) :=
  ⟨(respond_pidMap h hfit).1, fun _ _ htext _ _ hchunks hsource old =>
    hfit.loads hnet stack behind horder (inv_run inv_empty ops) h htext hchunks hsource old⟩

/-! ## Two PIDs -/

/-- The PIDs `1.i.isp` and `2.e.isp` with their prefixes. -/
def tenPrefixes : PIDMap := run tenOps empty

theorem enumerateValues_tenPrefixes :
    tenPrefixes.enumerateValues = [⟨"isp", 1, false⟩, ⟨"isp", 2, true⟩] := by decide +kernel

theorem getPrefixes_tenPrefixes : tenPrefixes.getPrefixes ⟨"isp", 1, false⟩ = [ten16, tenOne16] ∧
    tenPrefixes.getPrefixes ⟨"isp", 2, true⟩ = [ten8] := by decide +kernel

theorem forall_mem_tenPrefixes {P : PID → Prop} :
    (∀ pid ∈ tenPrefixes.enumerateValues, P pid) ↔ P ⟨"isp", 1, false⟩ ∧ P ⟨"isp", 2, true⟩ := by
  rw [enumerateValues_tenPrefixes, List.forall_mem_cons, List.forall_mem_singleton]

theorem loadable_tenPrefixes : Loadable tenPrefixes where
  printable := forall_mem_tenPrefixes.2 ⟨⟨by decide, by decide⟩, by decide, by decide⟩
  pids := by
    rw [enumerateValues_tenPrefixes]
    decide
  prefixes := forall_mem_tenPrefixes.2 (by
    rw [getPrefixes_tenPrefixes.1, getPrefixes_tenPrefixes.2]
    decide)

theorem pidMapFits_tenPrefixes : PIDMapFits tenText tenPrefixes fun _ => 16 := by
  intro k
  refine forall_mem_tenPrefixes.2 ?_
  rw [getPrefixes_tenPrefixes.1, getPrefixes_tenPrefixes.2]
  show (∀ item ∈ recordItems tenText (⟨"isp", 1, false⟩, [ten16, tenOne16]), item.length ≤ 16) ∧
    ∀ item ∈ recordItems tenText (⟨"isp", 2, true⟩, [ten8]), item.length ≤ 16
  decide +kernel

/-- The client that has loaded the map finds the PID of every address. -/
theorem pidMap_loaded_ten : ∃ n text, pidMapText tenText tenPrefixes
      ((List.range n).map fun _ => 16) = some text ∧
    ∃ map, (ISPPIDMap.ofPrefixes (fun _ _ => false) []).loadP4PInfo (fun _ _ => false) tenText
        (fun _ => 0) Finset.toList (.server { chunks := [text.take 5, text.drop 5] }) =
        some (0, map) ∧ map.Mirrors tenPrefixes := by
  have hloaded := pidMap_loaded tenText_numeric (fun _ => 0) (fun _ _ => false)
    (fun _ _ => Finset.mem_toList) tenOps loadable_tenPrefixes (fun _ => 16) pidMapFits_tenPrefixes
  obtain ⟨n, hn⟩ := hloaded.1
  obtain ⟨text, htext⟩ := Option.isSome_iff_exists.1 hn
  exact ⟨n, text, htext, hloaded.2 n text htext _ _ (by simp) (.inl rfl) _⟩

end Alto
