import Alto.Lib.MapEntries
import Alto.Portal.AltoHandlers
import Alto.Verify.JsonRoundTrip

/-!
# What a client reads in a cost map

A client that reads the text of a cost map finds the entries of the map. The numbers are those that
`InfoResBase::addNumber` stores, rounded to the three digits that the writer prints.
-/

namespace Alto.Portal

open Lib InfoResBase JsonWriter JsonReader

/-! ## Numbers -/

/-- `operator>>` for a `double`: the number of the numeral. -/
def extractNumber (text : List Char) : Option Double := (readDecimal text).map .fin

/-- The number that the text of a number stands for. -/
def printed : Double → Double
  | .fin q => .fin (roundTo 10 3 q)
  | x => x

/-- The number that is served for a cost. -/
def Arith.served (ar : Arith) (cost : Double) : ℚ := roundTo 10 3 (ar.round cost)

theorem startsNumber_of_isDigit {c : Char} (h : c.isDigit = true ∨ c = '-') :
    startsNumber c = true := by
  rcases h with h | rfl
  · have hc : c ∈ "0123456789".toList := by
      obtain ⟨hlow, hhigh⟩ := Char.isDigit_iff_toNat.1 h
      have hchar := Char.ofNat_toNat c
      generalize c.toNat = n at hlow hhigh hchar
      subst hchar
      have hlow : 48 ≤ n := hlow
      have hhigh : n ≤ 57 := hhigh
      interval_cases n <;> decide
    exact List.contains_iff_mem.2 (List.mem_cons_of_mem _ hc)
  · rfl

theorem legible_fin (q : ℚ) : Legible writeNumber extractNumber printed (.fin q) := by
  obtain ⟨c, text, htext, hc, hchars⟩ := decimalText_cons (p := 3) (by norm_num) q
  refine ⟨?_, ?_⟩
  · rw [writeNumber, htext]
    refine .number (startsNumber_of_isDigit hc) fun d hd => ?_
    rcases hchars d hd with hdigit | hmem
    · exact isNumeric_of_startsNumber (startsNumber_of_isDigit (.inl hdigit))
    · have hall : ∀ d ∈ ['.', 'e', '+', '-'], isNumeric d = true := by decide
      exact hall d hmem
  · rw [extractNumber, writeNumber, readDecimal_decimalText (by norm_num)]
    rfl

/-! ## Objects -/

/-- `Object::Find`. -/
def JsonValue.member (name : List Char) : JsonValue → Option JsonValue
  | .object members => (members.find? fun member => member.1 = name).map (·.2)
  | _ => none

/-- The number of an element. -/
def JsonValue.asNumber : JsonValue → Option Double
  | .number n => some n
  | _ => none

theorem assign_of_new {object : JsonObject} {name : List Char} (h : name ∉ object.map (·.1))
    (element : JsonValue) : assign object name element = object ++ [(name, element)] := by
  refine if_neg fun hany => h ?_
  obtain ⟨member, hmember, hname⟩ := List.any_eq_true.1 hany
  exact List.mem_map.2 ⟨member, hmember, of_decide_eq_true hname⟩

/-- Assignments to different names make the members in this order. -/
theorem foldl_assign {X : Type} (key : X → List Char) (val : X → JsonValue) :
    ∀ (l : List X) (object : JsonObject), (object.map (·.1) ++ l.map key).Nodup →
      l.foldl (fun object x => assign object (key x) (val x)) object =
        object ++ l.map fun x => (key x, val x)
  | [], object, _ => (List.append_nil object).symm
  | x :: l, object, hnodup => by
    have hnew : key x ∉ object.map (·.1) := fun hmem =>
      (List.nodup_append.1 hnodup).2.2 _ hmem _ (by simp) rfl
    rw [List.foldl_cons, assign_of_new hnew, foldl_assign key val l _ (by simpa using hnodup),
      List.append_assoc]
    rfl

theorem nodup_names {V : Type} (m : StdMap String V) :
    (m.toList.map fun x => x.1.toList).Nodup := by
  refine (StdMap.nodup_toList m).map_on fun x hx y hy hname => ?_
  have hkey : x.1 = y.1 := String.toList_inj.1 hname
  refine Prod.ext hkey (Option.some.inj ?_)
  rw [← StdMap.mem_toList.1 hx, ← StdMap.mem_toList.1 hy, hkey]

theorem foldl_assign_toList {V : Type} (m : StdMap String V) (f : V → JsonValue) :
    m.toList.foldl (fun object x => assign object x.1.toList (f x.2)) [] =
      m.toList.map fun x => (x.1.toList, f x.2) :=
  foldl_assign (fun x : String × V => x.1.toList) (fun x => f x.2) m.toList [] (nodup_names m)

/-- A member of an object that is made of a map. -/
theorem member_toList {V : Type} (m : StdMap String V) (f : V → JsonValue) (name : String) :
    (JsonValue.object (m.toList.map fun x => (x.1.toList, f x.2))).member name.toList =
      m[name]?.map f := by
  have hfind : (m.toList.map fun x => (x.1.toList, f x.2)).find?
      (fun member => member.1 = name.toList) =
        (m.toList.find? fun x => x.1 = name).map fun x => (x.1.toList, f x.2) := by
    rw [List.find?_map]
    simp only [Function.comp_def, String.toList_inj]
  rw [JsonValue.member, hfind, ← List.head?_filter, StdMap.filter_toList]
  cases m[name]? <;> rfl

theorem mapMembers_eq (f : Double → Double) (o : JsonObject) :
    mapMembers f o = o.map fun member => (member.1, member.2.mapNumbers f) := by
  induction o with
  | nil => rfl
  | cons member o ih => rw [mapMembers, ih, List.map_cons]

theorem mapNumbers_toList {V : Type} (m : StdMap String V) (f : V → JsonValue)
    (round : Double → Double) :
    (JsonValue.object (m.toList.map fun x => (x.1.toList, f x.2))).mapNumbers round =
      .object (m.toList.map fun x => (x.1.toList, (f x.2).mapNumbers round)) := by
  rw [JsonValue.mapNumbers, mapMembers_eq, List.map_map]
  rfl

theorem membersFormed_iff {P : Double → Prop} {o : JsonObject} :
    MembersFormed P o ↔ ∀ member ∈ o, member.2.WellFormed P := by
  induction o with
  | nil => simp [MembersFormed]
  | cons member o ih =>
    rw [MembersFormed, ih, List.forall_mem_cons]

/-- An object of a map is well formed if its elements are. -/
theorem wellFormed_toList {V : Type} {P : Double → Prop} (m : StdMap String V)
    {f : V → JsonValue} (h : ∀ v, (f v).WellFormed P) :
    (JsonValue.object (m.toList.map fun x => (x.1.toList, f x.2))).WellFormed P := by
  refine ⟨?_, membersFormed_iff.2 fun member hmember => ?_⟩
  · rw [List.map_map]
    exact nodup_names m
  · obtain ⟨x, -, rfl⟩ := List.mem_map.1 hmember
    exact h x.2

/-! ## Cost maps -/

/-- The cost that a client finds in the text of a cost map. -/
def servedCost (text : List Char) (src dst : String) : Option Double :=
  match readElement extractNumber text with
  | .ok json => do
    let data ← json.member "data".toList
    let map ← data.member "map".toList
    let row ← map.member src.toList
    let cost ← row.member dst.toList
    cost.asNumber
  | _ => none

theorem dstCosts_eq (ar : Arith) (dstMap : StdMap String Double) :
    dstCosts ar dstMap =
      dstMap.toList.map fun x => (x.1.toList, .number (.fin (ar.round x.2))) :=
  foldl_assign_toList dstMap fun cost => .number (.fin (ar.round cost))

theorem costMapData_eq (ar : Arith) (m : CostMatrix) :
    m.costMapData ar = m.toList.map fun x => (x.1.toList, .object (dstCosts ar x.2)) :=
  foldl_assign_toList m fun dstMap => .object (dstCosts ar dstMap)

/-- The members of the served object. -/
theorem commit_eq (ar : Arith) (costMode costType vtag : String) (m : CostMatrix) :
    m.commit ar costMode costType vtag =
      [("cost-mode".toList, .string costMode.toList), ("cost-type".toList, .string costType.toList),
        ("map-vtag".toList, .string vtag.toList), ("map".toList, .object (m.costMapData ar))] :=
  rfl

theorem makeJsonStr_eq (data : JsonObject) : makeJsonStr data = writeElement writeNumber
    (.object [("meta".toList, .object []), ("data".toList, .object data)]) :=
  rfl

/-- The texts of objects whose members are named differently are read. -/
theorem readElement_makeJsonStr {data : JsonObject}
    (h : (JsonValue.object data).WellFormed (Legible writeNumber extractNumber printed)) :
    ∃ json, readElement extractNumber (makeJsonStr data) = .ok json ∧
      json.member "data".toList = some ((JsonValue.object data).mapNumbers printed) := by
  have hentity : (JsonValue.object [("meta".toList, .object []),
      ("data".toList, .object data)]).WellFormed (Legible writeNumber extractNumber printed) := by
    have hnodup : ["meta".toList, "data".toList].Nodup := by decide
    exact ⟨hnodup, ⟨List.nodup_nil, trivial⟩, h, trivial⟩
  exact ⟨_, (makeJsonStr_eq data).symm ▸ readElement_writeElement _ hentity, rfl⟩

/-- The objects of a cost map name each member once, and their numbers are legible. -/
theorem wellFormed_commit (ar : Arith) (costMode costType vtag : String) (m : CostMatrix) :
    (JsonValue.object (m.commit ar costMode costType vtag)).WellFormed
      (Legible writeNumber extractNumber printed) := by
  have hrow : ∀ dstMap, (JsonValue.object (dstCosts ar dstMap)).WellFormed
      (Legible writeNumber extractNumber printed) := by
    intro dstMap
    rw [dstCosts_eq]
    exact wellFormed_toList dstMap (f := fun cost => .number (.fin (ar.round cost))) fun cost =>
      legible_fin (ar.round cost)
  have hdata : (JsonValue.object (m.costMapData ar)).WellFormed
      (Legible writeNumber extractNumber printed) := by
    rw [costMapData_eq]
    exact wellFormed_toList m hrow
  have hnodup : ["cost-mode".toList, "cost-type".toList, "map-vtag".toList, "map".toList].Nodup := by
    decide
  rw [commit_eq]
  exact ⟨hnodup, trivial, trivial, trivial, hdata, trivial⟩

/-- A client looks the source and the destination up in the served map. -/
theorem servedCost_eq_member (ar : Arith) (costMode costType vtag : String) (m : CostMatrix)
    (src dst : String) :
    servedCost (makeJsonStr (m.commit ar costMode costType vtag)) src dst =
      (((JsonValue.object (m.costMapData ar)).mapNumbers printed).member src.toList).bind fun row =>
        (row.member dst.toList).bind JsonValue.asNumber := by
  obtain ⟨json, hread, hjson⟩ :=
    readElement_makeJsonStr (wellFormed_commit ar costMode costType vtag m)
  have hmap : ((JsonValue.object (m.commit ar costMode costType vtag)).mapNumbers printed).member
      "map".toList = some ((JsonValue.object (m.costMapData ar)).mapNumbers printed) := by
    rw [commit_eq]
    rfl
  simp only [servedCost, hread, hjson, hmap, Option.bind_eq_bind, Option.bind_some]

/-- A client reads the entries of the map. -/
theorem servedCost_commit (ar : Arith) (costMode costType vtag : String) (m : CostMatrix)
    (src dst : String) :
    servedCost (makeJsonStr (m.commit ar costMode costType vtag)) src dst =
      (m.get src dst).map fun cost => .fin (ar.served cost) := by
  rw [servedCost_eq_member, costMapData_eq,
    mapNumbers_toList m fun dstMap => .object (dstCosts ar dstMap),
    member_toList m fun dstMap => (JsonValue.object (dstCosts ar dstMap)).mapNumbers printed,
    CostMatrix.get]
  cases m[src]? with
  | none => rfl
  | some dstMap =>
    rw [Option.map_some, Option.bind_some, Option.bind_some, dstCosts_eq,
      mapNumbers_toList dstMap fun cost => .number (.fin (ar.round cost)),
      member_toList dstMap fun cost => (JsonValue.number (.fin (ar.round cost))).mapNumbers printed]
    cases dstMap[dst]? <;> rfl

end Alto.Portal
