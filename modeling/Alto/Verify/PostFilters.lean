import Alto.Portal.PostFilters
import Alto.Verify.AltoMaps
import Alto.Verify.Constraints
import Alto.Verify.JsonRead
import Alto.Verify.JsonScan

/-!
# What the filters accept

The filters check that the members of a request are there and have their types. They do not check
what is in the arrays: an element that is no string is read as the empty string, a constraint without
an operator is passed over, and one of fewer than two characters ends in an exception.
-/

namespace Alto.Portal

open JsonReader

/-! ## Requests -/

/-- The text of an object, as the reader takes it. -/
def IsJson (extract : List Char → Option Double) (text : List Char) (obj : JsonObject) : Prop :=
  ∃ ts, Scans text (.objectBegin :: ts) ∧ IsObject extract ts obj

/-- A text without a token. -/
def Blank (text : List Char) : Prop := ∀ c ∈ text, isSpace c = true

/-- A sign that may be left out. -/
def IsSign (text : List Char) : Prop := text = [] ∨ text = ['+'] ∨ text = ['-']

def IsDigits (text : List Char) : Prop := ∀ c ∈ text, c.isDigit = true

/-- The text of a decimal number: a sign, digits that may have a point between them, and an exponent
that may be left out. -/
def IsNumber (text : List Char) : Prop :=
  ∃ sign whole point fraction exponent,
    text = sign ++ whole ++ point ++ fraction ++ exponent ∧
    IsSign sign ∧ IsDigits whole ∧ IsDigits fraction ∧ whole ++ fraction ≠ [] ∧
    (point = ['.'] ∨ point = [] ∧ fraction = []) ∧
    (exponent = [] ∨ ∃ e sign digits, exponent = e :: (sign ++ digits) ∧ (e = 'e' ∨ e = 'E') ∧
      IsSign sign ∧ IsDigits digits ∧ digits ≠ [])

/-- An array of strings. -/
def IsStrings (v : JsonValue) : Prop := ∃ ss : List (List Char), v = .array (ss.map .string)

/-- An array of strings with an operator and a number each. -/
def IsConstraints (v : JsonValue) : Prop :=
  ∃ conss : List Constraint, v = .array (conss.map fun cons => .string cons.text) ∧
    ∀ cons ∈ conss, IsNumber cons.number

/-- An object has a member. -/
def Has (obj : JsonObject) (name : String) (P : JsonValue → Prop) : Prop :=
  ∃ v, obj.lookup name.toList = some v ∧ P v

/-- A request for a filtered network map. -/
def IsPIDSetRequest (obj : JsonObject) : Prop := Has obj "pids" IsStrings

/-- A request for properties of endpoints. -/
def IsEndPointsPropertyRequest (obj : JsonObject) : Prop :=
  Has obj "properties" IsStrings ∧ Has obj "endpoints" IsStrings

/-- A request for costs between the sources and destinations in a member. -/
structure IsCostRequest (field : String) (obj : JsonObject) : Prop where
  costMode : Has obj "cost-mode" fun v => ∃ s, v = .string s
  costType : Has obj "cost-type" fun v => ∃ s, v = .string s
  ends : Has obj field fun v =>
    ∃ mat, v = .object mat ∧ Has mat "srcs" IsStrings ∧ Has mat "dsts" IsStrings
  constraints : ∀ v, obj.lookup "constraints".toList = some v → IsConstraints v

/-- A filter accepts what is a request and rejects all else with a code. -/
def ReadJson.Judges {T : Type} (isRequest : Prop) : ReadJson T → Prop
  | ok _ => isRequest
  | error code => code ≠ .ok ∧ ¬isRequest
  | exception => False
  | undefined => False

/-! ## What the filters do not check -/

/-- The elements of the array `constraints`; none if the member has another type. -/
def constraintArray (obj : JsonObject) : Option (List JsonValue) :=
  match obj.lookup "constraints".toList with
  | none => some []
  | some element => element.array?

/-- The constraints that the loop comes to have room for an operator. -/
def HaveOperators (array : List JsonValue) : Prop :=
  ∀ v ∈ array.takeWhile (fun v => v.toString.take 2 ≠ "eq".toList), 2 ≤ v.toString.length

/-- An array of PIDs has strings only. -/
def PIDSetCondition (obj : JsonObject) : Prop :=
  ∀ array, obj.lookup "pids".toList = some (.array array) → IsStrings (.array array)

/-- Two arrays of properties and endpoints have strings only. -/
def EndPointsPropertyCondition (obj : JsonObject) : Prop :=
  ∀ array, obj.lookup "properties".toList = some (.array array) →
    ∀ array2, obj.lookup "endpoints".toList = some (.array array2) →
      IsStrings (.array array) ∧ IsStrings (.array array2)

/-- If all that is checked before the loop over the constraints is right, this loop does not throw;
and if all that is checked is right, so is the rest. -/
def CostRequestCondition (field : String) (obj : JsonObject) : Prop :=
  ∀ costMode, obj.lookup "cost-mode".toList = some (.string costMode) →
    ∀ costType, obj.lookup "cost-type".toList = some (.string costType) →
      ∀ mat, obj.lookup field.toList = some (.object mat) →
        ∀ array, constraintArray obj = some array →
          HaveOperators array ∧ ∀ srcs, mat.lookup "srcs".toList = some (.array srcs) →
            ∀ dsts, mat.lookup "dsts".toList = some (.array dsts) →
              IsStrings (.array srcs) ∧ IsStrings (.array dsts) ∧ IsConstraints (.array array)

/-! ## Checks -/

variable {T : Type} {isRequest : Prop} {obj : JsonObject} {extract : List Char → Option Double}
  {text : List Char}

theorem readObject_isJson : readObject extract text = .ok obj ↔ IsJson extract text obj := by
  rw [readObject_eq_ok]
  exact exists_congr fun ts => and_congr_left' scan_eq_some

theorem IsJson.not_blank (h : IsJson extract text obj) : ¬Blank text := by
  obtain ⟨ts, hts, -⟩ := h
  intro hblank
  have hnil := scan_eq_some.2 (.nil hblank)
  rw [scan_eq_some.2 hts] at hnil
  cases hnil

theorem readObject_undefined : readObject extract text = .undefined ↔ Blank text := by
  constructor
  · intro h
    unfold readObject at h
    split at h
    · cases h
    · next hscan =>
      cases scan_eq_some.1 hscan with
      | nil hblank => exact hblank
    · split at h <;> cases h
    · cases h
  · intro h
    have hscan := scan_eq_some.2 (.nil h)
    unfold readObject
    rw [hscan]

/-- A filter judges a text as it judges the object, and fails on a text without a token. -/
theorem judges_readJson {read : JsonObject → ReadJson T} {IsRequest : JsonObject → Prop} :
    (PostFilter.readJson extract text read).Judges
        (∃ obj, IsJson extract text obj ∧ IsRequest obj) ↔
      ¬Blank text ∧ ∀ obj, IsJson extract text obj → (read obj).Judges (IsRequest obj) := by
  unfold PostFilter.readJson
  cases hread : readObject extract text with
  | ok obj =>
    have hobj := readObject_isJson.1 hread
    have heq : ∀ {obj'}, IsJson extract text obj' → obj' = obj := by
      intro obj' h
      have h := readObject_isJson.2 h
      rw [hread] at h
      injection h with h
      exact h.symm
    have hrequest : (∃ obj, IsJson extract text obj ∧ IsRequest obj) ↔ IsRequest obj := by
      constructor
      · rintro ⟨obj', h, hr⟩
        exact heq h ▸ hr
      · exact fun hr => ⟨obj, hobj, hr⟩
    simp only [hrequest]
    constructor
    · intro h
      refine ⟨hobj.not_blank, ?_⟩
      intro obj' h'
      rwa [heq h']
    · exact fun h => h.2 obj hobj
  | exception =>
    have hno : ∀ obj, ¬IsJson extract text obj := by
      intro obj h
      have h := readObject_isJson.2 h
      rw [hread] at h
      cases h
    have hblank : ¬Blank text := by
      intro h
      have h := (@readObject_undefined extract text).2 h
      rw [hread] at h
      cases h
    refine iff_of_true ⟨nofun, ?_⟩ ⟨hblank, fun obj h => absurd h (hno obj)⟩
    rintro ⟨obj, h, -⟩
    exact hno obj h
  | undefined => exact iff_of_false id fun h => h.1 (readObject_undefined.1 hread)

theorem object?_eq_some (v : JsonValue) (x : JsonObject) : v.object? = some x ↔ v = .object x := by
  cases v <;> simp [JsonValue.object?]

theorem array?_eq_some (v : JsonValue) (x : List JsonValue) : v.array? = some x ↔ v = .array x := by
  cases v <;> simp [JsonValue.array?]

theorem string?_eq_some (v : JsonValue) (x : List Char) : v.string? = some x ↔ v = .string x := by
  cases v <;> simp [JsonValue.string?]

/-- The checks of a member that every request has. -/
theorem judges_member {U : Type} {name : String} {ofType : JsonValue → Option T}
    {type : T → JsonValue} {f : T → ReadJson U} (htype : ∀ v x, ofType v = some x ↔ v = type x)
    (hrequest : isRequest → Has obj name fun v => ∃ x, v = type x) :
    (PostFilter.member obj name ofType >>= f).Judges isRequest ↔
      ∀ x, obj.lookup name.toList = some (type x) → (f x).Judges isRequest := by
  cases hlookup : obj.lookup name.toList with
  | none =>
    have hmember : PostFilter.member obj name ofType = .error .jsonFieldMissing := by
      rw [PostFilter.member, hlookup]
    rw [hmember]
    refine iff_of_true ⟨nofun, ?_⟩ nofun
    intro h
    obtain ⟨v, hv, -⟩ := hrequest h
    rw [hlookup] at hv
    cases hv
  | some v =>
    cases hof : ofType v with
    | none =>
      have hmember : PostFilter.member obj name ofType = .error .jsonValueType := by
        rw [PostFilter.member, hlookup]
        simp only [hof]
      have hne : ∀ x, v ≠ type x := by
        intro x hv
        rw [(htype v x).2 hv] at hof
        cases hof
      rw [hmember]
      refine iff_of_true ⟨nofun, ?_⟩ fun x hv => absurd (Option.some.inj hv) (hne x)
      intro h
      obtain ⟨v', hv, x, rfl⟩ := hrequest h
      rw [hlookup] at hv
      exact hne x (Option.some.inj hv)
    | some x =>
      have hmember : PostFilter.member obj name ofType = .ok x := by
        rw [PostFilter.member, hlookup]
        simp only [hof]
      have hv := (htype v x).1 hof
      rw [hmember]
      constructor
      · intro h x' hv'
        have hof' := (htype v x').2 (Option.some.inj hv')
        rw [hof] at hof'
        obtain rfl := Option.some.inj hof'
        exact h
      · exact fun h => h x (congrArg some hv)

/-- The loop over the constraints. -/
theorem judges_constraints {U : Type} {strtod : List Char → Double}
    {f : Option (List (List Char)) → ReadJson U} {rest : Prop}
    (hrequest : isRequest → ∀ v, obj.lookup "constraints".toList = some v → IsConstraints v)
    (hf : ∀ read, (f read).Judges isRequest ↔ rest) :
    (PostFilter.readConstraintsOf strtod obj >>= f).Judges isRequest ↔
      ∀ array, constraintArray obj = some array → HaveOperators array ∧ rest := by
  cases hlookup : obj.lookup "constraints".toList with
  | none =>
    have hread : PostFilter.readConstraintsOf strtod obj = .ok none := by
      rw [PostFilter.readConstraintsOf, hlookup]
    have harray : constraintArray obj = some [] := by rw [constraintArray, hlookup]
    rw [hread, harray]
    constructor
    · rintro h array heq
      obtain rfl := Option.some.inj heq
      exact ⟨fun v hv => (by cases hv), (hf _).1 h⟩
    · exact fun h => (hf _).2 (h [] rfl).2
  | some v =>
    have harray : constraintArray obj = v.array? := by rw [constraintArray, hlookup]
    rw [harray]
    cases hv : v.array? with
    | none =>
      have hread : PostFilter.readConstraintsOf strtod obj = .error .jsonValueType := by
        rw [PostFilter.readConstraintsOf, hlookup]
        simp only [hv]
      rw [hread]
      refine iff_of_true ⟨by simp, ?_⟩ (by simp)
      intro h
      obtain ⟨conss, heq, -⟩ := hrequest h v hlookup
      rw [(array?_eq_some _ _).2 heq] at hv
      cases hv
    | some array =>
      have hloop : (PostFilter.readConstraints strtod
          (some (array.map JsonValue.toString))).isSome = true ↔ HaveOperators array := by
        rw [PostFilter.readConstraints, readLoop_isSome, List.takeWhile_map, List.forall_mem_map]
        rfl
      simp only [Option.some.injEq, forall_eq']
      cases hconss : PostFilter.readConstraints strtod (some (array.map JsonValue.toString)) with
      | none =>
        have hread : PostFilter.readConstraintsOf strtod obj = .exception := by
          rw [PostFilter.readConstraintsOf, hlookup]
          simp only [hv, hconss]
        rw [hconss] at hloop
        rw [hread]
        exact iff_of_false id fun h => absurd (hloop.2 h.1) (by simp)
      | some filter =>
        have hread : PostFilter.readConstraintsOf strtod obj =
            .ok (some (array.map JsonValue.toString)) := by
          rw [PostFilter.readConstraintsOf, hlookup]
          simp only [hv, hconss]
        rw [hconss] at hloop
        rw [hread]
        exact ⟨fun h => ⟨hloop.1 rfl, (hf _).1 h⟩, fun h => (hf _).2 h.2⟩

/-! ## The four filters -/

theorem has_iff {name : String} {P : JsonValue → Prop} {v : JsonValue}
    (h : obj.lookup name.toList = some v) : Has obj name P ↔ P v := by
  constructor
  · rintro ⟨v', hv, hp⟩
    rw [h] at hv
    exact Option.some.inj hv ▸ hp
  · exact fun hp => ⟨v, h, hp⟩

theorem Has.mono {name : String} {P Q : JsonValue → Prop} (h : Has obj name P)
    (himp : ∀ v, P v → Q v) : Has obj name Q := by
  obtain ⟨v, hv, hp⟩ := h
  exact ⟨v, hv, himp v hp⟩

theorem IsStrings.array (v : JsonValue) (h : IsStrings v) : ∃ array, v = .array array := by
  obtain ⟨ss, rfl⟩ := h
  exact ⟨_, rfl⟩

theorem judges_pidSet :
    (PostFilter.member obj "pids" JsonValue.array? >>= fun array =>
      pure (PostFilter.strings array)).Judges (IsPIDSetRequest obj) ↔ PIDSetCondition obj := by
  rw [judges_member array?_eq_some fun h => h.mono IsStrings.array]
  exact forall_congr' fun array => forall_congr' fun h => has_iff h

theorem judges_endPointsProperty :
    (PostFilter.member obj "properties" JsonValue.array? >>= fun array =>
      PostFilter.member obj "endpoints" JsonValue.array? >>= fun array2 =>
      pure (⟨PostFilter.strings array, PostFilter.strings array2⟩ :
        JsonEndPointsProperty)).Judges (IsEndPointsPropertyRequest obj) ↔
      EndPointsPropertyCondition obj := by
  refine (judges_member array?_eq_some fun h => h.1.mono IsStrings.array).trans ?_
  refine forall_congr' fun array => forall_congr' fun harray => ?_
  refine (judges_member array?_eq_some fun h => h.2.mono IsStrings.array).trans ?_
  exact forall_congr' fun array2 => forall_congr' fun harray2 =>
    and_congr (has_iff harray) (has_iff harray2)

theorem constraints_iff {array : List JsonValue} (h : constraintArray obj = some array) :
    (∀ v, obj.lookup "constraints".toList = some v → IsConstraints v) ↔
      IsConstraints (.array array) := by
  unfold constraintArray at h
  split at h
  · next hlookup =>
    obtain rfl := Option.some.inj h
    rw [hlookup]
    exact iff_of_true nofun ⟨[], rfl, nofun⟩
  · next v hlookup =>
    obtain rfl := (array?_eq_some _ _).1 h
    rw [hlookup]
    simp

theorem judges_cost {strtod : List Char → Double} {field : String} :
    (PostFilter.readCost strtod field obj).Judges (IsCostRequest field obj) ↔
      CostRequestCondition field obj := by
  refine (judges_member string?_eq_some fun h => h.costMode).trans ?_
  refine forall_congr' fun costMode => forall_congr' fun hmode => ?_
  refine (judges_member string?_eq_some fun h => h.costType).trans ?_
  refine forall_congr' fun costType => forall_congr' fun htype => ?_
  have hobject : ∀ v, (∃ mat, v = JsonValue.object mat ∧ Has mat "srcs" IsStrings ∧
      Has mat "dsts" IsStrings) → ∃ mat, v = .object mat := by
    rintro v ⟨mat, rfl, -⟩
    exact ⟨mat, rfl⟩
  refine (judges_member object?_eq_some fun h => h.ends.mono hobject).trans ?_
  refine forall_congr' fun mat => forall_congr' fun hmat => ?_
  have hends : IsCostRequest field obj → Has mat "srcs" IsStrings ∧ Has mat "dsts" IsStrings := by
    intro h
    obtain ⟨mat', heq, hends⟩ := (has_iff hmat).1 h.ends
    injection heq with heq
    exact heq ▸ hends
  refine Iff.trans (b := ∀ array, constraintArray obj = some array → HaveOperators array ∧
    ∀ srcs, mat.lookup "srcs".toList = some (.array srcs) →
      ∀ dsts, mat.lookup "dsts".toList = some (.array dsts) → IsCostRequest field obj)
    (judges_constraints (fun h => h.constraints) fun read => ?_) ?_
  · refine (judges_member array?_eq_some fun h => (hends h).1.mono IsStrings.array).trans ?_
    refine forall_congr' fun srcs => imp_congr_right fun _ => ?_
    exact judges_member array?_eq_some fun h => (hends h).2.mono IsStrings.array
  refine forall_congr' fun array => forall_congr' fun harray => and_congr_right fun _ => ?_
  refine forall_congr' fun srcs => forall_congr' fun hsrcs => ?_
  refine forall_congr' fun dsts => forall_congr' fun hdsts => ?_
  constructor
  · intro h
    exact ⟨(has_iff hsrcs).1 (hends h).1, (has_iff hdsts).1 (hends h).2,
      (constraints_iff harray).1 h.constraints⟩
  · rintro ⟨hs, hd, hc⟩
    exact ⟨⟨_, hmode, costMode, rfl⟩, ⟨_, htype, costType, rfl⟩,
      ⟨_, hmat, mat, rfl, ⟨_, hsrcs, hs⟩, ⟨_, hdsts, hd⟩⟩, (constraints_iff harray).2 hc⟩

/-- The judgement of `JsonPIDSet`. -/
def JsonPIDSet.Judges (extract : List Char → Option Double) (text : List Char) : Prop :=
  (JsonPIDSet.readJson extract text).Judges (∃ obj, IsJson extract text obj ∧ IsPIDSetRequest obj)

/-- The judgement of `JsonPIDMatrix`. -/
def JsonPIDMatrix.Judges (extract : List Char → Option Double) (strtod : List Char → Double)
    (text : List Char) : Prop :=
  (JsonPIDMatrix.readJson extract strtod text).Judges
    (∃ obj, IsJson extract text obj ∧ IsCostRequest "pids" obj)

/-- The judgement of `JsonEndPointsProperty`. -/
def JsonEndPointsProperty.Judges (extract : List Char → Option Double) (text : List Char) : Prop :=
  (JsonEndPointsProperty.readJson extract text).Judges
    (∃ obj, IsJson extract text obj ∧ IsEndPointsPropertyRequest obj)

/-- The judgement of `JsonEndPointsCost`. -/
def JsonEndPointsCost.Judges (extract : List Char → Option Double) (strtod : List Char → Double)
    (text : List Char) : Prop :=
  (JsonEndPointsCost.readJson extract strtod text).Judges
    (∃ obj, IsJson extract text obj ∧ IsCostRequest "endpoints" obj)

theorem JsonPIDMatrix.judges_iff {strtod : List Char → Double} :
    JsonPIDMatrix.Judges extract strtod text ↔
      ¬Blank text ∧ ∀ obj, IsJson extract text obj → CostRequestCondition "pids" obj :=
  judges_readJson.trans <| and_congr_right fun _ =>
    forall_congr' fun _ => imp_congr_right fun _ => judges_cost

/-- Every filter judges a text right just if the text has a token and the object, if there is one,
passes what the filter does not check. -/
theorem json_filters_judge_iff (extract : List Char → Option Double) (strtod : List Char → Double)
    (text : List Char) :
    (JsonPIDSet.Judges extract text ↔
      ¬Blank text ∧ ∀ obj, IsJson extract text obj → PIDSetCondition obj) ∧
    (JsonPIDMatrix.Judges extract strtod text ↔
      ¬Blank text ∧ ∀ obj, IsJson extract text obj → CostRequestCondition "pids" obj) ∧
    (JsonEndPointsProperty.Judges extract text ↔
      ¬Blank text ∧ ∀ obj, IsJson extract text obj → EndPointsPropertyCondition obj) ∧
    (JsonEndPointsCost.Judges extract strtod text ↔
      ¬Blank text ∧ ∀ obj, IsJson extract text obj → CostRequestCondition "endpoints" obj) := by
  refine ⟨?_, JsonPIDMatrix.judges_iff, ?_, ?_⟩
  · exact judges_readJson.trans <| and_congr_right fun _ =>
      forall_congr' fun _ => imp_congr_right fun _ => judges_pidSet
  · exact judges_readJson.trans <| and_congr_right fun _ =>
      forall_congr' fun _ => imp_congr_right fun _ => judges_endPointsProperty
  · exact judges_readJson.trans <| and_congr_right fun _ =>
      forall_congr' fun _ => imp_congr_right fun _ => judges_cost

/-- A request with the constraint "l". -/
def shortConstraint : List Char :=
  "\x7b\"cost-mode\": \"numerical\", \"cost-type\": \"routingcost\", \"constraints\": [\"l\"], ".toList ++
    "\"pids\": \x7b\"srcs\": [], \"dsts\": []\x7d\x7d".toList

theorem scan_shortConstraint :
    scan shortConstraint = some [.objectBegin,
      .string "cost-mode".toList, .memberAssign, .string "numerical".toList, .nextElement,
      .string "cost-type".toList, .memberAssign, .string "routingcost".toList, .nextElement,
      .string "constraints".toList, .memberAssign, .arrayBegin, .string "l".toList, .arrayEnd,
      .nextElement, .string "pids".toList, .memberAssign, .objectBegin,
      .string "srcs".toList, .memberAssign, .arrayBegin, .arrayEnd, .nextElement,
      .string "dsts".toList, .memberAssign, .arrayBegin, .arrayEnd, .objectEnd, .objectEnd] := by
  decide +kernel

theorem isJson_shortConstraint (extract : List Char → Option Double) :
    IsJson extract shortConstraint
      [("cost-mode".toList, .string "numerical".toList),
        ("cost-type".toList, .string "routingcost".toList),
        ("constraints".toList, .array [.string "l".toList]),
        ("pids".toList, .object [("srcs".toList, .array []), ("dsts".toList, .array [])])] := by
  have hpids : IsObject extract [.string "srcs".toList, .memberAssign, .arrayBegin, .arrayEnd,
      .nextElement, .string "dsts".toList, .memberAssign, .arrayBegin, .arrayEnd, .objectEnd]
      [("srcs".toList, .array []), ("dsts".toList, .array [])] :=
    .members (.more (.array .empty) (.one (.array .empty))) (by decide)
  exact ⟨_, scan_eq_some.1 scan_shortConstraint,
    .members (.more .string (.more .string (.more (.array (.elements (.one .string)))
      (.one (.object hpids))))) (by decide)⟩

/-- The constraint "l" is cut behind its end. -/
theorem short_constraint_throws :
    ¬∀ (extract : List Char → Option Double) (strtod : List Char → Double) (text : List Char),
      JsonPIDSet.Judges extract text ∧ JsonPIDMatrix.Judges extract strtod text ∧
      JsonEndPointsProperty.Judges extract text ∧ JsonEndPointsCost.Judges extract strtod text := by
  intro hall
  have hcost : ∀ text obj, IsJson (fun _ => none) text obj → CostRequestCondition "pids" obj :=
    fun text => (JsonPIDMatrix.judges_iff.1 (hall _ (fun _ => 0) text).2.1).2
  have hcost := hcost _ _ (isJson_shortConstraint _)
  have hloop := (hcost "numerical".toList (by simp [List.lookup])
    "routingcost".toList (by simp [List.lookup])
    [("srcs".toList, .array []), ("dsts".toList, .array [])] (by simp [List.lookup])
    [.string "l".toList] (by simp [constraintArray, List.lookup, JsonValue.array?])).1
  have hlength := hloop (.string "l".toList) (by simp [JsonValue.toString])
  simp [JsonValue.toString] at hlength

end Alto.Portal
