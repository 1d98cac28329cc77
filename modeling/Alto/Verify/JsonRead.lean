import Mathlib
import Alto.Portal.JsonRead

/-!
# What the JSON reader accepts

The parser accepts the sequences of tokens of a grammar, and what it makes of them is what the
grammar says (`parse_iff`). The fuel is always enough.
-/

namespace Alto.Portal.JsonReader

variable {extract : List Char → Option Double}

/-! ## The grammar -/

mutual

/-- The tokens of a value. -/
inductive IsValue (extract : List Char → Option Double) : List JsonToken → JsonValue → Prop
  | object {ts : List JsonToken} {o : JsonObject} (h : IsObject extract ts o) :
    IsValue extract (.objectBegin :: ts) (.object o)
  | array {ts : List JsonToken} {a : List JsonValue} (h : IsArray extract ts a) :
    IsValue extract (.arrayBegin :: ts) (.array a)
  | string {s : List Char} : IsValue extract [.string s] (.string s)
  | number {s : List Char} {n : Double} (h : extract s = some n) :
    IsValue extract [.number s] (.number n)
  | boolean {b : Bool} : IsValue extract [.boolean b] (.boolean b)
  | null : IsValue extract [.null] .null

/-- The tokens of an object behind the first one. -/
inductive IsObject (extract : List Char → Option Double) : List JsonToken → JsonObject → Prop
  | empty : IsObject extract [.objectEnd] []
  | members {ts : List JsonToken} {o : JsonObject} (h : IsMembers extract ts o)
    (hnodup : (o.map (·.1)).Nodup) : IsObject extract (ts ++ [.objectEnd]) o

/-- The tokens of the members of an object. -/
inductive IsMembers (extract : List Char → Option Double) : List JsonToken → JsonObject → Prop
  | one {name : List Char} {ts : List JsonToken} {v : JsonValue} (h : IsValue extract ts v) :
    IsMembers extract (.string name :: .memberAssign :: ts) [(name, v)]
  | more {name : List Char} {ts ts' : List JsonToken} {v : JsonValue} {o : JsonObject}
    (h : IsValue extract ts v) (ho : IsMembers extract ts' o) :
    IsMembers extract (.string name :: .memberAssign :: (ts ++ .nextElement :: ts'))
      ((name, v) :: o)

/-- The tokens of an array behind the first one. -/
inductive IsArray (extract : List Char → Option Double) : List JsonToken → List JsonValue → Prop
  | empty : IsArray extract [.arrayEnd] []
  | elements {ts : List JsonToken} {a : List JsonValue} (h : IsElements extract ts a) :
    IsArray extract (ts ++ [.arrayEnd]) a

/-- The tokens of the elements of an array. -/
inductive IsElements (extract : List Char → Option Double) :
    List JsonToken → List JsonValue → Prop
  | one {ts : List JsonToken} {v : JsonValue} (h : IsValue extract ts v) :
    IsElements extract ts [v]
  | more {ts ts' : List JsonToken} {v : JsonValue} {a : List JsonValue}
    (h : IsValue extract ts v) (ha : IsElements extract ts' a) :
    IsElements extract (ts ++ .nextElement :: ts') (v :: a)

end

/-! ## The parser follows the grammar -/

/-- What the parser accepts with this fuel is in the grammar. -/
structure Sound (extract : List Char → Option Double) (fuel : Nat) : Prop where
  value : ∀ {ts v rest}, parse extract fuel ts = some (v, rest) →
    ∃ front, ts = front ++ rest ∧ IsValue extract front v
  object : ∀ {ts o rest}, parseObject extract fuel ts = some (o, rest) →
    ∃ front, ts = front ++ rest ∧ IsObject extract front o
  members : ∀ {o ts o' rest}, parseMembers extract fuel o ts = some (o', rest) →
    (o.map (·.1)).Nodup → ∃ front o₁, ts = front ++ .objectEnd :: rest ∧ o' = o ++ o₁ ∧
      IsMembers extract front o₁ ∧ (o'.map (·.1)).Nodup
  array : ∀ {ts a rest}, parseArray extract fuel ts = some (a, rest) →
    ∃ front, ts = front ++ rest ∧ IsArray extract front a
  elements : ∀ {a ts a' rest}, parseElements extract fuel a ts = some (a', rest) →
    ∃ front a₁, ts = front ++ .arrayEnd :: rest ∧ a' = a ++ a₁ ∧ IsElements extract front a₁

theorem sound (extract : List Char → Option Double) (fuel : Nat) : Sound extract fuel := by
  induction fuel with
  | zero => exact ⟨nofun, nofun, nofun, nofun, nofun⟩
  | succ fuel ih =>
    refine ⟨?_, ?_, ?_, ?_, ?_⟩
    · intro ts v rest h
      cases ts with
      | nil => cases h
      | cons t ts =>
        cases t with
        | objectBegin =>
          rw [parse] at h
          obtain ⟨⟨o, rest'⟩, ho, heq⟩ := Option.map_eq_some_iff.1 h
          cases heq
          obtain ⟨front, rfl, hfront⟩ := ih.object ho
          exact ⟨_ :: front, rfl, .object hfront⟩
        | arrayBegin =>
          rw [parse] at h
          obtain ⟨⟨a, rest'⟩, ha, heq⟩ := Option.map_eq_some_iff.1 h
          cases heq
          obtain ⟨front, rfl, hfront⟩ := ih.array ha
          exact ⟨_ :: front, rfl, .array hfront⟩
        | string s =>
          rw [parse] at h
          cases h
          exact ⟨[_], rfl, .string⟩
        | number s =>
          rw [parse] at h
          obtain ⟨n, hn, heq⟩ := Option.map_eq_some_iff.1 h
          cases heq
          exact ⟨[_], rfl, .number hn⟩
        | boolean b =>
          rw [parse] at h
          cases h
          exact ⟨[_], rfl, .boolean⟩
        | null =>
          rw [parse] at h
          cases h
          exact ⟨[_], rfl, .null⟩
        | _ =>
          simp only [parse] at h
          cases h
    · intro ts o rest h
      unfold parseObject at h
      split at h
      · cases h
      · cases h
        exact ⟨[_], rfl, .empty⟩
      · next heq _ =>
        cases heq
        obtain ⟨front, o₁, rfl, rfl, hmembers, hnodup⟩ := ih.members h List.nodup_nil
        exact ⟨front ++ [.objectEnd], by simp, .members hmembers hnodup⟩
    · intro o ts o' rest h hnodup
      unfold parseMembers at h
      split at h
      · next o _ _ _ fuel' name ts heq =>
        obtain rfl := Nat.succ.inj heq
        split at h
        · cases h
        · next v ts₁ hv =>
          obtain ⟨front, rfl, hfront⟩ := ih.value hv
          split at h
          · cases h
          · next hname =>
            have hnodup' : ((o ++ [(name, v)]).map (·.1)).Nodup := by
              rw [List.map_append, List.map_singleton]
              refine List.nodup_append.2 ⟨hnodup, List.nodup_singleton _, fun x hx y hy => ?_⟩
              rw [List.mem_singleton.1 hy]
              rintro rfl
              exact hname hx
            split at h
            · next ts₂ =>
              obtain ⟨front', o₁, rfl, rfl, hmembers, hnodup₁⟩ := ih.members h hnodup'
              exact ⟨_, (name, v) :: o₁, by simp, by simp, .more hfront hmembers, hnodup₁⟩
            · cases h
              exact ⟨_, [(name, v)], rfl, rfl, .one hfront, hnodup'⟩
            · cases h
      · cases h
    · intro ts a rest h
      unfold parseArray at h
      split at h
      · cases h
      · cases h
        exact ⟨[_], rfl, .empty⟩
      · next heq _ =>
        cases heq
        obtain ⟨front, a₁, rfl, rfl, helements⟩ := ih.elements h
        exact ⟨front ++ [.arrayEnd], by simp, .elements helements⟩
    · intro a ts a' rest h
      unfold parseElements at h
      split at h
      · cases h
      · next v ts₂ hv =>
        obtain ⟨front, rfl, hfront⟩ := ih.value hv
        obtain ⟨front', a₁, rfl, rfl, helements⟩ := ih.elements h
        exact ⟨_, v :: a₁, by simp, by simp, .more hfront helements⟩
      · next v ts₂ hv =>
        obtain ⟨front, rfl, hfront⟩ := ih.value hv
        cases h
        exact ⟨front, [v], rfl, rfl, .one hfront⟩
      · cases h

/-! ## The grammar is followed -/

theorem IsValue.ne_nil {ts : List JsonToken} {v : JsonValue} (h : IsValue extract ts v) :
    ts ≠ [] := by
  cases h <;> exact List.cons_ne_nil _ _

/-- No object and no array ends where a value begins. -/
theorem IsValue.head {ts : List JsonToken} {v : JsonValue} (h : IsValue extract ts v) :
    ts.head? ≠ some .arrayEnd ∧ ts.head? ≠ some .objectEnd := by
  cases h <;> exact ⟨nofun, nofun⟩

theorem parseObject_succ (fuel : Nat) {ts : List JsonToken} (h : ts.head? ≠ some .objectEnd) :
    parseObject extract (fuel + 1) ts = parseMembers extract fuel [] ts := by
  unfold parseObject
  split
  · next heq => cases heq
  · exact absurd rfl h
  · next heq _ =>
    cases heq
    rfl

theorem parseArray_succ (fuel : Nat) {ts : List JsonToken} (h : ts.head? ≠ some .arrayEnd) :
    parseArray extract (fuel + 1) ts = parseElements extract fuel [] ts := by
  unfold parseArray
  split
  · next heq => cases heq
  · exact absurd rfl h
  · next heq _ =>
    cases heq
    rfl

theorem IsMembers.head {ts : List JsonToken} {o : JsonObject} (h : IsMembers extract ts o)
    (rest : List JsonToken) : (ts ++ rest).head? ≠ some .objectEnd := by
  cases h <;> nofun

theorem IsElements.head {ts : List JsonToken} {a : List JsonValue} (h : IsElements extract ts a)
    (rest : List JsonToken) : (ts ++ rest).head? ≠ some .arrayEnd := by
  have hvalue : ∀ {ts v}, IsValue extract ts v → ∀ rest, (ts ++ rest).head? ≠ some .arrayEnd := by
    intro ts v h rest
    cases h <;> nofun
  cases h with
  | one h => exact hvalue h rest
  | @more ts ts' v a h ha =>
    rw [List.append_assoc]
    exact hvalue h _

mutual

/-- Three units of fuel for each token are enough. -/
theorem IsValue.parses {ts : List JsonToken} {v : JsonValue} (h : IsValue extract ts v)
    (rest : List JsonToken) {fuel : Nat} (hfuel : 3 * ts.length ≤ fuel + 2) :
    parse extract fuel (ts ++ rest) = some (v, rest) := by
  obtain ⟨fuel, rfl⟩ : ∃ n, fuel = n + 1 := by
    refine Nat.exists_eq_succ_of_ne_zero ?_
    rintro rfl
    have hpos := List.length_pos_of_ne_nil h.ne_nil
    omega
  match h with
  | .object ho =>
    rw [List.cons_append, parse, ho.parses rest (by rw [List.length_cons] at hfuel; omega)]
    rfl
  | .array ha =>
    rw [List.cons_append, parse, ha.parses rest (by rw [List.length_cons] at hfuel; omega)]
    rfl
  | .string | .boolean | .null =>
    rw [List.singleton_append, parse]
  | .number hn =>
    rw [List.singleton_append, parse, hn]
    rfl

theorem IsObject.parses {ts : List JsonToken} {o : JsonObject} (h : IsObject extract ts o)
    (rest : List JsonToken) {fuel : Nat} (hfuel : 3 * ts.length ≤ fuel) :
    parseObject extract fuel (ts ++ rest) = some (o, rest) := by
  match h with
  | .empty =>
    obtain ⟨fuel, rfl⟩ : ∃ n, fuel = n + 1 := ⟨fuel - 1, by simp at hfuel; omega⟩
    rfl
  | .members hmembers hnodup =>
    rw [List.length_append, List.length_singleton] at hfuel
    obtain ⟨fuel, rfl⟩ : ∃ n, fuel = n + 1 := ⟨fuel - 1, by omega⟩
    rw [List.append_assoc, parseObject_succ _ (hmembers.head _)]
    exact hmembers.parses [] rest hnodup (by omega)

theorem IsMembers.parses {ts : List JsonToken} {o : JsonObject} (h : IsMembers extract ts o)
    (o₀ : JsonObject) (rest : List JsonToken) (hnodup : ((o₀ ++ o).map (·.1)).Nodup)
    {fuel : Nat} (hfuel : 3 * ts.length + 2 ≤ fuel) :
    parseMembers extract fuel o₀ (ts ++ .objectEnd :: rest) = some (o₀ ++ o, rest) := by
  obtain ⟨fuel, rfl⟩ : ∃ n, fuel = n + 1 := ⟨fuel - 1, by omega⟩
  have hfresh : ∀ {name : List Char} {v : JsonValue} {o : JsonObject},
      ((o₀ ++ (name, v) :: o).map (·.1)).Nodup → name ∉ o₀.map (·.1) := by
    intro name v o hnodup hmem
    rw [List.map_append, List.map_cons] at hnodup
    exact (List.nodup_append.1 hnodup).2.2 name hmem name List.mem_cons_self rfl
  match h with
  | .one hv =>
    simp only [List.length_cons] at hfuel
    rw [List.cons_append, List.cons_append, parseMembers, hv.parses _ (by omega)]
    simp only [if_neg (hfresh hnodup)]
  | .more hv ho =>
    simp only [List.length_cons, List.length_append] at hfuel
    rw [List.cons_append, List.cons_append, List.append_assoc, parseMembers,
      hv.parses _ (by omega)]
    simp only [if_neg (hfresh hnodup), List.cons_append]
    rw [ho.parses _ rest (by simpa using hnodup) (by omega)]
    simp

theorem IsArray.parses {ts : List JsonToken} {a : List JsonValue} (h : IsArray extract ts a)
    (rest : List JsonToken) {fuel : Nat} (hfuel : 3 * ts.length ≤ fuel) :
    parseArray extract fuel (ts ++ rest) = some (a, rest) := by
  match h with
  | .empty =>
    obtain ⟨fuel, rfl⟩ : ∃ n, fuel = n + 1 := ⟨fuel - 1, by simp at hfuel; omega⟩
    rfl
  | .elements helements =>
    rw [List.length_append, List.length_singleton] at hfuel
    obtain ⟨fuel, rfl⟩ : ∃ n, fuel = n + 1 := ⟨fuel - 1, by omega⟩
    rw [List.append_assoc, parseArray_succ _ (helements.head _)]
    exact helements.parses [] rest (by omega)

theorem IsElements.parses {ts : List JsonToken} {a : List JsonValue}
    (h : IsElements extract ts a) (a₀ : List JsonValue) (rest : List JsonToken) {fuel : Nat}
    (hfuel : 3 * ts.length + 2 ≤ fuel) :
    parseElements extract fuel a₀ (ts ++ .arrayEnd :: rest) = some (a₀ ++ a, rest) := by
  obtain ⟨fuel, rfl⟩ : ∃ n, fuel = n + 1 := ⟨fuel - 1, by omega⟩
  match h with
  | .one hv =>
    rw [parseElements, hv.parses _ (by omega)]
  | .more hv ha =>
    simp only [List.length_cons, List.length_append] at hfuel
    rw [List.append_assoc, parseElements, hv.parses _ (by omega)]
    simp only [List.cons_append]
    rw [ha.parses _ rest (by omega)]
    simp

end

/-! ## Reading -/

/-- What is read as a value. -/
theorem readElement_eq_ok {input : List Char} {v : JsonValue} :
    readElement extract input = .ok v ↔ ∃ ts, scan input = some ts ∧ IsValue extract ts v := by
  unfold readElement
  constructor
  · intro h
    split at h
    · cases h
    · cases h
    · next ts _ hscan =>
      split at h
      · next hparse =>
        cases h
        obtain ⟨front, rfl, hv⟩ := (sound extract _).value hparse
        exact ⟨front, by rw [hscan, List.append_nil], hv⟩
      · cases h
  · rintro ⟨ts, hscan, hv⟩
    have hparse := hv.parses [] (show 3 * ts.length ≤ 3 * ts.length + 2 by omega)
    rw [List.append_nil] at hparse
    rw [hscan]
    cases ts with
    | nil => exact absurd rfl hv.ne_nil
    | cons t ts => simp only [hparse]

/-- What is read as an object. -/
theorem readObject_eq_ok {input : List Char} {o : JsonObject} :
    readObject extract input = .ok o ↔
      ∃ ts, scan input = some (.objectBegin :: ts) ∧ IsObject extract ts o := by
  unfold readObject
  constructor
  · intro h
    split at h
    · cases h
    · cases h
    · next ts hscan =>
      split at h
      · next hparse =>
        cases h
        obtain ⟨front, rfl, ho⟩ := (sound extract _).object hparse
        exact ⟨front, by rw [hscan, List.append_nil], ho⟩
      · cases h
    · cases h
  · rintro ⟨ts, hscan, ho⟩
    have hparse := ho.parses [] (le_refl (3 * ts.length))
    rw [List.append_nil] at hparse
    simp only [hscan, hparse]

/-- An object is read as an object and as a value alike. -/
theorem readElement_object {input : List Char} {o : JsonObject} :
    readElement extract input = .ok (.object o) ↔ readObject extract input = .ok o := by
  rw [readElement_eq_ok, readObject_eq_ok]
  constructor
  · rintro ⟨ts, hscan, ⟨h⟩⟩
    exact ⟨_, hscan, h⟩
  · rintro ⟨ts, hscan, h⟩
    exact ⟨_, hscan, .object h⟩

end Alto.Portal.JsonReader
