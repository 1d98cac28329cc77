import Mathlib
import Alto.Portal.JsonWriter
import Alto.Verify.JsonRead
import Alto.Verify.JsonScan

/-!
# What the JSON writer writes is read back

The writer gives each number three digits, so a value is read back with the numbers that their texts
say. Nothing else changes, whatever characters the strings have and however deep the value is nested.
-/

namespace Alto.Portal

open JsonReader JsonWriter

/-! ## Values -/

mutual

/-- The value with other numbers. -/
def JsonValue.mapNumbers (f : Double → Double) : JsonValue → JsonValue
  | .object o => .object (mapMembers f o)
  | .array a => .array (mapElements f a)
  | .number n => .number (f n)
  | .boolean b => .boolean b
  | .string s => .string s
  | .null => .null

/-- The elements of an array with other numbers. -/
def mapElements (f : Double → Double) : List JsonValue → List JsonValue
  | [] => []
  | v :: a => v.mapNumbers f :: mapElements f a

/-- The members of an object with other numbers. -/
def mapMembers (f : Double → Double) :
    List (List Char × JsonValue) → List (List Char × JsonValue)
  | [] => []
  | (name, v) :: o => (name, v.mapNumbers f) :: mapMembers f o

end

mutual

/-- The numbers have a property, and the names in every object are different. -/
def JsonValue.WellFormed (P : Double → Prop) : JsonValue → Prop
  | .object o => (o.map (·.1)).Nodup ∧ MembersFormed P o
  | .array a => ElementsFormed P a
  | .number n => P n
  | .boolean _ => True
  | .string _ => True
  | .null => True

/-- The elements of an array are well formed. -/
def ElementsFormed (P : Double → Prop) : List JsonValue → Prop
  | [] => True
  | v :: a => v.WellFormed P ∧ ElementsFormed P a

/-- The members of an object are well formed. -/
def MembersFormed (P : Double → Prop) : List (List Char × JsonValue) → Prop
  | [] => True
  | (_, v) :: o => v.WellFormed P ∧ MembersFormed P o

end

theorem mapMembers_names (f : Double → Double) (o : JsonObject) :
    (mapMembers f o).map (·.1) = o.map (·.1) := by
  induction o with
  | nil => rfl
  | cons member o ih => rw [mapMembers, List.map_cons, ih, List.map_cons]

/-! ## Texts -/

/-- A text that ends a number. -/
def Stops (rest : List Char) : Prop := ∀ c, rest.head? = some c → isNumeric c = false

/-- A number whose text is that of a number, and is read as one. -/
structure Legible (insert : Double → List Char) (extract : List Char → Option Double)
    (round : Double → Double) (n : Double) : Prop where
  text : IsText (insert n) (.number (insert n))
  read : extract (insert n) = some (round n)

namespace JsonReader

theorem Scans.space {space rest : List Char} {ts : List JsonToken}
    (hspace : ∀ c ∈ space, isSpace c = true) (h : Scans rest ts) : Scans (space ++ rest) ts := by
  have hboth : ∀ {more : List Char}, (∀ c ∈ more, isSpace c = true) →
      ∀ c ∈ space ++ more, isSpace c = true := by
    intro more hmore c hc
    rcases List.mem_append.1 hc with hc | hc
    · exact hspace c hc
    · exact hmore c hc
  cases h with
  | nil hrest => exact .nil (hboth hrest)
  | cons hrest htext hend h =>
    rw [← List.append_assoc]
    exact .cons (hboth hrest) htext hend h

/-- A token other than a number, with what follows. -/
theorem Scans.token {raw rest : List Char} {t : JsonToken} {ts : List JsonToken}
    (htext : IsText raw t) (hend : Ends t rest) (h : Scans rest ts) :
    Scans (raw ++ rest) (t :: ts) :=
  .cons (List.forall_mem_nil _) htext hend h

theorem isLiteral_escape (s : List Char) : IsLiteral (s.flatMap escape) s := by
  induction s with
  | nil => exact .nil
  | cons c s ih =>
    rw [List.flatMap_cons]
    unfold escape
    split
    case h_8 hquote hslash _ _ _ _ _ => exact .char hquote hslash ih
    all_goals exact .escape rfl ih

theorem isText_writeString (s : List Char) : IsText (writeString s) (.string s) :=
  .string (isLiteral_escape s)

theorem isSpace_tabs (depth : Nat) : ∀ c ∈ tabs depth, isSpace c = true := by
  intro c hc
  rw [List.eq_of_mem_replicate hc]
  rfl

theorem stops_cons {c : Char} {rest : List Char} (h : isNumeric c = false) : Stops ([c] ++ rest) := by
  intro c' hc'
  cases hc'
  exact h

/-- The name of a member stands in front of its value. -/
theorem scans_name (name : List Char) (depth : Nat) {rest : List Char} {ts : List JsonToken}
    (h : Scans rest ts) :
    Scans (tabs depth ++ (writeString name ++ ([' '] ++ ([':'] ++ ([' '] ++ rest)))))
      (.string name :: .memberAssign :: ts) := by
  have hvalue : Scans ([' '] ++ rest) ts := h.space (by decide)
  have hassign : Scans ([' '] ++ ([':'] ++ ([' '] ++ rest))) (.memberAssign :: ts) :=
    (Scans.token .memberAssign nofun hvalue).space (by decide)
  exact (Scans.token (isText_writeString name) nofun hassign).space (isSpace_tabs depth)

/-! ## What is written is scanned -/

section

variable {insert : Double → List Char} {extract : List Char → Option Double}
  {round : Double → Double}

mutual

/-- The text of a value is scanned as tokens of the value. -/
theorem scans_write : ∀ (v : JsonValue), v.WellFormed (Legible insert extract round) →
    ∀ (depth : Nat) {rest : List Char} {ts : List JsonToken}, Stops rest → Scans rest ts →
      ∃ front, IsValue extract front (v.mapNumbers round) ∧
        Scans (write insert depth v ++ rest) (front ++ ts)
  | .null, _, _, _, _, _, hrest => ⟨_, .null, .token .null nofun hrest⟩
  | .boolean b, _, _, _, _, _, hrest => ⟨_, .boolean, .token .boolean nofun hrest⟩
  | .string s, _, _, _, _, _, hrest => ⟨_, .string, .token (isText_writeString s) nofun hrest⟩
  | .number n, hv, _, _, _, hstops, hrest =>
    ⟨_, .number hv.read, .token hv.text (fun _ c _ hc => hstops c hc) hrest⟩
  | .array [], _, _, rest, ts, _, hrest => by
    have hclose : Scans ([']'] ++ rest) (.arrayEnd :: ts) := .token .arrayEnd nofun hrest
    have hopen : Scans (['['] ++ ([']'] ++ rest)) (.arrayBegin :: .arrayEnd :: ts) :=
      .token .arrayBegin nofun hclose
    exact ⟨_, .array .empty, hopen⟩
  | .array (v :: a), hv, depth, rest, ts, _, hrest => by
    have hclose : Scans (tabs depth ++ ([']'] ++ rest)) (.arrayEnd :: ts) :=
      (Scans.token .arrayEnd nofun hrest).space (isSpace_tabs depth)
    obtain ⟨front, hfront, hscans⟩ :=
      scans_writeElements (v :: a) (List.cons_ne_nil v a) hv (depth + 1) hclose
    refine ⟨_, .array (.elements hfront), ?_⟩
    have htext : write insert depth (.array (v :: a)) ++ rest =
        ['['] ++ (['\n'] ++ (writeElements insert (depth + 1) (v :: a) ++
          (tabs depth ++ ([']'] ++ rest)))) := by
      simp [write]
    have hts : (JsonToken.arrayBegin :: (front ++ [.arrayEnd])) ++ ts =
        .arrayBegin :: (front ++ .arrayEnd :: ts) := by simp
    rw [htext, hts]
    exact .token .arrayBegin nofun (hscans.space (by decide))
  | .object [], _, _, rest, ts, _, hrest => by
    have hclose : Scans (['}'] ++ rest) (.objectEnd :: ts) := .token .objectEnd nofun hrest
    have hopen : Scans (['{'] ++ (['}'] ++ rest)) (.objectBegin :: .objectEnd :: ts) :=
      .token .objectBegin nofun hclose
    exact ⟨_, .object .empty, hopen⟩
  | .object (member :: o), hv, depth, rest, ts, _, hrest => by
    have hclose : Scans (tabs depth ++ (['}'] ++ rest)) (.objectEnd :: ts) :=
      (Scans.token .objectEnd nofun hrest).space (isSpace_tabs depth)
    obtain ⟨front, hfront, hscans⟩ :=
      scans_writeMembers (member :: o) (List.cons_ne_nil member o) hv.2 (depth + 1) hclose
    have hnodup : ((mapMembers round (member :: o)).map (·.1)).Nodup := by
      rw [mapMembers_names]
      exact hv.1
    refine ⟨_, .object (.members hfront hnodup), ?_⟩
    have htext : write insert depth (.object (member :: o)) ++ rest =
        ['{'] ++ (['\n'] ++ (writeMembers insert (depth + 1) (member :: o) ++
          (tabs depth ++ (['}'] ++ rest)))) := by
      simp [write]
    have hts : (JsonToken.objectBegin :: (front ++ [.objectEnd])) ++ ts =
        .objectBegin :: (front ++ .objectEnd :: ts) := by simp
    rw [htext, hts]
    exact .token .objectBegin nofun (hscans.space (by decide))

/-- The text of the elements of an array. -/
theorem scans_writeElements : ∀ (a : List JsonValue), a ≠ [] →
    ElementsFormed (Legible insert extract round) a →
    ∀ (depth : Nat) {rest : List Char} {ts : List JsonToken}, Scans rest ts →
      ∃ front, IsElements extract front (mapElements round a) ∧
        Scans (writeElements insert depth a ++ rest) (front ++ ts)
  | [], hne, _, _, _, _, _ => absurd rfl hne
  | [v], _, hv, depth, rest, ts, hrest => by
    have hend : Scans (['\n'] ++ rest) ts := hrest.space (by decide)
    obtain ⟨front, hfront, hscans⟩ := scans_write v hv.1 depth (stops_cons (by decide)) hend
    refine ⟨front, .one hfront, ?_⟩
    have htext : writeElements insert depth [v] ++ rest =
        tabs depth ++ (write insert depth v ++ (['\n'] ++ rest)) := by
      simp [writeElements]
    rw [htext]
    exact hscans.space (isSpace_tabs depth)
  | v :: next :: a, _, hv, depth, rest, ts, hrest => by
    obtain ⟨front', hfront', hscans'⟩ :=
      scans_writeElements (next :: a) (List.cons_ne_nil next a) hv.2 depth hrest
    have hcomma : Scans ([','] ++ (['\n'] ++
        (writeElements insert depth (next :: a) ++ rest))) (.nextElement :: (front' ++ ts)) :=
      .token .nextElement nofun (hscans'.space (by decide))
    obtain ⟨front, hfront, hscans⟩ := scans_write v hv.1 depth (stops_cons (by decide)) hcomma
    refine ⟨_, .more hfront hfront', ?_⟩
    have htext : writeElements insert depth (v :: next :: a) ++ rest =
        tabs depth ++ (write insert depth v ++ ([','] ++ (['\n'] ++
          (writeElements insert depth (next :: a) ++ rest)))) := by
      rw [writeElements]
      simp
    rw [htext, List.append_assoc]
    exact hscans.space (isSpace_tabs depth)

/-- The text of the members of an object. -/
theorem scans_writeMembers : ∀ (o : List (List Char × JsonValue)), o ≠ [] →
    MembersFormed (Legible insert extract round) o →
    ∀ (depth : Nat) {rest : List Char} {ts : List JsonToken}, Scans rest ts →
      ∃ front, IsMembers extract front (mapMembers round o) ∧
        Scans (writeMembers insert depth o ++ rest) (front ++ ts)
  | [], hne, _, _, _, _, _ => absurd rfl hne
  | [(name, v)], _, hv, depth, rest, ts, hrest => by
    have hend : Scans (['\n'] ++ rest) ts := hrest.space (by decide)
    obtain ⟨front, hfront, hscans⟩ := scans_write v hv.1 depth (stops_cons (by decide)) hend
    refine ⟨_, .one hfront, ?_⟩
    have htext : writeMembers insert depth [(name, v)] ++ rest =
        tabs depth ++ (writeString name ++ ([' '] ++ ([':'] ++ ([' '] ++
          (write insert depth v ++ (['\n'] ++ rest)))))) := by
      simp [writeMembers]
    rw [htext]
    exact scans_name name depth hscans
  | (name, v) :: next :: o, _, hv, depth, rest, ts, hrest => by
    obtain ⟨front', hfront', hscans'⟩ :=
      scans_writeMembers (next :: o) (List.cons_ne_nil next o) hv.2 depth hrest
    have hcomma : Scans ([','] ++ (['\n'] ++
        (writeMembers insert depth (next :: o) ++ rest))) (.nextElement :: (front' ++ ts)) :=
      .token .nextElement nofun (hscans'.space (by decide))
    obtain ⟨front, hfront, hscans⟩ := scans_write v hv.1 depth (stops_cons (by decide)) hcomma
    refine ⟨_, .more hfront hfront', ?_⟩
    have htext : writeMembers insert depth ((name, v) :: next :: o) ++ rest =
        tabs depth ++ (writeString name ++ ([' '] ++ ([':'] ++ ([' '] ++
          (write insert depth v ++ ([','] ++ (['\n'] ++
            (writeMembers insert depth (next :: o) ++ rest)))))))) := by
      rw [writeMembers]
      simp
    have hts : (JsonToken.string name :: .memberAssign :: (front ++ .nextElement :: front')) ++ ts =
        .string name :: .memberAssign :: (front ++ .nextElement :: (front' ++ ts)) := by simp
    rw [htext, hts]
    exact scans_name name depth hscans

end

end

end JsonReader

/-! ## Round trips -/

section

variable {insert : Double → List Char} {extract : List Char → Option Double}
  {round : Double → Double}

mutual

/-- Numbers with the same texts. -/
theorem write_mapNumbers (h : ∀ n, Legible insert extract round n → insert (round n) = insert n) :
    ∀ (v : JsonValue), v.WellFormed (Legible insert extract round) → ∀ depth,
      write insert depth (v.mapNumbers round) = write insert depth v
  | .null, _, _ => rfl
  | .boolean _, _, _ => rfl
  | .string _, _, _ => rfl
  | .number n, hv, _ => h n hv
  | .array a, hv, depth => by
    have hempty : (mapElements round a).isEmpty = a.isEmpty := by cases a <;> rfl
    rw [JsonValue.mapNumbers, write, write, writeElements_map h a hv, hempty]
  | .object o, hv, depth => by
    have hempty : (mapMembers round o).isEmpty = o.isEmpty := by cases o <;> rfl
    rw [JsonValue.mapNumbers, write, write, writeMembers_map h o hv.2, hempty]

theorem writeElements_map
    (h : ∀ n, Legible insert extract round n → insert (round n) = insert n) :
    ∀ (a : List JsonValue), ElementsFormed (Legible insert extract round) a → ∀ depth,
      writeElements insert depth (mapElements round a) = writeElements insert depth a
  | [], _, _ => rfl
  | v :: a, hv, depth => by
    have hempty : (mapElements round a).isEmpty = a.isEmpty := by cases a <;> rfl
    rw [mapElements, writeElements, writeElements, write_mapNumbers h v hv.1,
      writeElements_map h a hv.2, hempty]

theorem writeMembers_map
    (h : ∀ n, Legible insert extract round n → insert (round n) = insert n) :
    ∀ (o : List (List Char × JsonValue)), MembersFormed (Legible insert extract round) o →
      ∀ depth, writeMembers insert depth (mapMembers round o) = writeMembers insert depth o
  | [], _, _ => rfl
  | (name, v) :: o, hv, depth => by
    have hempty : (mapMembers round o).isEmpty = o.isEmpty := by cases o <;> rfl
    rw [mapMembers, writeMembers, writeMembers, write_mapNumbers h v hv.1,
      writeMembers_map h o hv.2, hempty]

end

/-- What is written is read back. -/
theorem readElement_writeElement (v : JsonValue)
    (hv : v.WellFormed (Legible insert extract round)) :
    readElement extract (writeElement insert v) = .ok (v.mapNumbers round) := by
  obtain ⟨front, hfront, hscans⟩ := scans_write v hv 0 (fun c hc => by cases hc)
    (Scans.nil (List.forall_mem_nil _))
  rw [List.append_nil, List.append_nil] at hscans
  exact readElement_eq_ok.2 ⟨front, scan_eq_some.2 hscans, hfront⟩

/-- What is written is read back with the numbers as their texts say, and it is written again as the same
text if the numbers are. -/
theorem read_writeElement (insert : Double → List Char) (extract : List Char → Option Double)
    (round : Double → Double) (v : JsonValue)
    (hv : v.WellFormed (Legible insert extract round)) :
    readElement extract (writeElement insert v) = .ok (v.mapNumbers round) ∧
      ((∀ n, Legible insert extract round n → insert (round n) = insert n) →
        writeElement insert (v.mapNumbers round) = writeElement insert v) :=
  ⟨readElement_writeElement v hv, fun h => write_mapNumbers h v hv 0⟩

end

/-- A third is written with three digits. -/
def threeDigits (n : Double) : List Char := if n = .fin (1 / 3) then "0.333".toList else ['0']

/-- The number of a text with three digits. -/
def ofDigits (s : List Char) : Option Double :=
  if s = "0.333".toList then some (.fin (333 / 1000)) else some 0

/-- The third in an array, under a name with a quotation mark and a tab. -/
def quoted (third : Double) : JsonValue :=
  .object [("a\"\t".toList, .array [.number third, .object [], .null]), (['b'], .boolean true)]

theorem read_writeElement_third :
    readElement ofDigits (writeElement threeDigits (quoted (.fin (1 / 3)))) =
      .ok (quoted (.fin (333 / 1000))) := by
  refine (read_writeElement threeDigits ofDigits (fun _ => .fin (333 / 1000))
    (quoted (.fin (1 / 3))) ⟨by decide, ⟨⟨?_, by decide +kernel⟩, ⟨List.nodup_nil, trivial⟩,
      trivial, trivial⟩, trivial, trivial⟩).1
  have htext : threeDigits (.fin (1 / 3)) = '0' :: ".333".toList := by decide +kernel
  rw [htext]
  exact .number (by decide) (by decide)

end Alto.Portal
