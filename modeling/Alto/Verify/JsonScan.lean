import Mathlib
import Alto.Portal.JsonRead

/-!
# The texts of tokens

The scanner cuts a text into white space and the texts of tokens (`scan_eq_some`).
-/

namespace Alto.Portal.JsonReader

/-! ## Literals -/

/-- What stands between the quotation marks of a string. -/
inductive IsLiteral : List Char → List Char → Prop
  | nil : IsLiteral [] []
  | char {c : Char} {lit s : List Char} (hquote : c ≠ '"') (hslash : c ≠ '\\')
    (h : IsLiteral lit s) : IsLiteral (c :: lit) (c :: s)
  | escape {c e : Char} {lit s : List Char} (he : unescape c = some e) (h : IsLiteral lit s) :
    IsLiteral ('\\' :: c :: lit) (e :: s)

theorem IsLiteral.matchString {lit s : List Char} (h : IsLiteral lit s) (s₀ rest : List Char) :
    JsonReader.matchString (lit ++ '"' :: rest) s₀ = some (s₀ ++ s, rest) := by
  induction h generalizing s₀ with
  | nil => simp [JsonReader.matchString]
  | char hquote hslash h ih =>
    rw [List.cons_append, JsonReader.matchString, ih]
    · simp
    · exact fun heq => absurd heq hslash
    · exact hquote
    · exact fun _ _ heq => absurd heq hslash
  | escape he h ih =>
    rw [List.cons_append, List.cons_append, JsonReader.matchString]
    simp only [he]
    rw [ih]
    simp

theorem isLiteral_of_matchString {input s₀ s rest : List Char}
    (h : matchString input s₀ = some (s, rest)) :
    ∃ lit s₁, input = lit ++ '"' :: rest ∧ s = s₀ ++ s₁ ∧ IsLiteral lit s₁ := by
  fun_induction matchString input s₀ with
  | case1 => cases h
  | case2 => cases h
  | case3 input s₀ =>
    cases h
    exact ⟨[], [], rfl, by simp, .nil⟩
  | case4 => cases h
  | case5 c input s₀ e he ih =>
    obtain ⟨lit, s₁, rfl, rfl, hlit⟩ := ih h
    exact ⟨_, e :: s₁, rfl, by simp, .escape he hlit⟩
  | case6 c input s₀ hslash hquote hslash' ih =>
    obtain ⟨lit, s₁, rfl, rfl, hlit⟩ := ih h
    obtain ⟨d, input, hinput⟩ := List.exists_cons_of_ne_nil
      (List.append_ne_nil_of_right_ne_nil lit (List.cons_ne_nil '"' rest))
    have hne : c ≠ '\\' := fun heq => hslash' d input heq hinput
    exact ⟨_, c :: s₁, rfl, by simp, .char hquote hne hlit⟩

/-! ## Tokens -/

/-- The text of a token. -/
inductive IsText : List Char → JsonToken → Prop
  | objectBegin : IsText ['{'] .objectBegin
  | objectEnd : IsText ['}'] .objectEnd
  | arrayBegin : IsText ['['] .arrayBegin
  | arrayEnd : IsText [']'] .arrayEnd
  | nextElement : IsText [','] .nextElement
  | memberAssign : IsText [':'] .memberAssign
  | string {lit s : List Char} (h : IsLiteral lit s) : IsText ('"' :: (lit ++ ['"'])) (.string s)
  | number {c : Char} {s : List Char} (hc : startsNumber c = true)
    (hs : ∀ x ∈ s, isNumeric x = true) : IsText (c :: s) (.number (c :: s))
  | boolean {b : Bool} :
    IsText (if b then ['t', 'r', 'u', 'e'] else ['f', 'a', 'l', 's', 'e']) (.boolean b)
  | null : IsText ['n', 'u', 'l', 'l'] .null

/-- A number ends where its characters do. -/
def Ends (t : JsonToken) (rest : List Char) : Prop :=
  ∀ s c, t = .number s → rest.head? = some c → isNumeric c = false

theorem isNumeric_of_startsNumber {c : Char} (h : startsNumber c = true) : isNumeric c = true := by
  have hall : ∀ c ∈ "-0123456789".toList, isNumeric c = true := by decide
  exact hall c (List.contains_iff_mem.1 h)

theorem isSpace_of_startsNumber {c : Char} (h : startsNumber c = true) : isSpace c = false := by
  have hall : ∀ c ∈ "-0123456789".toList, isSpace c = false := by decide
  exact hall c (List.contains_iff_mem.1 h)

/-- Tokens do not start with white space, and only numbers start like numbers. -/
theorem IsText.start {raw : List Char} {t : JsonToken} (h : IsText raw t) :
    ∃ c raw', raw = c :: raw' ∧ isSpace c = false ∧
      (isNumeric c = true → ∃ s, t = .number s) := by
  cases h with
  | number hc hs => exact ⟨_, _, rfl, isSpace_of_startsNumber hc, fun _ => ⟨_, rfl⟩⟩
  | @boolean b => cases b <;> exact ⟨_, _, rfl, by decide, fun h => absurd h (by decide)⟩
  | _ => exact ⟨_, _, rfl, by decide, fun h => absurd h (by decide)⟩

theorem matchExpectedString_eq_some {expected input rest : List Char} :
    matchExpectedString expected input = some rest ↔ input = expected ++ rest := by
  fun_induction matchExpectedString expected input with
  | case1 input => simp [eq_comm]
  | case2 => simp
  | case3 e expected input ih => simpa using ih
  | case4 e expected c input hne =>
    simp only [reduceCtorEq, List.cons_append, List.cons.injEq, false_iff, not_and]
    exact fun heq => absurd heq hne

/-- The characters that are tokens or start a string. -/
def marks : List Char := "\x7b\x7d[],:\"".toList

theorem scanToken_cons {c : Char} (input : List Char) (h : c ∉ marks) :
    scanToken (c :: input) =
      if startsNumber c then
        some (.number ((c :: input).takeWhile isNumeric), (c :: input).dropWhile isNumeric)
      else if c = 't' then
        (matchExpectedString "true".toList (c :: input)).map fun input => (.boolean true, input)
      else if c = 'f' then
        (matchExpectedString "false".toList (c :: input)).map fun input => (.boolean false, input)
      else if c = 'n' then
        (matchExpectedString "null".toList (c :: input)).map fun input => (.null, input)
      else none := by
  unfold scanToken
  split
  · next heq => cases heq
  all_goals next heq =>
    injection heq with hc hinput
    subst hc
    subst hinput
    first | exact absurd (by decide) h | rfl

theorem takeWhile_isNumeric {s rest : List Char} (hs : ∀ x ∈ s, isNumeric x = true)
    (hrest : ∀ c, rest.head? = some c → isNumeric c = false) :
    (s ++ rest).takeWhile isNumeric = s ∧ (s ++ rest).dropWhile isNumeric = rest := by
  rw [List.takeWhile_append_of_pos hs, List.dropWhile_append_of_pos hs]
  cases rest with
  | nil => simp
  | cons c rest => simp [hrest c rfl]

theorem IsText.scanToken {raw rest : List Char} {t : JsonToken} (h : IsText raw t)
    (hend : Ends t rest) : JsonReader.scanToken (raw ++ rest) = some (t, rest) := by
  cases h with
  | @string lit s h =>
    have hs := h.matchString [] rest
    simp [JsonReader.scanToken, hs]
  | @number c s hc hs =>
    have hall : ∀ c ∈ "-0123456789".toList, c ∉ marks := by decide
    obtain ⟨htake, hdrop⟩ := takeWhile_isNumeric
      (List.forall_mem_cons.2 ⟨isNumeric_of_startsNumber hc, hs⟩) fun x => hend (c :: s) x rfl
    rw [List.cons_append] at htake hdrop ⊢
    rw [scanToken_cons _ (hall c (List.contains_iff_mem.1 hc)), if_pos hc, htake, hdrop]
  | @boolean b =>
    cases b <;> exact (scanToken_cons _ (by decide)).trans rfl
  | null => exact (scanToken_cons _ (by decide)).trans rfl
  | _ => rfl

theorem isText_of_scanToken {input rest : List Char} {t : JsonToken}
    (h : scanToken input = some (t, rest)) :
    ∃ raw, input = raw ++ rest ∧ IsText raw t ∧ Ends t rest := by
  have hends : ∀ {t rest}, (∀ s, t ≠ JsonToken.number s) → Ends t rest :=
    fun h s c heq => absurd heq (h s)
  -- a word that is expected
  have hword : ∀ {word input' : List Char} {t' : JsonToken},
      (matchExpectedString word input').map (fun input => (t', input)) = some (t, rest) →
      IsText word t' → (∀ s, t' ≠ JsonToken.number s) →
      ∃ raw, input' = raw ++ rest ∧ IsText raw t ∧ Ends t rest := by
    intro word input' t' hmatch htext hne
    obtain ⟨rest', hrest, heq⟩ := Option.map_eq_some_iff.1 hmatch
    cases heq
    exact ⟨word, matchExpectedString_eq_some.1 hrest, htext, hends hne⟩
  unfold scanToken at h
  split at h
  · cases h
  case h_8 input =>
    obtain ⟨⟨s, rest'⟩, hs, heq⟩ := Option.map_eq_some_iff.1 h
    cases heq
    obtain ⟨lit, s₁, rfl, rfl, hlit⟩ := isLiteral_of_matchString hs
    exact ⟨'"' :: (lit ++ ['"']), by simp, .string hlit, hends nofun⟩
  case h_9 c input _ _ _ _ _ _ _ =>
    split at h
    · next hc =>
      cases h
      refine ⟨(c :: input).takeWhile isNumeric, List.takeWhile_append_dropWhile.symm, ?_, ?_⟩
      · rw [List.takeWhile_cons_of_pos (isNumeric_of_startsNumber hc)]
        exact .number hc fun x hx => List.mem_takeWhile_imp hx
      · intro s x _ hx
        have hhead := List.head?_dropWhile_not isNumeric (c :: input)
        rw [hx] at hhead
        exact hhead
    · split at h
      · exact hword h (.boolean (b := true)) nofun
      · split at h
        · exact hword h (.boolean (b := false)) nofun
        · split at h
          · exact hword h .null nofun
          · cases h
  all_goals
    cases h
    exact ⟨[_], rfl, by constructor, hends nofun⟩

/-! ## Texts -/

/-- A text that is scanned: white space, the text of a token, and so on. -/
inductive Scans : List Char → List JsonToken → Prop
  | nil {space : List Char} (hspace : ∀ c ∈ space, isSpace c = true) : Scans space []
  | cons {space raw rest : List Char} {t : JsonToken} {ts : List JsonToken}
    (hspace : ∀ c ∈ space, isSpace c = true) (htext : IsText raw t) (hend : Ends t rest)
    (h : Scans rest ts) : Scans (space ++ (raw ++ rest)) (t :: ts)

theorem scans_of_scanLoop {fuel : Nat} {input : List Char} {ts : List JsonToken}
    (h : scanLoop fuel input = some ts) : Scans input ts := by
  have hblank : ∀ {input : List Char}, input.dropWhile isSpace = [] → Scans input [] :=
    fun h => .nil (List.dropWhile_eq_nil_iff.1 h)
  induction fuel generalizing input ts with
  | zero =>
    rw [scanLoop] at h
    split at h
    · next hnil =>
      cases h
      exact hblank hnil
    · cases h
  | succ fuel ih =>
    rw [scanLoop] at h
    split at h
    · next hnil =>
      cases h
      exact hblank hnil
    · obtain ⟨⟨t, rest⟩, ht, h⟩ := Option.bind_eq_some_iff.1 h
      obtain ⟨ts', hts, heq⟩ := Option.bind_eq_some_iff.1 h
      cases heq
      obtain ⟨raw, hinput, htext, hend⟩ := isText_of_scanToken ht
      have hcut := List.takeWhile_append_dropWhile (p := isSpace) (l := input)
      rw [← hcut, hinput]
      exact .cons (fun c hc => List.mem_takeWhile_imp hc) htext hend (ih hts)

theorem Scans.scanLoop {input : List Char} {ts : List JsonToken} (h : Scans input ts) {fuel : Nat}
    (hfuel : input.length ≤ fuel) : JsonReader.scanLoop fuel input = some ts := by
  induction h generalizing fuel with
  | nil hspace =>
    have hnil := List.dropWhile_eq_nil_iff.2 hspace
    cases fuel <;> rw [JsonReader.scanLoop, if_pos hnil]
  | @cons space raw rest t ts hspace htext hend h ih =>
    obtain ⟨c, raw', rfl, hc, -⟩ := htext.start
    have hdrop : (space ++ (c :: raw' ++ rest)).dropWhile isSpace = c :: raw' ++ rest := by
      rw [List.dropWhile_append_of_pos hspace, List.cons_append, List.dropWhile_cons_of_neg]
      simp [hc]
    simp only [List.length_append, List.length_cons] at hfuel
    obtain ⟨fuel, rfl⟩ : ∃ n, fuel = n + 1 := ⟨fuel - 1, by omega⟩
    rw [JsonReader.scanLoop, hdrop, if_neg (by simp), htext.scanToken hend]
    simp [ih (show rest.length ≤ fuel by omega)]

theorem scan_eq_some {input : List Char} {ts : List JsonToken} :
    scan input = some ts ↔ Scans input ts :=
  ⟨scans_of_scanLoop, fun h => h.scanLoop le_rfl⟩

end Alto.Portal.JsonReader
