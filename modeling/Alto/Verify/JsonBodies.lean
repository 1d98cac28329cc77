import Mathlib
import Alto.Verify.JsonRead
import Alto.Verify.JsonScan
import Alto.Verify.RequestBody

/-!
# The bodies of JSON requests

The handlers keep the parts of a body between its white space. This is the body without white space
(`receive_filterProcess`), so that the reader finds the same tokens in it, except for the strings
that contain white space. No two tokens of a JSON text run into each other.
-/

namespace Alto.Portal

open Lib Server

/-! ## The sizes of strings -/

/-- The characters of a string token. -/
def JsonToken.size : JsonToken → Nat
  | .string s => s.length
  | _ => 0

mutual

/-- The characters of the strings and names in a value. -/
def JsonValue.size : JsonValue → Nat
  | .object o => sizeMembers o
  | .array a => sizeElements a
  | .string s => s.length
  | .number _ | .boolean _ | .null => 0

/-- The characters of the strings and names in the members of an object. -/
def sizeMembers : JsonObject → Nat
  | [] => 0
  | (name, v) :: o => name.length + v.size + sizeMembers o

/-- The characters of the strings and names in the elements of an array. -/
def sizeElements : List JsonValue → Nat
  | [] => 0
  | v :: a => v.size + sizeElements a

end

namespace JsonReader

variable {extract : List Char → Option Double}

/-- The characters of the strings in a sequence of tokens. -/
def sizeTokens (ts : List JsonToken) : Nat := (ts.map JsonToken.size).sum

/-- No number stands behind a number. -/
def Apart (ts : List JsonToken) : Prop :=
  ts.IsChain fun t t' => ¬ ((∃ s, t = .number s) ∧ ∃ s, t' = .number s)

theorem apart_cons {t : JsonToken} {ts : List JsonToken} (ht : ∀ s, t ≠ .number s)
    (h : Apart ts) : Apart (t :: ts) :=
  List.isChain_cons.2 ⟨fun _ _ hno => hno.1.elim ht, h⟩

theorem apart_append {t : JsonToken} {ts ts' : List JsonToken} (ht : ∀ s, t ≠ .number s)
    (h : Apart ts) (h' : Apart ts') : Apart (ts ++ t :: ts') := by
  refine List.isChain_append.2 ⟨h, apart_cons ht h', fun x _ y hy hno => ?_⟩
  cases hy
  exact hno.2.elim ht

theorem sizeTokens_cons (t : JsonToken) (ts : List JsonToken) :
    sizeTokens (t :: ts) = t.size + sizeTokens ts := by
  simp [sizeTokens]

theorem sizeTokens_append (ts ts' : List JsonToken) :
    sizeTokens (ts ++ ts') = sizeTokens ts + sizeTokens ts' := by
  simp [sizeTokens]

mutual

/-- In a value, numbers are apart, and the strings are those of the tokens. -/
theorem IsValue.tokens {ts : List JsonToken} {v : JsonValue} (h : IsValue extract ts v) :
    Apart ts ∧ sizeTokens ts = v.size := by
  match h with
  | .object ho =>
    obtain ⟨hapart, hsize⟩ := ho.tokens
    exact ⟨apart_cons nofun hapart, by
      simp only [sizeTokens_cons, hsize, JsonValue.size, JsonToken.size, Nat.zero_add]⟩
  | .array ha =>
    obtain ⟨hapart, hsize⟩ := ha.tokens
    exact ⟨apart_cons nofun hapart, by
      simp only [sizeTokens_cons, hsize, JsonValue.size, JsonToken.size, Nat.zero_add]⟩
  | .string | .number _ | .boolean | .null =>
    exact ⟨List.isChain_singleton _, by simp [sizeTokens, JsonToken.size, JsonValue.size]⟩

theorem IsObject.tokens {ts : List JsonToken} {o : JsonObject} (h : IsObject extract ts o) :
    Apart ts ∧ sizeTokens ts = sizeMembers o := by
  match h with
  | .empty => exact ⟨List.isChain_singleton _, rfl⟩
  | .members hmembers _ =>
    obtain ⟨hapart, hsize⟩ := hmembers.tokens
    exact ⟨apart_append nofun hapart List.isChain_nil, by
      rw [sizeTokens_append, hsize]
      rfl⟩

theorem IsMembers.tokens {ts : List JsonToken} {o : JsonObject} (h : IsMembers extract ts o) :
    Apart ts ∧ sizeTokens ts = sizeMembers o := by
  match h with
  | .one hv =>
    obtain ⟨hapart, hsize⟩ := hv.tokens
    refine ⟨apart_cons nofun (apart_cons nofun hapart), ?_⟩
    simp only [sizeTokens_cons, hsize, sizeMembers, JsonToken.size]
    omega
  | .more hv ho =>
    obtain ⟨hapart, hsize⟩ := hv.tokens
    obtain ⟨hapart', hsize'⟩ := ho.tokens
    refine ⟨apart_cons nofun (apart_cons nofun (apart_append nofun hapart hapart')), ?_⟩
    simp only [sizeTokens_cons, sizeTokens_append, hsize, hsize', sizeMembers, JsonToken.size]
    omega

theorem IsArray.tokens {ts : List JsonToken} {a : List JsonValue} (h : IsArray extract ts a) :
    Apart ts ∧ sizeTokens ts = sizeElements a := by
  match h with
  | .empty => exact ⟨List.isChain_singleton _, rfl⟩
  | .elements helements =>
    obtain ⟨hapart, hsize⟩ := helements.tokens
    exact ⟨apart_append nofun hapart List.isChain_nil, by
      rw [sizeTokens_append, hsize]
      rfl⟩

theorem IsElements.tokens {ts : List JsonToken} {a : List JsonValue}
    (h : IsElements extract ts a) : Apart ts ∧ sizeTokens ts = sizeElements a := by
  match h with
  | .one hv =>
    obtain ⟨hapart, hsize⟩ := hv.tokens
    exact ⟨hapart, by rw [hsize, sizeElements, sizeElements, Nat.add_zero]⟩
  | .more hv ha =>
    obtain ⟨hapart, hsize⟩ := hv.tokens
    obtain ⟨hapart', hsize'⟩ := ha.tokens
    refine ⟨apart_append nofun hapart hapart', ?_⟩
    simp only [sizeTokens_append, sizeTokens_cons, hsize, hsize', sizeElements, JsonToken.size]
    omega

end

/-! ## White space -/

/-- A text without its white space. -/
def strip (input : List Char) : List Char := input.filter fun c => !isSpace c

/-- A string contains white space; the first argument says whether the text starts in a string. -/
def literalSpace : Bool → List Char → Bool
  | _, [] => false
  | false, c :: input => literalSpace (c == '"') input
  | true, '\\' :: _ :: input => literalSpace true input
  | true, c :: input => isSpace c || literalSpace (c != '"') input

theorem strip_append (input more : List Char) : strip (input ++ more) = strip input ++ strip more :=
  List.filter_append ..

theorem strip_eq_nil {space : List Char} (h : ∀ c ∈ space, isSpace c = true) : strip space = [] := by
  rw [strip, List.filter_eq_nil_iff]
  intro c hc
  simp [h c hc]

theorem strip_eq_self {input : List Char} (h : ∀ c ∈ input, isSpace c = false) :
    strip input = input := by
  rw [strip, List.filter_eq_self]
  intro c hc
  simp [h c hc]

theorem strip_cons_of_not {c : Char} (input : List Char) (h : isSpace c = false) :
    strip (c :: input) = c :: strip input := by
  simp [strip, h]

theorem isSpace_of_unescape {c e : Char} (h : unescape c = some e) : isSpace c = false := by
  unfold unescape at h
  split at h <;> first | decide | cases h

theorem literalSpace_outside {front : List Char} (h : '"' ∉ front) (rest : List Char) :
    literalSpace false (front ++ rest) = literalSpace false rest := by
  induction front with
  | nil => rfl
  | cons c front ih =>
    have hc : (c == '"') = false := by
      rw [beq_eq_false_iff_ne]
      rintro rfl
      exact h List.mem_cons_self
    rw [List.cons_append, literalSpace, hc]
    exact ih fun hmem => h (List.mem_cons_of_mem c hmem)

theorem IsLiteral.literalSpace {lit s : List Char} (h : IsLiteral lit s) (rest : List Char) :
    JsonReader.literalSpace true (lit ++ '"' :: rest) =
      (lit.any isSpace || JsonReader.literalSpace false rest) := by
  induction h with
  | nil => simp [JsonReader.literalSpace, isSpace]
  | char hquote hslash h ih =>
    rw [List.cons_append, JsonReader.literalSpace, bne_iff_ne.2 hquote, ih, List.any_cons,
      Bool.or_assoc]
    exact fun _ _ heq => absurd heq hslash
  | escape he h ih =>
    rw [List.cons_append, List.cons_append, JsonReader.literalSpace, ih, List.any_cons,
      List.any_cons, isSpace_of_unescape he]
    rfl

/-- A literal without its white space. -/
theorem IsLiteral.strip {lit s : List Char} (h : IsLiteral lit s) :
    ∃ s', IsLiteral (strip lit) s' ∧ (lit.any isSpace = false → s' = s) ∧
      (lit.any isSpace = true → s'.length < s.length) := by
  have hle : ∀ {lit s s' : List Char}, (lit.any isSpace = false → s' = s) →
      (lit.any isSpace = true → s'.length < s.length) → s'.length ≤ s.length := by
    intro lit s s' heq hlt
    cases hb : lit.any isSpace with
    | false => rw [heq hb]
    | true => exact (hlt hb).le
  induction h with
  | nil => exact ⟨[], .nil, fun _ => rfl, nofun⟩
  | @char c lit s hquote hslash h ih =>
    obtain ⟨s', hs', heq, hlt⟩ := ih
    cases hc : isSpace c with
    | true =>
      refine ⟨s', ?_, ?_, fun _ => Nat.lt_succ_of_le (hle heq hlt)⟩
      · rwa [JsonReader.strip, List.filter_cons_of_neg (by simp [hc])]
      · simp [hc]
    | false =>
      refine ⟨c :: s', ?_, ?_, ?_⟩
      · rw [strip_cons_of_not _ hc]
        exact .char hquote hslash hs'
      · rw [List.any_cons, hc, Bool.false_or]
        exact fun h => by rw [heq h]
      · rw [List.any_cons, hc, Bool.false_or]
        exact fun h => Nat.succ_lt_succ (hlt h)
  | @escape c e lit s he h ih =>
    obtain ⟨s', hs', heq, hlt⟩ := ih
    have hc := isSpace_of_unescape he
    have hslash : isSpace '\\' = false := by decide
    refine ⟨e :: s', ?_, ?_, ?_⟩
    · rw [strip_cons_of_not _ hslash, strip_cons_of_not _ hc]
      exact .escape he hs'
    · rw [List.any_cons, List.any_cons, hslash, hc, Bool.false_or, Bool.false_or]
      exact fun h => by rw [heq h]
    · rw [List.any_cons, List.any_cons, hslash, hc, Bool.false_or, Bool.false_or]
      exact fun h => Nat.succ_lt_succ (hlt h)

/-- The text of a token without its white space. -/
theorem IsText.strip {raw : List Char} {t : JsonToken} (h : IsText raw t) :
    ∃ t' b, IsText (strip raw) t' ∧ (∀ s, t' = .number s → t = .number s) ∧
      (∀ rest, literalSpace false (raw ++ rest) = (b || literalSpace false rest)) ∧
      (b = false → t' = t) ∧ (b = true → t'.size < t.size) := by
  have hplain : ∀ {raw : List Char} {t : JsonToken}, IsText raw t →
      (∀ c ∈ raw, isSpace c = false) → '"' ∉ raw → ∃ t' b, IsText (JsonReader.strip raw) t' ∧
      (∀ s, t' = .number s → t = .number s) ∧
      (∀ rest, literalSpace false (raw ++ rest) = (b || literalSpace false rest)) ∧
      (b = false → t' = t) ∧ (b = true → t'.size < t.size) := by
    intro raw t h hspace hquote
    refine ⟨t, false, ?_, fun _ => id, fun rest => ?_, fun _ => rfl, nofun⟩
    · rwa [strip_eq_self hspace]
    · rw [literalSpace_outside hquote, Bool.false_or]
  cases h with
  | @string lit s h =>
    obtain ⟨s', hs', heq, hlt⟩ := h.strip
    have hquote : isSpace '"' = false := by decide
    refine ⟨.string s', lit.any isSpace, ?_, nofun, fun rest => ?_, fun hb => by rw [heq hb], hlt⟩
    · rw [strip_cons_of_not _ hquote, strip_append, strip_cons_of_not _ hquote]
      exact .string hs'
    · rw [List.cons_append, List.append_assoc]
      exact h.literalSpace rest
  | @number c s hc hs =>
    have hall : ∀ c ∈ "0123456789.eE-+\x00".toList, isSpace c = false ∧ c ≠ '"' := by decide
    have hnumeric : ∀ x ∈ c :: s, isNumeric x = true :=
      List.forall_mem_cons.2 ⟨isNumeric_of_startsNumber hc, hs⟩
    have hmem : ∀ x ∈ c :: s, isSpace x = false ∧ x ≠ '"' :=
      fun x hx => hall x (List.contains_iff_mem.1 (hnumeric x hx))
    exact hplain (.number hc hs) (fun x hx => (hmem x hx).1) fun hx => (hmem _ hx).2 rfl
  | @boolean b => cases b <;> exact hplain .boolean (by decide) (by decide)
  | _ => exact hplain (by constructor) (by decide) (by decide)

/-- Behind white space, only a number starts like a number. -/
theorem Scans.head {input : List Char} {ts : List JsonToken} (h : Scans input ts)
    (hts : ∀ s, ts.head? ≠ some (.number s)) :
    ∀ c, (strip input).head? = some c → isNumeric c = false := by
  intro c hc
  cases h with
  | nil hspace =>
    rw [strip_eq_nil hspace] at hc
    cases hc
  | @cons space raw rest t ts hspace htext hend h =>
    obtain ⟨d, raw', rfl, hd, hnumber⟩ := htext.start
    rw [strip_append, strip_eq_nil hspace, List.nil_append, List.cons_append,
      strip_cons_of_not _ hd, List.head?_cons] at hc
    cases hc
    rw [← Bool.not_eq_true]
    intro hnumeric
    obtain ⟨s, rfl⟩ := hnumber hnumeric
    exact hts s rfl

/-- Where numbers are apart, the tokens of a text are those of the text without its white space, but
for the strings with white space. -/
theorem Scans.strip {input : List Char} {ts : List JsonToken} (h : Scans input ts)
    (hapart : Apart ts) : ∃ ts', Scans (strip input) ts' ∧
      (literalSpace false input = false → ts' = ts) ∧
      (literalSpace false input = true → sizeTokens ts' < sizeTokens ts) := by
  induction h with
  | @nil space hspace =>
    have hquote : '"' ∉ space := fun hmem => absurd (hspace _ hmem) (by decide)
    have hout := literalSpace_outside hquote []
    rw [List.append_nil] at hout
    refine ⟨[], ?_, fun _ => rfl, fun h => ?_⟩
    · rw [strip_eq_nil hspace]
      exact .nil nofun
    · rw [hout] at h
      cases h
  | @cons space raw rest t ts hspace htext hend h ih =>
    obtain ⟨hhead, hapart'⟩ := List.isChain_cons.1 hapart
    obtain ⟨ts', hscans, heq, hlt⟩ := ih hapart'
    obtain ⟨t', b, htext', hnumber, hspaces, heq', hlt'⟩ := htext.strip
    have hquote : '"' ∉ space := fun hmem => absurd (hspace _ hmem) (by decide)
    have hend' : Ends t' (JsonReader.strip rest) := by
      intro s c ht hc
      refine h.head (fun s' hts => ?_) c hc
      exact hhead (.number s') hts ⟨⟨s, hnumber s ht⟩, s', rfl⟩
    refine ⟨t' :: ts', ?_, ?_, ?_⟩
    · rw [strip_append, strip_append, strip_eq_nil hspace]
      exact .cons nofun htext' hend' hscans
    · rw [literalSpace_outside hquote, hspaces, Bool.or_eq_false_iff]
      rintro ⟨hb, hrest⟩
      rw [heq' hb, heq hrest]
    · rw [literalSpace_outside hquote, hspaces, sizeTokens_cons, sizeTokens_cons]
      intro hor
      have hle : t'.size ≤ t.size := by
        cases hb : b with
        | false => rw [heq' hb]
        | true => exact (hlt' hb).le
      have hle' : sizeTokens ts' ≤ sizeTokens ts := by
        cases hb : literalSpace false rest with
        | false => rw [heq hb]
        | true => exact (hlt hb).le
      rcases Bool.or_eq_true_iff.1 hor with hb | hb
      · have := hlt' hb
        omega
      · have := hlt hb
        omega

/-- A text and the same without white space are read as the same value exactly if no string contains
white space. -/
theorem readElement_strip_iff {input : List Char} {v : JsonValue}
    (h : readElement extract input = .ok v) :
    readElement extract (strip input) = .ok v ↔ literalSpace false input = false := by
  obtain ⟨ts, hscan, hv⟩ := readElement_eq_ok.1 h
  obtain ⟨hapart, hsize⟩ := hv.tokens
  obtain ⟨ts', hscan', heq, hlt⟩ := (scan_eq_some.1 hscan).strip hapart
  constructor
  · intro hread
    by_contra hspace
    obtain ⟨ts₁, hscan₁, hv₁⟩ := readElement_eq_ok.1 hread
    rw [scan_eq_some.2 hscan', Option.some.injEq] at hscan₁
    subst hscan₁
    have hless := hlt (Bool.eq_true_of_not_eq_false hspace)
    rw [hsize, hv₁.tokens.2] at hless
    exact hless.false
  · intro hspace
    rw [heq hspace] at hscan'
    exact readElement_eq_ok.2 ⟨ts, scan_eq_some.2 hscan', hv⟩

end JsonReader

/-! ## Requests -/

open JsonReader

theorem takeWhile_eq_strip (input : List Char) :
    strip input = (input.takeWhile fun c => !isSpace c) ++
      strip (input.dropWhile fun c => !isSpace c) := by
  have hcut := List.takeWhile_append_dropWhile (p := fun c => !isSpace c) (l := input)
  have hfront : strip (input.takeWhile fun c => !isSpace c) =
      input.takeWhile fun c => !isSpace c :=
    strip_eq_self fun c hc => by simpa using List.mem_takeWhile_imp hc
  rw [← hfront, ← strip_append, hcut]

theorem strip_dropWhile (input : List Char) : strip (input.dropWhile isSpace) = strip input := by
  have hcut := List.takeWhile_append_dropWhile (p := isSpace) (l := input)
  have hfront : strip (input.takeWhile isSpace) = [] :=
    strip_eq_nil fun c hc => List.mem_takeWhile_imp hc
  conv_rhs => rw [← hcut, strip_append, hfront, List.nil_append]

/-- A call for the whole body keeps what is not white space. -/
theorem rounds_filterProcess (input filter : List Char) :
    roundsConsume (bodyRound filterProcess true) input filter = .ok [] (filter ++ strip input) := by
  induction hn : input.length using Nat.strong_induction_on generalizing input filter with
  | _ n ih =>
    rw [roundsConsume_eq (turns_filterProcess.shrinks true), round_filterProcess]
    rcases hx : IStream.getString { rest := input } with ⟨_ | parts, req⟩
    · have hblank := (IStream.getString_eq_none.1 hx).1
      rw [← strip_dropWhile, hblank]
      simp [strip]
    · obtain ⟨-, hparts, hreq⟩ := IStream.getString_eq_some.1 hx
      have hlt := IStream.extracts_getString.length_lt hx
      have hstrip : strip input = parts ++ strip req.rest := by
        rw [← strip_dropWhile, takeWhile_eq_strip, hparts, hreq]
      simp only
      rw [ih _ (hn ▸ hlt) req.rest _ rfl, hstrip, List.append_assoc]

/-- The handlers keep the body without its white space, however it comes. -/
theorem receive_filterProcess {pieces : List (List Char)} (hpieces : ∀ piece ∈ pieces, piece ≠ []) :
    (receive filterProcess [] pieces).callbackData = strip pieces.flatten ∧
      (receive filterProcess [] pieces).rejected = false := by
  have h := turns_filterProcess.receive_eq_finished (extends_filterProcess true) [] pieces hpieces
  rw [rounds_filterProcess] at h
  obtain ⟨hdata, hrejected⟩ := Prod.mk.inj (Option.some.inj h)
  exact ⟨by rw [← hdata, List.nil_append], hrejected.symm⟩

/-- The process callbacks of the handlers that read JSON. -/
def jsonProcesses : List (Bool → IStream → List Char → Turn (List Char)) :=
  [getNetMapFilteredProcess, getCostMapFilteredProcess, getEndPointsPropertyProcess,
    getEndPointsCostProcess]

/-- A body that comes in these pieces reaches the filter with the same value. -/
def Unaltered (extract : List Char → Option Double)
    (process : Bool → IStream → List Char → Turn (List Char)) (pieces : List (List Char))
    (v : JsonValue) : Prop :=
  (receive process [] pieces).rejected = false ∧
    readElement extract (receive process [] pieces).callbackData = .ok v

/-- A JSON body reaches the filter unaltered exactly if no string in it contains white space. -/
theorem json_bodies_unaltered_iff (extract : List Char → Option Double)
    (process : Bool → IStream → List Char → Turn (List Char)) (hprocess : process ∈ jsonProcesses)
    (pieces : List (List Char)) (hpieces : ∀ piece ∈ pieces, piece ≠ []) (v : JsonValue)
    (hbody : readElement extract pieces.flatten = .ok v) :
    Unaltered extract process pieces v ↔ literalSpace false pieces.flatten = false := by
  have heq : process = filterProcess := by
    simp only [jsonProcesses, List.mem_cons, List.not_mem_nil, or_false] at hprocess
    rcases hprocess with rfl | rfl | rfl | rfl <;> rfl
  obtain ⟨hdata, hrejected⟩ := receive_filterProcess hpieces
  rw [Unaltered, heq, hdata, hrejected, readElement_strip_iff hbody]
  exact and_iff_right rfl

/-- What a body with the array of one PID reads as. -/
theorem readElement_pids {extract : List Char → Option Double} {input pid : List Char}
    (hscan : scan input = some [.objectBegin, .string "pids".toList, .memberAssign, .arrayBegin,
      .string pid, .arrayEnd, .objectEnd]) :
    readElement extract input = .ok (.object [("pids".toList, .array [.string pid])]) :=
  readElement_eq_ok.2 ⟨_, hscan, .object (.members (.one (.array (.elements (.one .string))))
    (List.nodup_singleton _))⟩

/-- White space between tokens, and a body in two pieces. -/
theorem json_bodies_unaltered_iff_pids :
    Unaltered (fun _ => none) getNetMapFilteredProcess
      ["\x7b \"pids\": [\"a".toList, "b\" ]\x7d".toList]
      (.object [("pids".toList, .array [.string "ab".toList])]) :=
  (json_bodies_unaltered_iff _ _ (.head _) _ (by decide) _
    (readElement_pids (by decide +kernel))).2 (by decide)

/-- The PID "a b" becomes the PID "ab". -/
theorem json_body_altered :
    ¬ ∀ (extract : List Char → Option Double)
      (process : Bool → IStream → List Char → Turn (List Char)) (pieces : List (List Char))
      (v : JsonValue), process ∈ jsonProcesses → (∀ piece ∈ pieces, piece ≠ []) →
      readElement extract pieces.flatten = .ok v → Unaltered extract process pieces v := by
  intro hall
  have hbody : readElement (fun _ => none) ["\x7b\"pids\": [\"a b\"]\x7d".toList].flatten =
      .ok (.object [("pids".toList, .array [.string "a b".toList])]) :=
    readElement_pids (by decide +kernel)
  have hpieces : ∀ piece ∈ ["\x7b\"pids\": [\"a b\"]\x7d".toList], piece ≠ [] := by decide
  have hread := (hall _ getNetMapFilteredProcess _ _ (.head _) hpieces hbody).2
  have hdata := (receive_filterProcess hpieces).1
  rw [show getNetMapFilteredProcess = filterProcess from rfl, hdata,
    readElement_strip_iff hbody] at hread
  exact absurd hread (by decide)

end Alto.Portal
