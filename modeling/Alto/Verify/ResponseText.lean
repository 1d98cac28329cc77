import Alto.Common.PortalClient
import Alto.Verify.CleanReaders

/-!
# The tokens of a response

The lines of a response are tokens with tabs between them. A reader that is given the text of lines,
in chunks from a portal or in buffers from a file, sees the tokens of the lines one after the other,
and a text that consists of records is read without an error.
-/

namespace Alto.Response

open Lib

/-! ## Lines -/

/-- The text of a line. -/
def lineText : List (List Char) → List Char
  | [] => ['\r', '\n']
  | word :: words => word ++ (words.flatMap (['\t'] ++ ·) ++ ['\r', '\n'])

section Tokens

variable {word rest : List Char} {words : List (List Char)} {c : Char}

theorem tokens_space (hc : isSpace c = true) (rest : List Char) :
    tokens isSpace (c :: rest) = tokens isSpace rest := by
  have h : tokens isSpace ((c :: rest).dropWhile isSpace) = tokens isSpace (c :: rest) :=
    tokens_dropWhile _
  rw [List.dropWhile_cons_of_pos hc] at h
  rw [← h, tokens_dropWhile]

theorem tokens_token (hword : IsToken word) (hrest : EndsToken rest) :
    tokens isSpace (word ++ rest) = word :: tokens isSpace rest := by
  have hp : ∀ c ∈ word, (!isSpace c) = true := fun c hc => by rw [hword.noSpace c hc]; rfl
  have hm : ∀ c ∈ rest.head?, (!isSpace c) = false := fun c hc => by rw [hrest c hc]; rfl
  have hdrop : (word ++ rest).dropWhile isSpace = word ++ rest := by
    refine (dropWhile_space (nofun : ∀ c ∈ ([] : List Char), isSpace c = true) fun c hc => ?_)
    cases hw : word with
    | nil => exact absurd hw hword.ne_nil
    | cons c' word' =>
      rw [hw] at hc
      cases hc
      exact hword.noSpace c (by simp [hw])
  refine tokens_of_readToken (readToken_eq_some.2 ?_)
  rw [hdrop]
  refine ⟨(takeWhile_append_stop hp hm).symm, (dropWhile_append_stop hp hm).symm, ?_, ?_⟩
  · simp [hword.ne_nil]
  · exact nofun

theorem tokens_words (hwords : ∀ word ∈ words, IsToken word) (rest : List Char) :
    tokens isSpace (words.flatMap (['\t'] ++ ·) ++ (['\r', '\n'] ++ rest)) =
      words ++ tokens isSpace rest := by
  induction words with
  | nil => exact (tokens_space rfl _).trans (tokens_space rfl _)
  | cons word words ih =>
    have hnext : EndsToken (words.flatMap (['\t'] ++ ·) ++ (['\r', '\n'] ++ rest)) := by
      intro c hc
      cases words <;> cases hc <;> rfl
    rw [List.flatMap_cons, List.append_assoc, List.append_assoc]
    refine (tokens_space (c := '\t') rfl
      (word ++ (words.flatMap (['\t'] ++ ·) ++ (['\r', '\n'] ++ rest)))).trans ?_
    rw [tokens_token (hwords word List.mem_cons_self) hnext,
      ih fun w hw => hwords w (List.mem_cons_of_mem _ hw), List.cons_append]

theorem tokens_lineText (hwords : ∀ word ∈ words, IsToken word) (rest : List Char) :
    tokens isSpace (lineText words ++ rest) = words ++ tokens isSpace rest := by
  cases words with
  | nil => exact (tokens_space rfl _).trans (tokens_space rfl _)
  | cons word words =>
    have hnext : EndsToken (words.flatMap (['\t'] ++ ·) ++ (['\r', '\n'] ++ rest)) := by
      intro c hc
      cases words <;> cases hc <;> rfl
    rw [lineText, List.append_assoc, List.append_assoc,
      tokens_token (hwords word List.mem_cons_self) hnext,
      tokens_words fun w hw => hwords w (List.mem_cons_of_mem _ hw), List.cons_append]

/-- The tokens of lines are their words. -/
theorem tokens_lines {lines : List (List (List Char))}
    (hlines : ∀ words ∈ lines, ∀ word ∈ words, IsToken word) :
    tokens isSpace (lines.flatMap lineText) = lines.flatten := by
  induction lines with
  | nil => rfl
  | cons words lines ih =>
    rw [List.flatMap_cons, tokens_lineText (hlines words List.mem_cons_self),
      ih fun ws hws => hlines ws (List.mem_cons_of_mem _ hws), List.flatten_cons]

end Tokens

/-! ## Tokens of numbers and PIDs -/

section Complete

variable {env : Environment}

theorem numeral_toDigits (n : Nat) : numeral (Nat.toDigits 10 n) = some (n : Int) := by
  obtain ⟨d, ds, hd, hdigit⟩ := IStream.exists_toDigits_eq_cons n
  have hhead : ∀ c, c.isDigit = false → (Nat.toDigits 10 n).head? ≠ some c := by
    intro c hc h
    rw [hd] at h
    cases h
    rw [hdigit] at hc
    cases hc
  have hunsign : IStream.unsign (Nat.toDigits 10 n) = Nat.toDigits 10 n :=
    if_neg fun h => h.elim (hhead '-' rfl) (hhead '+' rfl)
  have hall : (Nat.toDigits 10 n).all Char.isDigit = true :=
    List.all_eq_true.2 fun c hc => IStream.isDigit_of_mem c hc
  rw [numeral]
  simp only [hunsign, ne_eq, Nat.toDigits_ne_nil, not_false_eq_true, hall, and_self, if_true,
    if_neg (hhead '-' rfl), Nat.ofDigitChars_ten_toDigits]

theorem complete_unsigned {n : Nat} (hn : n < 2 ^ 32) :
    (kinds env).Complete .unsigned (Nat.toDigits 10 n) n := by
  refine ⟨?_, numeral_toDigits n⟩
  show Cast.ofStream (castUnsigned (Nat.toDigits 10 n)) = _
  rw [castUnsigned_toDigits hn]
  rfl

theorem complete_pid {p : PID} (hp : p.Printable) : (kinds env).Complete .pid p.toText p := by
  refine ⟨?_, ?_⟩
  · show Cast.ofStream (castPID p.toText) = _
    rw [castPID_toText hp]
    rfl
  · show numeral (p.toText.takeWhile (· != '.')) = _
    have hdigits : ∀ c ∈ Nat.toDigits 10 p.num, (c != '.') = true := by
      intro c hc
      have hdigit := IStream.isDigit_of_mem c hc
      rw [bne_iff_ne]
      rintro rfl
      exact absurd hdigit (by decide)
    rw [PID.toText_eq, takeWhile_append_stop hdigits (fun c hc => by cases hc; rfl),
      numeral_toDigits]

theorem complete_flag (reverse : Bool) : (kinds env).Complete .flag
    (if reverse then "inc-reverse".toList else "no-reverse".toList) reverse := by
  cases reverse with
  | true => exact ⟨rfl, trivial⟩
  | false => exact ⟨rfl, trivial⟩

end Complete

/-! ## Reading records -/

/-- A text that consists of records is read. -/
theorem Format.Reads.read_of_records {env : Environment} {F : Format env} (hF : F.Reads)
    {chunks : List (List Char)} {s : F.S}
    (h : F.grammar.Records (tokens isSpace chunks.flatten) F.init s) :
    ResponseReader.read F.consume { state := F.init } chunks = some (s, false) := by
  rw [← hF.sep] at h
  obtain ⟨rest, hok⟩ := RecordGrammar.consume_of_records h
  refine (hF.read chunks).trans ?_
  rw [hok]
  rfl

end Alto.Response

/-! ## Sources with a text -/

namespace Alto

open Response

/-- The source delivers the chunks of a text: a portal that answers 200, or a file. -/
def DataSource.Delivers (source : DataSource) (chunks : List (List Char)) : Prop :=
  source = .server { chunks } ∨ source = .file true chunks false

section Fetch

variable {S : Type} {consume : Bool → List Char → S → Lib.Consumed Char S}

theorem Response.ResponseReader.read_eq_processAll (r : ResponseReader S)
    (chunks : List (List Char)) :
    r.read consume chunks = (r.processAll consume chunks).bind (·.finish consume) := by
  induction chunks generalizing r with
  | nil => rfl
  | cons chunk chunks ih =>
    rw [read, processAll, List.foldlM_cons]
    cases r.process consume chunk with
    | none => rfl
    | some r' => exact ih r'

/-- What is read without an error is fetched. -/
theorem DataSource.fetch_of_read {source : DataSource} {chunks : List (List Char)}
    (hsource : source.Delivers chunks) {state s : S}
    (h : ResponseReader.read consume { state } chunks = some (s, false)) :
    source.fetch consume state = some (.ok s) := by
  rw [ResponseReader.read_eq_processAll] at h
  obtain ⟨r, hr, hfinish⟩ := Option.bind_eq_some_iff.1 h
  rcases hsource with rfl | rfl
  · simp [fetch, ResponseReader.makeRequest, hr, ResponseReader.conclude, hfinish]
  · simp [fetch, ResponseReader.readStream, hr, hfinish]

end Fetch

end Alto
