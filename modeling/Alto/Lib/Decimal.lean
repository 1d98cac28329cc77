import Mathlib
import Alto.Lib.Rounding

/-!
# Decimal numerals

A number is printed with `p` significant digits: in scientific notation if its exponent is below -4 or
not below `p`, and without the zeros at the end of its fraction. What is printed is read as the number
rounded to `p` digits.
-/

namespace Alto.Lib

/-! ## Printing -/

/-- A fraction, without the zeros at its end. -/
def pointText (int frac : List Char) : List Char :=
  if frac.rdropWhile (· == '0') = [] then int else int ++ '.' :: frac.rdropWhile (· == '0')

/-- An exponent, of two digits at least. -/
def exponentText (x : ℤ) : List Char :=
  'e' :: (if x < 0 then '-' else '+') ::
    ((if x.natAbs < 10 then ['0'] else []) ++ Nat.toDigits 10 x.natAbs)

/-- The numeral of these `p` digits; the first one stands at the power `x` of ten. -/
def scientificText (p : ℕ) (digits : List Char) (x : ℤ) : List Char :=
  if x < -4 ∨ p ≤ x then pointText (digits.take 1) (digits.drop 1) ++ exponentText x
  else if x < 0 then pointText ['0'] (List.replicate (-x - 1).toNat '0' ++ digits)
  else pointText (digits.take (x + 1).toNat) (digits.drop (x + 1).toNat)

/-- The `p` digits of a positive number, and the power of ten of the first one. Rounding may have made
one more digit. -/
def significantDigits (p : ℕ) (q : ℚ) : List Char × ℤ :=
  let m := (nearestEven (q / 10 ^ lastPlace 10 p q)).toNat
  if m = 10 ^ p then (Nat.toDigits 10 (10 ^ (p - 1)), lastPlace 10 p q + p)
  else (Nat.toDigits 10 m, lastPlace 10 p q + p - 1)

/-- The numeral of a number, with `p` significant digits. -/
def decimalText (p : ℕ) (q : ℚ) : List Char :=
  if q = 0 then ['0']
  else
    (if q < 0 then ['-'] else []) ++
      scientificText p (significantDigits p |q|).1 (significantDigits p |q|).2

/-! ## Reading -/

/-- The number of a sequence of digits. -/
def readDigits (text : List Char) : Option ℕ :=
  if text ≠ [] ∧ text.all Char.isDigit then some (Nat.ofDigitChars 10 text 0) else none

/-- The exponent at the end of a numeral, if there is one. -/
def readExponent : List Char → Option ℤ
  | [] => some 0
  | e :: text =>
    if e ≠ 'e' ∧ e ≠ 'E' then none
    else if text.head? = some '-' then (readDigits text.tail).map fun n : ℕ => -(n : ℤ)
    else if text.head? = some '+' then (readDigits text.tail).map fun n : ℕ => (n : ℤ)
    else (readDigits text).map fun n : ℕ => (n : ℤ)

/-- The number of a numeral without a sign. -/
def readPositive (text : List Char) : Option ℚ :=
  let int := text.takeWhile Char.isDigit
  let rest := text.dropWhile Char.isDigit
  let frac := if rest.head? = some '.' then rest.tail.takeWhile Char.isDigit else []
  let rest := if rest.head? = some '.' then rest.tail.dropWhile Char.isDigit else rest
  if int ++ frac = [] then none
  else (readExponent rest).map fun e : ℤ =>
    Nat.ofDigitChars 10 (int ++ frac) 0 * (10 : ℚ) ^ (e - frac.length)

/-- The number of a numeral. -/
def readDecimal (text : List Char) : Option ℚ :=
  if text.head? = some '-' then (readPositive text.tail).map fun q => -q else readPositive text

/-! ## Characters -/

section Characters

variable {α : Type} {p : α → Bool} {text more : List α}

theorem takeWhile_append_stop (htext : ∀ c ∈ text, p c = true)
    (hmore : ∀ c ∈ more.head?, p c = false) : (text ++ more).takeWhile p = text := by
  rw [List.takeWhile_append_of_pos htext]
  cases more with
  | nil => simp
  | cons c more => rw [List.takeWhile_cons_of_neg, List.append_nil]; simp [hmore c rfl]

theorem dropWhile_append_stop (htext : ∀ c ∈ text, p c = true)
    (hmore : ∀ c ∈ more.head?, p c = false) : (text ++ more).dropWhile p = more := by
  rw [List.dropWhile_append_of_pos htext]
  cases more with
  | nil => rfl
  | cons c more => rw [List.dropWhile_cons_of_neg]; simp [hmore c rfl]

end Characters

section Texts

variable {p : ℕ} {q : ℚ} {int frac digits rest : List Char}

theorem isDigit_toDigits {n : ℕ} : ∀ c ∈ Nat.toDigits 10 n, c.isDigit = true :=
  fun _ hc => Nat.isDigit_of_mem_toDigits (by decide) (by decide) hc

theorem isDigit_zeros {n : ℕ} : ∀ c ∈ List.replicate n '0', c.isDigit = true := by
  intro c hc
  rw [List.eq_of_mem_replicate hc]
  rfl

theorem forall_rdropWhile {P : Char → Prop} (h : ∀ c ∈ frac, P c) :
    ∀ c ∈ frac.rdropWhile (· == '0'), P c :=
  fun c hc => h c ((List.rdropWhile_prefix _ frac).subset hc)

/-- The zeros at the end of a fraction do not count. -/
theorem ofDigitChars_rdropWhile (int frac : List Char) (x : ℤ) :
    (Nat.ofDigitChars 10 (int ++ frac.rdropWhile (· == '0')) 0 : ℚ) *
        (10 : ℚ) ^ (x - (frac.rdropWhile (· == '0')).length) =
      Nat.ofDigitChars 10 (int ++ frac) 0 * (10 : ℚ) ^ (x - frac.length) := by
  have hsplit : frac = frac.rdropWhile (· == '0') ++ frac.rtakeWhile (· == '0') :=
    List.rdropWhile_append_rtakeWhile.symm
  have hzeros : frac.rtakeWhile (· == '0') =
      List.replicate (frac.rtakeWhile (· == '0')).length '0' :=
    List.eq_replicate_of_mem fun c hc => by simpa using List.mem_rtakeWhile_imp hc
  generalize frac.rdropWhile (· == '0') = kept at hsplit ⊢
  generalize (frac.rtakeWhile (· == '0')).length = n at hzeros
  rw [hsplit, hzeros, ← List.append_assoc,
    Nat.ofDigitChars_append (l := int ++ kept) (m := List.replicate n '0'),
    Nat.ofDigitChars_replicate_zero, List.length_append, List.length_replicate]
  have hexp : x - kept.length = (x - ((kept.length + n : ℕ) : ℤ)) + n := by
    push_cast
    ring
  rw [hexp, zpow_add₀ (by norm_num : (10 : ℚ) ≠ 0), zpow_natCast]
  push_cast
  ring

/-- A numeral with a point is read. -/
theorem readPositive_pointText (hne : int ≠ []) (hint : ∀ c ∈ int, c.isDigit = true)
    (hfrac : ∀ c ∈ frac, c.isDigit = true)
    (hrest : ∀ c ∈ rest.head?, c.isDigit = false ∧ c ≠ '.') :
    readPositive (pointText int frac ++ rest) = (readExponent rest).map fun e : ℤ =>
      Nat.ofDigitChars 10 (int ++ frac) 0 * (10 : ℚ) ^ (e - frac.length) := by
  have hstop : ∀ c ∈ rest.head?, Char.isDigit c = false := fun c hc => (hrest c hc).1
  have hdot : rest.head? ≠ some '.' := fun h => (hrest '.' h).2 rfl
  have hkept := forall_rdropWhile hfrac
  simp only [← ofDigitChars_rdropWhile int frac]
  unfold pointText
  generalize frac.rdropWhile (· == '0') = kept at hkept ⊢
  unfold readPositive
  by_cases hnil : kept = []
  · simp only [hnil, if_true, takeWhile_append_stop hint hstop, dropWhile_append_stop hint hstop,
      if_neg hdot, List.append_nil, if_neg hne]
  · have hpoint : ∀ c ∈ ('.' :: (kept ++ rest)).head?, Char.isDigit c = false := by
      rintro c ⟨⟩
      rfl
    have htext : int ++ '.' :: kept ++ rest = int ++ '.' :: (kept ++ rest) := by simp
    simp only [if_neg hnil, htext, takeWhile_append_stop hint hpoint,
      dropWhile_append_stop hint hpoint, List.head?_cons, if_true, List.tail_cons,
      takeWhile_append_stop hkept hstop, dropWhile_append_stop hkept hstop]
    rw [if_neg (by simp [hne])]

theorem readDigits_toDigits (n : ℕ) (zeros : List Char) (hzeros : zeros = [] ∨ zeros = ['0']) :
    readDigits (zeros ++ Nat.toDigits 10 n) = some n := by
  have hall : ∀ c ∈ zeros ++ Nat.toDigits 10 n, Char.isDigit c = true := by
    intro c hc
    rcases List.mem_append.1 hc with hc | hc
    · rcases hzeros with rfl | rfl
      · cases hc
      · rw [List.mem_singleton.1 hc]
        rfl
    · exact isDigit_toDigits c hc
  have hvalue : Nat.ofDigitChars 10 (zeros ++ Nat.toDigits 10 n) 0 = n := by
    rcases hzeros with rfl | rfl
    · exact Nat.ofDigitChars_ten_toDigits
    · rw [Nat.ofDigitChars_append]
      exact Nat.ofDigitChars_ten_toDigits
  rw [readDigits, if_pos ⟨by simp [Nat.toDigits_ne_nil], List.all_eq_true.2 hall⟩, hvalue]

theorem readExponent_exponentText (x : ℤ) : readExponent (exponentText x) = some x := by
  have hzeros : (if x.natAbs < 10 then ['0'] else []) = [] ∨
      (if x.natAbs < 10 then ['0'] else []) = ['0'] := by
    split <;> simp
  have hdigits := readDigits_toDigits x.natAbs _ hzeros
  rw [exponentText, readExponent, if_neg (by simp)]
  by_cases hx : x < 0
  · rw [if_pos hx, List.head?_cons, if_pos rfl, List.tail_cons, hdigits, Option.map_some]
    congr 1
    omega
  · rw [if_neg hx, List.head?_cons, if_neg (by decide), if_pos rfl, List.tail_cons, hdigits,
      Option.map_some]
    congr 1
    omega

section Digits

variable (hdigits : ∀ c ∈ digits, c.isDigit = true) (n : ℕ)
include hdigits

theorem isDigit_take : ∀ c ∈ digits.take n, c.isDigit = true :=
  fun c hc => hdigits c (List.mem_of_mem_take hc)

theorem isDigit_drop : ∀ c ∈ digits.drop n, c.isDigit = true :=
  fun c hc => hdigits c (List.mem_of_mem_drop hc)

theorem isDigit_zeros_append : ∀ c ∈ List.replicate n '0' ++ digits, c.isDigit = true := by
  intro c hc
  rcases List.mem_append.1 hc with hc | hc
  · exact isDigit_zeros c hc
  · exact hdigits c hc

end Digits

theorem take_succ_ne_nil (h : 1 ≤ digits.length) (n : ℕ) : digits.take (n + 1) ≠ [] := by
  intro hnil
  have hlen := congrArg List.length hnil
  rw [List.length_take, List.length_nil] at hlen
  omega

/-- The numeral of some digits is read as their number. -/
theorem readPositive_scientificText (hdigits : ∀ c ∈ digits, c.isDigit = true) (hp : 1 ≤ p)
    (hlen : digits.length = p) (x : ℤ) : readPositive (scientificText p digits x) =
      some (Nat.ofDigitChars 10 digits 0 * (10 : ℚ) ^ (x + 1 - p)) := by
  have htake := isDigit_take hdigits
  have hdrop := isDigit_drop hdigits
  have hne := take_succ_ne_nil (show 1 ≤ digits.length by omega)
  have hend : ∀ c ∈ ([] : List Char).head?, Char.isDigit c = false ∧ c ≠ '.' := by simp
  unfold scientificText
  split
  · have hrest : ∀ c ∈ (exponentText x).head?, Char.isDigit c = false ∧ c ≠ '.' := by
      rintro c ⟨⟩
      exact ⟨rfl, by decide⟩
    rw [readPositive_pointText (hne 0) (htake 1) (hdrop 1) hrest, readExponent_exponentText,
      Option.map_some, List.take_append_drop, List.length_drop, hlen]
    congr 3
    push_cast [hp]
    ring
  split
  · next hbig hx =>
    have hpad := isDigit_zeros_append hdigits (-x - 1).toNat
    have hzero : ∀ c ∈ ['0'], Char.isDigit c = true := isDigit_zeros (n := 1)
    have hread := readPositive_pointText (by simp) hzero hpad hend
    rw [List.append_nil] at hread
    rw [hread, readExponent, Option.map_some, List.singleton_append, ← List.cons_append,
      ← List.replicate_succ, Nat.ofDigitChars_append, Nat.ofDigitChars_replicate_zero, mul_zero,
      List.length_append, List.length_replicate, hlen]
    congr 3
    omega
  · next hbig hx =>
    obtain ⟨n, hn⟩ : ∃ n : ℕ, (x + 1).toNat = n + 1 := ⟨x.toNat, by omega⟩
    have hread := readPositive_pointText (hne n) (htake (n + 1)) (hdrop (n + 1)) hend
    rw [List.append_nil] at hread
    rw [hn, hread, readExponent, Option.map_some, List.take_append_drop, List.length_drop, hlen]
    congr 3
    omega

theorem length_toDigits {n : ℕ} (hp : 1 ≤ p) (hlow : 10 ^ (p - 1) ≤ n) (hhigh : n < 10 ^ p) :
    (Nat.toDigits 10 n).length = p := by
  refine le_antisymm ((Nat.length_toDigits_le_iff (by norm_num) hp).2 hhigh) ?_
  by_contra hshort
  have hpos : 0 < (Nat.toDigits 10 n).length := Nat.length_toDigits_pos
  have hlt := (Nat.length_toDigits_le_iff (by norm_num : 1 < 10) (show 0 < p - 1 by omega)).1
    (show (Nat.toDigits 10 n).length ≤ p - 1 by omega)
  omega

/-- The digits of a positive number. -/
theorem significantDigits_spec (hp : 1 ≤ p) (hq : 0 < q) :
    (∀ c ∈ (significantDigits p q).1, c.isDigit = true) ∧ (significantDigits p q).1.length = p ∧
      Nat.ofDigitChars 10 (significantDigits p q).1 0 *
        (10 : ℚ) ^ ((significantDigits p q).2 + 1 - p) = roundTo 10 p q := by
  obtain ⟨hlow, hhigh⟩ := nearestEven_bounds (show 1 < 10 by norm_num) hp hq
  push_cast at hlow hhigh
  obtain ⟨m, hm⟩ := Int.eq_ofNat_of_zero_le (le_trans (by positivity) hlow)
  have hround : roundTo 10 p q = m * (10 : ℚ) ^ lastPlace 10 p q := by
    rw [roundTo]
    push_cast
    rw [hm]
    push_cast
    rfl
  rw [hm] at hlow hhigh
  have hlow : 10 ^ (p - 1) ≤ m := by exact_mod_cast hlow
  have hhigh : m ≤ 10 ^ p := by exact_mod_cast hhigh
  have hstep : (10 : ℕ) ^ p = 10 * 10 ^ (p - 1) := by
    rw [← pow_succ']
    congr 1
    omega
  unfold significantDigits
  rw [hm, Int.toNat_natCast]
  dsimp only
  by_cases hcarry : m = 10 ^ p
  · rw [if_pos hcarry]
    have hlt : 10 ^ (p - 1) < 10 ^ p := Nat.pow_lt_pow_right (by norm_num) (by omega)
    refine ⟨isDigit_toDigits, length_toDigits hp le_rfl hlt, ?_⟩
    rw [hround, hcarry, hstep, Nat.ofDigitChars_ten_toDigits]
    have hexp : lastPlace 10 p q + (p : ℤ) + 1 - p = lastPlace 10 p q + 1 := by ring
    rw [hexp, zpow_add₀ (by norm_num : (10 : ℚ) ≠ 0)]
    push_cast
    ring
  · rw [if_neg hcarry]
    refine ⟨isDigit_toDigits, length_toDigits hp hlow (lt_of_le_of_ne hhigh hcarry), ?_⟩
    rw [hround, Nat.ofDigitChars_ten_toDigits]
    congr 2
    ring

theorem head_pointText (hne : int ≠ []) (hint : ∀ c ∈ int, c.isDigit = true) (rest : List Char) :
    ∃ c text, pointText int frac ++ rest = c :: text ∧ c.isDigit = true := by
  cases int with
  | nil => exact absurd rfl hne
  | cons c int =>
    unfold pointText
    split <;> exact ⟨c, _, rfl, hint c (by simp)⟩

theorem head_scientificText (hdigits : ∀ c ∈ digits, c.isDigit = true) (hp : 1 ≤ p)
    (hlen : digits.length = p) (x : ℤ) :
    ∃ c text, scientificText p digits x = c :: text ∧ c.isDigit = true := by
  have hne := take_succ_ne_nil (show 1 ≤ digits.length by omega)
  unfold scientificText
  split
  · exact head_pointText (hne 0) (isDigit_take hdigits 1) _
  split
  · have hzero : ∀ c ∈ ['0'], Char.isDigit c = true := isDigit_zeros (n := 1)
    simpa only [List.append_nil] using head_pointText (by simp) hzero []
  · next hx =>
    obtain ⟨n, hn⟩ : ∃ n : ℕ, (x + 1).toNat = n + 1 := ⟨x.toNat, by omega⟩
    rw [hn]
    simpa only [List.append_nil] using head_pointText (hne n)
      (isDigit_take hdigits (n + 1)) []

/-- What is printed is read as the number rounded to `p` digits. -/
theorem readDecimal_decimalText (hp : 1 ≤ p) (q : ℚ) :
    readDecimal (decimalText p q) = some (roundTo 10 p q) := by
  by_cases hzero : q = 0
  · have hdigit : Char.isDigit '0' = true := rfl
    have hnumber : Nat.ofDigitChars 10 ['0'] 0 = 0 := rfl
    simp [hzero, decimalText, readDecimal, readPositive, readExponent, hdigit, hnumber]
  obtain ⟨hdigits, hlen, hvalue⟩ := significantDigits_spec hp (abs_pos.2 hzero)
  have hread := readPositive_scientificText hdigits hp hlen (significantDigits p |q|).2
  rw [hvalue] at hread
  rw [decimalText, if_neg hzero]
  by_cases hneg : q < 0
  · rw [if_pos hneg, readDecimal, List.singleton_append, List.head?_cons, if_pos rfl,
      List.tail_cons, hread, Option.map_some, abs_of_neg hneg, roundTo_neg, neg_neg]
  · obtain ⟨c, text, htext, hc⟩ := head_scientificText hdigits hp hlen (significantDigits p |q|).2
    have hminus : c ≠ '-' := by
      rintro rfl
      exact absurd hc (by decide)
    rw [if_neg hneg, List.nil_append, readDecimal, htext, List.head?_cons,
      if_neg fun h => hminus (Option.some.inj h), ← htext, hread,
      abs_of_nonneg (not_lt.1 hneg)]

theorem chars_pointText (hint : ∀ c ∈ int, c.isDigit = true)
    (hfrac : ∀ c ∈ frac, c.isDigit = true) :
    ∀ c ∈ pointText int frac, c.isDigit = true ∨ c ∈ ['.', 'e', '+', '-'] := by
  intro c hc
  unfold pointText at hc
  split at hc
  · exact .inl (hint c hc)
  rcases List.mem_append.1 hc with hc | hc
  · exact .inl (hint c hc)
  rcases List.mem_cons.1 hc with rfl | hc
  · simp
  · exact .inl (forall_rdropWhile hfrac c hc)

theorem chars_exponentText (x : ℤ) :
    ∀ c ∈ exponentText x, c.isDigit = true ∨ c ∈ ['.', 'e', '+', '-'] := by
  intro c hc
  unfold exponentText at hc
  rcases List.mem_cons.1 hc with rfl | hc
  · simp
  rcases List.mem_cons.1 hc with rfl | hc
  · split <;> simp
  rcases List.mem_append.1 hc with hc | hc
  · split at hc
    · rw [List.mem_singleton.1 hc]
      exact .inl rfl
    · cases hc
  · exact .inl (isDigit_toDigits c hc)

/-- The characters of a numeral. -/
theorem chars_scientificText (hdigits : ∀ c ∈ digits, c.isDigit = true) (x : ℤ) :
    ∀ c ∈ scientificText p digits x, c.isDigit = true ∨ c ∈ ['.', 'e', '+', '-'] := by
  have htake := isDigit_take hdigits
  have hdrop := isDigit_drop hdigits
  intro c hc
  unfold scientificText at hc
  split at hc
  · rcases List.mem_append.1 hc with hc | hc
    · exact chars_pointText (htake 1) (hdrop 1) c hc
    · exact chars_exponentText x c hc
  split at hc
  · exact chars_pointText (isDigit_zeros (n := 1)) (isDigit_zeros_append hdigits _) c hc
  · exact chars_pointText (htake _) (hdrop _) c hc

/-- A numeral starts with a digit or a minus sign. -/
theorem decimalText_cons (hp : 1 ≤ p) (q : ℚ) :
    ∃ c text, decimalText p q = c :: text ∧ (c.isDigit = true ∨ c = '-') ∧
      ∀ c ∈ text, c.isDigit = true ∨ c ∈ ['.', 'e', '+', '-'] := by
  by_cases hzero : q = 0
  · exact ⟨'0', [], by rw [decimalText, if_pos hzero], .inl rfl, by simp⟩
  obtain ⟨hdigits, hlen, -⟩ := significantDigits_spec hp (abs_pos.2 hzero)
  have hchars := chars_scientificText (p := p) hdigits (significantDigits p |q|).2
  rw [decimalText, if_neg hzero]
  by_cases hneg : q < 0
  · exact ⟨'-', _, by rw [if_pos hneg]; rfl, .inr rfl, hchars⟩
  · obtain ⟨c, text, htext, hc⟩ := head_scientificText hdigits hp hlen (significantDigits p |q|).2
    refine ⟨c, text, by rw [if_neg hneg, List.nil_append, htext], .inl hc, fun d hd => ?_⟩
    exact hchars d (htext ▸ List.mem_cons_of_mem c hd)

end Texts

end Alto.Lib
