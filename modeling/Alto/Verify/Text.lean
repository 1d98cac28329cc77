import Mathlib
import Alto.Common.IStream
import Alto.Lib.Decimal

/-!
# Texts that are printed and read again

What `operator<<` prints of a number, a `PID` or an `IPPrefix` is read by `operator>>` as the same
value, whatever white space is in front and whatever is behind the text. For prefixes this needs
the C library's texts of addresses to be readable.
-/

namespace Alto

open Lib

/-! ## White space and tokens -/

/-- A text without white space that is not empty: `operator>>` reads it as one string. -/
structure IsToken (text : List Char) : Prop where
  ne_nil : text ≠ []
  noSpace : ∀ c ∈ text, isSpace c = false

instance (text : List Char) : Decidable (IsToken text) :=
  decidable_of_iff (text ≠ [] ∧ (text.all fun c => !isSpace c) = true)
    ⟨fun h => ⟨h.1, by simpa using h.2⟩, fun h => ⟨h.1, by simpa using h.noSpace⟩⟩

/-- A text that a token can stand in front of: nothing, or something that starts with white
space. -/
def EndsToken (more : List Char) : Prop :=
  ∀ c ∈ more.head?, isSpace c = true

theorem endsToken_nil : EndsToken [] :=
  fun _ h => nomatch h

theorem endsToken_cons {c : Char} (hc : isSpace c = true) (more : List Char) :
    EndsToken (c :: more) := by
  intro c' hc'
  cases hc'
  exact hc

theorem IsToken.append {s t : List Char} (hs : IsToken s) (ht : ∀ c ∈ t, isSpace c = false) :
    IsToken (s ++ t) where
  ne_nil := by simp [hs.ne_nil]
  noSpace c hc := by
    rcases List.mem_append.1 hc with hc | hc
    · exact hs.noSpace c hc
    · exact ht c hc

/-- The characters of the numbers and of the other texts are no white space. -/
theorem isSpace_of_isDigit {c : Char} (h : c.isDigit = true) : isSpace c = false := by
  cases hs : isSpace c with
  | false => rfl
  | true =>
    simp only [isSpace, Bool.or_eq_true, beq_iff_eq] at hs
    rcases hs with ((((rfl | rfl) | rfl) | rfl) | rfl) | rfl <;> exact absurd h (by decide)

theorem dropWhile_space {ws text : List Char} (hws : ∀ c ∈ ws, isSpace c = true)
    (htext : ∀ c ∈ text.head?, isSpace c = false) : (ws ++ text).dropWhile isSpace = text := by
  rw [List.dropWhile_append_of_pos hws]
  cases text with
  | nil => rfl
  | cons c text => rw [List.dropWhile_cons_of_neg]; simp [htext c rfl]

namespace IStream

variable {ws text more : List Char}

/-- The sentry skips the white space in front of a text. -/
theorem sentry_append (hws : ∀ c ∈ ws, isSpace c = true) (hne : text ≠ [])
    (htext : ∀ c ∈ text.head?, isSpace c = false) :
    sentry { rest := ws ++ text } = (true, { rest := text }) := by
  simp [sentry, good, dropWhile_space hws htext, hne]

/-- A string is read up to the white space behind it. -/
theorem getString_token (ht : IsToken text) (ws more : List Char)
    (hws : ∀ c ∈ ws, isSpace c = true) (hmore : EndsToken more) :
    getString { rest := ws ++ (text ++ more) } =
      (some text, { rest := more, eof := more.isEmpty }) := by
  have hhead : ∀ c ∈ (text ++ more).head?, isSpace c = false := by
    intro c hc
    cases text with
    | nil => exact absurd rfl ht.ne_nil
    | cons c' text => cases hc; exact ht.noSpace c (by simp)
  have hp : ∀ c ∈ text, (!isSpace c) = true := fun c hc => by rw [ht.noSpace c hc]; rfl
  have hm : ∀ c ∈ more.head?, (!isSpace c) = false := fun c hc => by rw [hmore c hc]; rfl
  rw [getString, sentry_append hws (by simp [ht.ne_nil]) hhead]
  simp only [takeWhile_append_stop hp hm, dropWhile_append_stop hp hm]

/-! ## Numbers -/

theorem isDigit_of_mem {n : Nat} : ∀ c ∈ Nat.toDigits 10 n, c.isDigit = true :=
  fun _ hc => Nat.isDigit_of_mem_toDigits (by decide) (by decide) hc

/-- The text of a number starts with a digit. -/
theorem exists_toDigits_eq_cons (n : Nat) :
    ∃ d ds, Nat.toDigits 10 n = d :: ds ∧ d.isDigit = true := by
  cases h : Nat.toDigits 10 n with
  | nil => exact absurd h Nat.toDigits_ne_nil
  | cons d ds => exact ⟨d, ds, rfl, isDigit_of_mem d (by rw [h]; simp)⟩

theorem isToken_toDigits (n : Nat) : IsToken (Nat.toDigits 10 n) where
  ne_nil := Nat.toDigits_ne_nil
  noSpace c hc := isSpace_of_isDigit (isDigit_of_mem c hc)

/-- A number is read up to the first character that is no digit. -/
theorem getUnsigned_toDigits_append (n : Nat) (ws more : List Char)
    (hws : ∀ c ∈ ws, isSpace c = true) (hmore : ∀ c ∈ more.head?, c.isDigit = false) :
    getUnsigned { rest := ws ++ (Nat.toDigits 10 n ++ more) } =
      if 2 ^ 32 ≤ n then (none, { rest := more, eof := more.isEmpty, fail := true })
      else (some n, { rest := more, eof := more.isEmpty }) := by
  obtain ⟨d, ds, hd, hdigit⟩ := exists_toDigits_eq_cons n
  have hhead : ∀ c ∈ (Nat.toDigits 10 n ++ more).head?, isSpace c = false := by
    intro c hc
    rw [hd] at hc
    cases hc
    exact isSpace_of_isDigit hdigit
  have hminus : d ≠ '-' := by rintro rfl; exact absurd hdigit (by decide)
  have hplus : d ≠ '+' := by rintro rfl; exact absurd hdigit (by decide)
  have hh : (Nat.toDigits 10 n ++ more).head? = some d := by rw [hd]; rfl
  rw [getUnsigned, sentry_append hws (by simp [Nat.toDigits_ne_nil]) hhead]
  simp [hh, hminus, hplus, takeWhile_append_stop isDigit_of_mem hmore,
    dropWhile_append_stop isDigit_of_mem hmore, Nat.toDigits_ne_nil, Nat.ofDigitChars_ten_toDigits]

theorem getUnsigned_toDigits {n : Nat} (hn : n < 2 ^ 32) (ws more : List Char)
    (hws : ∀ c ∈ ws, isSpace c = true) (hmore : ∀ c ∈ more.head?, c.isDigit = false) :
    getUnsigned { rest := ws ++ (Nat.toDigits 10 n ++ more) } =
      (some n, { rest := more, eof := more.isEmpty }) := by
  rw [getUnsigned_toDigits_append n ws more hws hmore, if_neg (Nat.not_le.2 hn)]

end IStream

/-- A decimal number is what `strtoul` reads. -/
theorem strtoul_toDigits {n : Nat} (hn : n < 2 ^ 64) :
    strtoul (Nat.toDigits 10 n) = (n, []) := by
  obtain ⟨d, ds, hd, hdigit⟩ := IStream.exists_toDigits_eq_cons n
  have hspace := isSpace_of_isDigit hdigit
  have hminus : d ≠ '-' := by rintro rfl; exact absurd hdigit (by decide)
  have hplus : d ≠ '+' := by rintro rfl; exact absurd hdigit (by decide)
  have hstart : (Nat.toDigits 10 n).dropWhile isSpace = Nat.toDigits 10 n := by
    rw [hd, List.dropWhile_cons_of_neg]
    simp [hspace]
  have htake : (Nat.toDigits 10 n).takeWhile Char.isDigit = Nat.toDigits 10 n := by
    rw [List.takeWhile_eq_self_iff]
    exact IStream.isDigit_of_mem
  have hdrop : (Nat.toDigits 10 n).dropWhile Char.isDigit = [] := by
    rw [List.dropWhile_eq_nil_iff]
    exact IStream.isDigit_of_mem
  have hh : (Nat.toDigits 10 n).head? = some d := by rw [hd]; rfl
  simp [strtoul, hstart, hh, hminus, hplus, htake, hdrop, Nat.toDigits_ne_nil,
    Nat.ofDigitChars_ten_toDigits]
  omega

/-! ## C strings -/

theorem cString_eq_self {bytes : List Char} : cString bytes = bytes ↔ '\x00' ∉ bytes := by
  induction bytes with
  | nil => simp [cString]
  | cons c bytes ih =>
    by_cases hc : c = '\x00'
    · simp [cString, hc]
    · have hcons : cString (c :: bytes) = c :: cString bytes := by simp [cString, hc]
      simp [hcons, ih, Ne.symm hc]

/-! ## PIDs -/

/-- A PID that survives its text: the number is an `unsigned int`, and the ISP is a token. -/
structure PID.Printable (p : PID) : Prop where
  num : p.num < 2 ^ 32
  isp : IsToken p.isp.toList

namespace PID

theorem toText_eq (p : PID) : p.toText =
    Nat.toDigits 10 p.num ++ '.' :: (if p.external then 'e' else 'i') :: '.' :: p.isp.toList := by
  rw [toText]
  cases p.external <;> simp

theorem Printable.isToken {p : PID} (hp : p.Printable) : IsToken p.toText := by
  rw [toText_eq]
  refine (IStream.isToken_toDigits p.num).append ?_
  intro c hc
  simp only [List.mem_cons] at hc
  rcases hc with rfl | rfl | rfl | hc
  · decide
  · cases p.external <;> decide
  · decide
  · exact hp.isp.noSpace c hc

/-- A PID is read as it has been printed. -/
theorem Printable.getPID {p : PID} (hp : p.Printable) (ws more : List Char)
    (hws : ∀ c ∈ ws, isSpace c = true) (hmore : EndsToken more) :
    IStream.getPID { rest := ws ++ (p.toText ++ more) } =
      (some p, { rest := more, eof := more.isEmpty }) := by
  have hread := IStream.getUnsigned_toDigits hp.num ws
    ('.' :: (if p.external then 'e' else 'i') :: '.' :: (p.isp.toList ++ more)) hws
    (fun c hc => by cases hc; decide)
  have hisp := IStream.getString_token hp.isp [] more (fun _ h => nomatch h) hmore
  rw [List.nil_append] at hisp
  rw [toText_eq, List.append_assoc, IStream.getPID]
  simp only [List.cons_append, hread]
  obtain ⟨isp, num, external⟩ := p
  cases external with
  | false => simp [IStream.get, IStream.good, IStream.getline, hisp]
  | true => simp [IStream.get, IStream.good, IStream.getline, hisp]

end PID

theorem castPID_toText {p : PID} (hp : p.Printable) : castPID p.toText = some p := by
  have h := hp.getPID [] [] (fun _ h => nomatch h) endsToken_nil
  rw [List.nil_append, List.append_nil] at h
  rw [castPID, h]

theorem castUnsigned_toDigits {n : Nat} (hn : n < 2 ^ 32) :
    castUnsigned (Nat.toDigits 10 n) = some n := by
  have h := IStream.getUnsigned_toDigits hn [] [] (fun _ h => nomatch h) (fun _ h => nomatch h)
  rw [List.nil_append, List.append_nil] at h
  rw [castUnsigned, h]

/-! ## Prefixes -/

/-- The numeric texts of the C library: `getaddrinfo` reads what `getnameinfo` prints, which
consists of hexadecimal digits, dots and colons. -/
structure AddressText.Numeric (net : AddressText) : Prop where
  inverse : ∀ family bits, bits.length = family.maxLength →
    net.getaddrinfo (net.getnameinfo family bits) = some (family, bits)
  ne_nil : ∀ family bits, bits.length = family.maxLength → net.getnameinfo family bits ≠ []
  chars : ∀ family bits, bits.length = family.maxLength →
    ∀ c ∈ net.getnameinfo family bits, c ∈ "0123456789abcdef.:".toList

namespace IPPrefix

variable {net : AddressText}

/-- The address of a prefix. -/
def address (p : IPPrefix) : List Bool :=
  p.bits ++ List.replicate (p.family.maxLength - p.length) false

theorem address_length (p : IPPrefix) : p.address.length = p.family.maxLength := by
  have := p.fits
  simp only [address, length, List.length_append, List.length_replicate]
  omega

theorem maxLength_le (f : Family) : f.maxLength ≤ 128 := by
  cases f <;> decide

/-- A prefix is made from its address and its length, or any greater one if it is an address. -/
theorem ofRaw_address (p : IPPrefix) {length : Nat}
    (h : min length p.family.maxLength = p.length) : ofRaw p.family p.address length = p := by
  refine ext' rfl ?_
  simp only [ofRaw, address, h, List.append_assoc]
  exact List.take_left

/-- The address of a printed prefix holds no white space, no slash and no NUL. -/
theorem addressText_chars (hnet : net.Numeric) (p : IPPrefix) :
    ∀ c ∈ net.getnameinfo p.family p.address, isSpace c = false ∧ c ≠ '/' ∧ c ≠ '\x00' := by
  have hall : ("0123456789abcdef.:".toList.all fun c => !isSpace c && c != '/' && c != '\x00') =
      true := by
    decide
  intro c hc
  have hc' := List.all_eq_true.1 hall c (hnet.chars _ _ p.address_length c hc)
  simpa [and_assoc] using hc'

theorem toText_eq (p : IPPrefix) : p.toText net = net.getnameinfo p.family p.address ++
    if p.length < p.family.maxLength then '/' :: Nat.toDigits 10 p.length else [] :=
  rfl

theorem isToken_toText (hnet : net.Numeric) (p : IPPrefix) : IsToken (p.toText net) := by
  have haddr : IsToken (net.getnameinfo p.family p.address) :=
    ⟨hnet.ne_nil _ _ p.address_length, fun c hc => (addressText_chars hnet p c hc).1⟩
  rw [toText_eq]
  refine haddr.append ?_
  intro c hc
  split at hc
  · rcases List.mem_cons.1 hc with rfl | hc
    · decide
    · exact isSpace_of_isDigit (IStream.isDigit_of_mem c hc)
  · cases hc

theorem splitSlash_append {addr digits : List Char} (hdigits : '/' ∉ digits) :
    splitSlash (addr ++ '/' :: digits) = some (addr, digits) := by
  have hback : (addr ++ '/' :: digits).reverse.takeWhile (· != '/') = digits.reverse := by
    rw [List.reverse_append, List.reverse_cons, List.append_assoc]
    apply takeWhile_append_stop
    · intro c hc
      simp only [bne_iff_ne, ne_eq]
      rintro rfl
      exact hdigits (List.mem_reverse.1 hc)
    · intro c hc
      cases hc
      rfl
  have hlen : (addr ++ '/' :: digits).length - digits.reverse.length - 1 = addr.length := by
    simp only [List.length_append, List.length_cons, List.length_reverse]
    omega
  rw [splitSlash, if_pos (by simp), hback]
  simp only [hlen, List.take_left, List.reverse_reverse]

/-- A prefix is read as it has been printed. -/
theorem ofText_toText (hnet : net.Numeric) (p : IPPrefix) :
    ofText net (p.toText net) = some p := by
  have hchars := addressText_chars hnet p
  have hcaddr : cString (net.getnameinfo p.family p.address) = net.getnameinfo p.family p.address :=
    cString_eq_self.2 fun hc => (hchars _ hc).2.2 rfl
  have hinverse := hnet.inverse _ _ p.address_length
  have hmax := maxLength_le p.family
  have hfits : p.length ≤ p.family.maxLength := p.fits
  rw [toText_eq]
  split
  · next hlt =>
    have hdigit : ∀ c ∈ Nat.toDigits 10 p.length, c ≠ '/' ∧ c ≠ '\x00' := by
      intro c hc
      have := IStream.isDigit_of_mem c hc
      constructor <;> rintro rfl <;> exact absurd this (by decide)
    rw [ofText, splitSlash_append fun hc => (hdigit _ hc).1 rfl]
    obtain ⟨d, ds, hd, -⟩ := IStream.exists_toDigits_eq_cons p.length
    have hraw : ofRaw p.family p.address (p.length % 2 ^ 16) = p := by
      apply ofRaw_address
      omega
    have hcdigits := cString_eq_self.2 fun hc => (hdigit _ hc).2 rfl
    have hvalue := strtoul_toDigits (show p.length < 2 ^ 64 by omega)
    rw [hd] at hcdigits hvalue ⊢
    simp only [hcdigits, hvalue, hcaddr, hinverse, List.isEmpty_nil, if_true, Option.map_some, hraw]
  · next hge =>
    have hnone : splitSlash (net.getnameinfo p.family p.address) = none :=
      if_neg fun hc => (hchars _ hc).2.1 rfl
    have hraw : ofRaw p.family p.address 65535 = p := by
      apply ofRaw_address
      omega
    rw [List.append_nil, ofText, hnone]
    simp only [hcaddr, hinverse, Option.map_some, hraw]

end IPPrefix

theorem castPrefix_toText {net : AddressText} (hnet : net.Numeric) (p : IPPrefix) :
    castPrefix net (p.toText net) = some p := by
  have h := IStream.getString_token (IPPrefix.isToken_toText hnet p) [] [] (fun _ h => nomatch h)
    endsToken_nil
  rw [List.nil_append, List.append_nil] at h
  rw [castPrefix, IStream.getPrefix, h]
  simp only [IPPrefix.ofText_toText hnet]

end Alto
