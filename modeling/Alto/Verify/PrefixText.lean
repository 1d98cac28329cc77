import Alto.Verify.IStream
import Alto.Verify.RawPrefix

/-!
# The text of an IP prefix

`operator<<` and the constructor from a text (`common/cpp/src/lib/ip_addr.cpp`), over the bytes of a
prefix. The bytes refine the prefixes that the other modules work with (`toPrefix`), and what is printed
is read as the same prefix. The length in a text goes through `strtoul` and an `unsigned short`.
-/

namespace Alto

/-! ## The abstract prefix -/

namespace IPPrefix

/-- The bits that a raw address is cut to. -/
theorem ofRaw_bits (family : Family) (address : List Bool) (length : Nat) :
    (ofRaw family address length).bits =
      (List.range (min length family.maxLength)).map fun k => address.getD k false := by
  apply List.ext_getElem
  · simp [ofRaw]
  · intro k hk hk'
    simp only [List.length_map, List.length_range] at hk'
    simp only [ofRaw, List.getElem_take, List.getElem_map, List.getElem_range,
      List.getD_eq_getElem?_getD]
    by_cases h : k < address.length
    · rw [List.getElem_append_left h, List.getElem?_eq_getElem h, Option.getD_some]
    · rw [List.getElem_append_right (Nat.not_lt.1 h), List.getElem_replicate,
        List.getElem?_eq_none (Nat.not_lt.1 h), Option.getD_none]

end IPPrefix

namespace RawPrefix

/-- The family of an address. -/
def knownFamily (family : Int) : Option Family :=
  if family = Family.inet.toInt then some .inet
  else if family = Family.inet6.toInt then some .inet6
  else none

/-- The prefix that the bytes stand for: `none` for `INVALID`. -/
def toPrefix (p : RawPrefix) : Option IPPrefix :=
  (knownFamily p.family).map fun family =>
    .ofRaw family ((List.range family.maxLength).map p.address.bit) p.length

@[simp] theorem knownFamily_toInt (family : Family) : knownFamily family.toInt = some family := by
  cases family <;> rfl

variable {p q : RawPrefix} {family : Family}

/-- The bits of the address within the length. -/
theorem toPrefix_eq (hf : p.family = family.toInt) (hfits : p.length ≤ family.maxLength) :
    ∃ h, p.toPrefix = some ⟨family, (List.range p.length).map p.address.bit, h⟩ := by
  refine ⟨by simpa using hfits, ?_⟩
  rw [toPrefix, hf, knownFamily_toInt, Option.map_some, Option.some.injEq]
  refine IPPrefix.ext' rfl ?_
  rw [IPPrefix.ofRaw_bits, Nat.min_eq_left hfits]
  apply List.map_congr_left
  intro k hk
  have hk' : k < family.maxLength := (List.mem_range.1 hk).trans_le hfits
  rw [List.getD_eq_getElem?_getD, List.getElem?_map, List.getElem?_range hk']
  rfl

theorem Normal.length_le {s : Storage} (h : Normal s p) (hf : p.family = family.toInt) :
    p.length ≤ family.maxLength := by
  have := h.fits
  rwa [hf, getAddrSize_toInt] at this

/-- Prefixes are the same if they stand for the same one. -/
theorem same_iff {s t : Storage} (hp : Normal s p) (hq : Normal t q) (hf : p.family = family.toInt) :
    p.Same q ↔ p.toPrefix = q.toPrefix := by
  obtain ⟨hpfits, hpeq⟩ := toPrefix_eq hf (hp.length_le hf)
  constructor
  · rintro ⟨hfam, hlen, hbits⟩
    obtain ⟨hqfits, hqeq⟩ := toPrefix_eq (hfam ▸ hf) (hq.length_le (hfam ▸ hf))
    rw [hpeq, hqeq, Option.some.injEq]
    refine IPPrefix.ext' rfl ?_
    change _ = (List.range q.length).map q.address.bit
    rw [← hlen]
    exact List.map_congr_left fun k hk => hbits k (List.mem_range.1 hk)
  · intro h
    rw [hpeq] at h
    rcases hq.family with hunspec | ⟨family', hf'⟩
    · rw [toPrefix, hunspec] at h
      cases h
    · obtain ⟨hqfits, hqeq⟩ := toPrefix_eq hf' (hq.length_le hf')
      rw [hqeq, Option.some.injEq, IPPrefix.mk.injEq] at h
      obtain ⟨rfl, hbits⟩ := h
      have hlen : p.length = q.length := by simpa using congrArg List.length hbits
      refine ⟨hf.trans hf'.symm, hlen, fun k hk => ?_⟩
      rw [← hlen] at hbits
      exact List.map_inj_left.1 hbits k (List.mem_range.2 hk)

/-- What the constructors make of an address of the C library. -/
theorem toPrefix_copied (family : Family) (storage : Storage) (bits : List Bool) (length : Nat) :
    toPrefix (normalize ⟨family.toInt,
      storage.memcpy (.ofBits bits) (getAddrSize family.toInt),
      min length (getAddrSize family.toInt * 8)⟩) = some (.ofRaw family bits length) := by
  rw [normalize_eq, getAddrSize_toInt]
  obtain ⟨h, heq⟩ := toPrefix_eq (p := ⟨family.toInt,
    (storage.memcpy (.ofBits bits) (getAddrSize family.toInt)).maskBits
      (getAddrSize family.toInt) (min length family.maxLength), min length family.maxLength⟩) rfl
    (Nat.min_le_right _ _)
  rw [heq, Option.some.injEq]
  refine IPPrefix.ext' rfl ?_
  rw [IPPrefix.ofRaw_bits]
  apply List.map_congr_left
  intro k hk
  have hlt := List.mem_range.1 hk
  have hmax := IPPrefix.maxLength_le family
  have hsize := getAddrSize_toInt family
  dsimp only at hlt ⊢
  rw [Storage.bit_maskBits _ _ (by omega), if_neg (by omega), Storage.bit_memcpy _ (by omega),
    if_pos (by omega), Storage.bit_ofBits _ (by omega)]

theorem toPrefix_ofAddress (net : AddressText) (storage : Storage) (addr : List Char)
    (length : Nat) : (ofAddress net storage addr length).toPrefix =
      (net.getaddrinfo (cString addr)).map fun (family, bits) => .ofRaw family bits length := by
  unfold ofAddress
  cases net.getaddrinfo (cString addr) with
  | none => rfl
  | some address => exact toPrefix_copied address.1 storage address.2 length

/-- The constructor from a text makes the bytes of the prefix that the text denotes. -/
theorem toPrefix_ofText (net : AddressText) (storage : Storage) (address : List Char) :
    (ofText net storage address 65535).toPrefix = IPPrefix.ofText net address := by
  unfold ofText IPPrefix.ofText
  cases IPPrefix.splitSlash address with
  | none => exact toPrefix_ofAddress net storage address 65535
  | some parts =>
    obtain ⟨addr, len⟩ := parts
    cases len with
    | nil => exact toPrefix_ofAddress net storage addr 65535
    | cons c len =>
      dsimp only
      split
      · exact toPrefix_ofAddress net storage addr _
      · rfl

/-- What is printed is the text of the prefix that the bytes stand for. -/
theorem toText_eq {net : AddressText} {s : Storage} (hp : Normal s p)
    (hf : p.family = family.toInt) :
    ∃ P, p.toPrefix = some P ∧ p.toText net = some (P.toText net) := by
  obtain ⟨hfits, heq⟩ := toPrefix_eq hf (hp.length_le hf)
  refine ⟨_, heq, ?_⟩
  have hmax := IPPrefix.maxLength_le family
  have hlen := hp.length_le hf
  have hbits : (List.range family.maxLength).map p.address.bit =
      (List.range p.length).map p.address.bit ++
        List.replicate (family.maxLength - p.length) false := by
    apply List.ext_getElem
    · simp
      omega
    · intro k hk hk'
      rw [List.length_map, List.length_range] at hk
      by_cases h : k < p.length
      · rw [List.getElem_append_left (by simpa using h)]
        simp
      · rw [List.getElem_append_right (by simpa using h), List.getElem_replicate]
        simpa using hp.clear k (by omega) (by omega) (by rwa [hf, getAddrSize_toInt])
  rw [IPPrefix.toText]
  simp only [IPPrefix.length, List.length_map, List.length_range]
  rw [← hbits, toText, hf, getAddrSize_toInt]
  cases family <;> rfl

/-! ## Reading what has been printed -/

theorem family_of_toPrefix {P : IPPrefix} (h : q.toPrefix = some P) :
    q.family = P.family.toInt := by
  unfold toPrefix knownFamily at h
  split at h
  · next hf =>
    cases h
    exact hf
  split at h
  · next hf =>
    cases h
    exact hf
  · cases h

theorem not_eq_invalid (hf : p.family = family.toInt) : p.eq invalid = false := by
  rw [Bool.eq_false_iff, ne_eq, RawPrefix.eq_iff]
  intro h
  exact toInt_ne_unspec family (hf.symm.trans (congrArg RawPrefix.family h))

/-- A prefix is read back as the same one. -/
theorem readPrefix_toText {net : AddressText} (hnet : net.Numeric) {c : Construction}
    (hp : c.build net = some p) (hf : p.family = family.toInt) (storage : Storage) :
    ∃ text q, p.toText net = some text ∧ q.Same p ∧
      (Construction.text storage text 65535).build net = some q ∧
      ∀ rhs more, EndsToken more → IStream.readPrefix net storage { rest := text ++ more } rhs =
        (q, { rest := more, eof := more.isEmpty }) := by
  obtain ⟨P, hP, htext⟩ := toText_eq (Construction.normal hp) hf
  have hread : (ofText net storage (P.toText net) 65535).toPrefix = some P := by
    rw [toPrefix_ofText, IPPrefix.ofText_toText hnet]
  have hq := family_of_toPrefix hread
  have hbuild : (Construction.text storage (P.toText net) 65535).build net =
      some (ofText net storage (P.toText net) 65535) := rfl
  refine ⟨_, _, htext, ?_, hbuild, ?_⟩
  · rw [same_iff (Construction.normal hbuild) (Construction.normal hp) hq, hread, hP]
  · intro rhs more hmore
    have hstring := IStream.getString_token (IPPrefix.isToken_toText hnet P) [] more
      (fun _ h => nomatch h) hmore
    rw [List.nil_append] at hstring
    rw [IStream.readPrefix, hstring]
    simp only [not_eq_invalid hq]
    rfl

end RawPrefix

/-! ## The length -/

/-- A text that `strtoul` reads to its end: nothing, or white space, a sign if there is one and
digits. -/
def ScansAsNumber (text : List Char) : Prop :=
  text = [] ∨ ∃ ws sign digits, text = ws ++ (sign ++ digits) ∧ (∀ c ∈ ws, isSpace c = true) ∧
    (sign = [] ∨ sign = ['-'] ∨ sign = ['+']) ∧ digits ≠ [] ∧ ∀ c ∈ digits, c.isDigit = true

/-- What `strtoul` leaves, with the sign and the digits taken apart. -/
theorem strtoul_rest (text : List Char) : (strtoul text).2 =
    if (IStream.unsign (text.dropWhile isSpace)).takeWhile Char.isDigit = [] then text
    else (IStream.unsign (text.dropWhile isSpace)).dropWhile Char.isDigit := by
  have hnumber : ∀ start : List Char,
      (if (start.head? == some '-' || start.head? == some '+') = true then start.tail else start) =
        IStream.unsign start := by
    intro start
    simp [IStream.unsign]
  unfold strtoul
  dsimp only
  rw [hnumber]
  simp only [List.isEmpty_iff]
  split
  · rfl
  · split <;> rfl

theorem exists_sign (start : List Char) : ∃ sign : List Char,
    (sign = [] ∨ sign = ['-'] ∨ sign = ['+']) ∧ start = sign ++ IStream.unsign start := by
  unfold IStream.unsign
  split
  · next h =>
    cases start with
    | nil => simp at h
    | cons c rest =>
      refine ⟨[c], ?_, rfl⟩
      simpa using h
  · exact ⟨[], .inl rfl, rfl⟩

/-- The sign in front of digits is taken off. -/
theorem unsign_sign {sign digits : List Char} (hsign : sign = [] ∨ sign = ['-'] ∨ sign = ['+'])
    (hdigits : ∀ c ∈ digits, c.isDigit = true) : IStream.unsign (sign ++ digits) = digits := by
  rcases hsign with rfl | rfl | rfl
  · refine if_neg ?_
    rintro (h | h) <;> exact absurd (hdigits _ (List.mem_of_mem_head? h)) (by decide)
  · rfl
  · rfl

theorem head?_sign {sign digits : List Char} (hsign : sign = [] ∨ sign = ['-'] ∨ sign = ['+'])
    (hdigits : ∀ c ∈ digits, c.isDigit = true) :
    ∀ c ∈ (sign ++ digits).head?, isSpace c = false := by
  rcases hsign with rfl | rfl | rfl
  · exact fun c hc => isSpace_of_isDigit (hdigits c (List.mem_of_mem_head? hc))
  · rintro c ⟨⟩
    rfl
  · rintro c ⟨⟩
    rfl

theorem strtoul_rest_eq_nil_iff {text : List Char} :
    (strtoul text).2 = [] ↔ ScansAsNumber text := by
  rw [strtoul_rest]
  constructor
  · intro h
    split at h
    · exact .inl h
    · next hdigits =>
      obtain ⟨sign, hsign, hstart⟩ := exists_sign (text.dropWhile isSpace)
      have hall := List.dropWhile_eq_nil_iff.1 h
      refine .inr ⟨text.takeWhile isSpace, sign, _, ?_, fun c hc => List.mem_takeWhile_imp hc, hsign,
        ?_, hall⟩
      · rw [← hstart, List.takeWhile_append_dropWhile]
      · rwa [List.takeWhile_eq_self_iff.2 hall] at hdigits
  · rintro (rfl | ⟨ws, sign, digits, rfl, hws, hsign, hne, hdigits⟩)
    · rfl
    · rw [dropWhile_space hws (head?_sign hsign hdigits), unsign_sign hsign hdigits,
        List.takeWhile_eq_self_iff.2 hdigits, if_neg hne, List.dropWhile_eq_nil_iff.2 hdigits]

/-- A decimal number is read as it is up to the greatest `unsigned long`. -/
theorem strtoul_digits {digits : List Char} (hne : digits ≠ [])
    (hdigits : ∀ c ∈ digits, c.isDigit = true) :
    strtoul digits = (min (Nat.ofDigitChars 10 digits 0) (2 ^ 64 - 1), []) := by
  have hstart : digits.dropWhile isSpace = digits := by
    have hdrop : ([] ++ digits).dropWhile isSpace = digits :=
      dropWhile_space (fun _ h => nomatch h) (head?_sign (.inl rfl) hdigits)
    rwa [List.nil_append] at hdrop
  have hsign : ¬ (digits.head? = some '-' ∨ digits.head? = some '+') := by
    rintro (h | h) <;> exact absurd (hdigits _ (List.mem_of_mem_head? h)) (by decide)
  rw [not_or] at hsign
  unfold strtoul
  simp only [hstart, beq_eq_false_iff_ne.2 hsign.1, beq_eq_false_iff_ne.2 hsign.2, Bool.or_self,
    Bool.false_eq_true, if_false, List.takeWhile_eq_self_iff.2 hdigits, List.isEmpty_iff, hne,
    List.dropWhile_eq_nil_iff.2 hdigits]
  split
  · rw [Nat.min_eq_right (by omega)]
  · rw [Nat.min_eq_left (by omega)]

namespace RawPrefix

variable {net : AddressText} {family : Family} {bits : List Bool} {addr len : List Char}

theorem ofAddress_of_some (haddr : net.getaddrinfo (cString addr) = some (family, bits))
    (storage : Storage) (length : Nat) :
    (ofAddress net storage addr length).family = family.toInt ∧
      (ofAddress net storage addr length).length = min length family.maxLength := by
  unfold ofAddress
  rw [haddr]
  dsimp only
  rw [normalize_eq, getAddrSize_toInt]
  exact ⟨rfl, rfl⟩

/-- A text with a length. -/
theorem ofText_length (storage : Storage) (length : Nat) (hlen : '/' ∉ len) (hne : len ≠ []) :
    ofText net storage (addr ++ '/' :: len) length =
      if (strtoul (cString len)).2 = [] then
        ofAddress net storage addr ((strtoul (cString len)).1 % 2 ^ 16)
      else invalid := by
  unfold ofText
  rw [IPPrefix.splitSlash_append hlen]
  cases len with
  | nil => exact absurd rfl hne
  | cons c len => simp only [List.isEmpty_iff]

/-- The length of a decimal number, unless it wraps around to fewer bits. -/
theorem ofText_decimal_iff (haddr : net.getaddrinfo (cString addr) = some (family, bits))
    (storage : Storage) (length : Nat) (hne : len ≠ []) (hdigits : ∀ c ∈ len, c.isDigit = true) :
    let n := Nat.ofDigitChars 10 len 0
    let p := ofText net storage (addr ++ '/' :: len) length
    p.family = family.toInt ∧ p.length = min n family.maxLength ↔
      n < 2 ^ 16 ∨ 2 ^ 64 ≤ n ∨ family.maxLength ≤ n % 2 ^ 16 := by
  have hslash : '/' ∉ len := fun h => absurd (hdigits _ h) (by decide)
  have hcstring : cString len = len :=
    cString_eq_self.2 fun h => absurd (hdigits _ h) (by decide)
  dsimp only
  rw [ofText_length storage length hslash hne, hcstring, strtoul_digits hne hdigits]
  obtain ⟨hf, hl⟩ := ofAddress_of_some haddr storage
    (min (Nat.ofDigitChars 10 len 0) (2 ^ 64 - 1) % 2 ^ 16)
  have hmax := IPPrefix.maxLength_le family
  simp only [if_true, hf, hl, true_and]
  omega

/-- Anything else is rejected, unless `strtoul` reads it to the end. -/
theorem ofText_malformed_iff (haddr : net.getaddrinfo (cString addr) = some (family, bits))
    (storage : Storage) (length : Nat) (hslash : '/' ∉ len) (hne : len ≠ []) :
    ofText net storage (addr ++ '/' :: len) length = invalid ↔ ¬ ScansAsNumber (cString len) := by
  rw [ofText_length storage length hslash hne, ← strtoul_rest_eq_nil_iff]
  split
  · next hrest =>
    refine iff_of_false (fun h => ?_) (not_not_intro hrest)
    have hf := (ofAddress_of_some haddr storage ((strtoul (cString len)).1 % 2 ^ 16)).1
    rw [h] at hf
    exact toInt_ne_unspec family hf.symm
  · next hrest => exact iff_of_true rfl hrest

/-- Whatever constructor has made a prefix, it is read back from its text as the same one, and as one
that compares as equal unless bytes behind an IPv4 address differ. A decimal length is cut to the bits
of an address unless it wraps around to fewer, and a malformed one is rejected unless `strtoul` reads
it to the end. -/
theorem text_round_trip_iff (hnet : net.Numeric) :
    (∀ (c : Construction) (p : RawPrefix) (family : Family) (storage : Storage),
      c.build net = some p → p.family = family.toInt →
      ∃ text q, p.toText net = some text ∧
        (∀ rhs more, EndsToken more → IStream.readPrefix net storage { rest := text ++ more } rhs =
          (q, { rest := more, eof := more.isEmpty })) ∧
        q.Same p ∧
        (q.eq p = true ↔
          (family = .inet → ∀ i : Fin 16, 4 ≤ i.val → storage i = c.storage i))) ∧
    (∀ addr len (family : Family) bits storage length, net.getaddrinfo (cString addr) = some (family, bits) →
      len ≠ [] → (∀ c ∈ len, c.isDigit = true) →
      let n := Nat.ofDigitChars 10 len 0
      let p := ofText net storage (addr ++ '/' :: len) length
      (p.family = family.toInt ∧ p.length = min n family.maxLength ↔
        n < 2 ^ 16 ∨ 2 ^ 64 ≤ n ∨ family.maxLength ≤ n % 2 ^ 16)) ∧
    (∀ addr len (family : Family) bits storage length, net.getaddrinfo (cString addr) = some (family, bits) →
      '/' ∉ len → len ≠ [] → ¬ (∀ c ∈ len, c.isDigit = true) →
      (ofText net storage (addr ++ '/' :: len) length = invalid ↔
        ¬ ScansAsNumber (cString len))) := by
  refine ⟨?_, ?_, ?_⟩
  · intro c p family storage hp hf
    obtain ⟨text, q, htext, hsame, hbuild, hread⟩ := readPrefix_toText hnet hp hf storage
    refine ⟨text, q, htext, hread, hsame, ?_⟩
    rw [eq_iff_of_build hbuild hp, and_iff_right hsame, hsame.1, hf]
    cases family with
    | inet => exact ⟨fun h _ => h rfl, fun h _ => h rfl⟩
    | inet6 => exact iff_of_true (fun h => absurd h (by decide)) (fun h => nomatch h)
  · intro addr len family bits storage length haddr hne hdigits
    exact ofText_decimal_iff haddr storage length hne hdigits
  · intro addr len family bits storage length haddr hslash hne _
    exact ofText_malformed_iff haddr storage length hslash hne

/-- The greatest length that an `unsigned short` holds is cut to the 32 bits of an IPv4 address. -/
theorem text_round_trip_greatest :
    (ofText Portal.tenText (fun _ => 0xCD)
      ("10.0.0.0".toList ++ '/' :: ['6', '5', '5', '3', '5']) 65535).length = 32 := by
  have haddr : Portal.tenText.getaddrinfo (cString "10.0.0.0".toList) =
      some (.inet, PatriciaTrie.ten8.address) := by
    decide +kernel
  have h := (text_round_trip_iff Portal.tenText_numeric).2.1 "10.0.0.0".toList
    ['6', '5', '5', '3', '5'] .inet _ (fun _ => 0xCD) 65535 haddr (by decide) (by decide)
  exact (h.2 (.inl (by decide))).2

/-- A greater number wraps around: this is read as `10.0.0.0/8`. -/
theorem prefix_length_wraps : ¬ ∀ (net : AddressText), net.Numeric →
    ∀ (addr len : List Char) (family : Family) (bits : List Bool) (storage : Storage),
      net.getaddrinfo (cString addr) = some (family, bits) → len ≠ [] →
      (∀ c ∈ len, c.isDigit = true) → (ofText net storage (addr ++ '/' :: len) 65535).length =
        min (Nat.ofDigitChars 10 len 0) family.maxLength := by
  intro h
  have haddr : Portal.tenText.getaddrinfo (cString "10.0.0.0".toList) =
      some (.inet, PatriciaTrie.ten8.address) := by
    decide +kernel
  have hlen := h Portal.tenText Portal.tenText_numeric "10.0.0.0".toList
    ['6', '5', '5', '4', '4'] .inet _ (fun _ => 0) haddr (by decide) (by decide)
  have hread : (ofText Portal.tenText (fun _ => 0)
      ("10.0.0.0".toList ++ '/' :: ['6', '5', '5', '4', '4']) 65535).length = 8 := by
    decide +kernel
  rw [hread] at hlen
  exact absurd hlen (by decide)

end RawPrefix

end Alto
