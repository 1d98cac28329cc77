import Mathlib
import Alto.Common.RawPrefix
import Alto.Verify.PIDMapWrite

/-!
# The order of IP prefixes

`IPPrefix::compare_dst` compares all bytes of the union. Every constructor masks out the bits of the
address behind the length (`Normal`), but the one that reads a text leaves the twelve bytes behind an
IPv4 address as they were. So the comparison is an order of the prefixes exactly as far as these bytes
agree.
-/

namespace Alto

/-! ## Bits of the storage -/

namespace Storage

variable {a b buf src : Storage} {k : Nat}

theorem bit_of_lt (h : k < 128) : buf.bit k = (buf ⟨k / 8, by omega⟩).getMsbD (k % 8) :=
  dif_pos (show k / 8 < 16 by omega)

/-- The bytes from some point on agree if their bits do. -/
theorem eq_from_iff (n : Nat) :
    (∀ i : Fin 16, n ≤ i → a i = b i) ↔ ∀ k < 128, n * 8 ≤ k → a.bit k = b.bit k := by
  constructor
  · intro h k hk hn
    rw [bit_of_lt hk, bit_of_lt hk, h ⟨k / 8, by omega⟩ (show n ≤ k / 8 by omega)]
  · intro h i hi
    apply BitVec.eq_of_getMsbD_eq
    intro j hj
    have hlt := i.isLt
    have hbit := h (8 * i + j) (by omega) (by omega)
    have hdiv : (8 * i.val + j) / 8 = i := by omega
    have hmod : (8 * i.val + j) % 8 = j := by omega
    rw [bit_of_lt (by omega), bit_of_lt (by omega)] at hbit
    simpa only [hdiv, hmod] using hbit

theorem bit_memcpy (n : Nat) (h : k < 128) :
    (buf.memcpy src n).bit k = if k < 8 * n then src.bit k else buf.bit k := by
  rw [bit_of_lt h, memcpy]
  by_cases hk : k < 8 * n
  · rw [if_pos hk, bit_of_lt h, if_pos (show k / 8 < n by omega)]
  · rw [if_neg hk, bit_of_lt h, if_neg (show ¬ k / 8 < n by omega)]

theorem bit_ofBits (bits : List Bool) (h : k < 128) : (ofBits bits).bit k = bits.getD k false := by
  have hk : 8 * (k / 8) + k % 8 = k := by omega
  have hmod : k % 8 < 8 := by omega
  rw [bit_of_lt h, ofBits, BitVec.getMsbD_cast, BitVec.getMsbD_ofBoolListBE, List.getD_eq_getElem?_getD]
  simp [hmod, hk]

/-- The mask of the partial byte keeps the bits in front of the length. -/
theorem getMsbD_mask (b : Byte) (bits : Nat) {j : Nat} (hj : j < 8) :
    ((b.setWidth 32 &&& 0xFF#32 <<< (8 - bits % 8)).setWidth 8).getMsbD j =
      (decide (j < bits % 8) && b.getMsbD j) := by
  have hbits : bits % 8 < 8 := by omega
  generalize bits % 8 = r at hbits
  interval_cases r <;> interval_cases j <;> simp [BitVec.getMsbD]

theorem bit_maskBits (n bits : Nat) (h : k < 128) :
    (buf.maskBits n bits).bit k = if bits ≤ k ∧ k < 8 * n then false else buf.bit k := by
  unfold maskBits
  dsimp only
  by_cases hskip : n ≤ bits / 8
  · rw [if_pos hskip, if_neg (by omega)]
  rw [if_neg hskip, bit_of_lt h, bit_of_lt h]
  unfold memset modify
  dsimp only
  -- the bytes behind the partial one, the partial one, and the others
  by_cases hbehind : bits / 8 < k / 8 ∧ k < 8 * n
  · rw [if_pos (by omega), if_pos (by omega)]
    exact BitVec.getMsbD_zero
  · rw [if_neg (by omega)]
    by_cases hbyte : k / 8 = bits / 8
    · rw [if_pos hbyte, getMsbD_mask _ _ (by omega)]
      by_cases hk : k % 8 < bits % 8
      · rw [if_neg (by omega), decide_eq_true hk, Bool.true_and]
      · rw [if_pos (by omega), decide_eq_false hk, Bool.false_and]
    · rw [if_neg hbyte, if_neg (by omega)]

/-! ## The order of the bytes -/

/-- The numbers that `memcmp` compares. -/
def orderKey (buf : Storage) : Lex (Fin 16 → Nat) := toLex fun i => (buf i).toNat

theorem orderKey_injective : Function.Injective orderKey := by
  intro a b h
  funext i
  exact BitVec.eq_of_toNat_eq (congrFun (toLex.injective h) i)

/-- `memcmp` stops at the first difference, if there is one. -/
theorem memcmp_cases (a b : Storage) : a = b ∧ a.memcmp b = 0 ∨
    ∃ i, (∀ j < i, a j = b j) ∧ a i ≠ b i ∧ a.memcmp b = (a i).toNat - (b i).toNat := by
  unfold memcmp
  split
  · next hnone =>
    refine .inl ⟨funext fun i => ?_, rfl⟩
    simpa using List.find?_eq_none.1 hnone i (List.mem_finRange i)
  · next i hsome =>
    obtain ⟨hdiff, k, hk, hki, hbefore⟩ := List.find?_eq_some_iff_getElem.1 hsome
    rw [List.getElem_finRange] at hki
    refine .inr ⟨i, ?_, by simpa using hdiff, rfl⟩
    intro j hj
    have hjk : j.val < k := by
      have hik : k = i.val := congrArg Fin.val hki
      rw [hik]
      exact hj
    have heq := hbefore j hjk
    rw [List.getElem_finRange] at heq
    simpa using heq

theorem memcmp_eq_zero : a.memcmp b = 0 ↔ a.orderKey = b.orderKey := by
  rw [orderKey_injective.eq_iff]
  rcases memcmp_cases a b with ⟨h, hzero⟩ | ⟨i, -, hne, hcmp⟩
  · exact iff_of_true hzero h
  · have hval : (a i).toNat ≠ (b i).toNat := fun h => hne (BitVec.eq_of_toNat_eq h)
    constructor
    · intro h
      omega
    · rintro rfl
      exact absurd rfl hne

theorem memcmp_neg : a.memcmp b < 0 ↔ a.orderKey < b.orderKey := by
  rcases memcmp_cases a b with ⟨rfl, hzero⟩ | ⟨i, hbefore, hne, hcmp⟩
  · rw [hzero]
    exact iff_of_false (lt_irrefl _) (lt_irrefl _)
  · have hval : (a i).toNat ≠ (b i).toNat := fun h => hne (BitVec.eq_of_toNat_eq h)
    constructor
    · intro h
      have hlt : (a i).toNat < (b i).toNat := by omega
      exact ⟨i, fun j hj => congrArg BitVec.toNat (hbefore j hj), hlt⟩
    · rintro ⟨j, hj, hlt⟩
      change ∀ k < j, (a k).toNat = (b k).toNat at hj
      change (a j).toNat < (b j).toNat at hlt
      have hij : i = j := by
        rcases lt_trichotomy i j with h | h | h
        · exact absurd (hj i h) hval
        · exact h
        · rw [hbefore j h] at hlt
          exact absurd hlt (lt_irrefl _)
      subst hij
      omega

end Storage

/-! ## What the constructors make -/

namespace RawPrefix

/-- A prefix in storage with these contents: the length fits the family, the bits of the address
behind it are zero, and what is behind the address is as it was. -/
structure Normal (storage : Storage) (p : RawPrefix) : Prop where
  family : p.family = afUnspec ∨ ∃ family : Family, p.family = family.toInt
  fits : p.length ≤ getAddrSize p.family * 8
  clear : ∀ k < 128, p.length ≤ k → k < getAddrSize p.family * 8 → p.address.bit k = false
  left : ∀ k < 128, getAddrSize p.family * 8 ≤ k → p.address.bit k = storage.bit k

@[simp] theorem getAddrSize_toInt (family : Family) :
    getAddrSize family.toInt * 8 = family.maxLength := by
  cases family <;> rfl

theorem toInt_ne_unspec (family : Family) : family.toInt ≠ afUnspec := by
  cases family <;> decide

/-- The address of a family, copied into storage and cut to the length. -/
theorem normalize_eq (family : Family) (buf : Storage) (length : Nat) :
    normalize ⟨family.toInt, buf, length⟩ =
      ⟨family.toInt, buf.maskBits (getAddrSize family.toInt) length, length⟩ := by
  cases family <;> rfl

theorem bit_zero (k : Nat) : Storage.bit (fun _ => 0) k = false := by
  unfold Storage.bit
  split
  · exact BitVec.getMsbD_zero
  · rfl

theorem normal_invalid : Normal (fun _ => 0) invalid where
  family := .inl rfl
  fits := Nat.le_refl _
  clear k _ _ _ := bit_zero k
  left _ _ _ := rfl

theorem normal_copied (family : Family) (storage address : Storage) (length : Nat) :
    Normal storage (normalize ⟨family.toInt,
      storage.memcpy address (getAddrSize family.toInt), min length (getAddrSize family.toInt * 8)⟩)
    where
  family := by
    rw [normalize_eq]
    exact .inr ⟨family, rfl⟩
  fits := by
    rw [normalize_eq]
    exact Nat.min_le_right _ _
  clear k hk hlen hsize := by
    rw [normalize_eq] at hlen hsize ⊢
    dsimp only at hlen hsize ⊢
    rw [Storage.bit_maskBits _ _ hk, if_pos (by omega)]
  left k hk hsize := by
    rw [normalize_eq] at hsize ⊢
    dsimp only at hsize ⊢
    rw [Storage.bit_maskBits _ _ hk, if_neg (by omega), Storage.bit_memcpy _ hk, if_neg (by omega)]

theorem normal_ofAddress (net : AddressText) (storage : Storage) (addr : List Char)
    (length : Nat) : ofAddress net storage addr length = invalid ∨
      Normal storage (ofAddress net storage addr length) ∧
        (ofAddress net storage addr length).family ≠ afUnspec := by
  unfold ofAddress
  split
  · exact .inl rfl
  · next family bits _ =>
    refine .inr ⟨normal_copied family storage (.ofBits bits) length, ?_⟩
    rw [normalize_eq]
    exact toInt_ne_unspec family

theorem normal_ofText (net : AddressText) (storage : Storage) (address : List Char)
    (length : Nat) : ofText net storage address length = invalid ∨
      Normal storage (ofText net storage address length) ∧
        (ofText net storage address length).family ≠ afUnspec := by
  unfold ofText
  split
  · exact normal_ofAddress net storage _ _
  · exact normal_ofAddress net storage _ _
  · dsimp only
    split
    · exact normal_ofAddress net storage _ _
    · exact .inl rfl

/-- The families that the constructor from a raw address takes. -/
theorem getAddrSize_known {family : Int} (h : getAddrSize family ≠ 65535) :
    family = afUnspec ∨ ∃ known : Family, family = known.toInt := by
  unfold getAddrSize at h
  split at h
  · next hunspec => exact .inl hunspec
  split at h
  · next hinet => exact .inr ⟨.inet, hinet⟩
  split at h
  · next hinet6 => exact .inr ⟨.inet6, hinet6⟩
  · exact absurd rfl h

theorem normal_ofRaw {family : Int} {address : Option Storage} {length : Nat} {p : RawPrefix}
    (h : ofRaw family address length = some p) : Normal (fun _ => 0) p := by
  unfold ofRaw at h
  dsimp only at h
  split at h
  · cases h
  next hsize =>
  have hknown := getAddrSize_known hsize
  cases address with
  | none =>
    cases h
    exact ⟨hknown, Nat.min_le_right _ _, fun k _ _ _ => bit_zero k, fun _ _ _ => rfl⟩
  | some address =>
    cases h
    rcases hknown with rfl | ⟨known, rfl⟩
    · refine ⟨.inl rfl, Nat.min_le_right _ _, ?_, ?_⟩
      · intro k hk _ hlt
        exact absurd hlt (by simp [normalize, afUnspec, getAddrSize, Family.toInt])
      · intro k hk _
        have hcopy : (Storage.memcpy (fun _ => 0) address 0).bit k = _ := Storage.bit_memcpy 0 hk
        exact hcopy
    · exact normal_copied known _ address length

/-- Every constructor makes a normal prefix; one without a family is cleared as a whole. -/
theorem Construction.normal {net : AddressText} {c : Construction} {p : RawPrefix}
    (h : c.build net = some p) :
    Normal (if p.family = afUnspec then fun _ => 0 else c.storage) p := by
  cases c with
  | default =>
    cases h
    exact normal_invalid
  | raw family address length =>
    have hp := normal_ofRaw h
    simpa only [Construction.storage, ite_self] using hp
  | text storage address length =>
    cases h
    rcases normal_ofText net storage address length with hp | ⟨hp, hknown⟩
    · rw [hp]
      exact normal_invalid
    · rw [if_neg hknown]
      exact hp

/-! ## Equality and order -/

/-- Same family, same length and the same bits of the address within the length. -/
def Same (p q : RawPrefix) : Prop :=
  p.family = q.family ∧ p.length = q.length ∧ ∀ k < p.length, p.address.bit k = q.address.bit k

/-- The parts that `compare_dst` compares one after the other. -/
def orderKey (p : RawPrefix) : Int ×ₗ (Nat ×ₗ Lex (Fin 16 → Nat)) :=
  toLex (p.family, toLex (p.length, p.address.orderKey))

variable {p q : RawPrefix}

theorem eq_iff_key : p.eq q = true ↔ p.orderKey = q.orderKey := by
  simp only [eq, compareDst, beq_iff_eq, orderKey, EmbeddingLike.apply_eq_iff_eq, Prod.mk.injEq]
  by_cases hf : p.family = q.family
  · by_cases hl : p.length = q.length
    · simp [hf, hl, Storage.memcmp_eq_zero]
    · simp only [hf, hl, ne_eq, not_true_eq_false, not_false_eq_true, if_true, if_false, true_and,
        false_and, iff_false]
      omega
  · simp only [hf, ne_eq, not_false_eq_true, if_true, false_and, iff_false]
    omega

theorem eq_iff : p.eq q = true ↔ p = q := by
  rw [eq_iff_key]
  constructor
  · intro h
    obtain ⟨pf, pa, pl⟩ := p
    obtain ⟨qf, qa, ql⟩ := q
    obtain ⟨hf, h⟩ := Prod.mk.inj (toLex.injective h)
    obtain ⟨hl, ha⟩ := Prod.mk.inj (toLex.injective h)
    cases hf
    cases hl
    cases Storage.orderKey_injective ha
    rfl
  · rintro rfl
    rfl

theorem less_iff : p.less q = true ↔ p.orderKey < q.orderKey := by
  rw [less, decide_eq_true_iff, compareDst, orderKey, orderKey, Prod.Lex.toLex_lt_toLex,
    Prod.Lex.toLex_lt_toLex]
  by_cases hf : p.family = q.family
  · by_cases hl : p.length = q.length
    · simp [hf, hl, Storage.memcmp_neg]
    · simp only [hf, hl, ne_eq, not_true_eq_false, not_false_eq_true, if_true, if_false, lt_irrefl,
        false_or, true_and, false_and, or_false]
      omega
  · simp only [hf, ne_eq, not_false_eq_true, if_true, false_and, or_false]
    omega

/-- Prefixes that are the same are equal exactly if what is behind the address is. -/
theorem Normal.eq_iff {s t : Storage} (hp : Normal s p) (hq : Normal t q) : p.eq q = true ↔
    p.Same q ∧ ∀ i : Fin 16, getAddrSize p.family ≤ i → s i = t i := by
  rw [RawPrefix.eq_iff]
  constructor
  · rintro rfl
    refine ⟨⟨rfl, rfl, fun _ _ => rfl⟩, (Storage.eq_from_iff _).2 fun k hk hsize => ?_⟩
    rw [← hp.left k hk hsize, ← hq.left k hk hsize]
  · rintro ⟨⟨hf, hl, hbits⟩, hrest⟩
    have haddr : p.address = q.address := by
      funext i
      refine (Storage.eq_from_iff 0).2 (fun k hk _ => ?_) i (Nat.zero_le _)
      by_cases hlen : k < p.length
      · exact hbits k hlen
      by_cases hsize : k < getAddrSize p.family * 8
      · rw [hp.clear k hk (by omega) hsize, hq.clear k hk (by omega) (by rwa [← hf])]
      · rw [hp.left k hk (by omega), hq.left k hk (by rw [← hf]; omega)]
        exact (Storage.eq_from_iff _).1 hrest k hk (by omega)
    obtain ⟨pf, pa, pl⟩ := p
    obtain ⟨qf, qa, ql⟩ := q
    cases hf
    cases hl
    cases haddr
    rfl

/-- What two constructors make is equal if it is the same, but for the bytes behind an IPv4
address. -/
theorem eq_iff_of_build {net : AddressText} {c d : Construction} (hp : c.build net = some p)
    (hq : d.build net = some q) : p.eq q = true ↔ p.Same q ∧
      (p.family = Family.inet.toInt → ∀ i : Fin 16, 4 ≤ i.val → c.storage i = d.storage i) := by
  have hnormal := (Construction.normal hp).eq_iff (Construction.normal hq)
  rw [hnormal]
  refine and_congr_right fun hsame => ?_
  rw [← hsame.1]
  rcases (Construction.normal hp).family with hunspec | ⟨family, hknown⟩
  · simp [hunspec, afUnspec, Family.toInt]
  · cases family with
    | inet => simp [hknown, afUnspec, Family.toInt, getAddrSize]
    | inet6 =>
      simp only [hknown]
      refine iff_of_true (fun i hi => absurd i.isLt (Nat.not_lt.2 hi)) fun h => ?_
      exact absurd h (by decide)

theorem same_less_iff : Lib.LessMap.same less p q = true ↔ p = q := by
  simp only [Lib.LessMap.same, Bool.and_eq_true, Bool.not_eq_true', Bool.eq_false_iff, ne_eq,
    less_iff, not_lt]
  rw [← RawPrefix.eq_iff, eq_iff_key, and_comm]
  exact le_antisymm_iff.symm

theorem find_insertAll {V : Type} (entries : List (RawPrefix × V)) (k : RawPrefix) :
    Lib.LessMap.find less (insertAll entries) k = Lib.LessMap.under id (insertAll entries) k := by
  have hcls : ∀ a b : RawPrefix, (fun _ => True) a → (fun _ => True) b →
      (Lib.LessMap.same less a b = true ↔ id a = id b) := fun _ _ _ _ => same_less_iff
  exact Lib.LessMap.find_eq_under hcls (fun _ _ => trivial) trivial

/-- A map holds no key twice that compares as equal, and only what has been inserted. -/
theorem nodup_insertAll {V : Type} (entries : List (RawPrefix × V)) :
    ((insertAll entries).map fun e => e.1).Nodup ∧ ∀ e ∈ insertAll entries, e ∈ entries := by
  unfold insertAll
  induction entries using List.reverseRecOn with
  | nil => exact ⟨List.nodup_nil, fun _ h => h⟩
  | append_singleton entries e ih =>
    rw [List.foldl_append, List.foldl_cons, List.foldl_nil]
    obtain ⟨hnodup, hmem⟩ := ih
    split
    · exact ⟨hnodup, fun e' he' => List.mem_append_left _ (hmem e' he')⟩
    · next hfind =>
      have hunder := find_insertAll entries e.1
      unfold insertAll at hunder
      rw [Bool.not_eq_true, Option.isSome_eq_false_iff, Option.isNone_iff_eq_none, hunder] at hfind
      refine ⟨Lib.LessMap.nodup_add hnodup hfind, fun e' he' => ?_⟩
      rcases Lib.LessMap.mem_add.1 he' with rfl | he'
      · simp
      · exact List.mem_append_left _ (hmem e' he')

/-- What prefixes are compared for: `operator==` tells whether they are the same, `operator<` is a
strict total order up to that, and no set or map holds one of them twice. -/
structure Canonical (prefixes : Set RawPrefix) : Prop where
  eq_iff_same : ∀ p ∈ prefixes, ∀ q ∈ prefixes, p.eq q = true ↔ p.Same q
  irrefl : ∀ p ∈ prefixes, ∀ q ∈ prefixes, p.Same q → p.less q = false
  trans : ∀ p ∈ prefixes, ∀ q ∈ prefixes, ∀ r ∈ prefixes,
    p.less q = true → q.less r = true → p.less r = true
  total : ∀ p ∈ prefixes, ∀ q ∈ prefixes, p.less q = true ∨ p.Same q ∨ q.less p = true
  containers : ∀ {V : Type} (entries : List (RawPrefix × V)), (∀ e ∈ entries, e.1 ∈ prefixes) →
    (insertAll entries).Pairwise fun a b => ¬ a.1.Same b.1

theorem canonical_of_eq_iff_same {prefixes : Set RawPrefix}
    (h : ∀ p ∈ prefixes, ∀ q ∈ prefixes, p.eq q = true ↔ p.Same q) : Canonical prefixes where
  eq_iff_same := h
  irrefl p hp q hq hsame := by
    rw [Bool.eq_false_iff, ne_eq, less_iff, eq_iff_key.1 ((h p hp q hq).2 hsame)]
    exact lt_irrefl _
  trans p _ q _ r _ hpq hqr := less_iff.2 ((less_iff.1 hpq).trans (less_iff.1 hqr))
  total p hp q hq := by
    rw [less_iff, less_iff, ← h p hp q hq, eq_iff_key]
    exact lt_trichotomy _ _
  containers entries hentries := by
    obtain ⟨hnodup, hmem⟩ := nodup_insertAll entries
    rw [List.Nodup, List.pairwise_map] at hnodup
    refine hnodup.imp_of_mem fun {a b} ha hb hne hsame => hne ?_
    exact RawPrefix.eq_iff.1 ((h _ (hentries a (hmem a ha)) _ (hentries b (hmem b hb))).2 hsame)

/-- Comparison is canonical for the prefixes of a set of constructor calls exactly if any two of them
that make the same IPv4 prefix do so in storage with the same contents behind the address. -/
theorem canonical_iff (net : AddressText) (calls : Set Construction) :
    Canonical { p | ∃ c ∈ calls, c.build net = some p } ↔
      ∀ c ∈ calls, ∀ d ∈ calls, ∀ p q, c.build net = some p → d.build net = some q → p.Same q →
        p.family = Family.inet.toInt → ∀ i : Fin 16, 4 ≤ i.val → c.storage i = d.storage i := by
  constructor
  · intro h c hc d hd p q hp hq hsame
    have heq := (h.eq_iff_same p ⟨c, hc, hp⟩ q ⟨d, hd, hq⟩).2 hsame
    exact ((eq_iff_of_build hp hq).1 heq).2
  · intro h
    apply canonical_of_eq_iff_same
    rintro p ⟨c, hc, hp⟩ q ⟨d, hd, hq⟩
    rw [eq_iff_of_build hp hq]
    exact and_iff_left_of_imp (h c hc d hd p q hp hq)

/-- The text of one host, read into storage that was clear and into storage that was not. -/
theorem text_prefix_unequal : ¬ Canonical { p | ∃ c ∈ ({
      Construction.text (fun _ => 0) "10.0.0.0".toList 65535,
      Construction.text (fun _ => 0xCD) "10.0.0.0".toList 65535 } : Set Construction),
    c.build Portal.tenText = some p } := by
  intro h
  have heq := h.eq_iff_same _ ⟨_, .inl rfl, rfl⟩ _ ⟨_, .inr rfl, rfl⟩
  have hsame : Same (ofText Portal.tenText (fun _ => 0) "10.0.0.0".toList 65535)
      (ofText Portal.tenText (fun _ => 0xCD) "10.0.0.0".toList 65535) :=
    ⟨by decide +kernel, by decide +kernel, by decide +kernel⟩
  have hne : eq (ofText Portal.tenText (fun _ => 0) "10.0.0.0".toList 65535)
      (ofText Portal.tenText (fun _ => 0xCD) "10.0.0.0".toList 65535) = false := by
    decide +kernel
  rw [heq.2 hsame] at hne
  cases hne

end RawPrefix

end Alto
