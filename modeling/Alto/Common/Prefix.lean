import Mathlib

/-!
# PIDs and IP prefixes

`p4p::PID` (`common/cpp/src/include/p4p/pid.h`) and `p4p::IPPrefix`
(`common/cpp/src/lib/ip_addr.cpp`). A constructed prefix is always normalized: the bits past its
length are zero and its length fits its family, so it is the family together with the bits up to
the length. `IPPrefix::INVALID` has neither family; where the code can produce it, the model
returns `none`.
-/

namespace Alto

/-! ## PIDs -/

/-- `p4p::PID`: ISP identifier, number within the ISP, and the interdomain indicator. -/
structure PID where
  isp : String
  num : Nat
  external : Bool
  deriving DecidableEq, Repr

namespace PID

/-- `PID::INVALID`, what a lookup of an unknown name returns. -/
def invalid : PID := ⟨"invalid.p4p", 0, true⟩

/-- `PID()`. -/
instance : Inhabited PID := ⟨⟨"", 0, false⟩⟩

/-- `PID::is_invalid`. -/
def isInvalid (p : PID) : Bool := p == invalid

/-- The components in the order in which `PID::operator<` compares them. -/
def orderKey (p : PID) : Bool ×ₗ (Nat ×ₗ String) := toLex (p.external, toLex (p.num, p.isp))

theorem orderKey_injective : Function.Injective orderKey := by
  rintro ⟨i, n, e⟩ ⟨i', n', e'⟩ h
  have h' : (e, toLex (n, i)) = (e', toLex (n', i')) := toLex.injective h
  obtain ⟨rfl, h2⟩ := Prod.mk.inj h'
  obtain ⟨rfl, rfl⟩ := Prod.mk.inj (toLex.injective h2)
  rfl

instance : LinearOrder PID := LinearOrder.lift' orderKey orderKey_injective

end PID

/-! ## Prefixes -/

/-- `AF_INET` and `AF_INET6`. -/
inductive Family where
  | inet
  | inet6
  deriving DecidableEq, Repr

/-- `get_addr_size(family) * 8`. -/
def Family.maxLength : Family → Nat
  | .inet => 32
  | .inet6 => 128

/-- `p4p::IPPrefix`, normalized: `bits` are the first `get_length()` bits of the address in network
byte order, and all bits after them are zero. -/
structure IPPrefix where
  family : Family
  bits : List Bool
  fits : bits.length ≤ family.maxLength
  deriving DecidableEq

namespace IPPrefix

/-- `IPPrefix::get_length`. -/
def length (p : IPPrefix) : Nat := p.bits.length

/-- The raw constructor `IPPrefix(family, address, length)`: the length is cut to the size of the
family's addresses and the bits past it are masked out. -/
def ofRaw (family : Family) (address : List Bool) (length : Nat) : IPPrefix where
  family := family
  bits := (address ++ List.replicate family.maxLength false).take (min length family.maxLength)
  fits := by simp

/-- A single address: a prefix of full length, `p4p::IPAddress`. -/
def IsAddress (p : IPPrefix) : Prop := p.length = p.family.maxLength

instance (p : IPPrefix) : Decidable p.IsAddress := inferInstanceAs (Decidable (_ = _))

/-- `p` contains `q`: same family, and `q` agrees with `p` on the bits of `p`. -/
def Contains (p q : IPPrefix) : Prop := p.family = q.family ∧ p.bits <+: q.bits

instance (p q : IPPrefix) : Decidable (p.Contains q) := inferInstanceAs (Decidable (_ ∧ _))

@[ext] theorem ext' {p q : IPPrefix} (hf : p.family = q.family) (hb : p.bits = q.bits) : p = q := by
  obtain ⟨pf, pb, _⟩ := p
  obtain ⟨qf, qb, _⟩ := q
  cases hf
  cases hb
  rfl

end IPPrefix

end Alto
