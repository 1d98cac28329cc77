import Mathlib
import Alto.Lib.LessMap
import Alto.Common.IStream

/-!
# The bytes of an IP prefix

`p4p::IPPrefix` as it lies in storage (`common/cpp/src/lib/ip_addr.cpp`): the family, the 16 bytes of
the union of an `in_addr` and an `in6_addr`, and the length. The constructor from a text does not
initialize the union; what its storage held before is an argument of the model. The conversions
between addresses and their texts are those of the C library and are a parameter, with the bits of an
address in network byte order.
-/

namespace Alto

/-! ## Bytes -/

abbrev Byte := BitVec 8

/-- The 16 bytes of the union `IPPrefix::Address`. -/
abbrev Storage := Fin 16 → Byte

namespace Storage

/-- `memset(buf + start, value, n)`. -/
def memset (buf : Storage) (start : Nat) (value : Byte) (n : Nat) : Storage := fun i =>
  if start ≤ i ∧ i < start + n then value else buf i

/-- `memcpy(buf, src, n)`. -/
def memcpy (buf src : Storage) (n : Nat) : Storage := fun i =>
  if i < n then src i else buf i

/-- `buf[i] = f(buf[i])`. -/
def modify (buf : Storage) (i : Nat) (f : Byte → Byte) : Storage := fun j =>
  if j = i then f (buf j) else buf j

/-- `memcmp(lhs, rhs, sizeof(address_))`: the difference of the first bytes that differ. -/
def memcmp (lhs rhs : Storage) : Int :=
  match (List.finRange 16).find? fun i => lhs i != rhs i with
  | none => 0
  | some i => (lhs i).toNat - (rhs i).toNat

/-- `mask_bits`. The partial byte is computed as an `int`. -/
def maskBits (buf : Storage) (len bits : Nat) : Storage :=
  let i := bits / 8
  if len ≤ i then buf
  else
    let buf := buf.modify i fun b => (b.setWidth 32 &&& 0xFF#32 <<< (8 - bits % 8)).setWidth 8
    buf.memset (i + 1) 0 (len - (i + 1))

/-- The bits of an address, from the first one on. -/
def bit (buf : Storage) (k : Nat) : Bool :=
  if h : k / 8 < 16 then (buf ⟨k / 8, h⟩).getMsbD (k % 8) else false

/-- An address of the C library. -/
def ofBits (bits : List Bool) : Storage := fun i =>
  (BitVec.ofBoolListBE ((List.range 8).map fun j => bits.getD (8 * i + j) false)).cast (by simp)

end Storage

/-! ## Prefixes -/

/-- `AF_UNSPEC`. -/
def afUnspec : Int := 0

/-- `AF_INET` and `AF_INET6`. -/
def Family.toInt : Family → Int
  | .inet => 2
  | .inet6 => 10

/-- `get_addr_size`, with `USHRT_MAX` for families that are not known. -/
def getAddrSize (family : Int) : Nat :=
  if family = afUnspec then 0
  else if family = Family.inet.toInt then 4
  else if family = Family.inet6.toInt then 16
  else 65535

/-- The members of `IPPrefix`. -/
structure RawPrefix where
  family : Int
  address : Storage
  length : Nat
  deriving DecidableEq

namespace RawPrefix

/-- `IPPrefix::IPPrefix()`, and `IPPrefix::INVALID`. -/
def invalid : RawPrefix := ⟨afUnspec, fun _ => 0, 0⟩

/-- `IPPrefix::normalize`. -/
def normalize (p : RawPrefix) : RawPrefix :=
  if p.family = Family.inet.toInt then { p with address := p.address.maskBits 4 p.length }
  else if p.family = Family.inet6.toInt then { p with address := p.address.maskBits 16 p.length }
  else p

/-- `IPPrefix::IPPrefix(int, const void*, unsigned short)`: `none` where it throws. -/
def ofRaw (family : Int) (address : Option Storage) (length : Nat) : Option RawPrefix :=
  let addrSize := getAddrSize family
  if addrSize = 65535 then none
  else
    let p : RawPrefix := ⟨family, fun _ => 0, min length (addrSize * 8)⟩
    match address with
    | none => some p
    | some address => some { p with address := p.address.memcpy address addrSize }.normalize

/-- What `IPPrefix::IPPrefix(const std::string&, unsigned short)` does with the part of the text that is
the address. -/
def ofAddress (net : AddressText) (storage : Storage) (addr : List Char) (length : Nat) :
    RawPrefix :=
  match net.getaddrinfo (cString addr) with
  | none => invalid
  | some (family, bits) =>
    let addrSize := getAddrSize family.toInt
    normalize ⟨family.toInt, storage.memcpy (.ofBits bits) addrSize, min length (addrSize * 8)⟩

/-- `IPPrefix::IPPrefix(const std::string&, unsigned short)` in storage with these contents. -/
def ofText (net : AddressText) (storage : Storage) (address : List Char) (length : Nat) :
    RawPrefix :=
  match IPPrefix.splitSlash address with
  | none => ofAddress net storage address length
  | some (addr, []) => ofAddress net storage addr 65535
  | some (addr, len) =>
    let (length, rest) := strtoul (cString len)
    if rest.isEmpty then ofAddress net storage addr (length % 2 ^ 16)
    else invalid

/-- `IPPrefix::compare_dst`. -/
def compareDst (p rhs : RawPrefix) : Int :=
  if p.family ≠ rhs.family then p.family - rhs.family
  else if p.length ≠ rhs.length then p.length - rhs.length
  else p.address.memcmp rhs.address

/-- `operator==`. -/
def eq (p rhs : RawPrefix) : Bool := p.compareDst rhs == 0

/-- `operator<`. -/
def less (p rhs : RawPrefix) : Bool := p.compareDst rhs < 0

/-- `operator<<`: `none` where it throws, which it does for a prefix without a family. -/
def toText (net : AddressText) (p : RawPrefix) : Option (List Char) :=
  let print (family : Family) :=
    net.getnameinfo family ((List.range family.maxLength).map p.address.bit) ++
      if p.length < getAddrSize p.family * 8 then '/' :: Nat.toDigits 10 p.length else []
  if p.family = Family.inet.toInt then some (print .inet)
  else if p.family = Family.inet6.toInt then some (print .inet6)
  else none

/-- `std::map<IPPrefix, V>`, filled by one `insert` after the other. A `std::set<IPPrefix>` is one
without values. -/
def insertAll {V : Type} (entries : List (RawPrefix × V)) : Lib.LessMap RawPrefix V :=
  entries.foldl (fun m e => if (Lib.LessMap.find less m e.1).isSome then m
    else Lib.LessMap.add less m e.1 e.2) []

/-- A call of one of the constructors. -/
inductive Construction where
  | default
  | raw (family : Int) (address : Option Storage) (length : Nat)
  | text (storage : Storage) (address : List Char) (length : Nat)

/-- The prefix that is constructed, unless the constructor throws. -/
def Construction.build (net : AddressText) : Construction → Option RawPrefix
  | .default => some invalid
  | .raw family address length => ofRaw family address length
  | .text storage address length => some (ofText net storage address length)

/-- What the storage holds when the address is copied into it: the other constructors clear it
first. -/
def Construction.storage : Construction → Storage
  | .text storage _ _ => storage
  | _ => fun _ => 0

end RawPrefix

/-- `operator>>` for an `IPPrefix`, with what its right operand is before and after. The prefix is
made in storage with these contents. -/
def IStream.readPrefix (net : AddressText) (storage : Storage) (is : IStream) (rhs : RawPrefix) :
    RawPrefix × IStream :=
  match is.getString with
  | (none, is) => (rhs, is)
  | (some text, is) =>
    let rhs := RawPrefix.ofText net storage text 65535
    (rhs, if rhs.eq .invalid then is.clearFail else is)

end Alto
