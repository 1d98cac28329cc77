import Alto.Common.Prefix

/-!
# Reading from and printing to text streams

The extractions of `std::istream` that the portal and its clients use, in the default "C" locale,
and the stream operators of `PID` (`common/cpp/src/lib/pid.cpp`) and `IPPrefix`
(`common/cpp/src/lib/ip_addr.cpp`). A character stands for one byte. The conversions between
addresses and their texts are those of the C library and are a parameter.
-/

namespace Alto

/-- `isspace`. -/
def isSpace (c : Char) : Bool :=
  c == ' ' || c == '\t' || c == '\n' || c == '\x0b' || c == '\x0c' || c == '\r'

/-- A property of the characters of a text is decided on this text, not on all characters. -/
instance (priority := 2000) decidableForallChars (P : Char → Prop) [DecidablePred P]
    (text : List Char) : Decidable (∀ c ∈ text, P c) :=
  List.decidableBAll P text

/-- The text of a C string that starts at these bytes. -/
def cString (bytes : List Char) : List Char :=
  bytes.takeWhile (· != '\x00')

/-- A `std::istream`: the characters that are left, `eofbit` and `failbit`. -/
structure IStream where
  rest : List Char
  eof : Bool := false
  fail : Bool := false
deriving DecidableEq, Repr

namespace IStream

/-- `good()`. -/
def good (is : IStream) : Bool := !is.eof && !is.fail

/-- `clear(std::ios::failbit)`. -/
def clearFail (is : IStream) : IStream := { is with eof := false, fail := true }

/-- The sentry of a formatted extraction, which skips white space: `none` for the stream itself if
there is nothing to extract. -/
def sentry (is : IStream) : Bool × IStream :=
  if is.good then
    let rest := is.rest.dropWhile isSpace
    if rest.isEmpty then (false, { rest, eof := true, fail := true })
    else (true, { is with rest })
  else (false, { is with fail := true })

/-- `operator>>` for a `std::string`. -/
def getString (is : IStream) : Option (List Char) × IStream :=
  match is.sentry with
  | (false, is) => (none, is)
  | (true, is) =>
    let rest := is.rest.dropWhile fun c => !isSpace c
    (some (is.rest.takeWhile fun c => !isSpace c), { is with rest, eof := rest.isEmpty })

/-- `operator>>` for an `unsigned int`: an optional sign and decimal digits. A negative number wraps
around, and one that is too large fails. -/
def getUnsigned (is : IStream) : Option Nat × IStream :=
  match is.sentry with
  | (false, is) => (none, is)
  | (true, is) =>
    let negative := is.rest.head? == some '-'
    let signed := is.rest.head? == some '-' || is.rest.head? == some '+'
    let text := if signed then is.rest.tail else is.rest
    let digits := text.takeWhile Char.isDigit
    let rest := text.dropWhile Char.isDigit
    let value := Nat.ofDigitChars 10 digits 0
    if digits.isEmpty || 2 ^ 32 ≤ value then (none, { rest, eof := rest.isEmpty, fail := true })
    else
      (some (if negative then (2 ^ 32 - value) % 2 ^ 32 else value),
        { is with rest, eof := rest.isEmpty })

/-- `get()`, with `none` for the end of the file. -/
def get (is : IStream) : Option Char × IStream :=
  if is.good then
    match is.rest with
    | [] => (none, { is with eof := true, fail := true })
    | c :: rest => (some c, { is with rest })
  else (none, { is with fail := true })

/-- `getline(buf, n, delim)`, with the characters that are stored. -/
def getline (is : IStream) (n : Nat) (delim : Char) : List Char × IStream :=
  if is.good then
    let buf := (is.rest.take (n - 1)).takeWhile (· != delim)
    match is.rest.drop buf.length with
    | [] => (buf, { rest := [], eof := true, fail := buf.isEmpty })
    | c :: rest =>
      if c = delim then (buf, { is with rest })
      else (buf, { is with rest := c :: rest, fail := true })
  else ([], { is with fail := true })

/-- `operator>>` for a `PID`. -/
def getPID (is : IStream) : Option PID × IStream :=
  match is.getUnsigned with
  | (none, is) => (none, is)
  | (some num, is) =>
    match is.get with
    | (some '.', is) =>
      let (ext, is) := is.getline 2 '.'
      if is.fail then (none, is)
      else if ext = ['i'] ∨ ext = ['e'] then
        match is.getString with
        | (none, is) => (none, is)
        | (some isp, is) => (some ⟨String.ofList isp, num, ext == ['e']⟩, is)
      else (none, is.clearFail)
    | (_, is) => (none, is.clearFail)

/-- `operator>>` for a `PID`, with what its right operand is before and after. -/
def readPID (is : IStream) (rhs : PID) : PID × IStream :=
  match is.getUnsigned with
  | (none, is) => (rhs, is)
  | (some num, is) =>
    match is.get with
    | (some '.', is) =>
      let (ext, is) := is.getline 2 '.'
      if is.fail then (rhs, is)
      else if ext = ['i'] ∨ ext = ['e'] then
        match is.getString with
        | (none, is) => (rhs, is)
        | (some isp, is) => (⟨String.ofList isp, num, ext == ['e']⟩, is)
      else (rhs, is.clearFail)
    | (_, is) => (rhs, is.clearFail)

end IStream

/-! ## Addresses -/

/-- `getaddrinfo` for numeric addresses and `getnameinfo`: the text of an address, and the family and
bits of the address that a text denotes. -/
structure AddressText where
  getaddrinfo : List Char → Option (Family × List Bool)
  getnameinfo : Family → List Bool → List Char

/-- `strtoul` in base 10 on a C string: the value, and what follows the number. Without digits
nothing is read. -/
def strtoul (text : List Char) : Nat × List Char :=
  let start := text.dropWhile isSpace
  let negative := start.head? == some '-'
  let signed := start.head? == some '-' || start.head? == some '+'
  let number := if signed then start.tail else start
  let digits := number.takeWhile Char.isDigit
  let value := Nat.ofDigitChars 10 digits 0
  if digits.isEmpty then (0, text)
  else if 2 ^ 64 ≤ value then (2 ^ 64 - 1, number.dropWhile Char.isDigit)
  else (if negative then (2 ^ 64 - value) % 2 ^ 64 else value, number.dropWhile Char.isDigit)

namespace IPPrefix

/-- The text in front of the last slash, and the one behind it. -/
def splitSlash (address : List Char) : Option (List Char × List Char) :=
  if '/' ∈ address then
    let back := address.reverse.takeWhile (· != '/')
    some (address.take (address.length - back.length - 1), back.reverse)
  else none

/-- `IPPrefix(const std::string&, unsigned short)` with the default length: `none` for
`IPPrefix::INVALID`. -/
def ofText (net : AddressText) (address : List Char) : Option IPPrefix :=
  match splitSlash address with
  | none =>
    (net.getaddrinfo (cString address)).map fun (family, bits) => ofRaw family bits 65535
  | some (addr, []) =>
    (net.getaddrinfo (cString addr)).map fun (family, bits) => ofRaw family bits 65535
  | some (addr, len) =>
    let (length, rest) := strtoul (cString len)
    if rest.isEmpty then
      (net.getaddrinfo (cString addr)).map fun (family, bits) =>
        ofRaw family bits (length % 2 ^ 16)
    else none

/-- `operator<<` for an `IPPrefix`. -/
def toText (net : AddressText) (p : IPPrefix) : List Char :=
  let bits := p.bits ++ List.replicate (p.family.maxLength - p.length) false
  net.getnameinfo p.family bits ++
    if p.length < p.family.maxLength then '/' :: Nat.toDigits 10 p.length else []

end IPPrefix

/-- `operator>>` for an `IPPrefix`. -/
def IStream.getPrefix (net : AddressText) (is : IStream) : Option IPPrefix × IStream :=
  match is.getString with
  | (none, is) => (none, is)
  | (some text, is) =>
    match IPPrefix.ofText net text with
    | none => (none, is.clearFail)
    | some p => (some p, is)

/-- `operator<<` for a `PID`. -/
def PID.toText (p : PID) : List Char :=
  Nat.toDigits 10 p.num ++ (if p.external then ['.', 'e', '.'] else ['.', 'i', '.']) ++ p.isp.toList

/-! ## Casts of tokens -/

/-- `p4p_token_cast<PID>` of a token. Where it is `none` the source writes to a null pointer. -/
def castPID (token : List Char) : Option PID := (IStream.getPID { rest := token }).1

/-- `p4p_token_cast<unsigned int>` of a token. -/
def castUnsigned (token : List Char) : Option Nat := (IStream.getUnsigned { rest := token }).1

/-- `p4p_token_cast<IPPrefix>` of a token. -/
def castPrefix (net : AddressText) (token : List Char) : Option IPPrefix :=
  (IStream.getPrefix net { rest := token }).1

end Alto
