import Alto.Common.Double
import Alto.Common.IStream

/-!
# The JSON reader

`json::Reader` (`portal/server/src/infores/json/reader.inl`) with the elements that it makes
(`elements.h`). The messages and places in its exceptions are left out: `none` is an exception. The
conversion of the text of a number is that of `std::istringstream` and is a parameter.
-/

namespace Alto.Portal

/-- `json::UnknownElement`. A member of an object has its name. -/
inductive JsonValue where
  | object (members : List (List Char × JsonValue))
  | array (elements : List JsonValue)
  | number (n : Double)
  | boolean (b : Bool)
  | string (s : List Char)
  | null

/-- `json::Object`. -/
abbrev JsonObject := List (List Char × JsonValue)

/-- `Reader::Token`, with the text of a string or a number. -/
inductive JsonToken where
  | objectBegin
  | objectEnd
  | arrayBegin
  | arrayEnd
  | nextElement
  | memberAssign
  | string (s : List Char)
  | number (s : List Char)
  | boolean (b : Bool)
  | null
deriving DecidableEq

/-- What `Reader::Read` comes to. -/
inductive JsonRead (T : Type) where
  | ok (x : T)
  | exception
  | undefined

namespace JsonReader

/-! ## Scanning -/

/-- `Reader::MatchExpectedString`: what is left of the input. -/
def matchExpectedString : List Char → List Char → Option (List Char)
  | [], input => some input
  | _ :: _, [] => none
  | e :: expected, c :: input => if c = e then matchExpectedString expected input else none

/-- The escape sequences. -/
def unescape : Char → Option Char
  | '/' => some '/'
  | '"' => some '"'
  | '\\' => some '\\'
  | 'b' => some '\x08'
  | 'f' => some '\x0c'
  | 'n' => some '\n'
  | 'r' => some '\r'
  | 't' => some '\t'
  | _ => none

/-- `Reader::MatchString` behind the first quotation mark, with the string so far. -/
def matchString : List Char → List Char → Option (List Char × List Char)
  | [], _ => none
  | ['\\'], _ => none
  | '"' :: input, string => some (string, input)
  | '\\' :: c :: input, string =>
    match unescape c with
    | none => none
    | some e => matchString input (string ++ [e])
  | c :: input, string => matchString input (string ++ [c])

/-- The set of characters in `Reader::MatchNumber`. The array ends with a zero. -/
def isNumeric (c : Char) : Bool := "0123456789.eE-+\x00".toList.contains c

/-- The characters that a number starts with. -/
def startsNumber (c : Char) : Bool := "-0123456789".toList.contains c

/-- A pass of the loop of `Reader::Scan`: the token, and what is left of the input. -/
def scanToken : List Char → Option (JsonToken × List Char)
  | [] => none
  | '{' :: input => some (.objectBegin, input)
  | '}' :: input => some (.objectEnd, input)
  | '[' :: input => some (.arrayBegin, input)
  | ']' :: input => some (.arrayEnd, input)
  | ',' :: input => some (.nextElement, input)
  | ':' :: input => some (.memberAssign, input)
  | '"' :: input => (matchString input []).map fun (s, input) => (.string s, input)
  | c :: input =>
    if startsNumber c then
      some (.number ((c :: input).takeWhile isNumeric), (c :: input).dropWhile isNumeric)
    else if c = 't' then
      (matchExpectedString "true".toList (c :: input)).map fun input => (.boolean true, input)
    else if c = 'f' then
      (matchExpectedString "false".toList (c :: input)).map fun input => (.boolean false, input)
    else if c = 'n' then
      (matchExpectedString "null".toList (c :: input)).map fun input => (.null, input)
    else none

/-- The loop of `Reader::Scan`, which skips white space. Every pass takes a character. -/
def scanLoop : Nat → List Char → Option (List JsonToken)
  | 0, input => if input.dropWhile isSpace = [] then some [] else none
  | fuel + 1, input =>
    if input.dropWhile isSpace = [] then some []
    else do
      let (token, input) ← scanToken (input.dropWhile isSpace)
      let tokens ← scanLoop fuel input
      return token :: tokens

/-- `Reader::Scan`. -/
def scan (input : List Char) : Option (List JsonToken) := scanLoop input.length input

/-! ## Parsing -/

mutual

/-- `Reader::Parse` for an element of any type. -/
def parse (extract : List Char → Option Double) :
    Nat → List JsonToken → Option (JsonValue × List JsonToken)
  | 0, _ => none
  | _ + 1, [] => none
  | fuel + 1, token :: tokens =>
    match token with
    | .objectBegin => (parseObject extract fuel tokens).map fun (o, tokens) => (.object o, tokens)
    | .arrayBegin => (parseArray extract fuel tokens).map fun (a, tokens) => (.array a, tokens)
    | .string s => some (.string s, tokens)
    | .number s => (extract s).map fun n => (.number n, tokens)
    | .boolean b => some (.boolean b, tokens)
    | .null => some (.null, tokens)
    | _ => none

/-- `Reader::Parse` for an object, behind the token that begins it. -/
def parseObject (extract : List Char → Option Double) :
    Nat → List JsonToken → Option (JsonObject × List JsonToken)
  | 0, _ => none
  | _ + 1, .objectEnd :: tokens => some ([], tokens)
  | fuel + 1, tokens => parseMembers extract fuel [] tokens

/-- The loop over the members, with those inserted so far. A second member of a name is an error. -/
def parseMembers (extract : List Char → Option Double) :
    Nat → JsonObject → List JsonToken → Option (JsonObject × List JsonToken)
  | fuel + 1, object, .string name :: .memberAssign :: tokens =>
    match parse extract fuel tokens with
    | none => none
    | some (element, tokens) =>
      if name ∈ object.map (·.1) then none
      else
        match tokens with
        | .nextElement :: tokens => parseMembers extract fuel (object ++ [(name, element)]) tokens
        | .objectEnd :: tokens => some (object ++ [(name, element)], tokens)
        | _ => none
  | _, _, _ => none

/-- `Reader::Parse` for an array, behind the token that begins it. -/
def parseArray (extract : List Char → Option Double) :
    Nat → List JsonToken → Option (List JsonValue × List JsonToken)
  | 0, _ => none
  | _ + 1, .arrayEnd :: tokens => some ([], tokens)
  | fuel + 1, tokens => parseElements extract fuel [] tokens

/-- The loop over the elements, with those inserted so far. -/
def parseElements (extract : List Char → Option Double) :
    Nat → List JsonValue → List JsonToken → Option (List JsonValue × List JsonToken)
  | 0, _, _ => none
  | fuel + 1, array, tokens =>
    match parse extract fuel tokens with
    | none => none
    | some (element, .nextElement :: tokens) =>
      parseElements extract fuel (array ++ [element]) tokens
    | some (element, .arrayEnd :: tokens) => some (array ++ [element], tokens)
    | some _ => none

end

/-- `Reader::Read` for an element of any type. Without a token, `TokenStream::Peek` follows the
`rbegin()` of an empty vector. -/
def readElement (extract : List Char → Option Double) (input : List Char) : JsonRead JsonValue :=
  match scan input with
  | none => .exception
  | some [] => .undefined
  | some tokens =>
    match parse extract (3 * tokens.length) tokens with
    | some (element, []) => .ok element
    | _ => .exception

/-- `Reader::Read` for an object. -/
def readObject (extract : List Char → Option Double) (input : List Char) : JsonRead JsonObject :=
  match scan input with
  | none => .exception
  | some [] => .undefined
  | some (.objectBegin :: tokens) =>
    match parseObject extract (3 * tokens.length) tokens with
    | some (object, []) => .ok object
    | _ => .exception
  | some _ => .exception

end JsonReader

end Alto.Portal
