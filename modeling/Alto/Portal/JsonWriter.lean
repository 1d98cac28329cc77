import Alto.Lib.Decimal
import Alto.Portal.JsonRead

/-!
# The JSON writer

`json::Writer` (`portal/server/src/infores/json/writer.inl`). The text of a number is that of the stream
and is a parameter of the writer; `writeNumber` is what the stream makes of it.
-/

namespace Alto.Portal.JsonWriter

/-- `Writer::Write_i` for a number: `operator<<` with `std::setprecision(3)`. -/
def writeNumber : Double → List Char
  | .nan => ['n', 'a', 'n']
  | .inf negative => (if negative then ['-'] else []) ++ ['i', 'n', 'f']
  | .fin q => Lib.decimalText 3 q

/-- The characters of `Writer::Write_i` for a string. -/
def escape : Char → List Char
  | '"' => ['\\', '"']
  | '\\' => ['\\', '\\']
  | '\x08' => ['\\', 'b']
  | '\x0c' => ['\\', 'f']
  | '\n' => ['\\', 'n']
  | '\r' => ['\\', 'r']
  | '\t' => ['\\', 't']
  | c => [c]

/-- `Writer::Write_i` for a string. -/
def writeString (s : List Char) : List Char := '"' :: (s.flatMap escape ++ ['"'])

/-- `std::string(m_nTabDepth, '\t')`. -/
def tabs (depth : Nat) : List Char := List.replicate depth '\t'

mutual

/-- `Writer::Write_i` for an element of any type. -/
def write (insert : Double → List Char) (depth : Nat) : JsonValue → List Char
  | .array array =>
    if array.isEmpty then ['[', ']']
    else ['[', '\n'] ++ writeElements insert (depth + 1) array ++ tabs depth ++ [']']
  | .object object =>
    if object.isEmpty then ['{', '}']
    else ['{', '\n'] ++ writeMembers insert (depth + 1) object ++ tabs depth ++ ['}']
  | .number n => insert n
  | .boolean b => if b then ['t', 'r', 'u', 'e'] else ['f', 'a', 'l', 's', 'e']
  | .string s => writeString s
  | .null => ['n', 'u', 'l', 'l']

/-- The loop over the elements of an array. -/
def writeElements (insert : Double → List Char) (depth : Nat) : List JsonValue → List Char
  | [] => []
  | element :: array =>
    tabs depth ++ write insert depth element ++ (if array.isEmpty then [] else [',']) ++ ['\n'] ++
      writeElements insert depth array

/-- The loop over the members of an object. -/
def writeMembers (insert : Double → List Char) (depth : Nat) :
    List (List Char × JsonValue) → List Char
  | [] => []
  | (name, element) :: object =>
    tabs depth ++ writeString name ++ [' ', ':', ' '] ++ write insert depth element ++
      (if object.isEmpty then [] else [',']) ++ ['\n'] ++ writeMembers insert depth object

end

/-- `Writer::Write`. -/
def writeElement (insert : Double → List Char) (element : JsonValue) : List Char :=
  write insert 0 element

end Alto.Portal.JsonWriter
