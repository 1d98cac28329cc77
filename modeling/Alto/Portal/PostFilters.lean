import Alto.Portal.InfoRes
import Alto.Portal.JsonRead

/-!
# The filters of a request

The functions `readJson` of `portal/server/src/infores/post_filters.cpp`. All casts of elements in
them are to references that are not constant, and such a cast puts an empty value of its type in the
place of an element of another type. The type of a member stays the one that it was parsed with. What
a filter has read before it is rejected is left out.
-/

namespace Alto.Portal

open Lib

namespace JsonValue

/-- The object of a member of the type `ET_OBJECT`. -/
def object? : JsonValue → Option JsonObject
  | .object members => some members
  | _ => none

/-- The array of a member of the type `ET_ARRAY`. -/
def array? : JsonValue → Option (List JsonValue)
  | .array elements => some elements
  | _ => none

/-- The string of a member of the type `ET_STRING`. -/
def string? : JsonValue → Option (List Char)
  | .string s => some s
  | _ => none

/-- `UnknownElement::operator String&`. -/
def toString : JsonValue → List Char
  | .string s => s
  | _ => []

end JsonValue

/-- What `readJson` comes to: `E_OK` with what the filter has read, another code, an exception, or
undefined behaviour. -/
inductive ReadJson (T : Type) where
  | ok (filter : T)
  | error (code : ALTOErrorCode)
  | exception
  | undefined

namespace ReadJson

variable {T U : Type}

protected def bind : ReadJson T → (T → ReadJson U) → ReadJson U
  | ok x, f => f x
  | error code, _ => error code
  | exception, _ => exception
  | undefined, _ => undefined

instance : Monad ReadJson where
  pure := ok
  bind := ReadJson.bind

end ReadJson

namespace PostFilter

/-- The start of every `readJson`. -/
def readJson {T : Type} (extract : List Char → Option Double) (jsonStr : List Char)
    (read : JsonObject → ReadJson T) : ReadJson T :=
  match JsonReader.readObject extract jsonStr with
  | .ok obj => read obj
  | .exception => .error .syntaxError
  | .undefined => .undefined

/-- The checks that an object has a member and that the member has a type. -/
def member {T : Type} (obj : JsonObject) (name : String) (ofType : JsonValue → Option T) :
    ReadJson T :=
  match obj.lookup name.toList with
  | none => .error .jsonFieldMissing
  | some element =>
    match ofType element with
    | none => .error .jsonValueType
    | some x => .ok x

/-- `PostFilter::readConstraints` for the object of a request, and the array that it has read. -/
def readConstraintsOf (strtod : List Char → Double) (obj : JsonObject) :
    ReadJson (Option (List (List Char))) :=
  match obj.lookup "constraints".toList with
  | none => .ok none
  | some element =>
    match element.array? with
    | none => .error .jsonValueType
    | some array =>
      match readConstraints strtod (some (array.map JsonValue.toString)) with
      | none => .exception
      | some _ => .ok (some (array.map JsonValue.toString))

/-- The strings that a loop over an array inserts into a set. -/
def strings (array : List JsonValue) : StdSet String :=
  array.foldl (fun set element => set.insert (String.ofList element.toString)) ∅

/-- `JsonPIDMatrix::readJson` and `JsonEndPointsCost::readJson`, which differ in the name of the
member with the sources and destinations. -/
def readCost (strtod : List Char → Double) (field : String) (obj : JsonObject) :
    ReadJson CostFilter := do
  let costMode ← member obj "cost-mode" JsonValue.string?
  let costType ← member obj "cost-type" JsonValue.string?
  let mat ← member obj field JsonValue.object?
  let constraints ← readConstraintsOf strtod obj
  let srcs ← member mat "srcs" JsonValue.array?
  let dsts ← member mat "dsts" JsonValue.array?
  return {
    costMode := String.ofList costMode
    costType := String.ofList costType
    constraints
    srcs := strings srcs
    dsts := strings dsts }

end PostFilter

open PostFilter

/-- What `JsonEndPointsProperty::readJson` reads from a request. -/
structure JsonEndPointsProperty where
  properties : StdSet String
  endPoints : StdSet String

/-- `JsonPIDSet::readJson`. -/
def JsonPIDSet.readJson (extract : List Char → Option Double) (jsonStr : List Char) :
    ReadJson (StdSet String) :=
  PostFilter.readJson extract jsonStr fun obj => do
    let array ← member obj "pids" JsonValue.array?
    return strings array

/-- `JsonPIDMatrix::readJson`. -/
def JsonPIDMatrix.readJson (extract : List Char → Option Double) (strtod : List Char → Double)
    (jsonStr : List Char) : ReadJson CostFilter :=
  PostFilter.readJson extract jsonStr (readCost strtod "pids")

/-- `JsonEndPointsProperty::readJson`. -/
def JsonEndPointsProperty.readJson (extract : List Char → Option Double) (jsonStr : List Char) :
    ReadJson JsonEndPointsProperty :=
  PostFilter.readJson extract jsonStr fun obj => do
    let array ← member obj "properties" JsonValue.array?
    let array2 ← member obj "endpoints" JsonValue.array?
    return { properties := strings array, endPoints := strings array2 }

/-- `JsonEndPointsCost::readJson`. -/
def JsonEndPointsCost.readJson (extract : List Char → Option Double) (strtod : List Char → Double)
    (jsonStr : List Char) : ReadJson CostFilter :=
  PostFilter.readJson extract jsonStr (readCost strtod "endpoints")

end Alto.Portal
