import Alto.Portal.AltoHandlers
import Alto.Portal.PostFilters

/-!
# Answers to ALTO requests

How the handlers of `portal/server/src/protocol/rest/rest_request_handlers_json.cpp` come to their
responses: the locks that they try, the exceptions and the clauses that catch them, and the pointers
that can be null. What they put into a response is computed in `AltoHandlers`. The handlers run in
`REST_AccessHandlerCallback` of `common-server/src/lib/protocol_server_rest.cpp`.
-/

namespace Alto.Portal

open Lib

/-! ## Handlers -/

/-- The classes that are thrown or named in a `catch` clause. `TryReadLock` is a lock and not the base
of an exception. -/
inductive Thrown where
  | tryLockFailed
  | tryReadLock
  | outOfRange
deriving DecidableEq, Repr

/-- A response that is set for a request: a callback that writes what the handler has stored, the text
of an ALTO error, or only a status. -/
inductive Reply (T : Type) where
  | callback (data : Option T)
  | error (code : ALTOErrorCode)
  | empty (status : Nat)
deriving DecidableEq, Repr

/-- `RESTRequestState`, as far as it concerns the answer: the string that the handler has stored, and
the responses that have been set. The attempts of a callback to lock an object are counted. -/
structure Answering (T : Type) where
  data : Option T := none
  attempts : Nat := 0
  responses : List (Reply T) := []
deriving DecidableEq, Repr

/-- How a callback ends. -/
inductive Ending (T A : Type) where
  | returned (value : A) (state : Answering T)
  | threw (thrown : Thrown) (state : Answering T)
  | undefined
deriving DecidableEq, Repr

/-- A part of a callback. -/
def Handler (T A : Type) := Answering T → Ending T A

namespace Handler

variable {T A B : Type}

/-- What comes after a value that has been returned. -/
def andThen (f : A → Handler T B) : Ending T A → Ending T B
  | .returned value state => f value state
  | .threw thrown state => .threw thrown state
  | .undefined => .undefined

instance : Monad (Handler T) where
  pure value := fun state => .returned value state
  bind p f := fun state => andThen f (p state)

def modify (f : Answering T → Answering T) : Handler T Unit := fun state => .returned () (f state)

def throw (thrown : Thrown) : Handler T A := fun state => .threw thrown state

def undefined : Handler T A := fun _ => .undefined

/-- A value, or an exception if there is none. -/
def ofOption (thrown : Thrown) : Option A → Handler T A
  | some value => pure value
  | none => throw thrown

/-- A `try` block with a `catch` clause. -/
def catching (caught : Thrown) (p handler : Handler T A) : Handler T A := fun state =>
  match p state with
  | .threw thrown state => if thrown = caught then handler state else .threw thrown state
  | ending => ending

end Handler

/-! ## Responses -/

open Handler

variable {T : Type}

/-- `RESTRequestState::set_response`. -/
def setResponse (response : Reply T) : Handler T Unit :=
  modify fun state => { state with responses := state.responses ++ [response] }

/-- `RESTHandler::ReplyError`. -/
def replyError (code : ALTOErrorCode) : Handler T Unit := setResponse (.error code)

/-- `RESTRequestState::set_empty_response`. -/
def setEmptyResponse (status : Nat) : Handler T Unit := setResponse (.empty status)

/-- `RESTRequestState::set_callback_response`. -/
def setCallbackResponse : Handler T Unit := fun state => setResponse (.callback state.data) state

/-- `MakeJsonStr`, which stores the string that the response is written from. -/
def store (data : T) : Handler T Unit := modify fun state => { state with data := some data }

/-! ## Locks -/

/-- What a callback comes upon: the view that the request names, if it is registered, and which of
its attempts to lock an object succeed. -/
structure Scene where
  view : Option ViewState
  granted : Nat → Bool

/-- The constructor of a `TryReadLock`. -/
def tryReadLock (scene : Scene) : Handler T Unit := fun state =>
  let state' := { state with attempts := state.attempts + 1 }
  if scene.granted state.attempts then .returned () state' else .threw .tryLockFailed state'

/-- The locks of a number of objects. -/
def tryReadLocks (scene : Scene) : Nat → Handler T Unit
  | 0 => pure ()
  | n + 1 => do
    tryReadLock scene
    tryReadLocks scene n

/-- The constructor of `GlobalView`, which locks the global state and the registry. -/
def globalView (scene : Scene) : Handler T (Option ViewState) := do
  tryReadLocks scene 2
  return scene.view

/-- The common `try` block of the handlers: the view is looked up and locked with `ViewWrapper`, and
read. There is no value if the handler returns in it. -/
def withView {A : Type} (locks : Nat) (caught : Thrown) (scene : Scene)
    (read : ViewState → Handler T A) : Handler T (Option A) :=
  catching caught
    (do
      match ← globalView scene with
      | none => do
        replyError .serviceUnavailable
        return none
      | some view => do
        tryReadLocks scene locks
        return some (← read view))
    (do
      setEmptyResponse 500
      return none)

/-- The locks of `GetNetMapViewState` and `GetNetMapFilteredViewState`. -/
def netMapLocks : Nat := 3

/-- The locks of `GetCostMapViewState` and `GetEndPointsViewState`. -/
def viewLocks : Nat := 7

namespace RESTHandler

/-- The string of a resource is stored, and a response set that writes it. -/
def respond : Option T → Handler T Unit
  | none => pure ()
  | some data => do
    store data
    setCallbackResponse

/-- The start of a handler that reads a filter. -/
def withFilter {F : Type} (read : ReadJson F) (finish : F → Handler T Unit) : Handler T Unit :=
  match read with
  | .ok filter => finish filter
  | .error code => replyError code
  | .exception => throw .outOfRange
  | .undefined => undefined

/-- The checks of the cost mode and the cost type. -/
def withCost (costMode costType : String) (finish : Handler T Unit) : Handler T Unit :=
  if costMode ∉ costModeSet then replyError .invalidCostMode
  else if costType ∉ costTypeSet then replyError .invalidCostType
  else finish

/-! ## Network maps -/

/-- `RESTHandler::GetNetMapProcess`. Its clause catches `TryReadLock`. -/
def getNetMapProcess (net : AddressText) (scene : Scene) : Handler NetworkMapData Unit := do
  match ← withView netMapLocks .tryReadLock scene (fun view =>
    pure ((view.prefixes.enumerate []).foldl (netMapTurn net view) {}).commit) with
  | none => return ()
  | some netmap => store netmap

/-- `RESTHandler::GetNetMapFinish`. -/
def getNetMapFinish : Handler NetworkMapData Unit := setCallbackResponse

/-- `RESTHandler::GetNetMapFilteredFinish`. Its clause catches `TryReadLock`, too. -/
def getNetMapFilteredFinish (extract : List Char → Option Double) (net : AddressText)
    (filter : List Char) (scene : Scene) : Handler NetworkMapData Unit :=
  withFilter (JsonPIDSet.readJson extract filter) fun pidSet => do
    respond (← withView netMapLocks .tryReadLock scene (fun view =>
      pure ((view.prefixes.enumerate []).foldl (netMapFilteredTurn net pidSet view) {}).commit))

/-! ## Cost maps -/

/-- `RESTHandler::GetCostMapFinish`. -/
def getCostMapFinish (ar : Arith) (vtag costMode costType : String) (scene : Scene) :
    Handler (List Char) Unit :=
  withCost costMode costType do
    respond (← withView viewLocks .tryLockFailed scene (fun view =>
      let all := pidSetOf view.prefixes.enumerateValues
      pure (makeJsonStr
        ((costMapLoop view costMode (fun _ => true) all all).commit ar costMode costType vtag))))

/-- `RESTHandler::GetCostMapFilteredFinish`. -/
def getCostMapFilteredFinish (ar : Arith) (vtag : String) (extract : List Char → Option Double)
    (strtod : List Char → Double) (filter : List Char) (scene : Scene) :
    Handler (List Char) Unit :=
  withFilter (JsonPIDMatrix.readJson extract strtod filter) fun pidMat => do
    let constraints ← ofOption .outOfRange (PostFilter.readConstraints strtod pidMat.constraints)
    withCost pidMat.costMode pidMat.costType do
      respond (← withView viewLocks .tryLockFailed scene (fun view =>
        pure (makeJsonStr ((costMapLoop view pidMat.costMode constraints.inConstraints
          (lookupSet view pidMat.srcs) (lookupSet view pidMat.dsts)).commit ar pidMat.costMode
            pidMat.costType vtag))))

/-! ## Endpoints -/

/-- The loop of `GetEndPointsPropertyFinish` over the properties. -/
def propertyLoop (net : AddressText) (behind : Behind) (scene : Scene)
    (endPoints : StdSet String) : List String → EndPointsProperty →
    Handler EndPointsProperty (Option EndPointsProperty)
  | [], epp => pure (some epp)
  | type :: properties, epp =>
    if type ∉ endPointsPropertySet then do
      replyError .invalidPropertyType
      return none
    else do
      match ← withView viewLocks .tryLockFailed scene (fun view => ofOption .outOfRange
        (endPoints.toList.foldlM (endPointTurn net behind view type) epp)) with
      | none => return none
      | some epp => propertyLoop net behind scene endPoints properties epp

/-- `RESTHandler::GetEndPointsPropertyFinish`. -/
def getEndPointsPropertyFinish (extract : List Char → Option Double) (net : AddressText)
    (behind : Behind) (filter : List Char) (scene : Scene) : Handler EndPointsProperty Unit :=
  withFilter (JsonEndPointsProperty.readJson extract filter) fun jsonEpp => do
    respond (← propertyLoop net behind scene jsonEpp.endPoints jsonEpp.properties.toList ∅)

/-- The PID of an endpoint, or a null pointer. -/
def lookup (net : AddressText) (behind : Behind) (view : ViewState) (endPoint : String) :
    Handler T (Option PID) := do
  let ip ← ofOption .outOfRange (PostFilter.stripIP endPoint.toList)
  return view.lookup net behind ip

/-- A pointer is followed. -/
def deref : Option PID → Handler T PID
  | none => undefined
  | some pid => pure pid

/-- The inner loop of `GetEndPointsCostFinish`. -/
def endPointCostTurn (net : AddressText) (behind : Behind) (view : ViewState) (costMode : String)
    (test : Double → Bool) (src : String) (srcPid : Option PID) (epcost : CostMatrix)
    (dst : String) : Handler T CostMatrix := do
  let dstPid ← lookup net behind view dst
  let srcPid ← deref srcPid
  let dstPid ← deref dstPid
  match view.cost costMode srcPid dstPid with
  | none => return epcost
  | some cost => return if test cost then epcost.addCost src dst cost else epcost

/-- The loops of `GetEndPointsCostFinish`. -/
def endPointCostLoop (net : AddressText) (behind : Behind) (view : ViewState) (costMode : String)
    (test : Double → Bool) (srcs dsts : StdSet String) : Handler T CostMatrix :=
  srcs.toList.foldlM (fun epcost src => do
    let srcPid ← lookup net behind view src
    dsts.toList.foldlM (endPointCostTurn net behind view costMode test src srcPid) epcost) ∅

/-- `RESTHandler::GetEndPointsCostFinish`. -/
def getEndPointsCostFinish (ar : Arith) (vtag : String) (extract : List Char → Option Double)
    (strtod : List Char → Double) (net : AddressText) (behind : Behind) (filter : List Char)
    (scene : Scene) : Handler (List Char) Unit :=
  withFilter (JsonEndPointsCost.readJson extract strtod filter) fun jsonEpcost => do
    let constraints ← ofOption .outOfRange
      (PostFilter.readConstraints strtod jsonEpcost.constraints)
    withCost jsonEpcost.costMode jsonEpcost.costType do
      respond (← withView viewLocks .tryLockFailed scene (fun view => do
        let epcost ← endPointCostLoop net behind view jsonEpcost.costMode constraints.inConstraints
          jsonEpcost.srcs jsonEpcost.dsts
        return makeJsonStr (epcost.commit ar jsonEpcost.costMode jsonEpcost.costType vtag)))

/-! ## The server -/

/-- A callback is not called when there is a response. -/
def unlessAnswered (callback : Handler T Unit) : Handler T Unit := fun state =>
  if state.responses.isEmpty then callback { state with attempts := 0 } else .returned () state

/-- `REST_AccessHandlerCallback`: each call has the body processed, and the last one finishes the
request. -/
def serve (process finish : Scene → Handler T Unit) : List Scene → Scene → Handler T Unit
  | [], scene => do
    unlessAnswered (process scene)
    unlessAnswered (finish scene)
  | scene :: scenes, last => do
    unlessAnswered (process scene)
    serve process finish scenes last

/-- The process callbacks of the other handlers set no response. -/
def noProcess : Scene → Handler T Unit := fun _ => pure ()

end RESTHandler

end Alto.Portal
