import Alto.Server.ContentReader

/-!
# The responses of the ALTO handlers

The `Write` callbacks of `portal/server/src/protocol/rest/rest_request_handlers_json.cpp`. They have
the same body and differ only in the member that holds the text.
-/

namespace Alto.Portal

open Server

/-- The members `len`, `pos` and the stored text of a handler's state. Both numbers are of the type
`int`; `pos` is always the mark of a stream and so never negative. -/
structure JsonResponse where
  text : List Char
  len : Int
  pos : Nat := 0
deriving DecidableEq, Repr

/-- A stored text, with `data->len = text.size()`. -/
def JsonResponse.store (text : List Char) : JsonResponse where
  text := text
  len := (text.length : Int).bmod (2 ^ 32)

/-- The common body of the `Write` callbacks. -/
def JsonResponse.write (data : JsonResponse) (max : Nat) : JsonResponse × Option (List Char) :=
  if data.len ≤ data.pos then (data, none)
  else
    let rsp := ResponseStream.put { size := max } (cString (data.text.drop data.pos))
    if rsp.good then
      let rsp := rsp.setMark
      ({ data with pos := rsp.mark }, some rsp.marked)
    else ({ data with pos := rsp.mark }, some rsp.marked)

/-- `RESTHandler::GetIRDWrite`, with the text `ird`. -/
def getIRDWrite := JsonResponse.write

/-- `RESTHandler::GetNetMapWrite`, with the text `net_map`. -/
def getNetMapWrite := JsonResponse.write

/-- `RESTHandler::GetNetMapFilteredWrite`, with the text `net_map`. -/
def getNetMapFilteredWrite := JsonResponse.write

/-- `RESTHandler::GetCostMapWrite`, with the text `cost_map`. -/
def getCostMapWrite := JsonResponse.write

/-- `RESTHandler::GetCostMapFilteredWrite`, with the text `cost_map`. -/
def getCostMapFilteredWrite := JsonResponse.write

/-- `RESTHandler::GetEndPointsPropertyWrite`, with the text `end_property`. -/
def getEndPointsPropertyWrite := JsonResponse.write

/-- `RESTHandler::GetEndPointsCostWrite`, with the text `end_cost`. -/
def getEndPointsCostWrite := JsonResponse.write

/-- The handlers that answer with a stored text. -/
inductive JsonHandler where
  | ird
  | netMap
  | netMapFiltered
  | costMap
  | costMapFiltered
  | endPointsProperty
  | endPointsCost
deriving DecidableEq, Repr

/-- The `Write` callback of a handler. -/
def JsonHandler.write : JsonHandler → JsonResponse → Nat → JsonResponse × Option (List Char)
  | ird => getIRDWrite
  | netMap => getNetMapWrite
  | netMapFiltered => getNetMapFilteredWrite
  | costMap => getCostMapWrite
  | costMapFiltered => getCostMapFilteredWrite
  | endPointsProperty => getEndPointsPropertyWrite
  | endPointsCost => getEndPointsCostWrite

/-- The response to a request whose handler has stored this text, with output blocks of these
sizes. -/
def JsonHandler.respond (handler : JsonHandler) (body : List Char) (sizes : List Nat) :
    Option (List Char) :=
  ContentReaderState.respond handler.write { callbackData := JsonResponse.store body } sizes

end Alto.Portal
