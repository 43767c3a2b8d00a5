import ColumnFunctions.Http.Coding
import ColumnFunctions.Http.MediaType
import ColumnFunctions.Message
import ColumnFunctions.Service

namespace ColumnFunctions.Http

structure Server where
  surroundings : Surroundings
  maxBatchRows : Nat

inductive Route where
  | invoke
  | health
  deriving DecidableEq, Repr

namespace Route

def ofPath? : String → Option Route
  | "/invoke" => some .invoke
  | "/health" => some .health
  | _ => none

def methods : Route → List String
  | .invoke => ["POST"]
  | .health => ["GET", "HEAD"]

end Route

namespace Response

def ofReport (status : Nat) (r : ErrorReport) : Response := json status r.toValue

def ofFailure (f : Failure) : Response := ofReport f.status (.ofFailure f)

def notFound : Response := ofReport 404 ⟨"not_found", "the requested resource does not exist"⟩

def wrongMethod (route : Route) : Response where
  status := 405
  allow := some (",".intercalate route.methods)

def notJson : Response := plain 415 "Expected request with `Content-Type: application/json`"

def tooLarge : Response := plain 413 "Failed to buffer the request body: length limit exceeded"

def badBody (body : String) (c : Json.Complaint) : Response :=
  match c.reason with
  | .syntactic _ =>
    plain 400 ("Failed to parse the request body as JSON: " ++ c.messageWithPath body)
  | .misfit _ =>
    plain 422 ("Failed to deserialize the JSON body into the target type: " ++
      c.messageWithPath body)

def batchTooLarge (rows limit : Nat) : Response :=
  ofReport 400 ⟨"batch_too_large", "batch has " ++ toString rows ++ " rows; at most " ++
    toString limit ++ " are accepted"⟩

end Response

def maxBodySize : Nat := 1 <<< 21

def Request.isJson (r : Request) : Bool :=
  match (r.header? "content-type").bind MediaType.ofText? with
  | some m => m.isJson
  | none => false

def Request.invocation (r : Request) : Except Response Invocation :=
  if ¬ r.isJson then .error .notJson
  else if maxBodySize < r.body.utf8ByteSize then .error .tooLarge
  else (Json.readBeginning Invocation.ofNode r.body).mapError (.badBody r.body)

namespace Server

def invoke (server : Server) (call : Invocation) : StateM State Response := do
  match Function.ofName call.function with
  | .error f => return .ofFailure f
  | .ok function =>
    if server.maxBatchRows < call.rows.length then
      return .batchTooLarge call.rows.length server.maxBatchRows
    match ← (invokeBatch server.surroundings function call.rows).run with
    | .ok values => return .json 200 (Results.mk values).toValue
    | .error f => return .ofFailure f

def health (state : State) : Response := .json 200 (Health.mk "ok" state.cache.size).toValue

def atRoute (server : Server) (r : Request) : Route → StateM State Response
  | .invoke =>
    match r.invocation with
    | .error response => return response
    | .ok call => server.invoke call
  | .health => return health (← get)

/-- The response to a request. The one to `HEAD` has no body, though it is described as if it had
one. -/
def respond (server : Server) (r : Request) : StateM State Response := do
  let accepted := r.headerList "accept-encoding"
  match Route.ofPath? r.path with
  | none => return Coding.apply accepted .notFound
  | some route =>
    if r.method ∉ route.methods then return .wrongMethod route
    let response := Coding.apply accepted (← server.atRoute r route)
    return if r.method = "HEAD" then { response with body := "" } else response

end Server

end ColumnFunctions.Http
