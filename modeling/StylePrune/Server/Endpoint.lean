import StylePrune.Json.Reader
import StylePrune.Server.Limit
import StylePrune.Server.Request
import StylePrune.Service
import StylePrune.Text.Encoding

/-!
The endpoint that takes reports. What becomes of a request is one of a few outcomes; its response
follows from that.
-/

set_option autoImplicit false

namespace StylePrune.Server

open Disk (Action)

/-- A site that is served: how many proxies stand before the server, how long a body may be, and
whether clients are limited. -/
structure Setup where
  deployment : Service.Deployment
  hops : Nat
  maxBody : Nat
  isLimited : Bool

/-- What a path leads to: the endpoint, or a directory for assets in which there is nothing. -/
inductive Route where
  | reports | assets
  deriving DecidableEq, Repr

def Route.of? (path : Text) : Option Route :=
  if path = "/remove-unused-css" then some .reports
  else match Text.after? "/static/" path with
    | some (c :: _) => if c = '/' then none else some .assets
    | _ => none

/-- The methods of a route, in order. -/
def Route.methods : Route → List Text
  | .reports => ["OPTIONS", "POST"]
  | .assets => ["GET", "HEAD", "OPTIONS"]

/-- What became of a request. -/
inductive Outcome where
  | notFound
  | wrongMethod
  | methods
  | tooMany
  | tooLarge
  | badReport (f : Report.Fault)
  | unknownAction
  | saved (m : Service.Merged)
  | generated (m : Service.Merged) (r : Generation.Result)
  | timedOut
  | failed
  deriving DecidableEq, Repr

def Outcome.status : Outcome → Nat
  | .notFound => 404
  | .wrongMethod => 405
  | .tooMany => 429
  | .tooLarge => 413
  | .badReport _ | .unknownAction => 400
  | .methods | .saved _ | .generated .. => 200
  | .timedOut => 504
  | .failed => 500

def errorBody (message : Text) : Json :=
  .object [("success", .bool false), ("error", .string message), ("errors", .array [])]

def texts (xs : List Text) : Json := .array (xs.map .string)

def statisticsBody (s : Generation.Statistics) : Json := .object [
  ("processed_files", .int s.processedFiles), ("generated_files", .int s.generatedFiles),
  ("combined_file", .bool s.hasBundle), ("original_size", .int s.sizeBefore), ("final_size", .int s.sizeAfter),
  ("combined_size", .int s.bundleSize), ("selectors_removed", .int s.removed), ("bytes_saved", .int s.saved)]

def Outcome.body? : Outcome → Option Json
  | .methods => none
  | .notFound => some (errorBody "Not Found")
  | .wrongMethod => some (errorBody "Method Not Allowed")
  | .tooMany => some (errorBody "Too Many Requests")
  | .tooLarge => some (errorBody "Request Too Large")
  | .badReport f => some (errorBody f.message)
  | .unknownAction => some (errorBody "Unknown action")
  | .timedOut => some (errorBody "Processing timed out")
  | .failed => some (errorBody "Internal Server Error")
  | .saved m => some (.object [("success", .bool true), ("message", .string "Data saved successfully"),
      ("processed_files", texts m.files), ("errors", texts m.errors)])
  | .generated m r => some (.object [("success", .bool true),
      ("message", .string "Files generated successfully"), ("processed_files", texts r.files),
      ("statistics", statisticsBody r.statistics), ("errors", texts (m.errors ++ r.errors))])

/-- What a request asks to be done with its report. -/
def Request.action (r : Request) : Text := Text.lower (Text.strip ((r.header? "X-Action").getD "save"))

/-- The report in a body. A body that cannot be read counts as no report. -/
def reportOfBody (body : Bytes) : Except Report.Fault Report :=
  Report.ofJson (((Encoding.decodeDetected? body).bind fun s => (Json.parse s).toOption).getD .null)

/-- Is a body nested too deep to be read? -/
def isTooDeep (body : Bytes) : Bool :=
  match (Encoding.decodeDetected? body).map Json.parse with
  | some (.error (.tooDeep _)) => true
  | _ => false

/-- The outcome of what was done with a report. -/
def Outcome.ofSave : Except Service.Error Service.Merged → Outcome
  | .ok m => .saved m
  | .error _ => .failed

def Outcome.ofGenerate : Except Service.Error (Service.Merged × Generation.Result) → Outcome
  | .ok r => .generated r.1 r.2
  | .error (.run (.timedOut _)) => .timedOut
  | .error _ => .failed

/-- Does what a report asks for. -/
def serve (s : Setup) (w : Faults) (moment : Text) (r : Request) : Disk → Outcome × Disk := fun d =>
  if s.maxBody < r.body.length then (.tooLarge, d)
  else if isTooDeep r.body then (.failed, d)
  else match reportOfBody r.body with
  | .error f => (.badReport f, d)
  | .ok report =>
    if r.action = "save" then
      let a := Service.save s.deployment w report d
      (.ofSave a.1, a.2)
    else if r.action = "generate" then
      let a := Service.generate s.deployment w moment report d
      (.ofGenerate a.1, a.2)
    else (.unknownAction, d)

/-- What the server keeps between requests. -/
structure State where
  hits : Hits
  disk : Disk

/-- What becomes of a request that leads to `route`. -/
def respond (s : Setup) (w : Faults) (moment : Text) (route : Route) (r : Request) (st : State) :
    Outcome × State :=
  if !route.methods.contains r.method then (.wrongMethod, st)
  else if r.method = "OPTIONS" then (.methods, st)
  else match route with
  | .assets => (.notFound, st)
  | .reports =>
    let a := if s.isLimited then allow r.client (limitsOf (r.action = "generate")) st.hits else (true, st.hits)
    if !a.1 then (.tooMany, { st with hits := a.2 })
    else
      let o := serve s w moment r st.disk
      (o.1, ⟨a.2, o.2⟩)

def contentHeader (o : Outcome) : Text × Text :=
  ("Content-Type", if o = .methods then "text/html; charset=utf-8" else "application/json")

structure Response where
  status : Nat
  headers : List (Text × Text)
  allowed : Option (List Text)
  body : Option Json

/-- What a browser may do with any response. -/
def safetyHeaders : List (Text × Text) := [
  ("Content-Security-Policy", "default-src 'none'; frame-ancestors 'none'"),
  ("X-Content-Type-Options", "nosniff"), ("X-Frame-Options", "DENY"),
  ("Referrer-Policy", "strict-origin-when-cross-origin"), ("Cross-Origin-Resource-Policy", "same-origin")]

/-- Under a safe scheme a browser is told to stay there. -/
def transportHeaders (scheme : Text) : List (Text × Text) :=
  if scheme = "https" then [("Strict-Transport-Security", "max-age=31536000; includeSubDomains")] else []

/-- What the endpoint says differs from call to call. -/
def cacheHeaders : List (Text × Text) :=
  [("Cache-Control", "no-store, no-cache, must-revalidate, private"), ("Pragma", "no-cache")]

/-- The response to a request that led to `route`, if it led anywhere. -/
def Response.of (route : Option Route) (r : Request) (o : Outcome) : Response where
  status := o.status
  headers := contentHeader o :: safetyHeaders ++ transportHeaders r.scheme ++
    if route = some .reports ∧ o ≠ .wrongMethod then cacheHeaders else []
  allowed := if o = .wrongMethod ∨ o = .methods then route.map Route.methods else none
  body := if r.method = "HEAD" then none else o.body?

/-- Answers a request. -/
def handle (s : Setup) (w : Faults) (moment : Text) (r : Request) (st : State) : Response × State :=
  let r := r.behind s.hops
  match Route.of? r.path with
  | none => (.of none r .notFound, st)
  | some route =>
    let a := respond s w moment route r st
    (.of (some route) r a.1, a.2)

end StylePrune.Server
