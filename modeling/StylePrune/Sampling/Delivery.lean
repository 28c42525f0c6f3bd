import StylePrune.Json.Reader
import StylePrune.Report

/-!
Sending a report to the endpoint that keeps the ledger.
-/

set_option autoImplicit false

namespace StylePrune.Sampling

/-- How an endpoint answers a request, if it can be reached at all. -/
inductive Reply where
  | unreachable
  | answered (status : Nat) (body : Text)
  deriving DecidableEq, Repr

/-- A request as it is sent. -/
structure Post where
  url : Text
  report : Report
  action : Text

inductive DeliveryError where
  | unreachable (url : Text)
  | rejected (status : Nat)
  | notJson (status : Nat)
  /-- This is not told as a failure of the endpoint. -/
  | tooDeep (t : Json.TooDeep)
  deriving DecidableEq, Repr

namespace DeliveryError

def message : DeliveryError → Text
  | .unreachable url => "Could not reach " ++ url
  | .rejected status => "Server answered " ++ Text.ofNat status
  | .notJson _ => "Response is not JSON"
  | .tooDeep t => t.message

def status? : DeliveryError → Option Nat
  | .unreachable _ | .tooDeep _ => none
  | .rejected status | .notJson status => some status

end DeliveryError

/-- Only an answer with status 200 and a JSON body counts. -/
def Reply.accept (url : Text) : Reply → Except DeliveryError Json
  | .unreachable => .error (.unreachable url)
  | .answered status body =>
    if status ≠ 200 then .error (.rejected status)
    else (Json.parse body).mapError fun
      | .tooDeep t => .tooDeep t
      | _ => .notJson status

end StylePrune.Sampling
