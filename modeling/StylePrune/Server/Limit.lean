import StylePrune.Text.Basic

/-!
How often one client may ask. Every limit counts the requests of a client since its period began; a
request is refused at the first limit that it exceeds.
-/

set_option autoImplicit false

namespace StylePrune.Server

inductive Period where
  | minute | hour | day
  deriving DecidableEq, Repr

/-- A number of requests in a period, of all requests or of those that write stylesheets. -/
structure Limit where
  ofWrites : Bool
  amount : Nat
  period : Period
  deriving DecidableEq, Repr

/-- The limits of every request, and of those that write. -/
def generalLimits : List Limit := [⟨false, 2000, .day⟩, ⟨false, 200, .hour⟩, ⟨false, 30, .minute⟩]

def writeLimits : List Limit := [⟨true, 100, .hour⟩, ⟨true, 5, .minute⟩]

/-- The limits of a request, short periods first. -/
def limitsOf (writes : Bool) : List Limit :=
  [Period.minute, .hour, .day].flatMap fun p =>
    ((if writes then writeLimits else []) ++ generalLimits).filter fun (l : Limit) => l.period = p

def Period.name : Period → Text
  | .minute => "minute"
  | .hour => "hour"
  | .day => "day"

def Limit.text (l : Limit) : Text := Text.ofNat l.amount ++ " per " ++ l.period.name

/-- What was counted in the periods that are under way. -/
abbrev Hits := List (Text × Limit)

/-- Counts a request of a client against limits in order. Is it admitted? -/
def allow (client : Text) : List Limit → Hits → Bool × Hits
  | [], hits => (true, hits)
  | l :: ls, hits =>
    if hits.count (client, l) < l.amount then allow client ls ((client, l) :: hits)
    else (false, (client, l) :: hits)

end StylePrune.Server
