import StylePrune.Command.Arguments
import StylePrune.Command.Summary
import StylePrune.Sampling.Delivery
import StylePrune.Sampling.Timing
import StylePrune.Text.Newline

/-!
Scanning a page once: reading it, saying what is unused on it, and sending that to an endpoint.
-/

set_option autoImplicit false

namespace StylePrune.Command

open Sampling (Post Reply Sampler Scan ScanError Sources)

/-- Where a command runs: a directory, the network, and what becomes of a report that is sent. -/
structure Surroundings where
  directory : Text
  network : Text → Option Text
  endpoint : Post → Reply

/-- What no command survives. -/
inductive Failure where
  | file (e : Disk.Errno)
  | badName (b : Disk.BadName)
  | notUtf8
  | markup (r : Html.Refusal)
  | scan (e : ScanError)
  /-- An endpoint took a report, and its answer cannot be read. -/
  | tooDeep (t : Json.TooDeep)
  /-- An endpoint took a report and did not answer with an object. -/
  | noObject
  deriving DecidableEq, Repr

/-- Lines that were printed and lines that were complained, and what was sent. -/
structure Output where
  printed : List Text
  complained : List Text
  posted : List Post

namespace Output

def empty : Output := ⟨[], [], []⟩

def print (o : Output) (lines : List Text) : Output := { o with printed := o.printed ++ lines }

def complain (o : Output) (lines : List Text) : Output := { o with complained := o.complained ++ lines }

def post (o : Output) (p : Post) : Output := { o with posted := o.posted ++ [p] }

def summarize (o : Output) (s : Scan) : Output := (o.complain (warnings s)).print (summary s)

end Output

/-- The page, and when its file was last written. -/
def openPage (s : Surroundings) (d : Disk) (page : Text) : Except Failure (Html.Page × Int) :=
  match Disk.badName? page with
  | some b => .error (.badName b)
  | none => match d.openFrom s.directory page with
  | .error e => .error (.file e)
  | .ok f => match Utf8.decode? f.1 with
    | none => .error .notUtf8
    | some t => match Html.Page.parse (Text.unifyNewlines t) with
      | .error r => .error (.markup r)
      | .ok p => .ok (p, f.2)

namespace Request

/-- The locator that the page is served from. -/
def pageUrl (r : Request) (s : Surroundings) : Text :=
  match r.url with
  | some (c :: url) => c :: url
  | _ => SourceKey.pageUrl (Path.absolute s.directory r.page) (Path.absolute s.directory r.root)

def sources (r : Request) (s : Surroundings) (d : Disk) : Sources where
  site := if r.root = [] then none else some ⟨Path.join s.directory r.root, Site.defaultMaxSize⟩
  pageUrl := some (r.pageUrl s)
  disk := d
  network := s.network

/-- The endpoint that reports go to, if they go anywhere. -/
def endpoint? (r : Request) : Option Text := r.endpoint.filter (· ≠ [])

/-- Sends a scan's report, if it is to be sent. Was it taken? -/
def deliver (r : Request) (s : Surroundings) (scan : Scan) (o : Output) : Except Failure Bool × Output :=
  match r.endpoint? with
  | none => (.ok true, o)
  | some url =>
    let p : Post := ⟨url, scan.report, r.action⟩
    let o := o.post p
    match (s.endpoint p).accept url with
    | .error (.tooDeep t) => (.error (.tooDeep t), o)
    | .error e => (.ok false, o.complain ["error: " ++ e.message])
    | .ok answer => match answerLine? answer with
      | some line => (.ok true, o.print [line])
      | none => (.error .noObject, o)

end Request

/-- How a command ended: its exit code, and everything that can be seen of it. -/
structure Ending where
  exit : Except Failure Nat
  output : Output
  timers : List Sampling.Timer

/-- Fails with 1 if the report is not taken. -/
def exitCode (taken : Bool) : Nat := if taken then 0 else 1

def scanOnce (r : Request) (s : Surroundings) (d : Disk) : Ending :=
  match openPage s d r.page with
  | .error e => ⟨.error e, .empty, []⟩
  | .ok (p, _) => match Sampler.fresh.scan (r.sources s d) p with
    | .error e => ⟨.error (.scan e), .empty, []⟩
    | .ok (scan, _) =>
      let sent := r.deliver s scan (Output.empty.summarize scan)
      ⟨sent.1.map exitCode, sent.2, []⟩

end StylePrune.Command
