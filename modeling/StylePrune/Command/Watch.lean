import StylePrune.Command.Scan

/-!
Scanning a page again and again: on an interval, and soon after its file has changed. Only what is new
is said and sent. From poll to poll other programs may write files, and timers run out.
-/

set_option autoImplicit false

namespace StylePrune.Command

open Sampling (Scan Sampler TimerKind)
open Sampling.Timing

/-- What is watched, and what was last said. -/
structure Session where
  disk : Disk
  page : Html.Page
  modified : Int
  sampler : Sampler
  output : Output
  told : Option Report
  isRefused : Bool

/-- Do two reports say the same of the same files, in whatever order? -/
def isSameReport (a b : Report) : Bool :=
  a.entries.length == b.entries.length && a.entries.all fun e => b.get? e.1 == some e.2

namespace Session

/-- Scans the page as it was last read. -/
def scan (r : Request) (s : Surroundings) (w : Session) : Except Failure Scan × Session :=
  match w.sampler.scan (r.sources s w.disk) w.page with
  | .error e => (.error (.scan e), w)
  | .ok (result, sampler) => (.ok result, { w with sampler })

/-- Says what a scan found unless the last one that was told found the same. -/
def tell (r : Request) (s : Surroundings) (result : Scan) (w : Session) : Option Failure × Session :=
  if w.told.any (isSameReport result.report) then (none, w)
  else
    let sent := r.deliver s result (w.output.summarize result)
    let w := { w with told := some result.report, output := sent.2 }
    match sent.1 with
    | .error e => (some e, w)
    | .ok taken => (none, { w with isRefused := w.isRefused || !taken })

end Session

abbrev Watching := State Session Scan

/-- A scan calls nothing on its own scheduler. -/
def setting (r : Request) (s : Surroundings) : Setting Session Scan Failure where
  plan _ _ := ⟨[], fun _ w => w.scan r s⟩
  sink := some fun _ result w => w.tell r s result

/-- What happens between two looks at the page's file: timers run out, and then the watching is
interrupted, or files are written. -/
structure Poll where
  due : List TimerKind
  isInterrupted : Bool
  write : Disk → Disk

/-- Timers of these kinds that are pending, by order of creation. -/
def pending (kinds : List TimerKind) (w : Watching) : List Nat :=
  (List.range w.timers.length).filter fun i => match w.timers[i]? with
    | some t => t.state = .pending && kinds.contains t.kind
    | none => false

def fireAll (r : Request) (s : Surroundings) (is : List Nat) (w : Watching) : Watching :=
  is.foldl (fun w i => (perform (setting r s) w (.fire i)).1) w

/-- Reads the page again if its file was written since. -/
def look (r : Request) (s : Surroundings) (w : Watching) : Except Failure Watching × Watching :=
  match w.world.disk.openFrom s.directory r.page with
  | .error e => (.error (.file e), w)
  | .ok f =>
    if f.2 = w.world.modified then (.ok w, w)
    else match openPage s w.world.disk r.page with
    | .error e => (.error e, w)
    | .ok (page, modified) =>
      let w := (perform (setting r s) { w with world := { w.world with page, modified } }
        (.notify ⟨"childList", none⟩)).1
      (.ok w, w)

/-- Watches for as long as there are polls. -/
def watchAll (r : Request) (s : Surroundings) : List Poll → Watching → Option Failure × Watching
  | [], w => (none, w)
  | p :: ps, w =>
    let w := fireAll r s (pending p.due w) w
    if p.isInterrupted then (none, w)
    else
      let looked := look r s { w with world := { w.world with disk := p.write w.world.disk } }
      match looked.1 with
      | .error e => (some e, looked.2)
      | .ok w => watchAll r s ps w

/-- Starts to watch and scans at once. -/
def beginWatch (r : Request) (s : Surroundings) (d : Disk) : Except Failure (Option Failure × Watching) :=
  match openPage s d r.page with
  | .error e => .error e
  | .ok (page, modified) =>
    let output := Output.empty.complain ["Watching " ++ r.page ++ ", Ctrl-C to stop"]
    let session : Session := ⟨d, page, modified, .fresh, output, none, false⟩
    let started := (perform (setting r s) (.initial session) .start).1
    let first := perform (setting r s) started .trigger
    .ok (match first.2 with | .failed e => some e | _ => none, first.1)

/-- Stops all timers. -/
def endWatch (r : Request) (s : Surroundings) (failure : Option Failure) (w : Watching) : Ending :=
  let w := (perform (setting r s) w .stop).1
  ⟨match failure with
    | some e => .error e
    | none => .ok (exitCode !w.world.isRefused), w.world.output, w.timers⟩

def watch (r : Request) (s : Surroundings) (d : Disk) (polls : List Poll) : Ending :=
  match beginWatch r s d with
  | .error e => ⟨.error e, .empty, []⟩
  | .ok (some e, w) => endWatch r s (some e) w
  | .ok (none, w) =>
    let ended := watchAll r s polls w
    endWatch r s ended.1 ended.2

/-- A request, whether for one scan or for many. -/
def Request.run (r : Request) (s : Surroundings) (d : Disk) (polls : List Poll) : Ending :=
  if r.isWatching then watch r s d polls else scanOnce r s d

end StylePrune.Command
