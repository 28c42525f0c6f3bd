import StylePrune.Command.Usage
import StylePrune.Command.Watch

/-!
The program. It reads what it needs into a value, lets the commands of this library work on it, and
prints. It has no network: a sheet that is not on disk is left out, and no report reaches its endpoint.
-/

set_option autoImplicit false

namespace StylePrune

open Command

def lookUp (names : List Text) (env : Environment) : IO Environment :=
  names.foldlM (fun env name => do
    match ← IO.getEnv name.toString with
    | some v => return env.insert name v
    | none => return env) env

/-- Puts what stands at a path, and what is below it. Files too large for a stylesheet are left out. -/
partial def addTree (d : Disk) (e : IO.FS.DirEntry) : IO Disk := do
  let m ← e.path.symlinkMetadata
  let place := Path.names (Path.normalize e.path.toString)
  let d := (Disk.makeDirectories place.dropLast d).2
  match m.type with
  | .symlink => return d.set place (.link (← IO.FS.realPath e.path).toString)
  | .dir => (← e.path.readDir).foldlM addTree (d.set place .directory)
  | _ =>
    if m.byteSize.toNat > Site.defaultMaxSize then return d
    let bytes ← IO.FS.readBinFile e.path
    return d.set place (.file bytes.toList (m.modified.sec * 1000000000 + m.modified.nsec.toNat))

/-- The files at some paths seen from the working directory; one that cannot be read is not there. -/
def readDisk (paths : List Text) : IO Disk := do
  let cwd ← IO.currentDir
  paths.foldlM (fun d path => try addTree d ⟨cwd, path.toString⟩ catch _ => return d) Disk.empty

/-- Prints the lines that came after others were printed. -/
def flush (before after : Output) : IO Unit := do
  for l in after.complained.drop before.complained.length do IO.eprintln l.toString
  for l in after.printed.drop before.printed.length do IO.println l.toString
  (← IO.getStdout).flush

def finish (before : Output) (e : Ending) : IO UInt32 := do
  flush before e.output
  match e.exit with
  | .ok n => return n.toUInt32
  | .error f =>
    IO.eprintln f.message.toString
    return 1

/-- Polls until something fails. `born` are the times at which the timers were set. -/
partial def poll (s : Settings) (r : Request) (here : Surroundings) (born : List Nat) (w : Watching) :
    IO UInt32 := do
  IO.sleep s.scanDebounce.milliseconds.toUInt32
  let now ← IO.monoMsNow
  let born := born ++ List.replicate (w.timers.length - born.length) now
  let isDue (kind : Sampling.TimerKind) (delay : Nat) : Bool :=
    (pending [kind] w).any fun i => born.getD i now + delay ≤ now
  let due := [(Sampling.TimerKind.tick, s.scanInterval), (.debounce, s.scanDebounce)].filterMap fun k =>
    if isDue k.1 k.2.milliseconds then some k.1 else none
  let disk ← readDisk [r.page, r.root]
  match watchAll r here [⟨due, false, fun _ => disk⟩] w with
  | (some f, after) => finish w.world.output (endWatch r here (some f) after)
  | (none, after) =>
    flush w.world.output after.world.output
    poll s r here born after

def scan (s : Settings) (r : Request) : IO UInt32 := do
  let here : Surroundings := ⟨(← IO.currentDir).toString, fun _ => none, fun _ => .unreachable⟩
  let disk ← readDisk [r.page, r.root]
  if !r.isWatching then finish .empty (scanOnce r here disk)
  else match beginWatch r here disk with
  | .error f => finish .empty ⟨.error f, .empty, []⟩
  | .ok (some f, w) => finish .empty (endWatch r here (some f) w)
  | .ok (none, w) =>
    flush .empty w.world.output
    poll s r here (List.replicate w.timers.length (← IO.monoMsNow)) w

def run (args : List Text) : IO UInt32 := do
  let cwd := Text.ofString (← IO.currentDir).toString
  let known ← lookUp (Environment.fileName :: Settings.variableNames) Table.empty
  let file := known.getD Environment.fileName Environment.defaultFile
  let disk ← readDisk [file]
  let names := match disk.openFrom cwd file with
    | .ok f => let t := Utf8.decodeLossy f.1; Environment.mentioned t.length t
    | .error _ => []
  match Settings.load (← lookUp names known) cwd disk none with
  | .error e =>
    IO.eprintln e.message.toString
    return 1
  | .ok (_, s) => match Arguments.read s args with
    | .scan r => scan s r
    | .help =>
      for l in usage do IO.println l.toString
      return 0
    | .misuse =>
      for l in usage do IO.eprintln l.toString
      return 2

end StylePrune

def main (args : List String) : IO UInt32 := StylePrune.run (args.map StylePrune.Text.ofString)
