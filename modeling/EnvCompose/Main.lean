import EnvCompose.CommandLine.Log
import EnvCompose.CommandLine.Run

/-!
# The program

The machine is the one the program runs on. Everything that is decided is decided elsewhere; here
files are read and written, and lines are printed.
-/
namespace EnvCompose

structure HostState where
  active : Option Path := none
  /-- The highest rank of a log line that is printed. -/
  threshold : Nat

abbrev Host := StateT HostState IO

namespace Host

def cause : IO.Error → DiskError
  | .noFileOrDirectory .. => .notFound
  | .noSuchThing .. => .notFound
  | .alreadyExists .. => .alreadyExists
  | .inappropriateType _ code _ => if code == 21 then .isDirectory else .notDirectory
  | .resourceBusy .. => .busy
  | e => .other (toString e)

/-- An action on a path that can be looked up. -/
def attempt {α : Type} (p : Path) (action : IO α) : Attempt Host α := ExceptT.mk do
  match Disk.checkPath p with
  | .error e => return .error e
  | .ok () => try return .ok (← action) catch e => return .error (cause e)

def kind (p : Path) : Attempt Host Kind := attempt p do
  let place := (← IO.currentDir) / p.text
  return if (← place.metadata).type == .dir then .directory else .file

def list (p : Path) : Attempt Host (List String) := attempt p do
  let place := (← IO.currentDir) / p.text
  return ((← place.readDir).toList.map (·.fileName)).mergeSort fun a b => decide (a ≤ b)

def copyFile (source dest : Path) : Attempt Host Unit := do
  if (← kind source) == .directory then throw .notFile
  attempt dest do IO.FS.writeBinFile dest.text (← IO.FS.readBinFile source.text)

def createTemporary (dir : Path) : Attempt Host Path := do
  let around : Path := if dir.isEmpty then ⟨"."⟩ else dir
  let p := around.join ⟨".tmp" ++ toString (← (IO.monoNanosNow : IO Nat))⟩
  attempt p do
    let handle ← IO.FS.Handle.mk p.text .writeNew
    handle.flush
    return p

def recordedRevision (dir : Path) : IO String := do
  let records := dir.join ⟨".git"⟩
  let linked ← try pure (Text.lines (← IO.FS.readFile records.text)).head? catch _ => pure none
  let records := match linked with
    | some line => dir.join ⟨(line.drop "gitdir: ".length).toString⟩
    | none => records
  let head := Text.trim (← IO.FS.readFile (records.join ⟨"HEAD"⟩).text)
  let revision ←
    if head.startsWith "ref: " then
      IO.FS.readFile (records.join ⟨(head.drop "ref: ".length).toString⟩).text
    else pure head
  return (revision.take 7).toString

def askRevision (dir : Path) : Attempt Host CommandOutput := do
  if Disk.hasNul dir then throw .invalidDirectory
  attempt dir do
    try return ⟨0, (← recordedRevision dir).toUTF8, .empty⟩
    catch e => return ⟨128, .empty, (toString e).toUTF8⟩

instance : Machine Host where
  kind := kind
  read p := attempt p (IO.FS.readBinFile p.text)
  list := list
  makeDirectory p := attempt p (IO.FS.createDir p.text)
  copyFile := copyFile
  createTemporary := createTemporary
  writeFile p octets := attempt p (IO.FS.writeBinFile p.text octets)
  sync p := attempt p do (← IO.FS.Handle.mk p.text .append).flush
  rename source dest := do
    if Disk.hasNul dest then throw .invalidArgument
    attempt dest (IO.FS.rename source.text dest.text)
  remove p := attempt p (IO.FS.removeFile p.text)
  askRevision := askRevision
  variableNamed name := IO.getEnv name
  workingDirectory := attempt ⟨"."⟩ do return ⟨(← IO.currentDir).toString⟩
  log line := do
    if line.level.rank ≤ (← get).threshold then IO.eprintln line.text
  active := return (← get).active
  setActive p := modify fun s => { s with active := p }

end Host

def runProgram (args : List String) : IO UInt32 := do
  match CommandLine.Invocation.ofArguments args with
  | .error .help =>
    IO.print CommandLine.usage
    return 0
  | .error e =>
    IO.eprintln ("error: " ++ e.message)
    return 2
  | .ok invocation =>
    let setting ← IO.getEnv CommandLine.thresholdVariable
    let threshold := CommandLine.threshold setting invocation.level
    let report ← (CommandLine.run invocation : Host CommandLine.Report).run' { threshold }
    report.output.forM IO.println
    report.complaints.forM IO.eprintln
    return if report.succeeded then 0 else 1

end EnvCompose

def main (args : List String) : IO UInt32 := EnvCompose.runProgram args
