import GraphStore.Workload.Run

/-!
# Command line program

Runs the workload on a node in memory and writes the summary of it as JSON.
-/

open GraphStore GraphStore.Workload

namespace GraphStore.Program

/-- What help says. -/
def usage : String :=
  "Usage: workload run [OPTIONS]\n\n" ++
  "Options:\n" ++
  "  --parts N               partitions of the space [default: 8]\n" ++
  "  --vertices N            vertices to insert [default: 10000]\n" ++
  "  --edges N               edges to insert [default: 40000]\n" ++
  "  --vid-len N             width of vertex ids [default: 16]\n" ++
  "  --batch N               vertices or edges of one request [default: 256]\n" ++
  "  --with-index BOOL       register indexes and look rows up [default: true]\n" ++
  "  --duration SPAN         how long lookups are repeated [default: 2s]\n" ++
  "  --seed N                random seed, 0 for a random one [default: 0]\n" ++
  "  --max-chain-inflight N  stands in for the setting of this name\n" ++
  "  --vertex-cache N        stands in for the setting of the capacity\n" ++
  "  --out PATH              where the summary is written\n" ++
  "  -h, --help              print this help"

/-- A stopwatch that goes by the clock. -/
def clock : Stopwatch IO where
  time work := do
    let start ← IO.monoNanosNow
    let result ← IO.lazyPure work
    let stop ← IO.monoNanosNow
    return (result, (stop - start) / 1000)

/-- A seed that is not zero. -/
def freshSeed : IO UInt64 := do
  let bytes ← IO.getRandomBytes 8
  return UInt64.ofNat (max 1 (Bytes.toNat bytes.toList))

/-- The variables that hold settings, as they are set now. -/
def readSettings : IO (String → Option String) := do
  let found ← Config.variableNames.filterMapM fun name => do
    let value ← IO.getEnv name
    return value.map fun value => (name, value)
  return fun name => found.lookup name

/-- Repeats the lookups until a time has come, at least once. -/
partial def lookUpUntil (deadline : Nat) (options : Options) (run : Run) : IO Run := do
  let run ← run.lookUp clock options
  let now ← IO.monoNanosNow
  if deadline ≤ now then return run else lookUpUntil deadline options run

/-- The directory that a path lies in. -/
def directory (path : String) : String :=
  String.ofList (((path.toList.reverse.dropWhile (· ≠ '/')).drop 1).reverse)

/-- Writes the summary, in a directory that is made if need be. -/
def writeSummary (path : String) (summary : Summary) : IO Unit := do
  unless (directory path).isEmpty do
    IO.FS.createDirAll (directory path)
  IO.FS.writeFile path (String.ofList (summary.toJson.indented 0))

/-- Runs the workload and answers the exit code. -/
def run (options : Options) : IO UInt32 := do
  match settings options (← readSettings) with
  | .error fault =>
    IO.eprintln (report fault.chain)
    return 1
  | .ok config =>
    let seed ← if options.seed = 0 then freshSeed else pure (UInt64.ofNat options.seed)
    let loaded ← Run.load clock options (.start options seed config)
    let start ← IO.monoNanosNow
    let finished ←
      if options.withIndex then lookUpUntil (start + options.duration.nanos) options loaded
      else pure loaded
    try
      writeSummary options.out (finished.summary options seed config)
      return 0
    catch fault =>
      IO.eprintln (report ["write summary", toString fault])
      return 1

end GraphStore.Program

/-- The exit code is 0 after a run and after help, 1 for a run that fails, and 2 for a command
line that is not understood. -/
def main (args : List String) : IO UInt32 := do
  match Options.ofArgs args with
  | .ok options => GraphStore.Program.run options
  | .error .help =>
    IO.println GraphStore.Program.usage
    return 0
  | .error .misused =>
    IO.eprintln GraphStore.Program.usage
    return 2
