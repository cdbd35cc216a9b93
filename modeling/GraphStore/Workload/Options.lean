import GraphStore.Workload.Duration
import GraphStore.Text.Blank

/-!
# Command line of the workload

The command is `run`, followed by named options, each with a value after it or after an equals
sign, in any order and at most once. A value begins with a dash only after an equals sign.
-/

namespace GraphStore.Workload

/-- The options of a run. -/
structure Options where
  /-- Number of partitions. -/
  parts : Nat := 8
  /-- Number of vertices to insert. -/
  vertices : Nat := 10000
  /-- Number of edges to insert. -/
  edges : Nat := 40000
  /-- Width of vertex ids. -/
  vidLen : Nat := 16
  /-- Vertices or edges of one request. -/
  batch : Nat := 256
  /-- Whether there are indexes, and lookups through them. -/
  withIndex : Bool := true
  /-- How long lookups are repeated. -/
  duration : Duration := ⟨2 * Duration.second⟩
  /-- Seed of the random numbers; zero for a random one. -/
  seed : Nat := 0
  /-- Stands in for the setting of chain writes under way. -/
  maxChainInflight : Option Nat := none
  /-- Stands in for the setting of the cache's capacity. -/
  vertexCache : Option Nat := none
  /-- Where the summary is written. -/
  out : String := ".tmp/holo_graph/summary.json"
  deriving DecidableEq, Repr, Inhabited

/-- Why a command line leads to no run. -/
inductive CommandStop where
  /-- Help was asked for. -/
  | help
  /-- The command line is not understood. -/
  | misused
  deriving DecidableEq, Repr, Inhabited

namespace Options

/-- An unsigned number of 64 bits. -/
def wide? (text : String) : Option Nat :=
  (Text.readUnsigned 0xffffffffffffffff text.toList).toOption

/-- An unsigned number of 32 bits. Zero may have a minus sign. -/
def narrow? (text : String) : Option Nat :=
  match text.toList with
  | '-' :: digits =>
    if !digits.isEmpty && digits.all (· = '0') then some 0 else none
  | digits => (Text.readUnsigned 0xffffffff digits).toOption

/-- A truth value. -/
def flag? : String → Option Bool
  | "true" => some true
  | "false" => some false
  | _ => none

/-- Sets an option by its name; none for an unknown name or a value that does not fit. -/
def set? (options : Options) (name value : String) : Option Options :=
  match name with
  | "parts" => (narrow? value).map fun parts => { options with parts }
  | "vertices" => (wide? value).map fun vertices => { options with vertices }
  | "edges" => (wide? value).map fun edges => { options with edges }
  | "vid-len" => (wide? value).map fun vidLen => { options with vidLen }
  | "batch" => (wide? value).map fun batch => { options with batch }
  | "with-index" => (flag? value).map fun withIndex => { options with withIndex }
  | "duration" => (Duration.ofString? value).map fun duration => { options with duration }
  | "seed" => (wide? value).map fun seed => { options with seed }
  | "max-chain-inflight" =>
    (wide? value).map fun limit => { options with maxChainInflight := some limit }
  | "vertex-cache" => (wide? value).map fun capacity => { options with vertexCache := some capacity }
  | "out" => if value.isEmpty then none else some { options with out := value }
  | _ => none

/-- A word of a command line. -/
inductive Word where
  /-- Two dashes, a name, and perhaps a value after an equals sign. -/
  | long (name : String) (value : Option String)
  /-- A dash and letters. -/
  | short (letters : List Char)
  /-- Two dashes alone, after which no more options come. -/
  | close
  /-- Any other word. -/
  | plain (text : String)
  deriving DecidableEq, Repr, Inhabited

/-- Reads a word. A dash alone is a plain word. -/
def Word.ofString (text : String) : Word :=
  match text.toList with
  | ['-', '-'] => .close
  | '-' :: '-' :: rest =>
    let name := String.ofList (rest.takeWhile (· ≠ '='))
    match rest.dropWhile (· ≠ '=') with
    | [] => .long name none
    | _ :: value => .long name (some (String.ofList value))
  | '-' :: c :: letters => .short (c :: letters)
  | _ => .plain text

/-- Sets options from words, given the names that were set before. -/
def ofWords (options : Options) (given : List String) : List Word → Except CommandStop Options
  | [] => .ok options
  | [.close] => .ok options
  | .long "help" none :: _ => .error .help
  | .short ('h' :: _) :: _ => .error .help
  | .long name (some value) :: rest => step options given name value rest
  | .long name none :: .plain value :: rest => step options given name value rest
  | _ => .error .misused
where
  step (options : Options) (given : List String) (name value : String) (rest : List Word) :
      Except CommandStop Options :=
    match if name ∈ given then none else options.set? name value with
    | some options => ofWords options (name :: given) rest
    | none => .error .misused

/-- Reads a command line. -/
def ofArgs : List String → Except CommandStop Options
  | "run" :: rest => ofWords {} [] (rest.map Word.ofString)
  | "help" :: rest => if rest = [] ∨ rest = ["run"] then .error .help else .error .misused
  | "--help" :: _ => .error .help
  | first :: _ =>
    match Word.ofString first with
    | .short ('h' :: _) => .error .help
    | _ => .error .misused
  | [] => .error .misused

end Options

end GraphStore.Workload
