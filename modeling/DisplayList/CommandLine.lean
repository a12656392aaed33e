namespace DisplayList

inductive Flag where
  | raw
  | print
  | json
  | summary
  | debug
  deriving DecidableEq

inductive Setting where
  | chunkSize
  | batch
  | outfile
  deriving DecidableEq

inductive CommandOption where
  | flag (f : Flag)
  | setting (s : Setting)
  | help
  | version

inductive UsageError where
  | unknownOption (option : String)
  | missingValue (s : Setting)
  | unexpectedValue (option : String)
  | invalidNumber (value : String)
  | emptyTrace
  | repeated
  | unexpectedArgument (arg : String)
  | conflict
  | missingTrace
  deriving DecidableEq

def Setting.name : Setting → String
  | chunkSize => "--chunk-size <CHUNK_SIZE>"
  | batch => "--batch <BATCH>"
  | outfile => "--outfile <OUTFILE>"

def UsageError.message : UsageError → String
  | unknownOption option => "unexpected argument '" ++ option ++ "' found"
  | missingValue s => "a value is required for '" ++ s.name ++ "' but none was supplied"
  | unexpectedValue option => "unexpected value for '" ++ option ++ "' found"
  | invalidNumber value => "invalid value '" ++ value ++ "': a number was expected"
  | emptyTrace => "a value is required for '<TRACE>' but none was supplied"
  | repeated => "an option cannot be used multiple times"
  | unexpectedArgument arg => "unexpected argument '" ++ arg ++ "' found"
  | conflict => "the argument '--print' cannot be used with '--raw'"
  | missingTrace => "the following required argument was not provided: <TRACE>"

def helpText : String := "\n".intercalate [
  "Stream an operation trace through an operator list and print the chunks",
  "",
  "Usage: dumpops [OPTIONS] <TRACE>",
  "",
  "Arguments:",
  "  <TRACE>  Path to a JSON operation trace",
  "",
  "Options:",
  "  -r, --raw                      Keep the raw operation stream (no queue optimization)",
  "      --print                    Render with the print intent",
  "  -c, --chunk-size <CHUNK_SIZE>  Operations per chunk before an implicit flush [default: 1000]",
  "      --batch <BATCH>            Trace entries replayed per evaluation step [default: 256]",
  "  -j, --json                     Print chunks as JSON lines",
  "  -s, --summary                  Only print chunk summaries",
  "  -o, --outfile <OUTFILE>        Output file name (\"-\" for stdout) [default: -]",
  "  -d, --debug                    Use debug logging level",
  "  -h, --help                     Print help",
  "  -V, --version                  Print version",
  ""]

inductive Diversion where
  | help
  | version
  | refused (e : UsageError)

structure DumpOptions where
  trace : String
  isRaw : Bool := false
  isPrint : Bool := false
  chunkSize : Nat := 1000
  batch : Nat := 256
  asJson : Bool := false
  isSummary : Bool := false
  outfile : String := "-"
  deriving DecidableEq

namespace CommandOption

def ofShort? : Char → Option CommandOption
  | 'r' => some (flag .raw)
  | 'c' => some (setting .chunkSize)
  | 'j' => some (flag .json)
  | 's' => some (flag .summary)
  | 'o' => some (setting .outfile)
  | 'd' => some (flag .debug)
  | 'h' => some help
  | 'V' => some version
  | _ => none

def ofLong? : String → Option CommandOption
  | "raw" => some (flag .raw)
  | "print" => some (flag .print)
  | "chunk-size" => some (setting .chunkSize)
  | "batch" => some (setting .batch)
  | "json" => some (flag .json)
  | "summary" => some (flag .summary)
  | "outfile" => some (setting .outfile)
  | "debug" => some (flag .debug)
  | "help" => some help
  | "version" => some version
  | _ => none

end CommandOption

/-- A number that a word of 64 bits holds, in decimal digits, after a plus sign or not. -/
def word? (s : String) : Option Nat :=
  let digits : List Char := match s.toList with
    | '+' :: rest => rest
    | cs => cs
  let n := digits.foldl (fun n c ↦ 10 * n + (c.toNat - '0'.toNat)) 0
  if digits ≠ [] ∧ digits.all Char.isDigit ∧ n < UInt64.size then some n else none

structure Given where
  trace : Option String := none
  flags : List Flag := []
  chunkSize : Option Nat := none
  batch : Option Nat := none
  outfile : Option String := none

namespace Given

def refuse {α : Type} (e : UsageError) : Except Diversion α := .error (.refused e)

def raise (g : Given) (f : Flag) : Except Diversion Given :=
  if f ∈ g.flags then refuse .repeated else .ok { g with flags := f :: g.flags }

def number (value : String) : Except Diversion Nat :=
  match word? value with
  | some n => .ok n
  | none => refuse (.invalidNumber value)

def assign (g : Given) (s : Setting) (value : String) : Except Diversion Given :=
  match s with
  | .chunkSize =>
    if g.chunkSize.isSome then refuse .repeated else return { g with chunkSize := some (← number value) }
  | .batch => if g.batch.isSome then refuse .repeated else return { g with batch := some (← number value) }
  | .outfile => if g.outfile.isSome then refuse .repeated else return { g with outfile := some value }

def setTrace (g : Given) (arg : String) : Except Diversion Given :=
  if g.trace.isSome then refuse (.unexpectedArgument arg)
  else if arg = "" then refuse .emptyTrace
  else return { g with trace := some arg }

/-- Reads short options that are written together. A setting takes what is left as its value; if nothing is, the next
argument will be its value. -/
def readShort (g : Given) : List Char → Except Diversion (Given × Option Setting)
  | [] => .ok (g, none)
  | c :: rest =>
    match CommandOption.ofShort? c with
    | none => refuse (.unknownOption (String.ofList ['-', c]))
    | some .help => .error .help
    | some .version => .error .version
    | some (.flag f) => do readShort (← g.raise f) rest
    | some (.setting s) =>
      match rest with
      | [] => .ok (g, some s)
      | '=' :: value | value => do return (← g.assign s (String.ofList value), none)

def readLong (g : Given) (name : String) (value : Option String) : Except Diversion (Given × Option Setting) :=
  match CommandOption.ofLong? name, value with
  | none, _ => refuse (.unknownOption ("--" ++ name))
  | some (.setting s), none => .ok (g, some s)
  | some (.setting s), some value => do return (← g.assign s value, none)
  | some _, some _ => refuse (.unexpectedValue ("--" ++ name))
  | some .help, none => .error .help
  | some .version, none => .error .version
  | some (.flag f), none => do return (← g.raise f, none)

inductive Shape where
  | ordinary
  | endOfOptions
  | short (options : List Char)
  | long (name : String) (value : Option String)

def Shape.ofArgument (arg : String) : Shape :=
  match arg.toList with
  | ['-', '-'] => endOfOptions
  | '-' :: '-' :: cs =>
    match cs.dropWhile (· ≠ '=') with
    | _ :: value => long (String.ofList (cs.takeWhile (· ≠ '='))) (some (String.ofList value))
    | [] => long (String.ofList cs) none
  | '-' :: c :: cs => short (c :: cs)
  | _ => ordinary

def readAll (g : Given) : Option Setting → List String → Except Diversion Given
  | none, [] => .ok g
  | some s, [] => refuse (.missingValue s)
  | some s, arg :: rest =>
    match Shape.ofArgument arg with
    | .ordinary => do readAll (← g.assign s arg) none rest
    | _ => refuse (.missingValue s)
  | none, arg :: rest =>
    match Shape.ofArgument arg with
    | .ordinary => do readAll (← g.setTrace arg) none rest
    | .endOfOptions => rest.foldlM setTrace g
    | .short options => do
      let (g, waiting) ← g.readShort options
      readAll g waiting rest
    | .long name value => do
      let (g, waiting) ← g.readLong name value
      readAll g waiting rest

/-- The options of a dump. Raw instructions cannot be asked for along with those for print. -/
def options (g : Given) : Except Diversion DumpOptions :=
  match g.trace with
  | none => refuse .missingTrace
  | some trace =>
    if .raw ∈ g.flags ∧ .print ∈ g.flags then refuse .conflict
    else
      let d : DumpOptions := { trace }
      .ok {
        trace
        isRaw := .raw ∈ g.flags
        isPrint := .print ∈ g.flags
        chunkSize := g.chunkSize.getD d.chunkSize
        batch := g.batch.getD d.batch
        asJson := .json ∈ g.flags
        isSummary := .summary ∈ g.flags
        outfile := g.outfile.getD d.outfile }

end Given

def DumpOptions.ofArguments (args : List String) : Except Diversion DumpOptions := do
  (← Given.readAll {} none args).options

end DisplayList
