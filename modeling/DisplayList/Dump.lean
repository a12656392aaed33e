import DisplayList.CommandLine
import DisplayList.Files
import DisplayList.Listing
import DisplayList.Page
import DisplayList.Trace.Reading

namespace DisplayList

inductive DumpError where
  | zeroChunkSize
  | unopened (path : String) (e : FileError)
  /-- A directory can be opened, but not read. -/
  | unread (path : String) (e : FileError)
  | unparsed (path : String)
  | unresolved (e : TraceError)
  | stopped (f : Fault)
  | unrendered (e : RenderError)
  | uncreated (path : String) (e : FileError)
  deriving DecidableEq

def DumpError.message : DumpError → String
  | zeroChunkSize => "--chunk-size must be positive"
  | unopened path e => "failed to open trace " ++ path ++ ": " ++ e.message
  | unread path e => "failed to parse trace " ++ path ++ ": " ++ e.message
  | unparsed path => "failed to parse trace " ++ path
  | unresolved e => e.message
  | stopped f => f.message
  | unrendered e => e.message
  | uncreated path e => "failed to create output file " ++ path ++ ": " ++ e.message

def DumpError.ofTraceFailure : TraceFailure → DumpError
  | .invalid e => unresolved e
  | .fault f => stopped f

namespace DumpOptions

def intent (o : DumpOptions) : Intent :=
  if o.isRaw then .oplist else if o.isPrint then .print else .display

def style (o : DumpOptions) : ListingStyle := ⟨o.asJson, o.isSummary⟩

def renderOptions (o : DumpOptions) : RenderOptions :=
  { intent := o.intent, chunking := { chunkSize := o.chunkSize } }

end DumpOptions

structure Delivery where
  messages : List Message
  total : Nat

def DumpOptions.deliver (o : DumpOptions) (page : Nat) (additions : List Addition) : Except RenderError Delivery :=
  let content := Content.ofAdditions additions o.batch
  let r := Page.render { index := page, content } (.record []) o.renderOptions {}
  r.outcome.map fun total ↦ ⟨r.sink.recorded, total⟩

def DumpOptions.listing (o : DumpOptions) (bytes : ByteArray) : Except DumpError String := do
  let trace ← ((String.fromUTF8? bytes).bind Trace.parse?).elim (.error (.unparsed o.trace)) .ok
  let additions ← trace.resolve.mapError .ofTraceFailure
  let d ← (o.deliver trace.page additions).mapError .unrendered
  return String.join ((o.style.lines d.messages d.total o.intent).map (· ++ "\n"))

structure Outcome where
  exitCode : Nat := 0
  out : String := ""
  err : String := ""
  deriving DecidableEq

namespace Outcome

def ofError (e : DumpError) : Outcome :=
  match e with
  | .stopped f => { exitCode := 101, err := f.message ++ "\n" }
  | e => { exitCode := 1, err := "Error: " ++ e.message ++ "\n" }

def ofDiversion : Diversion → Outcome
  | .help => { out := helpText }
  | .version => { out := "dumpops 0.3.0\n" }
  | .refused e => { exitCode := 2, err := "error: " ++ e.message ++ "\n" }

end Outcome

section

variable {m : Type → Type} [Monad m]

def DumpOptions.listingFrom (o : DumpOptions) (files : Files m) : m (Except DumpError String) := do
  if o.chunkSize = 0 then return .error .zeroChunkSize
  match ← files.read o.trace with
  | .error .isDirectory => return .error (.unread o.trace .isDirectory)
  | .error e => return .error (.unopened o.trace e)
  | .ok bytes => return o.listing bytes

def DumpOptions.run (o : DumpOptions) (files : Files m) : m Outcome := do
  match ← o.listingFrom files with
  | .error e => return .ofError e
  | .ok listing =>
    if o.outfile = "-" then return { out := listing }
    match ← files.write o.outfile listing with
    | .error e => return .ofError (.uncreated o.outfile e)
    | .ok () => return {}

def dump (files : Files m) (args : List String) : m Outcome :=
  match DumpOptions.ofArguments args with
  | .error d => return .ofDiversion d
  | .ok o => o.run files

end

end DisplayList
