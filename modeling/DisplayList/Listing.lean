import DisplayList.Chunk
import DisplayList.Decimal.Format
import DisplayList.Intent
import DisplayList.Json.Text

namespace DisplayList

/-- Numbers for a reader have all their places, and no point if they are whole. -/
def plainNumbers : Decimal.Format := ⟨fun _ ↦ true, "", "", .up⟩

namespace Arg

def bracketed (items : List String) : String := "[" ++ " ".intercalate items ++ "]"

mutual

def text : Arg → String
  | null => "null"
  | bool b => if b then "true" else "false"
  | int n => toString n
  | number x => plainNumbers.float x
  | name s => "/" ++ s
  | bytes b => "(" ++ toString b.size ++ " bytes)"
  | array items => bracketed (texts items)
  | rect r => "rect" ++ bracketed (r.toList.map plainNumbers.float)
  | matrix m => "matrix" ++ bracketed (m.toList.map plainNumbers.float)
  | image ⟨_, i⟩ =>
    "image(" ++ toString i.width ++ "x" ++ toString i.height ++ if i.cached then ", cached)" else ")"
  | positions p => "positions" ++ bracketed [toString (p.length / 2)]
  | placements p => "placements" ++ bracketed [toString p.length]
  | masks m => "masks" ++ bracketed [toString m.length]

def texts : List Arg → List String
  | [] => []
  | a :: rest => text a :: texts rest

end

mutual

/-- The argument as JSON. What JSON has no form for is given as a reader sees it. -/
def json : Arg → String
  | null => "null"
  | bool b => Json.bool b
  | int n => toString n
  | number x => Json.float x
  | name s => Json.quote s
  | array items => Json.array (jsons items)
  | rect r => Json.array (r.toList.map Json.float)
  | matrix m => Json.array (m.toList.map Json.float)
  | positions p => Json.array (p.map fun x ↦ Json.float x.toFloat)
  | other => Json.quote other.text

def jsons : List Arg → List String
  | [] => []
  | a :: rest => json a :: jsons rest

end

end Arg

namespace Instruction

def line (i : Instruction) : String := "  " ++ " ".intercalate (i.tag.text :: i.args.map Arg.text)

def json (i : Instruction) : String :=
  Json.object [("args", Json.array (i.args.map Arg.json)), ("op", Json.quote i.tag.text)]

end Instruction

namespace Message

def headLine (m : Message) (index : Nat) : String :=
  "chunk " ++ toString index ++ ": " ++ toString m.chunk.length ++ " ops, " ++
    toString m.transfers.length ++ " transfers" ++ if m.chunk.isLast then ", last" else ""

def lines (m : Message) (index : Nat) (isSummary : Bool) : List String :=
  m.headLine index :: if isSummary then [] else m.chunk.columns.toList.map Instruction.line

def json (m : Message) (index : Nat) (isSummary : Bool) : String :=
  let ops := ("ops", Json.array (m.chunk.columns.toList.map Instruction.json))
  Json.object <|
    [("chunk", toString index), ("lastChunk", Json.bool m.chunk.isLast), ("length", toString m.chunk.length)] ++
      (if isSummary then [] else [ops]) ++ [("transfers", toString m.transfers.length)]

end Message

structure ListingStyle where
  asJson : Bool := false
  isSummary : Bool := false

namespace ListingStyle

def messageLines (s : ListingStyle) (m : Message) (index : Nat) : List String :=
  if s.asJson then [m.json index s.isSummary] else m.lines index s.isSummary

/-- All messages, numbered from zero. A reader is also told how many instructions there were, and what for. -/
def lines (s : ListingStyle) (ms : List Message) (total : Nat) (intent : Intent) : List String :=
  ms.zipIdx.flatMap (fun (m, index) ↦ s.messageLines m index) ++
    if s.asJson then [] else ["total: " ++ toString total ++ " ops (" ++ intent.text ++ ")"]

end ListingStyle

end DisplayList
