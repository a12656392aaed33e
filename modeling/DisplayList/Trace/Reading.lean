import DisplayList.Json.Tree
import DisplayList.Trace.Basic

namespace DisplayList

open Json (Tree Member)

namespace PixelKind

def ofName? : String → Option PixelKind
  | "gray1" => some gray1
  | "rgb" => some rgb
  | "rgba" => some rgba
  | _ => none

/-- A name, or an object whose only member has that name and no value. -/
def ofJson? : Tree → Option PixelKind
  | .string s => (Json.text? s).bind ofName?
  | .object [⟨key, .null⟩] => (Json.text? key).bind ofName?
  | _ => none

end PixelKind

namespace TraceImage

def ofFields? (id width height kind fill cached : Option Tree) : Option TraceImage := do
  let id ← (← id).string?
  let width ← (← width).nat? UInt32.size
  let height ← (← height).nat? UInt32.size
  let kind ← kind.elim (some .rgba) PixelKind.ofJson?
  let fill ← fill.elim (some 0) (·.nat? 256)
  let cached ← cached.elim (some false) Tree.bool?
  return { id, width, height, kind, fill := fill.toUInt8, cached }

def ofJson? : Tree → Option TraceImage
  | .object ms => do
    ofFields? (← Tree.member? ms "id") (← Tree.member? ms "width") (← Tree.member? ms "height")
      (← Tree.member? ms "kind") (← Tree.member? ms "fill") (← Tree.member? ms "cached")
  | .array vs =>
    if vs.length ≤ 6 then ofFields? vs[0]? vs[1]? vs[2]? vs[3]? vs[4]? vs[5]? else none
  | _ => none

end TraceImage

namespace TraceArg

def ofNumber : Json.Number → TraceArg
  | .integer n => if n < 0x8000000000000000 then int n else number n.toNat.toUInt64.toFloat
  | .float x => number x

mutual

def ofJson? : Tree → Option TraceArg
  | .null => some null
  | .bool b => some (bool b)
  | .number n => n.value?.map ofNumber
  | .string s => (Json.text? s).map name
  | .object ms => do return image (← TraceImage.ofJson? (← (← Tree.member? ms "image")))
  | .array vs => (ofAll? vs).map array

def ofAll? : List Tree → Option (List TraceArg)
  | [] => some []
  | v :: vs => do return (← ofJson? v) :: (← ofAll? vs)

end

end TraceArg

def TagRef.ofJson? (v : Tree) : Option TagRef :=
  ((v.nat? 256).map fun n ↦ code n.toUInt8).or (v.string?.map name)

namespace TraceEntry

def dependency? (ms : List (Member Tree)) : Option TraceEntry := do
  return dependency (← (← (← Tree.member? ms "dependency")).string?)

def instruction? (ms : List (Member Tree)) : Option TraceEntry := do
  let tag ← TagRef.ofJson? (← (← Tree.member? ms "op"))
  match ← Tree.member? ms "args" with
  | none => return instruction tag []
  | some (.array vs) => return instruction tag (← TraceArg.ofAll? vs)
  | some _ => none

def ofJson? : Tree → Option TraceEntry
  | .object ms => (dependency? ms).or (instruction? ms)
  | _ => none

end TraceEntry

namespace Trace

def entries? (depth : Nat) (v : Tree) : Option (List TraceEntry) := do
  guard (v.isReadable depth)
  match v with
  | .array vs => vs.mapM TraceEntry.ofJson?
  | _ => none

def ofFields? (page entries : Option Tree) : Option Trace := do
  let page ← page.elim (some 0) (·.nat? UInt64.size)
  return { page, entries := ← entries? 126 (← entries) }

/-- A trace is an object, or an array of the page and the entries. -/
def ofJson? : Tree → Option Trace
  | .object ms => do
    guard (ms.all fun m ↦ (Json.text? m.key).isSome)
    ofFields? (← Tree.member? ms "page") (← Tree.member? ms "ops")
  | .array vs => if vs.length ≤ 2 then ofFields? vs[0]? vs[1]? else none
  | _ => none

def parse? (s : String) : Option Trace := (Tree.parse? s).bind ofJson?

end Trace

end DisplayList
