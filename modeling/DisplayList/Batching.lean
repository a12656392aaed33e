import DisplayList.Atlas
import DisplayList.Limits
import DisplayList.Pattern

namespace DisplayList

/-- The queue after a run was dealt with, and where scanning goes on. -/
structure Batching where
  columns : Columns
  resume : Nat

namespace Columns

def argsEvery (c : Columns) (start step count : Nat) : Except Fault (List (List Arg)) :=
  (List.range count).mapM fun k ↦ c.argsAt (start + step * k)

end Columns

def origins (transforms : List (List Arg)) : List Float32 :=
  transforms.flatMap fun t ↦
    [((numberAt? t 4).getD 0.0).toFloat32, ((numberAt? t 5).getD 0.0).toFloat32]

def repeatArgs (subject : Arg) (transforms : List (List Arg)) : List Arg :=
  let head := transforms.headD []
  [subject, .number ((numberAt? head 0).getD 1.0), .number ((numberAt? head 3).getD 1.0),
    .positions (origins transforms)]

namespace Pattern

/-- The run stays, and scanning goes on with the group that it left unfinished. -/
def leave (p : Pattern) (c : Columns) (first stop : Nat) : Except Fault Batching := do
  return ⟨c, ← distance ((← distance first stop) % p.period) stop⟩

def collapse (c : Columns) (first count : Nat) (tag : Tag) (args : List Arg) : Except Fault Batching := do
  return ⟨← c.replaceIn first (first + 4 * count) tag args, first + 1⟩

def batchInlineImages (l : Limits) (c : Columns) (first stop : Nat) : Except Fault Batching := do
  let count := min ((← distance first stop) / 4) l.maxInlineImages
  if count < l.minInlineImages then
    inlineImages.leave c first stop
  else
    let transforms ← c.argsEvery (first + 1) 4 count
    let paints ← c.argsEvery (first + 2) 4 count
    match paints.mapM firstImage? with
    | none => inlineImages.leave c first stop
    | some resources =>
      let items := transforms.zipWith (fun t r ↦ ⟨t, r.image⟩) resources
      let atlas ← Atlas.pack items l.maxAtlasWidth l.atlasPadding
      collapse c first count .paintInlineImageGroup
        [.image ⟨none, atlas.image⟩, .placements atlas.placements]

/-- How many groups, from the first one on, paint `mask` as the first group does. -/
def repeats (mask : Resource) (transforms paints : List (List Arg)) : Nat :=
  let head := transforms.headD []
  let alike := (transforms.zip paints).tail.takeWhile fun (t, p) ↦
    p.head?.any (·.sharesWith (.image mask)) && sameScale head t
  alike.length + 1

/-- Batches `count` masks, none of the first ones solid: repeats of one mask if enough of them lead the run, else a
group of masks. -/
def collapseMasks (l : Limits) (c : Columns) (first stop count : Nat) : Except Fault Batching := do
  let transforms ← c.argsEvery (first + 1) 4 count
  let paints ← c.argsEvery (first + 2) 4 count
  match firstImage? (← c.argsAt (first + 2)) with
  | none => imageMasks.leave c first stop
  | some mask =>
    let same := repeats mask transforms paints
    if isUpright (transforms.headD []) && l.minImageMasks ≤ same then
      let count := min same l.maxSameImageMasks
      collapse c first count .paintImageMaskRepeat (repeatArgs (.image mask) (transforms.take count))
    else
      let count := min count l.maxImageMasks
      match (paints.take count).mapM firstImage? with
      | none => imageMasks.leave c first stop
      | some masks =>
        collapse c first count .paintImageMaskGroup [.masks (masks.zipWith MaskEntry.mk transforms)]

def batchImageMasks (l : Limits) (c : Columns) (first stop : Nat) : Except Fault Batching := do
  let total := (← distance first stop) / 4
  let solid := ((← c.argsEvery (first + 2) 4 total).takeWhile paintsSolidUnit).length
  let c ← (List.range solid).foldlM (fun c k ↦ c.retagAt (first + 4 * k + 2) .paintSolidMask) c
  let first := first + 4 * solid
  let count ← distance solid total
  if count < l.minImageMasks then imageMasks.leave c first stop else collapseMasks l c first stop count

def batchImages (l : Limits) (c : Columns) (first stop : Nat) : Except Fault Batching := do
  let count := min ((← distance first stop) / 4) l.maxImages
  if count < l.minImages then
    images.leave c first stop
  else
    let transforms ← c.argsEvery (first + 1) 4 count
    let paint ← c.argsAt (first + 2)
    collapse c first count .paintImageRepeat (repeatArgs (paint.headD .null) transforms)

/-- Whether the four instructions before `first` end a text in the font that is set after `first`. What comes before
them does not matter: it is the start of their text, or the dependency that their font was announced by. -/
def endsSameText (c : Columns) (first : Nat) : Except Fault Bool :=
  if first < 4 then
    return false
  else do
    let before ← distance 4 first
    let tags ← (List.range 4).mapM fun k ↦ c.tagAt (before + k)
    if tags = [.setFont, .setTextMatrix, .showText, .endText] then
      return Arg.sharesWithAll (← c.argsAt before) (← c.argsAt (first + 1))
    else
      return false

/-- The end of each text but the last, and the start and the font of each but the first, are dropped. A text before
the run in the same font joins in. -/
def batchGlyphRuns (l : Limits) (c : Columns) (first stop : Nat) : Except Fault Batching := do
  let count := min ((← distance first stop) / 5) l.maxGlyphRuns
  if count < l.minGlyphRuns then
    glyphRuns.leave c first stop
  else
    let joins ← endsSameText c first
    let firstEnd ← if joins then distance 1 first else pure (first + 4)
    let joints ← distance 1 (if joins then count + 1 else count)
    let c ← c.retainIn firstEnd (firstEnd + 5 * joints) (fun offset ↦ 3 ≤ offset % 5)
    return ⟨c, firstEnd + 2 * joints + 1⟩

def batch : Pattern → Limits → Columns → Nat → Nat → Except Fault Batching
  | inlineImages => batchInlineImages
  | imageMasks => batchImageMasks
  | images => batchImages
  | glyphRuns => batchGlyphRuns

end Pattern

end DisplayList
