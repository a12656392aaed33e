namespace DisplayList

/-- How long a run has to be before it is batched, and how much one batch may hold. The numbers have no bound;
`InRange` tells for which streams machine words hold all that is computed under them. -/
structure Limits where
  minInlineImages : Nat := 10
  maxInlineImages : Nat := 200
  maxAtlasWidth : Nat := 1000
  atlasPadding : Nat := 1
  minImageMasks : Nat := 10
  maxImageMasks : Nat := 100
  maxSameImageMasks : Nat := 1000
  minImages : Nat := 3
  maxImages : Nat := 1000
  minGlyphRuns : Nat := 3
  maxGlyphRuns : Nat := 1000
  deriving DecidableEq

inductive Batched where
  | inlineImages
  | imageMasks
  | sameImageMasks
  | images
  | glyphRuns
  deriving DecidableEq

def Batched.text : Batched → String
  | inlineImages => "inline images"
  | imageMasks => "image masks"
  | sameImageMasks => "same image masks"
  | images => "images"
  | glyphRuns => "glyph runs"

inductive LimitViolation where
  | zeroMinimum (what : Batched)
  | capBelowMinimum (what : Batched) (cap minimum : Nat)
  | zeroAtlasWidth
  deriving DecidableEq

def LimitViolation.message : LimitViolation → String
  | zeroMinimum what => "minimum for " ++ what.text ++ " must be positive"
  | capBelowMinimum what cap minimum =>
    "cap for " ++ what.text ++ " (" ++ toString cap ++ ") is below its minimum (" ++ toString minimum ++ ")"
  | zeroAtlasWidth => "atlas width must be positive"

namespace Limits

def ranges (l : Limits) : List (Batched × Nat × Nat) :=
  [(.inlineImages, l.minInlineImages, l.maxInlineImages),
    (.imageMasks, l.minImageMasks, l.maxImageMasks),
    (.sameImageMasks, l.minImageMasks, l.maxSameImageMasks),
    (.images, l.minImages, l.maxImages),
    (.glyphRuns, l.minGlyphRuns, l.maxGlyphRuns)]

def rangeViolation? : Batched × Nat × Nat → Option LimitViolation
  | (what, least, most) =>
    if least = 0 then some (.zeroMinimum what)
    else if most < least then some (.capBelowMinimum what most least)
    else none

/-- The first limit at fault: a minimum of nothing, a cap below its minimum, an atlas without width. -/
def violation? (l : Limits) : Option LimitViolation :=
  (l.ranges.findSome? rangeViolation?).or (if l.maxAtlasWidth = 0 then some .zeroAtlasWidth else none)

structure Valid (l : Limits) : Prop where
  inlineImages : 0 < l.minInlineImages ∧ l.minInlineImages ≤ l.maxInlineImages
  imageMasks : 0 < l.minImageMasks ∧ l.minImageMasks ≤ l.maxImageMasks
  sameImageMasks : l.minImageMasks ≤ l.maxSameImageMasks
  images : 0 < l.minImages ∧ l.minImages ≤ l.maxImages
  glyphRuns : 0 < l.minGlyphRuns ∧ l.minGlyphRuns ≤ l.maxGlyphRuns
  atlasWidth : 0 < l.maxAtlasWidth

theorem rangeViolation?_eq_none_iff {r : Batched × Nat × Nat} :
    rangeViolation? r = none ↔ 0 < r.2.1 ∧ r.2.1 ≤ r.2.2 := by
  obtain ⟨what, least, most⟩ := r
  grind [rangeViolation?]

theorem violation?_eq_none_iff {l : Limits} : l.violation? = none ↔ l.Valid := by
  constructor
  · intro h
    simp only [violation?, Option.or_eq_none_iff, List.findSome?_eq_none_iff, ranges, List.mem_cons,
      rangeViolation?_eq_none_iff, List.not_mem_nil, or_false, forall_eq_or_imp, forall_eq] at h
    obtain ⟨⟨hi, hm, hs, hg, ht⟩, hw⟩ := h
    exact ⟨hi, hm, hs.2, hg, ht, by grind⟩
  · rintro ⟨hi, hm, hs, hg, ht, hw⟩
    simp only [violation?, Option.or_eq_none_iff, List.findSome?_eq_none_iff, ranges, List.mem_cons,
      rangeViolation?_eq_none_iff, List.not_mem_nil, or_false, forall_eq_or_imp, forall_eq]
    exact ⟨⟨hi, hm, ⟨hm.1, hs⟩, hg, ht⟩, by grind⟩

end Limits

end DisplayList
