import DisplayList.Pattern

namespace DisplayList

/-- How far the latest tags go into a group: `depth` tags, which begin a group of each of the `live` patterns. -/
structure LeadIn where
  live : List Pattern
  depth : Nat
  deriving DecidableEq

namespace LeadIn

def root : LeadIn := ⟨Pattern.all, 0⟩

def isRoot (l : LeadIn) : Bool := l.depth = 0

inductive Progress where
  | miss
  | advanced (l : LeadIn)
  | complete (p : Pattern)
  deriving DecidableEq

def step (l : LeadIn) (tag : Tag) : Progress :=
  let next := l.live.filter fun p ↦ p.group[l.depth]? = some tag
  match next.find? fun p ↦ p.period = l.depth + 1 with
  | some p => .complete p
  | none => if next = [] then .miss else .advanced ⟨next, l.depth + 1⟩

/-- Reads a tag. One that does not go on with the group may still begin another. -/
def read (l : LeadIn) (tag : Tag) : Progress :=
  match l.step tag with
  | .miss => root.step tag
  | r => r

variable {l l' : LeadIn} {p : Pattern} {tag : Tag}

theorem depth_of_step (h : l.step tag = .advanced l') : l'.depth = l.depth + 1 := by
  grind [step]

theorem period_of_step (h : l.step tag = .complete p) : p.period = l.depth + 1 := by
  simp only [step] at h
  split at h
  · rename_i q hq
    obtain rfl : q = p := by simpa using h
    simpa using List.find?_some hq
  · grind

theorem depth_of_read (h : l.read tag = .advanced l') : l'.depth ≤ l.depth + 1 := by
  simp only [read] at h
  split at h
  · simp [depth_of_step h, root]
  · exact Nat.le_of_eq (depth_of_step h)

theorem period_of_read (h : l.read tag = .complete p) : p.period ≤ l.depth + 1 := by
  simp only [read] at h
  split at h
  · simp [period_of_step h, root]
  · exact Nat.le_of_eq (period_of_step h)

end LeadIn

end DisplayList
