import DisplayList.Batching
import DisplayList.LeadIn

/-!
Batching of runs while a queue is being filled.

The optimizer looks at the queue after each instruction and goes on from where it stopped. It is either looking for
the first group of a run, or following a run that is open. A flush deals with the open run as if the input ended
there.
-/

namespace DisplayList

structure Run where
  pattern : Pattern
  first : Nat
  deriving DecidableEq

structure Optimizer where
  limits : Limits := {}
  leadIn : LeadIn := .root
  run : Option Run := none
  /-- The index of the first instruction not yet looked at. -/
  resume : Nat := 0

namespace Optimizer

def isMatching (o : Optimizer) : Bool := o.run.isSome || !o.leadIn.isRoot

def reset (o : Optimizer) : Optimizer := { limits := o.limits }

/-- The index from which on the queue may still change. -/
def start (o : Optimizer) : Nat :=
  match o.run with
  | some run => run.first
  | none => o.resume - o.leadIn.depth

/-- Looks at every instruction that it has not looked at. Batching a run must leave less to do than there was. -/
def scan (o : Optimizer) (c : Columns) : Except Fault (Optimizer × Columns) :=
  if _ : o.resume < c.size then
    match _hr : o.run with
    | some run => do
      if ← run.pattern.continues c run.first o.resume then
        scan { o with resume := o.resume + 1 } c
      else
        let r ← run.pattern.batch o.limits c run.first o.resume
        if r.columns.size - r.resume < c.size - run.first then
          scan { limits := o.limits, resume := r.resume } r.columns
        else
          .error .noProgress
    | none => do
      match hs : o.leadIn.read (← c.tagAt o.resume) with
      | .miss => scan { o with leadIn := .root, resume := o.resume + 1 } c
      | .advanced l => scan { o with leadIn := l, resume := o.resume + 1 } c
      | .complete p =>
        if p.period ≤ o.resume + 1 then
          let first := o.resume + 1 - p.period
          if ← p.admits c first then
            scan { o with leadIn := .root, run := some ⟨p, first⟩, resume := o.resume + 1 } c
          else
            scan { o with leadIn := .root, resume := o.resume + 1 } c
        else
          .error .belowZero
  else
    .ok (o, c)
termination_by (c.size - o.start, c.size - o.resume)
decreasing_by
  all_goals simp only [start, _hr, Prod.lex_def, LeadIn.root, true_and]
  all_goals try have := LeadIn.depth_of_read hs
  all_goals try have := LeadIn.period_of_read hs
  all_goals omega

/-- How much there is to do before no run is open. If the queue was replaced while the run was open it may hold no
whole group of it, and scanning starts over where the run began, so there is more to do. -/
def pending (o : Optimizer) (c : Columns) : Nat :=
  match o.run with
  | some run => 2 * (c.size - run.first) + if run.first + run.pattern.period ≤ c.size then 1 else 2
  | none => 0

def settle (o : Optimizer) (c : Columns) : Except Fault (Optimizer × Columns) :=
  match o.run with
  | some run => do
    let r ← run.pattern.batch o.limits c run.first c.size
    let s ← scan { limits := o.limits, resume := r.resume } r.columns
    if s.1.pending s.2 < o.pending c then settle s.1 s.2 else .error .noProgress
  | none => .ok (o, c)
termination_by o.pending c

/-- Scans an instruction that was just added. One that cannot begin a group needs no scan while nothing is being
recognised. -/
def scanLast (o : Optimizer) (c : Columns) : Except Fault (Optimizer × Columns) :=
  if !o.isMatching && o.resume + 1 = c.size && !(c.tags.back?.any Pattern.begins) then
    .ok ({ o with resume := c.size }, c)
  else
    o.scan c

/-- Adds an instruction to the queue and scans it. For valid limits the scan meets no fault; otherwise the queue is
left as it is, and what was recognised of it is forgotten. -/
def push (o : Optimizer) (c : Columns) (tag : Tag) (args : List Arg) : Optimizer × Columns :=
  let c := c.push tag args
  match o.scanLast c with
  | .ok r => r
  | .error _ => ({ limits := o.limits, resume := c.size }, c)

def flush (o : Optimizer) (c : Columns) : Optimizer × Columns :=
  match o.settle c with
  | .ok r => r
  | .error _ => (o, c)

end Optimizer

end DisplayList
