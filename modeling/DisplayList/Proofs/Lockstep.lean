import DisplayList.Builder
import DisplayList.Proofs.Preservation
import Mathlib.Data.List.Forall2

namespace DisplayList

open Columns (ofList)

namespace Builder

inductive Call where
  | add (tag : Tag) (args : List Arg)
  | addDependency (id : String)
  | addDependencies (ids : List String)
  | append (other : Builder)
  | flush (isLast : Bool)

def Call.perform (b : Builder) : Call → Except RenderError Builder
  | add tag args => .ok (b.add tag args)
  | addDependency id => .ok (b.addDependency id)
  | addDependencies ids => .ok (b.addDependencies ids)
  | append other => .ok (b.append other)
  | flush isLast => b.flush isLast

def announcement (id : String) : Instruction := ⟨.dependency, [.name id]⟩

def writtenFor (b : Builder) (id : String) : List Instruction := if id ∈ b.dependencies then [] else [announcement id]

def writtenOf (b : Builder) (i : Instruction) : List Instruction :=
  match announced? i with
  | some id => if id ∈ b.dependencies then [] else [i]
  | none => [i]

/-- What a succession of edits writes, each told by what it writes and what it leaves. -/
def writtenBy {α : Type} (write : Builder → α → List Instruction) (edit : Builder → α → Builder) :
    Builder → List α → List Instruction
  | _, [] => []
  | b, a :: as => write b a ++ writtenBy write edit (edit b a) as

def Call.written (b : Builder) : Call → List Instruction
  | add tag args => [⟨tag, args⟩]
  | addDependency id => b.writtenFor id
  | addDependencies ids => writtenBy writtenFor Builder.addDependency b ids
  | append other => writtenBy writtenOf splice b other.queue.toList
  | flush _ => []

def delivered (b : Builder) : List Chunk := ((b.sink.map Sink.recorded).getD []).map (·.chunk)

structure Counterparts (l : Limits) (drawn plain : Chunk) : Prop where
  isLast : drawn.isLast = plain.isLast
  columns : drawn.columns = Optimizer.optimized l plain.columns.toList
  length : drawn.length = drawn.columns.size
  plainLength : plain.length = plain.columns.size
  aligned : plain.columns.Aligned

/-- What two lists have in common after the same calls, with all that was appended. -/
structure Lockstep (l : Limits) (appended : List Instruction) (drawn plain : Builder) : Prop where
  weight : drawn.weight = plain.weight
  dependencies : drawn.dependencies = plain.dependencies
  chunks : List.Forall₂ (Counterparts l) drawn.delivered plain.delivered
  order : plain.delivered.flatMap (·.columns.toList) ++ plain.queue.toList = appended
  aligned : plain.queue.Aligned

/-- The state behind that: what is pending in the batched list is what a fresh optimizer has made of what is pending in
the plain one so far. -/
structure Tied (l : Limits) (appended : List Instruction) (drawn plain : Builder) : Prop where
  lockstep : Lockstep l appended drawn plain
  chunking : drawn.chunking = plain.chunking
  sinks : ∃ ms ms', drawn.sink = some (.record ms) ∧ plain.sink = some (.record ms')
  optimizers : plain.optimizer = none
  queues : ∃ pending o, plain.queue = ofList pending ∧ drawn.optimizer = some o ∧
    Optimizer.pushAll ({ limits := l }, .empty) pending = (o, drawn.queue)

variable {l : Limits} {appended : List Instruction} {drawn plain : Builder}

theorem delivered_record {b : Builder} {ms : List Message} (h : b.sink = some (.record ms)) :
    b.delivered = ms.map (·.chunk) := by
  rw [delivered, h]
  rfl

theorem Tied.enqueue (h : Tied l appended drawn plain) (tag : Tag) (args : List Arg) :
    Tied l (appended ++ [⟨tag, args⟩])
      { drawn.enqueue tag args with weight := (drawn.enqueue tag args).weight + 1 }
      { plain.enqueue tag args with weight := (plain.enqueue tag args).weight + 1 } := by
  obtain ⟨pending, o, hplain, ho, hpush⟩ := h.queues
  obtain ⟨ms, ms', hms, hms'⟩ := h.sinks
  have hd : drawn.enqueue tag args =
      { drawn with optimizer := some (o.push drawn.queue tag args).1, queue := (o.push drawn.queue tag args).2 } := by
    rw [Builder.enqueue, ho]
  have hp : plain.enqueue tag args = { plain with queue := ofList (pending ++ [⟨tag, args⟩]) } := by
    rw [Builder.enqueue, h.optimizers, hplain, Columns.push_ofList]
  have horder := h.lockstep.order
  rw [hplain, Columns.toList_ofList] at horder
  rw [hd, hp]
  refine ⟨⟨congrArg (· + 1) h.lockstep.weight, h.lockstep.dependencies, h.lockstep.chunks, ?_,
    Columns.aligned_ofList _⟩, h.chunking,
    ⟨ms, ms', hms, hms'⟩, h.optimizers, pending ++ [⟨tag, args⟩], _, rfl, rfl, ?_⟩
  · rw [← horder, Columns.toList_ofList, List.append_assoc]
    rfl
  · rw [Optimizer.pushAll] at hpush ⊢
    rw [List.foldl_append, hpush]
    rfl

theorem Tied.deliver (hl : l.Valid) (h : Tied l appended drawn plain) (isLast : Bool) {sink sink' : Sink}
    (hsink : drawn.sink = some sink) (hsink' : plain.sink = some sink') :
    Tied l appended (drawn.deliver sink isLast) (plain.deliver sink' isLast) := by
  obtain ⟨pending, o, hplain, ho, hpush⟩ := h.queues
  obtain ⟨ms, ms', hms, hms'⟩ := h.sinks
  obtain rfl := Option.some.inj (hsink.symm.trans hms)
  obtain rfl := Option.some.inj (hsink'.symm.trans hms')
  have hd : drawn.settle = { drawn with
      optimizer := some (o.flush drawn.queue).1, queue := (o.flush drawn.queue).2 } := by
    rw [Builder.settle, ho]
  have hp : plain.settle = plain := by rw [Builder.settle, h.optimizers]
  have hqueue : (o.flush drawn.queue).2 = Optimizer.optimized l pending := by rw [Optimizer.optimized, hpush]
  have hreset : (o.flush drawn.queue).1.reset = { limits := l } := by
    rw [Optimizer.reset, Optimizer.limits_of_flush hl hpush]
  have hchunks := h.lockstep.chunks
  have horder := h.lockstep.order
  rw [hplain, Columns.toList_ofList, delivered_record hms'] at horder
  rw [delivered_record hms, delivered_record hms'] at hchunks
  rw [Builder.deliver, Builder.deliver, hd, hp]
  refine ⟨⟨rfl, rfl, ?_, ?_, rfl⟩, h.chunking, ⟨_, _, rfl, rfl⟩, ?_, [], _, rfl, rfl, ?_⟩
  · rw [delivered_record rfl, delivered_record rfl, List.map_append, List.map_append]
    refine List.rel_append hchunks (.cons ⟨rfl, ?_, rfl, rfl, ?_⟩ .nil)
    · rw [hplain, Columns.toList_ofList]
      exact hqueue
    · rw [hplain]
      exact Columns.aligned_ofList pending
  · rw [delivered_record rfl, List.map_append, List.flatMap_append, ← horder, hplain]
    simp
    rfl
  · rw [h.optimizers]
    rfl
  · rw [Option.map_some, hreset]
    rfl

theorem add_eq {b : Builder} {tag : Tag} {args : List Arg} {sink : Sink} (h : (b.enqueue tag args).sink = some sink) :
    b.add tag args =
      if (b.enqueue tag args).chunking.isDue ((b.enqueue tag args).weight + 1) tag then
        Builder.deliver { b.enqueue tag args with weight := (b.enqueue tag args).weight + 1 } sink false
      else { b.enqueue tag args with weight := (b.enqueue tag args).weight + 1 } := by
  rw [Builder.add]
  split
  · rename_i sink' hsink
    obtain rfl := Option.some.inj (hsink.symm.trans h)
    rfl
  · rename_i hsink
    cases hsink.symm.trans h

theorem Tied.add (hl : l.Valid) (h : Tied l appended drawn plain) (tag : Tag) (args : List Arg) :
    Tied l (appended ++ [⟨tag, args⟩]) (drawn.add tag args) (plain.add tag args) := by
  have he := h.enqueue tag args
  obtain ⟨ms, ms', hms, hms'⟩ := he.sinks
  have hdue := congrArg₂ (fun (c : Chunking) w ↦ c.isDue w tag) he.chunking he.lockstep.weight
  dsimp only at hdue
  rw [add_eq hms, add_eq hms', ← hdue]
  split
  · exact he.deliver hl false hms hms'
  · exact he

theorem Tied.announce (h : Tied l appended drawn plain) (id : String) :
    Tied l appended { drawn with dependencies := id :: drawn.dependencies }
      { plain with dependencies := id :: plain.dependencies } :=
  ⟨⟨h.lockstep.weight, congrArg (id :: ·) h.lockstep.dependencies, h.lockstep.chunks, h.lockstep.order,
    h.lockstep.aligned⟩, h.chunking, h.sinks, h.optimizers, h.queues⟩

theorem Tied.addDependency (hl : l.Valid) (h : Tied l appended drawn plain) (id : String) :
    Tied l (appended ++ plain.writtenFor id) (drawn.addDependency id) (plain.addDependency id) := by
  rw [Builder.addDependency, Builder.addDependency, writtenFor, h.lockstep.dependencies]
  split
  · rwa [List.append_nil]
  · have hadd := (h.announce id).add hl .dependency [.name id]
    rwa [h.lockstep.dependencies] at hadd

theorem Tied.splice (hl : l.Valid) (h : Tied l appended drawn plain) (i : Instruction) :
    Tied l (appended ++ plain.writtenOf i) (drawn.splice i) (plain.splice i) := by
  rw [Builder.splice, Builder.splice, writtenOf]
  cases announced? i with
  | none => exact h.add hl i.tag i.args
  | some id =>
    dsimp only
    rw [h.lockstep.dependencies]
    split
    · rwa [List.append_nil]
    · have hadd := (h.announce id).add hl i.tag i.args
      rwa [h.lockstep.dependencies] at hadd

theorem Tied.foldl {α : Type} {write : Builder → α → List Instruction} {edit : Builder → α → Builder}
    (hedit : ∀ appended drawn plain a, Tied l appended drawn plain →
      Tied l (appended ++ write plain a) (edit drawn a) (edit plain a))
    (h : Tied l appended drawn plain) (as : List α) :
    Tied l (appended ++ writtenBy write edit plain as) (as.foldl edit drawn) (as.foldl edit plain) := by
  induction as generalizing appended drawn plain with
  | nil => rwa [writtenBy, List.append_nil]
  | cons a as ih =>
    rw [writtenBy, ← List.append_assoc]
    exact ih (hedit _ _ _ a h)

theorem Tied.perform (hl : l.Valid) (h : Tied l appended drawn plain) (c : Call) :
    ∃ drawn' plain', c.perform drawn = .ok drawn' ∧ c.perform plain = .ok plain' ∧
      Tied l (appended ++ c.written plain) drawn' plain' := by
  cases c with
  | add tag args => exact ⟨_, _, rfl, rfl, h.add hl tag args⟩
  | addDependency id => exact ⟨_, _, rfl, rfl, h.addDependency hl id⟩
  | addDependencies ids => exact ⟨_, _, rfl, rfl, h.foldl (fun _ _ _ id h ↦ h.addDependency hl id) ids⟩
  | append other => exact ⟨_, _, rfl, rfl, h.foldl (fun _ _ _ i h ↦ h.splice hl i) other.queue.toList⟩
  | flush isLast =>
    obtain ⟨ms, ms', hms, hms'⟩ := h.sinks
    refine ⟨drawn.deliver (.record ms) isLast, plain.deliver (.record ms') isLast, ?_, ?_, ?_⟩
    · rw [Call.perform, Builder.flush, hms]
    · rw [Call.perform, Builder.flush, hms']
    · rw [Call.written, List.append_nil]
      exact h.deliver hl isLast hms hms'

def appendedBy : Builder → List Call → List Instruction
  | _, [] => []
  | b, c :: cs =>
    match c.perform b with
    | .ok b' => c.written b ++ appendedBy b' cs
    | .error _ => c.written b

theorem Tied.calls (hl : l.Valid) (h : Tied l appended drawn plain) (cs : List Call) :
    ∃ drawn' plain', cs.foldlM Call.perform drawn = .ok drawn' ∧ cs.foldlM Call.perform plain = .ok plain' ∧
      Tied l (appended ++ appendedBy plain cs) drawn' plain' := by
  induction cs generalizing appended drawn plain with
  | nil => exact ⟨drawn, plain, rfl, rfl, by rwa [appendedBy, List.append_nil]⟩
  | cons c cs ih =>
    obtain ⟨drawn₁, plain₁, hd, hp, h₁⟩ := h.perform hl c
    obtain ⟨drawn', plain', hd', hp', h'⟩ := ih h₁
    refine ⟨drawn', plain', ?_, ?_, ?_⟩
    · rw [List.foldlM_cons, hd, ok_bind, hd']
    · rw [List.foldlM_cons, hp, ok_bind, hp']
    · rwa [appendedBy, hp, ← List.append_assoc]

theorem tied_create (options : BuilderOptions) {intent : Intent} (hi : intent ≠ .oplist) :
    Tied options.limits [] (create { options with intent } (some (.record [])))
      (create { options with intent := .oplist } (some (.record []))) :=
  ⟨⟨rfl, rfl, .nil, rfl, rfl⟩, rfl, ⟨[], [], rfl, rfl⟩, rfl, [], _, rfl, if_pos ⟨rfl, hi⟩, rfl⟩

/-- Whatever is asked of both, a list that is drawn and one that is asked for as it is stay in step. -/
theorem lists_in_lockstep (options : BuilderOptions) (hl : options.limits.violation? = none) (cs : List Call) :
    ∃ drawn plain,
      cs.foldlM Call.perform (create { options with intent := .display } (some (.record []))) = .ok drawn ∧
      cs.foldlM Call.perform (create { options with intent := .oplist } (some (.record []))) = .ok plain ∧
      Lockstep options.limits (appendedBy (create { options with intent := .oplist } (some (.record []))) cs)
        drawn plain := by
  obtain ⟨drawn, plain, hd, hp, h⟩ :=
    (tied_create options (show Intent.display ≠ .oplist by decide)).calls (Limits.violation?_eq_none_iff.1 hl) cs
  exact ⟨drawn, plain, hd, hp, h.lockstep⟩

def straddling : List Call :=
  Optimizer.scattered.map (fun i ↦ .add i.tag i.args) ++
    [.addDependencies ["font", "font"], .append (empty.addDependency "font"), .flush true]

theorem straddling_in_lockstep :
    ({ chunking := ⟨6, 0⟩ } : BuilderOptions).limits.violation? = none ∧ ∃ drawn plain,
      straddling.foldlM Call.perform (create { chunking := ⟨6, 0⟩, intent := .display } (some (.record []))) =
        .ok drawn ∧
      straddling.foldlM Call.perform (create { chunking := ⟨6, 0⟩, intent := .oplist } (some (.record []))) =
        .ok plain ∧
      Lockstep {} (appendedBy (create { chunking := ⟨6, 0⟩, intent := .oplist } (some (.record []))) straddling)
        drawn plain :=
  ⟨by decide, lists_in_lockstep { chunking := ⟨6, 0⟩ } (by decide) straddling⟩

end Builder

end DisplayList
