import DisplayList.Proofs.Lockstep
import DisplayList.Proofs.Separators

namespace DisplayList

open Columns (ofList)

namespace Sink

def enqueueAll (s : Sink) (ms : List Message) : Sink := ms.foldl (fun s m ↦ s.enqueue m) s

@[simp]
theorem enqueueAll_nil (s : Sink) : s.enqueueAll [] = s := rfl

@[simp]
theorem enqueueAll_concat (s : Sink) (ms : List Message) (m : Message) :
    s.enqueueAll (ms ++ [m]) = (s.enqueueAll ms).enqueue m := by
  simp [enqueueAll]

end Sink

namespace Builder

theorem flush_eq_ok {b b' : Builder} {isLast : Bool} (h : b.flush isLast = .ok b') :
    ∃ s, b.sink = some s ∧ b' = b.deliver s isLast := by
  rw [flush] at h
  split at h
  · rename_i s hs
    exact ⟨s, hs, (Except.ok.inj h).symm⟩
  · cases h

/-- The limits under which a new list batches, if it does. -/
def batching (options : BuilderOptions) (sink : Option Sink) : Option Limits :=
  if sink.isSome ∧ options.intent ≠ .oplist then some options.limits else none

/-- What a chunk may make of the instructions that went into it. Under limits that make no sense only the dependencies
are certain. -/
def Forms (batching : Option Limits) (s t : List Instruction) : Prop :=
  match batching with
  | none => t = s
  | some l => dependenciesIn t = dependenciesIn s ∧ (l.violation? = none → Draws l s t)

/-- A message, and the instructions that went into it. -/
structure Parcel where
  appended : List Instruction
  message : Message

namespace Parcel

def chunk (p : Parcel) : Chunk := p.message.chunk

structure Delivers (batching : Option Limits) (p : Parcel) : Prop where
  columns : ∃ q, p.chunk.columns = ofList q ∧ Forms batching p.appended q
  length : p.chunk.length = p.chunk.columns.size

theorem Delivers.aligned {batching : Option Limits} {p : Parcel} (h : p.Delivers batching) :
    p.chunk.columns.Aligned := by
  obtain ⟨q, hq, -⟩ := h.columns
  rw [hq]
  exact Columns.aligned_ofList q

end Parcel

/-- What the optimizer and the queue have made of the pending instructions so far. -/
def Pends (batching : Option Limits) (optimizer : Option Optimizer) (queue : Columns) (pending : List Instruction) :
    Prop :=
  match batching with
  | none => optimizer = none ∧ queue = ofList pending
  | some l => ∃ o q, optimizer = some o ∧ queue = ofList q ∧ o.Rests q ∧ dependenciesIn q = dependenciesIn pending ∧
    (l.violation? = none → Optimizer.pushAll ({ limits := l }, .empty) pending = (o, queue))

/-- A list that was given `sink`, with what it has delivered and what is pending. -/
structure Holds (batching : Option Limits) (sink : Option Sink) (b : Builder) (parcels : List Parcel)
    (pending : List Instruction) : Prop where
  sent : b.sink = sink.map (·.enqueueAll (parcels.map (·.message)))
  kept : sink = none → parcels = []
  delivers : ∀ p ∈ parcels, p.Delivers batching
  flushed : b.flushed = (parcels.map (·.chunk.length)).sum
  pends : Pends batching b.optimizer b.queue pending

variable {batching : Option Limits} {sink : Option Sink} {b : Builder} {parcels : List Parcel}
  {pending : List Instruction} {tag : Tag} {args : List Arg}

theorem Pends.enqueue (h : Pends batching b.optimizer b.queue pending) (tag : Tag) (args : List Arg) :
    Pends batching (b.enqueue tag args).optimizer (b.enqueue tag args).queue (pending ++ [⟨tag, args⟩]) := by
  rw [Builder.enqueue]
  cases batching with
  | none =>
    obtain ⟨ho, hq⟩ := h
    rw [ho]
    refine ⟨rfl, ?_⟩
    dsimp only
    rw [hq, Columns.push_ofList]
  | some l =>
    obtain ⟨o, q, ho, hq, hrests, hdeps, hpush⟩ := h
    rw [ho]
    dsimp only
    obtain ⟨q', hq', hrests', hdeps'⟩ := hrests.push tag args
    rw [← hq] at hq' hrests'
    refine ⟨_, q', rfl, hq', hrests', ?_, fun hl ↦ ?_⟩
    · rw [hdeps', dependenciesIn_append, hdeps, dependenciesIn_append]
    · have hpush := hpush hl
      rw [Optimizer.pushAll] at hpush ⊢
      rw [List.foldl_append, hpush]
      rfl

theorem Pends.settle (h : Pends batching b.optimizer b.queue pending) :
    (∃ q, b.settle.queue = ofList q ∧ Forms batching pending q) ∧
      Pends batching (b.settle.optimizer.map Optimizer.reset) {} [] := by
  rw [Builder.settle]
  cases batching with
  | none =>
    obtain ⟨ho, hq⟩ := h
    rw [ho]
    exact ⟨⟨pending, hq, rfl⟩, by rw [ho]; rfl, rfl⟩
  | some l =>
    obtain ⟨o, q, ho, hq, hrests, hdeps, hpush⟩ := h
    rw [ho]
    obtain ⟨q', hq', hdeps'⟩ := hrests.flush
    rw [← hq] at hq'
    refine ⟨⟨q', hq', hdeps'.trans hdeps, fun hl ↦ ?_⟩, _, [], rfl, rfl, Optimizer.rests_fresh _, rfl, fun hl ↦ ?_⟩
    · have hoptimized : (o.flush b.queue).2 = Optimizer.optimized l pending := by rw [Optimizer.optimized, hpush hl]
      obtain ⟨r, hr, hdraws⟩ := Optimizer.exists_optimized hl pending
      have hqr : q' = r := by simpa using congrArg Columns.toList (hq'.symm.trans (hoptimized.trans hr))
      rwa [hqr]
    · rw [Optimizer.reset, Optimizer.limits_of_flush (Limits.violation?_eq_none_iff.1 hl) (hpush hl)]
      rfl

theorem sink_enqueue (b : Builder) (tag : Tag) (args : List Arg) : (b.enqueue tag args).sink = b.sink := by
  rw [enqueue]
  split <;> rfl

theorem dependencies_enqueue (b : Builder) (tag : Tag) (args : List Arg) :
    (b.enqueue tag args).dependencies = b.dependencies := by
  rw [enqueue]
  split <;> rfl

theorem flushed_enqueue (b : Builder) (tag : Tag) (args : List Arg) : (b.enqueue tag args).flushed = b.flushed := by
  rw [enqueue]
  split <;> rfl

theorem flushed_settle (b : Builder) : b.settle.flushed = b.flushed := by
  rw [settle]
  split <;> rfl

theorem Holds.enqueue (h : Holds batching sink b parcels pending) (tag : Tag) (args : List Arg) (weight : Nat) :
    Holds batching sink { b.enqueue tag args with weight } parcels (pending ++ [⟨tag, args⟩]) where
  sent := (sink_enqueue b tag args).trans h.sent
  kept := h.kept
  delivers := h.delivers
  flushed := (flushed_enqueue b tag args).trans h.flushed
  pends := h.pends.enqueue tag args

theorem Holds.remember (h : Holds batching sink b parcels pending) (ids : List String) :
    Holds batching sink { b with dependencies := ids } parcels pending :=
  ⟨h.sent, h.kept, h.delivers, h.flushed, h.pends⟩

def outgoing (b : Builder) (isLast : Bool) : Message :=
  ⟨⟨b.settle.queue, isLast, b.settle.length⟩, 1, b.settle.queue.transfers⟩

theorem Holds.send (h : Holds batching sink b parcels pending) {s : Sink} (hs : b.sink = some s) (isLast : Bool) :
    Holds batching sink (b.deliver s isLast) (parcels ++ [⟨pending, b.outgoing isLast⟩]) [] := by
  obtain ⟨⟨q, hq, hforms⟩, hpends⟩ := h.pends.settle
  obtain ⟨s₀, hs₀, rfl⟩ : ∃ s₀, sink = some s₀ ∧ s₀.enqueueAll (parcels.map (·.message)) = s := by
    rw [← Option.map_eq_some_iff, ← h.sent]
    exact hs
  refine ⟨?_, ?_, ?_, ?_, hpends⟩
  · rw [Builder.deliver, hs₀]
    simp [outgoing]
  · intro hnone
    rw [hs₀] at hnone
    cases hnone
  · rw [List.forall_mem_append, List.forall_mem_singleton]
    exact ⟨h.delivers, ⟨q, hq, hforms⟩, rfl⟩
  · rw [Builder.deliver]
    simp [Builder.totalLength, flushed_settle, h.flushed, Parcel.chunk, outgoing]

theorem Holds.deliver (h : Holds batching sink b parcels pending) {s : Sink} (hs : b.sink = some s) (isLast : Bool) :
    ∃ m, m.chunk.isLast = isLast ∧
      Holds batching sink (b.deliver s isLast) (parcels ++ [⟨pending, m⟩]) [] :=
  ⟨b.outgoing isLast, rfl, h.send hs isLast⟩

theorem add_of_none (h : (b.enqueue tag args).sink = none) :
    b.add tag args = { b.enqueue tag args with weight := (b.enqueue tag args).weight + 1 } := by
  rw [Builder.add]
  split
  · rename_i s hs
    cases hs.symm.trans h
  · rfl

theorem Holds.add (h : Holds batching sink b parcels pending) (tag : Tag) (args : List Arg) :
    (Holds batching sink (b.add tag args) parcels (pending ++ [⟨tag, args⟩]) ∧
        (b.add tag args).dependencies = b.dependencies) ∨
      ∃ m, m.chunk.isLast = false ∧
        Holds batching sink (b.add tag args) (parcels ++ [⟨pending ++ [⟨tag, args⟩], m⟩]) [] ∧
        (b.add tag args).dependencies = [] := by
  have he := h.enqueue tag args ((b.enqueue tag args).weight + 1)
  cases hsink : (b.enqueue tag args).sink with
  | none =>
    rw [add_of_none hsink]
    exact .inl ⟨he, dependencies_enqueue b tag args⟩
  | some s =>
    rw [add_eq hsink]
    split
    · obtain ⟨m, hm, hd⟩ := he.deliver hsink false
      exact .inr ⟨m, hm, hd, rfl⟩
    · exact .inl ⟨he, dependencies_enqueue b tag args⟩

theorem holds_create (options : BuilderOptions) (sink : Option Sink) :
    Holds (Builder.batching options sink) sink (create options sink) [] [] where
  sent := by cases sink <;> rfl
  kept _ := rfl
  delivers _ hp := by cases hp
  flushed := rfl
  pends := by
    rw [Builder.batching, create]
    split
    · exact ⟨_, [], rfl, rfl, Optimizer.rests_fresh _, rfl, fun _ ↦ rfl⟩
    · exact ⟨rfl, rfl⟩

end Builder

end DisplayList
