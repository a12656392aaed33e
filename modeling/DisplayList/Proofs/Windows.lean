import DisplayList.Proofs.Dependencies
import DisplayList.Proofs.Edits
import DisplayList.Proofs.Events

namespace DisplayList

namespace Chunking

/-- A window completes a chunk if it has the full size, or is close to it and ends where a scope closes. -/
def Completes (c : Chunking) (window : List Instruction) : Prop :=
  window.length = max 1 c.chunkSize ∨
    c.nearMark ≤ window.length ∧ window.length < c.chunkSize ∧ window.getLast?.any (·.tag.closesScope)

/-- Neither the window nor anything that it began with completes a chunk. -/
def IsOpen (c : Chunking) (window : List Instruction) : Prop := ∀ front, front <+: window → ¬ c.Completes front

variable {c : Chunking} {window : List Instruction} {i : Instruction}

theorem isOpen_nil (c : Chunking) : c.IsOpen [] := by
  intro front hfront
  rw [List.prefix_nil.1 hfront]
  rintro (h | ⟨-, -, h⟩)
  · rw [List.length_nil] at h
    omega
  · simp at h

theorem IsOpen.length_lt (h : c.IsOpen window) : window.length < max 1 c.chunkSize := by
  by_contra! hle
  refine h (window.take (max 1 c.chunkSize)) (List.take_prefix _ _) (.inl ?_)
  rw [List.length_take, Nat.min_eq_left hle]

theorem IsOpen.isDue_iff (h : c.IsOpen window) (i : Instruction) :
    c.isDue (window.length + 1) i.tag ↔ c.Completes (window ++ [i]) := by
  have hlt := h.length_lt
  simp only [isDue, Completes, Bool.or_eq_true, Bool.and_eq_true, decide_eq_true_eq, List.length_append,
    List.length_singleton, List.getLast?_concat, Option.any_some]
  by_cases hfull : c.chunkSize ≤ window.length + 1
  · have hmax : window.length + 1 = max 1 c.chunkSize := by omega
    simp [hmax]
  · have hmax : window.length + 1 ≠ max 1 c.chunkSize := by omega
    simp [hfull, hmax, Nat.lt_of_not_le hfull]

theorem IsOpen.concat (h : c.IsOpen window) (hi : ¬ c.Completes (window ++ [i])) : c.IsOpen (window ++ [i]) := by
  intro front hfront
  obtain rfl | hfront := List.prefix_concat_iff.1 hfront
  · exact hi
  · exact h front hfront

end Chunking

namespace Builder

open Columns (ofList)

/-- A parcel, with the flag of the flush that ended it, if the list did not end it by itself. -/
structure Window extends Parcel where
  asked : Option Bool

namespace Window

def events (w : Window) : List Event := w.appended.map .appended ++ (w.asked.map Event.flushed).toList

/-- The list ends a window where it first completes a chunk, and not as the last one. A flush ends it before that. -/
def EndsBy (c : Chunking) (w : Window) : Prop :=
  match w.asked with
  | none => w.chunk.isLast = false ∧ c.Completes w.appended ∧
    ∀ front, front <+: w.appended → front ≠ w.appended → ¬ c.Completes front
  | some isLast => w.chunk.isLast = isLast ∧ c.IsOpen w.appended

end Window

structure ComesOf (l : Limits) (pending : List Instruction) (b : Builder) : Prop where
  limits : ∀ o ∈ b.optimizer, o.limits = l
  edited : Edited l pending b.queue

/-- What a window gave way to when it was delivered. -/
structure Window.Leaves (options : BuilderOptions) (w : Window) : Prop where
  ends : w.EndsBy options.chunking
  edited : Edited options.limits w.appended w.chunk.columns
  transfers : w.message.transfers = w.chunk.columns.transfers

/-- A list that was given `sink` has delivered some windows, and something is pending. -/
structure Divided (options : BuilderOptions) (sink : Sink) (b : Builder) (windows : List Window)
    (pending : List Instruction) : Prop where
  holds : b.Holds (batching options (some sink)) (some sink) (windows.map (·.toParcel)) pending
  leaves : ∀ w ∈ windows, w.Leaves options
  chunking : b.chunking = options.chunking
  comes : b.ComesOf options.limits pending

structure Windowed (options : BuilderOptions) (sink : Sink) (b : Builder) (es : List Event) (windows : List Window)
    (pending : List Instruction) : Prop where
  divided : Divided options sink b windows pending
  events : es = windows.flatMap Window.events ++ pending.map .appended
  isOpen : options.chunking.IsOpen pending
  weight : b.weight = pending.length

def IsWindowed (options : BuilderOptions) (sink : Sink) (b : Builder) (es : List Event) : Prop :=
  ∃ windows pending, Windowed options sink b es windows pending

variable {options : BuilderOptions} {sink s : Sink} {b : Builder} {es : List Event} {windows : List Window}
  {pending : List Instruction} {tag : Tag} {args : List Arg}

section Fields

theorem weight_enqueue (b : Builder) (tag : Tag) (args : List Arg) : (b.enqueue tag args).weight = b.weight := by
  rw [enqueue]
  split <;> rfl

theorem chunking_enqueue (b : Builder) (tag : Tag) (args : List Arg) : (b.enqueue tag args).chunking = b.chunking := by
  rw [enqueue]
  split <;> rfl

theorem chunking_settle (b : Builder) : b.settle.chunking = b.chunking := by
  rw [settle]
  split <;> rfl

end Fields

section Coming

variable {l : Limits}

theorem comesOf_create (options : BuilderOptions) (sink : Option Sink) :
    (create options sink).ComesOf options.limits [] := by
  refine ⟨?_, .refl _ _⟩
  intro o ho
  rw [create] at ho
  dsimp only at ho
  split at ho
  · cases ho
    rfl
  · cases ho

theorem ComesOf.exists_self (h : b.ComesOf l pending) : ∃ q, b.queue = ofList q ∧ b.ComesOf l q := by
  obtain ⟨q, hq, -⟩ := h.edited
  exact ⟨q, hq, h.limits, q, hq, .refl⟩

theorem ComesOf.length_le (h : b.ComesOf l pending) (hl : l.FillBatches) : b.length ≤ pending.length := by
  obtain ⟨q, hq, hedits⟩ := h.edited
  rw [length, hq, Columns.size_ofList]
  exact length_le_of_edits hl hedits

theorem ComesOf.enqueue (h : b.ComesOf l pending) (tag : Tag) (args : List Arg) :
    (b.enqueue tag args).ComesOf l (pending ++ [⟨tag, args⟩]) := by
  obtain ⟨q, hq, hedits⟩ := h.edited
  have hedits := edits_append hedits [⟨tag, args⟩]
  rw [Builder.enqueue]
  split
  · rename_i o ho
    obtain rfl := h.limits o ho
    obtain ⟨hlimits, q', hq', hedits'⟩ := o.push_edited q ⟨tag, args⟩
    rw [← hq] at hlimits hq'
    refine ⟨?_, q', hq', hedits.trans hedits'⟩
    rintro _ ⟨⟩
    exact hlimits
  · refine ⟨h.limits, _, ?_, hedits⟩
    rw [hq, Columns.push_ofList]

theorem ComesOf.settle (h : b.ComesOf l pending) : b.settle.ComesOf l pending := by
  obtain ⟨q, hq, hedits⟩ := h.edited
  rw [Builder.settle]
  split
  · rename_i o ho
    obtain rfl := h.limits o ho
    obtain ⟨hlimits, q', hq', hedits'⟩ := o.flush_edited q
    rw [← hq] at hlimits hq'
    refine ⟨?_, q', hq', hedits.trans hedits'⟩
    rintro _ ⟨⟩
    exact hlimits
  · exact h

theorem ComesOf.deliver (h : b.ComesOf l pending) (s : Sink) (isLast : Bool) : (b.deliver s isLast).ComesOf l [] := by
  refine ⟨?_, .refl _ _⟩
  intro o ho
  obtain ⟨o', ho', rfl⟩ := Option.mem_map.1 ho
  exact h.settle.limits o' ho'

end Coming

theorem divided_create (options : BuilderOptions) (sink : Sink) :
    Divided options sink (create options (some sink)) [] [] :=
  ⟨holds_create options (some sink), nofun, rfl, comesOf_create options _⟩

theorem Divided.enqueue (h : Divided options sink b windows pending) (tag : Tag) (args : List Arg) (weight : Nat) :
    Divided options sink { b.enqueue tag args with weight } windows (pending ++ [⟨tag, args⟩]) :=
  have hcomes := h.comes.enqueue tag args
  ⟨h.holds.enqueue tag args weight, h.leaves, (chunking_enqueue b tag args).trans h.chunking,
    hcomes.limits, hcomes.edited⟩

theorem Divided.deliver (h : Divided options sink b windows pending) (hs : b.sink = some s) (isLast : Bool)
    (asked : Option Bool) (hends : Window.EndsBy options.chunking ⟨⟨pending, b.outgoing isLast⟩, asked⟩) :
    Divided options sink (b.deliver s isLast) (windows ++ [⟨⟨pending, b.outgoing isLast⟩, asked⟩]) [] := by
  refine ⟨?_, ?_, (chunking_settle b).trans h.chunking, h.comes.deliver s isLast⟩
  · rw [List.map_append]
    exact h.holds.send hs isLast
  · rw [List.forall_mem_append, List.forall_mem_singleton]
    exact ⟨h.leaves, hends, h.comes.settle.edited, rfl⟩

theorem Windowed.remember (h : Windowed options sink b es windows pending) (ids : List String) :
    Windowed options sink { b with dependencies := ids } es windows pending :=
  have d := h.divided
  ⟨⟨d.holds.remember ids, d.leaves, d.chunking, d.comes.limits, d.comes.edited⟩, h.events, h.isOpen, h.weight⟩

theorem Windowed.add (h : Windowed options sink b es windows pending) (tag : Tag) (args : List Arg) :
    IsWindowed options sink (b.add tag args) (es ++ [.appended ⟨tag, args⟩]) := by
  have hsink := (sink_enqueue b tag args).trans h.divided.holds.sent
  have hchunking := (chunking_enqueue b tag args).trans h.divided.chunking
  have hweight : (b.enqueue tag args).weight = pending.length := (weight_enqueue b tag args).trans h.weight
  have hdivided := h.divided.enqueue tag args ((b.enqueue tag args).weight + 1)
  have hevents : es ++ [.appended ⟨tag, args⟩] =
      windows.flatMap Window.events ++ List.map Event.appended (pending ++ [⟨tag, args⟩]) := by
    rw [h.events, List.map_append, List.append_assoc]
    rfl
  have hdue := h.isOpen.isDue_iff ⟨tag, args⟩
  rw [← hweight] at hdue
  rw [add_eq hsink, hchunking]
  split
  · rename_i hcompletes
    refine ⟨_, [], hdivided.deliver hsink false none ⟨rfl, hdue.1 hcompletes, ?_⟩, ?_, Chunking.isOpen_nil _, rfl⟩
    · intro front hfront hne
      obtain heq | hfront := List.prefix_concat_iff.1 hfront
      · exact absurd heq hne
      · exact h.isOpen front hfront
    · rw [hevents]
      simp [Window.events]
  · rename_i hcompletes
    refine ⟨windows, _, hdivided, hevents, h.isOpen.concat (hcompletes ∘ hdue.2), ?_⟩
    rw [List.length_append, ← hweight]
    rfl

theorem kept_isWindowed (options : BuilderOptions) (sink : Sink) : Kept (IsWindowed options sink) where
  add ids tag args h := by
    obtain ⟨windows, pending, h⟩ := h
    exact (h.remember ids).add tag args
  deliver isLast hs h := by
    obtain ⟨windows, pending, h⟩ := h
    refine ⟨_, [], h.divided.deliver hs isLast (some isLast) ⟨rfl, h.isOpen⟩, ?_, Chunking.isOpen_nil _, rfl⟩
    rw [h.events]
    simp [Window.events]

theorem isWindowed_calls (options : BuilderOptions) (sink : Sink) (cs : List Call) :
    ∃ b, cs.foldlM Call.perform (create options (some sink)) = .ok b ∧
      IsWindowed options sink b (eventsBy (create options (some sink)) cs) :=
  ⟨_, foldlM_perform rfl cs,
    (kept_isWindowed options sink).calls ⟨[], [], divided_create options sink, rfl, Chunking.isOpen_nil _, rfl⟩ cs⟩

/-- What is certain of the chunks of a list that was given `sink` and to which the given events happened. -/
structure KeepsToChunking (options : BuilderOptions) (sink : Sink) (b : Builder) (es : List Event)
    (windows : List Window) (pending : List Instruction) : Prop where
  sent : b.sink = some (sink.enqueueAll (windows.map (·.message)))
  /-- A window holds what was appended since the delivery before, and the rest is pending. -/
  events : es = windows.flatMap Window.events ++ pending.map .appended
  ended : ∀ w ∈ windows, w.EndsBy options.chunking
  isOpen : options.chunking.IsOpen pending
  /-- A chunk is what batching made of its window. -/
  delivers : ∀ w ∈ windows, w.toParcel.Delivers (batching options (some sink))
  filled : ∀ w ∈ windows, w.asked = none → 0 < w.chunk.length
  totalLength : b.totalLength = (windows.map (·.chunk.length)).sum + b.length
  weight : b.weight = pending.length
  weight_lt : b.weight < max 1 options.chunking.chunkSize
  length_le : (∀ l, batching options (some sink) = some l → l.FillBatches) → b.length ≤ b.weight

/-- Whatever its sink, its limits and its thresholds, a list cuts what is appended to it into windows, each of which
becomes one chunk. It ends a window by itself exactly where the window first completes a chunk. -/
theorem windows_end_where_due (options : BuilderOptions) (sink : Sink) (cs : List Call) :
    ∃ b windows pending, cs.foldlM Call.perform (create options (some sink)) = .ok b ∧
      KeepsToChunking options sink b (eventsBy (create options (some sink)) cs) windows pending := by
  obtain ⟨b, hb, windows, pending, h⟩ := isWindowed_calls options sink cs
  have hdelivers (w : Window) (hw : w ∈ windows) : w.toParcel.Delivers (batching options (some sink)) :=
    h.divided.holds.delivers _ (List.mem_map_of_mem hw)
  refine ⟨b, windows, pending, hb, ?_, h.events, fun w hw ↦ (h.divided.leaves w hw).ends, h.isOpen, hdelivers, ?_, ?_,
    h.weight, ?_, ?_⟩
  · rw [h.divided.holds.sent, List.map_map]
    rfl
  · intro w hw hasked
    have hends := (h.divided.leaves w hw).ends
    obtain ⟨q, hq, hedits⟩ := (h.divided.leaves w hw).edited
    rw [(hdelivers w hw).length, hq, Columns.size_ofList, List.length_pos_iff]
    apply ne_nil_of_edits hedits
    intro hnil
    rw [Window.EndsBy, hasked, hnil] at hends
    exact Chunking.isOpen_nil _ _ List.nil_prefix hends.2.1
  · rw [totalLength, h.divided.holds.flushed, List.map_map]
    rfl
  · rw [h.weight]
    exact h.isOpen.length_lt
  · intro hfill
    rw [h.weight, length]
    cases hbatching : batching options (some sink) with
    | none =>
      have hpends := h.divided.holds.pends
      rw [hbatching] at hpends
      rw [hpends.2, Columns.size_ofList]
    | some l =>
      have hl : l = options.limits := by
        rw [batching] at hbatching
        split at hbatching
        · exact (Option.some.inj hbatching).symm
        · cases hbatching
      exact h.divided.comes.length_le (hl ▸ hfill l hbatching)

end Builder

end DisplayList
