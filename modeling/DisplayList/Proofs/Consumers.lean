import DisplayList.Assembler
import DisplayList.Channel
import DisplayList.Proofs.Checked

namespace DisplayList

variable {ms front : List Message} {m : Message} {s t : Snapshot}

def Channel.enqueueAll (c : Channel) (ms : List Message) : Channel := ms.foldl enqueue c

def Assembler.enqueueAll (a : Assembler) (ms : List Message) : Assembler := ms.foldl enqueue a

def Snapshot.appendAll (s : Snapshot) (ms : List Message) : Snapshot := ms.foldl (fun s m ↦ s.append m.chunk) s

/-- Some chunks after which the assembler is complete, as it was not before. -/
def Completes (front : List Message) : Prop :=
  (Assembler.enqueueAll {} front).isComplete ∧
    ∀ shorter, shorter <+: front → shorter ≠ front → ¬ (Assembler.enqueueAll {} shorter).isComplete

namespace Channel

theorem queue_enqueue {c : Channel} (hr : c.hasReceiver) (hc : c.isCancelled = false) (m : Message) :
    (c.enqueue m).queue = c.queue ++ [m] ∧ (c.enqueue m).hasReceiver ∧ (c.enqueue m).isCancelled = false := by
  simp [enqueue, reserve, send, hr, hc]

theorem queue_enqueueAll {c : Channel} (hr : c.hasReceiver) (hc : c.isCancelled = false) (ms : List Message) :
    (c.enqueueAll ms).queue = c.queue ++ ms := by
  induction ms generalizing c with
  | nil => simp [enqueueAll]
  | cons m ms ih =>
    obtain ⟨hqueue, hr', hc'⟩ := queue_enqueue hr hc m
    have hrest := ih hr' hc'
    simp only [enqueueAll, List.foldl_cons] at hrest ⊢
    simp [hrest, hqueue]

end Channel

namespace Assembler

@[simp]
theorem isComplete_enqueueAll_nil : (enqueueAll {} []).isComplete = false := rfl

@[simp]
theorem isComplete_enqueueAll_concat (a : Assembler) (ms : List Message) (m : Message) :
    (a.enqueueAll (ms ++ [m])).isComplete = m.chunk.isLast := by
  simp [enqueueAll, enqueue]

theorem snapshot_enqueueAll (a : Assembler) (ms : List Message) :
    (a.enqueueAll ms).snapshot = a.snapshot.appendAll ms := by
  induction ms generalizing a with
  | nil => rfl
  | cons m ms ih => exact ih (a.enqueue m)

end Assembler

namespace Snapshot

theorem appendAll_append (s : Snapshot) (ms ms' : List Message) :
    s.appendAll (ms ++ ms') = (s.appendAll ms).appendAll ms' := by
  simp [appendAll]

theorem collectFrom_eq_some (h : collectFrom s ms = some t) :
    ∃ front last rest, ms = front ++ last :: rest ∧ (∀ m ∈ front, m.chunk.isLast = false) ∧ last.chunk.isLast ∧
      s.appendAll (front ++ [last]) = t := by
  induction ms generalizing s with
  | nil => simp [collectFrom] at h
  | cons m ms ih =>
    rw [collectFrom] at h
    split at h
    · rename_i hlast
      exact ⟨[], m, ms, rfl, by simp, hlast, by simpa [appendAll] using h⟩
    · rename_i hlast
      obtain ⟨front, last, rest, rfl, hfront, hl, ht⟩ := ih h
      exact ⟨m :: front, last, rest, rfl, by simpa [hlast] using hfront, hl, ht⟩

theorem isSome_collectFrom (s : Snapshot) (ms : List Message) :
    (collectFrom s ms).isSome = ms.any (·.chunk.isLast) := by
  induction ms generalizing s with
  | nil => rfl
  | cons m ms ih => cases h : m.chunk.isLast <;> simp [collectFrom, h, ih]

theorem collectFrom_append {last : Message} {rest : List Message} (hfront : ∀ m ∈ front, m.chunk.isLast = false)
    (hlast : last.chunk.isLast) :
    collectFrom s (front ++ last :: rest) = some (s.appendAll (front ++ [last])) := by
  induction front generalizing s with
  | nil => simp [collectFrom, appendAll, hlast]
  | cons m front ih =>
    have hm := hfront m List.mem_cons_self
    simpa [collectFrom, hm, appendAll] using ih fun m' hm' ↦ hfront m' (List.mem_cons_of_mem m hm')

end Snapshot

theorem completes_iff : Completes front ↔
    ∃ init last, front = init ++ [last] ∧ (∀ m ∈ init, m.chunk.isLast = false) ∧ last.chunk.isLast := by
  constructor
  · rintro ⟨hcomplete, hshorter⟩
    obtain rfl | ⟨init, last, rfl⟩ := List.eq_nil_or_concat front
    · simp at hcomplete
    · simp only [List.concat_eq_append] at hcomplete hshorter ⊢
      refine ⟨init, last, rfl, ?_, by simpa using hcomplete⟩
      intro m hm
      obtain ⟨before, after, rfl⟩ := List.append_of_mem hm
      have hbefore := hshorter (before ++ [m]) ⟨after ++ [last], by simp⟩ (by simp)
      simpa using hbefore
  · rintro ⟨init, last, rfl, hinit, hlast⟩
    refine ⟨by simpa using hlast, ?_⟩
    intro shorter hshorter hne
    obtain rfl | hshorter := List.prefix_concat_iff.1 hshorter
    · exact absurd rfl hne
    obtain rfl | ⟨before, m, rfl⟩ := List.eq_nil_or_concat shorter
    · simp
    · simpa using hinit m (hshorter.subset (by simp))

/-- What `collected`, taken up to the last chunk of the given ones, has to do with what the assembler holds. -/
structure Agrees (ms : List Message) (collected : Option Snapshot) : Prop where
  /-- What is collected is what the assembler held when it was complete for the first time, if it ever was. -/
  eq_some_iff : ∀ s, collected = some s ↔
    ∃ front rest, ms = front ++ rest ∧ Completes front ∧ (Assembler.enqueueAll {} front).snapshot = s
  of_isComplete : (Assembler.enqueueAll {} ms).isComplete → collected.isSome
  snapshot : ∀ front rest, ms = front ++ rest → Completes front →
    (Assembler.enqueueAll {} ms).snapshot = (Assembler.enqueueAll {} front).snapshot.appendAll rest
  /-- Where no chunk comes after a last one, both are complete or neither is, and they hold the same. -/
  whole : (∀ m ∈ ms.dropLast, m.chunk.isLast = false) →
    (collected.isSome ↔ (Assembler.enqueueAll {} ms).isComplete) ∧
      ∀ s, collected = some s → (Assembler.enqueueAll {} ms).snapshot = s

theorem collect_eq_some_iff : Snapshot.collect ms = some s ↔
    ∃ front rest, ms = front ++ rest ∧ Completes front ∧ (Assembler.enqueueAll {} front).snapshot = s := by
  simp only [Assembler.snapshot_enqueueAll, completes_iff]
  constructor
  · intro h
    obtain ⟨init, last, rest, rfl, hinit, hlast, hs⟩ := Snapshot.collectFrom_eq_some h
    exact ⟨init ++ [last], rest, by simp, ⟨init, last, rfl, hinit, hlast⟩, hs⟩
  · rintro ⟨_, rest, rfl, ⟨init, last, rfl, hinit, hlast⟩, hs⟩
    rw [List.append_assoc, ← hs]
    exact Snapshot.collectFrom_append hinit hlast

/-- What the channel's consumer collects of the given messages agrees with what the assembler joins. -/
theorem consumers_agree (capacity : Nat) (ms : List Message) :
    Agrees ms (Snapshot.collect ((Channel.create capacity).enqueueAll ms).queue) := by
  have hqueue : ((Channel.create capacity).enqueueAll ms).queue = ms :=
    Channel.queue_enqueueAll rfl rfl ms
  rw [hqueue]
  have hsome := Snapshot.isSome_collectFrom {} ms
  refine ⟨fun s ↦ collect_eq_some_iff, ?_, ?_, ?_⟩
  · intro hcomplete
    obtain rfl | ⟨init, last, rfl⟩ := List.eq_nil_or_concat ms
    · simp at hcomplete
    · simp_all [Snapshot.collect]
  · rintro front rest rfl -
    simp only [Assembler.snapshot_enqueueAll, Snapshot.appendAll_append]
  · intro hms
    obtain rfl | ⟨init, last, rfl⟩ := List.eq_nil_or_concat ms
    · simp [Snapshot.collect, Snapshot.collectFrom]
    · simp only [List.concat_eq_append, List.dropLast_concat] at hms hsome ⊢
      cases hlast : last.chunk.isLast with
      | false =>
        have hnone : Snapshot.collect (init ++ [last]) = none := by
          simpa [← Option.not_isSome_iff_eq_none, Snapshot.collect, hsome, hlast] using hms
        simp [hnone, hlast]
      | true =>
        have hcollect : Snapshot.collect (init ++ [last]) = some (Snapshot.appendAll {} (init ++ [last])) :=
          Snapshot.collectFrom_append hms hlast
        simp [hcollect, hlast, Assembler.snapshot_enqueueAll]

def saving (isLast : Bool) : Message := ⟨⟨.ofList [⟨.save, []⟩], isLast, 1⟩, 1, []⟩

/-- They do not agree on every list that goes on after its last chunk: one that goes on with an ordinary chunk is
collected though the assembler is not complete, and of one that ends twice less is collected than is joined. -/
theorem not_consumers_agree :
    (¬ ∀ capacity ms, (Snapshot.collect ((Channel.create capacity).enqueueAll ms).queue).isSome ↔
      (Assembler.enqueueAll {} ms).isComplete) ∧
    ¬ ∀ capacity ms s, Snapshot.collect ((Channel.create capacity).enqueueAll ms).queue = some s →
      (Assembler.enqueueAll {} ms).isComplete → (Assembler.enqueueAll {} ms).snapshot = s := by
  constructor
  · intro h
    exact absurd ((h 1 [saving true, saving false]).1 rfl) (by decide)
  · intro h
    have heq := h 1 [saving true, saving true] _ rfl rfl
    exact absurd (congrArg (·.length) heq) (by decide)

end DisplayList
