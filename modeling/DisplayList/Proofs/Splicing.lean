import DisplayList.Proofs.Totals
import DisplayList.Proofs.Windows

namespace DisplayList.Builder

open Columns (ofList)

/-- A call that only appends, and appends a dependency by announcing it. -/
def Call.IsScripted : Call → Prop
  | add tag _ => tag ≠ .dependency
  | flush _ => False
  | _ => True

def Call.handed : Call → List Instruction
  | add tag args => [⟨tag, args⟩]
  | addDependency id => [announcement id]
  | addDependencies ids => ids.map announcement
  | append other => other.queue.toList
  | flush _ => []

/-- If these are appended, none but the last one completes a chunk, so a delivery comes after all of them. -/
def HasRoomFor (b : Builder) (is : List Instruction) : Prop :=
  ∀ before i after, is = before ++ i :: after → after ≠ [] → b.sink.isSome →
    b.chunking.isDue (b.weight + before.length + 1) i.tag = false

/-- The chunk that `b` was at has taken in `n` more instructions, or the last of them has completed it. -/
def TakesIn (b : Builder) (n : Nat) (b' : Builder) : Prop :=
  (b'.weight = b.weight + n ∧ b'.flushed = b.flushed ∧ b'.sink = b.sink) ∨ b'.weight = 0 ∧ b.sink.isSome ∧ 0 < n

def Replays (b other direct : Builder) : Prop := ∃ q, other.queue = ofList q ∧ q.foldl splice b = direct

/-- A list without a sink, and one that was called in its stead and has not delivered since. -/
structure Mirrors (b other direct : Builder) : Prop where
  optimizer : other.optimizer = none
  sink : other.sink = none
  replays : Replays b other direct
  dependencies : ∀ id ∈ other.dependencies, id ∈ direct.dependencies

def remember (b : Builder) (i : Instruction) : Builder :=
  { b with dependencies := (announced? i).toList ++ b.dependencies }

variable {b other direct : Builder} {i : Instruction} {is : List Instruction} {cs : List Call}

section Handing

theorem splice_cases (b : Builder) (i : Instruction) :
    (b.splice i = b ∧ b.writtenOf i = [] ∧ ∃ id ∈ b.dependencies, announced? i = some id) ∨
      b.splice i = (b.remember i).add i.tag i.args ∧ b.writtenOf i = [i] := by
  rw [splice, writtenOf, remember]
  cases announced? i with
  | none => exact .inr ⟨rfl, rfl⟩
  | some id =>
    dsimp only
    by_cases hid : id ∈ b.dependencies
    · rw [if_pos hid, if_pos hid]
      exact .inl ⟨rfl, rfl, id, hid, rfl⟩
    · rw [if_neg hid, if_neg hid]
      exact .inr ⟨rfl, rfl⟩

theorem writtenBy_append {α : Type} (write : Builder → α → List Instruction) (edit : Builder → α → Builder)
    (b : Builder) (as as' : List α) :
    writtenBy write edit b (as ++ as') = writtenBy write edit b as ++ writtenBy write edit (as.foldl edit b) as' := by
  induction as generalizing b with
  | nil => rfl
  | cons a as ih => rw [List.cons_append, writtenBy, ih, writtenBy, List.append_assoc, List.foldl_cons]

theorem writtenBy_announcements (b : Builder) (ids : List String) :
    writtenBy writtenFor addDependency b ids = writtenBy writtenOf splice b (ids.map announcement) := by
  induction ids generalizing b with
  | nil => rfl
  | cons id ids ih =>
    rw [List.map_cons, writtenBy, writtenBy, ih]
    rfl

theorem Call.effect_eq {c : Call} (hc : c.IsScripted) (b : Builder) : c.effect b = c.handed.foldl splice b := by
  cases c with
  | add tag args =>
    have hnone : announced? ⟨tag, args⟩ = none := announced?_of_ne hc
    rw [handed, List.foldl_cons, splice, hnone, List.foldl_nil, effect_add]
  | addDependency id => rfl
  | addDependencies ids =>
    rw [handed, List.foldl_map]
    rfl
  | append other => rfl
  | flush isLast => cases hc

theorem Call.written_eq {c : Call} (hc : c.IsScripted) (b : Builder) :
    c.written b = writtenBy writtenOf splice b c.handed := by
  cases c with
  | add tag args =>
    have hnone : announced? ⟨tag, args⟩ = none := announced?_of_ne hc
    rw [handed, writtenBy, writtenBy, writtenOf, hnone]
    rfl
  | addDependency id =>
    rw [handed, writtenBy, writtenBy, List.append_nil]
    rfl
  | addDependencies ids => exact writtenBy_announcements b ids
  | append other => rfl
  | flush isLast => cases hc

theorem Call.perform_eq {c : Call} (hc : c.IsScripted) (b : Builder) : c.perform b = .ok (c.effect b) := by
  cases c with
  | flush isLast => cases hc
  | _ => rfl

theorem foldl_effect_eq (hcs : ∀ c ∈ cs, c.IsScripted) (b : Builder) :
    cs.foldl Call.effect b = (cs.flatMap Call.handed).foldl splice b := by
  induction cs generalizing b with
  | nil => rfl
  | cons c cs ih =>
    rw [List.forall_mem_cons] at hcs
    rw [List.foldl_cons, List.flatMap_cons, List.foldl_append, ih hcs.2, c.effect_eq hcs.1]

theorem instructionsIn_eventsBy (hcs : ∀ c ∈ cs, c.IsScripted) (b : Builder) :
    instructionsIn (eventsBy b cs) = writtenBy writtenOf splice b (cs.flatMap Call.handed) := by
  induction cs generalizing b with
  | nil => rfl
  | cons c cs ih =>
    rw [List.forall_mem_cons] at hcs
    rw [eventsBy, instructionsIn_append, instructionsIn_events, List.flatMap_cons, writtenBy_append, ih hcs.2,
      c.effect_eq hcs.1, c.written_eq hcs.1]

theorem foldlM_perform_scripted (hcs : ∀ c ∈ cs, c.IsScripted) (b : Builder) :
    cs.foldlM Call.perform b = .ok (cs.foldl Call.effect b) := by
  induction cs generalizing b with
  | nil => rfl
  | cons c cs ih =>
    rw [List.forall_mem_cons] at hcs
    rw [List.foldlM_cons, c.perform_eq hcs.1, ok_bind, ih hcs.2, List.foldl_cons]

end Handing

section Room

theorem HasRoomFor.of_sink_none (h : b.sink = none) (is : List Instruction) : b.HasRoomFor is := by
  intro before i after _ _ hsink
  rw [h] at hsink
  cases hsink

theorem HasRoomFor.queued (h : b.HasRoomFor (i :: is)) : ((b.remember i).queued i).HasRoomFor is := by
  intro before j after heq hafter hsink
  have hkept : ((b.remember i).queued i).sink = b.sink := sink_enqueue _ _ _
  have hchunking : ((b.remember i).queued i).chunking = b.chunking := chunking_enqueue _ _ _
  have hweight : ((b.remember i).queued i).weight = b.weight + 1 := congrArg (· + 1) (weight_enqueue _ _ _)
  rw [hkept] at hsink
  have hnot := h (i :: before) j after (by rw [heq, List.cons_append]) hafter hsink
  rwa [hchunking, hweight, Nat.add_assoc b.weight, Nat.add_comm 1]

theorem add_cases (b : Builder) (i : Instruction) :
    b.add i.tag i.args = b.queued i ∨
      ((b.add i.tag i.args).dependencies = [] ∧ (b.add i.tag i.args).weight = 0) ∧
        b.sink.isSome ∧ b.chunking.isDue (b.weight + 1) i.tag := by
  have hsink := sink_enqueue b i.tag i.args
  cases hs : b.sink with
  | none => exact .inl (add_of_none (hsink.trans hs))
  | some sink =>
    rw [add_eq (hsink.trans hs), chunking_enqueue, weight_enqueue]
    split
    · rename_i hdue
      exact .inr ⟨⟨rfl, rfl⟩, rfl, hdue⟩
    · rw [queued, weight_enqueue]
      exact .inl rfl

theorem eq_nil_of_writtenBy (hb : b.dependencies = []) (h : writtenBy writtenOf splice b is = []) : is = [] := by
  cases is with
  | nil => rfl
  | cons i is =>
    rw [writtenBy, List.append_eq_nil_iff] at h
    obtain ⟨-, -, id, hid, -⟩ | ⟨-, hwritten⟩ := b.splice_cases i
    · rw [hb] at hid
      cases hid
    · rw [hwritten] at h
      cases h.1

theorem HasRoomFor.splice_cases (h : b.HasRoomFor (writtenBy writtenOf splice b (i :: is))) :
    ((b.splice i = b ∧ b.writtenOf i = [] ∧ ∃ id ∈ b.dependencies, announced? i = some id) ∨
        b.splice i = (b.remember i).queued i ∧ b.writtenOf i = [i]) ∧
        (b.splice i).HasRoomFor (writtenBy writtenOf splice (b.splice i) is) ∨
      is = [] ∧ (b.splice i).weight = 0 ∧ b.sink.isSome ∧ b.writtenOf i = [i] := by
  rw [writtenBy] at h
  obtain ⟨hsame, hwritten, hid⟩ | ⟨hadd, hwritten⟩ := b.splice_cases i
  · rw [hwritten, List.nil_append] at h
    refine .inl ⟨.inl ⟨hsame, hwritten, hid⟩, ?_⟩
    rwa [hsame] at h ⊢
  · rw [hwritten, List.singleton_append] at h
    obtain hqueued | ⟨⟨hforgets, hweight⟩, hsink, hdue⟩ := add_cases (b.remember i) i
    · rw [← hadd] at hqueued
      refine .inl ⟨.inr ⟨hqueued, hwritten⟩, ?_⟩
      have hrest := h.queued
      rwa [← hqueued] at hrest
    · have hlast : writtenBy writtenOf splice (b.splice i) is = [] := by
        by_contra hafter
        have hnot := h [] i _ rfl hafter hsink
        cases hdue.symm.trans hnot
      rw [← hadd] at hforgets hweight
      exact .inr ⟨eq_nil_of_writtenBy hforgets hlast, hweight, hsink, hwritten⟩

theorem HasRoomFor.takesIn (h : b.HasRoomFor (writtenBy writtenOf splice b is)) :
    b.TakesIn (writtenBy writtenOf splice b is).length (is.foldl splice b) := by
  induction is generalizing b with
  | nil => exact .inl ⟨rfl, rfl, rfl⟩
  | cons i is ih =>
    rw [writtenBy, List.foldl_cons, List.length_append]
    obtain ⟨⟨hsame, hwritten, -⟩ | ⟨hqueued, hwritten⟩, hrest⟩ | ⟨rfl, hweight, hsink, hwritten⟩ := h.splice_cases
    · have htakes := ih hrest
      rw [hsame] at htakes ⊢
      rwa [hwritten, List.length_nil, Nat.zero_add]
    · have hfields : (b.splice i).weight = b.weight + 1 ∧ (b.splice i).flushed = b.flushed ∧
          (b.splice i).sink = b.sink := by
        rw [hqueued]
        exact ⟨congrArg (· + 1) (weight_enqueue _ _ _), flushed_enqueue _ _ _, sink_enqueue _ _ _⟩
      have htakes := ih hrest
      rw [TakesIn, hfields.1, hfields.2.1, hfields.2.2] at htakes
      rw [hwritten, List.length_singleton]
      obtain ⟨hweight, hkept⟩ | ⟨hweight, hsink, -⟩ := htakes
      · exact .inl ⟨by omega, hkept⟩
      · exact .inr ⟨hweight, hsink, by omega⟩
    · rw [hwritten]
      exact .inr ⟨hweight, hsink, Nat.zero_lt_succ _⟩

end Room

section Mirroring

theorem Replays.append_eq (h : Replays b other direct) : b.append other = direct := by
  obtain ⟨q, hq, rfl⟩ := h
  rw [append, hq, Columns.toList_ofList]

theorem mirrors_empty (b : Builder) : Mirrors b .empty b := ⟨rfl, rfl, ⟨[], rfl, rfl⟩, nofun⟩

theorem Mirrors.add_eq (h : Mirrors b other direct) (i : Instruction) :
    (other.remember i).add i.tag i.args =
      { other.remember i with queue := other.queue.push i.tag i.args, weight := other.weight + 1 } := by
  have henqueue : (other.remember i).enqueue i.tag i.args =
      { other.remember i with queue := other.queue.push i.tag i.args } :=
    enqueue_none (b := other.remember i) h.optimizer _ _
  have hsink : ((other.remember i).enqueue i.tag i.args).sink = none := (sink_enqueue _ _ _).trans h.sink
  rw [add_of_none hsink, henqueue]
  rfl

theorem Mirrors.replays_splice (h : Mirrors b other direct) (i : Instruction) :
    Replays b (other.splice i) (direct.splice i) := by
  obtain ⟨hsame, -, id, hid, hi⟩ | ⟨hadd, -⟩ := other.splice_cases i
  · have hdropped : direct.splice i = direct := by
      rw [splice, hi]
      exact if_pos (h.dependencies id hid)
    rw [hsame, hdropped]
    exact h.replays
  · obtain ⟨q, hq, hdirect⟩ := h.replays
    refine ⟨q ++ [i], ?_, ?_⟩
    · rw [hadd, h.add_eq, hq, Columns.push_ofList]
    · rw [List.foldl_append, hdirect]
      rfl

theorem Mirrors.hand (h : Mirrors b other direct)
    (hdeps : ∀ id ∈ (announced? i).toList ++ direct.dependencies, id ∈ (direct.splice i).dependencies) :
    Mirrors b (other.splice i) (direct.splice i) := by
  have hreplays := h.replays_splice i
  obtain ⟨hsame, -⟩ | ⟨hadd, -⟩ := other.splice_cases i
  · rw [hsame] at hreplays ⊢
    refine ⟨h.optimizer, h.sink, hreplays, ?_⟩
    intro id hid
    exact hdeps id (List.mem_append_right _ (h.dependencies id hid))
  · rw [hadd, h.add_eq] at hreplays ⊢
    refine ⟨h.optimizer, h.sink, hreplays, ?_⟩
    intro id hid
    apply hdeps
    obtain hid | hid := List.mem_append.1 hid
    · exact List.mem_append_left _ hid
    · exact List.mem_append_right _ (h.dependencies id hid)

theorem Mirrors.hand_all (h : Mirrors b other direct)
    (hroom : direct.HasRoomFor (writtenBy writtenOf splice direct is)) :
    Replays b (is.foldl splice other) (is.foldl splice direct) := by
  induction is generalizing other direct with
  | nil => exact h.replays
  | cons i is ih =>
    rw [List.foldl_cons, List.foldl_cons]
    obtain ⟨⟨hsame, -, id, hid, hi⟩ | ⟨hqueued, -⟩, hrest⟩ | ⟨rfl, -⟩ := hroom.splice_cases
    · refine ih (h.hand ?_) hrest
      rw [hsame, hi]
      simpa using hid
    · refine ih (h.hand ?_) hrest
      rw [hqueued, queued, dependencies_enqueue]
      exact fun _ hid ↦ hid
    · exact h.replays_splice i

end Mirroring

/-- A script comes to the same on a list as on a new list that is appended to it afterwards, if it completes no chunk
before its end. Without a sink it never does. What is dropped on the way does not count. -/
theorem append_script (b : Builder) (hcs : ∀ c ∈ cs, c.IsScripted) :
    (b.sink = none → b.HasRoomFor (instructionsIn (eventsBy b cs))) ∧
      (b.HasRoomFor (instructionsIn (eventsBy b cs)) →
        ∃ other, cs.foldlM Call.perform .empty = .ok other ∧ cs.foldlM Call.perform b = .ok (b.append other) ∧
          b.TakesIn (instructionsIn (eventsBy b cs)).length (b.append other)) := by
  refine ⟨fun hsink ↦ .of_sink_none hsink _, fun hroom ↦ ⟨_, foldlM_perform_scripted hcs .empty, ?_⟩⟩
  rw [instructionsIn_eventsBy hcs] at hroom ⊢
  have hreplays := (mirrors_empty b).hand_all hroom
  have htakes := hroom.takesIn
  rw [← foldl_effect_eq hcs] at htakes
  rw [← foldl_effect_eq hcs, ← foldl_effect_eq hcs] at hreplays
  rw [foldlM_perform_scripted hcs, hreplays.append_eq]
  exact ⟨rfl, htakes⟩

def fonts : List Call :=
  [.addDependency "serif", .add .save [], .append (empty.addDependencies ["serif", "sans"]),
    .addDependencies ["sans", "mono", "mono"], .add .restore []]

def announcing : Builder := (create { chunking := ⟨5, 0⟩ } (some (.record []))).addDependency "sans"

theorem append_script_fonts :
    (∀ c ∈ fonts, c.IsScripted) ∧ announcing.HasRoomFor (instructionsIn (eventsBy announcing fonts)) ∧
      ∃ other, fonts.foldlM Call.perform .empty = .ok other ∧
        fonts.foldlM Call.perform announcing = .ok (announcing.append other) ∧
        announcing.TakesIn 4 (announcing.append other) := by
  have hscripted : ∀ c ∈ fonts, c.IsScripted := by
    simp [fonts, Call.IsScripted, Tag.save, Tag.restore, Tag.dependency]
  have hlength : (instructionsIn (eventsBy announcing fonts)).length = 4 := by cbv
  have hroom : announcing.HasRoomFor (instructionsIn (eventsBy announcing fonts)) := by
    intro before i after heq hafter _
    rw [heq, List.length_append, List.length_cons] at hlength
    have hpos := List.length_pos_iff.2 hafter
    have hlt : ¬ 5 ≤ 1 + before.length + 1 := by omega
    have hchunking : announcing.chunking = ⟨5, 0⟩ := rfl
    have hweight : announcing.weight = 1 := rfl
    rw [hchunking, hweight, Chunking.isDue, Chunking.nearMark]
    simp [hlt]
  have happend := (append_script announcing hscripted).2 hroom
  rw [hlength] at happend
  exact ⟨hscripted, hroom, happend⟩

end DisplayList.Builder
