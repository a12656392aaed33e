import DisplayList.Dump
import DisplayList.Proofs.Scripts

namespace DisplayList

structure Replay where
  additions : List Addition
  batch : Nat
  position : Nat := 0
  batch_pos : 0 < batch

namespace Replay

def start (additions : List Addition) (batch : Nat) : Replay :=
  { additions, batch := max batch 1, batch_pos := by omega }

def stop (r : Replay) : Nat := min (r.position + r.batch) r.additions.length

def window (r : Replay) : List Addition := r.additions.extract r.position r.stop

def next (r : Replay) : Replay := { r with position := r.stop }

/-- What the replay comes to as long as there is anything to add. -/
def visits (r : Replay) : List Replay := if r.position < r.additions.length then r :: r.next.visits else []
termination_by r.additions.length - r.position
decreasing_by
  have := r.batch_pos
  simp only [next, stop]
  omega

def passage (r : Replay) : Passage := ⟨r.window, true⟩

variable {r v : Replay} {additions : List Addition} {batch : Nat}

theorem visits_of_lt (h : r.position < r.additions.length) : r.visits = r :: r.next.visits := by
  rw [visits, if_pos h]

theorem visits_of_le (h : r.additions.length ≤ r.position) : r.visits = [] := by
  rw [visits, if_neg (by omega)]

theorem le_stop (h : r.position < r.additions.length) : r.position ≤ r.stop := by
  simp only [stop]
  omega

theorem flatMap_window (r : Replay) : r.visits.flatMap window = r.additions.drop r.position := by
  induction r using visits.induct with
  | case1 r h ih =>
    have hrest : r.additions.drop r.stop = (r.additions.drop r.position).drop (r.stop - r.position) := by
      rw [List.drop_drop, Nat.add_sub_cancel' (le_stop h)]
    rw [visits_of_lt h, List.flatMap_cons, ih]
    change r.window ++ r.additions.drop r.stop = _
    rw [window, List.extract_eq_take_drop, hrest, List.take_append_drop]
  | case2 r h =>
    rw [visits_of_le (by omega), List.drop_eq_nil_of_le (by omega), List.flatMap_nil]

theorem window_eq (r : Replay) : r.window = r.additions.extract r.position (r.position + r.batch) := by
  simp only [window, stop, List.extract_eq_take_drop, List.take_eq_take_iff, List.length_drop]
  omega

theorem batches_eq_succ {n b : Nat} (hn : 0 < n) (hb : 0 < b) : (n + b - 1) / b = (n - b + b - 1) / b + 1 := by
  obtain hlt | hle := Nat.lt_or_ge n b
  · have hone : (n + b - 1) / b = 1 := Nat.div_eq_of_lt_le (by omega) (by omega)
    have hzero : (n - b + b - 1) / b = 0 := Nat.div_eq_of_lt (by omega)
    rw [hone, hzero]
  · rw [← Nat.add_div_right _ hb]
    congr 1
    omega

theorem map_visits (r : Replay) : r.visits.map (fun v ↦ (v.position, v.window)) =
    (List.range' r.position ((r.additions.length - r.position + r.batch - 1) / r.batch) r.batch).map
      fun start ↦ (start, r.additions.extract start (start + r.batch)) := by
  induction r using visits.induct with
  | case1 r h ih =>
    have hpos := r.batch_pos
    have hcount : (r.additions.length - r.position + r.batch - 1) / r.batch =
        (r.additions.length - (r.position + r.batch) + r.batch - 1) / r.batch + 1 := by
      rw [← Nat.sub_sub]
      exact batches_eq_succ (by omega) hpos
    rw [visits_of_lt h, List.map_cons, ih, hcount, List.range'_succ, List.map_cons, window_eq]
    change _ :: (List.range' r.stop ((r.additions.length - r.stop + r.batch - 1) / r.batch) r.batch).map _ = _
    by_cases hlast : r.position + r.batch ≤ r.additions.length
    · rw [stop, Nat.min_eq_left hlast]
      rfl
    · have hnone : (r.batch - 1) / r.batch = 0 := Nat.div_eq_of_lt (by omega)
      have hstop : r.additions.length - r.stop = 0 := by
        simp only [stop]
        omega
      have hover : r.additions.length - (r.position + r.batch) = 0 := by omega
      simp [hstop, hover, hnone]
  | case2 r h =>
    have hpos := r.batch_pos
    have hnone : (r.additions.length - r.position + r.batch - 1) / r.batch = 0 := by
      rw [Nat.div_eq_of_lt (by omega)]
    simp [visits_of_le (not_lt.1 h), hnone]

theorem position_of_mem_visits (h : r.position = 0 ∨ r.batch ≤ r.position) (hv : v ∈ r.visits) :
    v.batch = r.batch ∧ v.position < r.additions.length ∧ (v.position = 0 ∨ r.batch ≤ v.position) := by
  induction r using visits.induct with
  | case1 r hlt ih =>
    rw [visits_of_lt hlt, List.mem_cons] at hv
    obtain rfl | hv := hv
    · exact ⟨rfl, hlt, h⟩
    · refine ih ?_ hv
      by_cases hnext : r.next.position < r.additions.length
      · simp only [next, stop] at hnext ⊢
        omega
      · rw [visits_of_le (not_lt.1 hnext)] at hv
        cases hv
  | case2 r hge =>
    rw [visits_of_le (not_lt.1 hge)] at hv
    cases hv

theorem ofAdditions_eq (additions : List Addition) (batch : Nat) :
    Content.ofAdditions additions batch =
      { steps := ((start additions batch).visits.map passage).map Passage.step } := by
  have hsteps := congrArg (List.map fun (x : Nat × List Addition) (p : Producer) ↦
    (({ p with list := x.2.foldl Addition.addTo p.list }, .more) : Producer × Verdict))
    (map_visits (start additions batch))
  rw [List.map_map, List.map_map] at hsteps
  rw [List.map_map]
  exact congrArg (Content.mk · 0) hsteps.symm

theorem joined_passages (vs : List Replay) : Passage.joined (vs.map passage) = vs.flatMap window := by
  induction vs with
  | nil => rfl
  | cons v vs ih => simp [Passage.joined, passage, ← ih]

end Replay

theorem Content.ofAdditions_appends (additions : List Addition) (batch : Nat) :
    (Content.ofAdditions additions batch).Appends additions := by
  have happends := Content.appends_passages ((Replay.start additions batch).visits.map Replay.passage)
  rwa [← Replay.ofAdditions_eq, Replay.joined_passages, Replay.flatMap_window] at happends

def Page.replaying (index : Nat) (additions : List Addition) (batch : Nat) : Page :=
  { index, content := Content.ofAdditions additions batch }

theorem Page.replaying_follows (index : Nat) (additions : List Addition) (batch : Nat) :
    (Page.replaying index additions batch).Follows ⟨additions, []⟩ :=
  ⟨Content.ofAdditions_appends additions batch, rfl, by simp⟩

section Dump

variable (o : DumpOptions) {m : Type → Type} [Monad m]

def DumpOptions.delivery (page : Nat) (additions : List Addition) : Delivery :=
  let list := (Script.mk additions []).list ⟨o.intent, some page, { chunkSize := o.chunkSize }, {}⟩ (.record [])
  ⟨(list.sink.getD (.record [])).recorded, list.totalLength⟩

theorem DumpOptions.deliver_eq (page : Nat) (additions : List Addition) :
    o.deliver page additions = .ok (o.delivery page additions) := by
  have hlimits : o.renderOptions.limits.violation? = none := show ({} : Limits).violation? = none by decide
  obtain ⟨houtcome, hsink⟩ :=
    (Page.replaying_follows page additions o.batch).render (w := {}) rfl hlimits (.record [])
  rw [Page.replaying] at houtcome hsink
  simp only [DumpOptions.deliver, houtcome, hsink]
  rfl

theorem DumpOptions.listing_batch (batch : Nat) (bytes : ByteArray) :
    { o with batch }.listing bytes = o.listing bytes := by
  simp only [DumpOptions.listing, DumpOptions.deliver_eq]
  rfl

theorem DumpOptions.run_batch (batch : Nat) (files : Files m) : { o with batch }.run files = o.run files := by
  simp only [DumpOptions.run, DumpOptions.listingFrom, DumpOptions.listing_batch]

end Dump

theorem TraceEntry.forall₂_of_resolveAll {entries : List TraceEntry} {images : ImageTable} {additions : List Addition}
    (h : TraceEntry.resolveAll entries images = .ok additions) :
    List.Forall₂ (fun e a ↦ ∃ images images', e.resolve images = .ok (a, images')) entries additions := by
  induction entries generalizing images additions with
  | nil =>
    obtain rfl := Except.ok.inj h
    exact .nil
  | cons e entries ih =>
    rw [resolveAll] at h
    obtain ⟨⟨a, images'⟩, he, h⟩ := bind_eq_ok h
    obtain ⟨rest, hrest, h⟩ := bind_eq_ok h
    obtain rfl := Except.ok.inj h
    exact .cons ⟨images, images', he⟩ (ih hrest)

/-- What is certain of a replay with batches of a given size. -/
structure Replays (page : Nat) (additions : List Addition) (batch : Nat) : Prop where
  content : Content.ofAdditions additions batch =
    { steps := ((Replay.start additions batch).visits.map Replay.passage).map Passage.step }
  once : (Replay.start additions batch).visits.flatMap Replay.window = additions
  ends : (Replay.start additions batch).visits.length = (additions.length + max batch 1 - 1) / max batch 1
  /-- The positions are exact in words that hold the batch, as a list has fewer entries than half the words there are. -/
  in_words : ∀ words, batch < words → 2 * additions.length ≤ words →
    ∀ v ∈ (Replay.start additions batch).visits, v.position + v.batch < words
  /-- Whatever the sink, it is given what a list delivers that all is added to at once. -/
  render : ∀ sink w (o : RenderOptions), w.isTerminated = false → o.limits.violation? = none →
    ((Page.replaying page additions batch).render sink o w).outcome =
        .ok ((Script.mk additions []).list ⟨o.intent, some page, o.chunking, o.limits⟩ sink).totalLength ∧
      ((Page.replaying page additions batch).render sink o w).sink =
        ((Script.mk additions []).list ⟨o.intent, some page, o.chunking, o.limits⟩ sink).sink.getD sink

/-- What is delivered of a trace, and all that the program then does, is the same for any two sizes of its batches. -/
theorem dump_of_any_batch (o : DumpOptions) {t : Trace} {additions : List Addition} (h : t.resolve = .ok additions) :
    List.Forall₂ (fun e a ↦ ∃ images images', TraceEntry.resolve images e = .ok (a, images')) t.entries additions ∧
      (∀ batch, Replays t.page additions batch ∧
        { o with batch }.deliver t.page additions = .ok (o.delivery t.page additions)) ∧
      ∀ (m : Type → Type) [Monad m] (files : Files m) (batch : Nat), { o with batch }.run files = o.run files := by
  refine ⟨TraceEntry.forall₂_of_resolveAll h, fun batch ↦ ⟨?_, ?_⟩, fun m _ files batch ↦ o.run_batch batch files⟩
  · have hlength := congrArg List.length (Replay.map_visits (Replay.start additions batch))
    simp only [List.length_map, List.length_range'] at hlength
    refine ⟨Replay.ofAdditions_eq additions batch, Replay.flatMap_window _, hlength, ?_, ?_⟩
    · intro words hbatch hadditions v hv
      obtain ⟨hsize, hposition, hfirst⟩ := Replay.position_of_mem_visits (.inl rfl) hv
      simp only [Replay.start] at hsize hposition hfirst
      omega
    · intro sink w ro hw hlimits
      exact (Page.replaying_follows t.page additions batch).render hw hlimits sink
  · exact DumpOptions.deliver_eq { o with batch } t.page additions

def Trace.short : Trace :=
  ⟨0, [.dependency "font", .instruction (.name "save") [], .instruction (.code 11) []]⟩

theorem dump_of_any_batch_short :
    ∃ additions, Trace.short.resolve = .ok additions ∧
      ∀ batch, Replays 0 additions batch ∧
        DumpOptions.deliver { trace := "trace", chunkSize := 1, batch } 0 additions =
          .ok (DumpOptions.delivery { trace := "trace", chunkSize := 1 } 0 additions) :=
  ⟨_, rfl, (dump_of_any_batch { trace := "trace", chunkSize := 1 } (show Trace.short.resolve = _ from rfl)).2.1⟩

end DisplayList
