import DisplayList.Proofs.Delivery
import DisplayList.Proofs.Rendering
import DisplayList.Proofs.Worker

namespace DisplayList

open Relation (ReflTransGen)

/-- Any succession of calls, but for the one that says that the list is complete. -/
def Builder.Grows : Builder → Builder → Prop :=
  ReflTransGen fun b b' ↦ ∃ c : Builder.Call, c ≠ .flush true ∧ c.perform b = .ok b'

def Worker.CalledOff : Worker → Worker → Prop := ReflTransGen fun w w' ↦ w' = w.cancelAll.2

structure Producer.Becomes (p q : Producer) : Prop where
  list : p.list.Grows q.list
  worker : p.worker.CalledOff q.worker

def Step.IsProper (step : Step) : Prop := ∀ p : Producer, p.Becomes (step p).1

def Content.IsProper (c : Content) : Prop := ∀ step ∈ c.steps, step.IsProper

def Annot.IsProper (a : Annot) : Prop := ∀ look, a.appearance = some look → look.content.IsProper

def Page.IsProper (p : Page) : Prop := p.content.IsProper ∧ ∀ a ∈ p.annots, a.IsProper

section Becoming

variable {task : TaskId} {w : Worker} {b b' : Builder} {p q r : Producer}

theorem Producer.Becomes.refl (p : Producer) : p.Becomes p := ⟨.refl, .refl⟩

theorem Producer.Becomes.trans (h : p.Becomes q) (h' : q.Becomes r) : p.Becomes r :=
  ⟨h.list.trans h'.list, h.worker.trans h'.worker⟩

theorem Builder.Grows.add (h : b.Grows b') (tag : Tag) (args : List Arg) : b.Grows (b'.add tag args) :=
  h.tail ⟨.add tag args, by nofun, rfl⟩

theorem Builder.Grows.appendAll (h : b.Grows b') (lists : List Builder) : b.Grows (lists.foldl Builder.append b') := by
  induction lists generalizing b' with
  | nil => exact h
  | cons list lists ih => exact ih (h.tail ⟨.append list, by nofun, rfl⟩)

theorem Content.takeSteps_becomes {steps : List Step} (h : ∀ step ∈ steps, step.IsProper) (n : Nat) (p : Producer) :
    p.Becomes (takeSteps task steps n p).producer := by
  induction steps generalizing n p with
  | nil =>
    cases hc : p.worker.checkTask task with
    | error e =>
      rw [takeSteps_stopped hc]
      exact .refl p
    | ok u =>
      rw [takeSteps_nil hc]
      exact .refl p
  | cons step steps ih =>
    have hsteps (step : Step) (hs : step ∈ steps) := h step (List.mem_cons_of_mem _ hs)
    have hstep := h step List.mem_cons_self p
    cases hc : p.worker.checkTask task with
    | error e =>
      rw [takeSteps_stopped hc]
      exact .refl p
    | ok u =>
      cases hs : step p with
      | mk q v =>
        rw [hs] at hstep
        cases v with
        | more =>
          rw [takeSteps_more hc hs]
          exact hstep.trans (ih hsteps (n + 1) q)
        | done =>
          rw [takeSteps_done hc hs]
          exact hstep
        | failed e =>
          rw [takeSteps_failed hc hs]
          exact hstep

theorem Content.evaluate_becomes {c : Content} (h : c.IsProper) (task : TaskId) (p : Producer) :
    p.Becomes (c.evaluate task p).2.2 :=
  takeSteps_becomes (fun step hs ↦ h step (List.mem_of_mem_drop hs)) c.taken p

theorem Annot.evaluate_calledOff {a : Annot} (h : a.IsProper) (task : TaskId) (w : Worker) :
    w.CalledOff (a.evaluate task w).2.2 := by
  rw [evaluate]
  split
  · exact .refl
  · rename_i look hlook
    exact (Content.evaluate_becomes (h look hlook) task ⟨_, w⟩).worker

theorem Annot.evaluateAll_calledOff {annots : List Annot} (h : ∀ a ∈ annots, a.IsProper) (task : TaskId)
    (intent : Intent) (w : Worker) : w.CalledOff (evaluateAll task intent annots w).2.2 := by
  induction annots generalizing w with
  | nil => exact .refl
  | cons a annots ih =>
    have hannots (b : Annot) (hb : b ∈ annots) := h b (List.mem_cons_of_mem a hb)
    have ha := evaluate_calledOff (h a List.mem_cons_self) task w
    rw [evaluateAll]
    split
    · cases he : a.evaluate task w with
      | mk outcome rest =>
        obtain ⟨a', w'⟩ := rest
        rw [he] at ha
        cases outcome with
        | ok list => exact ha.trans (ih hannots w')
        | error e => exact ha
    · exact ih hannots w

theorem Annot.appendAll_becomes {annots : List Annot} (h : ∀ a ∈ annots, a.IsProper) (task : TaskId)
    (intent : Intent) (p : Producer) : p.Becomes (appendAll annots task intent p).2.2 := by
  have hw := evaluateAll_calledOff h task intent p.worker
  rw [appendAll]
  cases he : evaluateAll task intent annots p.worker with
  | mk outcome rest =>
    obtain ⟨annots', w'⟩ := rest
    rw [he] at hw
    cases outcome with
    | ok lists => exact ⟨((Builder.Grows.add .refl _ _).appendAll lists).add _ _, hw⟩
    | error e => exact ⟨.refl, hw⟩

theorem Page.draw_becomes {p : Page} (h : p.IsProper) (task : TaskId) (intent : Intent) (r : Producer) :
    ∃ r', r.Becomes r' ∧ ((∃ e p', p.draw task intent r = (.error e, p', r')) ∨
      ∃ p' list, r'.list.flush true = .ok list ∧ p.draw task intent r = (.ok (), p', { r' with list })) := by
  have hcontent := Content.evaluate_becomes h.1 task r
  rw [draw]
  cases hc : p.content.evaluate task r with
  | mk outcome rest =>
    obtain ⟨content, r₁⟩ := rest
    rw [hc] at hcontent
    cases outcome with
    | error e => exact ⟨r₁, hcontent, .inl ⟨e, _, rfl⟩⟩
    | ok u =>
      have hannots := Annot.appendAll_becomes h.2 task intent r₁
      dsimp only
      cases ha : Annot.appendAll p.annots task intent r₁ with
      | mk outcome rest =>
        obtain ⟨annots, r₂⟩ := rest
        rw [ha] at hannots
        refine ⟨r₂, hcontent.trans hannots, ?_⟩
        cases outcome with
        | error e => exact .inl ⟨e, _, rfl⟩
        | ok u =>
          dsimp only
          cases r₂.worker.checkTask task with
          | error e => exact .inl ⟨e, _, rfl⟩
          | ok u =>
            cases hf : r₂.list.flush true with
            | error e => exact .inl ⟨e, _, rfl⟩
            | ok list => exact .inr ⟨_, list, rfl, rfl⟩

end Becoming

namespace Builder

variable {batching : Option Limits} {sink : Option Sink} {b b' : Builder}

def IsIncomplete (batching : Option Limits) (sink : Option Sink) (b : Builder) : Prop :=
  ∃ parcels pending, Holds batching sink b parcels pending ∧ ∀ p ∈ parcels, p.chunk.isLast = false

theorem IsIncomplete.add (h : b.IsIncomplete batching sink) (tag : Tag) (args : List Arg) :
    (b.add tag args).IsIncomplete batching sink := by
  obtain ⟨parcels, pending, hholds, hlast⟩ := h
  obtain ⟨h', -⟩ | ⟨m, hm, h', -⟩ := hholds.add tag args
  · exact ⟨_, _, h', hlast⟩
  · refine ⟨_, _, h', ?_⟩
    rw [List.forall_mem_append, List.forall_mem_singleton]
    exact ⟨hlast, hm⟩

theorem IsIncomplete.announce (h : b.IsIncomplete batching sink) (ids : List String) :
    IsIncomplete batching sink { b with dependencies := ids } := by
  obtain ⟨parcels, pending, hholds, hlast⟩ := h
  exact ⟨parcels, pending, hholds.remember ids, hlast⟩

theorem IsIncomplete.addDependency (h : b.IsIncomplete batching sink) (id : String) :
    (b.addDependency id).IsIncomplete batching sink := by
  rw [Builder.addDependency]
  split
  · exact h
  · exact (h.announce _).add _ _

theorem IsIncomplete.splice (h : b.IsIncomplete batching sink) (i : Instruction) :
    (b.splice i).IsIncomplete batching sink := by
  rw [Builder.splice]
  split
  · split
    · exact h
    · exact (h.announce _).add _ _
  · exact h.add _ _

theorem IsIncomplete.foldl {α : Type} {edit : Builder → α → Builder}
    (hedit : ∀ b a, IsIncomplete batching sink b → IsIncomplete batching sink (edit b a))
    (h : b.IsIncomplete batching sink) (as : List α) : (as.foldl edit b).IsIncomplete batching sink := by
  induction as generalizing b with
  | nil => exact h
  | cons a as ih => exact ih (hedit b a h)

theorem IsIncomplete.perform (h : b.IsIncomplete batching sink) {c : Call} (hc : c ≠ .flush true)
    (hb : c.perform b = .ok b') : b'.IsIncomplete batching sink := by
  cases c with
  | add tag args =>
    obtain rfl := Except.ok.inj hb
    exact h.add tag args
  | addDependency id =>
    obtain rfl := Except.ok.inj hb
    exact h.addDependency id
  | addDependencies ids =>
    obtain rfl := Except.ok.inj hb
    exact h.foldl (fun _ id h ↦ h.addDependency id) ids
  | append other =>
    obtain rfl := Except.ok.inj hb
    exact h.foldl (fun _ i h ↦ h.splice i) other.queue.toList
  | flush isLast =>
    obtain rfl : isLast = false := by simpa using hc
    obtain ⟨parcels, pending, hholds, hlast⟩ := h
    obtain ⟨s, hs, rfl⟩ := flush_eq_ok hb
    obtain ⟨m, hm, h'⟩ := hholds.deliver hs false
    refine ⟨_, _, h', ?_⟩
    rw [List.forall_mem_append, List.forall_mem_singleton]
    exact ⟨hlast, hm⟩

theorem IsIncomplete.grows (h : b.IsIncomplete batching sink) (hb : b.Grows b') :
    b'.IsIncomplete batching sink := by
  induction hb with
  | refl => exact h
  | tail _ hstep ih =>
    obtain ⟨c, hc, hperform⟩ := hstep
    exact ih.perform hc hperform

end Builder

namespace Worker

variable {w w' : Worker} {t : TaskId}

theorem foldl_terminate (w : Worker) (ts : List TaskId) :
    (ts.foldl terminate w).running = w.running ∧ w.Onward (ts.foldl terminate w) := by
  induction ts generalizing w with
  | nil => exact ⟨rfl, .refl w⟩
  | cons t ts ih =>
    obtain ⟨hrunning, honward⟩ := ih (w.terminate t)
    exact ⟨hrunning, (onward_terminate w t).trans honward⟩

theorem CalledOff.running (h : w.CalledOff w') : w'.running = w.running ∧ w.Onward w' := by
  induction h with
  | refl => exact ⟨rfl, .refl w⟩
  | tail _ hstep ih =>
    subst hstep
    obtain ⟨hrunning, honward⟩ := foldl_terminate (close _).2 (close _).1
    exact ⟨hrunning.trans ih.1, ih.2.trans ((onward_close _).trans honward)⟩

theorem startNew_eq_ok {name : String} (h : w.startNew name = .ok (t, w')) :
    w.isTerminated = false ∧ t.index = w.tasks.size ∧ t.index < w'.tasks.size ∧ w'.running = w.running ++ [t] := by
  obtain ⟨w₁, hw, h⟩ := bind_eq_ok h
  cases h
  obtain ⟨hclosed, rfl⟩ := start_eq_ok hw
  exact ⟨hclosed, rfl, by simp, rfl⟩

theorem finish_started {name : String} {w₁ : Worker} (hw : w.Sound) (hs : w.startNew name = .ok (t, w₁))
    (h : w₁.CalledOff w') : (w'.finish t).running = w.running ∧ (w'.finish t).isTaskFinished t := by
  obtain ⟨-, ht, hmade, hstarted⟩ := startNew_eq_ok hs
  obtain ⟨hrunning, honward⟩ := h.running
  constructor
  · have hnew : ∀ s ∈ w.running, s ≠ t := by
      rintro s hmem rfl
      exact absurd (hw s hmem) (by omega)
    change w'.running.filter (· ≠ t) = w.running
    rw [hrunning, hstarted, List.filter_append]
    simpa [List.filter_eq_self] using hnew
  · exact (onward_forget _ t).finished (isTaskFinished_markFinished (honward.made hmade))

end Worker

/-- What a rendering has given to its sink. -/
structure Rendering.Delivers (sink : Sink) (r : Rendering) (ms : List Message) : Prop where
  sent : r.sink = sink.enqueueAll ms
  lengths : ∀ m ∈ ms, m.chunk.length = m.chunk.columns.tags.size ∧ m.chunk.length = m.chunk.columns.args.size
  ok : ∀ n, r.outcome = .ok n → (ms.map (·.chunk.length)).sum = n ∧
    ∃ init last, ms = init ++ [last] ∧ last.chunk.isLast ∧ ∀ m ∈ init, m.chunk.isLast = false
  error : ∀ e, r.outcome = .error e → ∀ m ∈ ms, m.chunk.isLast = false

section Delivering

variable {batching : Option Limits} {sink s : Sink} {b b' : Builder} {parcels : List Builder.Parcel}
  {pending : List Instruction} {p : Page} {w : Worker}

theorem Builder.Holds.lengths (h : b.Holds batching (some sink) parcels pending) :
    ∀ m ∈ parcels.map (·.message),
      m.chunk.length = m.chunk.columns.tags.size ∧ m.chunk.length = m.chunk.columns.args.size := by
  intro m hm
  obtain ⟨parcel, hmem, rfl⟩ := List.mem_map.1 hm
  have hdelivers := h.delivers parcel hmem
  exact ⟨hdelivers.length, hdelivers.length.trans hdelivers.aligned⟩

theorem Builder.Holds.sink_eq (h : b.Holds batching (some sink) parcels pending) :
    b.sink.getD sink = sink.enqueueAll (parcels.map (·.message)) := by
  simp [h.sent]

theorem Builder.IsIncomplete.delivers_error (h : b.IsIncomplete batching (some sink)) (e : RenderError) :
    ∃ ms, Rendering.Delivers sink ⟨.error e, p, b.sink.getD sink, w⟩ ms := by
  obtain ⟨parcels, pending, hholds, hlast⟩ := h
  refine ⟨_, hholds.sink_eq, hholds.lengths, nofun, fun _ _ m hm ↦ ?_⟩
  obtain ⟨parcel, hmem, rfl⟩ := List.mem_map.1 hm
  exact hlast parcel hmem

theorem Builder.IsIncomplete.delivers_ok (h : b.IsIncomplete batching (some sink)) (hb : b.flush true = .ok b') :
    ∃ ms, Rendering.Delivers sink ⟨.ok b'.totalLength, p, b'.sink.getD sink, w⟩ ms := by
  obtain ⟨parcels, pending, hholds, hlast⟩ := h
  obtain ⟨s, hs, rfl⟩ := Builder.flush_eq_ok hb
  obtain ⟨m, hm, hholds'⟩ := hholds.deliver hs true
  refine ⟨_, hholds'.sink_eq, hholds'.lengths, fun n hn ↦ ⟨?_, parcels.map (·.message), m, ?_, hm, ?_⟩,
    fun e he ↦ by cases he⟩
  · have htotal : (b.deliver s true).totalLength = (b.deliver s true).flushed := rfl
    rw [← Except.ok.inj hn, htotal, hholds'.flushed, List.map_map]
    rfl
  · rw [List.map_append, List.map_singleton]
  · intro m hm
    obtain ⟨parcel, hmem, rfl⟩ := List.mem_map.1 hm
    exact hlast parcel hmem

end Delivering

namespace Page

variable {p : Page} {sink : Sink} {o : RenderOptions} {w : Worker}

/-- What is certain of a page that is rendered, whether it succeeds or not. -/
structure Outcome (p : Page) (sink : Sink) (o : RenderOptions) (w : Worker) (r : Rendering) (ms : List Message) : Prop
    extends r.Delivers sink ms where
  refused : w.isTerminated ∨ o.limits.violation? ≠ none → (∃ e, r.outcome = .error e) ∧ ms = [] ∧ r.page = p
  running : r.worker.running = w.running
  finished : ∀ task w', w.startNew p.taskName = .ok (task, w') → r.worker.isTaskFinished task

theorem outcome_of_refused {e : RenderError} {w' : Worker} (hrunning : w'.running = w.running)
    (hfinished : ∀ task w₁, w.startNew p.taskName = .ok (task, w₁) → w'.isTaskFinished task) :
    Outcome p sink o w ⟨.error e, p, sink, w'⟩ [] :=
  ⟨⟨rfl, nofun, nofun, nofun⟩, fun _ ↦ ⟨⟨e, rfl⟩, rfl, rfl⟩, hrunning, hfinished⟩

theorem produce_delivers (hv : o.limits.violation? = none) (hp : p.IsProper) (task : TaskId) (sink : Sink)
    (w : Worker) :
    w.CalledOff (p.produce task sink o w).worker ∧ ∃ ms, (p.produce task sink o w).Delivers sink ms := by
  obtain ⟨r', hbecomes, hdraw⟩ := draw_becomes hp task o.intent ⟨.create (p.listOptions o) (some sink), w⟩
  have hincomplete := Builder.IsIncomplete.grows
    ⟨[], [], Builder.holds_create (p.listOptions o) (some sink), nofun⟩ hbecomes.list
  rw [produce, hv]
  dsimp only
  obtain ⟨e, p', hdraw⟩ | ⟨p', list, hflush, hdraw⟩ := hdraw
  · rw [hdraw]
    exact ⟨hbecomes.worker, hincomplete.delivers_error e⟩
  · rw [hdraw]
    exact ⟨hbecomes.worker, hincomplete.delivers_ok hflush⟩

/-- Whatever proper content does, a page delivers its last chunk if it succeeds and never otherwise, and its task is
done with in the end. -/
theorem render_outcome (hw : w.Sound) (hp : p.IsProper) : ∃ ms, Outcome p sink o w (p.render sink o w) ms := by
  rw [render]
  cases hs : w.startNew p.taskName with
  | error e => exact ⟨[], outcome_of_refused rfl fun _ _ h ↦ by cases hs.symm.trans h⟩
  | ok started =>
    obtain ⟨task, w₁⟩ := started
    dsimp only
    have htask {w' : Worker} (h : w₁.CalledOff w') : (w'.finish task).running = w.running ∧
        ∀ t w₂, w.startNew p.taskName = .ok (t, w₂) → (w'.finish task).isTaskFinished t := by
      obtain ⟨hrunning, hfinished⟩ := Worker.finish_started hw hs h
      refine ⟨hrunning, fun t w₂ ht ↦ ?_⟩
      cases hs.symm.trans ht
      exact hfinished
    cases hv : o.limits.violation? with
    | some v =>
      obtain ⟨hrunning, hfinished⟩ := htask .refl
      rw [produce, hv]
      exact ⟨[], outcome_of_refused hrunning hfinished⟩
    | none =>
      obtain ⟨hworker, ms, hdelivers⟩ := produce_delivers hv hp task sink w₁
      obtain ⟨hrunning, hfinished⟩ := htask hworker
      have hadmitted : ¬ (w.isTerminated ∨ o.limits.violation? ≠ none) := by
        simp [(Worker.startNew_eq_ok hs).1, hv]
      exact ⟨ms, ⟨hdelivers.sent, hdelivers.lengths, hdelivers.ok, hdelivers.error⟩, fun h ↦ absurd h hadmitted,
        hrunning, hfinished⟩

def interrupted : Page where
  index := 0
  content := { steps := [
    fun r ↦ (⟨(r.list.add .save []).addDependency "font", r.worker⟩, .more),
    fun r ↦ (⟨r.list.add .restore [], r.worker.cancelAll.2⟩, .more),
    fun r ↦ (r, .done)] }
  annots := [⟨.unit, ⟨0⟩, none⟩]

theorem interrupted_isProper : interrupted.IsProper := by
  refine ⟨?_, fun a ha look hlook ↦ ?_⟩
  · intro step hstep r
    simp only [interrupted, List.mem_cons, List.not_mem_nil, or_false] at hstep
    obtain rfl | rfl | rfl := hstep
    · exact ⟨(Builder.Grows.add .refl _ _).tail ⟨.addDependency "font", nofun, rfl⟩, .refl⟩
    · exact ⟨.add .refl _ _, .single rfl⟩
    · exact .refl r
  · obtain rfl := List.mem_singleton.1 ha
    cases hlook

theorem render_outcome_interrupted : Worker.Sound {} ∧ interrupted.IsProper ∧
    (interrupted.render (.record []) ⟨.oplist, ⟨2, 0⟩, {}⟩ {}).outcome =
      .error (.terminated "RenderPageRequest: page 1") ∧
    ∃ ms, Outcome interrupted (.record []) ⟨.oplist, ⟨2, 0⟩, {}⟩ {}
      (interrupted.render (.record []) ⟨.oplist, ⟨2, 0⟩, {}⟩ {}) ms :=
  ⟨nofun, interrupted_isProper, rfl, render_outcome nofun interrupted_isProper⟩

end Page

end DisplayList
