import DisplayList.Proofs.Events
import DisplayList.Proofs.Rendering
import DisplayList.Trace.Basic
import Mathlib.Data.List.Forall2

namespace DisplayList

open Builder (Call)

structure Passage where
  additions : List Addition
  hasMore : Bool := true

structure Step.Appends (step : Step) (p : Passage) : Prop where
  list : ∀ r, (step r).1.list = p.additions.foldl Addition.addTo r.list
  verdict : ∀ r, (step r).2 = if p.hasMore then .more else .done
  tasks : ∀ r task, r.worker.checkTask task = .ok () → (step r).1.worker.checkTask task = .ok ()

def Passage.joined : List Passage → List Addition
  | [] => []
  | p :: ps => p.additions ++ if p.hasMore then joined ps else []

def Passage.step (p : Passage) : Step := fun r ↦
  ({ r with list := p.additions.foldl Addition.addTo r.list }, if p.hasMore then .more else .done)

/-- The steps that are left append these, one after the other. -/
def Content.Appends (c : Content) (additions : List Addition) : Prop :=
  ∃ passages, List.Forall₂ Step.Appends (c.steps.drop c.taken) passages ∧ Passage.joined passages = additions

def Addition.call : Addition → Call
  | dependency id => .addDependency id
  | instruction i => .add i.tag i.args

namespace Annot

def opening (a : Annot) (look : Appearance) : Instruction :=
  ⟨.beginAnnot, [.rect a.rect, .matrix (fit a.rect look.bbox look.matrix), .matrix look.matrix]⟩

def calls (a : Annot) (additions : List Addition) : List Call :=
  match a.appearance with
  | none => []
  | some look => .add .beginAnnot (a.opening look).args :: additions.map Addition.call ++ [.add .endAnnot []]

def list (a : Annot) (additions : List Addition) : Builder := (a.calls additions).foldl Call.effect .empty

end Annot

/-- What there is to a page: what its content appends, and its annotations, each with what its appearance appends. -/
structure Script where
  content : List Addition
  annots : List (Annot × List Addition)

namespace Script

def drawn (s : Script) (intent : Intent) : List (Annot × List Addition) :=
  s.annots.filter (·.1.isRenderedFor intent)

def annotCalls (s : Script) (intent : Intent) : List Call :=
  .add .beginAnnots [] :: (s.drawn intent).map (fun x ↦ .append (x.1.list x.2)) ++ [.add .endAnnots []]

def edits (s : Script) (intent : Intent) : List Call := s.content.map Addition.call ++ s.annotCalls intent

def listFor (s : Script) (intent : Intent) (options : BuilderOptions) (sink : Sink) : Builder :=
  Call.effect ((s.edits intent).foldl Call.effect (.create options (some sink))) (.flush true)

def list (s : Script) (options : BuilderOptions) (sink : Sink) : Builder := s.listFor options.intent options sink

end Script

structure Page.Follows (p : Page) (s : Script) : Prop where
  content : p.content.Appends s.content
  annots : p.annots = s.annots.map (·.1)
  appearances : ∀ x ∈ s.annots, ∀ look, x.1.appearance = some look → look.content.Appends x.2

section

variable {task : TaskId} {w : Worker} {r : Producer} {additions : List Addition}

@[simp]
theorem Addition.effect_call (b : Builder) (a : Addition) : a.call.effect b = a.addTo b := by
  cases a <;> rfl

theorem Addition.foldl_effect (b : Builder) (additions : List Addition) :
    (additions.map Addition.call).foldl Call.effect b = additions.foldl Addition.addTo b := by
  simp [List.foldl_map]

theorem Addition.foldl_dependencies (b : Builder) (ids : List String) :
    (ids.map Addition.dependency).foldl Addition.addTo b = b.addDependencies ids := by
  simp [List.foldl_map, Addition.addTo, Builder.addDependencies]

theorem Passage.step_appends (p : Passage) : p.step.Appends p := ⟨fun _ ↦ rfl, fun _ ↦ rfl, fun _ _ h ↦ h⟩

theorem Content.appends_passages (ps : List Passage) :
    Content.Appends { steps := ps.map Passage.step } (Passage.joined ps) := by
  refine ⟨ps, ?_, rfl⟩
  rw [List.drop_zero, List.forall₂_map_left_iff, List.forall₂_same]
  exact fun p _ ↦ p.step_appends

theorem Content.takeSteps_appends {steps : List Step} {passages : List Passage}
    (h : List.Forall₂ Step.Appends steps passages) (ht : r.worker.checkTask task = .ok ()) (n : Nat) :
    ∃ w n', takeSteps task steps n r =
        ⟨.ok (), ⟨(Passage.joined passages).foldl Addition.addTo r.list, w⟩, n'⟩ ∧ w.checkTask task = .ok () := by
  induction h generalizing r n with
  | nil => exact ⟨r.worker, n, takeSteps_nil ht n, ht⟩
  | @cons step p steps passages hstep _ ih =>
    have ht' := hstep.tasks r task ht
    have hlist := hstep.list r
    have hverdict := hstep.verdict r
    cases hs : step r with
    | mk r' v =>
      rw [hs] at ht' hlist hverdict
      dsimp only at ht' hlist hverdict
      cases hmore : p.hasMore with
      | true =>
        simp only [hmore, if_true] at hverdict
        obtain ⟨w, n', htake, hw⟩ := ih ht' (n + 1)
        refine ⟨w, n', ?_, hw⟩
        rw [takeSteps_more ht (hverdict ▸ hs), htake, hlist]
        simp [Passage.joined, hmore]
      | false =>
        simp only [hmore, Bool.false_eq_true, if_false] at hverdict
        refine ⟨r'.worker, n + 1, ?_, ht'⟩
        rw [takeSteps_done ht (hverdict ▸ hs)]
        simp [Passage.joined, hmore, ← hlist]

theorem Content.Appends.evaluate {c : Content} (h : c.Appends additions) (ht : r.worker.checkTask task = .ok ()) :
    ∃ c' w, c.evaluate task r = (.ok (), c', ⟨additions.foldl Addition.addTo r.list, w⟩) ∧
      w.checkTask task = .ok () := by
  obtain ⟨passages, hsteps, rfl⟩ := h
  obtain ⟨w, n, htake, hw⟩ := takeSteps_appends hsteps ht c.taken
  exact ⟨{ c with taken := n }, w, by rw [Content.evaluate, htake], hw⟩

theorem Annot.evaluate_appends {a : Annot}
    (h : ∀ look, a.appearance = some look → look.content.Appends additions) (ht : w.checkTask task = .ok ()) :
    ∃ a' w', a.evaluate task w = (.ok (a.list additions), a', w') ∧ w'.checkTask task = .ok () := by
  rw [evaluate, list, calls]
  cases hlook : a.appearance with
  | none => exact ⟨a, w, rfl, ht⟩
  | some look =>
    obtain ⟨c', w', he, hw⟩ :=
      (h look hlook).evaluate (r := ⟨Builder.empty.add .beginAnnot (a.opening look).args, w⟩) ht
    refine ⟨{ a with appearance := some { look with content := c'.rewind } }, w', ?_, hw⟩
    rw [opening] at he
    simp [he, Addition.foldl_effect, opening]
    rfl

theorem Annot.evaluateAll_appends {annots : List (Annot × List Addition)}
    (h : ∀ x ∈ annots, ∀ look, x.1.appearance = some look → look.content.Appends x.2)
    (ht : w.checkTask task = .ok ()) (intent : Intent) :
    ∃ annots' w', evaluateAll task intent (annots.map (·.1)) w =
        (.ok ((annots.filter (·.1.isRenderedFor intent)).map fun x ↦ x.1.list x.2), annots', w') ∧
      w'.checkTask task = .ok () := by
  induction annots generalizing w with
  | nil => exact ⟨[], w, rfl, ht⟩
  | cons x annots ih =>
    have hannots (y : Annot × List Addition) (hy : y ∈ annots) := h y (List.mem_cons_of_mem x hy)
    rw [List.map_cons, evaluateAll]
    split
    · rename_i hx
      obtain ⟨a', w₁, ha, hw₁⟩ := evaluate_appends (h x List.mem_cons_self) ht
      obtain ⟨annots', w', hall, hw'⟩ := ih hannots hw₁
      exact ⟨a' :: annots', w', by simp [ha, hall, hx]; rfl, hw'⟩
    · rename_i hx
      obtain ⟨annots', w', hall, hw'⟩ := ih hannots ht
      exact ⟨x.1 :: annots', w', by simp [hall, hx], hw'⟩

theorem Script.appendAll_eq {s : Script}
    (h : ∀ x ∈ s.annots, ∀ look, x.1.appearance = some look → look.content.Appends x.2)
    (ht : r.worker.checkTask task = .ok ()) (intent : Intent) :
    ∃ annots w, Annot.appendAll (s.annots.map (·.1)) task intent r =
        (.ok (), annots, ⟨(s.annotCalls intent).foldl Call.effect r.list, w⟩) ∧ w.checkTask task = .ok () := by
  obtain ⟨annots, w, hall, hw⟩ := Annot.evaluateAll_appends h ht intent
  refine ⟨annots, w, ?_, hw⟩
  rw [Annot.appendAll, hall]
  simp [annotCalls, drawn, List.foldl_map]

theorem Page.Follows.draw {p : Page} {s : Script} (h : p.Follows s) (ht : r.worker.checkTask task = .ok ())
    (hr : r.list.sink.isSome) (intent : Intent) :
    ∃ p' w', p.draw task intent r =
      (.ok (), p', ⟨Call.effect ((s.edits intent).foldl Call.effect r.list) (.flush true), w'⟩) := by
  obtain ⟨content, w₁, hcontent, hw₁⟩ := h.content.evaluate ht
  obtain ⟨annots, w₂, hannots, hw₂⟩ :=
    s.appendAll_eq (r := ⟨s.content.foldl Addition.addTo r.list, w₁⟩) h.appearances hw₁ intent
  have hedits : (s.edits intent).foldl Call.effect r.list =
      (s.annotCalls intent).foldl Call.effect (s.content.foldl Addition.addTo r.list) := by
    simp [Script.edits, List.foldl_map]
  have hsink := Builder.isSome_sink_calls hr (s.edits intent)
  rw [hedits] at hsink ⊢
  refine ⟨{ p with content, annots }, w₂, ?_⟩
  have hflush := Builder.perform_eq_effect hsink (.flush true)
  rw [Call.perform] at hflush
  simp only [Page.draw, hcontent, h.annots, hannots, hw₂, hflush]

/-- Rendering delivers what the list of the script was given. -/
theorem Page.Follows.render {p : Page} {s : Script} (h : p.Follows s) (hw : w.isTerminated = false)
    {o : RenderOptions} (ho : o.limits.violation? = none) (sink : Sink) :
    (p.render sink o w).outcome = .ok (s.list (p.listOptions o) sink).totalLength ∧
      (p.render sink o w).sink = (s.list (p.listOptions o) sink).sink.getD sink := by
  obtain ⟨task, w₁, hstart, -, ht⟩ := Worker.startNew_ok hw p.taskName
  obtain ⟨p', w₂, hdraw⟩ := h.draw (r := ⟨.create (p.listOptions o) (some sink), w₁⟩) ht rfl o.intent
  simp only [Page.render, hstart, produce, ho, hdraw]
  exact ⟨rfl, rfl⟩

end

end DisplayList
