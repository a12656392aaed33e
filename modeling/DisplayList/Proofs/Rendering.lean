import DisplayList.PageStream
import DisplayList.Proofs.Checked

namespace DisplayList

def Step.KeepsToList (step : Step) : Prop :=
  ∃ f : Builder → Builder × Verdict, ∀ p, step p = (⟨(f p.list).1, p.worker⟩, (f p.list).2)

def Content.KeepsToList (c : Content) : Prop := ∀ step ∈ c.steps, step.KeepsToList

def Annot.KeepsToList (a : Annot) : Prop := ∀ look, a.appearance = some look → look.content.KeepsToList

def Page.KeepsToList (p : Page) : Prop := p.content.KeepsToList ∧ ∀ a ∈ p.annots, a.KeepsToList

/-- The step cannot tell two workers apart that `R` relates, and leaves workers that it relates. -/
def Step.Overlooks (R : Worker → Worker → Prop) (step : Step) : Prop :=
  ∀ list w w', R w w' →
    ∃ list' v u u', step ⟨list, w⟩ = (⟨list', u⟩, v) ∧ step ⟨list, w'⟩ = (⟨list', u'⟩, v) ∧ R u u'

def Content.Overlooks (R : Worker → Worker → Prop) (c : Content) : Prop := ∀ step ∈ c.steps, step.Overlooks R

def Annot.Overlooks (R : Worker → Worker → Prop) (a : Annot) : Prop :=
  ∀ look, a.appearance = some look → look.content.Overlooks R

def ChecksAlike (R : Worker → Worker → Prop) (task task' : TaskId) : Prop :=
  ∀ w w', R w w' → w.checkTask task = w'.checkTask task'

section

variable {task task' : TaskId} {R : Worker → Worker → Prop} {w w' : Worker}

theorem Step.KeepsToList.overlooks {step : Step} (h : step.KeepsToList) (w w' : Worker) :
    step.Overlooks fun u u' ↦ u = w ∧ u' = w' := by
  obtain ⟨f, hf⟩ := h
  rintro list _ _ ⟨rfl, rfl⟩
  exact ⟨_, _, _, _, hf _, hf _, rfl, rfl⟩

theorem Content.takeSteps_stopped {p : Producer} {steps : List Step} {e : RenderError}
    (h : p.worker.checkTask task = .error e) (n : Nat) : takeSteps task steps n p = ⟨.error e, p, n⟩ := by
  unfold takeSteps
  rw [h]

theorem Content.takeSteps_nil {p : Producer} (h : p.worker.checkTask task = .ok ()) (n : Nat) :
    takeSteps task [] n p = ⟨.ok (), p, n⟩ := by
  unfold takeSteps
  rw [h]

section

variable {p p' : Producer} {step : Step} {steps : List Step} {n : Nat} (h : p.worker.checkTask task = .ok ())
include h

theorem Content.takeSteps_more (hs : step p = (p', .more)) :
    takeSteps task (step :: steps) n p = takeSteps task steps (n + 1) p' := by
  conv_lhs => unfold takeSteps
  rw [h]
  dsimp only
  rw [hs]

theorem Content.takeSteps_done (hs : step p = (p', .done)) :
    takeSteps task (step :: steps) n p = ⟨.ok (), p', n + 1⟩ := by
  unfold takeSteps
  rw [h]
  dsimp only
  rw [hs]

theorem Content.takeSteps_failed {e : RenderError} (hs : step p = (p', .failed e)) :
    takeSteps task (step :: steps) n p = ⟨.error e, p', n + 1⟩ := by
  unfold takeSteps
  rw [h]
  dsimp only
  rw [hs]

end

variable (hR : ChecksAlike R task task')
include hR

theorem Content.takeSteps_beside {steps : List Step} (h : ∀ step ∈ steps, step.Overlooks R) (hw : R w w') (n : Nat)
    (list : Builder) :
    ∃ outcome list' n' u u', takeSteps task steps n ⟨list, w⟩ = ⟨outcome, ⟨list', u⟩, n'⟩ ∧
      takeSteps task' steps n ⟨list, w'⟩ = ⟨outcome, ⟨list', u'⟩, n'⟩ ∧ R u u' := by
  induction steps generalizing n list w w' with
  | nil =>
    have hc' := (hR w w' hw).symm
    cases hc : w.checkTask task with
    | error e => exact ⟨_, _, _, w, w', takeSteps_stopped hc n, takeSteps_stopped (hc'.trans hc) n, hw⟩
    | ok _ => exact ⟨_, _, _, w, w', takeSteps_nil hc n, takeSteps_nil (hc'.trans hc) n, hw⟩
  | cons step steps ih =>
    have hc' := (hR w w' hw).symm
    have hsteps (step : Step) (hs : step ∈ steps) := h step (List.mem_cons_of_mem _ hs)
    obtain ⟨list', v, u, u', hs, hs', hu⟩ := h step List.mem_cons_self list w w' hw
    cases hc : w.checkTask task with
    | error e => exact ⟨_, _, _, w, w', takeSteps_stopped hc n, takeSteps_stopped (hc'.trans hc) n, hw⟩
    | ok _ =>
      rw [hc] at hc'
      cases v with
      | more =>
        rw [takeSteps_more hc hs, takeSteps_more hc' hs']
        exact ih hsteps hu (n + 1) list'
      | done => exact ⟨_, _, _, u, u', takeSteps_done hc hs, takeSteps_done hc' hs', hu⟩
      | failed e => exact ⟨_, _, _, u, u', takeSteps_failed hc hs, takeSteps_failed hc' hs', hu⟩

theorem Content.evaluate_beside {c : Content} (h : c.Overlooks R) (hw : R w w') (list : Builder) :
    ∃ outcome c' list' u u', c.evaluate task ⟨list, w⟩ = (outcome, c', ⟨list', u⟩) ∧
      c.evaluate task' ⟨list, w'⟩ = (outcome, c', ⟨list', u'⟩) ∧ R u u' := by
  have hsteps (step : Step) (hs : step ∈ c.steps.drop c.taken) : step.Overlooks R := h step (List.mem_of_mem_drop hs)
  obtain ⟨outcome, list', n, u, u', he, he', hu⟩ := takeSteps_beside hR hsteps hw c.taken list
  exact ⟨outcome, { c with taken := n }, list', u, u', by rw [evaluate, he], by rw [evaluate, he'], hu⟩

theorem Annot.evaluate_beside {a : Annot} (h : a.Overlooks R) (hw : R w w') :
    ∃ outcome a' u u', a.evaluate task w = (outcome, a', u) ∧ a.evaluate task' w' = (outcome, a', u') ∧ R u u' := by
  cases hlook : a.appearance with
  | none => exact ⟨_, _, _, _, by rw [evaluate, hlook], by rw [evaluate, hlook], hw⟩
  | some look =>
    obtain ⟨outcome, c', list', u, u', he, he', hu⟩ := Content.evaluate_beside hR (h look hlook) hw
      (Builder.empty.add .beginAnnot
        [.rect a.rect, .matrix (fit a.rect look.bbox look.matrix), .matrix look.matrix])
    refine ⟨outcome.map fun _ ↦ list'.add .endAnnot [],
      { a with appearance := some { look with content := c'.rewind } }, u, u', ?_, ?_, hu⟩
    · rw [evaluate, hlook]
      dsimp only
      rw [he]
    · rw [evaluate, hlook]
      dsimp only
      rw [he']

theorem Annot.evaluateAll_beside {annots : List Annot} (h : ∀ a ∈ annots, a.Overlooks R) (hw : R w w')
    (intent : Intent) :
    ∃ outcome annots' u u', evaluateAll task intent annots w = (outcome, annots', u) ∧
      evaluateAll task' intent annots w' = (outcome, annots', u') ∧ R u u' := by
  induction annots generalizing w w' with
  | nil => exact ⟨_, _, _, _, rfl, rfl, hw⟩
  | cons a annots ih =>
    have hrest (b : Annot) (hb : b ∈ annots) := h b (List.mem_cons_of_mem a hb)
    rw [evaluateAll, evaluateAll]
    split
    · obtain ⟨first, a', u, u', ha, ha', hu⟩ := evaluate_beside hR (h a List.mem_cons_self) hw
      rw [ha, ha']
      cases first with
      | ok list =>
        obtain ⟨outcome, annots', v, v', hs, hs', hv⟩ := ih hrest hu
        dsimp only
        rw [hs, hs']
        exact ⟨_, _, _, _, rfl, rfl, hv⟩
      | error e => exact ⟨_, _, _, _, rfl, rfl, hu⟩
    · obtain ⟨outcome, annots', v, v', hs, hs', hv⟩ := ih hrest hw
      rw [hs, hs']
      exact ⟨_, _, _, _, rfl, rfl, hv⟩

theorem Annot.appendAll_beside {annots : List Annot} (h : ∀ a ∈ annots, a.Overlooks R) (hw : R w w')
    (intent : Intent) (list : Builder) :
    ∃ outcome annots' list' u u', appendAll annots task intent ⟨list, w⟩ = (outcome, annots', ⟨list', u⟩) ∧
      appendAll annots task' intent ⟨list, w'⟩ = (outcome, annots', ⟨list', u'⟩) ∧ R u u' := by
  obtain ⟨outcome, annots', u, u', hs, hs', hu⟩ := evaluateAll_beside hR h hw intent
  rw [appendAll, appendAll, hs, hs']
  cases outcome with
  | ok lists => exact ⟨_, _, _, _, _, rfl, rfl, hu⟩
  | error e => exact ⟨_, _, _, _, _, rfl, rfl, hu⟩

theorem Page.draw_beside {p : Page} (hc : p.content.Overlooks R) (ha : ∀ a ∈ p.annots, a.Overlooks R) (hw : R w w')
    (intent : Intent) (list : Builder) :
    ∃ outcome p' list' u u', p.draw task intent ⟨list, w⟩ = (outcome, p', ⟨list', u⟩) ∧
      p.draw task' intent ⟨list, w'⟩ = (outcome, p', ⟨list', u'⟩) ∧ R u u' := by
  obtain ⟨outcome, content, list₁, u, u', he, he', hu⟩ := Content.evaluate_beside hR hc hw list
  rw [draw, draw, he, he']
  cases outcome with
  | error e => exact ⟨_, _, _, _, _, rfl, rfl, hu⟩
  | ok _ =>
    obtain ⟨outcome, annots, list₂, v, v', hs, hs', hv⟩ := Annot.appendAll_beside hR ha hu intent list₁
    dsimp only
    rw [hs, hs']
    cases outcome with
    | error e => exact ⟨_, _, _, _, _, rfl, rfl, hv⟩
    | ok _ =>
      dsimp only
      rw [← hR v v' hv]
      cases v.checkTask task with
      | error e => exact ⟨_, _, _, _, _, rfl, rfl, hv⟩
      | ok _ =>
        cases list₂.flush true with
        | error e => exact ⟨_, _, _, _, _, rfl, rfl, hv⟩
        | ok list₃ => exact ⟨_, _, _, _, _, rfl, rfl, hv⟩

theorem Page.produce_beside {p : Page} (hc : p.content.Overlooks R) (ha : ∀ a ∈ p.annots, a.Overlooks R)
    (hw : R w w') (sink : Sink) (o : RenderOptions) :
    ∃ outcome p' sink' u u', p.produce task sink o w = ⟨outcome, p', sink', u⟩ ∧
      p.produce task' sink o w' = ⟨outcome, p', sink', u'⟩ ∧ R u u' := by
  rw [produce, produce]
  cases o.limits.violation? with
  | some v => exact ⟨_, _, _, _, _, rfl, rfl, hw⟩
  | none =>
    obtain ⟨outcome, p', list, u, u', hd, hd', hu⟩ :=
      draw_beside hR hc ha hw o.intent (.create (p.listOptions o) (some sink))
    dsimp only
    rw [hd, hd']
    exact ⟨_, _, _, _, _, rfl, rfl, hu⟩

end

theorem Worker.startNew_ok {w : Worker} (h : w.isTerminated = false) (name : String) :
    ∃ task w', w.startNew name = .ok (task, w') ∧ w'.isTerminated = false ∧ w'.checkTask task = .ok () := by
  refine ⟨⟨w.tasks.size⟩, { w with tasks := w.tasks.push { name }, running := w.running ++ [⟨w.tasks.size⟩] },
    ?_, h, ?_⟩
  · simp [startNew, make, start, check, h]
  · simp [checkTask, isTaskTerminated, task?]

/-- Under workers that take tasks, a page comes to the same outcome and leaves the same in the sink. -/
theorem Page.render_beside {p : Page} (h : p.KeepsToList) {w w' : Worker} (hw : w.isTerminated = false)
    (hw' : w'.isTerminated = false) (sink : Sink) (o : RenderOptions) :
    (p.render sink o w).outcome = (p.render sink o w').outcome ∧ (p.render sink o w).sink = (p.render sink o w').sink ∧
      (p.render sink o w).worker.isTerminated = false := by
  obtain ⟨task, w₁, hs, hw₁, ht⟩ := Worker.startNew_ok hw p.taskName
  obtain ⟨task', w₁', hs', -, ht'⟩ := Worker.startNew_ok hw' p.taskName
  have hR : ChecksAlike (fun u u' ↦ u = w₁ ∧ u' = w₁') task task' := by
    rintro _ _ ⟨rfl, rfl⟩
    rw [ht, ht']
  have hcontent : p.content.Overlooks fun u u' ↦ u = w₁ ∧ u' = w₁' := fun step hs ↦ (h.1 step hs).overlooks w₁ w₁'
  have hannots (a : Annot) (ha : a ∈ p.annots) : a.Overlooks fun u u' ↦ u = w₁ ∧ u' = w₁' :=
    fun look hlook step hs ↦ (h.2 a ha look hlook step hs).overlooks w₁ w₁'
  obtain ⟨outcome, p', sink', _, _, hp, hp', rfl, rfl⟩ :=
    produce_beside hR hcontent hannots ⟨rfl, rfl⟩ sink o
  rw [render, render, hs, hs']
  dsimp only
  rw [hp, hp']
  exact ⟨rfl, rfl, hw₁⟩

end DisplayList
