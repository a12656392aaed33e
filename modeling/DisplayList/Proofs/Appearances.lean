import DisplayList.Proofs.Cancellation
import DisplayList.Proofs.Routine

namespace DisplayList

theorem Content.rewind_evaluate {c : Content} (h : c.taken = 0) (task : TaskId) (p : Producer) :
    (c.evaluate task p).2.1.rewind = c := by
  rw [Content.rewind, Content.evaluate, ← h]

namespace Annot

def AtStart (a : Annot) : Prop := ∀ look, a.appearance = some look → look.content.taken = 0

inductive Evaluates (task : TaskId) (intent : Intent) : List Annot → Worker → List Builder → Worker → Prop
  | nil (w : Worker) : Evaluates task intent [] w [] w
  | drawn {a : Annot} {annots : List Annot} {list : Builder} {lists : List Builder} {w w₁ w₂ : Worker}
    (rendered : a.isRenderedFor intent) (evaluated : a.evaluate task w = (.ok list, a, w₁))
    (others : Evaluates task intent annots w₁ lists w₂) : Evaluates task intent (a :: annots) w (list :: lists) w₂
  | skipped {a : Annot} {annots : List Annot} {lists : List Builder} {w w₁ : Worker}
    (rendered : ¬ a.isRenderedFor intent) (others : Evaluates task intent annots w lists w₁) :
    Evaluates task intent (a :: annots) w lists w₁

def FailsWith (task : TaskId) (intent : Intent) (annots : List Annot) (w : Worker) (e : RenderError) (w' : Worker) :
    Prop :=
  ∃ before a after lists w₁, annots = before ++ a :: after ∧ Evaluates task intent before w lists w₁ ∧
    a.isRenderedFor intent ∧ a.evaluate task w₁ = (.error e, a, w')

/-- Either all annotations were appended to the list of `p`, or one has failed and nothing was. -/
structure AllOrNothing (annots : List Annot) (task : TaskId) (intent : Intent) (p : Producer)
    (outcome : Except RenderError Unit) (p' : Producer) : Prop where
  all : outcome = .ok () →
    ∃ lists, Evaluates task intent annots p.worker lists p'.worker ∧ p'.list = p.list.closing lists
  nothing : ∀ e, outcome = .error e → FailsWith task intent annots p.worker e p'.worker ∧ p'.list = p.list

/-- Under workers that they cannot tell apart, the annotations in `left` come to what those in `annots` do. -/
def ActsLike (left annots : List Annot) : Prop :=
  ∀ (R : Worker → Worker → Prop) (task task' : TaskId) (intent : Intent) (list : Builder) (w w' : Worker),
    ChecksAlike R task task' → (∀ a ∈ annots, a.Overlooks R) → R w w' →
      ∃ outcome annots' list' u u', appendAll left task intent ⟨list, w⟩ = (outcome, annots', ⟨list', u⟩) ∧
        appendAll annots task' intent ⟨list, w'⟩ = (outcome, annots', ⟨list', u'⟩)

variable {task : TaskId} {intent : Intent} {a : Annot} {annots : List Annot} {w w' : Worker} {e : RenderError}

theorem AtStart.evaluate_eq (h : a.AtStart) (task : TaskId) (w : Worker) :
    ∃ outcome w', a.evaluate task w = (outcome, a, w') := by
  cases hlook : a.appearance with
  | none => exact ⟨.ok .empty, w, by rw [evaluate, hlook]⟩
  | some look =>
    have hrewound := Content.rewind_evaluate (h look hlook) task
      ⟨Builder.empty.add .beginAnnot [.rect a.rect, .matrix (fit a.rect look.bbox look.matrix), .matrix look.matrix], w⟩
    rw [evaluate, hlook]
    dsimp only
    rw [hrewound, ← hlook]
    exact ⟨_, _, rfl⟩

theorem FailsWith.drawn {list : Builder} (rendered : a.isRenderedFor intent)
    (evaluated : a.evaluate task w = (.ok list, a, w')) {w₁ : Worker} (others : FailsWith task intent annots w' e w₁) :
    FailsWith task intent (a :: annots) w e w₁ := by
  obtain ⟨before, b, after, lists, w₂, rfl, hbefore, hb⟩ := others
  exact ⟨a :: before, b, after, list :: lists, w₂, rfl, .drawn rendered evaluated hbefore, hb⟩

theorem FailsWith.skipped (rendered : ¬ a.isRenderedFor intent) (others : FailsWith task intent annots w e w') :
    FailsWith task intent (a :: annots) w e w' := by
  obtain ⟨before, b, after, lists, w₂, rfl, hbefore, hb⟩ := others
  exact ⟨a :: before, b, after, lists, w₂, rfl, .skipped rendered hbefore, hb⟩

theorem evaluateAll_cases (h : ∀ a ∈ annots, a.AtStart) (task : TaskId) (intent : Intent) (w : Worker) :
    (∃ lists w', evaluateAll task intent annots w = (.ok lists, annots, w') ∧
        Evaluates task intent annots w lists w') ∨
      ∃ e w', evaluateAll task intent annots w = (.error e, annots, w') ∧ FailsWith task intent annots w e w' := by
  induction annots generalizing w with
  | nil => exact .inl ⟨[], w, rfl, .nil w⟩
  | cons a annots ih =>
    rw [List.forall_mem_cons] at h
    rw [evaluateAll]
    by_cases hrendered : a.isRenderedFor intent
    · rw [if_pos hrendered]
      obtain ⟨outcome, w₁, ha⟩ := h.1.evaluate_eq task w
      rw [ha]
      cases outcome with
      | error e => exact .inr ⟨e, w₁, rfl, [], a, annots, [], w, rfl, .nil w, hrendered, ha⟩
      | ok list =>
        dsimp only
        obtain ⟨lists, w', hall, hothers⟩ | ⟨e, w', hall, hothers⟩ := ih h.2 w₁
        · rw [hall]
          exact .inl ⟨list :: lists, w', rfl, .drawn hrendered ha hothers⟩
        · rw [hall]
          exact .inr ⟨e, w', rfl, hothers.drawn hrendered ha⟩
    · rw [if_neg hrendered]
      obtain ⟨lists, w', hall, hothers⟩ | ⟨e, w', hall, hothers⟩ := ih h.2 w
      · rw [hall]
        exact .inl ⟨lists, w', rfl, .skipped hrendered hothers⟩
      · rw [hall]
        exact .inr ⟨e, w', rfl, hothers.skipped hrendered⟩

theorem appendAll_cases (h : ∀ a ∈ annots, a.AtStart) (task : TaskId) (intent : Intent) (p : Producer) :
    ∃ outcome p', appendAll annots task intent p = (outcome, annots, p') ∧
      AllOrNothing annots task intent p outcome p' := by
  rw [appendAll]
  obtain ⟨lists, w', hall, hlists⟩ | ⟨e, w', hall, hfails⟩ := evaluateAll_cases h task intent p.worker
  · rw [hall]
    refine ⟨_, _, rfl, fun _ ↦ ⟨lists, hlists, rfl⟩, ?_⟩
    intro e he
    cases he
  · rw [hall]
    refine ⟨_, _, rfl, ?_, ?_⟩
    · intro hok
      cases hok
    · intro e' he
      cases he
      exact ⟨hfails, rfl⟩

theorem list_of_yields {list list' : Builder} {outcome : Except RenderError Unit}
    (h : (Routine.appendAll annots task intent list).Yields (outcome, list')) :
    (∃ lists, outcome = .ok () ∧ list' = list.closing lists) ∨ ∃ e, outcome = .error e ∧ list' = list := by
  obtain ⟨lists, -, h⟩ := Routine.yields_bind.1 h
  cases lists with
  | ok lists =>
    cases h
    exact .inl ⟨lists, rfl, rfl⟩
  | error e =>
    cases h
    exact .inr ⟨e, rfl, rfl⟩

theorem actsLike_self (annots : List Annot) : ActsLike annots annots := by
  intro R task task' intent list w w' hR h hw
  obtain ⟨outcome, annots', list', u, u', hfirst, hsecond, -⟩ := appendAll_beside hR h hw intent list
  exact ⟨outcome, annots', list', u, u', hfirst, hsecond⟩

/-- If they are at their start, annotations are appended all or not at all, whatever others do meanwhile. They are at
their start again afterwards, and a later call comes to what it would have come to if this one had not been made. -/
theorem appendAll_all_or_nothing (h : ∀ a ∈ annots, a.AtStart) (task : TaskId) (intent : Intent) (p : Producer) :
    (∃ outcome left p', appendAll annots task intent p = (outcome, left, p') ∧
      AllOrNothing annots task intent p outcome p' ∧ (∀ a ∈ left, a.AtStart) ∧ ActsLike left annots) ∧
      ∀ outcome list', (Routine.appendAll annots task intent p.list).Yields (outcome, list') →
        (∃ lists, outcome = .ok () ∧ list' = p.list.closing lists) ∨ ∃ e, outcome = .error e ∧ list' = p.list := by
  obtain ⟨outcome, p', happend, hall⟩ := appendAll_cases h task intent p
  exact ⟨⟨outcome, annots, p', happend, hall, h, actsLike_self annots⟩, fun _ _ ↦ list_of_yields⟩

def disturbed : List Annot :=
  [{ rect := .unit, flags := ⟨0⟩,
     appearance := some { content := { steps := [fun p ↦ ({ p with list := p.list.addDependency "font" }, .done)] } } },
   { rect := .unit, flags := ⟨0⟩,
     appearance := some { content := { steps := [
       fun p ↦ (⟨p.list.add .save [], p.worker.terminate ⟨0⟩⟩, .more),
       fun p ↦ ({ p with list := p.list.add .restore [] }, .done)] } } }]

def busy : Worker := { tasks := #[{ name := "first" }, { name := "second" }] }

theorem disturbed_atStart : ∀ a ∈ disturbed, a.AtStart := by
  intro a ha look hlook
  simp only [disturbed, List.mem_cons, List.not_mem_nil, or_false] at ha
  obtain rfl | rfl := ha
  · cases hlook
    rfl
  · cases hlook
    rfl

theorem disturbed_overlooks : ∀ a ∈ disturbed, a.Overlooks fun u u' ↦
    u.isTaskTerminated ⟨1⟩ = false ∧ u'.isTaskTerminated ⟨1⟩ = false := by
  have hterminate (w : Worker) : (w.terminate ⟨0⟩).isTaskTerminated ⟨1⟩ = w.isTaskTerminated ⟨1⟩ := by
    simp [Worker.isTaskTerminated, Worker.terminate, Worker.modify, Worker.task?, Array.getElem?_modify]
  intro a ha look hlook step hstep list w w' hw
  simp only [disturbed, List.mem_cons, List.not_mem_nil, or_false] at ha
  obtain rfl | rfl := ha
  · cases hlook
    obtain rfl := List.mem_singleton.1 hstep
    exact ⟨_, _, w, w', rfl, rfl, hw⟩
  · cases hlook
    simp only [List.mem_cons, List.not_mem_nil, or_false] at hstep
    obtain rfl | rfl := hstep
    · exact ⟨_, _, _, _, rfl, rfl, (hterminate w).trans hw.1, (hterminate w').trans hw.2⟩
    · exact ⟨_, _, w, w', rfl, rfl, hw⟩

theorem appendAll_all_or_nothing_disturbed :
    (∀ a ∈ disturbed, a.AtStart) ∧ ∃ e left p', appendAll disturbed ⟨0⟩ .display ⟨.empty, busy⟩ = (.error e, left, p') ∧
      p'.list = .empty ∧ ∃ annots list' u u',
        appendAll left ⟨1⟩ .display ⟨.empty, p'.worker⟩ = (.ok (), annots, ⟨list', u⟩) ∧
          appendAll disturbed ⟨1⟩ .display ⟨.empty, busy⟩ = (.ok (), annots, ⟨list', u'⟩) := by
  obtain ⟨⟨outcome, left, p', happend, hall, -, hlater⟩, -⟩ :=
    appendAll_all_or_nothing disturbed_atStart ⟨0⟩ .display ⟨.empty, busy⟩
  have houtcome : outcome = .error (.terminated "first") := (congrArg Prod.fst happend).symm.trans rfl
  have hworker : p'.worker.isTaskTerminated ⟨1⟩ = false := by
    rw [show p'.worker = _ from (congrArg (·.2.2.worker) happend).symm]
    rfl
  have hchecks : ChecksAlike (fun u u' ↦ u.isTaskTerminated ⟨1⟩ = false ∧ u'.isTaskTerminated ⟨1⟩ = false) ⟨1⟩ ⟨1⟩ := by
    intro u u' hu
    rw [Worker.checkTask_of_not_terminated hu.1, Worker.checkTask_of_not_terminated hu.2]
  obtain ⟨later, annots, list', u, u', hleft, hfirst⟩ :=
    hlater _ ⟨1⟩ ⟨1⟩ .display .empty p'.worker busy hchecks disturbed_overlooks ⟨hworker, rfl⟩
  have hok : later = .ok () := (congrArg Prod.fst hfirst).symm.trans rfl
  subst houtcome hok
  exact ⟨disturbed_atStart, _, left, p', happend, (hall.nothing _ rfl).2, annots, list', u, u', hleft, hfirst⟩

end Annot

end DisplayList
