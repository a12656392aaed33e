import DisplayList.Routine
import DisplayList.Proofs.Outcome
import DisplayList.Proofs.PageStream

namespace DisplayList.Routine

variable {α β : Type} {task : TaskId} {w : Worker}

@[simp]
theorem run_pure (a : α) (w : Worker) : (pure a : Routine α).run w = (a, w) := rfl

@[simp]
theorem run_move (f : Worker → α × Worker) (w : Worker) : (move f).run w = f w := rfl

@[simp]
theorem run_bind (x : Routine α) (f : α → Routine β) (w : Worker) :
    (x >>= f).run w = (f (x.run w).1).run (x.run w).2 := by
  induction x generalizing w with
  | done a => rfl
  | act effect next ih => exact ih w (effect w)

theorem run_callOff (w : Worker) : callOff.run w = ((), w.cancelAll.2) := by
  have hforM (l : List TaskId) (w : Worker) :
      (l.forM fun task ↦ edit (·.terminate task)).run w = ((), l.foldl Worker.terminate w) := by
    induction l generalizing w with
    | nil => rfl
    | cons task l ih => exact ih _
  exact hforM _ _

theorem run_takeSteps (steps : List Step) (list : Builder) (n : Nat) (w : Worker) :
    (takeSteps task steps list).run w =
      (((Content.takeSteps task steps n ⟨list, w⟩).outcome, (Content.takeSteps task steps n ⟨list, w⟩).producer.list),
        (Content.takeSteps task steps n ⟨list, w⟩).producer.worker) := by
  induction steps generalizing list n w with
  | nil =>
    cases hc : w.checkTask task with
    | error e => simp [takeSteps, check, hc, Content.takeSteps_stopped (p := ⟨list, w⟩) hc]
    | ok u => simp [takeSteps, check, hc, Content.takeSteps_nil (p := ⟨list, w⟩) hc]
  | cons step rest ih =>
    cases hc : w.checkTask task with
    | error e => simp [takeSteps, check, hc, Content.takeSteps_stopped (p := ⟨list, w⟩) hc]
    | ok u =>
      cases hs : step ⟨list, w⟩ with
      | mk p v =>
        cases v with
        | more =>
          simp [takeSteps, check, take, hc, hs, Content.takeSteps_more (p := ⟨list, w⟩) hc hs, ih p.list (n + 1)]
        | done => simp [takeSteps, check, take, hc, hs, Content.takeSteps_done (p := ⟨list, w⟩) hc hs]
        | failed e => simp [takeSteps, check, take, hc, hs, Content.takeSteps_failed (p := ⟨list, w⟩) hc hs]

theorem run_evaluate (c : Content) (list : Builder) (w : Worker) : (evaluate c task list).run w =
    (((c.evaluate task ⟨list, w⟩).1, (c.evaluate task ⟨list, w⟩).2.2.list), (c.evaluate task ⟨list, w⟩).2.2.worker) :=
  run_takeSteps _ list c.taken w

theorem run_evaluateAnnot (a : Annot) (w : Worker) :
    (evaluateAnnot a task).run w = ((a.evaluate task w).1, (a.evaluate task w).2.2) := by
  cases ha : a.appearance with
  | none => simp [evaluateAnnot, Annot.evaluate, ha]
  | some look => simp [evaluateAnnot, Annot.evaluate, ha, run_evaluate]

theorem run_evaluateAll (intent : Intent) (annots : List Annot) (w : Worker) :
    (evaluateAll task intent annots).run w =
      ((Annot.evaluateAll task intent annots w).1, (Annot.evaluateAll task intent annots w).2.2) := by
  induction annots generalizing w with
  | nil => rfl
  | cons a rest ih =>
    rw [evaluateAll, Annot.evaluateAll]
    split
    · rw [run_bind, run_evaluateAnnot]
      obtain ⟨outcome, a', w'⟩ := a.evaluate task w
      cases outcome with
      | error e => rfl
      | ok list => simp [ih]
    · exact ih w

theorem run_appendAll (annots : List Annot) (intent : Intent) (list : Builder) (w : Worker) :
    (appendAll annots task intent list).run w =
      (((Annot.appendAll annots task intent ⟨list, w⟩).1, (Annot.appendAll annots task intent ⟨list, w⟩).2.2.list),
        (Annot.appendAll annots task intent ⟨list, w⟩).2.2.worker) := by
  rw [appendAll, Annot.appendAll, run_bind, run_evaluateAll]
  obtain ⟨outcome, annots', w'⟩ := Annot.evaluateAll task intent annots w
  cases outcome with
  | error e => rfl
  | ok lists => rfl

theorem run_draw (p : Page) (intent : Intent) (list : Builder) (w : Worker) : (draw p task intent list).run w =
    (((p.draw task intent ⟨list, w⟩).1, (p.draw task intent ⟨list, w⟩).2.2.list),
      (p.draw task intent ⟨list, w⟩).2.2.worker) := by
  rw [draw, Page.draw, run_bind, run_evaluate]
  obtain ⟨outcome, content, r⟩ := p.content.evaluate task ⟨list, w⟩
  cases outcome with
  | error e => rfl
  | ok u =>
    dsimp only
    rw [run_bind, run_appendAll]
    obtain ⟨outcome, annots, r⟩ := Annot.appendAll p.annots task intent ⟨r.list, r.worker⟩
    cases outcome with
    | error e => rfl
    | ok u =>
      dsimp only
      rw [run_bind, check, run_move]
      cases r.worker.checkTask task with
      | error e => rfl
      | ok u => cases r.list.flush true <;> rfl

theorem run_produce (p : Page) (sink : Sink) (o : RenderOptions) (w : Worker) : (produce p task sink o).run w =
    (((p.produce task sink o w).outcome, (p.produce task sink o w).sink), (p.produce task sink o w).worker) := by
  rw [produce, Page.produce]
  cases o.limits.violation? with
  | some v => rfl
  | none =>
    dsimp only
    rw [run_bind, run_draw]
    rfl

theorem run_render (p : Page) (sink : Sink) (o : RenderOptions) (w : Worker) : (render p sink o).run w =
    (((p.render sink o w).outcome, (p.render sink o w).sink), (p.render sink o w).worker) := by
  rw [render, Page.render, run_bind, start, run_move]
  cases w.startNew p.taskName with
  | error e => rfl
  | ok started =>
    dsimp only
    rw [run_bind, run_produce]
    rfl

theorem run_arrival (p : Page) (s : PageStream) :
    (arrival p s.options).run s.worker = ((s.render p).1, (s.render p).2.worker) := by
  rw [arrival, run_bind, run_render]
  rfl

/-- The routine may come to `b`, whatever others do to the worker between its moves. -/
def Yields : Routine α → α → Prop
  | done a, b => a = b
  | act _ next, b => ∃ w, (next w).Yields b

@[simp]
theorem yields_pure (a b : α) : (pure a : Routine α).Yields b ↔ a = b := Iff.rfl

@[simp]
theorem yields_bind {x : Routine α} {f : α → Routine β} {b : β} :
    (x >>= f).Yields b ↔ ∃ a, x.Yields a ∧ (f a).Yields b := by
  induction x with
  | done a => simp [Yields, bind, Bind.bind]
  | act effect next ih =>
    constructor
    · rintro ⟨w, h⟩
      obtain ⟨a, ha, hb⟩ := (ih w).1 h
      exact ⟨a, ⟨w, ha⟩, hb⟩
    · rintro ⟨a, ⟨w, ha⟩, hb⟩
      exact ⟨w, (ih w).2 ⟨a, ha, hb⟩⟩

section

variable {task' : TaskId} {list list' : Builder} (ht : w.checkTask task' = .ok ())
include ht

theorem run_takeSteps_of_yields {steps : List Step} (h : ∀ step ∈ steps, step.KeepsToList)
    (hy : (takeSteps task steps list).Yields (.ok (), list')) :
    (takeSteps task' steps list).run w = ((.ok (), list'), w) := by
  induction steps generalizing list with
  | nil =>
    rw [takeSteps, yields_bind] at hy
    obtain ⟨c, -, hc⟩ := hy
    cases hc
    simp [takeSteps, check, ht]
  | cons step rest ih =>
    obtain ⟨f, hf⟩ := h step List.mem_cons_self
    rw [takeSteps, yields_bind] at hy
    obtain ⟨c, -, hy⟩ := hy
    cases c with
    | error e => cases hy
    | ok u =>
      obtain ⟨taken, ⟨w', rfl⟩, hy⟩ := yields_bind.1 hy
      simp only [hf] at hy
      simp only [takeSteps, check, take, run_bind, run_move, ht, hf]
      cases hv : (f list).2 with
      | more =>
        rw [hv] at hy
        exact ih (fun step hs ↦ h step (List.mem_cons_of_mem _ hs)) hy
      | done =>
        rw [hv] at hy
        cases hy
        rfl
      | failed e =>
        rw [hv] at hy
        cases hy

theorem run_evaluate_of_yields {c : Content} (h : c.KeepsToList)
    (hy : (evaluate c task list).Yields (.ok (), list')) : (evaluate c task' list).run w = ((.ok (), list'), w) :=
  run_takeSteps_of_yields ht (fun step hs ↦ h step (List.mem_of_mem_drop hs)) hy

theorem run_evaluateAnnot_of_yields {a : Annot} (h : a.KeepsToList)
    (hy : (evaluateAnnot a task).Yields (.ok list)) : (evaluateAnnot a task').run w = (.ok list, w) := by
  cases ha : a.appearance with
  | none =>
    simp only [evaluateAnnot, ha, yields_pure] at hy ⊢
    rw [hy, run_pure]
  | some look =>
    simp only [evaluateAnnot, ha, yields_bind, yields_pure] at hy
    obtain ⟨⟨outcome, drawn⟩, hy, houtcome⟩ := hy
    cases outcome with
    | error e => cases houtcome
    | ok u =>
      cases houtcome
      simp only [evaluateAnnot, ha]
      rw [run_bind, run_evaluate_of_yields ht (h look ha) hy]
      rfl

theorem run_evaluateAll_of_yields {intent : Intent} {annots : List Annot} {lists : List Builder}
    (h : ∀ a ∈ annots, a.KeepsToList) (hy : (evaluateAll task intent annots).Yields (.ok lists)) :
    (evaluateAll task' intent annots).run w = (.ok lists, w) := by
  induction annots generalizing lists with
  | nil =>
    cases hy
    rfl
  | cons a rest ih =>
    have hrest (b : Annot) (hb : b ∈ rest) : b.KeepsToList := h b (List.mem_cons_of_mem a hb)
    rw [evaluateAll] at hy ⊢
    split at hy
    · rename_i hrendered
      rw [if_pos hrendered]
      obtain ⟨first, hfirst, hy⟩ := yields_bind.1 hy
      cases first with
      | error e => cases hy
      | ok list =>
        obtain ⟨others, hothers, hy⟩ := yields_bind.1 hy
        cases others with
        | error e => cases hy
        | ok others =>
          cases hy
          rw [run_bind, run_evaluateAnnot_of_yields ht (h a List.mem_cons_self) hfirst]
          dsimp only
          rw [run_bind, ih hrest hothers]
          rfl
    · rename_i hrendered
      rw [if_neg hrendered]
      exact ih hrest hy

theorem run_appendAll_of_yields {intent : Intent} {annots : List Annot} (h : ∀ a ∈ annots, a.KeepsToList)
    (hy : (appendAll annots task intent list).Yields (.ok (), list')) :
    (appendAll annots task' intent list).run w = ((.ok (), list'), w) := by
  obtain ⟨lists, hlists, hy⟩ := yields_bind.1 hy
  cases lists with
  | error e => cases hy
  | ok lists =>
    cases hy
    rw [appendAll, run_bind, run_evaluateAll_of_yields ht h hlists]
    rfl

theorem run_draw_of_yields {p : Page} {intent : Intent} (h : p.KeepsToList)
    (hy : (draw p task intent list).Yields (.ok (), list')) :
    (draw p task' intent list).run w = ((.ok (), list'), w) := by
  obtain ⟨⟨outcome, list₁⟩, hcontent, hy⟩ := yields_bind.1 hy
  cases outcome with
  | error e => cases hy
  | ok u =>
    obtain ⟨⟨outcome, list₂⟩, hannots, hy⟩ := yields_bind.1 hy
    cases outcome with
    | error e => cases hy
    | ok u =>
      obtain ⟨c, -, hy⟩ := yields_bind.1 hy
      rw [draw, run_bind, run_evaluate_of_yields ht h.1 hcontent]
      dsimp only
      rw [run_bind, run_appendAll_of_yields ht h.2 hannots]
      dsimp only at hy ⊢
      rw [run_bind, check, run_move, ht]
      cases c with
      | error e => cases hy
      | ok u =>
        cases hf : list₂.flush true with
        | error e =>
          rw [hf] at hy
          cases hy
        | ok list₃ =>
          rw [hf] at hy
          cases hy
          rfl

theorem run_produce_of_yields {p : Page} {sink sink' : Sink} {o : RenderOptions} {n : Nat} (h : p.KeepsToList)
    (hy : (produce p task sink o).Yields (.ok n, sink')) :
    (produce p task' sink o).run w = ((.ok n, sink'), w) := by
  rw [produce] at hy ⊢
  cases hv : o.limits.violation? with
  | some v =>
    rw [hv] at hy
    cases hy
  | none =>
    rw [hv] at hy
    obtain ⟨⟨outcome, list⟩, hdraw, hy⟩ := yields_bind.1 hy
    cases outcome with
    | error e => cases hy
    | ok u =>
      cases hy
      dsimp only
      rw [run_bind, run_draw_of_yields ht h hdraw]
      rfl

end

/-- A page that keeps to its list and succeeds succeeds alone as well, and delivers the same. -/
theorem render_of_yields {p : Page} {sink sink' : Sink} {o : RenderOptions} {n : Nat} (h : p.KeepsToList)
    (hw : w.isTerminated = false) (hy : (render p sink o).Yields (.ok n, sink')) :
    (p.render sink o w).outcome = .ok n ∧ (p.render sink o w).sink = sink' := by
  obtain ⟨started, -, hy⟩ := yields_bind.1 hy
  cases started with
  | error e => cases hy
  | ok task =>
    obtain ⟨r, hr, hy⟩ := yields_bind.1 hy
    obtain ⟨-, -, hy⟩ := yields_bind.1 hy
    cases hy
    obtain ⟨task', w', hs, -, ht⟩ := Worker.startNew_ok hw p.taskName
    have hproduce := run_produce_of_yields ht h hr
    rw [run_produce, Prod.mk.injEq, Prod.mk.injEq] at hproduce
    rw [Page.render, hs]
    exact hproduce.1

theorem arrival_of_yields {p : Page} {o : RenderOptions} {a : Arrival} (hy : (arrival p o).Yields a) :
    a.index = p.index ∧ (p.KeepsToList → ∀ ir, a.result = .ok ir → (p.arrival o).result = .ok ir) := by
  obtain ⟨⟨outcome, sink⟩, hr, hy⟩ := yields_bind.1 hy
  cases hy
  refine ⟨rfl, fun h ir hir ↦ ?_⟩
  cases outcome with
  | error e => cases hir
  | ok n =>
    obtain ⟨houtcome, hsink⟩ := render_of_yields h (w := {}) rfl hr
    rw [Page.arrival, Rendering.result, houtcome, hsink]
    exact hir

end DisplayList.Routine
