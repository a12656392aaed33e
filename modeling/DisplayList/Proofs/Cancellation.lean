import DisplayList.Proofs.Outcome

namespace DisplayList

/-- Some steps are taken, and in the last of them the task is terminated. That one leaves `q` and says `v`. -/
inductive Content.Interrupted (task : TaskId) : List Step → Producer → Producer → Verdict → Prop
  | now {step : Step} {steps : List Step} {p q : Producer} {v : Verdict}
    (before : p.worker.isTaskTerminated task = false) (taken : step p = (q, v))
    (after : q.worker.isTaskTerminated task) : Interrupted task (step :: steps) p q v
  | later {step : Step} {steps : List Step} {p p' q : Producer} {v : Verdict}
    (before : p.worker.isTaskTerminated task = false) (taken : step p = (p', .more))
    (rest : Interrupted task steps p' q v) : Interrupted task (step :: steps) p q v

inductive Annot.Interrupted (task : TaskId) (intent : Intent) :
    List Annot → Worker → Worker → Verdict → List Annot → Prop
  | now {a : Annot} {rest : List Annot} {look : Appearance} {w : Worker} {q : Producer} {v : Verdict}
    (rendered : a.isRenderedFor intent) (drawn : a.appearance = some look)
    (interrupted : Content.Interrupted task (look.content.steps.drop look.content.taken)
      ⟨Builder.empty.add .beginAnnot [.rect a.rect, .matrix (fit a.rect look.bbox look.matrix), .matrix look.matrix], w⟩
      q v) : Interrupted task intent (a :: rest) w q.worker v rest
  | later {a a' : Annot} {annots rest : List Annot} {w w' w'' : Worker} {list : Builder} {v : Verdict}
    (rendered : a.isRenderedFor intent) (evaluated : a.evaluate task w = (.ok list, a', w'))
    (others : Interrupted task intent annots w' w'' v rest) : Interrupted task intent (a :: annots) w w'' v rest
  | skip {a : Annot} {annots rest : List Annot} {w w' : Worker} {v : Verdict} (rendered : ¬ a.isRenderedFor intent)
    (others : Interrupted task intent annots w w' v rest) : Interrupted task intent (a :: annots) w w' v rest

/-- A page is drawn up to a step in which its task is terminated. Then its list is `list`, the step says `v`, and the
annotations that were not looked at are `rest`. -/
inductive Page.Interrupted (p : Page) (task : TaskId) (intent : Intent) (r : Producer) :
    Builder → Verdict → List Annot → Prop
  | content {q : Producer} {v : Verdict}
    (interrupted : Content.Interrupted task (p.content.steps.drop p.content.taken) r q v) :
    Interrupted p task intent r q.list v p.annots
  | annots {content : Content} {q : Producer} {w : Worker} {v : Verdict} {rest : List Annot}
    (drawn : p.content.evaluate task r = (.ok (), content, q))
    (interrupted : Annot.Interrupted task intent p.annots q.worker w v rest) :
    Interrupted p task intent r q.list v rest

def Annot.NoneLeft (intent : Intent) (v : Verdict) (rest : List Annot) : Prop :=
  v = .done ∧ ∀ a ∈ rest, a.isRenderedFor intent → a.appearance = none

def Builder.closing (b : Builder) (lists : List Builder) : Builder :=
  (lists.foldl append (b.add .beginAnnots [])).add .endAnnots []

def Ends {α β γ : Type} (P : Prop) (r : Except RenderError α × β × γ) (c : γ) : Prop :=
  (P ∧ ∃ a b, r = (.ok a, b, c)) ∨ ¬ P ∧ ∃ e b, r = (.error e, b, c)

theorem Ends.congr {α β γ : Type} {P Q : Prop} {r : Except RenderError α × β × γ} {c : γ} (h : Ends P r c)
    (hPQ : P ↔ Q) : Ends Q r c := by
  rwa [Ends, ← hPQ]

section

variable {task : TaskId} {intent : Intent} {w w' w'' : Worker} {p q : Producer} {v : Verdict} {P Q : Prop}

theorem Worker.checkTask_of_terminated (h : w.isTaskTerminated task) :
    w.checkTask task = .error (.terminated (w.name task)) := by
  rw [checkTask, if_pos h]

theorem Worker.checkTask_of_not_terminated (h : w.isTaskTerminated task = false) : w.checkTask task = .ok () := by
  rw [checkTask, h]
  rfl

theorem Content.Interrupted.terminated {steps : List Step} (h : Interrupted task steps p q v) :
    q.worker.isTaskTerminated task := by
  induction h with
  | now _ _ after => exact after
  | later _ _ _ ih => exact ih

theorem Content.Interrupted.takeSteps_eq {steps : List Step} (h : Interrupted task steps p q v) (n : Nat) :
    (takeSteps task steps n p).producer = q ∧
      ((v = .done ∧ (takeSteps task steps n p).outcome = .ok ()) ∨
        v ≠ .done ∧ ∃ e, (takeSteps task steps n p).outcome = .error e) := by
  induction h generalizing n with
  | @now step steps p q v before taken after =>
    have hc := Worker.checkTask_of_not_terminated before
    cases v with
    | more =>
      rw [takeSteps_more hc taken, takeSteps_stopped (Worker.checkTask_of_terminated after)]
      exact ⟨rfl, .inr ⟨nofun, _, rfl⟩⟩
    | done =>
      rw [takeSteps_done hc taken]
      exact ⟨rfl, .inl ⟨rfl, rfl⟩⟩
    | failed e =>
      rw [takeSteps_failed hc taken]
      exact ⟨rfl, .inr ⟨nofun, e, rfl⟩⟩
  | later before taken _ ih =>
    rw [takeSteps_more (Worker.checkTask_of_not_terminated before) taken]
    exact ih (n + 1)

theorem Content.Interrupted.evaluate_ends {c : Content} (h : Interrupted task (c.steps.drop c.taken) p q v) :
    Ends (v = .done) (c.evaluate task p) q := by
  obtain ⟨hproducer, houtcome⟩ := h.takeSteps_eq c.taken
  rw [evaluate]
  rw [hproducer]
  obtain ⟨hv, houtcome⟩ | ⟨hv, e, houtcome⟩ := houtcome
  · rw [houtcome]
    exact .inl ⟨hv, (), _, rfl⟩
  · rw [houtcome]
    exact .inr ⟨hv, e, _, rfl⟩

namespace Annot

variable {a : Annot} {annots rest : List Annot}

theorem evaluate_ends {look : Appearance} (drawn : a.appearance = some look)
    (h : Ends P (look.content.evaluate task ⟨Builder.empty.add .beginAnnot
      [.rect a.rect, .matrix (fit a.rect look.bbox look.matrix), .matrix look.matrix], w⟩) q) :
    Ends P (a.evaluate task w) q.worker := by
  rw [evaluate, drawn]
  dsimp only
  obtain ⟨hP, u, c, he⟩ | ⟨hP, e, c, he⟩ := h
  · rw [he]
    exact .inl ⟨hP, _, _, rfl⟩
  · rw [he]
    exact .inr ⟨hP, e, _, rfl⟩

theorem evaluateAll_rendered_ends (hrendered : a.isRenderedFor intent) (ha : Ends P (a.evaluate task w) w')
    (hannots : Ends Q (evaluateAll task intent annots w') w'') (hw : ¬ P → w' = w'') :
    Ends (P ∧ Q) (evaluateAll task intent (a :: annots) w) w'' := by
  rw [evaluateAll, if_pos hrendered]
  obtain ⟨hP, list, a', ha⟩ | ⟨hP, e, a', ha⟩ := ha
  · rw [ha]
    dsimp only
    obtain ⟨hQ, lists, annots', hannots⟩ | ⟨hQ, e, annots', hannots⟩ := hannots
    · rw [hannots]
      exact .inl ⟨⟨hP, hQ⟩, _, _, rfl⟩
    · rw [hannots]
      exact .inr ⟨fun h ↦ hQ h.2, e, _, rfl⟩
  · rw [ha]
    exact .inr ⟨fun h ↦ hP h.1, e, _, by rw [hw hP]⟩

theorem evaluateAll_skipped_ends (hrendered : ¬ a.isRenderedFor intent)
    (hannots : Ends Q (evaluateAll task intent annots w) w') :
    Ends Q (evaluateAll task intent (a :: annots) w) w' := by
  rw [evaluateAll, if_neg hrendered]
  obtain ⟨hQ, lists, annots', hannots⟩ | ⟨hQ, e, annots', hannots⟩ := hannots
  · rw [hannots]
    exact .inl ⟨hQ, lists, _, rfl⟩
  · rw [hannots]
    exact .inr ⟨hQ, e, _, rfl⟩

theorem evaluate_of_terminated (h : w.isTaskTerminated task) (a : Annot) :
    Ends (a.appearance = none) (a.evaluate task w) w := by
  cases ha : a.appearance with
  | none =>
    rw [evaluate, ha]
    exact .inl ⟨rfl, .empty, a, rfl⟩
  | some look =>
    rw [evaluate, ha]
    dsimp only
    rw [Content.evaluate, Content.takeSteps_stopped (Worker.checkTask_of_terminated h)]
    exact .inr ⟨Option.some_ne_none look, _, _, rfl⟩

theorem evaluateAll_of_terminated (h : w.isTaskTerminated task) (intent : Intent) (annots : List Annot) :
    Ends (∀ a ∈ annots, a.isRenderedFor intent → a.appearance = none) (evaluateAll task intent annots w) w := by
  induction annots with
  | nil => exact .inl ⟨List.forall_mem_nil _, [], [], rfl⟩
  | cons a annots ih =>
    by_cases hrendered : a.isRenderedFor intent
    · apply (evaluateAll_rendered_ends hrendered (evaluate_of_terminated h a) ih fun _ ↦ rfl).congr
      simp [hrendered]
    · apply (evaluateAll_skipped_ends hrendered ih).congr
      simp [hrendered]

theorem Interrupted.evaluateAll_ends (h : Interrupted task intent annots w w' v rest) :
    w'.isTaskTerminated task ∧ Ends (NoneLeft intent v rest) (evaluateAll task intent annots w) w' := by
  induction h with
  | @now a rest look w q v rendered drawn interrupted =>
    have hw := interrupted.terminated
    have hlook := evaluate_ends drawn interrupted.evaluate_ends
    exact ⟨hw, evaluateAll_rendered_ends rendered hlook (evaluateAll_of_terminated hw intent rest) fun _ ↦ rfl⟩
  | later rendered evaluated _ ih =>
    obtain ⟨hw, hothers⟩ := ih
    have ha : Ends True _ _ := .inl ⟨trivial, _, _, evaluated⟩
    refine ⟨hw, (evaluateAll_rendered_ends rendered ha hothers fun h ↦ absurd trivial h).congr ?_⟩
    rw [true_and]
  | skip rendered _ ih =>
    obtain ⟨hw, hothers⟩ := ih
    exact ⟨hw, evaluateAll_skipped_ends rendered hothers⟩

end Annot

theorem Content.exists_interrupted {steps : List Step} {n : Nat} (h₀ : p.worker.isTaskTerminated task = false)
    (h : (takeSteps task steps n p).producer.worker.isTaskTerminated task) :
    ∃ q v, Interrupted task steps p q v := by
  have hc := Worker.checkTask_of_not_terminated h₀
  induction steps generalizing n p with
  | nil =>
    rw [takeSteps_nil hc, h₀] at h
    cases h
  | cons step steps ih =>
    cases hs : step p with
    | mk q v =>
      cases hq : q.worker.isTaskTerminated task with
      | true => exact ⟨q, v, .now h₀ hs hq⟩
      | false =>
        cases v with
        | more =>
          rw [takeSteps_more hc hs] at h
          obtain ⟨q', v, hrest⟩ := ih hq h (Worker.checkTask_of_not_terminated hq)
          exact ⟨q', v, .later h₀ hs hrest⟩
        | done =>
          rw [takeSteps_done hc hs, hq] at h
          cases h
        | failed e =>
          rw [takeSteps_failed hc hs, hq] at h
          cases h

namespace Annot

theorem exists_interrupted_content {a : Annot} (h₀ : w.isTaskTerminated task = false)
    (h : (a.evaluate task w).2.2.isTaskTerminated task) :
    ∃ look q v, a.appearance = some look ∧ Content.Interrupted task (look.content.steps.drop look.content.taken)
      ⟨Builder.empty.add .beginAnnot
        [.rect a.rect, .matrix (fit a.rect look.bbox look.matrix), .matrix look.matrix], w⟩ q v := by
  rw [evaluate] at h
  split at h
  · rw [h₀] at h
    cases h
  · rename_i look hlook
    obtain ⟨q, v, hinterrupted⟩ := Content.exists_interrupted h₀ h
    exact ⟨look, q, v, hlook, hinterrupted⟩

theorem exists_interrupted {annots : List Annot} (h₀ : w.isTaskTerminated task = false)
    (h : (evaluateAll task intent annots w).2.2.isTaskTerminated task) :
    ∃ w' v rest, Interrupted task intent annots w w' v rest := by
  induction annots generalizing w with
  | nil =>
    rw [evaluateAll, h₀] at h
    cases h
  | cons a annots ih =>
    rw [evaluateAll] at h
    by_cases hrendered : a.isRenderedFor intent
    · rw [if_pos hrendered] at h
      cases hw : (a.evaluate task w).2.2.isTaskTerminated task with
      | true =>
        obtain ⟨look, q, v, hlook, hinterrupted⟩ := exists_interrupted_content h₀ hw
        exact ⟨q.worker, v, annots, .now hrendered hlook hinterrupted⟩
      | false =>
        split at h
        · rename_i list a' w' ha
          rw [ha] at hw
          obtain ⟨w'', v, rest, hrest⟩ := ih hw h
          exact ⟨w'', v, rest, .later hrendered ha hrest⟩
        · rename_i e a' w' ha
          rw [ha] at hw
          cases hw.symm.trans h
    · rw [if_neg hrendered] at h
      obtain ⟨w', v, rest, hrest⟩ := ih h₀ h
      exact ⟨w', v, rest, .skip hrendered hrest⟩

theorem worker_appendAll (annots : List Annot) (task : TaskId) (intent : Intent) (p : Producer) :
    (appendAll annots task intent p).2.2.worker = (evaluateAll task intent annots p.worker).2.2 := by
  rw [appendAll]
  split
  · rename_i he
    rw [he]
  · rename_i he
    rw [he]

end Annot

end

namespace Page

variable {p : Page} {task : TaskId} {intent : Intent} {r q : Producer} {list : Builder} {v : Verdict}
  {rest : List Annot}

def LeftBehind (intent : Intent) (v : Verdict) (rest : List Annot) (list left : Builder) : Prop :=
  (Annot.NoneLeft intent v rest ∧ ∃ lists, left = list.closing lists) ∨ ¬ Annot.NoneLeft intent v rest ∧ left = list

theorem draw_of_terminated {content : Content} {w : Worker} (hc : p.content.evaluate task r = (.ok (), content, q))
    (hw : w.isTaskTerminated task)
    (he : Ends (Annot.NoneLeft intent v rest) (Annot.evaluateAll task intent p.annots q.worker) w) :
    ∃ e p' r', p.draw task intent r = (.error e, p', r') ∧ LeftBehind intent v rest q.list r'.list := by
  rw [draw, hc]
  dsimp only
  rw [Annot.appendAll]
  obtain ⟨hleft, lists, annots, he⟩ | ⟨hnot, e, annots, he⟩ := he
  · rw [he]
    dsimp only
    rw [Worker.checkTask_of_terminated hw]
    exact ⟨_, _, _, rfl, .inl ⟨hleft, lists, rfl⟩⟩
  · rw [he]
    exact ⟨e, _, _, rfl, .inr ⟨hnot, rfl⟩⟩

theorem Interrupted.draw_eq (h : p.Interrupted task intent r list v rest) :
    ∃ e p' r', p.draw task intent r = (.error e, p', r') ∧ LeftBehind intent v rest list r'.list := by
  cases h with
  | @content q v interrupted =>
    have hw := interrupted.terminated
    obtain ⟨hdone, u, content, hc⟩ | ⟨hv, e, content, hc⟩ := interrupted.evaluate_ends
    · apply draw_of_terminated hc hw ((Annot.evaluateAll_of_terminated hw intent p.annots).congr _)
      exact ⟨fun hall ↦ ⟨hdone, hall⟩, fun hleft ↦ hleft.2⟩
    · rw [draw, hc]
      exact ⟨e, _, q, rfl, .inr ⟨fun hleft ↦ hv hleft.1, rfl⟩⟩
  | annots drawn interrupted =>
    obtain ⟨hw, he⟩ := interrupted.evaluateAll_ends
    exact draw_of_terminated drawn hw he

theorem worker_draw {content : Content} (hc : p.content.evaluate task r = (.ok (), content, q)) :
    (p.draw task intent r).2.2.worker = (Annot.evaluateAll task intent p.annots q.worker).2.2 := by
  rw [← Annot.worker_appendAll, draw, hc]
  dsimp only
  split
  · rename_i he
    rw [he]
  · rename_i he
    rw [he]
    split <;> rfl

theorem exists_interrupted (h₀ : r.worker.isTaskTerminated task = false)
    (h : (p.draw task intent r).2.2.worker.isTaskTerminated task) :
    ∃ list v rest, p.Interrupted task intent r list v rest := by
  cases hq : (p.content.evaluate task r).2.2.worker.isTaskTerminated task with
  | true =>
    obtain ⟨q, v, hinterrupted⟩ := Content.exists_interrupted h₀ hq
    exact ⟨q.list, v, p.annots, .content hinterrupted⟩
  | false =>
    cases hc : p.content.evaluate task r with
    | mk outcome rest =>
      obtain ⟨content, q⟩ := rest
      rw [hc] at hq
      cases outcome with
      | error e =>
        rw [draw, hc] at h
        cases hq.symm.trans h
      | ok u =>
        rw [worker_draw hc] at h
        obtain ⟨w, v, rest, hinterrupted⟩ := Annot.exists_interrupted hq h
        exact ⟨q.list, v, rest, .annots hc hinterrupted⟩

/-- A page whose task is terminated in a step fails, and nothing is appended or delivered after that step, unless the
step says that its content is done and nothing that is left needs another. -/
theorem render_interrupted {sink : Sink} {o : RenderOptions} {w w' : Worker} (hv : o.limits.violation? = none)
    (hs : w.startNew p.taskName = .ok (task, w'))
    (h : p.Interrupted task o.intent ⟨.create (p.listOptions o) (some sink), w'⟩ list v rest) :
    (∃ e, (p.render sink o w).outcome = .error e) ∧
      ∃ left, (p.draw task o.intent ⟨.create (p.listOptions o) (some sink), w'⟩).2.2.list = left ∧
        (p.render sink o w).sink = left.sink.getD sink ∧ LeftBehind o.intent v rest list left := by
  obtain ⟨e, p', r', hdraw, hleft⟩ := h.draw_eq
  rw [render, hs]
  dsimp only
  rw [produce, hv]
  dsimp only
  rw [hdraw]
  exact ⟨⟨e, rfl⟩, r'.list, rfl, rfl, hleft⟩

def drawing : Worker := { tasks := #[{ name := interrupted.taskName }], running := [⟨0⟩] }

theorem render_interrupted_midway : ({} : Limits).violation? = none ∧
    Worker.startNew {} interrupted.taskName = .ok (⟨0⟩, drawing) ∧
    ∃ list, interrupted.Interrupted ⟨0⟩ .oplist
        ⟨.create (interrupted.listOptions ⟨.oplist, ⟨2, 0⟩, {}⟩) (some (.record [])), drawing⟩ list .more
        interrupted.annots ∧
      (interrupted.render (.record []) ⟨.oplist, ⟨2, 0⟩, {}⟩ {}).sink = list.sink.getD (.record []) ∧
      list.sink.map (·.recorded.length) = some 1 := by
  have h : interrupted.Interrupted ⟨0⟩ .oplist
      ⟨.create (interrupted.listOptions ⟨.oplist, ⟨2, 0⟩, {}⟩) (some (.record [])), drawing⟩ _ .more
      interrupted.annots := .content (.later rfl rfl (.now rfl rfl rfl))
  obtain ⟨-, left, -, hsink, hleft⟩ := render_interrupted (o := ⟨.oplist, ⟨2, 0⟩, {}⟩) (w := {}) (by decide) rfl h
  obtain ⟨⟨hdone, -⟩, -⟩ | ⟨-, rfl⟩ := hleft
  · cases hdone
  · exact ⟨by decide, rfl, _, h, hsink, rfl⟩

/-- A page that calls off all tasks in the step that says that its content is done. -/
def exhausted : Page where
  index := 0
  content := { steps := [fun r ↦ (⟨r.list.add .save [], r.worker.cancelAll.2⟩, .done)] }

/-- After that step, in which one chunk was delivered, the markers around the annotations are delivered as two more. -/
theorem not_render_interrupted : ¬ ∀ (p : Page) (sink : Sink) (o : RenderOptions) (w w' : Worker) (task : TaskId)
    (list : Builder) (v : Verdict) (rest : List Annot), o.limits.violation? = none → p.IsProper →
    w.startNew p.taskName = .ok (task, w') →
    p.Interrupted task o.intent ⟨.create (p.listOptions o) (some sink), w'⟩ list v rest →
    (p.draw task o.intent ⟨.create (p.listOptions o) (some sink), w'⟩).2.2.list = list ∧
      (p.render sink o w).sink = list.sink.getD sink ∧ ∃ e, (p.render sink o w).outcome = .error e := by
  intro h
  have hproper : exhausted.IsProper := by
    refine ⟨fun step hstep r ↦ ?_, nofun⟩
    obtain rfl := List.mem_singleton.1 hstep
    exact ⟨.add .refl _ _, .single rfl⟩
  have hsink := (h exhausted (.record []) ⟨.oplist, ⟨1, 0⟩, {}⟩ {} _ _ _ _ _ (by decide) hproper rfl
    (.content (.now rfl rfl rfl))).2.1
  have hlength : 3 = 1 := congrArg (·.recorded.length) hsink
  omega

end Page

end DisplayList
