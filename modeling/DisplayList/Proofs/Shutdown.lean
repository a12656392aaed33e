import DisplayList.Crew
import DisplayList.Proofs.Checked
import DisplayList.Proofs.Worker

namespace DisplayList

open Crew

section Accounts

variable {es : List Event} {e : Event} {P Q : TaskId → Prop}

def Crew.Accounts (es : List Event) (P : TaskId → Prop) : Prop :=
  ∀ before t after, es = before ++ .started t :: after → P t ∨ .forgotten t ∈ after

theorem Crew.Accounts.snoc (h : Accounts es P) (hP : ∀ t, P t → Q t ∨ e = .forgotten t)
    (he : ∀ t, e = .started t → Q t) : Accounts (es ++ [e]) Q := by
  intro before t after heq
  obtain ⟨-, hx, -⟩ | ⟨after', hes, rfl⟩ := append_cons_eq_concat heq
  · exact .inl (he t hx)
  · rw [List.mem_append]
    rcases h before t after' hes with ht | ht
    · rcases hP t ht with hq | rfl
      · exact .inl hq
      · exact .inr (.inr List.mem_cons_self)
    · exact .inr (.inl ht)

theorem Crew.Accounts.of_mem (h : Accounts es P) {t : TaskId} (ht : .started t ∈ es) : P t ∨ .forgotten t ∈ es := by
  obtain ⟨before, after, rfl⟩ := List.append_of_mem ht
  refine (h before t after rfl).imp_right fun hf ↦ ?_
  exact List.mem_append_right _ (List.mem_cons_of_mem _ hf)

end Accounts

def Duty.Holds (es : List Event) (w : Worker) : Duty → Prop
  | .idle => True
  | .finishing t => w.isTaskFinished t
  | .cancelling outstanding left _ => w.isTerminated ∧ Accounts es (· ∈ outstanding) ∧
      ∀ t ∈ outstanding, t.index < w.tasks.size ∧ (t ∈ left ∨ w.isTaskTerminated t)
  | .waiting left => w.isTerminated ∧ ∀ t, .started t ∈ es → t ∈ left ∨ w.isTaskFinished t

theorem Duty.Holds.snoc {x : Duty} {es : List Event} {e : Event} {w w' : Worker} (h : x.Holds es w) (hw : w.Onward w')
    (he : w.isTerminated → ∀ t, e ≠ .started t) : x.Holds (es ++ [e]) w' := by
  cases x with
  | idle => trivial
  | finishing t => exact hw.finished h
  | cancelling outstanding left waits =>
    obtain ⟨hc, hes, ht⟩ := h
    refine ⟨hw.closed hc, hes.snoc (fun _ ↦ .inl) fun t hstart ↦ absurd hstart (he hc t), fun t hmem ↦ ?_⟩
    obtain ⟨hmade, hleft⟩ := ht t hmem
    exact ⟨hw.made hmade, hleft.imp_right hw.terminated⟩
  | waiting left =>
    obtain ⟨hc, ht⟩ := h
    refine ⟨hw.closed hc, fun t hmem ↦ ?_⟩
    rcases List.mem_append.mp hmem with hmem | hmem
    · exact (ht t hmem).imp_right hw.finished
    · exact absurd (List.mem_singleton.mp hmem).symm (he hc t)

namespace Crew

variable {es : List Event} {e : Event} {c d : Crew} {t : TaskId}

section Moves

theorem Move.onward (m : Move c e d) : c.worker.Onward d.worker := by
  cases m with
  | make name => exact Worker.onward_make _ name
  | start _ h => exact Worker.onward_start h
  | terminate t => exact Worker.onward_terminate _ t
  | markFinished t => exact Worker.onward_markFinished _ t
  | finish => exact Worker.onward_markFinished _ _
  | forget => exact Worker.onward_forget _ _
  | close => exact Worker.onward_close _
  | terminateNext => exact Worker.onward_terminate _ _
  | refuse | cancel | cancelAndWait | await | shutDown => exact .refl _

theorem Move.kept (m : Move c e d) (ht : t ∈ c.worker.running) : t ∈ d.worker.running ∨ e = .forgotten t := by
  cases m with
  | start _ h =>
    obtain ⟨-, rfl⟩ := Worker.start_eq_ok h
    exact .inl (List.mem_append_left _ ht)
  | @forget w _ _ s =>
    by_cases hs : t = s
    · exact .inr (by rw [hs])
    · exact .inl (List.mem_filter.mpr ⟨ht, decide_eq_true hs⟩)
  | _ => exact .inl ht

theorem Move.registers (m : Move c (.started t) d) : c.worker.isTerminated = false ∧ t ∈ d.worker.running := by
  cases m with
  | start _ h =>
    obtain ⟨hw, rfl⟩ := Worker.start_eq_ok h
    exact ⟨hw, List.mem_append_right _ List.mem_cons_self⟩

theorem Move.forgets (m : Move c (.forgotten t) d) : .finishing t ∈ c.duties := by
  cases m with
  | forget => exact List.mem_append_cons_self

theorem Move.closes (m : Move c .closed d) : d.worker.isTerminated := by
  cases m with
  | close => rfl

theorem Move.sound (m : Move c e d) (h : c.worker.Sound) : d.worker.Sound := by
  have hold : ∀ t ∈ c.worker.running, t.index < d.worker.tasks.size := fun t ht ↦ m.onward.made (h t ht)
  cases m with
  | start made hs =>
    obtain ⟨-, rfl⟩ := Worker.start_eq_ok hs
    intro t ht
    rcases List.mem_append.mp ht with ht | ht
    · exact hold t ht
    · obtain rfl := List.mem_singleton.mp ht
      exact made
  | forget => exact fun t ht ↦ hold t (List.mem_filter.mp ht).1
  | _ => exact hold

end Moves

structure Safe (es : List Event) (c : Crew) : Prop where
  sound : c.worker.Sound
  registered : Accounts es (· ∈ c.worker.running)
  finished : ∀ t, .forgotten t ∈ es → c.worker.isTaskFinished t
  closed : .closed ∈ es → c.worker.isTerminated
  refused : ∀ before t after, es = before ++ .closed :: after → .started t ∉ after
  duties : ∀ x ∈ c.duties, x.Holds es c.worker

theorem Safe.started (h : Safe es c) (ht : .started t ∈ es) : t ∈ c.worker.running ∨ c.worker.isTaskFinished t :=
  (h.registered.of_mem ht).imp_right (h.finished t)

theorem mem_or_of_mem_put {before after : List Duty} {x y : Duty} {P : Duty → Prop} (hy : P y) :
    ∀ z ∈ before ++ y :: after, z ∈ before ++ x :: after ∨ P z := by
  intro z hz
  rcases List.mem_append.mp hz with hz | hz
  · exact .inl (List.mem_append_left _ hz)
  · rcases List.mem_cons.mp hz with rfl | hz
    · exact .inr hy
    · exact .inl (List.mem_append_right _ (List.mem_cons_of_mem _ hz))

theorem Safe.next_duty (h : Safe es c) (m : Move c e d) :
    ∀ x ∈ d.duties, x ∈ c.duties ∨ x.Holds (es ++ [e]) d.worker := by
  cases m with
  | make | start | refuse | terminate | markFinished => exact fun x hx ↦ .inl hx
  | finish made => exact mem_or_of_mem_put (Worker.isTaskFinished_markFinished made)
  | forget | cancel | shutDown => exact mem_or_of_mem_put trivial
  | close waits =>
    refine mem_or_of_mem_put ⟨rfl, h.registered.snoc (fun _ ↦ .inl) (by simp), fun t ht ↦ ?_⟩
    exact ⟨h.sound t ht, .inl ht⟩
  | terminateNext =>
    obtain ⟨hc, hes, hleft⟩ := h.duties _ List.mem_append_cons_self
    refine mem_or_of_mem_put ⟨hc, hes.snoc (fun _ ↦ .inl) (by simp), fun t ht ↦ ?_⟩
    obtain ⟨hmade, hl | hterm⟩ := hleft t ht
    · rcases List.mem_cons.mp hl with rfl | hl
      · exact ⟨(Worker.onward_terminate _ _).made hmade, .inr (Worker.isTaskTerminated_terminate hmade)⟩
      · exact ⟨(Worker.onward_terminate _ _).made hmade, .inl hl⟩
    · exact ⟨(Worker.onward_terminate _ _).made hmade, .inr ((Worker.onward_terminate _ _).terminated hterm)⟩
  | cancelAndWait =>
    obtain ⟨hc, hes, -⟩ := h.duties _ List.mem_append_cons_self
    refine mem_or_of_mem_put ⟨hc, fun t ht ↦ ?_⟩
    have ht : .started t ∈ es := by simpa using ht
    exact (hes.of_mem ht).imp_right (h.finished t)
  | await hfin =>
    obtain ⟨hc, hleft⟩ := h.duties _ List.mem_append_cons_self
    refine mem_or_of_mem_put ⟨hc, fun t ht ↦ ?_⟩
    have ht : .started t ∈ es := by simpa using ht
    rcases hleft t ht with hl | hl
    · rcases List.mem_cons.mp hl with rfl | hl
      · exact .inr hfin
      · exact .inl hl
    · exact .inr hl

theorem Safe.move (h : Safe es c) (m : Move c e d) : Safe (es ++ [e]) d := by
  have hstart (hc : c.worker.isTerminated) (t : TaskId) : e ≠ .started t := by
    rintro rfl
    rw [m.registers.1] at hc
    cases hc
  refine ⟨m.sound h.sound, h.registered.snoc (fun _ ↦ m.kept) ?_, fun t ht ↦ ?_, fun hc ↦ ?_, ?_, fun x hx ↦ ?_⟩
  · rintro t rfl
    exact m.registers.2
  · rcases List.mem_append.mp ht with ht | ht
    · exact m.onward.finished (h.finished t ht)
    · obtain rfl := List.mem_singleton.mp ht
      exact m.onward.finished (h.duties _ m.forgets)
  · rcases List.mem_append.mp hc with hc | hc
    · exact m.onward.closed (h.closed hc)
    · obtain rfl := List.mem_singleton.mp hc
      exact m.closes
  · intro before t after heq
    obtain ⟨-, -, rfl⟩ | ⟨after', rfl, rfl⟩ := append_cons_eq_concat heq
    · exact List.not_mem_nil
    · rw [List.mem_append, List.mem_singleton, not_or]
      have hc : c.worker.isTerminated := h.closed (List.mem_append_right _ List.mem_cons_self)
      exact ⟨h.refused before t after' rfl, fun he ↦ hstart hc t he.symm⟩
  · rcases h.next_duty m x hx with hx | hx
    · exact (h.duties x hx).snoc m.onward hstart
    · exact hx

def fresh (parties : Nat) : Crew := { duties := .replicate parties .idle }

theorem safe_fresh (parties : Nat) : Safe [] (fresh parties) := by
  refine ⟨?_, fun before t after h ↦ ?_, fun t ht ↦ ?_, fun h ↦ ?_, fun before t after h ↦ ?_, fun x hx ↦ ?_⟩
  · intro t ht
    cases ht
  · simp at h
  · cases ht
  · cases h
  · simp at h
  · obtain ⟨-, rfl⟩ := List.mem_replicate.mp hx
    trivial

theorem Safe.run {c d : Crew} {es : List Event} (h : Safe [] c) (r : Run c es d) : Safe es d := by
  induction r with
  | refl => exact h
  | tail _ m ih => exact ih.move m

theorem Run.last (r : Run c (es ++ [e]) d) : ∃ c', Run c es c' ∧ Move c' e d := by
  generalize hes : es ++ [e] = es' at r
  cases r with
  | refl => simp at hes
  | tail r m =>
    obtain ⟨rfl, he⟩ := List.append_inj' hes rfl
    obtain rfl := List.singleton_inj.mp he
    exact ⟨_, r, m⟩

theorem Safe.cancelled (h : Safe es c) (m : Move c .cancelled d) : Accounts es (d.worker.isTaskTerminated ·) := by
  have hall {outstanding : List TaskId} {waits : Bool} (hd : .cancelling outstanding [] waits ∈ c.duties) :
      Accounts es (c.worker.isTaskTerminated ·) := by
    obtain ⟨-, hes, ht⟩ := h.duties _ hd
    intro before t after heq
    exact (hes before t after heq).imp_left fun hmem ↦ (ht t hmem).2.resolve_left List.not_mem_nil
  cases m with
  | cancel | cancelAndWait => exact hall List.mem_append_cons_self

theorem Safe.shutDown (h : Safe es c) (m : Move c .shutDown d) (ht : .started t ∈ es) :
    d.worker.isTaskFinished t := by
  cases m with
  | shutDown =>
    obtain ⟨-, hleft⟩ := h.duties _ List.mem_append_cons_self
    exact (hleft t ht).resolve_left List.not_mem_nil

section Lone

variable {w : Worker} {before after : List Duty}

theorem Run.trans {d' : Crew} {es' : List Event} (r : Run c es d) (r' : Run d es' d') : Run c (es ++ es') d' := by
  induction r' with
  | refl => rwa [List.append_nil]
  | tail _ m ih =>
    rw [← List.append_assoc]
    exact ih.tail m

theorem run_terminateAll (outstanding left : List TaskId) (waits : Bool) :
    Run ⟨w, before ++ .cancelling outstanding left waits :: after⟩ (left.map .terminated)
      ⟨left.foldl Worker.terminate w, before ++ .cancelling outstanding [] waits :: after⟩ := by
  induction left generalizing w with
  | nil => exact .refl
  | cons t left ih => exact (Run.refl.tail .terminateNext).trans ih

theorem run_finish (made : t.index < w.tasks.size) :
    Run ⟨w, before ++ .idle :: after⟩ [.finished t, .forgotten t] ⟨w.finish t, before ++ .idle :: after⟩ :=
  (Run.refl.tail (.finish made)).tail .forget

theorem run_cancelAll : Run ⟨w, before ++ .idle :: after⟩ ([.closed] ++ w.running.map .terminated ++ [.cancelled])
    ⟨w.cancelAll.2, before ++ .idle :: after⟩ :=
  ((Run.refl.tail (.close false)).trans (run_terminateAll w.running w.running false)).tail .cancel

end Lone

/-- What is certain after the given events. -/
structure NoneEscapes (es : List Event) (c : Crew) : Prop where
  /-- Whoever has called off all tasks, each that was ever started is terminated, or was forgotten since. -/
  cancelled : ∀ es', es = es' ++ [.cancelled] → ∀ before t after, es' = before ++ .started t :: after →
    c.worker.isTaskTerminated t ∨ .forgotten t ∈ after
  /-- Whoever has waited for all tasks, each that was ever started is finished. -/
  shutDown : ∀ es', es = es' ++ [.shutDown] → ∀ t, .started t ∈ es' → c.worker.isTaskFinished t
  refused : ∀ before t after, es = before ++ .closed :: after → .started t ∉ after

theorem no_task_escapes {parties : Nat} (r : Run (fresh parties) es c) : NoneEscapes es c := by
  refine ⟨?_, ?_, ((safe_fresh parties).run r).refused⟩
  · rintro es' rfl
    obtain ⟨c', r', m⟩ := r.last
    exact ((safe_fresh parties).run r').cancelled m
  · rintro es' rfl t ht
    obtain ⟨c', r', m⟩ := r.last
    exact ((safe_fresh parties).run r').shutDown m ht

def contested : List Event :=
  [.made ⟨0⟩, .made ⟨1⟩, .started ⟨0⟩, .started ⟨1⟩, .started ⟨0⟩, .finished ⟨1⟩, .closed, .terminated ⟨0⟩,
    .forgotten ⟨1⟩, .refused ⟨1⟩, .terminated ⟨1⟩, .terminated ⟨0⟩, .cancelled]

def awaited : List Event := [.finished ⟨0⟩, .awaited ⟨0⟩, .awaited ⟨1⟩, .awaited ⟨0⟩, .shutDown]

theorem no_task_escapes_contested : ∃ c d, Run (fresh 2) contested c ∧ NoneEscapes contested c ∧
    Run (fresh 2) (contested ++ awaited) d ∧ NoneEscapes (contested ++ awaited) d := by
  have h₀ := (Run.refl (c := fresh 2)).tail (.make "first") |>.tail (.make "second")
  have h₁ := h₀.tail (.start (t := ⟨0⟩) (by decide) rfl) |>.tail (.start (t := ⟨1⟩) (by decide) rfl) |>.tail
    (.start (t := ⟨0⟩) (by decide) rfl)
  have h₂ := h₁.tail (@Move.finish _ [.idle] [] ⟨1⟩ (by decide)) |>.tail (@Move.close _ [] [.finishing ⟨1⟩] true)
  have h₃ := h₂.tail (@Move.terminateNext _ [] [.finishing ⟨1⟩] _ _ _ _) |>.tail
    (@Move.forget _ [.cancelling _ _ true] [] ⟨1⟩) |>.tail (.refuse (t := ⟨1⟩) rfl)
  have h₄ := h₃.tail (@Move.terminateNext _ [] [.idle] _ _ _ _) |>.tail (@Move.terminateNext _ [] [.idle] _ _ _ _)
    |>.tail (@Move.cancelAndWait _ [] [.idle] _)
  have h₅ := h₄.tail (@Move.finish _ [.waiting _] [] ⟨0⟩ (by decide)) |>.tail
    (@Move.await _ [] [.finishing ⟨0⟩] _ _ (by decide)) |>.tail (@Move.await _ [] [.finishing ⟨0⟩] _ _ (by decide))
    |>.tail (@Move.await _ [] [.finishing ⟨0⟩] _ _ (by decide)) |>.tail (@Move.shutDown _ [] [.finishing ⟨0⟩])
  exact ⟨_, _, h₄, no_task_escapes h₄, h₅, no_task_escapes h₅⟩

end Crew

end DisplayList
