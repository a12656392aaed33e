import DisplayList.Worker
import Mathlib.Order.Nat

namespace DisplayList.Worker

variable {w w' w'' : Worker} {t s : TaskId} {f : Task → Task}

def Sound (w : Worker) : Prop := ∀ t ∈ w.running, t.index < w.tasks.size

/-- What holds of the tasks of a worker, and of the worker, holds of them later on. -/
structure Onward (w w' : Worker) : Prop where
  task : ∀ t task, w.task? t = some task → ∃ task', w'.task? t = some task' ∧
    (task.isTerminated → task'.isTerminated) ∧ (task.isFinished → task'.isFinished)
  closed : w.isTerminated → w'.isTerminated

theorem exists_task (h : t.index < w.tasks.size) : ∃ task, w.task? t = some task :=
  ⟨_, Array.getElem?_eq_getElem h⟩

theorem Onward.refl (w : Worker) : w.Onward w := ⟨fun _ task h ↦ ⟨task, h, id, id⟩, id⟩

theorem Onward.trans (h : w.Onward w') (h' : w'.Onward w'') : w.Onward w'' := by
  refine ⟨fun t task ht ↦ ?_, fun hc ↦ h'.closed (h.closed hc)⟩
  obtain ⟨task', ht', hterm, hfin⟩ := h.task t task ht
  obtain ⟨task'', ht'', hterm', hfin'⟩ := h'.task t task' ht'
  exact ⟨task'', ht'', hterm' ∘ hterm, hfin' ∘ hfin⟩

theorem Onward.made (h : w.Onward w') (ht : t.index < w.tasks.size) : t.index < w'.tasks.size := by
  obtain ⟨task, htask⟩ := exists_task ht
  obtain ⟨task', htask', -⟩ := h.task t task htask
  exact (Array.getElem?_eq_some_iff.mp htask').1

theorem Onward.terminated (h : w.Onward w') (ht : w.isTaskTerminated t) : w'.isTaskTerminated t := by
  obtain ⟨task, htask, hflag⟩ := (Option.any_eq_true _ _).mp ht
  obtain ⟨task', htask', hterm, -⟩ := h.task t task htask
  exact (Option.any_eq_true _ _).mpr ⟨task', htask', hterm hflag⟩

theorem Onward.finished (h : w.Onward w') (ht : w.isTaskFinished t) : w'.isTaskFinished t := by
  obtain ⟨task, htask, hflag⟩ := (Option.any_eq_true _ _).mp ht
  obtain ⟨task', htask', -, hfin⟩ := h.task t task htask
  exact (Option.any_eq_true _ _).mpr ⟨task', htask', hfin hflag⟩

theorem task?_modify (w : Worker) (t s : TaskId) (f : Task → Task) :
    (w.modify t f).task? s = if t = s then (w.task? s).map f else w.task? s := by
  rw [task?, modify, Array.getElem?_modify, task?]
  obtain ⟨i⟩ := t
  obtain ⟨j⟩ := s
  simp only [TaskId.mk.injEq]

theorem onward_modify (hterm : ∀ task, task.isTerminated → (f task).isTerminated)
    (hfin : ∀ task, task.isFinished → (f task).isFinished) : w.Onward (w.modify t f) := by
  refine ⟨fun s task hs ↦ ?_, id⟩
  rw [task?_modify, hs]
  split
  · exact ⟨f task, rfl, hterm task, hfin task⟩
  · exact ⟨task, rfl, id, id⟩

theorem onward_terminate (w : Worker) (t : TaskId) : w.Onward (w.terminate t) :=
  onward_modify (fun _ _ ↦ rfl) fun _ h ↦ h

theorem onward_markFinished (w : Worker) (t : TaskId) : w.Onward (w.markFinished t) :=
  onward_modify (fun _ h ↦ h) fun _ _ ↦ rfl

theorem isTaskTerminated_terminate (h : t.index < w.tasks.size) : (w.terminate t).isTaskTerminated t := by
  obtain ⟨task, ht⟩ := exists_task h
  rw [isTaskTerminated, terminate, task?_modify, if_pos rfl, ht]
  rfl

theorem isTaskFinished_markFinished (h : t.index < w.tasks.size) : (w.markFinished t).isTaskFinished t := by
  obtain ⟨task, ht⟩ := exists_task h
  rw [isTaskFinished, markFinished, task?_modify, if_pos rfl, ht]
  rfl

theorem onward_make (w : Worker) (name : String) : w.Onward (w.make name).2 := by
  refine ⟨fun s task hs ↦ ⟨task, ?_, id, id⟩, id⟩
  obtain ⟨hlt, rfl⟩ := Array.getElem?_eq_some_iff.mp hs
  rw [task?, make]
  dsimp only
  rw [Array.getElem?_push_lt hlt]

theorem start_eq_ok (h : w.start t = .ok w') :
    w.isTerminated = false ∧ w' = { w with running := w.running ++ [t] } := by
  unfold start check at h
  cases hw : w.isTerminated with
  | true =>
    rw [hw, if_pos rfl] at h
    cases h
  | false =>
    rw [hw] at h
    exact ⟨rfl, (Except.ok.inj h).symm⟩

theorem onward_start (h : w.start t = .ok w') : w.Onward w' := by
  obtain ⟨-, rfl⟩ := start_eq_ok h
  exact ⟨(Onward.refl w).task, id⟩

theorem onward_forget (w : Worker) (t : TaskId) : w.Onward (w.forget t) :=
  ⟨(Onward.refl w).task, id⟩

theorem onward_close (w : Worker) : w.Onward w.close.2 := ⟨(Onward.refl w).task, fun _ ↦ rfl⟩

end DisplayList.Worker
