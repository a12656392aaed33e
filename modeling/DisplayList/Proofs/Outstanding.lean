import DisplayList.Proofs.Shutdown
import Mathlib.Data.Finset.Dedup
import Mathlib.Data.Finset.Card

namespace DisplayList

open Crew

namespace Crew

deriving instance DecidableEq for Event

def Event.started? : Event → Option TaskId
  | .started t => some t
  | _ => none

def outstanding (es : List Event) (w : Worker) : Finset TaskId :=
  {t ∈ (es.filterMap Event.started?).toFinset | w.isTaskFinished t = false}

/-- The starts after which the task was not forgotten, each by its task. -/
def standing : List Event → List TaskId
  | [] => []
  | .started t :: es => if .forgotten t ∈ es then standing es else t :: standing es
  | _ :: es => standing es

def Event.register (ts : List TaskId) : Event → List TaskId
  | .started t => ts ++ [t]
  | .forgotten t => ts.filter (· ≠ t)
  | _ => ts

variable {es : List Event} {e : Event} {c d : Crew} {t : TaskId} {parties : Nat}

theorem mem_outstanding {w : Worker} : t ∈ outstanding es w ↔ .started t ∈ es ∧ w.isTaskFinished t = false := by
  have hstarted (e : Event) : e.started? = some t ↔ e = .started t := by cases e <;> simp [Event.started?]
  simp [outstanding, hstarted]

theorem started_of_mem_standing (ht : t ∈ standing es) : .started t ∈ es := by
  induction es with
  | nil => cases ht
  | cons e es ih =>
    cases e with
    | started s =>
      rw [standing] at ht
      split at ht
      · exact List.mem_cons_of_mem _ (ih ht)
      · rcases List.mem_cons.mp ht with rfl | ht
        · exact List.mem_cons_self
        · exact List.mem_cons_of_mem _ (ih ht)
    | _ => exact List.mem_cons_of_mem _ (ih ht)

theorem standing_concat (es : List Event) (e : Event) : standing (es ++ [e]) = e.register (standing es) := by
  induction es with
  | nil => cases e <;> rfl
  | cons e' es ih =>
    cases e' with
    | started t =>
      rw [List.cons_append, standing, standing, ih]
      by_cases hf : .forgotten t ∈ es
      · rw [if_pos hf, if_pos (List.mem_append_left _ hf)]
      · rw [if_neg hf]
        cases e with
        | forgotten s => by_cases hs : t = s <;> simp [Event.register, hf, hs]
        | _ => simp [Event.register, hf]
    | _ => exact ih

theorem Move.running_eq (m : Move c e d) : d.worker.running = e.register c.worker.running := by
  cases m with
  | start _ h =>
    obtain ⟨-, rfl⟩ := Worker.start_eq_ok h
    rfl
  | _ => rfl

theorem Run.running_eq (r : Run (fresh parties) es c) : c.worker.running = standing es := by
  induction r with
  | refl => rfl
  | tail _ m ih => rw [m.running_eq, ih, standing_concat]

theorem Run.outstanding_eq (r : Run (fresh parties) es c) :
    outstanding es c.worker = ((standing es).filter (c.worker.isTaskFinished · = false)).toFinset := by
  ext t
  rw [mem_outstanding, List.mem_toFinset, List.mem_filter, decide_eq_true_iff]
  refine and_congr_left fun hfin ↦ ⟨fun ht ↦ ?_, started_of_mem_standing⟩
  rw [← r.running_eq]
  apply (((safe_fresh parties).run r).started ht).resolve_right
  rw [hfin]
  exact Bool.false_ne_true

section Distinct

variable {p : TaskId → Bool} {ts : List TaskId}

theorem card_filter_le_length : (ts.filter p).toFinset.card ≤ ts.length :=
  (List.toFinset_card_le _).trans (List.length_filter_le p ts)

theorem length_eq_card_filter : ts.length = (ts.filter p).toFinset.card ↔ ts.Nodup ∧ ∀ t ∈ ts, p t := by
  refine ⟨fun h ↦ ?_, fun ⟨hd, hp⟩ ↦ ?_⟩
  · have hfilter : (ts.filter p).length = ts.length :=
      (List.length_filter_le p ts).antisymm (h.le.trans (List.toFinset_card_le _))
    have hp := List.length_filter_eq_length_iff.mp hfilter
    rw [List.filter_eq_self.mpr hp, List.card_toFinset] at h
    exact ⟨List.dedup_eq_self.mp ((List.dedup_sublist ts).eq_of_length h.symm), hp⟩
  · rw [List.filter_eq_self.mpr hp, List.toFinset_card_of_nodup hd]

end Distinct

/-- How the count of a worker compares to the tasks that are outstanding. -/
structure Counts (es : List Event) (w : Worker) : Prop where
  counted : w.activeCount = (standing es).length
  card_le : (outstanding es w).card ≤ w.activeCount
  exact_iff : w.activeCount = (outstanding es w).card ↔
    (standing es).Nodup ∧ ∀ t ∈ standing es, w.isTaskFinished t = false

theorem Run.counts (r : Run (fresh parties) es c) : Counts es c.worker := by
  have hcount : c.worker.activeCount = (standing es).length := congrArg List.length r.running_eq
  refine ⟨hcount, ?_, ?_⟩ <;> rw [hcount, r.outstanding_eq]
  · exact card_filter_le_length
  · rw [length_eq_card_filter]
    simp only [decide_eq_true_iff]

theorem Run.one (m : Move c e d) : Run c [e] d := Run.refl.tail m

theorem Run.onward (r : Run c es d) : c.worker.Onward d.worker := by
  induction r with
  | refl => exact .refl _
  | tail _ m ih => exact ih.trans m.onward

end Crew

/-- A worker, and handles to its tasks. Several of them may be to one task. -/
structure Desk where
  worker : Worker := {}
  handles : List TaskId := []

inductive Request where
  | make (name : String)
  | clone (handle : Nat)
  | start (handle : Nat)
  | startNew (name : String)
  | finish (handle : Nat)
  /-- The task is finished, and the worker is not told. -/
  | markFinished (handle : Nat)
  | terminate (handle : Nat)
  | cancelAll

namespace Desk

/-- What comes of a request, and what happens meanwhile. A handle that there is not is ignored. -/
def serve (d : Desk) : Request → Desk × List Event
  | .make name => (⟨(d.worker.make name).2, d.handles ++ [(d.worker.make name).1]⟩, [.made (d.worker.make name).1])
  | .clone h => withHandle h fun t ↦ ({ d with handles := d.handles ++ [t] }, [])
  | .start h => withHandle h fun t ↦
    match d.worker.start t with
    | .error _ => (d, [.refused t])
    | .ok w => ({ d with worker := w }, [.started t])
  | .startNew name =>
    match d.worker.startNew name with
    | .error _ => (d, [.refused (d.worker.make name).1])
    | .ok (t, w) => (⟨w, d.handles ++ [t]⟩, [.made t, .started t])
  | .finish h => withHandle h fun t ↦ ({ d with worker := d.worker.finish t }, [.finished t, .forgotten t])
  | .markFinished h => withHandle h fun t ↦ ({ d with worker := d.worker.markFinished t }, [.finished t])
  | .terminate h => withHandle h fun t ↦ ({ d with worker := d.worker.terminate t }, [.terminated t])
  | .cancelAll =>
    ({ d with worker := d.worker.cancelAll.2 }, [.closed] ++ d.worker.running.map .terminated ++ [.cancelled])
where
  withHandle (h : Nat) (f : TaskId → Desk × List Event) : Desk × List Event := (d.handles[h]?).elim (d, []) f

def serveAll (rs : List Request) : Desk × List Event :=
  rs.foldl (fun (d, es) r ↦ ((d.serve r).1, es ++ (d.serve r).2)) ({}, [])

variable {d : Desk}

def crew (d : Desk) : Crew := ⟨d.worker, [.idle]⟩

def Sound (d : Desk) : Prop := ∀ t ∈ d.handles, t.index < d.worker.tasks.size

structure Goes (d : Desk) (x : Desk × List Event) : Prop where
  run : Crew.Run d.crew x.2 x.1.crew
  handles : ∀ t ∈ x.1.handles, t ∈ d.handles ∨ t.index < x.1.worker.tasks.size

theorem Goes.sound {x : Desk × List Event} (hx : d.Goes x) (h : d.Sound) : x.1.Sound := by
  intro t ht
  rcases hx.handles t ht with ht | ht
  · exact hx.run.onward.made (h t ht)
  · exact ht

theorem goes_withHandle {h : Nat} {f : TaskId → Desk × List Event} (hf : ∀ t ∈ d.handles, d.Goes (f t)) :
    d.Goes (serve.withHandle d h f) := by
  rw [serve.withHandle]
  cases ht : d.handles[h]? with
  | none => exact ⟨.refl, fun t ↦ .inl⟩
  | some t => exact hf t (List.mem_of_getElem? ht)

theorem goes_serve (h : d.Sound) (r : Request) : d.Goes (d.serve r) := by
  have hnew {w : Worker} {t : TaskId} (ht : t ∈ d.handles ∨ t.index < w.tasks.size) :
      ∀ s ∈ d.handles ++ [t], s ∈ d.handles ∨ s.index < w.tasks.size := by
    intro s hs
    rcases List.mem_append.mp hs with hs | hs
    · exact .inl hs
    · obtain rfl := List.mem_singleton.mp hs
      exact ht
  have hmade {name : String} : (d.worker.make name).1.index < (d.worker.make name).2.tasks.size := by
    simp [Worker.make]
  cases r with
  | make name => exact ⟨.one (.make name), hnew (.inr hmade)⟩
  | clone => exact goes_withHandle fun t ht ↦ ⟨.refl, hnew (.inl ht)⟩
  | start =>
    refine goes_withHandle fun t ht ↦ ?_
    cases hs : d.worker.start t with
    | error e => exact ⟨.one (.refuse hs), fun t ↦ .inl⟩
    | ok w => exact ⟨.one (.start (h t ht) hs), fun t ↦ .inl⟩
  | startNew name =>
    rw [serve]
    cases hs : d.worker.startNew name with
    | error e =>
      have hs : d.worker.start (d.worker.make name).1 = .error e := by
        cases hw : d.worker.isTerminated <;>
          simp_all [Worker.startNew, Worker.start, Worker.check, Worker.make, bind, Except.bind]
      exact ⟨.one (.refuse hs), fun t ↦ .inl⟩
    | ok x =>
      obtain ⟨w, hstart, hx⟩ := bind_eq_ok hs
      cases hx
      exact ⟨(Crew.Run.one (.make name)).tail (.start hmade hstart),
        hnew (.inr ((Worker.onward_start hstart).made hmade))⟩
  | finish => exact goes_withHandle fun t ht ↦ ⟨@run_finish t d.worker [] [] (h t ht), fun t ↦ .inl⟩
  | markFinished => exact goes_withHandle fun t _ ↦ ⟨.one (.markFinished t), fun t ↦ .inl⟩
  | terminate => exact goes_withHandle fun t _ ↦ ⟨.one (.terminate t), fun t ↦ .inl⟩
  | cancelAll => exact ⟨@run_cancelAll d.worker [] [], fun t ↦ .inl⟩

theorem goes_serveAll (rs : List Request) :
    Crew.Run (fresh 1) (serveAll rs).2 (serveAll rs).1.crew ∧ (serveAll rs).1.Sound := by
  induction rs using List.reverseRecOn with
  | nil =>
    refine ⟨.refl, fun t ht ↦ ?_⟩
    cases ht
  | append_singleton rs r ih =>
    obtain ⟨hrun, hsound⟩ := ih
    have hgoes := goes_serve hsound r
    rw [serveAll, List.foldl_concat]
    exact ⟨hrun.trans hgoes.run, hgoes.sound hsound⟩

/-- What a worker counts once some requests were served. -/
theorem counts_served (rs : List Request) : Counts (serveAll rs).2 (serveAll rs).1.worker :=
  (goes_serveAll rs).1.counts

example : (serveAll [.startNew "page", .clone 0, .start 1]).1.worker.activeCount = 2 ∧
    (serveAll [.startNew "page", .clone 0, .start 1, .finish 1]).1.worker.activeCount = 0 := by decide

/-- A task that is finished without the worker being told still counts. -/
theorem counts_finished : ¬ ∀ rs : List Request,
    (serveAll rs).1.worker.activeCount = (outstanding (serveAll rs).2 (serveAll rs).1.worker).card := by
  intro h
  have h := h [.startNew "page", .markFinished 0]
  revert h
  decide

end Desk

end DisplayList
