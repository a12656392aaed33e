import DisplayList.Worker

/-!
Those who share a worker, move by move.

Anybody may make a task, start it, terminate it, or say that it is finished. To have the worker forget a task, to call
off all tasks, or to wait for all of them takes a party several moves, between which the others go on. At any time
anybody who can move may be the next to.
-/

namespace DisplayList

/-- What a party is in the middle of. -/
inductive Duty where
  | idle
  /-- The task is finished, and the worker has not forgotten it yet. -/
  | finishing (t : TaskId)
  /-- The worker was closed when `outstanding` were registered, of which those `left` are not terminated yet. -/
  | cancelling (outstanding left : List TaskId) (waits : Bool)
  | waiting (left : List TaskId)

structure Crew where
  worker : Worker := {}
  duties : List Duty

namespace Crew

inductive Event where
  | made (t : TaskId)
  | started (t : TaskId)
  | refused (t : TaskId)
  | terminated (t : TaskId)
  | finished (t : TaskId)
  | forgotten (t : TaskId)
  | closed
  | cancelled
  | awaited (t : TaskId)
  | shutDown

inductive Move : Crew → Event → Crew → Prop
  | make {w : Worker} {duties : List Duty} (name : String) :
    Move ⟨w, duties⟩ (.made (w.make name).1) ⟨(w.make name).2, duties⟩
  | start {w w' : Worker} {duties : List Duty} {t : TaskId} (made : t.index < w.tasks.size) (h : w.start t = .ok w') :
    Move ⟨w, duties⟩ (.started t) ⟨w', duties⟩
  | refuse {w : Worker} {duties : List Duty} {t : TaskId} {e : RenderError} (h : w.start t = .error e) :
    Move ⟨w, duties⟩ (.refused t) ⟨w, duties⟩
  | terminate {w : Worker} {duties : List Duty} (t : TaskId) :
    Move ⟨w, duties⟩ (.terminated t) ⟨w.terminate t, duties⟩
  | markFinished {w : Worker} {duties : List Duty} (t : TaskId) :
    Move ⟨w, duties⟩ (.finished t) ⟨w.markFinished t, duties⟩
  | finish {w : Worker} {before after : List Duty} {t : TaskId} (made : t.index < w.tasks.size) :
    Move ⟨w, before ++ .idle :: after⟩ (.finished t) ⟨w.markFinished t, before ++ .finishing t :: after⟩
  | forget {w : Worker} {before after : List Duty} {t : TaskId} :
    Move ⟨w, before ++ .finishing t :: after⟩ (.forgotten t) ⟨w.forget t, before ++ .idle :: after⟩
  | close {w : Worker} {before after : List Duty} (waits : Bool) :
    Move ⟨w, before ++ .idle :: after⟩ .closed
      ⟨w.close.2, before ++ .cancelling w.close.1 w.close.1 waits :: after⟩
  | terminateNext {w : Worker} {before after : List Duty} {outstanding left : List TaskId} {t : TaskId}
    {waits : Bool} : Move ⟨w, before ++ .cancelling outstanding (t :: left) waits :: after⟩ (.terminated t)
      ⟨w.terminate t, before ++ .cancelling outstanding left waits :: after⟩
  | cancel {w : Worker} {before after : List Duty} {outstanding : List TaskId} :
    Move ⟨w, before ++ .cancelling outstanding [] false :: after⟩ .cancelled ⟨w, before ++ .idle :: after⟩
  | cancelAndWait {w : Worker} {before after : List Duty} {outstanding : List TaskId} :
    Move ⟨w, before ++ .cancelling outstanding [] true :: after⟩ .cancelled
      ⟨w, before ++ .waiting outstanding :: after⟩
  | await {w : Worker} {before after : List Duty} {left : List TaskId} {t : TaskId} (h : w.isTaskFinished t) :
    Move ⟨w, before ++ .waiting (t :: left) :: after⟩ (.awaited t) ⟨w, before ++ .waiting left :: after⟩
  | shutDown {w : Worker} {before after : List Duty} :
    Move ⟨w, before ++ .waiting [] :: after⟩ .shutDown ⟨w, before ++ .idle :: after⟩

inductive Run (c : Crew) : List Event → Crew → Prop
  | refl : Run c [] c
  | tail {es : List Event} {e : Event} {d d' : Crew} (h : Run c es d) (move : Move d e d') : Run c (es ++ [e]) d'

end Crew

end DisplayList
