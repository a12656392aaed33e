import DisplayList.Pool
import DisplayList.Routine

/-!
Those who render the pages of a stream, and others who use its worker.

Here a page is rendered move by move, and between two moves the other parties may have theirs. Whoever looks whether
rendering was called off may act on it when that is no longer true. Others may do to the worker what they like, such as
calling off all tasks. At any time anybody who can move may be the next to.
-/

namespace DisplayList

inductive Stage where
  | idle
  /-- Rendering was not called off when the party looked. -/
  | admitted
  /-- The page at the place `n` of the order is claimed, and `rest` is left to be done. -/
  | rendering (n : Nat) (rest : Routine Arrival)
  | rendered (n : Nat) (a : Arrival)
  /-- Rendering was not called off when the party looked again. -/
  | sending (n : Nat) (a : Arrival)
  | gone

inductive Stage.Move : PageStream → Stage → PageStream → Stage → List (Nat × Arrival) → Prop
  | enter {s : PageStream} (h : ¬ s.isCancelled) : Move s idle s admitted []
  | leave {s : PageStream} (h : s.isCancelled) : Move s idle s gone []
  | claim {s : PageStream} {page : Page} {rest : List Page} (h : s.unclaimed = page :: rest) :
    Move s admitted { s with unclaimed := rest }
      (rendering (s.order.length - s.unclaimed.length) (.arrival page s.options)) []
  | finish {s : PageStream} (h : s.unclaimed = []) : Move s admitted s gone []
  | act {s : PageStream} {n : Nat} {effect : Worker → Worker} {next : Worker → Routine Arrival} :
    Move s (rendering n (.act effect next)) { s with worker := effect s.worker } (rendering n (next s.worker)) []
  | complete {s : PageStream} {n : Nat} {a : Arrival} : Move s (rendering n (.done a)) s (rendered n a) [(n, a)]
  | goOn {s : PageStream} {n : Nat} {a : Arrival} (h : ¬ s.isCancelled) : Move s (rendered n a) s (sending n a) []
  | giveUp {s : PageStream} {n : Nat} {a : Arrival} (h : s.isCancelled) : Move s (rendered n a) s gone []
  | send {s : PageStream} {n : Nat} {a : Arrival} (room : s.sent.length < Pool.capacity) :
    Move s (sending n a) { s with sent := s.sent ++ [a] } idle []

inductive Asker where
  | free
  /-- A page failed, and `rest` is left of calling off all tasks. -/
  | stopping (e : RenderError) (rest : Routine Unit)

structure SharedPool where
  stream : PageStream
  parties : List Stage
  asker : Asker := .free
  others : List (Routine Unit) := []
  rendered : List (Nat × Arrival) := []
  answers : List (Option Item) := []

namespace SharedPool

def create (pages : List Page) (options : RenderOptions) (parties : Nat) : Except RenderError SharedPool := do
  return { stream := ← PageStream.create pages options, parties := .replicate parties .idle }

def CanAnswer (p : SharedPool) : Prop :=
  ¬ p.stream.isWaiting ∨ p.stream.sent = [] ∧ ∀ x ∈ p.parties, x = .gone

inductive Move (p : SharedPool) : SharedPool → Prop
  | party {before after : List Stage} {x y : Stage} {s : PageStream} {completed : List (Nat × Arrival)}
    (parties : p.parties = before ++ x :: after) (h : x.Move p.stream s y completed) :
    Move p { p with stream := s, parties := before ++ y :: after, rendered := p.rendered ++ completed }
  | receive {s : PageStream} (free : p.asker = .free) (waits : p.stream.isWaiting) (h : p.stream.receive = some s) :
    Move p { p with stream := s }
  | next (free : p.asker = .free) (can : p.CanAnswer) (h : ∀ e, p.stream.next.1 ≠ some (.error e)) :
    Move p { p with stream := p.stream.next.2, answers := p.answers ++ [p.stream.next.1] }
  | fail {e : RenderError} (free : p.asker = .free) (can : p.CanAnswer) (h : p.stream.next.1 = some (.error e)) :
    Move p { p with stream := { p.stream.next.2 with worker := p.stream.worker }, asker := .stopping e .callOff }
  | stop {e : RenderError} {effect : Worker → Worker} {next : Worker → Routine Unit}
    (stopping : p.asker = .stopping e (.act effect next)) :
    Move p { p with
      stream := { p.stream with worker := effect p.stream.worker }, asker := .stopping e (next p.stream.worker) }
  | stopped {e : RenderError} (stopping : p.asker = .stopping e (.done ())) :
    Move p { p with asker := .free, answers := p.answers ++ [some (.error e)] }
  | join (x : Routine Unit) : Move p { p with others := x :: p.others }
  | other {before after : List (Routine Unit)} {effect : Worker → Worker} {next : Worker → Routine Unit}
    (others : p.others = before ++ .act effect next :: after) :
    Move p { p with
      stream := { p.stream with worker := effect p.stream.worker }, others := before ++ next p.stream.worker :: after }

end SharedPool

end DisplayList
