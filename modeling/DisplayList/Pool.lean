import DisplayList.PageStream

namespace DisplayList

inductive Party where
  | idle
  | rendering (page : Page)
  | sending (a : Arrival)
  | gone

structure Pool where
  stream : PageStream
  parties : List Party
  items : List Item := []
  /-- The stream was asked for a page and had none to hand out. -/
  ended : Bool := false

namespace Pool

def capacity : Nat := 16

/-- As many parties as asked for, or as may run at once if none are asked for, but no more than there are pages. -/
def partyCount (threads available pages : Nat) : Nat :=
  min (if threads = 0 then available else threads) (max pages 1)

def create (pages : List Page) (options : RenderOptions) (threads available : Nat) : Except RenderError Pool := do
  return {
    stream := ← PageStream.create pages options,
    parties := .replicate (partyCount threads available pages.length) .idle }

inductive Move : Pool → Pool → Prop
  | claim {s s' : PageStream} {before after : List Party} {items : List Item} {ended : Bool} {page : Page}
    (h : s.claim = some (page, s')) :
    Move ⟨s, before ++ .idle :: after, items, ended⟩ ⟨s', before ++ .rendering page :: after, items, ended⟩
  | leave {s : PageStream} {before after : List Party} {items : List Item} {ended : Bool} (h : s.claim = none) :
    Move ⟨s, before ++ .idle :: after, items, ended⟩ ⟨s, before ++ .gone :: after, items, ended⟩
  | render {s : PageStream} {before after : List Party} {items : List Item} {ended : Bool} {page : Page} :
    Move ⟨s, before ++ .rendering page :: after, items, ended⟩
      ⟨(s.render page).2, before ++ .sending (s.render page).1 :: after, items, ended⟩
  | send {s : PageStream} {before after : List Party} {items : List Item} {ended : Bool} {a : Arrival}
    (h : ¬ s.isCancelled) (room : s.sent.length < capacity) :
    Move ⟨s, before ++ .sending a :: after, items, ended⟩ ⟨s.send a, before ++ .idle :: after, items, ended⟩
  | abandon {s : PageStream} {before after : List Party} {items : List Item} {ended : Bool} {a : Arrival}
    (h : s.isCancelled) :
    Move ⟨s, before ++ .sending a :: after, items, ended⟩ ⟨s, before ++ .gone :: after, items, ended⟩
  | receive {s s' : PageStream} {parties : List Party} {items : List Item} (waits : s.isWaiting)
    (h : s.receive = some s') : Move ⟨s, parties, items, false⟩ ⟨s', parties, items, false⟩
  | next {s : PageStream} {parties : List Party} {items : List Item}
    (h : ¬ s.isWaiting ∨ s.sent = [] ∧ ∀ p ∈ parties, p = .gone) :
    Move ⟨s, parties, items, false⟩ ⟨s.next.2, parties, items ++ s.next.1.toList, s.next.1.isNone⟩

end Pool

end DisplayList
