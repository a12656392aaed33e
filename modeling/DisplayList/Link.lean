import DisplayList.Channel

/-!
The two ends of a channel, move by move.

A producer counts a message before it sends it, and a consumer stops counting one after it has taken it, so in each
operation there are moments at which the other end may move. Between two of its operations the consumer may drop its
end. At any time whoever can move may be the next to.
-/

namespace DisplayList

namespace Link

/-- What the producer is in the middle of. -/
inductive Sender where
  | idle
  | announced (m : Message)
  /-- There is nobody to receive the message, which is still counted. -/
  | refused
  | released
  | gone

inductive Receiver where
  | idle
  | collecting (s : Snapshot)
  | taken (next : Receiver)
  | collected (result : Option Snapshot)
  | gone

def Receiver.after? (m : Message) : Receiver → Option Receiver
  | idle => some idle
  | collecting s =>
    some (if m.chunk.isLast then collected (some (s.append m.chunk)) else collecting (s.append m.chunk))
  | taken _ | collected _ | gone => none

end Link

structure Link where
  channel : Channel
  sender : Link.Sender := .idle
  receiver : Link.Receiver := .idle

namespace Link

inductive Event where
  | announced (m : Message)
  | accepted (m : Message)
  | refused (m : Message)
  | released
  | cancelled
  | discarded (m : Message)
  | received (m : Message)
  | missed
  | asked
  | collected (result : Option Snapshot)
  | senderLeft
  | receiverLeft

inductive Move : Link → Event → Link → Prop
  | announce {c : Channel} {r : Receiver} (m : Message) (h : ¬ c.isCancelled) :
    Move ⟨c, .idle, r⟩ (.announced m) ⟨c.reserve, .announced m, r⟩
  | send {c : Channel} {r : Receiver} {m : Message} (h : c.hasReceiver) :
    Move ⟨c, .announced m, r⟩ (.accepted m) ⟨c.send m, .idle, r⟩
  | refuse {c : Channel} {r : Receiver} {m : Message} (h : ¬ c.hasReceiver) :
    Move ⟨c, .announced m, r⟩ (.refused m) ⟨c, .refused, r⟩
  | release {c : Channel} {r : Receiver} : Move ⟨c, .refused, r⟩ .released ⟨c.release, .released, r⟩
  | cancel {c : Channel} {r : Receiver} : Move ⟨c, .released, r⟩ .cancelled ⟨c.cancel, .idle, r⟩
  | discard {c : Channel} {r : Receiver} (m : Message) (h : c.isCancelled) :
    Move ⟨c, .idle, r⟩ (.discarded m) ⟨c, .idle, r⟩
  | take {c : Channel} {s : Sender} {r next : Receiver} {m : Message} {rest : List Message}
    (hq : c.queue = m :: rest) (hr : r.after? m = some next) :
    Move ⟨c, s, r⟩ (.received m) ⟨{ c with queue := rest }, s, .taken next⟩
  | count {c : Channel} {s : Sender} {next : Receiver} :
    Move ⟨c, s, .taken next⟩ .released ⟨c.release, s, next⟩
  | miss {c : Channel} {s : Sender} (h : c.queue = []) : Move ⟨c, s, .idle⟩ .missed ⟨c, s, .idle⟩
  | ask {c : Channel} {s : Sender} : Move ⟨c, s, .idle⟩ .asked ⟨c, s, .collecting {}⟩
  | giveUp {c : Channel} {t : Snapshot} (h : c.queue = []) :
    Move ⟨c, .gone, .collecting t⟩ .missed ⟨c, .gone, .collected none⟩
  | close {c : Channel} {s : Sender} {result : Option Snapshot} :
    Move ⟨c, s, .collected result⟩ (.collected result) ⟨c.dropReceiver, s, .gone⟩
  | leave {c : Channel} {r : Receiver} : Move ⟨c, .idle, r⟩ .senderLeft ⟨c, .gone, r⟩
  | drop {c : Channel} {s : Sender} : Move ⟨c, s, .idle⟩ .receiverLeft ⟨c.dropReceiver, s, .gone⟩

inductive Run (l : Link) : List Event → Link → Prop
  | refl : Run l [] l
  | tail {es : List Event} {e : Event} {l₁ l₂ : Link} (h : Run l es l₁) (move : Move l₁ e l₂) : Run l (es ++ [e]) l₂

def create (capacity : Nat) : Link := { channel := .create capacity }

end Link

end DisplayList
