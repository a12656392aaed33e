import DisplayList.Assembler
import DisplayList.Channel

namespace DisplayList

inductive Sink where
  | record (messages : List Message)
  | channel (c : Channel)
  | assembler (a : Assembler)

namespace Sink

def enqueue (m : Message) : Sink → Sink
  | record messages => record (messages ++ [m])
  | channel c => channel (c.enqueue m)
  | assembler a => assembler (a.enqueue m)

def recorded : Sink → List Message
  | record messages => messages
  | channel _ | assembler _ => []

/-- Whether the consumer wants more chunks. This is advice; a list delivers all the same. -/
def isReady : Sink → Bool
  | channel c => c.isReady
  | record _ | assembler _ => true

end Sink

end DisplayList
