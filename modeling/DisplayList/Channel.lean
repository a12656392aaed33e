import DisplayList.Chunk

namespace DisplayList

structure Channel where
  capacity : Nat
  queue : List Message := []
  /-- Messages announced by the producer and not yet accounted for by the consumer. -/
  inFlight : Nat := 0
  hasReceiver : Bool := true
  /-- The producer found the receiver gone. -/
  isCancelled : Bool := false

namespace Channel

def create (capacity : Nat) : Channel := { capacity := max capacity 1 }

def reserve (c : Channel) : Channel := { c with inFlight := c.inFlight + 1 }

def release (c : Channel) : Channel := { c with inFlight := c.inFlight - 1 }

def send (c : Channel) (m : Message) : Channel := { c with queue := c.queue ++ [m] }

def cancel (c : Channel) : Channel := { c with isCancelled := true }

def enqueue (c : Channel) (m : Message) : Channel :=
  if c.isCancelled then c
  else
    let c := c.reserve
    if c.hasReceiver then c.send m else c.release.cancel

def receive (c : Channel) : Option Message × Channel :=
  match c.queue with
  | [] => (none, c)
  | m :: rest => (some m, release { c with queue := rest })

def dropReceiver (c : Channel) : Channel := { c with hasReceiver := false, queue := [] }

def isReady (c : Channel) : Bool := !c.isCancelled && c.inFlight < c.capacity

end Channel

end DisplayList
