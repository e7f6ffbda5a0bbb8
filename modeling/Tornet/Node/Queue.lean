import Tornet.Library.Heap
import Tornet.Library.Runs
import Tornet.Peer

/-! `node::impl::process_queue`: datagrams wait at their connection, connections wait in a heap
by priority, and one fiber serves the front. A handler may yield, so that datagrams arrive
before it returns. -/
namespace Tornet.Node
open Library Runs

/-- Where the `process_queue` fiber stands: before the test of its loop, or inside the
handler of a connection's first packet. -/
inductive Fiber where
  | ready
  | serving (c : Endpoint)
  deriving DecidableEq, Repr

/-- The part of `node::impl` between the read loop and the handlers; each endpoint in
`_ep_to_con` has one connection. -/
structure Queue (P : Type) where
  inQueue : Endpoint → List Bytes := fun _ => []
  priority : Endpoint → P
  processQueue : List Endpoint := []
  processing : Bool := false
  fiber : Option Fiber := none

/-- What happens: the read loop gets a datagram, the fiber tests its loop condition and enters
a handler, the handler returns or throws, `set_priority` is called. -/
inductive Event (P : Type) where
  | arrive (ep : Endpoint) (b : Bytes)
  | iterate
  | handled
  | thrown
  | setPriority (c : Endpoint) (p : P)

def Event.ofFiber {P : Type} : Event P → Bool
  | .iterate | .handled => true
  | .arrive _ _ | .thrown | .setPriority _ _ => false

namespace Queue
variable {P : Type} [LT P] [DecidableLT P]

def init (priority : Endpoint → P) : Queue P := { priority }

/-- `pq_comparer`. -/
def pqComparer (q : Queue P) (l r : Endpoint) : Bool := decide (q.priority l > q.priority r)

/-- `connection::post_packet`. -/
def postPacket (q : Queue P) (c : Endpoint) (b : Bytes) : Queue P :=
  { q with inQueue := Function.update q.inQueue c (q.inQueue c ++ [b]) }

/-- `process_connection`; the packet just posted counts as pending. -/
def processConnection (q : Queue P) (c : Endpoint) : Queue P :=
  if 1 < (q.inQueue c).length then q
  else
    { q with
      processQueue := Heap.pushHeap q.pqComparer q.processQueue c
      processing := true
      fiber := if q.processing then q.fiber else some .ready }

/-- `handle_packet`. -/
def handlePacket (q : Queue P) (b : Bytes) (ep : Endpoint) : Queue P :=
  (q.postPacket ep b).processConnection ep

/-- The end of `process_next_message` and the test behind it, which looks at the front as it is
then; `none` where there is no front. -/
def finish (q : Queue P) (c : Endpoint) : Option (Queue P) :=
  let q := { q with inQueue := Function.update q.inQueue c (q.inQueue c).tail, fiber := some .ready }
  match q.processQueue with
  | [] => none
  | f :: _ =>
    if q.inQueue f = [] then some { q with processQueue := Heap.popHeap q.pqComparer q.processQueue }
    else some q

/-- One event; `none` where it cannot happen, or where `front` is called on an empty container. -/
def step (q : Queue P) : Event P → Option (Queue P)
  | .arrive ep b => some (q.handlePacket b ep)
  | .iterate =>
    if q.fiber = some .ready then
      match q.processQueue with
      | [] => some { q with processing := false, fiber := none }
      | c :: _ => if q.inQueue c = [] then none else some { q with fiber := some (.serving c) }
    else none
  | .handled =>
    match q.fiber with
    | some (.serving c) => q.finish c
    | _ => none
  | .thrown =>
    match q.fiber with
    | some (.serving _) => some { q with fiber := none }
    | _ => none
  | .setPriority c p => some { q with priority := Function.update q.priority c p }

end Queue
end Tornet.Node
