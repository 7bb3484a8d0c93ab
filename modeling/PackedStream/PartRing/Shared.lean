import PackedStream.PartRing

namespace PackedStream

inductive Signal where
  | space
  | data
deriving DecidableEq

inductive RingCall (α : Type) where
  | store (values : List α)
  | storeWaiting (values : List α)
  | read
  | readWaiting
  | readAll
deriving DecidableEq

inductive RingReply where
  | done
  | notDone
  | refused (cause : StreamError)
deriving DecidableEq

inductive Transfer (α : Type) where
  | none
  | stored (values : List α)
  | moved (values : List α)
deriving DecidableEq

inductive Section (α : Type) where
  | finish (ring : PartRing α) (reply : RingReply) (transfer : Transfer α)
    (signal : Option Signal)
  | wait (signal : Signal)

namespace RingCall

variable {α : Type}

def putting (ring : PartRing α) (values : List α) (full : Section α) : Section α :=
  match ring.store values with
  | .error e => .finish ring (.refused e) .none none
  | .ok (false, _) => full
  | .ok (true, filled) =>
    .finish filled .done (.stored values) (if values = [] then none else some .data)

def taking (found : Option (List α × PartRing α)) (empty : Section α) : Section α :=
  match found with
  | none => empty
  | some (values, rest) => .finish rest .done (.moved values) (some .space)

def locked (ring : PartRing α) : RingCall α → Section α
  | store values => putting ring values (.finish ring .notDone .none none)
  | storeWaiting values => putting ring values (.wait .space)
  | read => taking ring.read (.finish ring .notDone .none none)
  | readWaiting => taking ring.read (.wait .data)
  | readAll => taking ring.readAll (.finish ring .notDone .none none)

def events (ring : PartRing α) : RingCall α → List Event
  | store values => ring.storeEvents values
  | _ => []

end RingCall

inductive Phase where
  | ready
  | parked (signal : Signal)
  | signalling (signal : Signal)
deriving DecidableEq

structure RingThread (α : Type) where
  calls : List (RingCall α)
  phase : Phase := .ready
  replies : List RingReply := []
  sink : List α := []
deriving DecidableEq

structure SharedRing (α : Type) where
  ring : PartRing α
  threads : List (RingThread α)

namespace Transfer

variable {α : Type}

def received : Transfer α → List α
  | moved values => values
  | _ => []

end Transfer

namespace RingThread

variable {α : Type} (t : RingThread α)

def finished (reply : RingReply) (transfer : Transfer α) (signal : Option Signal) :
    RingThread α where
  calls := t.calls.tail
  phase := match signal with
    | some s => .signalling s
    | none => .ready
  replies := t.replies ++ [reply]
  sink := t.sink ++ transfer.received

def wake (signal : Signal) : RingThread α :=
  if t.phase = .parked signal then { t with phase := .ready } else t

end RingThread

namespace SharedRing

variable {α : Type} (w : SharedRing α)

/-- One step of thread `i`: a signal to all, or a stay in the lock. A parked thread has none. -/
def step (i : Nat) : Option (Transfer α × SharedRing α) := do
  let t ← w.threads[i]?
  match t.phase with
  | .parked _ => none
  | .signalling signal =>
    let threads := w.threads.set i { t with phase := .ready }
    return (.none, { w with threads := threads.map (·.wake signal) })
  | .ready =>
    match (← t.calls.head?).locked w.ring with
    | .wait signal =>
      return (.none, { w with threads := w.threads.set i { t with phase := .parked signal } })
    | .finish ring reply transfer signal =>
      return (transfer, ⟨ring, w.threads.set i (t.finished reply transfer signal)⟩)

def advance : Option (SharedRing α) :=
  (List.range w.threads.length).findSome? fun i => (w.step i).map (·.2)

def runFor : Nat → SharedRing α → SharedRing α
  | 0, w => w
  | n + 1, w =>
    match w.advance with
    | none => w
    | some w' => runFor n w'

def run : SharedRing α :=
  let calls := w.threads.foldl (fun n t => n + t.calls.length) 0
  runFor ((w.threads.length + 2) * (calls + 1)) w

end SharedRing

end PackedStream
