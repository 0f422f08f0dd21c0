/-!
The queue through which everything that drives a watched tree reaches it, first come first served.
-/
namespace LazyTree

inductive Event where
  /-- Changed paths of the host. -/
  | changed (paths : List String)
  | shutdown
deriving DecidableEq, Repr, Inhabited

structure EventQueue where
  waiting : List Event
deriving DecidableEq, Repr, Inhabited

namespace EventQueue

def empty : EventQueue := ⟨[]⟩

def send (queue : EventQueue) (event : Event) : EventQueue :=
  ⟨queue.waiting ++ [event]⟩

def sendAll (queue : EventQueue) (events : List Event) : EventQueue :=
  events.foldl send queue

def next? (queue : EventQueue) : Option (Event × EventQueue) :=
  match queue.waiting with
  | [] => none
  | event :: rest => some (event, ⟨rest⟩)

def receive : Nat → EventQueue → List Event × EventQueue
  | 0, queue => ([], queue)
  | count + 1, queue =>
    match queue.next? with
    | none => ([], queue)
    | some (event, rest) =>
      let (events, left) := receive count rest
      (event :: events, left)

end EventQueue

end LazyTree
