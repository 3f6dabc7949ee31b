import CompileWatch.Capture.Event
import CompileWatch.Capture.References
import CompileWatch.Log

/-!
# Live feeds

A subscriber is told of every capture by a short notice. Notices wait in a queue of
bounded length; one that finds the queue full is lost, so that a capture never waits.

- `Feed`: a queue between the captures and one subscriber.
- `FeedDesk.subscribe`, `unsubscribe`: at most one feed is live; the notices of an
  earlier one can still be received.
- `FeedDesk.notify`: a capture was made.
-/

namespace CompileWatch

/-- What a subscriber is told; the full record stays in its buffer. -/
inductive Notice where
  | form (key : FormKey)
  | reference (edge : Edge)
  | unit (name : String)
deriving DecidableEq, Repr, Inhabited

/-- A queue of notices. -/
structure Feed where
  capacity : Nat
  queue : List Notice := []
  /-- Whether the subscriber is still there. -/
  attended : Bool := true
deriving Repr, Inhabited

namespace Feed

/-- Put a notice in the queue, or lose it when the queue is full. -/
def send (f : Feed) (n : Notice) : Feed :=
  if f.queue.length < f.capacity then { f with queue := f.queue ++ [n] } else f

/-- Take the oldest notices out of the queue, at most `max` of them if a bound is given. -/
def receive (f : Feed) (max : Option Nat) : List Notice × Feed :=
  let n := max.getD f.queue.length
  (f.queue.take n, { f with queue := f.queue.drop n })

/-- The subscriber leaves, and what waited for it goes. -/
def leave (f : Feed) : Feed := { f with queue := [], attended := false }

end Feed

/-- The feeds that were ever opened, by number, and the one that notices go to. -/
structure FeedDesk where
  feeds : Array Feed := #[]
  /-- The feed that was opened last, until it is given up. -/
  live : Option Nat := none
  /-- Whether there is a subscriber. The live feed is looked at only then. -/
  subscribed : Bool := false
deriving Repr, Inhabited

namespace FeedDesk

/-- Open a feed in place of the live one, and give its number. -/
def subscribe (d : FeedDesk) (capacity : Nat) : Nat × FeedDesk :=
  let number := d.feeds.size
  (number, { feeds := d.feeds.push { capacity }, live := some number, subscribed := true })

/-- Send no more notices. -/
def unsubscribe (d : FeedDesk) : FeedDesk := { d with subscribed := false, live := none }

/-- Take notices out of a feed. -/
def receive (d : FeedDesk) (number : Nat) (max : Option Nat) : List Notice × FeedDesk :=
  match d.feeds[number]? with
  | none => ([], d)
  | some f =>
    let (notices, f) := f.receive max
    (notices, { d with feeds := d.feeds.setIfInBounds number f })

/-- The subscriber of a feed leaves. -/
def leave (d : FeedDesk) (number : Nat) : FeedDesk :=
  { d with feeds := d.feeds.modify number Feed.leave }

/-- The feed that notices go to. -/
def target? (d : FeedDesk) : Option Nat := if d.subscribed then d.live else none

/-- Tell the subscriber of a capture. One that left is noticed now. -/
def notify (d : FeedDesk) (n : Notice) : Logged FeedDesk :=
  match d.target? with
  | none => return d
  | some number =>
    if (d.feeds[number]?.map (·.attended)).getD false then
      return { d with feeds := d.feeds.modify number (·.send n) }
    else do
      Logged.note .debug "Live feed subscriber went away, detaching"
      return d.unsubscribe

end FeedDesk

end CompileWatch
