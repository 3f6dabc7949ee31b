import Mathlib.Data.List.TakeWhile
import CompileWatch.Proofs.Capture.Taken

/-!
# Feeds beside captures

A subscriber is told of captures without being felt by them: whatever is asked about feeds, the
buffers and what is answered about them are the same as if it had not been asked. And a
subscriber misses only what its queue has no room for: from the time that its feed is opened,
what it received and what still waits for it are the notices of the captures that were taken,
in order, without those that found the queue full.

- `Session.performCaptures_congr`: one request about captures, in sessions that differ in their
  feeds alone.
- `Session.captures_after`, `Session.answers_history`: what becomes of the buffers and what is
  answered about them, with the requests about feeds left out.
- `FeedDesk.Serves`: a feed is the one that notices go to, and this waits in it.
- `Session.serves_perform`, `Session.serves_after`: requests that leave a feed in service put
  notices in at the end and take them out at the front.
- `Session.history_beside_feeds`: both together.
-/

namespace CompileWatch

namespace Session

/-! ### The buffers -/

/-- A session without its feeds: the buffers, and the outcome of the self-test. -/
def captures (s : Session) : Session := { s with desk := {} }

/-- What is asked about captures is answered from the captures. -/
theorem answer_performCaptures (s : Session) (r : CaptureRequest) :
    (s.performCaptures r).value.1 = (s.captures.performCaptures r).value.1 := by
  cases r <;> rfl

/-- What becomes of the captures follows from the captures. -/
theorem captures_performCaptures (s : Session) (r : CaptureRequest) :
    (s.performCaptures r).value.2.captures = (s.captures.performCaptures r).value.2.captures := by
  cases r with
  | form e =>
    show (s.captureForm e).value.captures = (s.captures.captureForm e).value.captures
    rw [value_captureForm, value_captureForm]
    rfl
  | reference e =>
    show (s.captureReference e).value.captures = (s.captures.captureReference e).value.captures
    rw [value_captureReference, value_captureReference]
    rfl
  | unit name bytes =>
    show (s.captureUnit name bytes).value.captures =
      (s.captures.captureUnit name bytes).value.captures
    rw [value_captureUnit, value_captureUnit]
    rfl
  | enable c on => cases c <;> rfl
  | drain c => cases c <;> rfl
  | clear c => cases c <;> rfl
  | _ => rfl

end Session

/-! ### Requests about feeds left out -/

/-- Whether a request is about captures. -/
def Request.isCaptures : Request → Bool
  | .captures _ => true
  | .feeds _ => false

namespace Session

section

variable {s t : Session}

/-- Sessions with the same captures answer alike about them, and go on to have the same. -/
theorem performCaptures_congr (h : s.captures = t.captures) (r : CaptureRequest) :
    (s.performCaptures r).value.1 = (t.performCaptures r).value.1 ∧
      (s.performCaptures r).value.2.captures = (t.performCaptures r).value.2.captures := by
  constructor
  · rw [answer_performCaptures, h, ← answer_performCaptures]
  · rw [captures_performCaptures, h, ← captures_performCaptures]

/-- What is captured does not depend on what is asked of the feeds. -/
theorem captures_after (h : s.captures = t.captures) (requests : List Request) :
    (s.after requests).captures = (t.after (requests.filter (·.isCaptures))).captures := by
  induction requests generalizing s t with
  | nil => exact h
  | cons r rest ih =>
    cases r with
    | captures r => exact ih (performCaptures_congr h r).2
    | feeds r => exact ih h

theorem answers_history (h : s.captures = t.captures) (requests : List Request) :
    ((s.history requests).filter (·.request.isCaptures)).map (·.answer) =
      (t.history (requests.filter (·.isCaptures))).map (·.answer) := by
  induction requests generalizing s t with
  | nil => rfl
  | cons r rest ih =>
    cases r with
    | captures r =>
      obtain ⟨hanswer, hcaptures⟩ := performCaptures_congr h r
      exact congrArg₂ List.cons hanswer (ih hcaptures)
    | feeds r => exact ih h

end

end Session

/-! ### A feed in service -/

/-- The notices that wait in a feed. -/
def FeedDesk.waiting (d : FeedDesk) (number : Nat) : List Notice :=
  (d.feeds[number]?.map (·.queue)).getD []

/-- A feed of a capacity is the one that notices go to, its subscriber is there, and these
notices wait for it. -/
structure FeedDesk.Serves (d : FeedDesk) (number capacity : Nat) (queue : List Notice) : Prop where
  target : d.target? = some number
  feed : d.feeds[number]? = some { capacity, queue }
  fits : queue.length ≤ capacity

namespace FeedDesk

variable {d : FeedDesk} {number capacity : Nat} {queue : List Notice}

theorem serves_subscribe (d : FeedDesk) (capacity : Nat) :
    (d.subscribe capacity).2.Serves d.feeds.size capacity [] :=
  ⟨rfl, Array.getElem?_push_size, Nat.zero_le _⟩

namespace Serves

/-- What waits at a desk is the queue that it serves. -/
theorem waiting_eq (h : d.Serves number capacity queue) : d.waiting number = queue := by
  rw [waiting, h.feed]
  rfl

/-- What is done to other feeds does not end the service. -/
theorem of_feeds (h : d.Serves number capacity queue) {feeds : Array Feed}
    (hfeeds : feeds[number]? = d.feeds[number]?) :
    { d with feeds }.Serves number capacity queue :=
  ⟨h.target, hfeeds.trans h.feed, h.fits⟩

/-- A notice is lost when the queue is full, and else waits behind the others. -/
theorem tell (h : d.Serves number capacity queue) (notice? : Option Notice) :
    (d.tell notice?).Serves number capacity
      (queue ++ (if queue.length = capacity then none else notice?).toList) := by
  cases notice? with
  | none => simpa [FeedDesk.tell] using h
  | some n =>
    have hnotify : (d.tell (some n)) = { d with feeds := d.feeds.modify number (·.send n) } := by
      simp [FeedDesk.tell, notify, h.target, h.feed]
    have hfeed : (d.feeds.modify number (·.send n))[number]? =
        some (Feed.send { capacity, queue } n) := by
      simp [Array.getElem?_modify, h.feed]
    rw [hnotify]
    by_cases hfull : queue.length = capacity
    · rw [if_pos hfull, Option.toList_none, List.append_nil]
      refine ⟨h.target, hfeed.trans (congrArg some ?_), h.fits⟩
      exact if_neg (Nat.not_lt.mpr hfull.ge)
    · have hroom : queue.length < capacity := Nat.lt_of_le_of_ne h.fits hfull
      rw [if_neg hfull, Option.toList_some]
      refine ⟨h.target, hfeed.trans (congrArg some ?_), ?_⟩
      · exact if_pos hroom
      · rwa [List.length_append, List.length_singleton]

/-- The notices that are handed out are those that waited longest. -/
theorem receive (h : d.Serves number capacity queue) (max : Option Nat) :
    ∃ rest, (d.receive number max).1 ++ rest = queue ∧
      (d.receive number max).2.Serves number capacity rest := by
  let count := max.getD queue.length
  let left : Feed := { capacity, queue := queue.drop count }
  have hreceive : d.receive number max =
      (queue.take count, { d with feeds := d.feeds.setIfInBounds number left }) := by
    simp only [FeedDesk.receive, h.feed]
    rfl
  have hsize : number < d.feeds.size := (Array.getElem?_eq_some_iff.mp h.feed).1
  rw [hreceive]
  refine ⟨queue.drop count, List.take_append_drop count queue, h.target, ?_, ?_⟩
  · exact Array.getElem?_setIfInBounds_self_of_lt hsize
  · exact ((List.drop_sublist count queue).length_le).trans h.fits

/-- Receiving from another queue leaves this one. -/
theorem receive_other (h : d.Serves number capacity queue) {other : Nat} (hne : other ≠ number)
    (max : Option Nat) : (d.receive other max).2.Serves number capacity queue := by
  unfold FeedDesk.receive
  split
  · exact h
  · exact h.of_feeds (Array.getElem?_setIfInBounds_ne hne)

theorem leave_other (h : d.Serves number capacity queue) {other : Nat} (hne : other ≠ number) :
    (d.leave other).Serves number capacity queue :=
  h.of_feeds (by simp [Array.getElem?_modify, hne])

end Serves

end FeedDesk

/-! ### The history of a feed in service -/

/-- Whether a request ends the service of a feed: another one is opened in its place, notices are
no longer wanted, or its subscriber leaves. -/
def Request.ends (number : Nat) : Request → Bool
  | .feeds (.subscribe _) => true
  | .feeds .unsubscribe => true
  | .feeds (.leave n) => n = number
  | _ => false

namespace Performed

/-- What the subscriber of a feed was handed. -/
def received (number : Nat) (p : Performed) : List Notice :=
  match p.request, p.answer with
  | .feeds (.receive n _), .notices l => if n = number then l else []
  | _, _ => []

/-- The notice of a capture that was taken. -/
def notice? (p : Performed) : Option Notice :=
  match p.request with
  | .captures r => p.found.noticeOf? r
  | .feeds _ => none

/-- The notice of a capture that was taken, unless it found a feed with that many notices. -/
def kept? (number capacity : Nat) (p : Performed) : Option Notice :=
  if (p.found.desk.waiting number).length = capacity then none else p.notice?

end Performed

namespace Session

variable {s : Session} {number capacity : Nat} {queue : List Notice}

theorem desk_performCaptures (s : Session) (r : CaptureRequest) :
    (s.performCaptures r).value.2.desk = s.desk.tell (s.noticeOf? r) := by
  cases r with
  | form e => exact congrArg desk (s.value_captureForm e)
  | reference e => exact congrArg desk (s.value_captureReference e)
  | unit name bytes => exact congrArg desk (s.value_captureUnit name bytes)
  | enable c on => cases c <;> rfl
  | drain c => cases c <;> rfl
  | clear c => cases c <;> rfl
  | _ => rfl

/-- One request that leaves a feed in service: what was handed out and what waits now is what
waited before, and the notice of the request. -/
theorem serves_perform (h : s.desk.Serves number capacity queue) {r : Request}
    (hr : r.ends number = false) :
    let p : Performed := ⟨s, r, (s.perform r).value.1⟩
    ∃ queue', p.received number ++ queue' = queue ++ (p.kept? number capacity).toList ∧
      (s.perform r).value.2.desk.Serves number capacity queue' := by
  cases r with
  | captures r =>
    refine ⟨_, rfl, ?_⟩
    show (s.performCaptures r).value.2.desk.Serves number capacity _
    rw [desk_performCaptures, Performed.kept?, h.waiting_eq]
    exact h.tell _
  | feeds r =>
    have hkept (answer : Answer) :
        (Performed.mk s (.feeds r) answer).kept? number capacity = none := by
      rw [Performed.kept?, Performed.notice?, ite_self]
    simp only [hkept, Option.toList_none, List.append_nil]
    cases r with
    | subscribe c => cases hr
    | unsubscribe => cases hr
    | leave n => exact ⟨queue, rfl, h.leave_other (of_decide_eq_false hr)⟩
    | receive n max =>
      by_cases hn : n = number
      · subst hn
        obtain ⟨rest, hqueue, hrest⟩ := h.receive max
        refine ⟨rest, ?_, hrest⟩
        rw [← hqueue]
        exact congrArg (· ++ rest) (if_pos rfl)
      · exact ⟨queue, congrArg (· ++ queue) (if_neg hn), h.receive_other hn max⟩

/-- Requests in a row that leave a feed in service. -/
theorem serves_after (h : s.desk.Serves number capacity queue) {requests : List Request}
    (hrequests : ∀ r ∈ requests, r.ends number = false) :
    ∃ queue', (s.history requests).flatMap (·.received number) ++ queue' =
        queue ++ (s.history requests).filterMap (·.kept? number capacity) ∧
      (s.after requests).desk.Serves number capacity queue' := by
  induction requests generalizing s queue with
  | nil => exact ⟨queue, (List.append_nil _).symm, h⟩
  | cons r rest ih =>
    obtain ⟨between, hfirst, hbetween⟩ := serves_perform h (hrequests r List.mem_cons_self)
    obtain ⟨queue', hrest, hqueue'⟩ :=
      ih hbetween fun r' hr' => hrequests r' (List.mem_cons_of_mem r hr')
    refine ⟨queue', ?_, hqueue'⟩
    rw [history, List.flatMap_cons, List.append_assoc, hrest, ← List.append_assoc, hfirst,
      List.append_assoc, List.filterMap_cons]
    cases Performed.kept? number capacity _ <;> rfl

/-! ### Feeds beside captures -/

/-- Requests about feeds do not matter to the captures: the buffers come out as without them, and
so does every answer about captures. And from the time that a feed is opened, as long as requests
leave it in service, what was received from it and what waits in it are the notices of the
captures that were taken, in order, without those of captures that found the feed full. -/
theorem history_beside_feeds (s : Session) :
    (∀ requests : List Request,
      let undisturbed := requests.filter (·.isCaptures)
      (s.after requests).captures = (s.after undisturbed).captures ∧
      ((s.history requests).filter (·.request.isCaptures)).map (·.answer) =
        (s.history undisturbed).map (·.answer)) ∧
    (∀ (earlier : List Request) (capacity : Nat) (later : List Request),
      let number := (s.after earlier).desk.feeds.size
      let opened := s.after (earlier ++ [.feeds (.subscribe capacity)])
      let during := later.takeWhile fun r => !r.ends number
      (opened.history during).flatMap (·.received number) ++
          (opened.after during).desk.waiting number =
        (opened.history during).filterMap (·.kept? number capacity)) := by
  refine ⟨fun requests => ⟨captures_after rfl requests, answers_history rfl requests⟩, ?_⟩
  intro earlier capacity later number opened during
  have hopened : opened.desk.Serves number capacity [] := by
    show (s.after (earlier ++ [.feeds (.subscribe capacity)])).desk.Serves _ _ _
    rw [after, List.foldl_append]
    exact (s.after earlier).desk.serves_subscribe capacity
  have hduring : ∀ r ∈ during, r.ends number = false := fun r hr => by
    simpa using List.mem_takeWhile_imp hr
  obtain ⟨queue, hqueue, hserves⟩ := serves_after hopened hduring
  rw [hserves.waiting_eq, hqueue, List.nil_append]

/-- With room for one notice: the second is lost, and there is none for a reference to nothing. -/
example :
    let refer (callee : String) : Request := .captures (.reference ⟨callee, none⟩)
    let opened := ({} : Session).after [.feeds (.subscribe 1)]
    let during := [refer "a/x", refer "a/y", .feeds (.receive 0 none), refer "", refer "a/z"]
    (opened.history during).flatMap (·.received 0) = [.reference ⟨"a/x", none⟩] ∧
      (opened.after during).desk.waiting 0 = [.reference ⟨"a/z", none⟩] := by
  decide

end Session

end CompileWatch
