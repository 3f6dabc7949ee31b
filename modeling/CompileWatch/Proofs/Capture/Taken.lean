import CompileWatch.Capture.Request

/-!
# What a session takes

A session shows a reference to one buffer and a unit to another, and tells the subscriber of
what the buffer took. So from one session to a later one, the references and the units that
were captured between them say what became of the two buffers, and what the subscriber was
told.

- `Feed.queue_sendAll`: a feed that is not full in the end has lost nothing.
- `Session.noticeOf?`, `Session.value_captureForm` and so on: what a capture does to a session, and
  the notice of it, if it is taken.
- `Session.Takes`: from one session to another, these references and units were captured.
- `Session.Takes.trans`: captures add up.
- `Session.takes_captureReference` and so on: one capture of each kind.
-/

namespace CompileWatch

/-! ### Feeds -/

namespace Feed

/-- Notices that are sent in a row. -/
def sendAll (f : Feed) (l : List Notice) : Feed := l.foldl send f

theorem attended_send (f : Feed) (n : Notice) : (f.send n).attended = f.attended := by
  unfold send
  split <;> rfl

/-- Sending notices does not change what a queue can hold. -/
theorem capacity_sendAll (f : Feed) (l : List Notice) : (f.sendAll l).capacity = f.capacity := by
  induction l generalizing f with
  | nil => rfl
  | cons n rest ih =>
    show ((f.send n).sendAll rest).capacity = f.capacity
    rw [ih, send]
    split <;> rfl

/-- A feed that is not full in the end has lost nothing. -/
theorem queue_sendAll {f : Feed} {l : List Notice}
    (h : (f.sendAll l).queue.length < (f.sendAll l).capacity) :
    (f.sendAll l).queue = f.queue ++ l := by
  induction l generalizing f with
  | nil => exact (List.append_nil _).symm
  | cons n rest ih =>
    have hrest : (f.sendAll (n :: rest)).queue = (f.send n).queue ++ rest := ih h
    by_cases hroom : f.queue.length < f.capacity
    · rw [hrest, send, if_pos hroom, List.append_assoc]
      rfl
    · -- a feed that is full stays full
      rw [capacity_sendAll, hrest, send, if_neg hroom, List.length_append] at h
      omega

end Feed

namespace FeedDesk

/-- The feed whose subscriber is told of captures. -/
def open? (d : FeedDesk) : Option Feed :=
  (d.target?.bind fun number => d.feeds[number]?).filter (·.attended)

/-- A notice goes to the queue of a feed that is open. -/
theorem open?_notify (d : FeedDesk) (n : Notice) :
    (d.notify n).value.open? = d.open?.map fun f => f.send n := by
  unfold notify open?
  cases htarget : d.target? with
  | none => simp [htarget]
  | some number =>
    -- what is sent changes feeds, and not the one that notices go to
    have hsent (feeds : Array Feed) : { d with feeds }.target? = some number := htarget
    cases hf : d.feeds[number]? with
    | none => simp [hf, unsubscribe, target?]
    | some f =>
      by_cases ha : f.attended
      · simp [hf, ha, hsent, Array.getElem?_modify, Option.filter_some, Feed.attended_send]
      · simp [hf, ha, unsubscribe, target?, Option.filter_some]

/-- Tell the subscriber of a capture, if it was taken. -/
def tell (d : FeedDesk) (notice? : Option Notice) : FeedDesk :=
  notice?.elim d fun n => (d.notify n).value

end FeedDesk

/-- The reference that a notice is about. -/
def Notice.edge? : Notice → Option Edge
  | .reference e => some e
  | _ => none

/-! ### One capture -/

namespace Session

/-- The notice of a capture that the buffer of its kind takes: the buffer is switched on, and
the name of the capture is not empty. -/
def noticeOf? (s : Session) : CaptureRequest → Option Notice
  | .form e => if s.forms.accepts e then some (.form e.key) else none
  | .reference e => if s.references.accepts e then some (.reference e) else none
  | .unit name _ => if s.units.accepts name then some (.unit (dottedName name)) else none
  | _ => none

section

variable (s : Session)

/-- A form is put into its buffer, and a notice of it is sent if the buffer accepts it. -/
theorem value_captureForm (e : FormEvent) : (s.captureForm e).value =
    { s with forms := s.forms.capture e, desk := s.desk.tell (s.noticeOf? (.form e)) } := by
  by_cases h : s.forms.accepts e
  · simp only [captureForm, noticeOf?, if_pos h]
    rfl
  · simp only [captureForm, noticeOf?, if_neg h]
    rfl

/-- A reference is put into its buffer, and a notice of it is sent. -/
theorem value_captureReference (e : Edge) : (s.captureReference e).value =
    { s with
      references := s.references.capture e
      desk := s.desk.tell (s.noticeOf? (.reference e)) } := by
  by_cases h : s.references.accepts e
  · simp only [captureReference, noticeOf?, if_pos h]
    rfl
  · simp only [captureReference, noticeOf?, if_neg h]
    rfl

/-- A unit is put into its buffer, and a notice of it is sent. -/
theorem value_captureUnit (name : String) (bytes : Bytes) : (s.captureUnit name bytes).value =
    { s with
      units := (s.units.capture name bytes).value.1
      desk := s.desk.tell (s.noticeOf? (.unit name bytes)) } := by
  by_cases h : s.units.accepts name
  · simp only [captureUnit, noticeOf?, UnitBuffer.capture, if_pos h]
    rfl
  · simp only [captureUnit, noticeOf?, UnitBuffer.capture, if_neg h]
    rfl

end

end Session

/-! ### References and units -/

namespace ReferenceBuffer

/-- A capture does not change what a buffer accepts. -/
theorem accepts_capture (b : ReferenceBuffer) (e : Edge) : (b.capture e).accepts = b.accepts := by
  unfold capture
  split <;> rfl

theorem accepts_foldl (b : ReferenceBuffer) (l : List Edge) :
    (l.foldl capture b).accepts = b.accepts := by
  induction l generalizing b with
  | nil => rfl
  | cons e rest ih => rw [List.foldl_cons, ih, accepts_capture]

end ReferenceBuffer

/-- The buffer after a unit, whatever is logged of it. -/
def UnitBuffer.take (b : UnitBuffer) (u : String × Bytes) : UnitBuffer := (b.capture u.1 u.2).value.1

/-- From one session to another, these references and these units were captured: each was
shown to the buffer of its kind, and the subscriber was told of every reference that was
taken. -/
structure Session.Takes (edges : List Edge) (units : List (String × Bytes)) (s s' : Session) :
    Prop where
  references : s'.references = edges.foldl ReferenceBuffer.capture s.references
  units : s'.units = units.foldl UnitBuffer.take s.units
  told : ∃ notices, notices.filterMap Notice.edge? = edges.filter s.references.accepts ∧
    s'.desk.open? = s.desk.open?.map fun f => f.sendAll notices

namespace Session

section

variable {s s' s'' : Session} {edges edges' : List Edge} {units units' : List (String × Bytes)}

/-- What is taken first and what is taken next are taken together. -/
theorem Takes.trans (h : Takes edges units s s') (h' : Takes edges' units' s' s'') :
    Takes (edges ++ edges') (units ++ units') s s'' := by
  refine ⟨?_, ?_, ?_⟩
  · rw [h'.references, h.references, List.foldl_append]
  · rw [h'.units, h.units, List.foldl_append]
  · obtain ⟨notices, hnotices, hopen⟩ := h.told
    obtain ⟨notices', hnotices', hopen'⟩ := h'.told
    refine ⟨notices ++ notices', ?_, ?_⟩
    · rw [List.filterMap_append, hnotices, hnotices', h.references, ReferenceBuffer.accepts_foldl,
        List.filter_append]
    · rw [hopen', hopen, Option.map_map]
      congr 1
      funext f
      exact List.foldl_append.symm

/-- One capture, of which the subscriber may have been told. -/
theorem Takes.of_notice (notice? : Option Notice)
    (hreferences : s'.references = edges.foldl ReferenceBuffer.capture s.references)
    (hunits : s'.units = units.foldl UnitBuffer.take s.units)
    (hnotice : (notice?.bind Notice.edge?).toList = edges.filter s.references.accepts)
    (hdesk : s'.desk = s.desk.tell notice?) : Takes edges units s s' := by
  refine ⟨hreferences, hunits, notice?.toList, ?_, ?_⟩
  · rw [← hnotice]
    cases notice? with
    | none => rfl
    | some n => cases h : n.edge? <;> simp [h]
  · rw [hdesk]
    cases notice? with
    | none => cases h : s.desk.open? <;> simp [h, FeedDesk.tell, Feed.sendAll]
    | some n => exact FeedDesk.open?_notify _ n

end

variable (s : Session)

theorem takes_refl : Takes [] [] s s := .of_notice none rfl rfl rfl rfl

/-- A form is neither a reference nor a unit. -/
theorem takes_captureForm (e : FormEvent) : Takes [] [] s (s.captureForm e).value := by
  rw [value_captureForm]
  refine .of_notice (s.noticeOf? (.form e)) rfl rfl ?_ rfl
  by_cases h : s.forms.accepts e <;> simp [noticeOf?, h, Notice.edge?]

/-- A reference is taken as one more edge. -/
theorem takes_captureReference (e : Edge) : Takes [e] [] s (s.captureReference e).value := by
  rw [value_captureReference]
  refine .of_notice (s.noticeOf? (.reference e)) rfl rfl ?_ rfl
  by_cases h : s.references.accepts e <;> simp [noticeOf?, h, Notice.edge?]

/-- A unit is taken as one more unit. -/
theorem takes_captureUnit (name : String) (bytes : Bytes) :
    Takes [] [(name, bytes)] s (s.captureUnit name bytes).value := by
  rw [value_captureUnit]
  refine .of_notice (s.noticeOf? (.unit name bytes)) rfl rfl ?_ rfl
  by_cases h : s.units.accepts name <;> simp [noticeOf?, h, Notice.edge?]

/-- A buffer that is switched off takes no reference. -/
theorem takes_disabled {s : Session} (h : s.references.enabled = false) (edges : List Edge) :
    Takes edges [] s s := by
  have haccepts (e : Edge) : s.references.accepts e = false := by
    rw [ReferenceBuffer.accepts, h]
    rfl
  refine .of_notice none ?_ rfl ?_ rfl
  · induction edges with
    | nil => rfl
    | cons e rest ih =>
      rw [List.foldl_cons, ReferenceBuffer.capture, if_neg (by simp [haccepts e])]
      exact ih
  · exact (List.filter_eq_nil_iff.mpr fun e _ => by simp [haccepts e]).symm

/-- A buffer that is switched off takes no unit. -/
theorem takes_units_disabled {s : Session} (h : s.units.enabled = false) (name : String)
    (bytes : Bytes) : Takes [] [(name, bytes)] s s := by
  have haccepts : s.units.accepts name = false := by
    rw [UnitBuffer.accepts, h]
    rfl
  refine .of_notice none rfl ?_ rfl rfl
  show _ = s.units.take (name, bytes)
  rw [UnitBuffer.take, UnitBuffer.capture, if_neg (by simp [haccepts])]
  rfl

end Session

end CompileWatch
