import CompileWatch.Proofs.Reading.Acceptance
import CompileWatch.Proofs.Reading.Composition

/-!
# The rest of a source further down

What is read of the rest of a source depends on where it stands, and on where the open brackets
stand, by the lines alone: further down, and on top of unfinished forms that are the same but for
their lines, it is read as forms that are the same but for their lines.

- `Form.unplaced`, `Pile.unplaced`: forms and unfinished forms without lines.
- `Spells.moveDown`: what is spelled further down.
- `Pile.exists_pushAll`: forms reach piles that are the same but for lines.
- `Reader.exists_readRest`: the rest of a source.
-/

namespace CompileWatch

/-! ### Forms without lines -/

/-- The flags, without a place. -/
def Metadata.unplaced (m : Metadata) : Metadata := { flags := m.flags }

namespace Form

mutual

/-- A form with all lines in it left out. -/
def unplaced : Form → Form
  | .symbol s => .symbol { s with metadata := s.metadata.unplaced }
  | .list items m => .list (unplacedAll items) m.unplaced
  | .vector items m => .vector (unplacedAll items) m.unplaced
  | .map items => .map (unplacedAll items)
  | .set items => .set (unplacedAll items)
  | f => f

/-- Forms with all lines in them left out. -/
def unplacedAll : List Form → List Form
  | [] => []
  | f :: rest => unplaced f :: unplacedAll rest

end

/-- Lines are forgotten form by form. -/
theorem unplacedAll_eq_map (l : List Form) : unplacedAll l = l.map unplaced := by
  induction l with
  | nil => rfl
  | cons f rest ih => rw [unplacedAll, List.map_cons, ih]

mutual

/-- A form that is moved down is the same but for its lines. -/
theorem unplaced_moveDown (n : Nat) (f : Form) : (f.moveDown n).unplaced = f.unplaced := by
  cases f with
  | list items m => exact congrArg (list · m.unplaced) (unplacedAll_moveDownAll n items)
  | vector items m => exact congrArg (vector · m.unplaced) (unplacedAll_moveDownAll n items)
  | map items => exact congrArg map (unplacedAll_moveDownAll n items)
  | set items => exact congrArg set (unplacedAll_moveDownAll n items)
  | _ => rfl

theorem unplacedAll_moveDownAll (n : Nat) (l : List Form) :
    unplacedAll (moveDownAll n l) = unplacedAll l := by
  cases l with
  | nil => rfl
  | cons f rest =>
    rw [moveDownAll, unplacedAll, unplacedAll, unplaced_moveDown n f,
      unplacedAll_moveDownAll n rest]

end

theorem map_unplaced_moveDown (n : Nat) (l : List Form) :
    (l.map (moveDown n)).map unplaced = l.map unplaced := by
  rw [List.map_map]
  exact List.map_congr_left fun f _ => unplaced_moveDown n f

end Form

/-! ### What is spelled further down -/

/-- What is spelled somewhere is spelled below other characters, further down. -/
theorem Spells.moveDown {before text : List Char} {forms : List Form} (h : Spells before text forms)
    (above : List Char) :
    Spells (above ++ before) text (forms.map (Form.moveDown (above.count '\n'))) := by
  have hline (before : List Char) :
      lineAfter (above ++ before) = lineAfter before + above.count '\n' := by
    rw [lineAfter, lineAfter, List.count_append]
    omega
  induction h with
  | done => exact .done
  | blank hc h ih =>
    rw [← List.append_assoc] at ih
    exact .blank hc ih
  | comment hcomment h ih =>
    rw [← List.append_assoc] at ih
    exact .comment hcomment ih
  | word hword hf hends h ih =>
    rw [← List.append_assoc] at ih
    exact .word hword (by rw [hline, atomOfWord_moveDown, hf]; rfl) hends ih
  | keyword hname hends h ih =>
    rw [← List.append_assoc] at ih
    exact .keyword hname hends ih
  | character hmore hf hends h ih =>
    rw [← List.append_assoc] at ih
    exact .character hmore (by rw [hline, characterOfName_moveDown, hf]; rfl) hends ih
  | string hwritten h ih =>
    rw [← List.append_assoc] at ih
    exact .string hwritten ih
  | bracket hitems hf h ihItems ih =>
    rw [← List.append_assoc] at ih ihItems
    refine .bracket ihItems ?_ ih
    rw [List.append_assoc, hline, hline, Frame.close_moveDown, hf]
    rfl
  | quote h ih =>
    rw [← List.append_assoc] at ih
    exact .quote ih
  | @metadata _ _ m f g flags _ hflags hg h ih =>
    rw [← List.append_assoc] at ih
    have hmoved : Frame.addFlags? flags (f.moveDown (above.count '\n')) =
        some (g.moveDown (above.count '\n')) := by
      rw [Frame.addFlags?_moveDown, hg]
      rfl
    exact .metadata ((Frame.flagsOf?_moveDown m).trans hflags) hmoved ih
  | discard h ih =>
    rw [← List.append_assoc] at ih
    exact .discard ih

/-! ### Unfinished forms without lines -/

/-- An unfinished form with all lines in it left out. -/
def Frame.unplaced : Frame → Frame
  | .bracket b _ items => .bracket b 0 (items.map Form.unplaced)
  | .metadata _ => .metadata 0
  | .flags _ set => .flags 0 set
  | frame => frame

/-- A pile with all lines in it left out. -/
def Pile.unplaced (p : Pile) : Pile := ⟨p.frames.map Frame.unplaced, p.forms.map Form.unplaced⟩

namespace Frame

theorem trueKeys_unplaced (items : List Form) :
    trueKeys (items.map Form.unplaced) = trueKeys items :=
  trueKeys_map (fun f _ => by cases f <;> simp [Form.unplaced])
    (fun f _ => by cases f <;> simp [Form.unplaced]) items

/-- The flags that a form stands for do not depend on lines. -/
theorem flagsOf?_unplaced (f : Form) : flagsOf? f.unplaced = flagsOf? f := by
  cases f with
  | map items =>
    rw [Form.unplaced, Form.unplacedAll_eq_map, flagsOf?, trueKeys_unplaced]
    rfl
  | _ => rfl

/-- Flags are added wherever the form stands. -/
theorem addFlags?_unplaced (set : List String) (f : Form) :
    addFlags? set f.unplaced = (addFlags? set f).map Form.unplaced := by
  cases f <;> rfl

/-- A bracket that closes elsewhere gives the same form but for the lines. -/
theorem close_unplaced {b : Bracket} {line endLine : Nat} {items items' : List Form} {f : Form}
    (line' endLine' : Nat) (hitems : items'.map Form.unplaced = items.map Form.unplaced)
    (hf : close b line endLine items = .ok f) :
    ∃ f', close b line' endLine' items' = .ok f' ∧ f'.unplaced = f.unplaced := by
  have hall : Form.unplacedAll items' = Form.unplacedAll items := by
    rw [Form.unplacedAll_eq_map, Form.unplacedAll_eq_map, hitems]
  cases b with
  | round =>
    cases hf
    exact ⟨_, rfl, congrArg (Form.list · {}) hall⟩
  | square =>
    cases hf
    exact ⟨_, rfl, congrArg (Form.vector · {}) hall⟩
  | hashCurly =>
    cases hf
    exact ⟨_, rfl, congrArg Form.set hall⟩
  | curly =>
    have hlength : items'.length = items.length := by simpa using congrArg List.length hitems
    rw [close] at hf ⊢
    rw [hlength]
    split at hf
    next heven =>
      cases hf
      rw [if_pos heven]
      exact ⟨_, rfl, congrArg Form.map hall⟩
    next => cases hf

end Frame

/-- An open bracket apart from lines. -/
theorem Frame.exists_of_unplaced_eq {b : Bracket} {start : Nat} {acc : List Form}
    {frames frames' : List Frame}
    (h : frames'.map unplaced = (.bracket b start acc :: frames).map unplaced) :
    ∃ start' acc' rest, frames' = .bracket b start' acc' :: rest ∧
      acc'.map Form.unplaced = acc.map Form.unplaced ∧ rest.map unplaced = frames.map unplaced := by
  obtain ⟨frame, rest, rfl, hframe, hrest⟩ := List.map_eq_cons_iff.mp h
  cases frame with
  | bracket b' start' acc' =>
    obtain ⟨rfl, -, hacc⟩ := Frame.bracket.inj hframe
    exact ⟨start', acc', rest, rfl, hacc, hrest⟩
  | _ => cases hframe

namespace Pile

/-- What lies open is the same but for the lines if its frames and its forms are. -/
theorem exists_of_unplaced_eq {p : Pile} {frames : List Frame} {forms : List Form}
    (h : p.unplaced = unplaced ⟨frames, forms⟩) :
    ∃ frames' forms', p = ⟨frames', forms'⟩ ∧
      frames'.map Frame.unplaced = frames.map Frame.unplaced ∧
      forms'.map Form.unplaced = forms.map Form.unplaced :=
  ⟨p.frames, p.forms, rfl, congrArg Pile.frames h, congrArg Pile.forms h⟩

/-- A form reaches frames without lines as it does with lines. -/
theorem deliver_unplaced (f : Form) (forms : List Form) (frames : List Frame) :
    (deliver f.unplaced (forms.map Form.unplaced) (frames.map Frame.unplaced)).toOption =
      (deliver f forms frames).toOption.map unplaced := by
  induction frames generalizing f with
  | nil => rfl
  | cons frame rest ih =>
    cases frame with
    | quote => exact ih (.call [.sym "quote", f])
    | metadata line =>
      simp only [List.map_cons, Frame.unplaced, deliver, Frame.flagsOf?_unplaced]
      cases Frame.flagsOf? f <;> rfl
    | flags line set =>
      simp only [List.map_cons, Frame.unplaced, deliver, Frame.addFlags?_unplaced]
      cases Frame.addFlags? set f with
      | none => rfl
      | some g => exact ih g
    | afterDiscard => exact ih f
    | _ => rfl

/-- Forms that are the same but for lines reach piles that are. -/
theorem exists_push {p q p' : Pile} {f g : Form} (hp : p.push (.atom f) = .ok p')
    (hpile : q.unplaced = p.unplaced) (hform : g.unplaced = f.unplaced) :
    ∃ q', q.push (.atom g) = .ok q' ∧ q'.unplaced = p'.unplaced := by
  have hframes : q.frames.map Frame.unplaced = p.frames.map Frame.unplaced :=
    congrArg Pile.frames hpile
  have hforms : q.forms.map Form.unplaced = p.forms.map Form.unplaced := congrArg Pile.forms hpile
  have hdeliver : (deliver g q.forms q.frames).toOption.map unplaced = some p'.unplaced := by
    have hdelivered : deliver f p.forms p.frames = .ok p' := hp
    rw [← deliver_unplaced, hframes, hforms, hform, deliver_unplaced, hdelivered]
    rfl
  rw [push]
  cases hq : deliver g q.forms q.frames with
  | error e =>
    rw [hq] at hdeliver
    cases hdeliver
  | ok q' =>
    rw [hq] at hdeliver
    exact ⟨q', rfl, Option.some.inj hdeliver⟩

/-- Forms in a row are taken alike by readers that are the same but for the lines. -/
theorem exists_pushAll {p q p' : Pile} {forms forms' : List Form} (hp : p.pushAll forms = .ok p')
    (hpile : q.unplaced = p.unplaced)
    (hforms : forms'.map Form.unplaced = forms.map Form.unplaced) :
    ∃ q', q.pushAll forms' = .ok q' ∧ q'.unplaced = p'.unplaced := by
  induction forms generalizing p q forms' with
  | nil =>
    obtain rfl := Except.ok.inj hp
    obtain rfl := List.map_eq_nil_iff.mp hforms
    exact ⟨q, rfl, hpile⟩
  | cons f rest ih =>
    obtain ⟨g, rest', rfl, hg, hrest⟩ := List.map_eq_cons_iff.mp hforms
    rw [pushAll_cons] at hp
    obtain ⟨p₁, hpush, hp⟩ := exists_of_bind_eq_ok hp
    obtain ⟨q₁, hpush', hpile₁⟩ := exists_push hpush hpile hg
    obtain ⟨q', hq, hpile'⟩ := ih hp hpile₁ hrest
    refine ⟨q', ?_, hpile'⟩
    rw [pushAll_cons, hpush']
    exact hq

end Pile

/-! ### The rest of a source -/

namespace Reader

/-- The rest of a source is read further down, and on top of unfinished forms that are the same but
for lines, as forms that are the same but for lines. -/
theorem exists_readRest (cs before above : List Char) {p q : Pile} {result : List Form}
    (h : (Reader.mk (lineAfter before) .idle p).readRest cs = .ok result)
    (hpile : q.unplaced = p.unplaced) :
    ∃ result', (Reader.mk (lineAfter (above ++ before)) .idle q).readRest cs = .ok result' ∧
      result'.map Form.unplaced = result.map Form.unplaced := by
  obtain ⟨text, tail, forms, p', hcs, hspells, hall, hsettles⟩ :=
    spelledOut_of_readRest cs before p result h
  obtain ⟨q', hall', hpile'⟩ := Pile.exists_pushAll hall hpile
    (Form.map_unplaced_moveDown (above.count '\n') forms)
  have hends : EndsName tail := by
    cases hsettles with
    | ended htail => exact htail.endsName
    | closed _ _ => exact endsName_closer _ _
  rw [hcs, (hspells.moveDown above).readsAs q hends, hall']
  show ∃ result', (Reader.mk (lineAfter (above ++ before ++ text)) .idle q').readRest tail = _ ∧ _
  cases hsettles with
  | @ended tail forms htail =>
    obtain ⟨frames, forms', rfl, hframes, hforms⟩ := Pile.exists_of_unplaced_eq hpile'
    obtain rfl := List.map_eq_nil_iff.mp hframes
    refine ⟨forms'.reverse, readRest_lastComment htail, ?_⟩
    rw [List.map_reverse, List.map_reverse, hforms]
  | @closed b start acc forms frames f rest result hf hrest =>
    obtain ⟨frames', forms', hq, hframes, hforms⟩ := Pile.exists_of_unplaced_eq hpile'
    obtain ⟨start', acc', rest', rfl, hacc, hrest'⟩ := Frame.exists_of_unplaced_eq hframes
    subst hq
    -- the bracket is closed on both sides, and there is less to read after it
    have hitems : acc'.reverse.map Form.unplaced = acc.reverse.map Form.unplaced := by
      rw [List.map_reverse, List.map_reverse, hacc]
    obtain ⟨g, hg, hform⟩ :=
      Frame.close_unplaced start' (lineAfter (above ++ before ++ text)) hitems hf
    obtain ⟨p₁, hpush, hread⟩ := exists_of_bind_eq_ok hrest
    obtain ⟨q₁, hpush', hpile₁⟩ := Pile.exists_push (q := ⟨rest', forms'⟩) hpush
      (by rw [Pile.unplaced, Pile.unplaced, hrest', hforms]) hform
    have hshorter : rest.length < cs.length := by
      rw [hcs, List.length_append, List.length_cons]
      omega
    obtain ⟨result', hread', hresult⟩ := exists_readRest rest (before ++ text) above hread hpile₁
    refine ⟨result', ?_, hresult⟩
    rw [readRest_closer b hg, readAfter, hpush', List.append_assoc]
    exact hread'
termination_by cs.length

end Reader

end CompileWatch
