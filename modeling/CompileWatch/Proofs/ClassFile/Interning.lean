import CompileWatch.Proofs.ClassFile.PoolMeaning
import CompileWatch.Proofs.ClassFile.PoolReading
import Mathlib.Data.List.Dedup

/-!
# Numbers that keep their meaning

Asking for constants gives every constant a number of its own, whose meaning is the constant that
was asked for, then and ever after.

- `PoolBuilder.internAll`: constants that are asked for in a row.
- `PoolBuilder.layout`: the constants of a pool as they are stored.
- `PoolBuilder.means_number`: a number means the constant that it was given to.
- `PoolBuilder.Consistent`: the map, the bytes and the next number of a pool tell the same.
- `PoolBuilder.internAll_faithful`: numbers are faithful after every run.
-/

namespace CompileWatch

open Read

/-! ### Calls -/

/-- The texts that a constant is asked for with. -/
def PoolEntry.texts : PoolEntry → List String
  | .utf8 text | .classEntry text | .string text => [text]
  | .integer _ | .long _ => []
  | .nameAndType name descriptor => [name, descriptor]
  | .member _ owner name descriptor => [owner, name, descriptor]

theorem PoolEntry.mem_texts {e : PoolEntry} {text : String} (h : .utf8 text ∈ e.parts) :
    text ∈ e.texts := by
  cases e with
  | integer value | long value => simp [parts, before, refs] at h
  | _ => simpa [parts, before, refs, texts] using h

namespace PoolBuilder

open StoredConstant (StandsAt Means)

variable {e e' x : PoolEntry} {es es' : List PoolEntry} {p : PoolBuilder}

/-- The format has room for what some calls ask for: for the numbers of the different constants
that they need, and for the length of every text. -/
structure RoomFor (requests : List PoolEntry) : Prop where
  slots : slotsOf (requests.flatMap PoolEntry.parts).dedup ≤ 65534
  texts : ∀ e ∈ requests, ∀ text ∈ e.texts, text.utf8ByteSize ≤ 65535

/-- Constants that are asked for in a row from the start: their numbers, and the pool after them. -/
def internAll (requests : List PoolEntry) : List Nat × PoolBuilder := requests.mapM intern {}

/-- The calls of a run, each with its number. -/
def numbered (requests : List PoolEntry) : List (PoolEntry × Nat) :=
  requests.zip (internAll requests).1

/-- Constants that are interned in a row get their numbers in the table that all of them leave. -/
theorem mapM_intern (hp : Stores p es) (l : List PoolEntry) :
    (l.mapM intern p).1 = l.map (number (after es l)) ∧
      Stores (l.mapM intern p).2 (after es l) := by
  induction l generalizing p es with
  | nil => exact ⟨rfl, hp⟩
  | cons e rest ih =>
    obtain ⟨hnumber, hstores⟩ := interns_intern e p es hp
    obtain ⟨hnumbers, hall⟩ := ih hstores
    have hmem : e ∈ after es [e] := mem_after List.mem_cons_self e.mem_parts
    rw [List.mapM_cons, show e :: rest = [e] ++ rest from rfl, after_append]
    refine ⟨?_, hall⟩
    show (intern e p).1 :: (rest.mapM intern (intern e p).2).1 = _
    rw [hnumbers, hnumber, ← number_extend (prefix_after _ rest) hmem]
    rfl

/-! ### Room -/

/-- The slots of constants do not depend on their order. -/
theorem slotsOf_perm (h : es.Perm es') : slotsOf es = slotsOf es' := by
  induction h with
  | nil => rfl
  | cons e _ ih => rw [slotsOf, slotsOf, ih]
  | swap e e' rest => rw [slotsOf, slotsOf, slotsOf, slotsOf, Nat.add_left_comm]
  | trans _ _ ih ih' => rw [ih, ih']

/-- In whatever order the constants are stored, they fit. -/
theorem RoomFor.fits {requests : List PoolEntry} (h : RoomFor requests) :
    Fits (after [] requests) where
  slots := by
    have hperm : (after [] requests).Perm (requests.flatMap PoolEntry.parts).dedup := by
      refine (List.perm_ext_iff_of_nodup (nodup_adding List.nodup_nil _) (List.nodup_dedup _)).mpr ?_
      intro x
      rw [List.mem_dedup]
      exact mem_adding.trans (or_iff_right List.not_mem_nil)
    rw [slotsOf_perm hperm]
    exact h.slots
  texts := by
    intro x hx
    cases x with
    | utf8 text =>
      rcases mem_adding.mp hx with hx | hx
      · exact (List.not_mem_nil hx).elim
      · obtain ⟨e, he, hpart⟩ := List.mem_flatMap.mp hx
        exact h.texts e he text (PoolEntry.mem_texts hpart)
    | _ => exact Nat.zero_le _

/-- An earlier table fits if a later one does. -/
theorem Fits.earlier (h : Fits es') (hextend : es <+: es') : Fits es where
  slots := by
    obtain ⟨rest, rfl⟩ := hextend
    have := h.slots
    rw [slotsOf_append] at this
    omega
  texts e he := h.texts e (hextend.subset he)

/-! ### Numbers in order -/

/-- The place of a constant is among the slots. -/
theorem place_le (h : e ∈ es) : place es e ≤ slotsOf es := by
  obtain ⟨first, rest, rfl, hplace⟩ := exists_place_eq h
  have := e.one_le_slots
  rw [hplace, slotsOf_append, slotsOf]
  omega

/-- No two constants have the same place. -/
theorem place_inj (he : e ∈ es) (he' : e' ∈ es) (h : place es e = place es e') : e = e' := by
  obtain ⟨first, rest, rfl, hplace⟩ := exists_place_eq he
  obtain ⟨first', rest', hsplit, hplace'⟩ := exists_place_eq he'
  refine eq_of_split_eq slotsOf_append ?_ hsplit (by omega)
  intro x others
  exact Nat.add_pos_left x.one_le_slots _

/-- A constant has a higher number than those that it refers to. -/
theorem number_lt_number (hf : Fits es) (ho : Ordered es) (he : e ∈ es) (hx : x ∈ e.before) :
    number es x < number es e := by
  obtain ⟨first, rest, hsplit, hplace⟩ := exists_place_eq he
  have hfirst := ho first e rest hsplit x hx
  have hmem : x ∈ es := by
    rw [hsplit]
    exact List.mem_append_left _ hfirst
  have hlt : place es x < place es e := by
    rw [hplace, hsplit, place_append hfirst]
    exact Nat.lt_one_add_iff.mpr (place_le hfirst)
  rwa [number_eq_place hf hmem, number_eq_place hf he]

/-! ### What is stored -/

/-- A constant as it is stored among others; of a text as much as its length can say. -/
def asStored (es : List PoolEntry) : PoolEntry → StoredConstant
  | .utf8 text => .text ((Utf8.encode text).take 65535) (List.length_take_le _ _)
  | .classEntry name => .classEntry (UInt16.ofNat (number es (.utf8 name)))
  | .string text => .passed .string ⟨(bytesOf16 (number es (.utf8 text))).toArray, rfl⟩
  | .integer value => .passed .integer ⟨(bytesOfInt32 value).toArray, rfl⟩
  | .long value => .wide .long ⟨(bytesOfInt64 value).toArray, rfl⟩
  | .nameAndType name descriptor =>
    .passed .nameAndType ⟨(bytesOf16 (number es (.utf8 name)) ++
      bytesOf16 (number es (.utf8 descriptor))).toArray, rfl⟩
  | .member kind owner name descriptor =>
    .member kind (UInt16.ofNat (number es (.classEntry owner)))
      (UInt16.ofNat (number es (.nameAndType name descriptor)))

/-- The constants of a pool as they are stored. -/
def layout (es : List PoolEntry) : List StoredConstant := es.map (asStored es)

/-- The number of a constant has 16 bits. -/
theorem toNat_number (es : List PoolEntry) (e : PoolEntry) :
    (UInt16.ofNat (number es e)).toNat = number es e := UInt16.toNat_ofNat_of_lt' (number_lt es e)

/-- A text is stored as its bytes, with their length. -/
theorem asStored_utf8 {text : String} (h : text.utf8ByteSize ≤ 65535) (es : List PoolEntry) :
    ∃ short, asStored es (.utf8 text) = .text (Utf8.encode text) short := by
  have hlength : (Utf8.encode text).length ≤ 65535 := by rwa [Utf8.length_encode]
  refine ⟨hlength, ?_⟩
  simp only [asStored, List.take_of_length_le hlength]

/-- A constant is stored as the bytes that the builder writes. -/
theorem encode_asStored (h : e.textSize ≤ 65535) (es : List PoolEntry) :
    (asStored es e).encode = encoded es e := by
  cases e with
  | utf8 text =>
    obtain ⟨short, hstored⟩ := asStored_utf8 h es
    have hclamp : clamp16 text.utf8ByteSize = (Utf8.encode text).length := by
      rw [clamp16, Utf8.length_encode]
      exact Nat.min_eq_left h
    rw [hstored, encoded, PoolEntry.content, hclamp]
    exact congrArg _ (List.append_nil _).symm
  | classEntry name =>
    show 7 :: bytesOf16 (UInt16.ofNat _).toNat = 7 :: (bytesOf16 _ ++ [])
    rw [toNat_number, List.append_nil]
  | member kind owner name descriptor =>
    show kind.tag :: (bytesOf16 (UInt16.ofNat _).toNat ++ bytesOf16 (UInt16.ofNat _).toNat) =
      kind.tag :: (bytesOf16 _ ++ (bytesOf16 _ ++ []))
    rw [toNat_number, toNat_number, List.append_nil]
  | string text => rfl
  | integer value => rfl
  | long value => rfl
  | nameAndType name descriptor => rfl

/-- A constant takes as many slots in the file as it does in the builder. -/
theorem slotsOf_map_asStored (es l : List PoolEntry) :
    StoredConstant.slotsOf (l.map (asStored es)) = slotsOf l := by
  induction l with
  | nil => rfl
  | cons e rest ih =>
    have hslots : (asStored es e).slots = e.slots := by cases e <;> rfl
    rw [List.map_cons, StoredConstant.slotsOf, ih, hslots, slotsOf]

/-- Later constants change nothing in a constant whose references are there. -/
theorem asStored_append (h : ∀ x ∈ e.before, x ∈ es) (later : List PoolEntry) :
    asStored (es ++ later) e = asStored es e := by
  have hsame : ∀ x ∈ e.before, number (es ++ later) x = number es x :=
    fun x hx => number_extend (List.prefix_append es later) (h x hx)
  cases e with
  | utf8 | integer | long => rfl
  | classEntry | string => simp only [asStored, hsame _ List.mem_cons_self]
  | nameAndType name descriptor =>
    have hname := hsame (.utf8 name) List.mem_cons_self
    have hdescriptor := hsame (.utf8 descriptor) (by simp [PoolEntry.before, PoolEntry.refs])
    simp only [asStored, hname, hdescriptor]
  | member kind owner name descriptor =>
    have hclass := hsame (.classEntry owner) (by simp [PoolEntry.before])
    have htype := hsame (.nameAndType name descriptor) (by simp [PoolEntry.before])
    simp only [asStored, hclass, htype]

/-- Further constants are laid out behind those before. -/
theorem layout_extend (ho : Ordered es) (h : es <+: es') : layout es <+: layout es' := by
  obtain ⟨later, rfl⟩ := h
  have hsame : es.map (asStored (es ++ later)) = layout es :=
    List.map_congr_left fun e he => asStored_append (fun _ => ho.mem he) later
  exact ⟨later.map (asStored (es ++ later)), by rw [← hsame, layout, List.map_append]⟩

/-- A constant stands at its number. -/
theorem standsAt_number (hf : Fits es) (he : e ∈ es) :
    StandsAt (layout es) (asStored es e) (number es e) := by
  obtain ⟨first, rest, hsplit, hplace⟩ := exists_place_eq he
  refine ⟨first.map (asStored es), rest.map (asStored es), ?_, ?_⟩
  · calc
      layout es = (first ++ e :: rest).map (asStored es) :=
        congrArg (List.map (asStored es)) hsplit
      _ = _ := List.map_append
  · rw [number_eq_place hf he, hplace, slotsOf_map_asStored]

/-- Whatever stands at a number is the constant that the number was given to. -/
theorem exists_of_standsAt {c : StoredConstant} {index : Nat} (hf : Fits es) (hn : es.Nodup)
    (h : StandsAt (layout es) c index) : ∃ e ∈ es, number es e = index := by
  obtain ⟨first, rest, hsplit, rfl⟩ := h
  obtain ⟨before, others, hes, rfl, hrest⟩ := List.map_eq_append_iff.mp hsplit
  obtain ⟨e, behind, rfl, -, -⟩ := List.map_eq_cons_iff.mp hrest
  have he : e ∈ es := by simp [hes]
  have hfirst : e ∉ before := by
    rw [hes] at hn
    exact fun hmem => (List.nodup_append.mp hn).2.2 e hmem e List.mem_cons_self rfl
  refine ⟨e, he, ?_⟩
  have hcons : before ++ e :: behind = (before ++ [e]) ++ behind := by simp
  rw [number_eq_place hf he, slotsOf_map_asStored, hes, hcons,
    place_append (List.mem_append_right _ List.mem_cons_self), place_append_self hfirst]

/-- A number means the constant that it was given to. -/
theorem means_number (hf : Fits es) (ho : Ordered es) (he : e ∈ es) :
    Means (layout es) (number es e) e := by
  induction hn : number es e using Nat.strongRecOn generalizing e with
  | ind n ih =>
    -- what a constant refers to has a lower number
    have href : ∀ x ∈ e.before, (UInt16.ofNat (number es x)).toNat < n ∧
        Means (layout es) (UInt16.ofNat (number es x)).toNat x := by
      intro x hx
      have hlt : number es x < n := hn ▸ number_lt_number hf ho he hx
      rw [toNat_number]
      exact ⟨hlt, ih _ hlt (ho.mem he hx) rfl⟩
    have hbytes (x : PoolEntry) :
        bytesOf16 (number es x) = bytesOf16 (UInt16.ofNat (number es x)).toNat := by
      rw [toNat_number]
    have hat := standsAt_number hf he
    rw [hn] at hat
    cases e with
    | utf8 text =>
      obtain ⟨short, hstored⟩ := asStored_utf8 (hf.texts _ he) es
      rw [hstored] at hat
      exact .utf8 hat
    | integer value => exact .integer hat rfl
    | long value => exact .long hat rfl
    | classEntry name =>
      obtain ⟨hlt, hname⟩ := href (.utf8 name) List.mem_cons_self
      exact .classEntry hat hlt hname
    | string text =>
      obtain ⟨hlt, htext⟩ := href (.utf8 text) List.mem_cons_self
      exact .string hat (hbytes _) hlt htext
    | nameAndType name descriptor =>
      obtain ⟨hn, hname⟩ := href (.utf8 name) List.mem_cons_self
      obtain ⟨hd, hdescriptor⟩ :=
        href (.utf8 descriptor) (by simp [PoolEntry.before, PoolEntry.refs])
      exact .nameAndType hat (congr_arg₂ (· ++ ·) (hbytes _) (hbytes _)) hn hname hd hdescriptor
    | member kind owner name descriptor =>
      obtain ⟨hc, hclass⟩ := href (.classEntry owner) (by simp [PoolEntry.before])
      obtain ⟨ht, htype⟩ := href (.nameAndType name descriptor) (by simp [PoolEntry.before])
      exact .member hat hc hclass ht htype

/-! ### The map, the bytes and the next number -/

/-- The map, the bytes and the next number of a pool tell the same. -/
structure Consistent (p : PoolBuilder) (cs : List StoredConstant) : Prop where
  bytes : p.bytes = cs.flatMap StoredConstant.encode
  next : p.nextIndex = StoredConstant.slotsOf cs + 1
  means : ∀ {e : PoolEntry} {n}, p.interned[e]? = some n → Means cs n e
  meansOnly : ∀ {e e' : PoolEntry} {n}, p.interned[e]? = some n → Means cs n e' →
    e.Representable → e'.Representable → e = e'
  injective : ∀ {e e' : PoolEntry} {n}, p.interned[e]? = some n → p.interned[e']? = some n → e = e'
  precedes : ∀ {e : PoolEntry} {n}, p.interned[e]? = some n →
    ∀ x ∈ e.refs, ∃ m < n, p.interned[x]? = some m
  nothingElse : ∀ {c n}, StandsAt cs c n → ∃ e : PoolEntry, p.interned[e]? = some n

/-- The builder remembers the number of each constant that is stored, and of no other. -/
theorem Stores.interned_iff (hp : Stores p es) {n : Nat} :
    p.interned[e]? = some n ↔ e ∈ es ∧ number es e = n := by
  rw [hp.interned, Option.ite_none_right_eq_some, Option.some_inj]

/-- A builder that stores constants once each, and in order, is consistent. -/
theorem Stores.consistent (hp : Stores p es) (hf : Fits es) (ho : Ordered es) (hn : es.Nodup) :
    Consistent p (layout es) where
  bytes := by
    have hencoded : es.map (encoded es) = (layout es).map StoredConstant.encode := by
      rw [layout, List.map_map]
      exact List.map_congr_left fun e he => (encode_asStored (hf.texts e he) es).symm
    rw [bytes, hp.chunks, hencoded, List.flatMap_def]
  next := by
    have := hf.slots
    rw [hp.next, layout, slotsOf_map_asStored, clamp16]
    omega
  means := by
    intro e n h
    obtain ⟨he, rfl⟩ := hp.interned_iff.mp h
    exact means_number hf ho he
  meansOnly := by
    intro e e' n h hmeans
    obtain ⟨he, rfl⟩ := hp.interned_iff.mp h
    exact (means_number hf ho he).unique hmeans
  injective := by
    intro e e' n h h'
    obtain ⟨he, hnumber⟩ := hp.interned_iff.mp h
    obtain ⟨he', hnumber'⟩ := hp.interned_iff.mp h'
    refine place_inj he he' ?_
    rw [← number_eq_place hf he, ← number_eq_place hf he', hnumber, hnumber']
  precedes := by
    intro e n h x hx
    obtain ⟨he, rfl⟩ := hp.interned_iff.mp h
    have hbefore := PoolEntry.refs_subset_before hx
    exact ⟨_, number_lt_number hf ho he hbefore, hp.interned_iff.mpr ⟨ho.mem he hbefore, rfl⟩⟩
  nothingElse := by
    intro c n h
    obtain ⟨e, he, hnumber⟩ := exists_of_standsAt hf hn h
    exact ⟨e, hp.interned_iff.mpr ⟨he, hnumber⟩⟩

/-! ### Runs -/

section Runs

variable {requests : List PoolEntry}

/-- After requests in a row, the builder stores what they ask for. -/
theorem stores_internAll (requests : List PoolEntry) :
    Stores (internAll requests).2 (after [] requests) := (mapM_intern stores_empty requests).2

/-- Each request is answered with the number in the table that is left in the end. -/
theorem fst_internAll (requests : List PoolEntry) :
    (internAll requests).1 = requests.map (number (after [] requests)) :=
  (mapM_intern stores_empty requests).1

theorem numbered_eq (requests : List PoolEntry) :
    numbered requests = requests.map fun e => (e, number (after [] requests) e) := by
  rw [numbered, fst_internAll]
  exact List.map_prod_left_eq_zip.symm

/-- A request has the number that the table behind all requests gives it. -/
theorem mem_numbered {n : Nat} :
    (e, n) ∈ numbered requests ↔ e ∈ requests ∧ number (after [] requests) e = n := by
  rw [numbered_eq, List.mem_map]
  constructor
  · rintro ⟨x, hx, h⟩
    cases h
    exact ⟨hx, rfl⟩
  · rintro ⟨he, rfl⟩
    exact ⟨e, he, rfl⟩

/-- What a call gives is noted in the map. -/
theorem interned_of_mem_numbered {n : Nat} (h : (e, n) ∈ numbered requests) :
    (internAll requests).2.interned[e]? = some n := by
  obtain ⟨he, hn⟩ := mem_numbered.mp h
  exact (stores_internAll requests).interned_iff.mpr ⟨mem_after he e.mem_parts, hn⟩

/-- If the table fits, the builder is consistent after any requests. -/
theorem consistent_internAll (h : Fits (after [] requests)) :
    Consistent (internAll requests).2 (layout (after [] requests)) :=
  (stores_internAll requests).consistent h (ordered_after requests) (nodup_adding List.nodup_nil _)

/-- Later calls change no number. -/
theorem numbered_extend {earlier : List PoolEntry} (h : earlier <+: requests) :
    numbered earlier <+: numbered requests := by
  obtain ⟨later, rfl⟩ := h
  have hsame : earlier.map (fun e => (e, number (after [] (earlier ++ later)) e)) =
      numbered earlier := by
    rw [numbered_eq]
    refine List.map_congr_left fun e he => ?_
    rw [after_append, number_extend (prefix_after _ later) (mem_after he e.mem_parts)]
  exact ⟨_, by rw [numbered_eq (earlier ++ later), List.map_append, hsame]⟩

/-- Further requests leave what was stored before in its place. -/
theorem after_extend {earlier : List PoolEntry} (h : earlier <+: requests) :
    after [] earlier <+: after [] requests := by
  obtain ⟨later, rfl⟩ := h
  rw [after_append]
  exact prefix_after _ later

/-- The bytes of a pool are read, behind the number that ends it. -/
theorem Consistent.reads {cs : List StoredConstant} (h : Consistent p cs)
    (hslots : StoredConstant.slotsOf cs ≤ 65534) :
    Reads ConstantPool.read (bytesOf16 p.nextIndex ++ p.bytes) (StoredConstant.table cs) := by
  rw [h.next, h.bytes]
  exact StoredConstant.reads_table hslots

/-- Asking for constants gives each a number of its own, which keeps its meaning. After any calls
that the format has room for, in any order, the map, the bytes and the next number of the pool tell
the same, and every constant stands behind those that it refers to. Two calls gave the same number
exactly if they asked for the same constant. The numbers, and what they mean, were the same after
every earlier call. The bytes are read as a pool in which every lookup finds what was asked for. -/
theorem internAll_faithful (requests : List PoolEntry) (h : RoomFor requests) :
    ∃ cs pool, Consistent (internAll requests).2 cs ∧
      (internAll requests).1.length = requests.length ∧
      (∀ c ∈ numbered requests, (internAll requests).2.interned[c.1]? = some c.2 ∧
        ∀ d ∈ numbered requests, c.2 = d.2 ↔ c.1 = d.1) ∧
      (∀ earlier, earlier <+: requests → numbered earlier <+: numbered requests ∧
        ∃ first, first <+: cs ∧ Consistent (internAll earlier).2 first ∧
          ∀ c ∈ numbered earlier, ∀ e, Means first c.2 e ↔ Means cs c.2 e) ∧
      Reads ConstantPool.read
        (bytesOf16 (internAll requests).2.nextIndex ++ (internAll requests).2.bytes) pool ∧
      ∀ c ∈ numbered requests, ∀ kind, pool.lookup kind c.2 = c.1.found c.2 kind := by
  have hfits := h.fits
  have hall := consistent_internAll hfits
  refine ⟨layout (after [] requests), StoredConstant.table (layout (after [] requests)), hall,
    ?_, ?_, ?_, hall.reads ?_, ?_⟩
  · rw [fst_internAll, List.length_map]
  · rintro ⟨e, n⟩ hc
    have he := interned_of_mem_numbered hc
    refine ⟨he, ?_⟩
    rintro ⟨e', n'⟩ hd
    have he' := interned_of_mem_numbered hd
    constructor
    · rintro rfl
      exact hall.injective he he'
    · rintro rfl
      exact Option.some.inj (he.symm.trans he')
  · intro earlier hearlier
    have hextend := after_extend hearlier
    have hfirst := consistent_internAll (hfits.earlier hextend)
    have hlayout := layout_extend (ordered_after earlier) hextend
    refine ⟨numbered_extend hearlier, _, hlayout, hfirst, ?_⟩
    rintro ⟨e, n⟩ hc e'
    have hle := (hfirst.means (interned_of_mem_numbered hc)).le
    obtain ⟨later, hlater⟩ := hlayout
    rw [← hlater]
    exact (StoredConstant.means_append_iff later hle).symm
  · rw [layout, slotsOf_map_asStored]
    exact hfits.slots
  · rintro ⟨e, n⟩ hc kind
    exact (StoredConstant.resolves_table _).lookup_eq
      (hall.means (interned_of_mem_numbered hc)) kind

/-- Calls for constants that are there already, as parts of others or on their own. -/
def repeatedRequests : List PoolEntry :=
  [.member .method "A" "f" "()V", .long 7, .classEntry "A", .string "A",
    .member .method "A" "f" "()V", .utf8 "f", .member .field "A" "f" "()V"]

/-- Two of the requests are made again and get the numbers that they got before. -/
theorem internAll_faithful_repeatedRequests :
    RoomFor repeatedRequests ∧ (internAll repeatedRequests).1 = [6, 7, 2, 9, 6, 3, 10] ∧
      ∃ pool, Reads ConstantPool.read (bytesOf16 11 ++ (internAll repeatedRequests).2.bytes) pool ∧
        pool.memberOwner 6 = .ok "A" ∧ pool.className 2 = .ok "A" ∧ pool.utf8 3 = .ok "f" ∧
        pool.memberOwner 10 = .ok "A" ∧ pool.utf8 9 = .error (.unexpectedConstant 9 .utf8) := by
  have hroom : RoomFor repeatedRequests := ⟨by decide +kernel, by decide +kernel⟩
  -- the map hashes texts, which nothing evaluates here: the numbers follow from the order
  have hnumbers : (internAll repeatedRequests).1 = [6, 7, 2, 9, 6, 3, 10] := by
    rw [fst_internAll]
    decide +kernel
  have hnext : (internAll repeatedRequests).2.nextIndex = 11 := by
    rw [(stores_internAll repeatedRequests).next]
    decide +kernel
  obtain ⟨cs, pool, -, -, -, -, hread, hfound⟩ := internAll_faithful repeatedRequests hroom
  rw [hnext] at hread
  rw [numbered, hnumbers] at hfound
  refine ⟨hroom, hnumbers, pool, hread, ?_, ?_, ?_, ?_, ?_⟩
  · exact hfound (.member .method "A" "f" "()V", 6) (by decide +kernel) .member
  · exact hfound (.classEntry "A", 2) (by decide +kernel) .classEntry
  · exact hfound (.utf8 "f", 3) (by decide +kernel) .utf8
  · exact hfound (.member .field "A" "f" "()V", 10) (by decide +kernel) .member
  · exact hfound (.string "A", 9) (by decide +kernel) .utf8

end Runs

end PoolBuilder

end CompileWatch
