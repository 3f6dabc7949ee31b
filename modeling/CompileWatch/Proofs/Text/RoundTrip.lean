import CompileWatch.Text.Utf8

/-!
# Texts survive as bytes

The bytes of a text read back as that text: each character is a sequence that the table
of well-formed sequences admits, and no sequence begins inside another.

- `Utf8.encode_eq_flatMap`: the bytes of a text are those of its characters.
- `Utf8.run_encodeChar`: the bytes of a character are read as that character.
- `Utf8.decode_encode`: the round trip.
-/

namespace CompileWatch

namespace Utf8

/-! ### One byte -/

theorem toNat_ofNat {n : Nat} (h : n < 256) : (UInt8.ofNat n).toNat = n :=
  UInt8.toNat_ofNat_of_lt' h

/-- What a leading byte promises, by its number. -/
theorem sequence?_ofNat {n : Nat} (h : n < 256) :
    sequence? (UInt8.ofNat n) =
      if n < 0x80 then some (0, 0x80, 0xBF, n)
      else if n < 0xC2 then none
      else if n < 0xE0 then some (1, 0x80, 0xBF, n - 0xC0)
      else if n < 0xE1 then some (2, 0xA0, 0xBF, n - 0xE0)
      else if n < 0xED then some (2, 0x80, 0xBF, n - 0xE0)
      else if n < 0xEE then some (2, 0x80, 0x9F, n - 0xE0)
      else if n < 0xF0 then some (2, 0x80, 0xBF, n - 0xE0)
      else if n < 0xF1 then some (3, 0x90, 0xBF, n - 0xF0)
      else if n < 0xF4 then some (3, 0x80, 0xBF, n - 0xF0)
      else if n < 0xF5 then some (3, 0x80, 0x8F, n - 0xF0)
      else none := by
  simp [sequence?, UInt8.lt_iff_toNat_lt, toNat_ofNat h]

/-- A byte that stands for a character of its own. -/
theorem run_single {n : Nat} (h : n < 0x80) (rest : Bytes) (out : List Char) :
    run (UInt8.ofNat n :: rest) idle out = run rest idle (Char.ofNat n :: out) := by
  have hs := sequence?_ofNat (show n < 256 by omega)
  rw [if_pos h] at hs
  simp [run, step, start, idle, hs]

/-- A leading byte. -/
theorem run_lead {n due bits : Nat} {low high : UInt8}
    (hs : sequence? (UInt8.ofNat n) = some (due + 1, low, high, bits)) (rest : Bytes)
    (out : List Char) :
    run (UInt8.ofNat n :: rest) idle out = run rest ⟨due + 1, low, high, bits⟩ out := by
  simp [run, step, start, idle, hs]

/-- A byte in the middle of a sequence. -/
theorem run_middle {n due bits : Nat} {low high : UInt8} (h : n < 256) (hl : low.toNat ≤ n)
    (hh : n ≤ high.toNat) (rest : Bytes) (out : List Char) :
    run (UInt8.ofNat n :: rest) ⟨due + 2, low, high, bits⟩ out =
      run rest ⟨due + 1, 0x80, 0xBF, bits * 64 + (n - 0x80)⟩ out := by
  simp [run, step, UInt8.le_iff_toNat_le, Nat.mod_eq_of_lt h, hl, hh]

/-- The last byte of a sequence. -/
theorem run_last {n bits : Nat} {low high : UInt8} (h : n < 256) (hl : low.toNat ≤ n)
    (hh : n ≤ high.toNat) (rest : Bytes) (out : List Char) :
    run (UInt8.ofNat n :: rest) ⟨1, low, high, bits⟩ out =
      run rest idle (Char.ofNat (bits * 64 + (n - 0x80)) :: out) := by
  simp [run, step, UInt8.le_iff_toNat_le, Nat.mod_eq_of_lt h, hl, hh]

/-! ### One character -/

/-- A sequence of two bytes. -/
theorem run_pair {a b bits : Nat} {low high : UInt8}
    (hs : sequence? (UInt8.ofNat a) = some (1, low, high, bits)) (hl : low.toNat ≤ b)
    (hh : b ≤ high.toNat) (rest : Bytes) (out : List Char) :
    run (UInt8.ofNat a :: UInt8.ofNat b :: rest) idle out =
      run rest idle (Char.ofNat (bits * 64 + (b - 0x80)) :: out) := by
  have := high.toNat_lt
  rw [run_lead hs, run_last (by omega) hl hh]

/-- A sequence of three bytes; only the second one has a range of its own. -/
theorem run_triple {a b c bits : Nat} {low high : UInt8}
    (hs : sequence? (UInt8.ofNat a) = some (2, low, high, bits)) (hl : low.toNat ≤ b)
    (hh : b ≤ high.toNat) (hc : 0x80 ≤ c ∧ c ≤ 0xBF) (rest : Bytes) (out : List Char) :
    run (UInt8.ofNat a :: UInt8.ofNat b :: UInt8.ofNat c :: rest) idle out =
      run rest idle (Char.ofNat ((bits * 64 + (b - 0x80)) * 64 + (c - 0x80)) :: out) := by
  have := high.toNat_lt
  rw [run_lead hs, run_middle (by omega) hl hh, run_last (by omega) hc.1 hc.2]

/-- A sequence of four bytes; only the second one has a range of its own. -/
theorem run_quadruple {a b c d bits : Nat} {low high : UInt8}
    (hs : sequence? (UInt8.ofNat a) = some (3, low, high, bits)) (hl : low.toNat ≤ b)
    (hh : b ≤ high.toNat) (hc : 0x80 ≤ c ∧ c ≤ 0xBF) (hd : 0x80 ≤ d ∧ d ≤ 0xBF) (rest : Bytes)
    (out : List Char) :
    run (UInt8.ofNat a :: UInt8.ofNat b :: UInt8.ofNat c :: UInt8.ofNat d :: rest) idle out =
      run rest idle
        (Char.ofNat (((bits * 64 + (b - 0x80)) * 64 + (c - 0x80)) * 64 + (d - 0x80)) :: out) := by
  have := high.toNat_lt
  rw [run_lead hs, run_middle (by omega) hl hh, run_middle (by omega) hc.1 hc.2,
    run_last (by omega) hd.1 hd.2]

/-- The bytes of a character between two sequences are read as that character. The range
of a second byte leaves out what shorter sequences reach, and the surrogates. -/
theorem run_encodeChar (c : Char) (rest : Bytes) (out : List Char) :
    run (String.utf8EncodeChar c ++ rest) idle out = run rest idle (c :: out) := by
  have hv : c.toNat < 0xD800 ∨ 0xDFFF < c.toNat ∧ c.toNat < 0x110000 := c.valid
  have hc : Char.ofNat c.toNat = c := Char.ofNat_toNat c
  unfold String.utf8EncodeChar
  simp only [show c.val.toNat = c.toNat from rfl]
  generalize c.toNat = v at hv hc
  by_cases h1 : v ≤ 0x7F
  · -- one byte
    rw [if_pos h1, List.singleton_append, run_single (by omega), hc]
  rw [if_neg h1]
  by_cases h2 : v ≤ 0x7FF
  · -- two bytes
    have hs := sequence?_ofNat (show v / 64 % 32 + 0xC0 < 256 by omega)
    have hn : (v / 64 % 32 + 0xC0 - 0xC0) * 64 + (v % 64 + 0x80 - 0x80) = v := by omega
    rw [if_neg (by omega), if_neg (by omega), if_pos (by omega)] at hs
    rw [if_pos h2, List.cons_append, List.singleton_append,
      run_pair hs (by simp) (by simp; omega), hn, hc]
  rw [if_neg h2]
  by_cases h3 : v ≤ 0xFFFF
  · -- three bytes; after the first leading byte and before the surrogates the range is narrower
    have hs := sequence?_ofNat (show v / 4096 % 16 + 0xE0 < 256 by omega)
    have hn : ((v / 4096 % 16 + 0xE0 - 0xE0) * 64 + (v / 64 % 64 + 0x80 - 0x80)) * 64 +
      (v % 64 + 0x80 - 0x80) = v := by omega
    have hd : 0x80 ≤ v % 64 + 0x80 ∧ v % 64 + 0x80 ≤ 0xBF := by omega
    rw [if_pos h3]
    rw [if_neg (by omega), if_neg (by omega), if_neg (by omega)] at hs
    show run (_ :: _ :: _ :: rest) idle out = _
    by_cases ha : v / 4096 % 16 + 0xE0 < 0xE1
    · rw [if_pos ha] at hs
      rw [run_triple hs (by simp; omega) (by simp; omega) hd, hn, hc]
    rw [if_neg ha] at hs
    by_cases hb : v / 4096 % 16 + 0xE0 < 0xED
    · rw [if_pos hb] at hs
      rw [run_triple hs (by simp) (by simp; omega) hd, hn, hc]
    rw [if_neg hb] at hs
    by_cases he : v / 4096 % 16 + 0xE0 < 0xEE
    · rw [if_pos he] at hs
      rw [run_triple hs (by simp) (by simp; omega) hd, hn, hc]
    rw [if_neg he, if_pos (by omega)] at hs
    rw [run_triple hs (by simp) (by simp; omega) hd, hn, hc]
  · -- four bytes; the range is narrower after the first leading byte and after the last
    have hs := sequence?_ofNat (show v / 262144 % 8 + 0xF0 < 256 by omega)
    have hn : (((v / 262144 % 8 + 0xF0 - 0xF0) * 64 + (v / 4096 % 64 + 0x80 - 0x80)) * 64 +
      (v / 64 % 64 + 0x80 - 0x80)) * 64 + (v % 64 + 0x80 - 0x80) = v := by omega
    have hd : 0x80 ≤ v / 64 % 64 + 0x80 ∧ v / 64 % 64 + 0x80 ≤ 0xBF := by omega
    have he : 0x80 ≤ v % 64 + 0x80 ∧ v % 64 + 0x80 ≤ 0xBF := by omega
    rw [if_neg h3]
    rw [if_neg (by omega), if_neg (by omega), if_neg (by omega), if_neg (by omega),
      if_neg (by omega), if_neg (by omega), if_neg (by omega)] at hs
    show run (_ :: _ :: _ :: _ :: rest) idle out = _
    by_cases ha : v / 262144 % 8 + 0xF0 < 0xF1
    · rw [if_pos ha] at hs
      rw [run_quadruple hs (by simp; omega) (by simp; omega) hd he, hn, hc]
    rw [if_neg ha] at hs
    by_cases hb : v / 262144 % 8 + 0xF0 < 0xF4
    · rw [if_pos hb] at hs
      rw [run_quadruple hs (by simp) (by simp; omega) hd he, hn, hc]
    rw [if_neg hb, if_pos (by omega)] at hs
    rw [run_quadruple hs (by simp) (by simp; omega) hd he, hn, hc]

/-! ### A text -/

theorem encode_eq_flatMap (s : String) : encode s = s.toList.flatMap String.utf8EncodeChar := by
  rw [encode, String.toUTF8_eq_toByteArray, ← String.utf8Encode_toList]
  exact List.toList_data_toByteArray

theorem length_encode (s : String) : (encode s).length = s.utf8ByteSize := by
  rw [encode, Array.length_toList]
  rfl

theorem run_flatMap (l : List Char) (out : List Char) :
    run (l.flatMap String.utf8EncodeChar) idle out = l.reverse ++ out := by
  induction l generalizing out with
  | nil => rfl
  | cons c rest ih =>
    rw [List.flatMap_cons, run_encodeChar, ih]
    simp

/-- The bytes of a text read back as that text. -/
theorem decode_encode (s : String) : decode (encode s) = s := by
  rw [decode, encode_eq_flatMap, run_flatMap]
  simp

end Utf8

end CompileWatch
