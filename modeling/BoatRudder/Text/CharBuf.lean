import BoatRudder.Text.Bytes

/-! # Fixed buffers of characters

A `char` array of a fixed size, as a structure of C holds it. Whether it holds a string at all is a
question to it: the string is what stands before the first NUL, and behind that may be anything. -/

namespace BoatRudder

universe u v

/-- `char buf[n]`. -/
structure CharBuf (n : ℕ) where
  bytes : Bytes
  length_bytes : bytes.length = n
deriving DecidableEq

namespace CharBuf

variable {n : ℕ}

/-- The string in a buffer. -/
def text (b : CharBuf n) : Bytes := cstr b.bytes

/-- `memchr(buf, '\0', n) != NULL`. -/
def hasNul (b : CharBuf n) : Bool := b.bytes.contains 0

/-- A buffer of zeros with a string copied to its start, cut where only the NUL still fits. -/
def fill (n : ℕ) (s : Bytes) : CharBuf n where
  bytes := (s.take (n - 1) ++ List.replicate n 0).take n
  length_bytes := by simp

/-- A buffer is its bytes. -/
@[ext] theorem ext {a b : CharBuf n} (h : a.bytes = b.bytes) : a = b := by
  cases a
  cases b
  cases h
  rfl

/-- A text ends before its NUL. -/
theorem zero_notMem_text (b : CharBuf n) : 0 ∉ b.text := zero_notMem_cstr b.bytes

/-- With a NUL in the buffer there is room for it behind the string. -/
theorem length_text_lt {b : CharBuf n} (h : b.hasNul = true) : b.text.length < n := by
  have hmem : 0 ∈ b.bytes := by simpa [hasNul] using h
  have hle : b.text.length ≤ b.bytes.length := (List.takeWhile_prefix _).length_le
  have hne : b.text.length ≠ b.bytes.length := by
    intro hlen
    have hall : cstr b.bytes = b.bytes := (List.takeWhile_prefix _).eq_of_length hlen
    have hzero := zero_notMem_cstr b.bytes
    rw [hall] at hzero
    exact hzero hmem
  have hlen := b.length_bytes
  omega

/-- A string that fits is what the buffer then holds. -/
theorem text_fill {s : Bytes} (hzero : 0 ∉ s) (hlen : s.length < n) :
    (fill n s).text = s := by
  obtain ⟨k, rfl⟩ : ∃ k, n = s.length + (k + 1) := ⟨n - s.length - 1, by omega⟩
  have hbytes : (fill (s.length + (k + 1)) s).bytes = s ++ 0 :: List.replicate k 0 := by
    have hcut : s.take (s.length + (k + 1) - 1) = s := List.take_of_length_le (by omega)
    have hzeros : List.replicate (s.length + (k + 1)) (0 : UInt8) =
        (0 :: List.replicate k 0) ++ List.replicate s.length 0 := by
      rw [← List.replicate_succ, List.replicate_append_replicate, Nat.add_comm]
    show (s.take (s.length + (k + 1) - 1) ++ _).take _ = _
    rw [hcut, hzeros, ← List.append_assoc]
    exact List.take_left' (by simp)
  rw [text, cstr, hbytes, List.takeWhile_append_of_pos, List.takeWhile_cons_of_neg (by simp),
    List.append_nil]
  intro c hc
  simpa using fun h0 : c = 0 => hzero (h0 ▸ hc)

/-- The buffer holds a string and zeros behind it. -/
def Packed (b : CharBuf n) : Prop := ∃ s : Bytes, 0 ∉ s ∧ s.length < n ∧ b = fill n s

/-- A text that fits, filled up, is packed. -/
theorem packed_fill {s : Bytes} (hzero : 0 ∉ s) (hlen : s.length < n) : (fill n s).Packed :=
  ⟨s, hzero, hlen, rfl⟩

/-- The string written anew. -/
def pack (b : CharBuf n) : CharBuf n := fill n b.text

/-- Packing keeps the text. -/
theorem text_pack {b : CharBuf n} (h : b.hasNul = true) : b.pack.text = b.text :=
  text_fill b.zero_notMem_text (length_text_lt h)

/-- What was packed is packed. -/
theorem packed_pack {b : CharBuf n} (h : b.hasNul = true) : b.pack.Packed :=
  packed_fill b.zero_notMem_text (length_text_lt h)

/-- Packing twice is packing once. -/
theorem Packed.pack_eq {b : CharBuf n} (h : b.Packed) : b.pack = b := by
  obtain ⟨s, hzero, hlen, rfl⟩ := h
  rw [pack, text_fill hzero hlen]

/-- A packed buffer ends in a NUL. -/
theorem Packed.hasNul {b : CharBuf n} (h : b.Packed) : b.hasNul = true := by
  obtain ⟨s, hzero, hlen, rfl⟩ := h
  have htext := text_fill hzero hlen
  by_contra hno
  have hmem : 0 ∉ (fill n s).bytes := by simpa [CharBuf.hasNul] using hno
  have hall : (fill n s).text = (fill n s).bytes := cstr_eq_self hmem
  have hn : s.length = n := by rw [← htext, hall, (fill n s).length_bytes]
  omega

end CharBuf

end BoatRudder
