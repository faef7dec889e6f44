import BoatRudder.Text.Bytes
import Mathlib.Logic.Function.Iterate

/-! # PNG files

The chunks of a PNG with their CRC-32, and the zlib stream in them, of stored blocks only and with its
Adler-32. **`readPng`** reads a file of 8-bit grays to its end, **`readPng_of_chunks`** says what it
reads of chunks that hold such a stream. -/

namespace BoatRudder.Png

/-! ## CRC-32 -/

/-- One turn of the shift register. -/
def crcBit (c : UInt32) : UInt32 := if c &&& 1 = 1 then (0xEDB88320 : UInt32) ^^^ (c >>> 1) else c >>> 1

/-- A byte, bit by bit. -/
def crcByte (c : UInt32) (b : UInt8) : UInt32 := crcBit^[8] (c ^^^ b.toUInt32)

/-- The CRC-32 of some bytes. -/
def crc32 (s : Bytes) : UInt32 := ~~~ s.foldl crcByte 0xFFFFFFFF

theorem crcBit_toBitVec (c : UInt32) : (crcBit c).toBitVec =
    (if c.toBitVec.getLsbD 0 then 0xEDB88320#32 else 0#32) ^^^ (c.toBitVec >>> 1) := by
  have hlow : (c &&& 1 = 1) ↔ c.toBitVec.getLsbD 0 = true := by
    rw [← UInt32.toBitVec_inj, UInt32.toBitVec_and]
    have hand : c.toBitVec &&& (1 : UInt32).toBitVec =
        BitVec.setWidth 32 (BitVec.ofBool (c.toBitVec.getLsbD 0)) :=
      BitVec.and_one_eq_setWidth_ofBool_getLsbD
    rw [hand]
    cases c.toBitVec.getLsbD 0 <;> decide
  rw [crcBit]
  split_ifs with h1 h2 h2
  · rfl
  · exact absurd (hlow.mp h1) h2
  · exact absurd (hlow.mpr h2) h1
  · rw [BitVec.zero_xor]
    rfl

/-- **The shift register is linear.** -/
theorem crcBit_xor (a b : UInt32) : crcBit (a ^^^ b) = crcBit a ^^^ crcBit b := by
  have hpoly : ∀ x y : Bool, (if (x ^^ y) = true then 0xEDB88320#32 else 0#32) =
      (if x = true then 0xEDB88320#32 else 0#32) ^^^ (if y = true then 0xEDB88320#32 else 0#32) := by
    decide
  apply UInt32.toBitVec_inj.mp
  rw [UInt32.toBitVec_xor, crcBit_toBitVec, crcBit_toBitVec, crcBit_toBitVec, UInt32.toBitVec_xor,
    BitVec.getLsbD_xor, BitVec.ushiftRight_xor_distrib, hpoly]
  ac_rfl

theorem iterate_crcBit_xor (n : ℕ) (a b : UInt32) :
    crcBit^[n] (a ^^^ b) = crcBit^[n] a ^^^ crcBit^[n] b := by
  induction n with
  | zero => rfl
  | succ n ih => rw [Function.iterate_succ_apply', Function.iterate_succ_apply',
      Function.iterate_succ_apply', ih, crcBit_xor]

/-- A register whose low bits are clear only moves down. -/
theorem iterate_crcBit_of_clear {y : UInt32} {n : ℕ} (hn : n ≤ 32)
    (hclear : ∀ i < n, y.toBitVec.getLsbD i = false) :
    (crcBit^[n] y).toBitVec = y.toBitVec >>> n := by
  induction n with
  | zero => simp
  | succ n ih =>
    have hy := ih (by omega) fun i hi => hclear i (by omega)
    rw [Function.iterate_succ_apply', crcBit_toBitVec, hy, BitVec.getLsbD_ushiftRight, Nat.add_zero,
      hclear n n.lt_succ_self]
    simp [BitVec.shiftRight_add]

/-- A word is its low byte and what stands above it. -/
theorem low_xor_high (x : BitVec 32) : x = (x &&& 0xFF#32) ^^^ ((x >>> 8) <<< 8) := by
  apply BitVec.eq_of_getLsbD_eq
  intro i hi
  have hmask : (0xFF#32).getLsbD i = decide (i < 8) := by
    rw [BitVec.getLsbD_ofNat, decide_eq_true hi, Bool.true_and]
    exact Nat.testBit_two_pow_sub_one 8 i
  simp only [BitVec.getLsbD_xor, BitVec.getLsbD_and, hmask, BitVec.getLsbD_shiftLeft,
    BitVec.getLsbD_ushiftRight, hi, decide_true, Bool.true_and]
  by_cases hlow : i < 8
  · simp [hlow]
  · simp [hlow, Nat.add_sub_cancel' (not_lt.mp hlow)]

/-- **A byte at a time**: the word of the low byte, and the register moved down. -/
theorem crcByte_eq (c : UInt32) (b : UInt8) :
    crcByte c b = crcBit^[8] ((c ^^^ b.toUInt32) &&& (0xFF : UInt32)) ^^^ (c >>> 8) := by
  set x := c ^^^ b.toUInt32 with hx
  have hsplit : x = (x &&& (0xFF : UInt32)) ^^^ ((x >>> 8) <<< 8) :=
    UInt32.toBitVec_inj.mp (low_xor_high x.toBitVec)
  have hhigh : crcBit^[8] ((x >>> 8) <<< 8) = c >>> 8 := by
    apply UInt32.toBitVec_inj.mp
    rw [iterate_crcBit_of_clear (by decide) ?_]
    · show ((c.toBitVec ^^^ b.toBitVec.setWidth 32) >>> 8) <<< 8 >>> 8 = c.toBitVec >>> 8
      apply BitVec.eq_of_getLsbD_eq
      intro i hi
      have hbyte : b.toBitVec.getLsbD (8 + i) = false := BitVec.getLsbD_of_ge _ _ (by omega)
      have hword : 24 ≤ i → c.toBitVec.getLsbD (8 + i) = false := fun _ =>
        BitVec.getLsbD_of_ge _ _ (by omega)
      simp only [BitVec.getLsbD_ushiftRight, BitVec.getLsbD_shiftLeft, BitVec.getLsbD_xor,
        BitVec.getLsbD_setWidth, hbyte, Bool.and_false, Bool.xor_false, Nat.add_sub_cancel_left]
      by_cases hi24 : i < 24
      · simp [show 8 + i < 32 by omega]
      · simp [hword (not_lt.mp hi24)]
    · intro i hi
      show ((x.toBitVec >>> 8) <<< 8).getLsbD i = false
      simp [hi]
  rw [crcByte, ← hx]
  conv_lhs => rw [hsplit, iterate_crcBit_xor, hhigh]

/-! ## Numbers -/

/-- Four bytes, the highest first. -/
def be32 (n : ℕ) : Bytes :=
  [UInt8.ofNat (n >>> 24), UInt8.ofNat (n >>> 16), UInt8.ofNat (n >>> 8), UInt8.ofNat n]

/-- A number of four bytes, and what stands behind it. -/
def readBe32 : Bytes → Option (ℕ × Bytes)
  | a :: b :: c :: d :: s =>
    some (((a.toNat * 256 + b.toNat) * 256 + c.toNat) * 256 + d.toNat, s)
  | _ => none

@[simp] theorem length_be32 (n : ℕ) : (be32 n).length = 4 := rfl

theorem readBe32_be32 {n : ℕ} (hn : n < 2 ^ 32) (rest : Bytes) :
    readBe32 (be32 n ++ rest) = some (n, rest) := by
  have hvalue : (((UInt8.ofNat (n >>> 24)).toNat * 256 + (UInt8.ofNat (n >>> 16)).toNat) * 256 +
      (UInt8.ofNat (n >>> 8)).toNat) * 256 + (UInt8.ofNat n).toNat = n := by
    simp only [UInt8.toNat_ofNat', Nat.shiftRight_eq_div_pow]
    omega
  show some (_, rest) = some (n, rest)
  rw [hvalue]

/-! ## zlib -/

/-- The sums of Adler-32 before they are reduced: one and the bytes, and the sums on the way. -/
def adlerSums (s : Bytes) : ℕ × ℕ :=
  s.foldl (fun p b => (p.1 + b.toNat, p.2 + (p.1 + b.toNat))) (1, 0)

/-- The Adler-32 of some bytes. -/
def adler32 (s : Bytes) : ℕ := (adlerSums s).2 % 65521 * 65536 + (adlerSums s).1 % 65521

theorem adler32_lt (s : Bytes) : adler32 s < 2 ^ 32 := by
  have h1 : (adlerSums s).1 % 65521 < 65521 := Nat.mod_lt _ (by decide)
  have h2 : (adlerSums s).2 % 65521 < 65521 := Nat.mod_lt _ (by decide)
  rw [adler32]
  omega

/-- The data of stored blocks, and what stands behind the last of them. -/
def inflateStored : Bytes → Option (Bytes × Bytes)
  | header :: n0 :: n1 :: c0 :: c1 :: s =>
    let n := n0.toNat + 256 * n1.toNat
    if header &&& 6 ≠ 0 ∨ c0.toNat + 256 * c1.toNat + n ≠ 65535 ∨ s.length < n then none
    else if header &&& 1 = 1 then some (s.take n, s.drop n)
    else (inflateStored (s.drop n)).map fun r => (s.take n ++ r.1, r.2)
  | _ => none
termination_by s => s.length
decreasing_by
  simp only [List.length_cons, List.length_drop]
  omega

/-- A stream: its two bytes of header, stored blocks, and the Adler-32 of their data at its end. -/
def readZlib : Bytes → Option Bytes
  | cmf :: flg :: s =>
    if cmf.toNat % 16 ≠ 8 ∨ 7 < cmf.toNat / 16 ∨ (256 * cmf.toNat + flg.toNat) % 31 ≠ 0 ∨
        flg &&& 0x20 ≠ 0 then none
    else
      match inflateStored s with
      | some (data, tail) => if readBe32 tail = some (adler32 data, []) then some data else none
      | none => none
  | _ => none

/-- A stored block. -/
def storedBlock (last : Bool) (data : Bytes) : Bytes :=
  (if last then 1 else 0) :: UInt8.ofNat data.length :: UInt8.ofNat (data.length >>> 8) ::
    ~~~UInt8.ofNat data.length :: ~~~UInt8.ofNat (data.length >>> 8) :: data

theorem inflateStored_storedBlock {data : Bytes} (hdata : data.length ≤ 65535) (last : Bool)
    (rest : Bytes) : inflateStored (storedBlock last data ++ rest) =
      if last then some (data, rest)
      else (inflateStored rest).map fun r => (data ++ r.1, r.2) := by
  have hnot : ∀ b : UInt8, (~~~b).toNat = 255 - b.toNat := fun b => by
    rw [UInt8.toNat_not]
    rfl
  have hn : (UInt8.ofNat data.length).toNat + 256 * (UInt8.ofNat (data.length >>> 8)).toNat =
      data.length := by
    simp only [UInt8.toNat_ofNat', Nat.shiftRight_eq_div_pow]
    omega
  have hc : (~~~UInt8.ofNat data.length).toNat + 256 * (~~~UInt8.ofNat (data.length >>> 8)).toNat +
      data.length = 65535 := by
    have h0 := (UInt8.ofNat data.length).toNat_lt
    have h1 := (UInt8.ofNat (data.length >>> 8)).toNat_lt
    rw [hnot, hnot]
    omega
  have hlen : ¬ (data ++ rest).length < data.length := by
    rw [List.length_append]
    omega
  simp only [storedBlock, List.cons_append]
  rw [inflateStored]
  simp only [hn, hc, hlen, or_false, ne_eq, not_true_eq_false, List.take_left, List.drop_left]
  cases last <;> rfl

/-! ## Files -/

/-- A chunk: its type and its data. -/
abbrev Chunk : Type := Bytes × Bytes

/-- The bytes of a chunk. -/
def Chunk.bytes (c : Chunk) : Bytes :=
  be32 c.2.length ++ c.1 ++ c.2 ++ be32 (crc32 (c.1 ++ c.2)).toNat

/-- A chunk whose CRC is right, and what stands behind it. -/
def readChunk (s : Bytes) : Option (Chunk × Bytes) :=
  match readBe32 s with
  | none => none
  | some (n, s) =>
    let c : Chunk := (s.take 4, (s.drop 4).take n)
    match readBe32 (s.drop (4 + n)) with
    | none => none
    | some (crc, rest) => if crc = (crc32 (c.1 ++ c.2)).toNat then some (c, rest) else none

/-- Chunks to the end of the file, `fuel` of them at most. -/
def readChunks : ℕ → Bytes → Option (List Chunk)
  | 0, _ => none
  | fuel + 1, s =>
    if s = [] then some []
    else
      match readChunk s with
      | none => none
      | some (c, rest) => (readChunks fuel rest).map (c :: ·)

theorem readChunk_bytes {c : Chunk} (htype : c.1.length = 4) (hdata : c.2.length < 2 ^ 32)
    (rest : Bytes) : readChunk (c.bytes ++ rest) = some (c, rest) := by
  obtain ⟨t, d⟩ := c
  have hbehind : (t ++ (d ++ (be32 (crc32 (t ++ d)).toNat ++ rest))).drop (4 + d.length) =
      be32 (crc32 (t ++ d)).toNat ++ rest := by
    rw [← List.append_assoc]
    exact List.drop_left' (by rw [List.length_append, htype])
  simp only [Chunk.bytes, List.append_assoc]
  rw [readChunk, readBe32_be32 hdata]
  dsimp only
  rw [hbehind, List.take_left' htype, List.drop_left' htype, List.take_left,
    readBe32_be32 (UInt32.toNat_lt _)]
  dsimp only
  rw [if_pos rfl]

theorem readChunks_flatMap {cs : List Chunk} (h : ∀ c ∈ cs, c.1.length = 4 ∧ c.2.length < 2 ^ 32)
    {fuel : ℕ} (hfuel : cs.length < fuel) : readChunks fuel (cs.flatMap Chunk.bytes) = some cs := by
  induction cs generalizing fuel with
  | nil =>
    obtain ⟨fuel, rfl⟩ : ∃ k, fuel = k + 1 := ⟨fuel - 1, by omega⟩
    rfl
  | cons c cs ih =>
    obtain ⟨hc, hcs⟩ := List.forall_mem_cons.mp h
    obtain ⟨fuel, rfl⟩ : ∃ k, fuel = k + 1 := ⟨fuel - 1, by omega⟩
    have hne : c.bytes ++ cs.flatMap Chunk.bytes ≠ [] := List.cons_ne_nil _ _
    rw [List.flatMap_cons, readChunks, if_neg hne, readChunk_bytes hc.1 hc.2]
    dsimp only
    rw [ih hcs (by simpa using hfuel)]
    rfl

/-- An image of 8-bit grays. -/
structure Image where
  width : ℕ
  height : ℕ
  /-- Each line with its filter. -/
  scanlines : List (UInt8 × Bytes)
deriving DecidableEq

/-- The lines of an image, each with its filter in front, and nothing behind them. -/
def readScanlines (width : ℕ) : ℕ → Bytes → Option (List (UInt8 × Bytes))
  | 0, s => if s = [] then some [] else none
  | _ + 1, [] => none
  | n + 1, filter :: s =>
    if s.length < width then none
    else (readScanlines width n (s.drop width)).map ((filter, s.take width) :: ·)

/-- The width and the height in the header of an image of 8-bit grays that is not interlaced. -/
def readHeader (header : Bytes) : Option (ℕ × ℕ) :=
  match readBe32 header with
  | none => none
  | some (width, s) =>
    match readBe32 s with
    | some (height, [8, 0, 0, 0, 0]) => some (width, height)
    | _ => none

/-- The signature of a file. -/
def signature : Bytes := [0x89, 0x50, 0x4E, 0x47, 0x0D, 0x0A, 0x1A, 0x0A]

/-- A file of 8-bit grays, to its end: the header, the data in any number of chunks, the end. -/
def readPng (file : Bytes) : Option Image :=
  if file.take 8 = signature then
    match readChunks (file.length + 1) (file.drop 8) with
    | some ((type, header) :: cs) =>
      if type = lit "IHDR" ∧ cs.getLast? = some (lit "IEND", []) ∧
          ∀ c ∈ cs.dropLast, c.1 = lit "IDAT" then do
        let (width, height) ← readHeader header
        let data ← readZlib (cs.dropLast.flatMap (·.2))
        let scanlines ← readScanlines width height data
        some ⟨width, height, scanlines⟩
      else none
    | _ => none
  else none

/-- **A file of a header, one chunk of data and an end is read**, when the header and the stream
are. -/
theorem readPng_of_chunks {header stream data : Bytes} {width height : ℕ}
    {scanlines : List (UInt8 × Bytes)} (hheader : header.length = 13) (hstream : stream.length < 2 ^ 32)
    (hsize : readHeader header = some (width, height)) (hdata : readZlib stream = some data)
    (hlines : readScanlines width height data = some scanlines) :
    readPng (signature ++ (Chunk.bytes (lit "IHDR", header) ++
      (Chunk.bytes (lit "IDAT", stream) ++ Chunk.bytes (lit "IEND", [])))) =
        some ⟨width, height, scanlines⟩ := by
  have hbytes : Chunk.bytes (lit "IHDR", header) ++ (Chunk.bytes (lit "IDAT", stream) ++
      Chunk.bytes (lit "IEND", [])) = List.flatMap Chunk.bytes
        [(lit "IHDR", header), (lit "IDAT", stream), (lit "IEND", [])] := by
    rw [List.flatMap_cons, List.flatMap_cons, List.flatMap_singleton]
  have hall : ∀ c ∈ ([(lit "IHDR", header), (lit "IDAT", stream), (lit "IEND", [])] : List Chunk),
      c.1.length = 4 ∧ c.2.length < 2 ^ 32 := by
    have hempty : ([] : Bytes).length < 2 ^ 32 := Nat.two_pow_pos 32
    intro c hc
    simp only [List.mem_cons, List.not_mem_nil, or_false] at hc
    rcases hc with rfl | rfl | rfl
    · exact ⟨rfl, by rw [hheader]; decide⟩
    · exact ⟨rfl, hstream⟩
    · exact ⟨rfl, hempty⟩
  have hsignature : signature.length = 8 := rfl
  rw [readPng, if_pos (List.take_left' hsignature), List.drop_left' hsignature, hbytes,
    readChunks_flatMap hall]
  · dsimp only
    rw [if_pos]
    · simp [hsize, hdata, hlines]
    · exact ⟨rfl, rfl, by simp⟩
  · have hlen : 8 ≤ (signature ++ List.flatMap Chunk.bytes
        [(lit "IHDR", header), (lit "IDAT", stream), (lit "IEND", [])]).length := by
      rw [List.length_append]
      exact Nat.le_add_right _ _
    simp only [List.length_cons, List.length_nil]
    omega

/-- Lines with their filters are read line by line. -/
theorem readScanlines_flatMap {width : ℕ} {lines : List (UInt8 × Bytes)}
    (h : ∀ l ∈ lines, l.2.length = width) :
    readScanlines width lines.length (lines.flatMap fun l => l.1 :: l.2) = some lines := by
  induction lines with
  | nil => rfl
  | cons l lines ih =>
    obtain ⟨hl, hlines⟩ := List.forall_mem_cons.mp h
    have hlen : ¬ (l.2 ++ lines.flatMap fun l => l.1 :: l.2).length < width := by
      rw [List.length_append]
      omega
    rw [List.flatMap_cons, List.length_cons, List.cons_append, readScanlines, if_neg hlen,
      List.take_left' hl, List.drop_left' hl, ih hlines]
    rfl

end BoatRudder.Png
