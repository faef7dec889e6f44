import BoatRudder.Formats.Lzw

/-! # GIF files

A GIF of one image: the signature, the size of the screen, a table of colours, the place of the image,
and its data in sub-blocks, each with its length in front, up to an empty one.

* **`readGif`** reads a file to its end.
* **`BlockWriter`** is what writes the data: bits into bytes, bytes into sub-blocks;
  **`Holds.exists_data`** says what is read of it. -/

namespace BoatRudder.Gif

/-! ## Sub-blocks -/

/-- The data of the sub-blocks, which are of 1 to 255 bytes, and what stands behind their
terminator. -/
def readSubBlocks : Bytes → Option (Bytes × Bytes)
  | [] => none
  | n :: s =>
    if n = 0 then some ([], s)
    else if s.length < n.toNat then none
    else (readSubBlocks (s.drop n.toNat)).map fun r => (s.take n.toNat ++ r.1, r.2)
termination_by s => s.length
decreasing_by
  simp only [List.length_cons, List.length_drop]
  omega

/-- Data as a sub-block; no data is none. -/
def subBlock (data : Bytes) : Bytes :=
  if data = [] then [] else UInt8.ofNat data.length :: data

theorem length_subBlock_le (data : Bytes) : (subBlock data).length ≤ data.length + 1 := by
  rw [subBlock]
  split_ifs
  · exact Nat.zero_le _
  · exact le_rfl

theorem readSubBlocks_terminator (rest : Bytes) : readSubBlocks (0 :: rest) = some ([], rest) := by
  rw [readSubBlocks, if_pos rfl]

/-- A sub-block is read. -/
theorem readSubBlocks_subBlock {data : Bytes} (hdata : data.length ≤ 255) {s rest tail : Bytes}
    (h : readSubBlocks rest = some (s, tail)) :
    readSubBlocks (subBlock data ++ rest) = some (data ++ s, tail) := by
  rw [subBlock]
  split_ifs with hnil
  · rw [hnil, List.nil_append, List.nil_append, h]
  · have hnat : (UInt8.ofNat data.length).toNat = data.length := by
      rw [UInt8.toNat_ofNat', Nat.mod_eq_of_lt (by omega)]
    have hne : UInt8.ofNat data.length ≠ 0 := by
      intro h0
      rw [h0] at hnat
      exact hnil (List.eq_nil_of_length_eq_zero hnat.symm)
    have hlen : ¬ (data ++ rest).length < data.length := by
      rw [List.length_append]
      omega
    rw [List.cons_append, readSubBlocks, if_neg hne, hnat, if_neg hlen, List.drop_left,
      List.take_left, h]
    rfl

theorem readSubBlocks_flatMap {blocks : List Bytes} (hblocks : ∀ b ∈ blocks, b.length = 255)
    {s rest tail : Bytes} (h : readSubBlocks rest = some (s, tail)) :
    readSubBlocks (blocks.flatMap subBlock ++ rest) = some (blocks.flatten ++ s, tail) := by
  induction blocks with
  | nil => exact h
  | cons b blocks ih =>
    obtain ⟨hb, hblocks⟩ := List.forall_mem_cons.mp hblocks
    rw [List.flatMap_cons, List.append_assoc, List.flatten_cons, List.append_assoc]
    exact readSubBlocks_subBlock hb.le (ih hblocks)

/-! ## Files -/

/-- Two bytes, the lower first. -/
def le16 (n : ℕ) : Bytes := [UInt8.ofNat n, UInt8.ofNat (n >>> 8)]

/-- A number of two bytes. -/
def readLe16 (lo hi : UInt8) : ℕ := lo.toNat + 256 * hi.toNat

theorem readLe16_le16 {n : ℕ} (hn : n < 65536) :
    readLe16 (UInt8.ofNat n) (UInt8.ofNat (n >>> 8)) = n := by
  rw [readLe16, UInt8.toNat_ofNat', UInt8.toNat_ofNat', Nat.shiftRight_eq_div_pow]
  omega

/-- A GIF of one image. -/
structure Image where
  screenWidth : ℕ
  screenHeight : ℕ
  /-- The colours, three bytes each. -/
  colors : List Bytes
  width : ℕ
  height : ℕ
  minCodeSize : ℕ
  /-- The data, out of its sub-blocks. -/
  data : Bytes
deriving DecidableEq

/-- Colours of three bytes each. -/
def readColors : ℕ → Bytes → List Bytes
  | 0, _ => []
  | n + 1, s => s.take 3 :: readColors n (s.drop 3)

/-- The image behind the colours, to the trailer at the end of the file. -/
def readImage (screenWidth screenHeight : ℕ) (colors : List Bytes) : Bytes → Option Image
  | 0x2C :: 0 :: 0 :: 0 :: 0 :: w0 :: w1 :: h0 :: h1 :: 0 :: m :: s =>
    match readSubBlocks s with
    | some (data, [0x3B]) =>
      some ⟨screenWidth, screenHeight, colors, readLe16 w0 w1, readLe16 h0 h1, m.toNat, data⟩
    | _ => none
  | _ => none

/-- A file: one image on the whole of a screen, with a global table of colours. -/
def readGif : Bytes → Option Image
  | 71 :: 73 :: 70 :: 56 :: 55 :: 97 :: w0 :: w1 :: h0 :: h1 :: flags :: 0 :: 0 :: s =>
    let count := 2 ^ ((flags &&& 7).toNat + 1)
    if flags &&& 0x80 = 0 ∨ s.length < 3 * count then none
    else readImage (readLe16 w0 w1) (readLe16 h0 h1) (readColors count s) (s.drop (3 * count))
  | _ => none

/-- What stands in front of the data. -/
def fileHeader (width height : ℕ) (flags : UInt8) (colors : List Bytes) (minCodeSize : UInt8) : Bytes :=
  lit "GIF87a" ++ le16 width ++ le16 height ++ [flags, 0, 0] ++ colors.flatten ++
    [0x2C, 0, 0, 0, 0] ++ le16 width ++ le16 height ++ [0, minCodeSize]

/-- What ends a file. -/
def trailer : Bytes := [0x3B]

theorem readColors_flatten {colors : List Bytes} (h : ∀ c ∈ colors, c.length = 3) (rest : Bytes) :
    readColors colors.length (colors.flatten ++ rest) = colors := by
  induction colors with
  | nil => rfl
  | cons c colors ih =>
    obtain ⟨hc, hcolors⟩ := List.forall_mem_cons.mp h
    rw [List.length_cons, List.flatten_cons, List.append_assoc, readColors, List.take_left' hc,
      List.drop_left' hc, ih hcolors]

theorem length_flatten_colors {colors : List Bytes} (h : ∀ c ∈ colors, c.length = 3) :
    colors.flatten.length = 3 * colors.length := by
  rw [List.length_flatten, List.map_congr_left h, List.map_const', List.sum_replicate_nat,
    Nat.mul_comm]

/-- **A file is read when its data is.** -/
theorem readGif_of_parts {width height : ℕ} (hwidth : width < 65536) (hheight : height < 65536)
    {flags : UInt8} (hflags : flags &&& 0x80 ≠ 0) {colors : List Bytes}
    (hcount : colors.length = 2 ^ ((flags &&& 7).toNat + 1)) (hcolors : ∀ c ∈ colors, c.length = 3)
    (minCodeSize : UInt8) {blocks data : Bytes}
    (hdata : readSubBlocks (blocks ++ trailer) = some (data, trailer)) :
    readGif (fileHeader width height flags colors minCodeSize ++ (blocks ++ trailer)) =
      some ⟨width, height, colors, width, height, minCodeSize.toNat, data⟩ := by
  have hlen := length_flatten_colors hcolors
  set tail : Bytes := 0x2C :: 0 :: 0 :: 0 :: 0 :: (le16 width ++ (le16 height ++
    (0 :: minCodeSize :: (blocks ++ trailer)))) with htail
  have hfile : fileHeader width height flags colors minCodeSize ++ (blocks ++ trailer) =
      71 :: 73 :: 70 :: 56 :: 55 :: 97 :: UInt8.ofNat width :: UInt8.ofNat (width >>> 8) ::
        UInt8.ofNat height :: UInt8.ofNat (height >>> 8) :: flags :: 0 :: 0 ::
          (colors.flatten ++ tail) := by
    simp only [fileHeader, List.append_assoc]
    rfl
  have hlong : ¬ (colors.flatten ++ tail).length < 3 * 2 ^ ((flags &&& 7).toNat + 1) := by
    rw [List.length_append, hlen, hcount]
    omega
  have himage : ∀ sw sh cs, readImage sw sh cs tail =
      some ⟨sw, sh, cs, width, height, minCodeSize.toNat, data⟩ := by
    intro sw sh cs
    have hread : readImage sw sh cs tail =
        match readSubBlocks (blocks ++ trailer) with
        | some (data, [0x3B]) => some ⟨sw, sh, cs, readLe16 (UInt8.ofNat width) (UInt8.ofNat (width >>> 8)),
            readLe16 (UInt8.ofNat height) (UInt8.ofNat (height >>> 8)), minCodeSize.toNat, data⟩
        | _ => none := rfl
    rw [hread, hdata, readLe16_le16 hwidth, readLe16_le16 hheight]
    rfl
  rw [hfile, readGif]
  simp only [hflags, hlong, or_self, if_false]
  rw [← hcount, readColors_flatten hcolors, ← hlen, List.drop_left, himage, readLe16_le16 hwidth,
    readLe16_le16 hheight]

/-! ## Writing the data -/

/-- A writer of data: the bytes put out, those of the sub-block under way, and the bits that fill no
byte yet. -/
structure BlockWriter where
  out : Bytes
  block : Bytes
  bits : ℕ
  nbits : ℕ

/-- A byte into the sub-block, which is put out when it is full. -/
def BlockWriter.putByte (g : BlockWriter) (b : UInt8) : BlockWriter :=
  if (g.block ++ [b]).length = 255 then
    { g with out := g.out ++ 255 :: (g.block ++ [b]), block := [] }
  else { g with block := g.block ++ [b] }

/-- One turn of the loop that takes bytes out of the bits. -/
def BlockWriter.putLow (g : BlockWriter) : BlockWriter :=
  let g := g.putByte (UInt8.ofNat g.bits)
  { g with bits := g.bits >>> 8, nbits := g.nbits - 8 }

/-- The whole bytes out of the bits. -/
def BlockWriter.drain (g : BlockWriter) : BlockWriter :=
  if 8 ≤ g.nbits then g.putLow.drain else g
termination_by g.nbits
decreasing_by
  rw [BlockWriter.putLow, BlockWriter.putByte]
  split <;> simp only <;> omega

/-- A code of `w` bits. -/
def BlockWriter.putCode (g : BlockWriter) (code w : ℕ) : BlockWriter :=
  BlockWriter.drain { g with bits := g.bits ||| code <<< g.nbits, nbits := g.nbits + w }

/-- Codes one after the other. -/
def BlockWriter.putCodes (g : BlockWriter) (items : List Lzw.Item) : BlockWriter :=
  items.foldl (fun g i => g.putCode i.1 i.2) g

theorem BlockWriter.putCodes_concat (g : BlockWriter) (items : List Lzw.Item) (i : Lzw.Item) :
    g.putCodes (items ++ [i]) = (g.putCodes items).putCode i.1 i.2 := by
  rw [BlockWriter.putCodes, List.foldl_append]
  rfl

/-- Behind `start`, `g` has written the bits `bits`, the last of which fill no byte. -/
structure Holds (start : Bytes) (g : BlockWriter) (bits : List Bool) : Prop where
  written : ∃ blocks : List Bytes, (∀ b ∈ blocks, b.length = 255) ∧
    g.out = start ++ blocks.flatMap subBlock ∧
      bits = (blocks.flatten ++ g.block).flatMap lsbByte ++ lsbBits g.nbits g.bits
  block_lt : g.block.length < 255
  bits_lt : g.bits < 2 ^ g.nbits

variable {start : Bytes} {g : BlockWriter} {bits : List Bool}

/-- At the start of the data. -/
theorem holds_start (start : Bytes) : Holds start ⟨start, [], 0, 0⟩ [] :=
  ⟨⟨[], nofun, (List.append_nil _).symm, rfl⟩, Nat.zero_lt_succ _, Nat.one_pos⟩

/-- A byte out of the bits. -/
theorem Holds.putLow (h : Holds start g bits) (hbits : 8 ≤ g.nbits) : Holds start g.putLow bits := by
  obtain ⟨⟨blocks, hblocks, hout, hall⟩, hblock, hlt⟩ := h
  have hnbits : g.nbits = 8 + (g.nbits - 8) := by omega
  have hlow : bits = (blocks.flatten ++ (g.block ++ [UInt8.ofNat g.bits])).flatMap lsbByte ++
      lsbBits (g.nbits - 8) (g.bits >>> 8) := by
    rw [hall]
    conv_lhs => rw [hnbits, lsbBits_add]
    rw [← lsbByte_ofNat, ← List.append_assoc blocks.flatten, List.flatMap_append, List.flatMap_append,
      List.flatMap_append, List.flatMap_singleton]
    simp only [List.append_assoc]
  have hhigh : g.bits >>> 8 < 2 ^ (g.nbits - 8) := by
    rw [Nat.shiftRight_eq_div_pow, Nat.div_lt_iff_lt_mul (by decide), ← pow_add, Nat.sub_add_cancel hbits]
    exact hlt
  rw [BlockWriter.putLow, BlockWriter.putByte]
  split_ifs with hfull
  · refine ⟨⟨blocks ++ [g.block ++ [UInt8.ofNat g.bits]], ?_, ?_, ?_⟩, Nat.zero_lt_succ _, hhigh⟩
    · intro b hb
      rcases List.mem_append.mp hb with hb | hb
      · exact hblocks b hb
      · rw [List.mem_singleton.mp hb, hfull]
    · have hblock : subBlock (g.block ++ [UInt8.ofNat g.bits]) =
          255 :: (g.block ++ [UInt8.ofNat g.bits]) := by
        rw [subBlock, if_neg (by simp), hfull]
        rfl
      rw [List.flatMap_append, List.flatMap_singleton, hblock, ← List.append_assoc, ← hout]
    · rw [List.flatten_append, List.flatten_singleton, List.append_nil]
      exact hlow
  · refine ⟨⟨blocks, hblocks, hout, hlow⟩, ?_, hhigh⟩
    rw [List.length_append, List.length_singleton] at hfull ⊢
    show g.block.length + 1 < 255
    omega

theorem Holds.drain (h : Holds start g bits) : Holds start g.drain bits ∧ g.drain.nbits < 8 := by
  induction g using BlockWriter.drain.induct with
  | case1 g hbits ih =>
    rw [BlockWriter.drain, if_pos hbits]
    exact ih (h.putLow hbits)
  | case2 g hbits =>
    rw [BlockWriter.drain, if_neg hbits]
    exact ⟨h, not_le.mp hbits⟩

/-- **A code is put behind the bits.** -/
theorem Holds.putCode (h : Holds start g bits) {code w : ℕ} (hcode : code < 2 ^ w) :
    Holds start (g.putCode code w) (bits ++ lsbBits w code) ∧ (g.putCode code w).nbits < 8 := by
  obtain ⟨⟨blocks, hblocks, hout, hall⟩, hblock, hlt⟩ := h
  apply Holds.drain
  refine ⟨⟨blocks, hblocks, hout, ?_⟩, hblock, ?_⟩
  · rw [hall, lsbBits_or_shiftLeft hlt, List.append_assoc]
  · have hcode' : code <<< g.nbits < 2 ^ (g.nbits + w) := by
      rw [Nat.shiftLeft_eq, Nat.mul_comm, pow_add]
      exact Nat.mul_lt_mul_of_pos_left hcode (Nat.two_pow_pos _)
    exact Nat.or_lt_two_pow (hlt.trans_le (Nat.pow_le_pow_right (by decide) (Nat.le_add_right _ _)))
      hcode'

/-- **Codes are put one behind the other.** -/
theorem Holds.putCodes (h : Holds start g bits) (hbits : g.nbits < 8) {items : List Lzw.Item}
    (hitems : ∀ i ∈ items, i.1 < 2 ^ i.2) :
    Holds start (g.putCodes items) (bits ++ Lzw.bitsOf items) ∧ (g.putCodes items).nbits < 8 := by
  induction items generalizing g bits with
  | nil =>
    rw [Lzw.bitsOf_nil, List.append_nil]
    exact ⟨h, hbits⟩
  | cons i items ih =>
    obtain ⟨hi, hitems⟩ := List.forall_mem_cons.mp hitems
    obtain ⟨h', hbits'⟩ := h.putCode hi
    rw [Lzw.bitsOf_cons, ← List.append_assoc]
    exact ih h' hbits' hitems

/-- The bits that fill no byte, with zeros above them, as the last byte. -/
def BlockWriter.flushBits (g : BlockWriter) : BlockWriter := if 0 < g.nbits then g.putLow else g

/-- The zeros that fill the last byte. -/
def padding (bits : List Bool) : List Bool := List.replicate ((8 - bits.length % 8) % 8) false

theorem Holds.flushBits (h : Holds start g bits) (hbits : g.nbits < 8) :
    Holds start g.flushBits (bits ++ padding bits) ∧ g.flushBits.nbits = 0 := by
  obtain ⟨⟨blocks, hblocks, hout, hall⟩, hblock, hlt⟩ := h
  have hmod : bits.length % 8 = g.nbits := by
    have hbytes : ((blocks.flatten ++ g.block).flatMap lsbByte).length % 8 = 0 := by
      rw [List.length_flatMap]
      simp only [length_lsbByte, List.map_const', List.sum_replicate_nat]
      exact Nat.mul_mod_left _ 8
    rw [hall, List.length_append, length_lsbBits, Nat.add_mod, hbytes, Nat.zero_add, Nat.mod_mod,
      Nat.mod_eq_of_lt hbits]
  rw [BlockWriter.flushBits, padding, hmod]
  split_ifs with hpos
  · -- the bits that are missing to a byte are the zeros above the others
    have hfull : Holds start { g with nbits := 8 } (bits ++ List.replicate (8 - g.nbits) false) := by
      refine ⟨⟨blocks, hblocks, hout, ?_⟩, hblock,
        hlt.trans_le (Nat.pow_le_pow_right (by decide) hbits.le)⟩
      have hzeros := lsbBits_eq_replicate (8 - g.nbits) hlt
      rw [Nat.add_sub_cancel' hbits.le] at hzeros
      rw [hall, List.append_assoc, hzeros]
    have hput : BlockWriter.putLow { g with nbits := 8 } = { g.putLow with nbits := 0 } := by
      rw [BlockWriter.putLow, BlockWriter.putLow, BlockWriter.putByte, BlockWriter.putByte]
      split_ifs <;> rfl
    have hnbits : g.putLow.nbits = 0 := by
      rw [BlockWriter.putLow, BlockWriter.putByte]
      split_ifs <;> exact Nat.sub_eq_zero_of_le hbits.le
    have hsame : { g.putLow with nbits := 0 } = g.putLow := by rw [← hnbits]
    have hlow := hfull.putLow le_rfl
    rw [hput, hsame] at hlow
    rw [Nat.mod_eq_of_lt (by omega : 8 - g.nbits < 8)]
    exact ⟨hlow, hnbits⟩
  · have hzero : g.nbits = 0 := by omega
    refine ⟨⟨⟨blocks, hblocks, hout, ?_⟩, hblock, hlt⟩, hzero⟩
    rw [hzero, Nat.sub_zero, Nat.mod_self, List.replicate_zero, List.append_nil, hall, hzero]

/-- The sub-block under way, and the terminator. -/
def BlockWriter.finish (g : BlockWriter) : Bytes := g.out ++ subBlock g.block ++ [0]

/-- **What is read of the data are the bits that were put in**, filled up to whole bytes. -/
theorem Holds.exists_data (h : Holds start g bits) (hbits : g.nbits < 8) :
    ∃ data : Bytes, data.flatMap lsbByte = bits ++ padding bits ∧
      ∃ blocks : Bytes, g.flushBits.finish = start ++ blocks ∧
        (∀ rest, readSubBlocks (blocks ++ rest) = some (data, rest)) ∧
          blocks.length ≤ data.length + data.length / 255 + 2 := by
  obtain ⟨⟨⟨blocks, hblocks, hout, hall⟩, hblock, -⟩, hzero⟩ := h.flushBits hbits
  rw [hzero, lsbBits_zero, List.append_nil] at hall
  refine ⟨_, hall.symm, blocks.flatMap subBlock ++ subBlock g.flushBits.block ++ [0], ?_, ?_, ?_⟩
  · rw [BlockWriter.finish, hout]
    simp only [List.append_assoc]
  · intro rest
    have hlast := readSubBlocks_subBlock hblock.le (readSubBlocks_terminator rest)
    rw [List.append_nil] at hlast
    rw [List.append_assoc, List.append_assoc]
    exact readSubBlocks_flatMap hblocks hlast
  · have hfull : (blocks.flatMap subBlock).length = 256 * blocks.length ∧
        blocks.flatten.length = 255 * blocks.length := by
      clear hout hall
      induction blocks with
      | nil => exact ⟨rfl, rfl⟩
      | cons b blocks ih =>
        obtain ⟨hb, hblocks⟩ := List.forall_mem_cons.mp hblocks
        obtain ⟨h1, h2⟩ := ih hblocks
        have hne : b ≠ [] := by
          rintro rfl
          cases hb
        rw [List.flatMap_cons, List.flatten_cons, List.length_append, List.length_append, subBlock,
          if_neg hne, List.length_cons, List.length_cons, hb, h1, h2]
        omega
    have hsub := length_subBlock_le g.flushBits.block
    rw [List.length_append, List.length_append, List.length_append, hfull.1, hfull.2,
      List.length_singleton]
    omega

end BoatRudder.Gif
