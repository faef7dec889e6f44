import BoatRudder.Formats.Gif
import BoatRudder.Formats.Png

/-! # The pictures of a captcha

`encode_png` and `encode_gif`: a drawing of grays as a PNG whose zlib stream is of stored blocks, and
as a GIF whose codes are cleared every few pixels, so that they need no dictionary. Both are read back
as the drawing, and fit the buffers allocated for them (`decodesToDrawing`). Allocation never fails
here. -/

namespace BoatRudder.Utils

open Gif

/-- `W`. -/
def captchaWidth : ℕ := 200

/-- `H`. -/
def captchaHeight : ℕ := 70

/-- `pixels`. -/
def pixelCount : ℕ := captchaWidth * captchaHeight

/-! ## PNG -/

/-- `crc_table`. -/
def crcTable : List UInt32 :=
  (List.range 256).map fun i => (List.range 8).foldl
    (fun c _ => if c &&& 1 = 1 then (0xEDB88320 : UInt32) ^^^ (c >>> 1) else c >>> 1) (UInt32.ofNat i)

/-- `crc32_of`. -/
def crc32Of (p : Bytes) (crc : UInt32) : UInt32 :=
  ~~~ p.foldl (fun crc b =>
    crcTable.getD ((crc ^^^ b.toUInt32) &&& (0xFF : UInt32)).toNat 0 ^^^ (crc >>> 8)) (~~~crc)

/-- `chunk`: what it puts behind the file so far. -/
def chunk (type data : Bytes) : Bytes :=
  Png.be32 data.length ++ type ++ data ++ Png.be32 (crc32Of (type ++ data) 0).toNat

/-- `raw`: the lines of the drawing, the filter `none` in front of each. -/
def rawLines (gray : Bytes) : Bytes :=
  (List.range captchaHeight).flatMap fun y => 0 :: (gray.drop (y * captchaWidth)).take captchaWidth

/-- The sums of the Adler-32 after one byte more. -/
def adlerStep (s : ℕ × ℕ) (b : UInt8) : ℕ × ℕ :=
  let a := (s.1 + b.toNat) % 65521
  (a, (s.2 + a) % 65521)

/-- The loop that fills `z`, with what is left of `raw` and the sums: the blocks and the sums. -/
def putBlocks (raw : Bytes) (sums : ℕ × ℕ) : Bytes × (ℕ × ℕ) :=
  if raw = [] then ([], sums)
  else
    let n := if 65535 < raw.length then 65535 else raw.length
    let rest := putBlocks (raw.drop n) ((raw.take n).foldl adlerStep sums)
    ([if n = raw.length then 1 else 0, UInt8.ofNat n, UInt8.ofNat (n >>> 8), ~~~UInt8.ofNat n,
      ~~~UInt8.ofNat (n >>> 8)] ++ raw.take n ++ rest.1, rest.2)
termination_by raw.length
decreasing_by
  rename_i h
  have hpos := List.length_pos_iff.mpr h
  rw [List.length_drop]
  split_ifs <;> omega

/-- `z`: the zlib stream. -/
def zlibStream (raw : Bytes) : Bytes :=
  let r := putBlocks raw (1, 0)
  ([0x78, 0x01] : Bytes) ++ r.1 ++ Png.be32 ((r.2.2 <<< 16) ||| r.2.1)

/-- `z_len`. -/
def zLen (rawLen : ℕ) : ℕ := 2 + rawLen + (rawLen / 65535 + 1) * 5 + 4

/-- `png_cap`. -/
def pngCap (rawLen : ℕ) : ℕ := 8 + 25 + 12 + zLen rawLen + 12

/-- `ihdr`. -/
def ihdr : Bytes := Png.be32 captchaWidth ++ Png.be32 captchaHeight ++ [8, 0, 0, 0, 0]

/-- `encode_png`. -/
def encodePng (gray : Bytes) : Bytes :=
  ([0x89, 0x50, 0x4E, 0x47, 0x0D, 0x0A, 0x1A, 0x0A] : Bytes) ++
    (chunk (lit "IHDR") ihdr ++ (chunk (lit "IDAT") (zlibStream (rawLines gray)) ++
      chunk (lit "IEND") []))

/-! ## GIF -/

/-- `GIF_CLEAR`. -/
def gifClear : ℕ := 16

/-- `GIF_END`. -/
def gifEnd : ℕ := 17

/-- `GIF_CODE_BITS`. -/
def gifCodeBits : ℕ := 5

/-- `GIF_RUN`. -/
def gifRun : ℕ := 12

/-- `gif_code`. -/
def gifCode (g : BlockWriter) (code : ℕ) : BlockWriter := g.putCode code gifCodeBits

/-- `cap`. -/
def gifCap : ℕ :=
  let codes := pixelCount + pixelCount / gifRun + 3
  let data := codes * gifCodeBits / 8 + 2
  13 + 48 + 10 + 1 + data + data / 255 + 2 + 2

/-- What stands in front of the data. -/
def gifHeader : Bytes :=
  lit "GIF87a" ++ le16 captchaWidth ++ le16 captchaHeight ++ [0xB3, 0, 0] ++
    ((List.range 16).flatMap fun i => List.replicate 3 (UInt8.ofNat (i * 17))) ++
    [0x2C, 0, 0, 0, 0] ++ le16 captchaWidth ++ le16 captchaHeight ++ [0, 4]

/-- The codes of the pixels, with a clear code every few of them. -/
def gifPixels (gray : Bytes) (g : BlockWriter) : BlockWriter :=
  (List.range pixelCount).foldl (fun g i =>
    let g := if i % gifRun = 0 then gifCode g gifClear else g
    gifCode g (gray.getD i 0 >>> 4).toNat) g

/-- `encode_gif`. -/
def encodeGif (gray : Bytes) : Bytes :=
  let g := gifCode (gifPixels gray ⟨gifHeader, [], 0, 0⟩) gifEnd
  let g := if 0 < g.nbits then g.putByte (UInt8.ofNat g.bits) else g
  g.out ++ (if g.block ≠ [] then UInt8.ofNat g.block.length :: g.block else []) ++ [0, 0x3B]

/-! ## The PNG is read -/

theorem crcTable_getD {i : ℕ} (hi : i < 256) :
    crcTable.getD i 0 = Png.crcBit^[8] (UInt32.ofNat i) := by
  rw [crcTable, List.getD_eq_getElem?_getD, List.getElem?_map, List.getElem?_range hi]
  rfl

/-- **The CRC by the table is that bit by bit.** -/
theorem crc32Of_eq (p : Bytes) : crc32Of p 0 = Png.crc32 p := by
  have hstep : (fun (crc : UInt32) (b : UInt8) =>
      crcTable.getD ((crc ^^^ b.toUInt32) &&& (0xFF : UInt32)).toNat 0 ^^^ (crc >>> 8)) =
        Png.crcByte := by
    funext crc b
    have hlow : ((crc ^^^ b.toUInt32) &&& (0xFF : UInt32)).toNat < 256 := by
      rw [UInt32.toNat_and]
      exact Nat.lt_of_le_of_lt Nat.and_le_right (by decide)
    rw [Png.crcByte_eq, crcTable_getD hlow, UInt32.ofNat_toNat]
  rw [crc32Of, hstep]
  rfl

theorem chunk_eq (type data : Bytes) : chunk type data = Png.Chunk.bytes (type, data) := by
  rw [chunk, crc32Of_eq]
  rfl

/-- The sums reduced on the way are those reduced at the end. -/
theorem foldl_adlerStep (s : Bytes) (p : ℕ × ℕ) :
    s.foldl adlerStep (p.1 % 65521, p.2 % 65521) =
      ((s.foldl (fun p b => (p.1 + b.toNat, p.2 + (p.1 + b.toNat))) p).1 % 65521,
        (s.foldl (fun p b => (p.1 + b.toNat, p.2 + (p.1 + b.toNat))) p).2 % 65521) := by
  induction s generalizing p with
  | nil => rfl
  | cons b s ih =>
    have hstep : adlerStep (p.1 % 65521, p.2 % 65521) b =
        ((p.1 + b.toNat) % 65521, (p.2 + (p.1 + b.toNat)) % 65521) := by
      simp only [adlerStep, Nat.mod_add_mod, Nat.add_mod_mod]
    rw [List.foldl_cons, List.foldl_cons, hstep]
    exact ih (p.1 + b.toNat, p.2 + (p.1 + b.toNat))

theorem foldl_adlerStep_start (s : Bytes) :
    s.foldl adlerStep (1, 0) = ((Png.adlerSums s).1 % 65521, (Png.adlerSums s).2 % 65521) :=
  foldl_adlerStep s (1, 0)

/-- One turn of the loop: a block of what is left, the last when it takes all of it. -/
theorem putBlocks_eq {raw : Bytes} (hraw : raw ≠ []) (sums : ℕ × ℕ) :
    putBlocks raw sums =
      (Png.storedBlock (decide (raw.length ≤ 65535)) (raw.take 65535) ++
        (putBlocks (raw.drop 65535) ((raw.take 65535).foldl adlerStep sums)).1,
        (putBlocks (raw.drop 65535) ((raw.take 65535).foldl adlerStep sums)).2) := by
  rw [putBlocks, if_neg hraw]
  by_cases hlong : 65535 < raw.length
  · have hlen : (raw.take 65535).length = 65535 := by
      rw [List.length_take, Nat.min_eq_left hlong.le]
    simp only [if_pos hlong, if_neg hlong.ne, Png.storedBlock, hlen, decide_eq_false (not_le.mpr hlong),
      Bool.false_eq_true, if_false]
    rfl
  · have hle : raw.length ≤ 65535 := not_lt.mp hlong
    simp only [if_neg hlong, Png.storedBlock, List.take_of_length_le hle, List.take_length,
      List.drop_of_length_le hle, List.drop_length, decide_eq_true hle, if_true]
    rfl

/-- The blocks hold all of the lines, and the sums go over all of them. -/
theorem putBlocks_spec (raw : Bytes) (sums : ℕ × ℕ) :
    (raw ≠ [] → ∀ rest, Png.inflateStored ((putBlocks raw sums).1 ++ rest) = some (raw, rest)) ∧
      (putBlocks raw sums).2 = raw.foldl adlerStep sums ∧
        (putBlocks raw sums).1.length ≤ raw.length + (raw.length + 65534) / 65535 * 5 := by
  induction hn : raw.length using Nat.strongRecOn generalizing raw sums with
  | _ n ih =>
    by_cases hraw : raw = []
    · subst hraw
      rw [putBlocks, if_pos rfl]
      exact ⟨fun h => absurd rfl h, rfl, Nat.zero_le _⟩
    · have hpos := List.length_pos_iff.mpr hraw
      have hdrop : (raw.drop 65535).length = raw.length - 65535 := List.length_drop
      obtain ⟨hread, hsums, hlen⟩ := ih (raw.drop 65535).length (by omega) (raw.drop 65535)
        ((raw.take 65535).foldl adlerStep sums) rfl
      have htake : (raw.take 65535).length ≤ 65535 := List.length_take_le _ _
      rw [putBlocks_eq hraw]
      refine ⟨fun _ rest => ?_, ?_, ?_⟩
      · rw [List.append_assoc, Png.inflateStored_storedBlock htake]
        by_cases hlast : raw.length ≤ 65535
        · rw [if_pos (decide_eq_true hlast), List.drop_of_length_le hlast, putBlocks, if_pos rfl,
            List.take_of_length_le hlast]
          rfl
        · have hne : raw.drop 65535 ≠ [] := by
            intro h
            rw [h, List.length_nil] at hdrop
            omega
          rw [if_neg (by simpa using hlast), hread hne rest, Option.map_some,
            List.take_append_drop]
      · dsimp only
        rw [hsums, ← List.foldl_append, List.take_append_drop]
      · have hblock : (Png.storedBlock (decide (raw.length ≤ 65535)) (raw.take 65535)).length =
            5 + min 65535 raw.length := by
          simp only [Png.storedBlock, List.length_cons, List.length_take]
          omega
        dsimp only
        rw [List.length_append, hblock]
        omega

/-- **The zlib stream inflates to the lines**, and its Adler-32 is theirs. -/
theorem readZlib_zlibStream {raw : Bytes} (hraw : raw ≠ []) :
    Png.readZlib (zlibStream raw) = some raw := by
  obtain ⟨hread, hsums, -⟩ := putBlocks_spec raw (1, 0)
  have hadler : (putBlocks raw (1, 0)).2.2 <<< 16 ||| (putBlocks raw (1, 0)).2.1 =
      Png.adler32 raw := by
    have hlow : (Png.adlerSums raw).1 % 65521 < 2 ^ 16 :=
      (Nat.mod_lt _ (by decide)).trans (by decide)
    rw [hsums, foldl_adlerStep_start, Png.adler32, ← Nat.shiftLeft_add_eq_or_of_lt hlow,
      Nat.shiftLeft_eq]
  have hstream : zlibStream raw = 0x78 :: 0x01 ::
      ((putBlocks raw (1, 0)).1 ++ (Png.be32 (Png.adler32 raw) ++ [])) := by
    rw [zlibStream, hadler, List.append_nil]
    rfl
  rw [hstream, Png.readZlib, if_neg (by decide), hread hraw]
  dsimp only
  rw [Png.readBe32_be32 (Png.adler32_lt raw), if_pos rfl]

/-- The stream fits its buffer. -/
theorem length_zlibStream_le (raw : Bytes) : (zlibStream raw).length ≤ zLen raw.length := by
  obtain ⟨-, -, hlen⟩ := putBlocks_spec raw (1, 0)
  have hstream : (zlibStream raw).length = 2 + (putBlocks raw (1, 0)).1.length + 4 := by
    simp only [zlibStream, List.length_append, List.length_cons, List.length_nil, Png.length_be32]
  rw [hstream, zLen]
  omega

/-- The lines of the drawing, with the filter none. -/
def drawingLines (gray : Bytes) : List (UInt8 × Bytes) :=
  (List.range captchaHeight).map fun y => (0, (gray.drop (y * captchaWidth)).take captchaWidth)

theorem rawLines_eq (gray : Bytes) :
    rawLines gray = (drawingLines gray).flatMap fun l => l.1 :: l.2 := by
  rw [drawingLines, List.flatMap_map]
  rfl

theorem length_of_mem_drawingLines {gray : Bytes}
    (hgray : gray.length = captchaWidth * captchaHeight) {l : UInt8 × Bytes}
    (hl : l ∈ drawingLines gray) : l.2.length = captchaWidth := by
  obtain ⟨y, hy, rfl⟩ := List.mem_map.mp hl
  have hy : y < captchaHeight := List.mem_range.mp hy
  rw [List.length_take, List.length_drop, hgray]
  simp only [captchaWidth, captchaHeight] at *
  omega

/-- The lines fill their buffer. -/
theorem length_rawLines {gray : Bytes} (hgray : gray.length = captchaWidth * captchaHeight) :
    (rawLines gray).length = captchaHeight * (captchaWidth + 1) := by
  have hlines : (drawingLines gray).map (fun l => (l.1 :: l.2).length) =
      (drawingLines gray).map fun _ => captchaWidth + 1 :=
    List.map_congr_left fun l hl => by
      rw [List.length_cons, length_of_mem_drawingLines hgray hl]
  have hcount : (drawingLines gray).length = captchaHeight := by
    rw [drawingLines, List.length_map, List.length_range]
  rw [rawLines_eq, List.length_flatMap, hlines, List.map_const', List.sum_replicate_nat, hcount]

/-- **The PNG is read as the lines of the drawing.** -/
theorem readPng_encodePng {gray : Bytes} (hgray : gray.length = captchaWidth * captchaHeight) :
    Png.readPng (encodePng gray) = some ⟨captchaWidth, captchaHeight, drawingLines gray⟩ := by
  have hraw := length_rawLines hgray
  have hne : rawLines gray ≠ [] := by
    intro h
    rw [h] at hraw
    cases hraw
  have hlines : Png.readScanlines captchaWidth captchaHeight (rawLines gray) =
      some (drawingLines gray) := by
    have h := @Png.readScanlines_flatMap captchaWidth (drawingLines gray)
      fun l hl => length_of_mem_drawingLines hgray hl
    rwa [← rawLines_eq, drawingLines, List.length_map, List.length_range, ← drawingLines] at h
  have hstream : (zlibStream (rawLines gray)).length < 2 ^ 32 := by
    refine (length_zlibStream_le _).trans_lt ?_
    rw [hraw]
    decide
  rw [encodePng, chunk_eq, chunk_eq, chunk_eq]
  exact Png.readPng_of_chunks rfl hstream rfl (readZlib_zlibStream hne) hlines

/-- The PNG fits its buffer. -/
theorem length_encodePng_le (gray : Bytes) :
    (encodePng gray).length ≤ pngCap (rawLines gray).length := by
  have hchunk : ∀ type data : Bytes, (chunk type data).length = type.length + data.length + 8 := by
    intro type data
    simp only [chunk, List.length_append, Png.length_be32]
    omega
  have hz := length_zlibStream_le (rawLines gray)
  have hihdr : ihdr.length = 13 := rfl
  have htypes : (lit "IHDR").length = 4 ∧ (lit "IDAT").length = 4 ∧ (lit "IEND").length = 4 :=
    ⟨rfl, rfl, rfl⟩
  simp only [encodePng, List.length_append, hchunk, hihdr, htypes, List.length_cons,
    List.length_nil, pngCap]
  omega

/-! ## The GIF is read -/

/-- The codes of the first `n` pixels. -/
def gifItems (gray : Bytes) (n : ℕ) : List Lzw.Item :=
  (List.range n).flatMap fun i =>
    (if i % gifRun = 0 then [(gifClear, gifCodeBits)] else []) ++
      [((gray.getD i 0 >>> 4).toNat, gifCodeBits)]

/-- The upper bits of the first `n` pixels. -/
def upperBits (gray : Bytes) (n : ℕ) : List ℕ := (List.range n).map fun i => (gray.getD i 0 >>> 4).toNat

theorem gifPixels_eq (gray : Bytes) (g : BlockWriter) :
    gifPixels gray g = g.putCodes (gifItems gray pixelCount) := by
  rw [gifPixels, BlockWriter.putCodes, gifItems, List.foldl_flatMap]
  congr 1
  funext g i
  split_ifs <;> rfl

theorem upper_lt (b : UInt8) : (b >>> 4).toNat < 16 := by
  have hall : ∀ b : UInt8, (b >>> 4).toNat < 16 := by decide +kernel
  exact hall b

/-- The table stays so small that a code has 5 bits. -/
theorem codeSize_small {n : ℕ} (hn : n < gifRun) : Lzw.codeSize 4 n = gifCodeBits := by
  have hsize : Nat.size (Lzw.firstFree 4 + n) ≤ 5 := by
    rw [Nat.size_le, Lzw.firstFree]
    rw [gifRun] at hn
    omega
  rw [Lzw.codeSize, gifCodeBits, max_eq_left hsize]
  rfl

/-- A pixel as a code. -/
theorem step_pixel {d : Lzw.Decoder} (hprev : d.prev = none → d.strings = []) {c : ℕ} (hc : c < 16) :
    ∃ d', Lzw.step 4 d c = some ([c], d') ∧
      d'.strings.length ≤ (if d.prev = none then 0 else d.strings.length + 1) ∧ d'.prev ≠ none := by
  have hclear : c ≠ Lzw.clearCode 4 := hc.ne
  have hlookup : ∀ strings, Lzw.lookup 4 strings c = some [c] := fun _ => if_pos hc
  rw [Lzw.step, if_neg hclear]
  cases hd : d.prev with
  | none =>
    rw [hlookup]
    refine ⟨⟨d.strings, some [c]⟩, rfl, ?_, Option.some_ne_none _⟩
    rw [if_pos rfl, hprev hd]
    exact le_rfl
  | some p =>
    have hstring : Lzw.stringOf 4 d p c = some [c] := by
      have hfree : Lzw.firstFree 4 = 18 := rfl
      rw [Lzw.stringOf, if_neg (by omega), hlookup]
    dsimp only
    rw [hstring]
    refine ⟨_, rfl, ?_, Option.some_ne_none _⟩
    rw [if_neg (Option.some_ne_none p), Lzw.addString]
    split_ifs
    · rw [List.length_append, List.length_singleton]
    · exact Nat.le_succ _

/-- **The pixels are read one by one**, as the clear codes come before the table is too large. -/
theorem run_gifItems (gray : Bytes) (n : ℕ) :
    ∃ d, Lzw.Run 4 Lzw.fresh (gifItems gray n) (upperBits gray n) d ∧
      d.strings.length ≤ (n - 1) % gifRun ∧ (d.prev = none → n = 0) := by
  induction n with
  | zero => exact ⟨Lzw.fresh, Lzw.Run.nil _, le_rfl, fun _ => rfl⟩
  | succ n ih =>
    obtain ⟨d, hrun, hlen, hprev⟩ := ih
    have hpixel : (gray.getD n 0 >>> 4).toNat < 16 := upper_lt _
    have hfits : (gray.getD n 0 >>> 4).toNat < 2 ^ gifCodeBits := hpixel.trans (by decide)
    have hend : (gray.getD n 0 >>> 4).toNat ≠ Lzw.endCode 4 :=
      (hpixel.trans (by decide : 16 < Lzw.endCode 4)).ne
    have hmod : (n - 1) % gifRun < gifRun := Nat.mod_lt _ (by decide)
    have hitems : gifItems gray (n + 1) = gifItems gray n ++
        ((if n % gifRun = 0 then [(gifClear, gifCodeBits)] else []) ++
          [((gray.getD n 0 >>> 4).toNat, gifCodeBits)]) := by
      rw [gifItems, List.range_succ, List.flatMap_append, List.flatMap_singleton, ← gifItems]
    have hout : upperBits gray (n + 1) = upperBits gray n ++ [(gray.getD n 0 >>> 4).toNat] := by
      rw [upperBits, List.range_succ, List.map_append, List.map_singleton, ← upperBits]
    rw [hitems, hout]
    by_cases hclear : n % gifRun = 0
    · -- a clear code first, so that the pixel adds nothing to the table
      have hcleared : Lzw.Run 4 d [(gifClear, gifCodeBits)] [] Lzw.fresh :=
        Lzw.run_single (codeSize_small (by omega)).symm (by decide) (by decide) rfl
      obtain ⟨d', hstep, hlen', hprev'⟩ := @step_pixel Lzw.fresh (fun _ => rfl) _ hpixel
      have hone : Lzw.Run 4 Lzw.fresh [((gray.getD n 0 >>> 4).toNat, gifCodeBits)] _ d' :=
        Lzw.run_single (codeSize_small (by decide)).symm hfits hend hstep
      rw [if_pos hclear]
      refine ⟨d', hrun.append (hcleared.append hone), ?_, fun h => absurd h hprev'⟩
      rw [if_pos (show Lzw.fresh.prev = none from rfl)] at hlen'
      omega
    · have hne : n ≠ 0 := by
        rintro rfl
        exact hclear rfl
      have hsome : d.prev ≠ none := fun h => hne (hprev h)
      obtain ⟨d', hstep, hlen', hprev'⟩ := @step_pixel d (fun h => absurd h hsome) _ hpixel
      have hone : Lzw.Run 4 d [((gray.getD n 0 >>> 4).toNat, gifCodeBits)] _ d' :=
        Lzw.run_single (codeSize_small (by omega)).symm hfits hend hstep
      rw [if_neg hclear, List.nil_append]
      refine ⟨d', hrun.append hone, ?_, fun h => absurd h hprev'⟩
      rw [if_neg hsome] at hlen'
      rw [gifRun] at *
      omega

/-- There is a clear code every few pixels. -/
theorem length_gifItems (gray : Bytes) (n : ℕ) :
    (gifItems gray n).length = n + (n + (gifRun - 1)) / gifRun := by
  induction n with
  | zero => rfl
  | succ n ih =>
    rw [gifItems, List.range_succ, List.flatMap_append, List.flatMap_singleton, ← gifItems,
      List.length_append, List.length_append, ih, List.length_singleton]
    rw [gifRun]
    split_ifs with hclear
    · rw [List.length_singleton]
      omega
    · rw [List.length_nil]
      omega

theorem fits_of_mem_gifItems {gray : Bytes} {n : ℕ} {i : Lzw.Item} (hi : i ∈ gifItems gray n) :
    i.1 < 2 ^ i.2 ∧ i.2 = gifCodeBits := by
  obtain ⟨k, -, hi⟩ := List.mem_flatMap.mp hi
  rcases List.mem_append.mp hi with hi | hi
  · split_ifs at hi
    · obtain rfl := List.mem_singleton.mp hi
      exact ⟨by decide, rfl⟩
    · cases hi
  · obtain rfl := List.mem_singleton.mp hi
    exact ⟨(upper_lt _).trans (Nat.pow_lt_pow_right (by decide) (by decide) : 2 ^ 4 < 2 ^ gifCodeBits), rfl⟩

/-- The sixteen grays. -/
def grays : List Bytes := (List.range 16).map fun i => List.replicate 3 (UInt8.ofNat (i * 17))

theorem gifHeader_eq : gifHeader = fileHeader captchaWidth captchaHeight 0xB3 grays 4 := by
  rw [gifHeader, fileHeader, grays, List.flatMap_def]

/-- The codes of the pixels, and the end code. -/
def gifCodes (gray : Bytes) : List Lzw.Item := gifItems gray pixelCount ++ [(gifEnd, gifCodeBits)]

theorem encodeGif_eq (gray : Bytes) : encodeGif gray =
    (BlockWriter.putCodes ⟨gifHeader, [], 0, 0⟩ (gifCodes gray)).flushBits.finish ++ trailer := by
  have hfinish : ∀ g : BlockWriter, (if 0 < g.nbits then g.putByte (UInt8.ofNat g.bits) else g).out ++
      (if (if 0 < g.nbits then g.putByte (UInt8.ofNat g.bits) else g).block ≠ [] then
        UInt8.ofNat (if 0 < g.nbits then g.putByte (UInt8.ofNat g.bits) else g).block.length ::
          (if 0 < g.nbits then g.putByte (UInt8.ofNat g.bits) else g).block else []) ++ [0, 0x3B] =
        g.flushBits.finish ++ trailer := by
    intro g
    rw [BlockWriter.finish, BlockWriter.flushBits, subBlock, ite_not]
    split_ifs <;> simp_all [BlockWriter.putLow, trailer]
  rw [gifCodes, BlockWriter.putCodes_concat, ← gifPixels_eq]
  exact hfinish (gifCode (gifPixels gray ⟨gifHeader, [], 0, 0⟩) gifEnd)

theorem fits_of_mem_gifCodes {gray : Bytes} {i : Lzw.Item} (hi : i ∈ gifCodes gray) :
    i.1 < 2 ^ i.2 ∧ i.2 = gifCodeBits := by
  rcases List.mem_append.mp hi with hi | hi
  · exact fits_of_mem_gifItems hi
  · obtain rfl := List.mem_singleton.mp hi
    exact ⟨by decide, rfl⟩

/-- The codes fill whole bytes. -/
theorem length_bitsOf_gifCodes (gray : Bytes) : (Lzw.bitsOf (gifCodes gray)).length = 75840 := by
  rw [Lzw.length_bitsOf fun i hi => (fits_of_mem_gifCodes hi).2, gifCodes, List.length_append,
    length_gifItems]
  rfl

/-- **The GIF is read as the upper bits of the drawing**, and fits its buffer. -/
theorem readGif_encodeGif (gray : Bytes) : ∃ data : Bytes,
    readGif (encodeGif gray) =
      some ⟨captchaWidth, captchaHeight, grays, captchaWidth, captchaHeight, 4, data⟩ ∧
    (∃ rest, Lzw.decode 4 (data.flatMap lsbByte) =
      some ⟨upperBits gray pixelCount, gifCodeBits, rest⟩) ∧
    (encodeGif gray).length ≤ gifCap := by
  obtain ⟨d, hrun, hlen, -⟩ := run_gifItems gray pixelCount
  have hsmall : d.strings.length < gifRun := hlen.trans_lt (Nat.mod_lt _ (by decide))
  obtain ⟨hholds, hbits⟩ := (holds_start gifHeader).putCodes (by decide)
    fun i hi => (@fits_of_mem_gifCodes gray i hi).1
  obtain ⟨data, hdata, blocks, hblocks, hread, hsize⟩ := hholds.exists_data hbits
  have hfile : encodeGif gray = gifHeader ++ (blocks ++ trailer) := by
    rw [encodeGif_eq, hblocks, List.append_assoc]
  rw [List.nil_append] at hdata
  have hdecode := Lzw.decode_run hrun (codeSize_small hsmall).symm (by decide)
    (padding (Lzw.bitsOf (gifCodes gray)))
  refine ⟨data, ?_, ⟨padding (Lzw.bitsOf (gifCodes gray)), ?_⟩, ?_⟩
  · rw [hfile, gifHeader_eq]
    exact readGif_of_parts (by decide) (by decide) (by decide) rfl (by decide) 4 (hread _)
  · rw [hdata]
    have hend : Lzw.bitsOf (gifCodes gray) = Lzw.bitsOf (gifItems gray pixelCount) ++
        lsbBits gifCodeBits (Lzw.endCode 4) := by
      rw [gifCodes, Lzw.bitsOf_append, Lzw.bitsOf_cons, Lzw.bitsOf_nil, List.append_nil,
        show gifEnd = Lzw.endCode 4 from rfl]
    rw [← hdecode, ← List.append_assoc, ← hend]
  · have hlong := congrArg List.length hdata
    rw [List.length_flatMap, List.length_append, length_bitsOf_gifCodes, padding,
      length_bitsOf_gifCodes] at hlong
    simp only [length_lsbByte, List.map_const', List.sum_replicate_nat, List.length_replicate] at hlong
    have hheader : gifHeader.length = 72 := rfl
    have htrailer : trailer.length = 1 := rfl
    have hcap : gifCap = 9595 := by decide
    rw [hfile, List.length_append, List.length_append, hheader, htrailer, hcap]
    omega

/-! ## The law -/

/-- What is asked of the pictures of a drawing. -/
structure DecodesToDrawing (gray : Bytes) : Prop where
  /-- The GIF, with a minimum code size of 4, gives the upper four bits of the pixels in their order,
  and the end code with 5 bits. -/
  gif : ∃ image, readGif (encodeGif gray) = some image ∧ image.minCodeSize = 4 ∧
    image.width = captchaWidth ∧ image.height = captchaHeight ∧ image.colors = grays ∧
      ∃ rest, Lzw.decode 4 (image.data.flatMap lsbByte) =
        some ⟨gray.map fun b : UInt8 => (b >>> 4).toNat, 5, rest⟩
  /-- The PNG, its CRCs and its Adler-32 right, gives the lines of the drawing, each with filter 0. -/
  png : Png.readPng (encodePng gray) = some ⟨captchaWidth, captchaHeight,
    (List.range captchaHeight).map fun y => (0, (gray.drop (y * captchaWidth)).take captchaWidth)⟩
  /-- Nothing is written past the buffers. -/
  gifFits : (encodeGif gray).length ≤ gifCap
  linesFit : (rawLines gray).length ≤ captchaHeight * (captchaWidth + 1)
  streamFits : (zlibStream (rawLines gray)).length ≤ zLen (captchaHeight * (captchaWidth + 1))
  pngFits : (encodePng gray).length ≤ pngCap (captchaHeight * (captchaWidth + 1))

/-- **The pictures of every drawing are read back as the drawing.** -/
theorem decodesToDrawing {gray : Bytes} (hgray : gray.length = captchaWidth * captchaHeight) :
    DecodesToDrawing gray := by
  have hlines := length_rawLines hgray
  have hstream := length_zlibStream_le (rawLines gray)
  have hpng := length_encodePng_le gray
  have hupper : upperBits gray pixelCount = gray.map fun b : UInt8 => (b >>> 4).toNat := by
    conv_rhs => rw [← map_getD_range gray 0, List.map_map, hgray]
    rfl
  obtain ⟨data, hread, ⟨rest, hdecode⟩, hfits⟩ := readGif_encodeGif gray
  rw [hupper] at hdecode
  rw [hlines] at hstream hpng
  exact ⟨⟨_, hread, rfl, rfl, rfl, rfl, rest, hdecode⟩, readPng_encodePng hgray, hfits, hlines.le,
    hstream, hpng⟩

/-- A drawing of every shade. -/
theorem decodesToDrawing_shades :
    DecodesToDrawing ((List.range (captchaWidth * captchaHeight)).map fun n => UInt8.ofNat (n * n)) :=
  decodesToDrawing (by simp)

end BoatRudder.Utils
