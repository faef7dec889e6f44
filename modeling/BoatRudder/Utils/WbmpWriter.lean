import BoatRudder.Formats.Wbmp

/-! # Writing WBMP files

`write_wbmp`: what it puts into the file, and that the file reads as the bitmap it was given
(`decodesTo_iff`), as long as the width rounded up to whole bytes is an `int`. Opening and writing the
file never fail here. -/

namespace BoatRudder.Utils

open Wbmp

/-- `INT_MAX`. -/
def intMax : ℕ := 2147483647

/-- The loop that fills `mb`: groups of seven bits, the lowest first. -/
def mbGroups (v : ℕ) : List ℕ :=
  (v &&& 0x7F) :: if 0 < v >>> 7 then mbGroups (v >>> 7) else []
termination_by v
decreasing_by
  rename_i h
  rw [Nat.shiftRight_eq_div_pow] at h ⊢
  omega

/-- A dimension as it is put into the file: `mb` from its end on, and a bit that says that more
follows on all of it but the last. -/
def putDimension (v : ℕ) : Bytes :=
  let mb := mbGroups v
  (List.range mb.length).reverse.map fun n =>
    UInt8.ofNat (mb.getD n 0 ||| if 0 < n then 0x80 else 0)

/-- The bit loop: byte `b` of row `y`. -/
def rowByte (pixels : Bytes) (width y b : ℕ) : UInt8 :=
  (List.range 8).foldl (fun byte bit =>
    let x := b * 8 + bit
    -- beyond the row the padding is white
    let dark := if x < width then pixels.getD (y * width + x) 0 &&& 1 else 0
    if dark = 0 then byte ||| (0x80 >>> UInt8.ofNat bit) else byte) 0

/-- The rows of the bitmap. -/
def wbmpRows (pixels : Bytes) (width height : ℕ) : Bytes :=
  (List.range height).flatMap fun y =>
    (List.range ((width + 7) / 8)).map fun b => rowByte pixels width y b

/-- `write_wbmp`: the file, unless an `int` overflows on the way, which leaves the behaviour
undefined: `width + 7`, or the largest `y * width + x`. -/
def writeWbmp (pixels : Bytes) (width height : ℕ) : Option Bytes :=
  if intMax < width + 7 ∨ intMax < width * height - 1 then none
  else some ([0, 0] ++ putDimension width ++ putDimension height ++ wbmpRows pixels width height)

/-! ## Dimensions -/

theorem mbGroups_eq (v : ℕ) :
    mbGroups v = v % 128 :: if v < 128 then [] else mbGroups (v / 128) := by
  rw [mbGroups, show (0x7F : ℕ) = 2 ^ 7 - 1 from rfl, Nat.and_two_pow_sub_one_eq_mod,
    Nat.shiftRight_eq_div_pow]
  by_cases h : v < 128
  · rw [if_pos h, if_neg (by omega)]
  · rw [if_neg h, if_pos (by omega)]

theorem lt_of_mem_mbGroups {v g : ℕ} (h : g ∈ mbGroups v) : g < 128 := by
  induction v using Nat.strongRecOn with
  | _ v ih =>
    rw [mbGroups_eq] at h
    rcases List.mem_cons.mp h with rfl | h
    · exact Nat.mod_lt _ (by decide)
    · split_ifs at h with hv
      · cases h
      · exact ih _ (by omega) h

/-- A group with the bit that says that more follows. -/
theorem or_more {g : ℕ} (hg : g < 128) : g ||| 0x80 = g + 128 := by
  rw [Nat.or_comm, show (0x80 : ℕ) = 2 ^ 7 * 1 from rfl, ← Nat.two_pow_add_eq_or_of_lt hg,
    Nat.add_comm]

/-- The groups in the order of the file. -/
theorem putDimension_eq (v : ℕ) :
    putDimension v = (if v < 128 then [] else
      (mbGroups (v / 128)).reverse.map fun g => UInt8.ofNat (g + 128)) ++ [UInt8.ofNat (v % 128)] := by
  have hmb : ∀ gs : List ℕ, (∀ g ∈ gs, g < 128) →
      ((List.range gs.length).reverse.map fun n => UInt8.ofNat (gs.getD n 0 ||| 0x80)) =
        gs.reverse.map fun g => UInt8.ofNat (g + 128) := by
    intro gs hgs
    conv_rhs => rw [← map_getD_range gs 0, ← List.map_reverse, List.map_map]
    refine List.map_congr_left fun n hn => ?_
    have hlt : n < gs.length := by simpa using hn
    have hmem : gs.getD n 0 ∈ gs := by
      rw [List.getD_eq_getElem?_getD, List.getElem?_eq_getElem hlt]
      exact List.getElem_mem hlt
    rw [or_more (hgs _ hmem)]
    rfl
  set rest := if v < 128 then [] else mbGroups (v / 128) with hrest
  have hsmall : ∀ g ∈ rest, g < 128 := by
    intro g hg
    rw [hrest] at hg
    split_ifs at hg
    · cases hg
    · exact lt_of_mem_mbGroups hg
  have hsplit : putDimension v =
      (rest.reverse.map fun g => UInt8.ofNat (g + 128)) ++ [UInt8.ofNat (v % 128)] := by
    rw [putDimension, mbGroups_eq, ← hrest, ← hmb rest hsmall, List.length_cons,
      List.range_succ_eq_map, List.reverse_cons, List.map_append, ← List.map_reverse, List.map_map]
    simp
  rw [hsplit, hrest]
  split_ifs <;> rfl

/-- **A dimension is read back**, whatever follows it. -/
theorem readMbInt_putDimension (v : ℕ) (rest : Bytes) :
    readMbInt 0 (putDimension v ++ rest) = some (v, rest) := by
  have hlast : v % 128 < 128 := Nat.mod_lt _ (by decide)
  -- the groups before the last one, by induction on their number
  have hmore : ∀ u t, readMbInt 0 (((mbGroups u).reverse.map fun g => UInt8.ofNat (g + 128)) ++ t) =
      readMbInt u t := by
    intro u
    induction u using Nat.strongRecOn with
    | _ u ih =>
      intro t
      have hu : u % 128 < 128 := Nat.mod_lt _ (by decide)
      rw [mbGroups_eq, List.reverse_cons, List.map_append, List.append_assoc]
      split_ifs with hsmall
      · rw [List.reverse_nil, List.map_nil, List.nil_append, List.map_singleton,
          List.singleton_append, readMbInt_more hu, Nat.mod_eq_of_lt hsmall, Nat.zero_mul,
          Nat.zero_add]
      · rw [ih (u / 128) (by omega), List.map_singleton, List.singleton_append, readMbInt_more hu,
          Nat.div_add_mod' u 128]
  rw [putDimension_eq, List.append_assoc, List.singleton_append]
  split_ifs with hsmall
  · rw [List.nil_append, readMbInt_last hlast, Nat.mod_eq_of_lt hsmall, Nat.zero_mul, Nat.zero_add]
  · rw [hmore, readMbInt_last hlast, Nat.div_add_mod' v 128]

/-! ## Rows -/

/-- Whether the pixel at `x` of row `y` is white. -/
def whiteAt (pixels : Bytes) (width y x : ℕ) : Bool :=
  if x < width then pixels.getD (y * width + x) 0 &&& 1 == 0 else true

/-- The bits of a byte of a row. -/
theorem msbBits_rowByte (pixels : Bytes) (width y b : ℕ) :
    msbBits (rowByte pixels width y b) =
      (List.range 8).map fun bit => whiteAt pixels width y (b * 8 + bit) := by
  rw [← msbBits_foldl, rowByte]
  congr 1
  apply List.foldl_ext
  intro byte bit _
  by_cases hx : b * 8 + bit < width <;> simp [whiteAt, hx]

/-- The bits of a row, its padding included. -/
theorem flatMap_msbBits_row (pixels : Bytes) (width y : ℕ) :
    (((List.range ((width + 7) / 8)).map fun b => rowByte pixels width y b).flatMap msbBits) =
      (List.range ((width + 7) / 8 * 8)).map (whiteAt pixels width y) := by
  rw [List.flatMap_map]
  simp only [msbBits_rowByte]
  exact flatMap_range_mul (whiteAt pixels width y) _ 8

/-- A row is its pixels and its padding. -/
theorem range_row (pixels : Bytes) (width y : ℕ) :
    (List.range ((width + 7) / 8 * 8)).map (whiteAt pixels width y) =
      ((List.range width).map fun x => pixels.getD (y * width + x) 0 &&& 1 == 0) ++
        List.replicate ((width + 7) / 8 * 8 - width) true := by
  have hsplit : (width + 7) / 8 * 8 = width + ((width + 7) / 8 * 8 - width) := by omega
  conv_lhs => rw [hsplit, List.range_add, List.map_append, List.map_map]
  congr 1
  · refine List.map_congr_left fun x hx => ?_
    rw [whiteAt, if_pos (List.mem_range.mp hx)]
  · rw [List.eq_replicate_iff]
    refine ⟨by simp, fun b hb => ?_⟩
    obtain ⟨x, -, rfl⟩ := List.mem_map.mp hb
    simp [whiteAt]

/-! ## The file -/

/-- The bitmap a file is to hold: the pixels inverted, and white beyond them. -/
def inverted (pixels : Bytes) (width height : ℕ) : Image where
  width := width
  height := height
  rows := (List.range height).map fun y =>
    (List.range ((width + 7) / 8 * 8)).map (whiteAt pixels width y)

/-- Its pixels are those of the buffer, a zero being white. -/
theorem pixels_inverted {pixels : Bytes} {width height : ℕ} (hlen : pixels.length = width * height)
    (hpixels : ∀ p ∈ pixels, p = 0 ∨ p = 1) :
    (inverted pixels width height).pixels = pixels.map (· == 0) := by
  have hrow : ∀ y, ((List.range ((width + 7) / 8 * 8)).map (whiteAt pixels width y)).take width =
      (List.range width).map fun x => pixels.getD (y * width + x) 0 &&& 1 == 0 := by
    intro y
    rw [range_row]
    exact List.take_left' (by simp)
  have hall := flatMap_range_mul (fun i => pixels.getD i 0 &&& 1 == 0) height width
  rw [Image.pixels, inverted, List.flatMap_map]
  simp only [hrow]
  rw [hall, Nat.mul_comm, ← hlen]
  conv_rhs => rw [← map_getD_range pixels 0, List.map_map]
  refine List.map_congr_left fun i hi => ?_
  have hmem : pixels.getD i 0 ∈ pixels := by
    have hlt := List.mem_range.mp hi
    rw [List.getD_eq_getElem?_getD, List.getElem?_eq_getElem hlt]
    exact List.getElem_mem hlt
  rcases hpixels _ hmem with h | h <;> rw [Function.comp_apply, h] <;> rfl

/-- Its padding is white. -/
theorem padding_inverted (pixels : Bytes) (width height : ℕ) {b : Bool}
    (hb : b ∈ (inverted pixels width height).padding) : b = true := by
  rw [Image.padding, inverted, List.flatMap_map] at hb
  obtain ⟨y, -, hb⟩ := List.mem_flatMap.mp hb
  rw [range_row, List.drop_left' (by simp)] at hb
  exact (List.mem_replicate.mp hb).2

/-- The file reads as that bitmap, to its end. -/
theorem readWbmp_written (pixels : Bytes) (width height : ℕ) :
    readWbmp ([0, 0] ++ putDimension width ++ putDimension height ++ wbmpRows pixels width height) =
      some (inverted pixels width height, []) := by
  have hrows := @readRows_flatMap ((width + 7) / 8)
    (fun y => (List.range ((width + 7) / 8)).map fun b => rowByte pixels width y b)
    (fun y => by simp) height [] 0
  simp only [Nat.zero_add, List.append_nil, flatMap_msbBits_row] at hrows
  rw [List.append_assoc, List.append_assoc]
  exact readWbmp_of_parts (readMbInt_putDimension width _) (readMbInt_putDimension height _) hrows

/-- A file is written, and reading it as WBMP of type 0 gives the width, the height, the pixels
inverted and white padding, and leaves nothing. -/
def DecodesTo (pixels : Bytes) (width height : ℕ) : Prop :=
  ∃ file image, writeWbmp pixels width height = some file ∧ readWbmp file = some (image, []) ∧
    image.width = width ∧ image.height = height ∧ image.pixels = pixels.map (· == 0) ∧
    ∀ b ∈ image.padding, b = true

/-- **A bitmap is read back from its file** exactly where the width can be rounded up to whole bytes
within an `int`. -/
theorem decodesTo_iff {pixels : Bytes} {width height : ℕ} (hfits : width * height ≤ intMax)
    (hlen : pixels.length = width * height) (hpixels : ∀ p ∈ pixels, p = 0 ∨ p = 1) :
    DecodesTo pixels width height ↔ width + 7 ≤ intMax := by
  constructor
  · rintro ⟨file, image, hfile, -⟩
    rw [writeWbmp] at hfile
    split_ifs at hfile with h
    omega
  · intro hwidth
    refine ⟨_, inverted pixels width height, ?_, readWbmp_written pixels width height, rfl, rfl,
      pixels_inverted hlen hpixels, fun b hb => padding_inverted pixels width height hb⟩
    rw [writeWbmp, if_neg (by omega)]

/-- A bitmap of 9 by 2 pixels. -/
theorem decodesTo_nineByTwo :
    DecodesTo [1, 0, 1, 0, 1, 0, 1, 0, 1, 0, 0, 0, 0, 0, 0, 0, 0, 1] 9 2 :=
  (decodesTo_iff (by decide) (by decide) (by decide)).mpr (by decide)

/-- The widest bitmap of one row is not written. -/
theorem not_decodesTo_widest : ¬ DecodesTo (List.replicate intMax 0) intMax 1 := by
  rintro ⟨file, image, hfile, -⟩
  rw [writeWbmp, if_pos (Or.inl (Nat.lt_add_of_pos_right (by decide)))] at hfile
  cases hfile

end BoatRudder.Utils
