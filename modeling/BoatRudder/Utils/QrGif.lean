import BoatRudder.Formats.Gif
import BoatRudder.Formats.LzwParse
import BoatRudder.Runs.Probing
import BoatRudder.Utils.WbmpWriter

/-! # The GIF of a QR code

`write_gif`: the LZW encoder with its dictionary in a hash table, and the file it writes. The codes of
the pixels are always read back; the end code is put with the size of the code before it, and where
the decoder's size has grown by then, only the zeros that fill the last byte make up for the missing
bit (`qrDecodes_iff`). Opening and writing the file never fail here, nor does the allocation. -/

namespace BoatRudder.Utils

open Gif Lzw Probing

/-! ## The dictionary -/

/-- `LZW_MAX_CODES`. -/
def lzwMaxCodes : ℕ := 4096

/-- `LZW_HASH_SIZE`. -/
def lzwHashSize : ℕ := 5003

/-- The slots of `LZWEntry`: prefix and suffix, and the code; an entry whose code is -1 is none. -/
abbrev LzwHash : Type := Slots (ℕ × ℕ) ℕ

/-- Where the search for a prefix and a suffix begins. -/
def lzwHome (k : ℕ × ℕ) : ℕ := (k.1 * 31 + k.2 * 97) % lzwHashSize

/-- `lzw_hash_clear`. -/
def lzwHashClear : LzwHash := fun _ => none

/-- `lzw_hash_find`: the code, none for -1; nothing when the loop does not end. -/
def lzwHashFind (hash : LzwHash) (before suffix : ℕ) : Option (Option ℕ) :=
  Probing.find lzwHashSize lzwHome hash (before, suffix)

/-- `lzw_hash_add`. -/
def lzwHashAdd (hash : LzwHash) (before suffix code : ℕ) : Option LzwHash :=
  Probing.add lzwHashSize lzwHome hash (before, suffix) code

/-! ## The encoder -/

/-- `min_code`. -/
def minCode : ℕ := 2

/-- `clear_c`. -/
def clearC : ℕ := 1 <<< minCode

/-- `eoi_c`. -/
def eoiC : ℕ := clearC + 1

/-- The state of the loop, but for `prefix`. -/
structure LzwState where
  hash : LzwHash
  codeSize : ℕ
  nextCode : ℕ
  codeLimit : ℕ

/-- The state at the start and behind a clear code. -/
def lzwStart : LzwState := ⟨lzwHashClear, minCode + 1, eoiC + 1, 1 <<< (minCode + 1)⟩

/-- A code for a prefix and a suffix, and the code size for the codes behind it. -/
def LzwState.addCode (st : LzwState) (before px : ℕ) : Option LzwState :=
  (lzwHashAdd st.hash before px st.nextCode).map fun hash =>
    if st.codeLimit < st.nextCode + 1 ∧ st.codeSize < 12 then
      ⟨hash, st.codeSize + 1, st.nextCode + 1, st.codeLimit <<< 1⟩
    else ⟨hash, st.codeSize, st.nextCode + 1, st.codeLimit⟩

/-- `px`. -/
def pixel (p : UInt8) : ℕ := (p &&& 1).toNat

/-- The loop over the pixels from where there is a prefix: the codes it puts, with their sizes, and the
two behind the loop. Nothing when a search does not end. -/
def lzwLoop : LzwState → ℕ → Bytes → Option (List Item)
  | st, before, [] => some [(before, st.codeSize), (eoiC, st.codeSize)]
  | st, before, p :: pixels => do
    let px := pixel p
    match ← lzwHashFind st.hash before px with
    | some found => lzwLoop st found pixels
    | none =>
      if st.nextCode < lzwMaxCodes then do
        let st' ← st.addCode before px
        let items ← lzwLoop st' px pixels
        some ((before, st.codeSize) :: items)
      else do
        let items ← lzwLoop lzwStart px pixels
        some ((before, st.codeSize) :: (clearC, st.codeSize) :: items)

/-- The codes of an image. -/
def lzwCodes : Bytes → Option (List Item)
  | [] => some [(clearC, lzwStart.codeSize), (eoiC, lzwStart.codeSize)]
  | p :: pixels =>
    (lzwLoop lzwStart (pixel p) pixels).map ((clearC, lzwStart.codeSize) :: ·)

/-- The loop of `gif_flush_bits`. -/
def flushLoop (g : BlockWriter) : BlockWriter := if 0 < g.nbits then flushLoop g.putLow else g
termination_by g.nbits
decreasing_by
  rename_i h
  rw [BlockWriter.putLow, BlockWriter.putByte]
  split <;> simp only <;> omega

/-- `gif_flush_bits`. -/
def gifFlushBits (g : BlockWriter) : Bytes :=
  let g := flushLoop g
  g.out ++ (if 0 < g.block.length then UInt8.ofNat g.block.length :: g.block else []) ++ [0]

/-- What stands in front of the data. -/
def qrGifHeader (width height : ℕ) (bg fg : Bytes) : Bytes :=
  lit "GIF87a" ++ le16 width ++ le16 height ++ [0xA0, 0, 0] ++ bg ++ fg ++
    [0x2C, 0, 0, 0, 0] ++ le16 width ++ le16 height ++ [0, UInt8.ofNat minCode]

/-- `write_gif`: the file, unless `total` overflows, which leaves the behaviour undefined, or a search
does not end. -/
def writeGif (pixels : Bytes) (width height : ℕ) (bg fg : Bytes) : Option Bytes :=
  let total := width * height
  if intMax < total then none
  else (lzwCodes (pixels.take total)).map fun items =>
    gifFlushBits (BlockWriter.putCodes ⟨qrGifHeader width height bg fg, [], 0, 0⟩ items) ++ [0x3B]

/-! ## The dictionary and the table -/

/-- The encoder has the table `E`: its dictionary has a code for every string of it, under the code of
the string without its last pixel and that pixel. -/
structure Encodes (st : LzwState) (E : List (List ℕ)) : Prop where
  length_le : E.length ≤ room 2
  nextCode : st.nextCode = firstFree 2 + E.length
  codeSize : st.codeSize = putSize 2 E.length
  codeLimit : st.codeLimit = 2 ^ st.codeSize
  nodup : E.Nodup
  long : ∀ s ∈ E, 2 ≤ s.length
  dict : ∃ D, Dict lzwHashSize lzwHome st.hash D E.length ∧
    (∀ k c, D k = some c → ∃ w, lookup 2 E k.1 = some w ∧ lookup 2 E c = some (w ++ [k.2]) ∧
      firstFree 2 ≤ c) ∧
    ∀ i < E.length, ∃ k, D k = some (firstFree 2 + i)

theorem lzwHome_lt (k : ℕ × ℕ) : lzwHome k < lzwHashSize := Nat.mod_lt _ (by decide)

theorem encodes_start : Encodes lzwStart [] where
  length_le := Nat.zero_le _
  nextCode := rfl
  codeSize := by decide
  codeLimit := rfl
  nodup := List.nodup_nil
  long := nofun
  dict := ⟨fun _ => none, dict_empty lzwHome_lt (by decide), fun _ _ h => (by cases h),
    fun i hi => absurd hi (Nat.not_lt_zero i)⟩

variable {st : LzwState} {E : List (List ℕ)}

/-- A string has one code. -/
theorem Encodes.lookup_inj (h : Encodes st E) {c d : ℕ} {w : List ℕ} (hc : lookup 2 E c = some w)
    (hd : lookup 2 E d = some w) : c = d := by
  have hlong : ∀ i, E[i]? = some w → 2 ≤ w.length := fun i hi => h.long w (List.mem_of_getElem? hi)
  rcases lookup_cases hc with ⟨-, hwc⟩ | ⟨i, rfl, hi⟩ <;>
    rcases lookup_cases hd with ⟨-, hwd⟩ | ⟨j, rfl, hj⟩
  · exact List.singleton_inj.mp (hwc.symm.trans hwd)
  · have := hlong j hj
    rw [hwc, List.length_singleton] at this
    omega
  · have := hlong i hi
    rw [hwd, List.length_singleton] at this
    omega
  · obtain ⟨hilt, hi⟩ := List.getElem?_eq_some_iff.mp hi
    obtain ⟨hjlt, hj⟩ := List.getElem?_eq_some_iff.mp hj
    rw [(h.nodup.getElem_inj_iff).mp (hi.trans hj.symm)]

/-- **The search finds the code of the string that is one pixel longer**, when the table has it. -/
theorem Encodes.find (h : Encodes st E) {c : ℕ} {w : List ℕ} (hw : w ≠ [])
    (hc : lookup 2 E c = some w) (x : ℕ) :
    lzwHashFind st.hash c x =
      some (if w ++ [x] ∈ E then some (codeOf 2 E (w ++ [x])) else none) := by
  obtain ⟨D, hdict, hsound, hcomplete⟩ := h.dict
  rw [lzwHashFind, hdict.found]
  congr 1
  split_ifs with hin
  · obtain ⟨i, hi, hget⟩ := List.getElem_of_mem hin
    obtain ⟨⟨c', x'⟩, hk⟩ := hcomplete i hi
    obtain ⟨w', hprefix, hstring, -⟩ := hsound _ _ hk
    rw [lookup_string, List.getElem?_eq_getElem hi, hget, Option.some.injEq] at hstring
    obtain ⟨rfl, hx⟩ := List.append_inj' hstring rfl
    obtain rfl : x = x' := List.singleton_inj.mp hx
    have hprefix : lookup 2 E c' = some w := hprefix
    rw [h.lookup_inj hc hprefix, hk]
    congr 1
    refine h.lookup_inj ?_ (lookup_codeOf (isPhrase_append hw hin))
    rw [lookup_string, List.getElem?_eq_getElem hi, hget]
  · by_contra hsome
    obtain ⟨d, hd⟩ := Option.ne_none_iff_exists'.mp hsome
    obtain ⟨w', hprefix, hstring, hfree⟩ := hsound _ _ hd
    have hprefix : lookup 2 E c = some w' := hprefix
    rw [hc, Option.some.injEq] at hprefix
    subst hprefix
    obtain ⟨i, rfl⟩ : ∃ i, d = firstFree 2 + i := ⟨d - firstFree 2, by omega⟩
    rw [lookup_string] at hstring
    exact hin (List.mem_of_getElem? hstring)

/-- **A string is added.** -/
theorem Encodes.addCode (h : Encodes st E) {c : ℕ} {w : List ℕ} (hw : w ≠ [])
    (hc : lookup 2 E c = some w) {x : ℕ} (hnew : w ++ [x] ∉ E) (hroom : E.length < room 2) :
    ∃ st', st.addCode c x = some st' ∧ Encodes st' (E ++ [w ++ [x]]) := by
  have hfind := h.find hw hc x
  obtain ⟨D, hdict, hsound, hcomplete⟩ := h.dict
  have hD : D (c, x) = none := by
    rw [lzwHashFind, hdict.found, if_neg hnew] at hfind
    exact Option.some.inj hfind
  have hroomSize : room 2 < lzwHashSize := by decide
  obtain ⟨hash', hadd, hdict'⟩ := hdict.add hD (by omega) st.nextCode
  have hadded : lookup 2 (E ++ [w ++ [x]]) (firstFree 2 + E.length) = some (w ++ [x]) := by
    rw [lookup_string, List.getElem?_append_right le_rfl, Nat.sub_self]
    rfl
  have hgrown : ∃ D, Dict lzwHashSize lzwHome hash' D (E ++ [w ++ [x]]).length ∧
      (∀ k c', D k = some c' → ∃ w', lookup 2 (E ++ [w ++ [x]]) k.1 = some w' ∧
        lookup 2 (E ++ [w ++ [x]]) c' = some (w' ++ [k.2]) ∧ firstFree 2 ≤ c') ∧
      ∀ i < (E ++ [w ++ [x]]).length, ∃ k, D k = some (firstFree 2 + i) := by
    rw [List.length_append, List.length_singleton]
    refine ⟨_, hdict', fun k c' hk => ?_, fun i hi => ?_⟩
    · by_cases hkey : k = (c, x)
      · subst hkey
        rw [Function.update_self, h.nextCode] at hk
        obtain rfl := Option.some.inj hk
        exact ⟨w, lookup_append hc _, hadded, Nat.le_add_right _ _⟩
      · rw [Function.update_of_ne hkey] at hk
        obtain ⟨w', hprefix, hstring, hfree⟩ := hsound k c' hk
        exact ⟨w', lookup_append hprefix _, lookup_append hstring _, hfree⟩
    · by_cases hlast : i = E.length
      · refine ⟨(c, x), ?_⟩
        rw [Function.update_self, h.nextCode, hlast]
      · obtain ⟨k, hk⟩ := hcomplete i (by omega)
        refine ⟨k, ?_⟩
        have hkey : k ≠ (c, x) := by
          rintro rfl
          rw [hD] at hk
          cases hk
        rw [Function.update_of_ne hkey, hk]
  have hnodup : (E ++ [w ++ [x]]).Nodup :=
    List.nodup_append.mpr ⟨h.nodup, List.nodup_singleton _, by
      rintro a ha b hb rfl
      exact hnew (List.mem_singleton.mp hb ▸ ha)⟩
  have hlong : ∀ s ∈ E ++ [w ++ [x]], 2 ≤ s.length := by
    intro s hs
    rcases List.mem_append.mp hs with hs | hs
    · exact h.long s hs
    · have hpos := List.length_pos_iff.mpr hw
      rw [List.mem_singleton.mp hs, List.length_append, List.length_singleton]
      omega
  have hlen : (E ++ [w ++ [x]]).length = E.length + 1 := by
    rw [List.length_append, List.length_singleton]
  have hsize := @putSize_succ 2 E.length
  rw [← h.codeSize, ← h.codeLimit, ← h.nextCode] at hsize
  refine ⟨_, by rw [LzwState.addCode, lzwHashAdd, hadd]; rfl, ?_⟩
  split_ifs at hsize ⊢ with hgrow
  · refine ⟨hlen ▸ hroom, ?_, ?_, ?_, hnodup, hlong, hgrown⟩
    · rw [hlen, h.nextCode, Nat.add_assoc]
    · rw [hlen, hsize]
    · rw [h.codeLimit, Nat.shiftLeft_eq, pow_one, ← pow_succ]
  · refine ⟨hlen ▸ hroom, ?_, ?_, h.codeLimit, hnodup, hlong, hgrown⟩
    · rw [hlen, h.nextCode, Nat.add_assoc]
    · rw [hlen, hsize]

theorem pixel_lt (p : UInt8) : pixel p < 2 ^ 2 := by
  rw [pixel, UInt8.toNat_and]
  exact Nat.lt_of_le_of_lt Nat.and_le_right (by decide)

/-- **The loop ends, and puts the codes of the phrases.** -/
theorem Encodes.lzwLoop (h : Encodes st E) {w : List ℕ} (hw : @IsPhrase 2 E w) (pixels : Bytes) :
    Utils.lzwLoop st (codeOf 2 E w) pixels =
      some (itemsFrom 2 E w (pixels.map pixel) ++
        [(eoiC, putSize 2 (entriesAfter 2 E.length (parseFrom 2 E w (pixels.map pixel)).length))]) := by
  have hzero : ∀ E w xs, (parseFrom 2 E w xs).length ≠ 0 := fun E w xs h =>
    parseFrom_ne_nil E w xs (List.eq_nil_of_length_eq_zero h)
  induction pixels generalizing st E w with
  | nil =>
    rw [Utils.lzwLoop, h.codeSize]
    rfl
  | cons p pixels ih =>
    have hone : ∀ E, @IsPhrase 2 E [pixel p] := fun _ => Or.inl ⟨_, pixel_lt p, rfl⟩
    have hcode : ∀ E, codeOf 2 E [pixel p] = pixel p := fun _ => rfl
    have hfind := h.find hw.ne_nil (lookup_codeOf hw) (pixel p)
    have hroom : E.length < room 2 ↔ st.nextCode < lzwMaxCodes := by
      have hfull : firstFree 2 + room 2 = lzwMaxCodes := rfl
      rw [h.nextCode]
      omega
    rw [Utils.lzwLoop, hfind, List.map_cons, itemsFrom, parseFrom]
    simp only [Option.bind_eq_bind, Option.bind_some]
    by_cases hin : w ++ [pixel p] ∈ E
    · rw [if_pos hin, if_pos hin, if_pos hin]
      exact ih h (isPhrase_append hw.ne_nil hin)
    · rw [if_neg hin, if_neg hin, if_neg hin]
      by_cases hfree : E.length < room 2
      · obtain ⟨st', hadd, h'⟩ := h.addCode hw.ne_nil (lookup_codeOf hw) hin hfree
        have hrest := ih h' (hone _)
        rw [hcode] at hrest
        rw [if_pos hfree, if_pos hfree, hadd, Option.bind_some]
        simp only [if_pos (hroom.mp hfree), hrest, Option.bind_some, h.codeSize]
        rw [List.length_cons, entriesAfter, if_neg (hzero _ _ _), if_pos hfree, List.length_append,
          List.length_singleton]
        rfl
      · have hrest := ih encodes_start (hone [])
        rw [hcode] at hrest
        rw [if_neg hfree, if_neg hfree]
        simp only [if_neg (mt hroom.mpr hfree), hrest, Option.bind_some, h.codeSize]
        rw [List.length_cons, entriesAfter, if_neg (hzero _ _ _), if_neg hfree]
        rfl

/-- How many strings the table has at the end. -/
def entriesOf (pixels : Bytes) : ℕ := entriesAfter 2 0 (parse 2 (pixels.map pixel)).length

theorem lzwCodes_eq (pixels : Bytes) :
    lzwCodes pixels = some ((clearCode 2, codeSize 2 0) :: itemsOf 2 (pixels.map pixel) ++
      [(eoiC, putSize 2 (entriesOf pixels))]) := by
  have hsize : lzwStart.codeSize = codeSize 2 0 := encodes_start.codeSize
  cases pixels with
  | nil =>
    rw [lzwCodes, hsize]
    rfl
  | cons p pixels =>
    have hloop := encodes_start.lzwLoop (Or.inl ⟨pixel p, pixel_lt p, rfl⟩) pixels
    rw [show codeOf 2 [] [pixel p] = pixel p from rfl] at hloop
    rw [lzwCodes, hloop, hsize]
    rfl

/-! ## The file -/

theorem flushLoop_eq {g : BlockWriter} (hbits : g.nbits < 8) : flushLoop g = g.flushBits := by
  rw [flushLoop, BlockWriter.flushBits]
  split_ifs
  · have hnbits : g.putLow.nbits = 0 := by
      rw [BlockWriter.putLow, BlockWriter.putByte]
      split_ifs <;> exact Nat.sub_eq_zero_of_le hbits.le
    rw [flushLoop, if_neg (by omega)]
  · rfl

theorem gifFlushBits_eq {g : BlockWriter} (hbits : g.nbits < 8) :
    gifFlushBits g = g.flushBits.finish := by
  rw [gifFlushBits, flushLoop_eq hbits, BlockWriter.finish, subBlock]
  simp only [List.length_pos_iff, ite_not]

theorem qrGifHeader_eq (width height : ℕ) (bg fg : Bytes) :
    qrGifHeader width height bg fg = fileHeader width height 0xA0 [bg, fg] 2 := by
  rw [qrGifHeader, fileHeader, List.flatten_cons, List.flatten_singleton]
  simp only [List.append_assoc]
  rfl

/-- The bits of the codes. -/
def codeBits (pixels : Bytes) : List Bool :=
  bitsOf ((clearCode 2, codeSize 2 0) :: itemsOf 2 (pixels.map pixel)) ++
    lsbBits (putSize 2 (entriesOf pixels)) eoiC

/-- **The file is read**, with the bits of the codes as its data. -/
theorem exists_writeGif {pixels : Bytes} {width height : ℕ} (hwidth : width < 65536)
    (hheight : height < 65536) (htotal : width * height ≤ intMax)
    (hpixels : pixels.length = width * height) {bg fg : Bytes} (hbg : bg.length = 3)
    (hfg : fg.length = 3) :
    ∃ file, writeGif pixels width height bg fg = some file ∧ ∃ data : Bytes,
      readGif file = some ⟨width, height, [bg, fg], width, height, 2, data⟩ ∧
        data.flatMap lsbByte = codeBits pixels ++ padding (codeBits pixels) := by
  have hlt : ∀ x ∈ pixels.map pixel, x < 2 ^ 2 := by
    intro x hx
    obtain ⟨p, -, rfl⟩ := List.mem_map.mp hx
    exact pixel_lt p
  obtain ⟨d, hrun, -⟩ := run_itemsOf (by decide) hlt
  have hfits : ∀ i ∈ (clearCode 2, codeSize 2 0) :: itemsOf 2 (pixels.map pixel) ++
      [(eoiC, putSize 2 (entriesOf pixels))], i.1 < 2 ^ i.2 := by
    intro i hi
    rcases List.mem_append.mp hi with hi | hi
    · exact hrun.fits i hi
    · rw [List.mem_singleton.mp hi]
      exact @lt_two_pow_of_lt 2 (by decide) eoiC (by decide) _
  obtain ⟨hholds, hbits⟩ :=
    (holds_start (qrGifHeader width height bg fg)).putCodes (Nat.zero_lt_succ _) hfits
  obtain ⟨data, hdata, blocks, hblocks, hread, -⟩ := hholds.exists_data hbits
  have hcode : bitsOf ((clearCode 2, codeSize 2 0) :: itemsOf 2 (pixels.map pixel) ++
      [(eoiC, putSize 2 (entriesOf pixels))]) = codeBits pixels := by
    rw [bitsOf_append, codeBits]
    congr 1
    exact List.append_nil _
  rw [List.nil_append, hcode] at hdata
  have hfile : writeGif pixels width height bg fg =
      some (qrGifHeader width height bg fg ++ (blocks ++ trailer)) := by
    rw [writeGif, ← hpixels, if_neg (by omega), List.take_length, lzwCodes_eq, Option.map_some,
      gifFlushBits_eq hbits, hblocks, List.append_assoc]
    rfl
  refine ⟨_, hfile, data, ?_, hdata⟩
  rw [qrGifHeader_eq]
  refine readGif_of_parts hwidth hheight (by decide) rfl ?_ 2 (hread _)
  intro c hc
  rcases List.mem_cons.mp hc with rfl | hc
  · exact hbg
  · rwa [List.mem_singleton.mp hc]

/-! ## The end code -/

/-- The code size has grown behind the last code of the pixels, for a decoder, and the codes fill whole
bytes. -/
def EndCodeCut (pixels : Bytes) : Prop :=
  let n := (parse 2 (pixels.map pixel)).length
  let entries := entriesAfter 2 0 n
  putSize 2 entries < codeSize 2 entries ∧ (codeSize 2 0 + bitsAfter 2 0 n + putSize 2 entries) % 8 = 0

instance (pixels : Bytes) : Decidable (EndCodeCut pixels) := inferInstanceAs (Decidable (_ ∧ _))

theorem length_codeBits (pixels : Bytes) :
    (codeBits pixels).length = codeSize 2 0 + bitsAfter 2 0 (parse 2 (pixels.map pixel)).length +
      putSize 2 (entriesOf pixels) := by
  rw [codeBits, List.length_append, length_lsbBits, bitsOf_cons, List.length_append, length_lsbBits,
    length_bitsOf_itemsOf]

/-- **The bits of the codes are read as the pixels**, unless the end code is cut. -/
theorem decode_codeBits (pixels : Bytes) :
    (¬ EndCodeCut pixels → ∃ size rest, decode 2 (codeBits pixels ++ padding (codeBits pixels)) =
      some ⟨pixels.map pixel, size, rest⟩) ∧
    (EndCodeCut pixels → decode 2 (codeBits pixels ++ padding (codeBits pixels)) = none) := by
  have hlt : ∀ x ∈ pixels.map pixel, x < 2 ^ 2 := by
    intro x hx
    obtain ⟨p, -, rfl⟩ := List.mem_map.mp hx
    exact pixel_lt p
  obtain ⟨d, hrun, hlen⟩ := run_itemsOf (by decide) hlt
  have hlen : d.strings.length = entriesOf pixels := hlen
  have hend : ∀ n, endCode 2 < 2 ^ codeSize 2 n := lt_two_pow_of_lt (by decide) (by decide)
  have hfits : endCode 2 < 2 ^ putSize 2 (entriesOf pixels) := hend _
  rcases @codeSize_pred 2 (entriesOf pixels) with hsame | hgrown
  · -- the decoder reads the end code with the size it was put with
    refine ⟨fun _ => ?_, fun hcut => ?_⟩
    · have hdecode := decode_run hrun (hsame ▸ hlen ▸ rfl) hfits (padding (codeBits pixels))
      rw [← List.append_assoc] at hdecode
      exact ⟨_, _, hdecode⟩
    · exact absurd hcut.1 (hsame ▸ lt_irrefl _)
  · -- it reads one bit more
    have hbits := lsbBits_eq_replicate 1 hfits
    refine ⟨fun hcut => ?_, fun hcut => ?_⟩
    · have hmod : (codeBits pixels).length % 8 ≠ 0 := by
        intro hzero
        rw [length_codeBits] at hzero
        exact hcut ⟨hgrown ▸ Nat.lt_succ_self _, hzero⟩
      obtain ⟨k, hk⟩ : ∃ k, (8 - (codeBits pixels).length % 8) % 8 = 1 + k :=
        ⟨(8 - (codeBits pixels).length % 8) % 8 - 1, by omega⟩
      have hdecode := decode_run hrun (hgrown ▸ hlen ▸ rfl) (hgrown ▸ hend _)
        (List.replicate k false)
      rw [hbits, List.append_assoc, ← List.replicate_add, ← hk, ← padding, ← List.append_assoc] at hdecode
      exact ⟨_, _, hdecode⟩
    · have hmod : (codeBits pixels).length % 8 = 0 := by
        rw [length_codeBits]
        exact hcut.2
      have hpad : padding (codeBits pixels) = [] := by
        rw [padding, hmod]
        rfl
      rw [hpad, List.append_nil]
      refine decode_run_short hrun ?_
      rw [length_lsbBits, hlen, hgrown]
      exact Nat.lt_succ_self _

/-! ## The law -/

/-- What is asked of the GIF of an image: that it is written, so that every search in the dictionary
ends, and that a decoder reads the pixels in their order out of its sub-blocks, and the end code. -/
def QrDecodes (pixels : Bytes) (width height : ℕ) (bg fg : Bytes) : Prop :=
  ∃ file, writeGif pixels width height bg fg = some file ∧ ∃ image, readGif file = some image ∧
    image.minCodeSize = 2 ∧ image.width = width ∧ image.height = height ∧ image.colors = [bg, fg] ∧
      ∃ size rest, decode 2 (image.data.flatMap lsbByte) = some ⟨pixels.map UInt8.toNat, size, rest⟩

/-- A cut end code is not read. -/
theorem not_qrDecodes_of_endCodeCut {pixels : Bytes} {width height : ℕ} (hwidth : width < 65536)
    (hheight : height < 65536) (htotal : width * height ≤ intMax)
    (hpixels : pixels.length = width * height) {bg fg : Bytes} (hbg : bg.length = 3)
    (hfg : fg.length = 3) (hcut : EndCodeCut pixels) : ¬ QrDecodes pixels width height bg fg := by
  rintro ⟨file', hfile', image, himage, -, -, -, -, size, rest, hdecode⟩
  obtain ⟨file, hfile, data, hread, hdata⟩ :=
    exists_writeGif hwidth hheight htotal hpixels hbg hfg
  rw [hfile, Option.some.injEq] at hfile'
  subst hfile'
  rw [hread, Option.some.injEq] at himage
  subst himage
  rw [hdata, (decode_codeBits pixels).2 hcut] at hdecode
  cases hdecode

/-- **An image is read back exactly when its end code is not cut.** -/
theorem qrDecodes_iff {pixels : Bytes} {width height : ℕ} (hwidth : width < 65536)
    (hheight : height < 65536) (htotal : width * height ≤ intMax)
    (hpixels : pixels.length = width * height) (hbinary : ∀ p ∈ pixels, p = 0 ∨ p = 1)
    {bg fg : Bytes} (hbg : bg.length = 3) (hfg : fg.length = 3) :
    QrDecodes pixels width height bg fg ↔ ¬ EndCodeCut pixels := by
  constructor
  · intro h hcut
    exact not_qrDecodes_of_endCodeCut hwidth hheight htotal hpixels hbg hfg hcut h
  · intro hnot
    have hvalues : pixels.map pixel = pixels.map UInt8.toNat := by
      refine List.map_congr_left fun p hp => ?_
      rcases hbinary p hp with rfl | rfl <;> rfl
    obtain ⟨file, hfile, data, hread, hdata⟩ :=
      exists_writeGif hwidth hheight htotal hpixels hbg hfg
    obtain ⟨size, rest, hdecode⟩ := (decode_codeBits pixels).1 hnot
    rw [← hdata, hvalues] at hdecode
    exact ⟨file, hfile, _, hread, rfl, rfl, rfl, rfl, size, rest, hdecode⟩

/-- Seven pixels by nine. -/
theorem qrDecodes_stripes :
    QrDecodes ((List.range 63).map fun i => UInt8.ofNat (i % 2)) 7 9 [255, 255, 255] [0, 0, 0] :=
  (qrDecodes_iff (by decide) (by decide) (by decide) rfl (by decide) rfl rfl).mpr (by decide)

/-- A white square of eight pixels has no end code. -/
theorem not_qrDecodes_white : ¬ QrDecodes (List.replicate 64 0) 8 8 [255, 255, 255] [0, 0, 0] :=
  not_qrDecodes_of_endCodeCut (by decide) (by decide) (by decide) rfl rfl rfl (by decide)

end BoatRudder.Utils
