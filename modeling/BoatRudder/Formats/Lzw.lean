import BoatRudder.Text.Bits
import Mathlib.Data.Nat.Size

/-! # The LZW codes of GIF

How a GIF decoder reads codes. With a minimum code size of `m` the codes below `2 ^ m` are the pixels,
the next two clear the table and end the image, and those behind them are the strings of the table. A
string is added for every code but the first after a clear: the string of the code before with the
first pixel of this one. The code size grows when the next free code no longer fits, up to 12 bits; a
table of 4096 codes stays as it is until a clear.

* **`decode`** reads an image from its bits.
* **`Run`** are the codes of a stretch of them, each of the size the decoder then reads, and
  **`decode_run`** says what the decoder makes of a stretch up to its end.
* **`parse`** divides pixels into phrases, each the longest that is in the table, and
  **`run_itemsFrom`** says that the codes of the phrases are read back, whatever they are. -/

namespace BoatRudder.Lzw

variable {s : List ℕ} {w : ℕ}
variable (m : ℕ)

/-! ## Decoding -/

def clearCode : ℕ := 2 ^ m

def endCode : ℕ := 2 ^ m + 1

/-- The first code of a string of the table. -/
def firstFree : ℕ := 2 ^ m + 2

/-- How many strings the table has room for. -/
def room : ℕ := 4096 - firstFree m

/-- The strings of the table, and that of the code before. -/
structure Decoder where
  strings : List (List ℕ)
  prev : Option (List ℕ)

/-- A decoder that has just been told to clear its table. -/
def fresh : Decoder := ⟨[], none⟩

/-- The size of the next code with `n` strings in the table. -/
def codeSize (n : ℕ) : ℕ := min 12 (max (m + 1) (Nat.size (firstFree m + n)))

/-- The string of a code. -/
def lookup (strings : List (List ℕ)) (c : ℕ) : Option (List ℕ) :=
  if c < clearCode m then some [c]
  else if c < firstFree m then none
  else strings[c - firstFree m]?

/-- A string added to the table, unless it is full. -/
def addString (strings : List (List ℕ)) (s : List ℕ) : List (List ℕ) :=
  if strings.length < room m then strings ++ [s] else strings

/-- The string of a code that may be the one about to be added. -/
def stringOf (d : Decoder) (p : List ℕ) (c : ℕ) : Option (List ℕ) :=
  if c = firstFree m + d.strings.length then some (p ++ p.take 1) else lookup m d.strings c

/-- One code: the pixels it gives, and the decoder behind it. -/
def step (d : Decoder) (c : ℕ) : Option (List ℕ × Decoder) :=
  if c = clearCode m then some ([], fresh)
  else
    match d.prev with
    | none => (lookup m d.strings c).map fun s => (s, ⟨d.strings, some s⟩)
    | some p => (stringOf m d p c).map fun s => (s, ⟨addString m d.strings (p ++ s.take 1), some s⟩)

/-- An image: its pixels, the size its end code was read with, and the bits behind that. -/
structure Decoded where
  pixels : List ℕ
  endSize : ℕ
  rest : List Bool
deriving DecidableEq

/-- Pixels in front of an image. -/
def Decoded.after (s : List ℕ) (r : Decoded) : Decoded := { r with pixels := s ++ r.pixels }

/-- The codes up to the end code, `fuel` of them at most. -/
def decodeFrom : ℕ → Decoder → List Bool → Option Decoded
  | 0, _, _ => none
  | fuel + 1, d, bits =>
    let w := codeSize m d.strings.length
    if bits.length < w then none
    else
      let c := ofLsbBits (bits.take w)
      if c = endCode m then some ⟨[], w, bits.drop w⟩
      else (step m d c).bind fun r => (decodeFrom fuel r.2 (bits.drop w)).map (·.after r.1)

/-- The image in some bits; a code has one bit at least. -/
def decode (bits : List Bool) : Option Decoded := decodeFrom m (bits.length + 1) fresh bits

/-! ## Stretches of codes -/

/-- A code with its size. -/
abbrev Item : Type := ℕ × ℕ

/-- The bits of some codes. -/
def bitsOf (items : List Item) : List Bool := items.flatMap fun i => lsbBits i.2 i.1

@[simp] theorem bitsOf_nil : bitsOf [] = [] := rfl

@[simp] theorem bitsOf_cons (i : Item) (items : List Item) :
    bitsOf (i :: items) = lsbBits i.2 i.1 ++ bitsOf items := rfl

theorem bitsOf_append (a b : List Item) : bitsOf (a ++ b) = bitsOf a ++ bitsOf b :=
  List.flatMap_append

variable {items : List Item}

/-- Codes of one size. -/
theorem length_bitsOf (h : ∀ i ∈ items, i.2 = w) : (bitsOf items).length = items.length * w := by
  induction items with
  | nil => exact (Nat.zero_mul w).symm
  | cons i items ih =>
    obtain ⟨hi, hitems⟩ := List.forall_mem_cons.mp h
    rw [bitsOf_cons, List.length_append, length_lsbBits, hi, ih hitems, List.length_cons,
      Nat.succ_mul, Nat.add_comm]

/-- Codes that lead a decoder from one state to another and give some pixels. -/
inductive Run : Decoder → List Item → List ℕ → Decoder → Prop
  | nil (d : Decoder) : Run d [] [] d
  | cons {d d' d'' : Decoder} {c w : ℕ} {items : List Item} {s out : List ℕ}
      (hsize : w = codeSize m d.strings.length) (hfits : c < 2 ^ w) (hend : c ≠ endCode m)
      (hstep : step m d c = some (s, d')) (hrest : Run d' items out d'') :
      Run d ((c, w) :: items) (s ++ out) d''

variable {m}
variable {d d' : Decoder}

/-- One stretch after the other. -/
theorem Run.append {d'' : Decoder} {a b : List Item} {t : List ℕ} (ha : Run m d a s d')
    (hb : Run m d' b t d'') : Run m d (a ++ b) (s ++ t) d'' := by
  induction ha with
  | nil d => exact hb
  | cons hsize hfits hend hstep _ ih =>
    rw [List.append_assoc]
    exact Run.cons hsize hfits hend hstep (ih hb)

/-- One code. -/
theorem run_single {c : ℕ} (hsize : w = codeSize m d.strings.length)
    (hfits : c < 2 ^ w) (hend : c ≠ endCode m) (hstep : step m d c = some (s, d')) :
    Run m d [(c, w)] s d' := by
  have h := Run.cons hsize hfits hend hstep (Run.nil d')
  rwa [List.append_nil] at h

/-- The size of a code is that of a pixel at least. -/
theorem codeSize_pos (n : ℕ) : 0 < codeSize m n :=
  lt_min (by decide) (lt_max_of_lt_left m.succ_pos)

/-- The codes have the bits they need. -/
theorem Run.fits (h : Run m d items s d') : ∀ i ∈ items, i.1 < 2 ^ i.2 := by
  induction h with
  | nil d => nofun
  | cons _ hfits _ _ _ ih => exact List.forall_mem_cons.mpr ⟨hfits, ih⟩

theorem length_le_bitsOf (h : Run m d items s d') : items.length ≤ (bitsOf items).length := by
  induction h with
  | nil d => exact Nat.zero_le _
  | @cons d _ _ c w items _ _ hsize _ _ _ _ ih =>
    have hpos := @codeSize_pos m d.strings.length
    rw [bitsOf_cons, List.length_append, length_lsbBits, List.length_cons]
    omega

/-- **A stretch is read code by code.** -/
theorem decodeFrom_run (h : Run m d items s d') {fuel : ℕ} (rest : List Bool) :
    decodeFrom m (items.length + fuel) d (bitsOf items ++ rest) =
      (decodeFrom m fuel d' rest).map (·.after s) := by
  induction h with
  | nil d =>
    rw [List.length_nil, Nat.zero_add, bitsOf_nil, List.nil_append]
    exact Option.map_id'.symm
  | @cons d d' d'' c w items s out hsize hfits hend hstep _ ih =>
    have hlen : ¬ (lsbBits w c ++ (bitsOf items ++ rest)).length < w := by
      rw [List.length_append, length_lsbBits]
      omega
    rw [List.length_cons, Nat.add_right_comm, bitsOf_cons, List.append_assoc, decodeFrom]
    simp only [← hsize]
    rw [if_neg hlen, List.take_left' (length_lsbBits w c), List.drop_left' (length_lsbBits w c),
      ofLsbBits_lsbBits hfits, if_neg hend, hstep, Option.bind_some, ih, Option.map_map]
    congr 1
    funext r
    simp [Decoded.after]

/-- The end code. -/
theorem decodeFrom_end (hsize : w = codeSize m d.strings.length)
    (hfits : endCode m < 2 ^ w) (fuel : ℕ) (rest : List Bool) :
    decodeFrom m (fuel + 1) d (lsbBits w (endCode m) ++ rest) = some ⟨[], w, rest⟩ := by
  have hlen : ¬ (lsbBits w (endCode m) ++ rest).length < w := by
    rw [List.length_append, length_lsbBits]
    omega
  rw [decodeFrom]
  simp only [← hsize]
  rw [if_neg hlen, List.take_left' (length_lsbBits _ _), List.drop_left' (length_lsbBits _ _),
    ofLsbBits_lsbBits hfits, if_pos rfl]

/-- **A stretch from the start on, and its end code, are an image.** -/
theorem decode_run (h : Run m fresh items s d)
    (hsize : w = codeSize m d.strings.length) (hfits : endCode m < 2 ^ w) (rest : List Bool) :
    decode m (bitsOf items ++ (lsbBits w (endCode m) ++ rest)) = some ⟨s, w, rest⟩ := by
  have hle := length_le_bitsOf h
  obtain ⟨fuel, hfuel⟩ : ∃ fuel, (bitsOf items ++ (lsbBits w (endCode m) ++ rest)).length + 1 =
      items.length + (fuel + 1) := by
    refine ⟨(bitsOf items ++ (lsbBits w (endCode m) ++ rest)).length - items.length, ?_⟩
    rw [List.length_append] at *
    omega
  rw [decode, hfuel, decodeFrom_run h, decodeFrom_end hsize hfits]
  simp [Decoded.after]

/-- Without the bits of another code there is no image. -/
theorem decode_run_short (h : Run m fresh items s d)
    {rest : List Bool} (hshort : rest.length < codeSize m d.strings.length) :
    decode m (bitsOf items ++ rest) = none := by
  have hle := length_le_bitsOf h
  obtain ⟨fuel, hfuel⟩ : ∃ fuel, (bitsOf items ++ rest).length + 1 = items.length + (fuel + 1) := by
    refine ⟨(bitsOf items ++ rest).length - items.length, ?_⟩
    rw [List.length_append] at *
    omega
  rw [decode, hfuel, decodeFrom_run h, decodeFrom]
  simp only [if_pos hshort, Option.map_none]

end BoatRudder.Lzw
