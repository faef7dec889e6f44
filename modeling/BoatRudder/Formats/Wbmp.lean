import BoatRudder.Text.Bits

/-! # WBMP

The bitmaps of WAP, type 0: two zero bytes, the width and the height as multi-byte integers, and rows
of bits padded to whole bytes, in which a one is white.

* **`readMbInt`** reads a multi-byte integer: seven bits a byte, the highest bit on all bytes but the
  last.
* **`readWbmp`** reads a bitmap from the start of a file and says what it leaves. -/

namespace BoatRudder.Wbmp

/-- A multi-byte integer that goes on after `acc`, and what stands behind it. -/
def readMbInt (acc : ℕ) : Bytes → Option (ℕ × Bytes)
  | [] => none
  | b :: s =>
    if b.toNat < 128 then some (acc * 128 + b.toNat, s)
    else readMbInt (acc * 128 + (b.toNat - 128)) s

/-- The rows of a bitmap, `rowBytes` bytes each, and what stands behind them. -/
def readRows (rowBytes : ℕ) : ℕ → Bytes → Option (List (List Bool) × Bytes)
  | 0, s => some ([], s)
  | n + 1, s =>
    if s.length < rowBytes then none
    else (readRows rowBytes n (s.drop rowBytes)).map fun r =>
      ((s.take rowBytes).flatMap msbBits :: r.1, r.2)

/-- A bitmap. -/
structure Image where
  width : ℕ
  height : ℕ
  /-- The bits of each row with those of its padding; a set bit is white. -/
  rows : List (List Bool)

/-- The pixels, row by row. -/
def Image.pixels (image : Image) : List Bool := image.rows.flatMap (·.take image.width)

/-- What the rows are padded with. -/
def Image.padding (image : Image) : List Bool := image.rows.flatMap (·.drop image.width)

/-- A bitmap of type 0, and what stands behind it. -/
def readWbmp : Bytes → Option (Image × Bytes)
  | 0 :: 0 :: s => do
    let (width, s) ← readMbInt 0 s
    let (height, s) ← readMbInt 0 s
    let (rows, s) ← readRows ((width + 7) / 8) height s
    some (⟨width, height, rows⟩, s)
  | _ => none

/-- A bitmap is read part by part. -/
theorem readWbmp_of_parts {width height : ℕ} {rows : List (List Bool)} {s s' s'' rest : Bytes}
    (hwidth : readMbInt 0 s = some (width, s')) (hheight : readMbInt 0 s' = some (height, s''))
    (hrows : readRows ((width + 7) / 8) height s'' = some (rows, rest)) :
    readWbmp (0 :: 0 :: s) = some (⟨width, height, rows⟩, rest) := by
  simp [readWbmp, hwidth, hheight, hrows]

/-- A byte that goes on. -/
theorem readMbInt_more {v : ℕ} (hv : v < 128) (acc : ℕ) (s : Bytes) :
    readMbInt acc (UInt8.ofNat (v + 128) :: s) = readMbInt (acc * 128 + v) s := by
  have hnat : (UInt8.ofNat (v + 128)).toNat = v + 128 := by
    rw [UInt8.toNat_ofNat', Nat.mod_eq_of_lt (by omega)]
  rw [readMbInt, hnat, if_neg (by omega), Nat.add_sub_cancel]

/-- The byte that ends an integer. -/
theorem readMbInt_last {v : ℕ} (hv : v < 128) (acc : ℕ) (s : Bytes) :
    readMbInt acc (UInt8.ofNat v :: s) = some (acc * 128 + v, s) := by
  have hnat : (UInt8.ofNat v).toNat = v := by
    rw [UInt8.toNat_ofNat', Nat.mod_eq_of_lt (by omega)]
  rw [readMbInt, hnat, if_pos hv]

/-- Rows that stand one after the other. -/
theorem readRows_flatMap {rowBytes : ℕ} {row : ℕ → Bytes} (hrow : ∀ y, (row y).length = rowBytes)
    (n : ℕ) (rest : Bytes) (k : ℕ) :
    readRows rowBytes n (((List.range n).flatMap fun y => row (k + y)) ++ rest) =
      some ((List.range n).map (fun y => (row (k + y)).flatMap msbBits), rest) := by
  induction n generalizing k with
  | zero => rfl
  | succ n ih =>
    have hfirst : ((List.range (n + 1)).flatMap fun y => row (k + y)) ++ rest =
        row k ++ (((List.range n).flatMap fun y => row (k + 1 + y)) ++ rest) := by
      rw [List.range_succ_eq_map, List.flatMap_cons, List.flatMap_map, List.append_assoc]
      simp only [Nat.add_zero, Nat.succ_eq_add_one, Nat.add_assoc, Nat.add_comm 1]
    have hlen : ¬ (row k ++ (((List.range n).flatMap fun y => row (k + 1 + y)) ++ rest)).length <
        rowBytes := by
      rw [List.length_append, hrow]
      omega
    rw [hfirst, readRows, if_neg hlen, ← hrow k, List.drop_left, List.take_left, hrow, ih (k + 1),
      List.range_succ_eq_map, List.map_cons, List.map_map]
    simp only [Option.map_some, Nat.add_zero, Function.comp_def, Nat.succ_eq_add_one,
      Nat.add_assoc, Nat.add_comm 1]

end BoatRudder.Wbmp
