import BoatRudder.Text.Bytes
import Mathlib.Data.Fintype.Pi
import Mathlib.Data.List.FinRange
import Mathlib.Data.Nat.Bitwise

/-! # Bits

Numbers and bytes as lists of bits, least significant first or most significant first, and the lists
that run through a block of places after the other. -/

namespace BoatRudder

universe u

/-- A list of `a` blocks of `b` places each, in the order of the places. -/
theorem flatMap_range_mul {α : Type u} (f : ℕ → α) (a b : ℕ) :
    ((List.range a).flatMap fun i => (List.range b).map fun j => f (i * b + j)) =
      (List.range (a * b)).map f := by
  induction a with
  | zero => simp
  | succ a ih =>
    rw [List.range_succ, List.flatMap_append, ih, List.flatMap_singleton, Nat.succ_mul,
      List.range_add, List.map_append, List.map_map]
    rfl

/-- A list read place by place. -/
theorem map_getD_range {α : Type u} (xs : List α) (d : α) :
    (List.range xs.length).map (fun i => xs.getD i d) = xs := by
  apply List.ext_getElem
  · simp
  · intro i h1 h2
    simp [List.getD_eq_getElem?_getD, List.getElem?_eq_getElem h2]

/-! ## Most significant first -/

/-- The bits of a byte, the highest first. -/
def msbBits (b : UInt8) : List Bool := (List.range 8).map fun i => b.toNat.testBit (7 - i)

@[simp] theorem length_msbBits (b : UInt8) : (msbBits b).length = 8 := by simp [msbBits]

/-- A byte in which the bits are set one after the other, from the highest on. -/
theorem msbBits_foldl (set : ℕ → Bool) :
    msbBits ((List.range 8).foldl
      (fun byte bit => if set bit then byte ||| (0x80 >>> UInt8.ofNat bit) else byte) 0) =
        (List.range 8).map set := by
  -- only eight of the values of `set` are looked at
  have hall : ∀ s : Fin 8 → Bool, msbBits ((List.finRange 8).foldl
      (fun byte bit => if s bit then byte ||| (0x80 >>> UInt8.ofNat bit.val) else byte) 0) =
        (List.finRange 8).map s := by decide +kernel
  have hrange : List.range 8 = (List.finRange 8).map Fin.val := by decide
  rw [hrange, List.foldl_map, List.map_map]
  exact hall fun i => set i

/-! ## Least significant first -/

/-- The lowest `w` bits of a number, the lowest first. -/
def lsbBits (w v : ℕ) : List Bool := (List.range w).map v.testBit

/-- The number of some bits, the lowest first. -/
def ofLsbBits (bits : List Bool) : ℕ := bits.foldr (fun b n => b.toNat + 2 * n) 0

/-- The bits of a byte, the lowest first. -/
def lsbByte (b : UInt8) : List Bool := lsbBits 8 b.toNat

@[simp] theorem length_lsbBits (w v : ℕ) : (lsbBits w v).length = w := by simp [lsbBits]

@[simp] theorem length_lsbByte (b : UInt8) : (lsbByte b).length = 8 := length_lsbBits 8 _

@[simp] theorem lsbBits_zero (v : ℕ) : lsbBits 0 v = [] := rfl

/-- The lowest bits, and those above them. -/
theorem lsbBits_add (a b v : ℕ) : lsbBits (a + b) v = lsbBits a v ++ lsbBits b (v >>> a) := by
  rw [lsbBits, List.range_add, List.map_append, List.map_map]
  congr 1
  refine List.map_congr_left fun i _ => ?_
  rw [Function.comp_apply, Nat.testBit_shiftRight]

/-- Bits that are told by a number's own. -/
theorem lsbBits_congr {w u v : ℕ} (h : ∀ i < w, u.testBit i = v.testBit i) :
    lsbBits w u = lsbBits w v :=
  List.map_congr_left fun i hi => h i (List.mem_range.mp hi)

/-- A number put above another. -/
theorem lsbBits_or_shiftLeft {a u : ℕ} (hu : u < 2 ^ a) (b v : ℕ) :
    lsbBits (a + b) (u ||| v <<< a) = lsbBits a u ++ lsbBits b v := by
  rw [lsbBits_add]
  congr 1
  · refine lsbBits_congr fun i hi => ?_
    rw [Nat.testBit_or, Nat.testBit_shiftLeft, decide_eq_false (by omega), Bool.false_and,
      Bool.or_false]
  · congr 1
    rw [Nat.shiftRight_or_distrib, Nat.shiftRight_eq_div_pow u, Nat.div_eq_of_lt hu, Nat.zero_or,
      Nat.shiftLeft_shiftRight]

/-- The bits above a number are zeros. -/
theorem lsbBits_eq_replicate {v : ℕ} (w : ℕ) {k : ℕ} (hv : v < 2 ^ k) :
    lsbBits (k + w) v = lsbBits k v ++ List.replicate w false := by
  rw [lsbBits_add, Nat.shiftRight_eq_div_pow, Nat.div_eq_of_lt hv]
  congr 1
  rw [List.eq_replicate_iff]
  refine ⟨length_lsbBits w 0, fun b hb => ?_⟩
  obtain ⟨i, -, rfl⟩ := List.mem_map.mp hb
  exact Nat.zero_testBit i

/-- **A number is told by its bits.** -/
theorem ofLsbBits_lsbBits {w v : ℕ} (hv : v < 2 ^ w) : ofLsbBits (lsbBits w v) = v := by
  induction w generalizing v with
  | zero =>
    rw [pow_zero, Nat.lt_one_iff] at hv
    exact hv.symm
  | succ w ih =>
    have hhalf : v >>> 1 < 2 ^ w := by
      rw [Nat.shiftRight_eq_div_pow, pow_one]
      rw [pow_succ] at hv
      omega
    have hlow : (v.testBit 0).toNat = v % 2 := by
      rw [Nat.testBit_zero]
      rcases Nat.mod_two_eq_zero_or_one v with h | h <;> rw [h] <;> rfl
    have hfirst : lsbBits 1 v = [v.testBit 0] := rfl
    rw [Nat.add_comm, lsbBits_add, hfirst, List.singleton_append, ofLsbBits, List.foldr_cons,
      ← ofLsbBits, ih hhalf, hlow, Nat.shiftRight_eq_div_pow, pow_one]
    exact Nat.mod_add_div v 2

/-- The lowest byte of a number. -/
theorem lsbByte_ofNat (v : ℕ) : lsbByte (UInt8.ofNat v) = lsbBits 8 v := by
  refine lsbBits_congr fun i hi => ?_
  rw [UInt8.toNat_ofNat', Nat.testBit_mod_two_pow, decide_eq_true hi, Bool.true_and]

end BoatRudder
