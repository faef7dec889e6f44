import Mathlib.Data.List.Count
import Mathlib.Algebra.Order.Ring.Int

/-! # Counts over windows of time

How many entries of a log fall into a window of time, and how many a look back from the last one
counts. A log whose windows are all within a limit stays so over one more entry exactly when the look
back from it finds the limit not reached (`countWithin_concat_le_iff`). -/

namespace BoatRudder.Windows

universe u v

variable {δ : Type u} (time : δ → ℤ) (p : δ → Bool)

/-- The entries in `p` from a time on. -/
def countSince (log : List δ) (since : ℤ) : ℕ := log.countP fun d => p d && since ≤ time d

/-- The entries in `p` in a window of width `w`, its ends with it. -/
def countWithin (log : List δ) (lo w : ℤ) : ℕ :=
  log.countP fun d => p d && (lo ≤ time d && time d ≤ lo + w)

variable {time p} {log : List δ} {d : δ} {w : ℤ} {n : ℕ}

/-- A look back counts what every window that starts no earlier holds. -/
theorem countWithin_le_countSince {lo since : ℤ} (h : since ≤ lo) :
    countWithin time p log lo w ≤ countSince time p log since := by
  refine List.countP_mono_left fun e _ he => ?_
  simp only [Bool.and_eq_true, decide_eq_true_eq] at he ⊢
  exact ⟨he.1, h.trans he.2.1⟩

/-- The window that ends with the last entry holds what a look back counts. -/
theorem countWithin_eq_countSince {now : ℤ} (hlast : ∀ e ∈ log, time e ≤ now) :
    countWithin time p log (now - w) w = countSince time p log (now - w) := by
  refine List.countP_congr fun e he => ?_
  have := hlast e he
  simp only [Bool.and_eq_true, decide_eq_true_eq]
  exact and_congr_right fun _ => ⟨fun h => h.1, fun h => ⟨h, by omega⟩⟩

/-- An entry that is not in `p` counts nowhere. -/
theorem countWithin_concat_of_not (h : p d = false) (lo : ℤ) :
    countWithin time p (log ++ [d]) lo w = countWithin time p log lo w := by
  simp [countWithin, List.countP_append, h]

/-- **One more entry**, no earlier than the others: all windows stay within a limit exactly when the
look back over their width finds it not reached. -/
theorem countWithin_concat_le_iff (hw : 0 ≤ w) (hd : p d = true) (hlast : ∀ e ∈ log, time e ≤ time d)
    (h : ∀ lo, countWithin time p log lo w ≤ n) :
    (∀ lo, countWithin time p (log ++ [d]) lo w ≤ n) ↔
      countSince time p log (time d - w) < n := by
  have hconcat : ∀ lo, countWithin time p (log ++ [d]) lo w =
      countWithin time p log lo w + if lo ≤ time d ∧ time d ≤ lo + w then 1 else 0 := by
    intro lo
    by_cases hin : lo ≤ time d ∧ time d ≤ lo + w
    · simp [countWithin, List.countP_append, hd, hin]
    · rw [if_neg hin]
      rw [not_and, not_le] at hin
      simpa [countWithin, List.countP_append, hd] using hin
  constructor
  · intro hall
    have hend := hall (time d - w)
    rw [hconcat, if_pos ⟨by omega, by omega⟩, countWithin_eq_countSince hlast] at hend
    exact hend
  · intro hlt lo
    rw [hconcat]
    by_cases hin : lo ≤ time d ∧ time d ≤ lo + w
    · have hle : countWithin time p log lo w ≤ countSince time p log (time d - w) :=
        countWithin_le_countSince (by omega)
      rw [if_pos hin]
      omega
    · rw [if_neg hin]
      exact h lo

/-- **One more entry, in a log kept by keys**: the windows of every key stay within a limit exactly
when the look back for the entry's own key finds it not reached. -/
theorem countWithin_key_concat_le_iff {κ : Type v} [DecidableEq κ] {f : δ → κ} (hw : 0 ≤ w)
    (hlast : ∀ e ∈ log, time e ≤ time d)
    (h : ∀ k lo, countWithin time (fun e => f e = k) log lo w ≤ n) :
    (∀ k lo, countWithin time (fun e => f e = k) (log ++ [d]) lo w ≤ n) ↔
      countSince time (fun e => f e = f d) log (time d - w) < n := by
  have hadd := @countWithin_concat_le_iff δ time (fun e => f e = f d) log d w n hw
    (decide_eq_true rfl) hlast (h (f d))
  refine ⟨fun hall => hadd.mp (hall (f d)), fun hlt k => ?_⟩
  by_cases hk : f d = k
  · exact hk ▸ hadd.mpr hlt
  · intro lo
    rw [@countWithin_concat_of_not δ time (fun e => f e = k) log d w (decide_eq_false hk)]
    exact h k lo

end BoatRudder.Windows
