import Mathlib.Logic.Function.Basic
import Mathlib.Data.List.Basic

/-! # Maps of files

A file system as the files at its paths, with the three things a program does to them: write, unlink
and rename. A sequence of one of these is described by what it leaves at each path. -/

namespace BoatRudder

universe u v w

/-- The file at each path, if there is one. -/
abbrev FileMap (κ : Type u) (φ : Type v) : Type _ := κ → Option φ

namespace FileMap

section

variable {κ : Type u} {φ : Type v} [DecidableEq κ]

/-- A file created or replaced. -/
def write (m : FileMap κ φ) (k : κ) (file : φ) : FileMap κ φ := Function.update m k (some file)

/-- `unlink`; a path without a file stays as it is. -/
def unlink (m : FileMap κ φ) (k : κ) : FileMap κ φ := Function.update m k none

/-- `rename`: a file at the new path is replaced; nothing happens without a file at the old one, or
when the two are the same. -/
def rename (m : FileMap κ φ) (k k' : κ) : FileMap κ φ :=
  if k = k' then m
  else
    match m k with
    | none => m
    | some file => (m.unlink k).write k' file

@[simp] theorem write_self (m : FileMap κ φ) (k : κ) (file : φ) : m.write k file k = some file :=
  Function.update_self ..

theorem write_of_ne (m : FileMap κ φ) {k k' : κ} (file : φ) (h : k' ≠ k) :
    m.write k file k' = m k' :=
  Function.update_of_ne h ..

theorem unlink_apply (m : FileMap κ φ) (k k' : κ) :
    m.unlink k k' = if k' = k then none else m k' :=
  Function.update_apply ..

/-- After unlinking a list of paths there is nothing at them. -/
theorem foldl_unlink (m : FileMap κ φ) (ks : List κ) (k : κ) :
    ks.foldl unlink m k = if k ∈ ks then none else m k := by
  induction ks generalizing m with
  | nil => simp
  | cons k' ks ih =>
    rw [List.foldl_cons, ih, unlink_apply]
    by_cases hmem : k ∈ ks
    · simp [hmem]
    · by_cases heq : k = k' <;> simp [hmem, heq]

/-- Writing leaves the paths alone that it does not name. -/
theorem foldl_write_of_notMem {ι : Type w} (m : FileMap κ φ) (is : List ι) (key : ι → κ)
    (file : ι → φ) {k : κ} (h : ∀ i ∈ is, k ≠ key i) :
    is.foldl (fun m i => m.write (key i) (file i)) m k = m k := by
  induction is generalizing m with
  | nil => rfl
  | cons i is ih =>
    obtain ⟨hi, his⟩ := List.forall_mem_cons.mp h
    rw [List.foldl_cons, ih _ his, write_of_ne m (file i) hi]

/-- Writing to different paths leaves at each what was written to it. -/
theorem foldl_write_of_mem {ι : Type w} (m : FileMap κ φ) {is : List ι} {key : ι → κ}
    (file : ι → φ) (hkey : ∀ i ∈ is, ∀ j ∈ is, key i = key j → i = j) {i : ι} (h : i ∈ is) :
    is.foldl (fun m i => m.write (key i) (file i)) m (key i) = some (file i) := by
  induction is generalizing m with
  | nil => cases h
  | cons j is ih =>
    rw [List.foldl_cons]
    by_cases hmem : i ∈ is
    · exact ih _ (fun a ha b hb => hkey a (List.mem_cons_of_mem _ ha) b
        (List.mem_cons_of_mem _ hb)) hmem
    · obtain rfl : i = j := (List.mem_cons.mp h).resolve_right hmem
      rw [foldl_write_of_notMem, write_self]
      intro j hj heq
      exact hmem (hkey i (by simp) j (List.mem_cons_of_mem _ hj) heq ▸ hj)

end

section

variable {δ : Type u} {ν : Type v} {φ : Type w} [DecidableEq δ] [DecidableEq ν]

/-- A file renamed to the same name in another directory. -/
def move (d d' : δ) (m : FileMap (δ × ν) φ) (n : ν) : FileMap (δ × ν) φ := m.rename (d, n) (d', n)

/-- Within a directory nothing moves. -/
@[simp] theorem foldl_move_self (m : FileMap (δ × ν) φ) (d : δ) (ns : List ν) :
    ns.foldl (move d d) m = m := by
  induction ns with
  | nil => rfl
  | cons n ns ih => rw [List.foldl_cons, show move d d m n = m from if_pos rfl, ih]

theorem move_apply (m : FileMap (δ × ν) φ) {d d' : δ} (hd : d ≠ d') (n : ν) (k : δ × ν) :
    move d d' m n k =
      if k = (d, n) then none
      else if k = (d', n) ∧ (m (d, n)).isSome then m (d, n) else m k := by
  have hne : (d, n) ≠ (d', n) := fun h => hd (congrArg Prod.fst h)
  rw [move, rename, if_neg hne]
  cases hfile : m (d, n) with
  | none =>
    by_cases hk : k = (d, n)
    · simp [hk, hfile]
    · simp [hk]
  | some file =>
    by_cases hk : k = (d', n)
    · simp [hk, hne.symm]
    · simp only
      rw [write_of_ne _ _ hk, unlink_apply]
      simp [hk]

/-- After moving a list of names there is nothing left of them where they were, and they replace
what was at the place they moved to. -/
theorem foldl_move (m : FileMap (δ × ν) φ) {d d' : δ} (hd : d ≠ d') (ns : List ν) (k : δ × ν) :
    ns.foldl (move d d') m k =
      if k.1 = d ∧ k.2 ∈ ns then none
      else if k.1 = d' ∧ k.2 ∈ ns ∧ (m (d, k.2)).isSome then m (d, k.2) else m k := by
  obtain ⟨e, x⟩ := k
  induction ns generalizing m with
  | nil => simp
  | cons n ns ih =>
    rw [List.foldl_cons, ih, move_apply m hd, move_apply m hd]
    simp only [Prod.mk.injEq, true_and, List.mem_cons]
    by_cases hx : x = n
    · by_cases hmem : x ∈ ns <;> by_cases he : e = d <;> by_cases he' : e = d' <;>
        simp_all
    · simp [hx, hd]

end

end FileMap

end BoatRudder
