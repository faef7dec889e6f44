import Mathlib.Data.Int.Order.Basic
import Mathlib.Data.List.Pairwise
import Mathlib.Data.List.Sort
import Mathlib.Order.Defs.LinearOrder

/-! # Comparators

A comparator of C answers with a number whose sign says which of two values comes first. It is one when
the values are compared by a key in a linear order; and what it is for, `qsort`, promises a sorted array
for a comparator and nothing otherwise. -/

namespace BoatRudder

universe u v

variable {α : Type u} {β : Type v} {cmp : α → α → ℤ}

/-- The signs are those of a total preorder. -/
structure IsComparator (cmp : α → α → ℤ) : Prop where
  refl : ∀ a, cmp a a = 0
  sign_swap : ∀ a b, (cmp b a).sign = -(cmp a b).sign
  trans : ∀ a b c, cmp a b ≤ 0 → cmp b c ≤ 0 → cmp a c ≤ 0
  total : ∀ a b, cmp a b ≤ 0 ∨ cmp b a ≤ 0

/-- **Comparing by a key** is comparing. -/
theorem isComparator_of_key [LinearOrder β] (key : α → β) (hlt : ∀ a b, cmp a b < 0 ↔ key a < key b)
    (hgt : ∀ a b, 0 < cmp a b ↔ key b < key a) : IsComparator cmp := by
  have hle : ∀ a b, cmp a b ≤ 0 ↔ key a ≤ key b := fun a b => by
    rw [← not_lt, hgt, not_lt]
  have hge : ∀ a b, 0 ≤ cmp a b ↔ key b ≤ key a := fun a b => by
    rw [← not_lt, hlt, not_lt]
  have hzero : ∀ a b, cmp a b = 0 ↔ key a = key b := fun a b => by
    rw [le_antisymm_iff, le_antisymm_iff, hle, hge]
  refine ⟨fun a => (hzero a a).mpr rfl, fun a b => ?_, fun a b c hab hbc => ?_, fun a b => ?_⟩
  · rcases lt_trichotomy (key a) (key b) with h | h | h
    · rw [Int.sign_eq_one_of_pos ((hgt b a).mpr h), Int.sign_eq_neg_one_of_neg ((hlt a b).mpr h)]
      rfl
    · rw [(hzero b a).mpr h.symm, (hzero a b).mpr h]
      rfl
    · rw [Int.sign_eq_one_of_pos ((hgt a b).mpr h), Int.sign_eq_neg_one_of_neg ((hlt b a).mpr h)]
  · rw [hle] at hab hbc ⊢
    exact hab.trans hbc
  · rw [hle, hle]
    exact le_total _ _

/-- A comparator the other way round, of values taken from others. -/
theorem IsComparator.comap_swap {γ : Type*} (h : IsComparator cmp) (f : γ → α) :
    IsComparator fun a b => cmp (f b) (f a) where
  refl a := h.refl (f a)
  sign_swap a b := h.sign_swap (f b) (f a)
  trans a b c hab hbc := h.trans (f c) (f b) (f a) hbc hab
  total a b := h.total (f b) (f a)

/-- What `qsort` makes of an array. -/
structure Qsorted (cmp : α → α → ℤ) (xs ys : List α) : Prop where
  perm : ys.Perm xs
  sorted : IsComparator cmp → ys.Pairwise fun a b => cmp a b ≤ 0

/-! ## Sorting by a key -/

/-- The signs for the values of an array are those of a total preorder. -/
abbrev IsComparatorOn (cmp : α → α → ℤ) (xs : List α) : Prop :=
  IsComparator fun a b : {a // a ∈ xs} => cmp a b

/-- A `qsort` that sorts whatever is compared consistently. -/
structure Qsort where
  sort : {α : Type} → (α → α → ℤ) → List α → List α
  perm : ∀ {α : Type} (cmp : α → α → ℤ) (xs : List α), (sort cmp xs).Perm xs
  sorted : ∀ {α : Type} (cmp : α → α → ℤ) (xs : List α), IsComparatorOn cmp xs →
    (sort cmp xs).Pairwise fun a b => cmp a b ≤ 0

/-- A `qsort` sorts by the key that is compared. -/
theorem Qsort.pairwise_key (qsort : Qsort) {α : Type} [LinearOrder β] {cmp : α → α → ℤ} {key : α → β}
    (hkey : ∀ a b, (cmp a b < 0 ↔ key a < key b) ∧ (0 < cmp a b ↔ key b < key a)) (xs : List α) :
    (qsort.sort cmp xs).Pairwise fun a b => key a ≤ key b := by
  have hcmp : IsComparatorOn cmp xs :=
    isComparator_of_key (fun a => key a.1) (fun a b => (hkey a b).1) fun a b => (hkey a b).2
  refine (qsort.sorted cmp xs hcmp).imp fun {a b} hle => not_lt.mp fun hlt => ?_
  exact hle.not_gt ((hkey a b).2.mpr hlt)

open Classical in
/-- A `qsort` that makes what it likes of an array that is not compared consistently. -/
noncomputable def Qsort.otherwise (f : {α : Type} → List α → List α)
    (hf : ∀ {α : Type} (xs : List α), (f xs).Perm xs) : Qsort where
  sort cmp xs :=
    if IsComparatorOn cmp xs then (xs.attach.mergeSort fun a b => cmp a b ≤ 0).map Subtype.val else f xs
  perm cmp xs := by
    split_ifs
    · have hperm := (List.mergeSort_perm xs.attach fun a b => cmp a b ≤ 0).map Subtype.val
      rwa [List.attach_map_subtype_val] at hperm
    · exact hf xs
  sorted cmp xs h := by
    rw [if_pos h, List.pairwise_map]
    refine (List.pairwise_mergeSort ?_ ?_ xs.attach).imp fun hab => of_decide_eq_true hab
    · intro a b c hab hbc
      exact decide_eq_true (h.trans a b c (of_decide_eq_true hab) (of_decide_eq_true hbc))
    · intro a b
      simpa using h.total a b

theorem Qsort.otherwise_sort {f : {α : Type} → List α → List α}
    {hf : ∀ {α : Type} (xs : List α), (f xs).Perm xs} {α : Type} {cmp : α → α → ℤ} {xs : List α}
    (h : ¬ IsComparatorOn cmp xs) : (Qsort.otherwise f hf).sort cmp xs = f xs :=
  if_neg h

/-- Two values of an array stand one way or the other. -/
theorem rel_or_rel_of_pairwise {R : α → α → Prop} {xs : List α} (h : xs.Pairwise R) {a b : α} (ha : a ∈ xs)
    (hb : b ∈ xs) (hne : a ≠ b) : R a b ∨ R b a := by
  have : Std.Symm fun x y => R x y ∨ R y x := ⟨fun _ _ => Or.symm⟩
  have hor : xs.Pairwise fun x y => R x y ∨ R y x := h.imp Or.inl
  exact hor.forall ha hb hne

/-- **A comparator that is wrong about two values** need not sort them: an array that is compared
consistently has them the wrong way round, any other may be left as it was, or turned round. -/
theorem exists_qsort_unsorted [LinearOrder β] {α : Type} {cmp : α → α → ℤ} {key : α → β} {xs : List α}
    {a b : α} (ha : a ∈ xs) (hb : b ∈ xs) (hkey : key b < key a) (hcmp : cmp a b < 0) :
    ∃ qsort : Qsort, ¬ (qsort.sort cmp xs).Pairwise fun x y => key x ≤ key y := by
  by_contra! hall
  have hne : a ≠ b := fun h => hkey.ne (congrArg key h.symm)
  let kept := Qsort.otherwise id fun xs => List.Perm.refl xs
  let turned := Qsort.otherwise List.reverse List.reverse_perm
  by_cases h : IsComparatorOn cmp xs
  · have hmem {x : α} (hx : x ∈ xs) : x ∈ kept.sort cmp xs := (kept.perm cmp xs).mem_iff.mpr hx
    have hboth := (kept.sorted cmp xs h).and (hall kept)
    rcases rel_or_rel_of_pairwise hboth (hmem ha) (hmem hb) hne with ⟨-, hle⟩ | ⟨hle, -⟩
    · exact absurd hle (not_le.mpr hkey)
    · have hsign := h.sign_swap ⟨a, ha⟩ ⟨b, hb⟩
      rw [Int.sign_eq_neg_one_of_neg hcmp, Int.neg_neg, Int.sign_eq_one_iff_pos] at hsign
      exact absurd hle (not_le.mpr hsign)
  · have hkept := hall kept
    have hturned := hall turned
    rw [Qsort.otherwise_sort h] at hkept hturned
    rw [List.pairwise_reverse] at hturned
    rcases rel_or_rel_of_pairwise (hkept.and hturned) ha hb hne with ⟨hle, -⟩ | ⟨-, hle⟩
    · exact absurd hle (not_le.mpr hkey)
    · exact absurd hle (not_le.mpr hkey)

section

variable {γ : Type*} [LinearOrder β] {key : α → β} {xs : List α}

/-- Sorted arrays of the same keys have them in the same order. -/
theorem map_key_eq {key' : γ → β} {ys : List γ}
    (hperm : (xs.map key).Perm (ys.map key')) (hxs : xs.Pairwise fun a b => key a ≤ key b)
    (hys : ys.Pairwise fun a b => key' a ≤ key' b) : xs.map key = ys.map key' :=
  List.Perm.eq_of_pairwise (fun _ _ _ _ h h' => le_antisymm h h') (List.pairwise_map.mpr hxs)
    (List.pairwise_map.mpr hys) hperm

/-- **Where the keys differ, they tell the order** of the values that carry them. -/
theorem eq_map_mergeSort {source : γ → β} {f : γ → α} (hkey : ∀ c, key (f c) = source c) {cs : List γ}
    (hnodup : (cs.map source).Nodup) {ys : List α} (hperm : ys.Perm (cs.map f))
    (hsorted : ys.Pairwise fun a b => key a ≤ key b) :
    ys = (cs.mergeSort fun a b => source a ≤ source b).map f := by
  have hcs := List.mergeSort_perm cs fun a b => source a ≤ source b
  have hmerged : ((cs.mergeSort fun a b => source a ≤ source b).map f).Pairwise
      fun a b => key a ≤ key b := by
    rw [List.pairwise_map]
    refine (List.pairwise_mergeSort ?_ ?_ cs).imp fun {a b} hab => ?_
    · intro a b c hab hbc
      exact decide_eq_true ((of_decide_eq_true hab).trans (of_decide_eq_true hbc))
    · intro a b
      simpa using le_total (source a) (source b)
    · rw [hkey, hkey]
      exact of_decide_eq_true hab
  refine List.Perm.eq_of_pairwise ?_ hsorted hmerged (hperm.trans (hcs.map f).symm)
  intro a b ha hb hab hba
  obtain ⟨c, hc, rfl⟩ := List.mem_map.mp (hperm.mem_iff.mp ha)
  obtain ⟨c', hc', rfl⟩ := List.mem_map.mp hb
  rw [hkey, hkey] at hab hba
  rw [List.inj_on_of_nodup_map hnodup hc (hcs.mem_iff.mp hc') (le_antisymm hab hba)]

end

end BoatRudder
