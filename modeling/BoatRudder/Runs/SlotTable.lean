import Mathlib.Data.Finset.Card
import Mathlib.Data.List.Pairwise
import Mathlib.Order.Basic

/-! # Bounded tables with eviction

A table of a fixed number of slots, each free or holding the entry of one key. An entry carries a
stamp, and when there is no free slot for a new key, the entry with the oldest stamp gives up its
slot. What such a table forgets is bounded by `length_le_card`: for an entry to be evicted, as many
keys as there are slots must have come in since its stamp. -/

namespace BoatRudder

universe u v w

/-- A slot of a table: the key it holds unless it is free, and the stamp eviction goes by. -/
class Slot (ε : Type u) (κ : outParam (Type v)) (τ : outParam (Type w)) where
  /-- The key of the entry, none where the slot is free. -/
  key : ε → Option κ
  /-- The stamp of the entry. -/
  stamp : ε → τ

namespace SlotTable

variable {ε : Type u} {κ : Type v} {τ : Type w} [Slot ε κ τ]

open Slot

/-! ## The oldest entry -/

section Oldest

variable [LT τ] [DecidableLT τ]

/-- The search for the oldest entry in the slots from `i` on, `best` being the oldest so far, at
index `victim`. -/
def oldestFrom (victim : ℕ) (best : τ) (i : ℕ) : List ε → ℕ
  | [] => victim
  | e :: t =>
    if stamp e < best then oldestFrom i (stamp e) (i + 1) t else oldestFrom victim best (i + 1) t

/-- The index of the first of the oldest entries. -/
def oldestIdx : List ε → ℕ
  | [] => 0
  | e :: t => oldestFrom 0 (stamp e) 1 t

end Oldest

section OldestSpec

variable [LinearOrder τ]

/-- Slot `i` holds the first of the oldest entries of a table. -/
def IsOldest (t : List ε) (i : ℕ) : Prop :=
  ∃ h : i < t.length, (∀ e ∈ t, stamp t[i] ≤ stamp e) ∧
    ∀ (j : ℕ) (hj : j < i), stamp t[i] < stamp t[j]

/-- There is one first of the oldest entries. -/
theorem IsOldest.unique {t : List ε} {i j : ℕ} (hi : IsOldest t i) (hj : IsOldest t j) : i = j := by
  obtain ⟨hi, hmin, hfirst⟩ := hi
  obtain ⟨hj, hmin', hfirst'⟩ := hj
  rcases Nat.lt_trichotomy i j with hlt | heq | hgt
  · exact absurd (hmin _ (List.getElem_mem hj)) (not_le.mpr (hfirst' i hlt))
  · exact heq
  · exact absurd (hmin' _ (List.getElem_mem hi)) (not_le.mpr (hfirst j hgt))

/-- The search goes on from the oldest entry so far to the oldest of all. -/
theorem isOldest_oldestFrom (pre t : List ε) {victim : ℕ} {best : τ} (hv : IsOldest pre victim)
    (hbest : ∀ h : victim < pre.length, stamp pre[victim] = best) :
    IsOldest (pre ++ t) (oldestFrom victim best pre.length t) := by
  induction t generalizing pre victim best with
  | nil => simpa [oldestFrom] using hv
  | cons x t ih =>
    obtain ⟨hlt, hmin, hfirst⟩ := hv
    have hbest := hbest hlt
    have hassoc : pre ++ x :: t = (pre ++ [x]) ++ t := by simp
    have hlen : (pre ++ [x]).length = pre.length + 1 := by simp
    rw [oldestFrom, hassoc, ← hlen]
    by_cases hx : stamp x < best
    · -- the slot just searched is older than everything before it
      rw [if_pos hx]
      have hbefore : ∀ e ∈ pre, stamp x < stamp e :=
        fun e he => lt_of_lt_of_le hx (hbest ▸ hmin e he)
      refine ih (pre ++ [x]) ⟨by simp, ?_, ?_⟩ (by simp)
      · intro e he
        rcases List.mem_append.mp he with he | he
        · simpa using le_of_lt (hbefore e he)
        · rw [List.mem_singleton.mp he]
          simp
      · intro j hj
        rw [List.getElem_append_left hj]
        simpa using hbefore _ (List.getElem_mem hj)
    · rw [if_neg hx]
      have hsame : (pre ++ [x])[victim]? = some pre[victim] := by
        rw [List.getElem?_append_left hlt, List.getElem?_eq_getElem hlt]
      obtain ⟨hlt', hget⟩ := List.getElem?_eq_some_iff.mp hsame
      refine ih (pre ++ [x]) ⟨hlt', ?_, ?_⟩ (fun _ => hget ▸ hbest)
      · intro e he
        rw [hget]
        rcases List.mem_append.mp he with he | he
        · exact hmin e he
        · rw [List.mem_singleton.mp he, hbest]
          exact le_of_not_gt hx
      · intro j hj
        rw [hget, List.getElem_append_left (by omega)]
        exact hfirst j hj

/-- **The entry that is evicted is the first of the oldest.** -/
theorem isOldest_oldestIdx {t : List ε} (ht : t ≠ []) : IsOldest t (oldestIdx t) := by
  cases t with
  | nil => exact absurd rfl ht
  | cons x t => exact isOldest_oldestFrom [x] t ⟨by simp, by simp, by simp⟩ (by simp)

end OldestSpec

/-! ## Tables in which no two slots hold the same key -/

/-- No two slots hold the same key. -/
def Distinct (t : List ε) : Prop := t.Pairwise fun a b => ∀ k, key a = some k → key b ≠ some k

/-- Two slots that hold the same key are one. -/
theorem Distinct.eq_of_key {t : List ε} (h : Distinct t) {i j : ℕ} {hi : i < t.length}
    {hj : j < t.length} {k : κ} (hki : key t[i] = some k) (hkj : key t[j] = some k) : i = j := by
  rw [Distinct, List.pairwise_iff_getElem] at h
  rcases Nat.lt_trichotomy i j with hlt | heq | hlt
  · exact absurd hkj (h i j hi hj hlt k hki)
  · exact heq
  · exact absurd hki (h j i hj hi hlt k hkj)

/-- A table of free slots. -/
theorem distinct_replicate {e : ε} (he : key e = none) (n : ℕ) :
    Distinct (List.replicate n e) := by
  rw [Distinct, List.pairwise_replicate]
  exact Or.inr fun k hk => by simp [he] at hk

/-- A slot may take an entry whose key is in no other slot. -/
theorem Distinct.set {t : List ε} (h : Distinct t) {i : ℕ} {e : ε}
    (hnew : ∀ k, key e = some k → ∀ j (hj : j < t.length), j ≠ i → key t[j] ≠ some k) :
    Distinct (t.set i e) := by
  rw [Distinct, List.pairwise_iff_getElem] at h ⊢
  intro a b ha hb hab k hka
  rw [List.length_set] at ha hb
  rw [List.getElem_set] at hka ⊢
  by_cases hai : i = a
  · rw [if_pos hai] at hka
    rw [if_neg (by omega)]
    exact hnew k hka b hb (by omega)
  · rw [if_neg hai] at hka
    by_cases hbi : i = b
    · rw [if_pos hbi]
      exact fun hkb => hnew k hkb a ha (by omega) hka
    · rw [if_neg hbi]
      exact h a b ha hb hab k hka

/-- An entry may change while it keeps its key. -/
theorem Distinct.set_same {t : List ε} (h : Distinct t) {i : ℕ} (hi : i < t.length) {e : ε}
    (hkey : key e = key t[i]) : Distinct (t.set i e) := by
  apply h.set
  intro k hk j hj hji hkj
  exact hji (h.eq_of_key hkj (hkey.symm.trans hk))

/-- A slot may take the entry of a key that is not in the table. -/
theorem Distinct.set_new {t : List ε} (h : Distinct t) (i : ℕ) {e : ε} {k : κ}
    (hkey : key e = some k) (hnew : ∀ e ∈ t, key e ≠ some k) : Distinct (t.set i e) := by
  apply h.set
  intro k' hk' j hj _
  obtain rfl : k = k' := Option.some.inj (hkey.symm.trans hk')
  exact hnew _ (List.getElem_mem hj)

/-- What is done to every entry on its own, keeping or freeing its slot, keeps keys apart. -/
theorem Distinct.map {t : List ε} (h : Distinct t) {f : ε → ε}
    (hf : ∀ e, key (f e) = key e ∨ key (f e) = none) : Distinct (t.map f) := by
  rw [Distinct, List.pairwise_map]
  refine h.imp ?_
  intro a b hab k hka hkb
  rcases hf a with ha | ha <;> rcases hf b with hb | hb <;> simp_all

/-- An entry other than the one in the slot that is written stays in the table. -/
theorem mem_set_of_ne {t : List ε} {i : ℕ} {x e : ε} (he : e ∈ t)
    (hne : ∀ h : i < t.length, t[i] ≠ e) : e ∈ t.set i x := by
  obtain ⟨j, hj⟩ := List.mem_iff_getElem?.mp he
  obtain ⟨hlt, hje⟩ := List.getElem?_eq_some_iff.mp hj
  have hij : i ≠ j := by
    rintro rfl
    exact hne hlt hje
  exact List.mem_iff_getElem?.mpr ⟨j, by rw [List.getElem?_set_ne hij, hj]⟩

/-- What stands in a table after a slot is written: the new entry, and the entries of the other
slots. -/
theorem eq_or_exists_of_mem_set {t : List ε} {i : ℕ} {x e : ε} (he : e ∈ t.set i x) :
    e = x ∨ ∃ (j : ℕ) (h : j < t.length), j ≠ i ∧ t[j] = e := by
  obtain ⟨j, hj⟩ := List.mem_iff_getElem?.mp he
  rw [List.getElem?_set] at hj
  by_cases hij : i = j
  · rw [if_pos hij] at hj
    exact Or.inl (by split at hj <;> simp_all)
  · rw [if_neg hij] at hj
    obtain ⟨h, hje⟩ := List.getElem?_eq_some_iff.mp hj
    exact Or.inr ⟨j, h, Ne.symm hij, hje⟩

/-- The slot the search for a key finds: the one that holds it. -/
theorem findIdx?_eq_some_iff {t : List ε} (hd : Distinct t) {p : ε → Bool} {k : κ}
    (hp : ∀ e ∈ t, p e = true ↔ key e = some k) {i : ℕ} :
    t.findIdx? p = some i ↔ ∃ h : i < t.length, key t[i] = some k := by
  rw [List.findIdx?_eq_some_iff_getElem]
  constructor
  · rintro ⟨h, hpi, -⟩
    exact ⟨h, (hp _ (List.getElem_mem h)).mp hpi⟩
  · rintro ⟨h, hk⟩
    refine ⟨h, (hp _ (List.getElem_mem h)).mpr hk, fun j hj hpj => ?_⟩
    have hkj := (hp _ (List.getElem_mem (by omega))).mp hpj
    have := hd.eq_of_key hkj hk
    omega

/-! ## What a full table tells -/

/-- **A full table has as many keys as slots.** If every slot holds a key of `S`, then `S` has at
least as many members as the table has slots. -/
theorem length_le_card {t : List ε} {S : Finset κ} (hd : Distinct t)
    (h : ∀ e ∈ t, ∃ k ∈ S, key e = some k) : t.length ≤ S.card := by
  classical
  have hkeys : t.filterMap key = (t.filterMap key).dedup := by
    symm
    rw [List.dedup_eq_self, List.Nodup, List.pairwise_filterMap]
    refine hd.imp ?_
    intro a b hab k hk k' hk' heq
    exact hab k hk (heq ▸ hk')
  have hlen : (t.filterMap key).length = t.length := by
    rw [List.filterMap_length_eq_length]
    intro e he
    obtain ⟨k, -, hk⟩ := h e he
    simp [hk]
  have hsub : (t.filterMap key).toFinset ⊆ S := by
    intro k hk
    obtain ⟨e, he, hek⟩ := List.mem_filterMap.mp (List.mem_toFinset.mp hk)
    obtain ⟨k', hk', hek'⟩ := h e he
    rw [hek] at hek'
    exact Option.some.inj hek' ▸ hk'
  calc t.length = (t.filterMap key).dedup.length := by rw [← hkeys, hlen]
    _ = (t.filterMap key).toFinset.card := (List.card_toFinset _).symm
    _ ≤ S.card := Finset.card_le_card hsub

/-- **An eviction takes as many other keys as there are slots.** If a new key takes the slot of an
entry, and it and the keys of the other slots are in `S`, then `S` has at least as many members as
the table has slots. -/
theorem length_le_card_of_evict {t : List ε} {S : Finset κ} (hd : Distinct t) {i : ℕ} {x : ε}
    {k : κ} (hx : key x = some k) (hnew : ∀ e ∈ t, key e ≠ some k) (hk : k ∈ S)
    (hS : ∀ (j : ℕ) (h : j < t.length), j ≠ i → ∃ k ∈ S, key t[j] = some k) :
    t.length ≤ S.card := by
  have hle := length_le_card (S := S) (hd.set_new i hx hnew) (by
    intro e he
    obtain rfl | ⟨j, hj, hji, rfl⟩ := eq_or_exists_of_mem_set he
    · exact ⟨k, hk, hx⟩
    · exact hS j hj hji)
  simpa using hle

end SlotTable

end BoatRudder
