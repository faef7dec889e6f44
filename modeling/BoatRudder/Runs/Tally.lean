import BoatRudder.Runs.Collection
import Mathlib.Algebra.Ring.Nat
import Mathlib.Data.List.Induction

/-! # Tallies

Documents that count: one for each key, made at the first event that has it and one higher at each
further one. What the documents of some keys count together is the number of events that have them. -/

namespace BoatRudder

universe u v w

/-- A document that counts. -/
structure Tally (κ : Type u) (ι : Type v) where
  /-- Its key. -/
  key : κ
  /-- What it was made with. -/
  info : ι
  /-- What it has counted. -/
  total : ℕ
  deriving DecidableEq

namespace Tally

variable {κ : Type u} {ι : Type v} {ε : Type w} [DecidableEq κ]

/-- Counts one more under a key. -/
def bump (k : κ) (i : ι) (docs : List (Tally κ ι)) : List (Tally κ ι) :=
  if docs.any (fun d => d.key = k) then
    Collection.updateOne (fun d => d.key = k) (fun d => { d with total := d.total + 1 }) docs
  else docs ++ [⟨k, i, 1⟩]

/-- What the documents that are selected count together. -/
def sum (p : Tally κ ι → Bool) (docs : List (Tally κ ι)) : ℕ :=
  ((docs.filter p).map Tally.total).sum

variable {k : κ} {i : ι} {docs : List (Tally κ ι)}

theorem mem_bump {d : Tally κ ι} (h : d ∈ bump k i docs) :
    (∃ e ∈ docs, e.key = d.key ∧ e.info = d.info) ∨ d.key = k ∧ d.info = i := by
  unfold bump at h
  split_ifs at h
  · left
    clear * - h
    induction docs with
    | nil => cases h
    | cons e docs ih =>
      rw [Collection.updateOne_cons] at h
      split_ifs at h
      · rcases List.mem_cons.mp h with rfl | h
        · exact ⟨e, by simp, rfl, rfl⟩
        · exact ⟨d, by simp [h], rfl, rfl⟩
      · rcases List.mem_cons.mp h with rfl | h
        · exact ⟨d, by simp, rfl, rfl⟩
        · obtain ⟨f, hf, hfd⟩ := ih h
          exact ⟨f, by simp [hf], hfd⟩
  · rcases List.mem_append.mp h with h | h
    · exact Or.inl ⟨d, h, rfl, rfl⟩
    · obtain rfl := List.mem_singleton.mp h
      exact Or.inr ⟨rfl, rfl⟩

/-- The keys are those before, and the one that is counted. -/
theorem mem_map_key_bump {l : κ} :
    l ∈ (bump k i docs).map Tally.key ↔ l ∈ docs.map Tally.key ∨ l = k := by
  unfold bump
  split_ifs with h
  · have hkeys := Collection.map_updateOne (f := Tally.key)
      (g := fun d : Tally κ ι => { d with total := d.total + 1 }) (fun _ => rfl)
      (fun d => d.key = k) docs
    rw [hkeys, iff_self_or]
    rintro rfl
    obtain ⟨d, hd, hkey⟩ := List.any_eq_true.mp h
    exact List.mem_map.mpr ⟨d, hd, by simpa using hkey⟩
  · simp

/-- **One event counts once**, where it is selected. -/
theorem sum_bump {p : Tally κ ι → Bool} {q : κ → Bool} (hp : ∀ d, p d = q d.key) :
    sum p (bump k i docs) = sum p docs + (q k).toNat := by
  have hsum (d : Tally κ ι) (docs : List (Tally κ ι)) :
      sum p (d :: docs) = (if q d.key then d.total else 0) + sum p docs := by
    unfold sum
    rw [List.filter_cons, hp]
    split_ifs <;> simp
  unfold bump
  split_ifs with h
  · obtain ⟨d, hd, hkey⟩ := List.any_eq_true.mp h
    clear h
    induction docs with
    | nil => cases hd
    | cons e docs ih =>
      rw [Collection.updateOne_cons]
      by_cases he : e.key = k
      · rw [if_pos (decide_eq_true he), hsum, hsum]
        dsimp only
        rw [he]
        cases q k
        · simp
        · simp only [if_true, Bool.toNat_true]
          omega
      · rw [if_neg (by simpa using he), hsum, hsum, Nat.add_assoc]
        refine congrArg _ (ih ((List.mem_cons.mp hd).resolve_left ?_))
        rintro rfl
        exact he (by simpa using hkey)
  · rw [sum, sum, List.filter_append, List.map_append, List.sum_append, List.filter_singleton, hp]
    cases q k <;> simp

/-! ## Runs -/

/-- The documents after a run of events, each with a key and what a document of it is made with. -/
def count (key : ε → κ) (info : ε → ι) (events : List ε) : List (Tally κ ι) :=
  events.foldl (fun docs e => bump (key e) (info e) docs) []

variable {key : ε → κ} {info : ε → ι} {events : List ε}

theorem count_concat (e : ε) :
    count key info (events ++ [e]) = bump (key e) (info e) (count key info events) := by
  rw [count, List.foldl_append]
  rfl

/-- A document is there for an event. -/
theorem exists_of_mem_count {d : Tally κ ι} (h : d ∈ count key info events) :
    ∃ e ∈ events, key e = d.key ∧ info e = d.info := by
  induction events using List.reverseRecOn generalizing d with
  | nil => cases h
  | append_singleton events e ih =>
    rw [count_concat] at h
    rcases mem_bump h with ⟨d', hd', hkey, hinfo⟩ | ⟨hkey, hinfo⟩
    · obtain ⟨f, hf, hfkey, hfinfo⟩ := ih hd'
      exact ⟨f, by simp [hf], hfkey.trans hkey, hfinfo.trans hinfo⟩
    · exact ⟨e, by simp, hkey.symm, hinfo.symm⟩

/-- An event has a document. -/
theorem exists_mem_count {e : ε} (h : e ∈ events) : ∃ d ∈ count key info events, d.key = key e := by
  suffices hmem : key e ∈ (count key info events).map Tally.key from List.mem_map.mp hmem
  induction events using List.reverseRecOn with
  | nil => cases h
  | append_singleton events f ih =>
    rw [count_concat, mem_map_key_bump]
    rcases List.mem_append.mp h with h | h
    · exact Or.inl (ih h)
    · rw [List.mem_singleton.mp h]
      exact Or.inr rfl

/-- **What documents count together is the number of their events.** -/
theorem sum_count {p : Tally κ ι → Bool} {q : κ → Bool} (hp : ∀ d, p d = q d.key) :
    sum p (count key info events) = events.countP fun e => q (key e) := by
  induction events using List.reverseRecOn with
  | nil => rfl
  | append_singleton events e ih =>
    rw [count_concat, sum_bump hp, ih, List.countP_append, List.countP_singleton]
    cases q (key e) <;> simp

end Tally

end BoatRudder
