import Mathlib.Data.Finset.Card
import Mathlib.Logic.Function.Basic
import Mathlib.Data.Finset.Range
import Mathlib.Data.Nat.Find

/-! # Open addressing

A hash table of a fixed number of slots in which a key stands at its hash or at one of the slots
behind it, as the slots before were taken. A search goes from slot to slot, round the end of the
table, up to the key or an empty slot. It ends as long as one slot is empty, and finds what was put in
(`Dict.find`, `Dict.add`). -/

namespace BoatRudder.Probing

universe u v

variable {K : Type u} {V : Type v}

/-- The slots of a table. -/
abbrev Slots (K : Type u) (V : Type v) : Type (max u v) := ℕ → Option (K × V)

/-- The first slot from `h` on at which `stop` holds; nothing when the search is not over after `fuel`
turns. -/
def probe (size : ℕ) (stop : Option (K × V) → Bool) (slots : Slots K V) : ℕ → ℕ → Option ℕ
  | 0, _ => none
  | fuel + 1, h => if stop (slots h) then some h else probe size stop slots fuel ((h + 1) % size)

/-- A search for `k` stops at it and at an empty slot. -/
def stopsAt [DecidableEq K] (k : K) (s : Option (K × V)) : Bool := s.all (·.1 = k)

variable (size : ℕ) (hash : K → ℕ)

/-- The value of `k`, if there is one; nothing when the search does not end. -/
def find [DecidableEq K] (slots : Slots K V) (k : K) : Option (Option V) :=
  (probe size (stopsAt k) slots size (hash k)).map fun i => (slots i).map (·.2)

/-- The table with a value for `k` in the first empty slot; nothing when the search does not end. -/
def add (slots : Slots K V) (k : K) (v : V) : Option (Slots K V) :=
  (probe size Option.isNone slots size (hash k)).map fun i => Function.update slots i (some (k, v))

variable {size hash} {slots : Slots K V} {stop : Option (K × V) → Bool}

/-! ## Searches -/

/-- **Where a search ends**: `n` slots on, none of those before being a stop. -/
theorem probe_eq_some_iff {fuel h i : ℕ} (hh : h < size) :
    probe size stop slots fuel h = some i ↔
      ∃ n < fuel, i = (h + n) % size ∧ stop (slots i) = true ∧
        ∀ k < n, stop (slots ((h + k) % size)) = false := by
  induction fuel generalizing h with
  | zero => simp [probe]
  | succ fuel ih =>
    have hpos : 0 < size := Nat.zero_lt_of_lt hh
    have hstart : (h + 0) % size = h := Nat.mod_eq_of_lt hh
    have hnext : ∀ k, ((h + 1) % size + k) % size = (h + (k + 1)) % size := fun k => by
      rw [Nat.mod_add_mod, Nat.add_assoc, Nat.add_comm 1]
    rw [probe]
    by_cases hstop : stop (slots h) = true
    · rw [if_pos hstop, Option.some.injEq]
      constructor
      · rintro rfl
        exact ⟨0, fuel.succ_pos, hstart.symm, hstop, fun k hk => absurd hk k.not_lt_zero⟩
      · rintro ⟨n, -, rfl, -, hbefore⟩
        rcases Nat.eq_zero_or_pos n with rfl | hn
        · exact hstart.symm
        · have h0 := hbefore 0 hn
          rw [hstart, hstop] at h0
          cases h0
    · rw [if_neg hstop, ih (Nat.mod_lt _ hpos)]
      constructor
      · rintro ⟨n, hn, rfl, hat, hbefore⟩
        refine ⟨n + 1, Nat.succ_lt_succ hn, hnext n, hat, fun k hk => ?_⟩
        cases k with
        | zero => rw [hstart]; exact Bool.eq_false_iff.mpr hstop
        | succ k => rw [← hnext]; exact hbefore k (Nat.lt_of_succ_lt_succ hk)
      · rintro ⟨n, hn, rfl, hat, hbefore⟩
        cases n with
        | zero => exact absurd (hstart ▸ hat) hstop
        | succ n =>
          refine ⟨n, Nat.lt_of_succ_lt_succ hn, (hnext n).symm, hat, fun k hk => ?_⟩
          rw [hnext]
          exact hbefore (k + 1) (Nat.succ_lt_succ hk)

/-- **A search ends when one of the slots is a stop.** -/
theorem exists_probe {h f : ℕ} (hh : h < size) (hf : f < size) (hstop : stop (slots f) = true) :
    ∃ i < size, probe size stop slots size h = some i := by
  have hpos : 0 < size := Nat.zero_lt_of_lt hh
  have hreach : ∃ n, n < size ∧ stop (slots ((h + n) % size)) = true := by
    refine ⟨(f + (size - h)) % size, Nat.mod_lt _ hpos, ?_⟩
    have hround : (h + (f + (size - h)) % size) % size = f := by
      rw [Nat.add_mod_mod, show h + (f + (size - h)) = f + size by omega, Nat.add_mod_right,
        Nat.mod_eq_of_lt hf]
    rw [hround, hstop]
  classical
  obtain ⟨hlt, hat⟩ := Nat.find_spec hreach
  refine ⟨(h + Nat.find hreach) % size, Nat.mod_lt _ hpos, (probe_eq_some_iff hh).mpr
    ⟨Nat.find hreach, hlt, rfl, hat, fun k hk => ?_⟩⟩
  have hmin := Nat.find_min hreach hk
  rw [not_and, Bool.not_eq_true] at hmin
  exact hmin (hk.trans hlt)

theorem probe_spec {h i : ℕ} (hh : h < size) (hprobe : probe size stop slots size h = some i) :
    i < size ∧ stop (slots i) = true := by
  obtain ⟨n, -, rfl, hat, -⟩ := (probe_eq_some_iff hh).mp hprobe
  exact ⟨Nat.mod_lt _ (Nat.zero_lt_of_lt hh), hat⟩

/-- There is an empty slot. -/
theorem exists_empty {n : ℕ} (hused : ∃ s : Finset ℕ, s.card ≤ n ∧ ∀ i < size, slots i ≠ none → i ∈ s)
    (hn : n < size) : ∃ f < size, slots f = none := by
  obtain ⟨s, hcard, hs⟩ := hused
  obtain ⟨f, hf, hfs⟩ := Finset.exists_mem_notMem_of_card_lt_card
    (s := s) (t := Finset.range size) (by rw [Finset.card_range]; omega)
  refine ⟨f, Finset.mem_range.mp hf, ?_⟩
  by_contra hne
  exact hfs (hs f (Finset.mem_range.mp hf) hne)

/-! ## The table as a dictionary -/

variable [DecidableEq K]

/-- The table holds `D`, and at most `n` of its slots are taken. -/
structure Dict (size : ℕ) (hash : K → ℕ) (slots : Slots K V) (D : K → Option V) (n : ℕ) : Prop where
  hash_lt : ∀ k, hash k < size
  found : ∀ k, find size hash slots k = some (D k)
  stored : ∀ i < size, ∀ e, slots i = some e → D e.1 ≠ none
  used : ∃ s : Finset ℕ, s.card ≤ n ∧ ∀ i < size, slots i ≠ none → i ∈ s

/-- An empty table. -/
theorem dict_empty (hhash : ∀ k, hash k < size) (hsize : 0 < size) :
    Dict size hash (fun _ => none : Slots K V) (fun _ => none) 0 where
  hash_lt := hhash
  found := fun k => by
    obtain ⟨i, -, hi⟩ := @exists_probe K V size (fun _ => none) (stopsAt k) (hash k) 0 (hhash k) hsize rfl
    rw [find, hi]
    rfl
  stored := fun i _ e he => nomatch he
  used := ⟨∅, le_rfl, fun i _ h => absurd rfl h⟩

variable {D : K → Option V} {n : ℕ}

/-- The search for a key that is not in the table ends at an empty slot. -/
theorem Dict.exists_probe_absent (h : Dict size hash slots D n) {k : K} (hk : D k = none) :
    ∃ i < size, probe size (stopsAt k) slots size (hash k) = some i ∧ slots i = none := by
  obtain ⟨i, hprobe, hi⟩ := Option.map_eq_some_iff.mp (h.found k)
  refine ⟨i, (probe_spec (h.hash_lt k) hprobe).1, hprobe, ?_⟩
  rw [hk] at hi
  exact Option.map_eq_none_iff.mp hi

/-- One slot more is taken when one is filled. -/
theorem Dict.used_update (h : Dict size hash slots D n) (j : ℕ) (e : K × V) :
    ∃ s : Finset ℕ, s.card ≤ n + 1 ∧ ∀ i < size, Function.update slots j (some e) i ≠ none → i ∈ s := by
  obtain ⟨s, hcard, hs⟩ := h.used
  refine ⟨insert j s, (Finset.card_insert_le j s).trans (Nat.succ_le_succ hcard), fun i hi hne => ?_⟩
  by_cases hij : i = j
  · rw [hij]
    exact Finset.mem_insert_self j s
  · rw [Function.update_of_ne hij] at hne
    exact Finset.mem_insert_of_mem (hs i hi hne)

/-- The keys of the slots have values when one is filled for a key that gets one. -/
theorem Dict.stored_update (h : Dict size hash slots D n) (j : ℕ) (k : K) (v : V) :
    ∀ i < size, ∀ e, Function.update slots j (some (k, v)) i = some e →
      Function.update D k (some v) e.1 ≠ none := by
  intro i hi e he
  by_cases hek : e.1 = k
  · rw [hek, Function.update_self]
    exact Option.some_ne_none v
  · rw [Function.update_of_ne hek]
    by_cases hij : i = j
    · rw [hij, Function.update_self] at he
      exact absurd (congrArg Prod.fst (Option.some.inj he)).symm hek
    · rw [Function.update_of_ne hij] at he
      exact h.stored i hi e he

/-- A search still passes over what it passed over when an empty slot is filled. -/
theorem stopsAt_update {j : ℕ} (hempty : slots j = none) (e : K × V) {k : K} {i : ℕ}
    (hstop : stopsAt k (slots i) = false) : stopsAt k (Function.update slots j (some e) i) = false := by
  have hij : i ≠ j := by
    rintro rfl
    rw [hempty] at hstop
    cases hstop
  rwa [Function.update_of_ne hij]

/-- A value that was found is found there still when an empty slot is filled. -/
theorem Dict.find_update (h : Dict size hash slots D n) {j : ℕ} (hempty : slots j = none) (e : K × V)
    {k : K} {v : V} (hk : D k = some v) :
    find size hash (Function.update slots j (some e)) k = some (some v) := by
  obtain ⟨i, hold, hval⟩ := Option.map_eq_some_iff.mp (h.found k)
  obtain ⟨m, hm, rfl, hat, hbefore⟩ := (probe_eq_some_iff (h.hash_lt k)).mp hold
  have hne : (hash k + m) % size ≠ j := by
    intro hij
    rw [hij, hempty, hk] at hval
    cases hval
  have hend : probe size (stopsAt k) (Function.update slots j (some e)) size (hash k) =
      some ((hash k + m) % size) := by
    refine (probe_eq_some_iff (h.hash_lt k)).mpr ⟨m, hm, rfl, ?_, fun i hi => ?_⟩
    · rwa [Function.update_of_ne hne]
    · exact stopsAt_update hempty e (hbefore i hi)
  rw [find, hend, Option.map_some, Function.update_of_ne hne, hval, hk]

/-- A key that no slot has is searched for up to an empty one. -/
theorem find_eq_none {k : K} (hhash : hash k < size) (hn : n < size)
    (hused : ∃ s : Finset ℕ, s.card ≤ n ∧ ∀ i < size, slots i ≠ none → i ∈ s)
    (hstored : ∀ i < size, ∀ e, slots i = some e → e.1 ≠ k) : find size hash slots k = some none := by
  obtain ⟨f, hf, hfree⟩ := exists_empty hused hn
  obtain ⟨i, hi, hend⟩ := @exists_probe K V size slots (stopsAt k) (hash k) f hhash hf
    (by rw [hfree]; rfl)
  have hstop := (probe_spec hhash hend).2
  rw [find, hend, Option.map_some]
  cases hslot : slots i with
  | none => rfl
  | some e =>
    rw [hslot] at hstop
    exact absurd (of_decide_eq_true hstop) (hstored i hi e hslot)

/-- **A value is put in for a key that has none.** -/
theorem Dict.add (h : Dict size hash slots D n) {k : K} (hk : D k = none) (hn : n + 1 < size) (v : V) :
    ∃ slots', Probing.add size hash slots k v = some slots' ∧
      Dict size hash slots' (Function.update D k (some v)) (n + 1) := by
  obtain ⟨j, hj, hprobe, hempty⟩ := h.exists_probe_absent hk
  obtain ⟨m, hm, rfl, -, hbefore⟩ := (probe_eq_some_iff (h.hash_lt k)).mp hprobe
  set j := (hash k + m) % size with hjdef
  -- the search for an empty slot ends where that for the key does
  have hfree : probe size Option.isNone slots size (hash k) = some j := by
    refine (probe_eq_some_iff (h.hash_lt k)).mpr ⟨m, hm, hjdef, by rw [hempty]; rfl, fun i hi => ?_⟩
    have hstop := hbefore i hi
    cases hslot : slots ((hash k + i) % size) with
    | none => rw [hslot] at hstop; cases hstop
    | some e => rfl
  refine ⟨Function.update slots j (some (k, v)), by rw [Probing.add, hfree]; rfl, ?_⟩
  have hstored := h.stored_update j k v
  refine ⟨h.hash_lt, fun k' => ?_, hstored, h.used_update j (k, v)⟩
  by_cases hkk : k' = k
  · subst hkk
    have hend : probe size (stopsAt k') (Function.update slots j (some (k', v))) size (hash k') =
        some j := by
      refine (probe_eq_some_iff (h.hash_lt k')).mpr ⟨m, hm, hjdef, ?_, fun i hi => ?_⟩
      · rw [Function.update_self]
        exact decide_eq_true rfl
      · exact stopsAt_update hempty (k', v) (hbefore i hi)
    rw [find, hend, Option.map_some, Function.update_self, Function.update_self]
    rfl
  · rw [Function.update_of_ne hkk]
    cases hD : D k' with
    | none =>
      refine find_eq_none (h.hash_lt k') hn (h.used_update j (k, v)) fun i hi e he hek => ?_
      have hval := hstored i hi e he
      rw [hek, Function.update_of_ne hkk, hD] at hval
      exact hval rfl
    | some v' => exact h.find_update hempty (k, v) hD

end BoatRudder.Probing
