import BoatRudder.Text.Bytes

/-! # Parsers that say what they read

A parser over a memory that goes beyond the data it was given returns the reads it made together with
its result. `Bounded` is its triple: every read satisfies a predicate, and so does the result. -/

namespace BoatRudder

universe u v

/-- A run of a parser: the reads it made, and what it returned unless it failed. -/
structure Traced (ι : Type u) (α : Type v) where
  /-- The reads, in order. -/
  reads : List ι
  /-- What was returned. -/
  result : Option α

namespace Traced

variable {ι : Type u} {κ : Type u} {α β : Type v}

/-- A failure, without a read. -/
def fail : Traced ι α := ⟨[], none⟩

/-- A run after another, on what that one returned. -/
def bind (p : Traced ι α) (f : α → Traced ι β) : Traced ι β :=
  match p.result with
  | none => ⟨p.reads, none⟩
  | some a => ⟨p.reads ++ (f a).reads, (f a).result⟩

instance : Monad (Traced ι) where
  pure a := ⟨[], some a⟩
  bind := bind

/-- The same run, its reads named differently. -/
def mapReads (f : ι → κ) (p : Traced ι α) : Traced κ α := ⟨p.reads.map f, p.result⟩

@[simp] theorem reads_pure (a : α) : (pure a : Traced ι α).reads = [] := rfl
@[simp] theorem result_pure (a : α) : (pure a : Traced ι α).result = some a := rfl
@[simp] theorem reads_fail : (fail : Traced ι α).reads = [] := rfl
@[simp] theorem result_fail : (fail : Traced ι α).result = none := rfl
@[simp] theorem reads_mapReads (f : ι → κ) (p : Traced ι α) :
    (p.mapReads f).reads = p.reads.map f := rfl
@[simp] theorem result_mapReads (f : ι → κ) (p : Traced ι α) :
    (p.mapReads f).result = p.result := rfl

/-- A run goes on only where the one before returned. -/
theorem result_bind_eq_some {p : Traced ι α} {f : α → Traced ι β} {b : β} :
    (p >>= f).result = some b ↔ ∃ a, p.result = some a ∧ (f a).result = some b := by
  change (p.bind f).result = some b ↔ _
  unfold bind
  cases p.result <;> simp

/-- The reads of a run that goes on. -/
theorem mem_reads_bind {p : Traced ι α} {f : α → Traced ι β} {i : ι} :
    i ∈ (p >>= f).reads ↔ i ∈ p.reads ∨ ∃ a, p.result = some a ∧ i ∈ (f a).reads := by
  change i ∈ (p.bind f).reads ↔ _
  unfold bind
  cases p.result <;> simp

/-! ## Bounded runs -/

/-- Every read of `p` satisfies `I`, and what it returns satisfies `Q`. -/
def Bounded (I : ι → Prop) (p : Traced ι α) (Q : α → Prop) : Prop :=
  (∀ i ∈ p.reads, I i) ∧ ∀ a, p.result = some a → Q a

variable {I J : ι → Prop} {Q R : α → Prop} {S : β → Prop} {p : Traced ι α} {f : α → Traced ι β}

theorem bounded_pure {a : α} (h : Q a) : Bounded I (pure a : Traced ι α) Q :=
  ⟨by simp, by simpa using h⟩

theorem bounded_fail : Bounded I (fail : Traced ι α) Q := ⟨by simp, by simp⟩

/-- The rule of sequence. -/
theorem Bounded.bind (hp : Bounded I p Q) (hf : ∀ a, Q a → Bounded I (f a) S) :
    Bounded I (p >>= f) S := by
  constructor
  · intro i hi
    rcases mem_reads_bind.mp hi with hi | ⟨a, ha, hi⟩
    · exact hp.1 i hi
    · exact (hf a (hp.2 a ha)).1 i hi
  · intro b hb
    obtain ⟨a, ha, hb⟩ := result_bind_eq_some.mp hb
    exact (hf a (hp.2 a ha)).2 b hb

/-- The rule of consequence. -/
theorem Bounded.mono (hp : Bounded I p Q) (hI : ∀ i, I i → J i) (hQ : ∀ a, Q a → R a) :
    Bounded J p R :=
  ⟨fun i hi => hI i (hp.1 i hi), fun a ha => hQ a (hp.2 a ha)⟩

/-- Reads named differently satisfy what their names mean. -/
theorem Bounded.mapReads {g : ι → κ} {K : κ → Prop} (hp : Bounded I p Q) (h : ∀ i, I i → K (g i)) :
    Bounded K (p.mapReads g) Q := by
  refine ⟨?_, hp.2⟩
  intro k hk
  obtain ⟨i, hi, rfl⟩ := List.mem_map.mp hk
  exact h i (hp.1 i hi)

/-! ## Runs that return -/

/-- Every read of `p` satisfies `I`, and `p` returns `a`. -/
def Returns (I : ι → Prop) (p : Traced ι α) (a : α) : Prop :=
  (∀ i ∈ p.reads, I i) ∧ p.result = some a

theorem returns_pure (a : α) : Returns I (pure a : Traced ι α) a := ⟨by simp, rfl⟩

/-- The rule of sequence, for runs that return. -/
theorem Returns.bind {a : α} {b : β} (hp : Returns I p a) (hf : Returns I (f a) b) :
    Returns I (p >>= f) b := by
  refine ⟨fun i hi => ?_, result_bind_eq_some.mpr ⟨a, hp.2, hf.2⟩⟩
  rcases mem_reads_bind.mp hi with hi | ⟨a', ha, hi⟩
  · exact hp.1 i hi
  · obtain rfl : a = a' := Option.some.inj (hp.2.symm.trans ha)
    exact hf.1 i hi

end Traced

/-! ## Memory -/

/-- The bytes from a pointer on, those of the data it points to and whatever comes after. -/
abbrev Memory := ℕ → UInt8

/-- Memory that holds `s`, and zeros after it. -/
def Memory.ofBytes (s : Bytes) : Memory := fun i => s.getD i 0

/-- The string `s` with its NUL stands at the pointer; what comes after may be anything. -/
def Memory.HoldsString (mem : Memory) (s : Bytes) : Prop := ∀ i ≤ s.length, mem i = s.getD i 0

/-- The memory `n` bytes on. -/
def Memory.from (mem : Memory) (n : ℕ) : Memory := fun i => mem (n + i)

/-- The `len` bytes at `lo`. -/
def Memory.bytes (mem : Memory) (lo len : ℕ) : Bytes := (List.range len).map fun i => mem (lo + i)

@[simp] theorem Memory.length_bytes (mem : Memory) (lo len : ℕ) :
    (mem.bytes lo len).length = len := by
  simp [Memory.bytes]

@[simp] theorem Memory.bytes_zero (mem : Memory) (lo : ℕ) : mem.bytes lo 0 = [] := rfl

/-- Bytes one after the other. -/
theorem Memory.bytes_add (mem : Memory) (lo a b : ℕ) :
    mem.bytes lo (a + b) = mem.bytes lo a ++ mem.bytes (lo + a) b := by
  simp [Memory.bytes, List.range_add, Nat.add_assoc, Function.comp_def]

/-- Bytes cut at a position between their ends. -/
theorem Memory.bytes_split (mem : Memory) {lo mid hi : ℕ} (h : lo ≤ mid) (h' : mid ≤ hi) :
    mem.bytes lo (hi - lo) = mem.bytes lo (mid - lo) ++ mem.bytes mid (hi - mid) := by
  have hlen : hi - lo = (mid - lo) + (hi - mid) := by omega
  rw [hlen, Memory.bytes_add, Nat.add_sub_cancel' h]

theorem Memory.bytes_succ (mem : Memory) (lo len : ℕ) :
    mem.bytes lo (len + 1) = mem lo :: mem.bytes (lo + 1) len := by
  rw [Nat.add_comm, Memory.bytes_add]
  rfl

/-- Bytes that are two strings one after the other. -/
theorem Memory.bytes_eq_append {mem : Memory} {lo len : ℕ} {s t : Bytes} :
    mem.bytes lo len = s ++ t ↔
      mem.bytes lo s.length = s ∧ mem.bytes (lo + s.length) t.length = t ∧
        len = s.length + t.length := by
  constructor
  · intro h
    have hlen : len = s.length + t.length := by
      rw [← List.length_append, ← h, Memory.length_bytes]
    rw [hlen, Memory.bytes_add] at h
    obtain ⟨hs, ht⟩ := List.append_inj h (Memory.length_bytes mem lo s.length)
    exact ⟨hs, ht, hlen⟩
  · rintro ⟨hs, ht, rfl⟩
    rw [Memory.bytes_add, hs, ht]

/-- Bytes that start with `b`. -/
theorem Memory.bytes_eq_cons {mem : Memory} {lo len : ℕ} {b : UInt8} {t : Bytes} :
    mem.bytes lo len = b :: t ↔
      mem lo = b ∧ mem.bytes (lo + 1) t.length = t ∧ len = t.length + 1 := by
  have h := @Memory.bytes_eq_append mem lo len [b] t
  rw [List.singleton_append] at h
  rw [h, List.length_singleton, Nat.add_comm 1]
  refine and_congr_left fun _ => ?_
  simp [Memory.bytes]

/-- The bytes of memory seen from further on. -/
theorem Memory.bytes_from (mem : Memory) (n lo len : ℕ) :
    (mem.from n).bytes lo len = mem.bytes (n + lo) len := by
  simp [Memory.bytes, Memory.from, Nat.add_assoc]

/-- A read of one byte. -/
def readByte (mem : Memory) (i : ℕ) : Traced ℕ UInt8 := ⟨[i], some (mem i)⟩

/-- A read of `len` bytes. -/
def readBytes (mem : Memory) (lo len : ℕ) : Traced ℕ Bytes :=
  ⟨List.range' lo len, some (mem.bytes lo len)⟩

/-- A read within the bounds gives the byte there. -/
theorem bounded_readByte {mem : Memory} {I : ℕ → Prop} {i : ℕ} (h : I i) :
    Traced.Bounded I (readByte mem i) (· = mem i) :=
  ⟨by simpa [readByte] using h, by simp [readByte]⟩

/-- A read within the bounds returns. -/
theorem returns_readByte {mem : Memory} {I : ℕ → Prop} {i : ℕ} (h : I i) :
    Traced.Returns I (readByte mem i) (mem i) :=
  ⟨by simpa [readByte] using h, rfl⟩

theorem bounded_readBytes {mem : Memory} {I : ℕ → Prop} {lo len : ℕ}
    (h : ∀ i, lo ≤ i → i < lo + len → I i) :
    Traced.Bounded I (readBytes mem lo len) (· = mem.bytes lo len) :=
  ⟨by simpa [readBytes, List.mem_range'_1] using h, by simp [readBytes]⟩

end BoatRudder
