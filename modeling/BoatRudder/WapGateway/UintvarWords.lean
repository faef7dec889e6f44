import BoatRudder.WapGateway.DatagramReads

/-! # Integers in machine words

`bytes_uintvar` and `read_uintvar` on an `unsigned long` of 64 bits. The reader records with every byte
the word it has so far, so that no shift of it can lose a bit unseen; and on these words it does what
the reader of the datagrams does on numbers. -/

namespace BoatRudder.WapGateway

open Traced

/-! ## The two functions -/

/-- `bytes_uintvar`. -/
def bytesUintvarWord (v : UInt64) : Bytes := go 4 (v >>> 7) [(v &&& 0x7F).toUInt8]
where
  /-- The loop, `k` bytes being left to it. -/
  go : ℕ → UInt64 → Bytes → Bytes
    | 0, _, out => out
    | k + 1, v, out => if v = 0 then out else go k (v >>> 7) ((0x80 ||| (v &&& 0x7F)).toUInt8 :: out)

/-- `(v << 7) | (c & 0x7F)`. -/
def pushGroup (v : UInt64) (c : UInt8) : UInt64 := v <<< 7 ||| (c &&& 0x7F).toUInt64

/-- The loop of `read_uintvar`, `k` bytes being left to it: the value unless it fails, and where it
stops. Every read is recorded with the value before it. -/
def readUintvarWordLoop (d : Memory) (n : ℕ) : ℕ → ℕ → UInt64 → Traced (ℕ × UInt64) (Option UInt64 × ℕ)
  | 0, pos, _ => pure (none, pos)
  | k + 1, pos, v =>
    if n ≤ pos then pure (none, pos)
    else do
      let c ← (readByte d pos).mapReads fun i => (i, v)
      if c &&& 0x80 = 0 then pure (some (pushGroup v c), pos + 1)
      else readUintvarWordLoop d n k (pos + 1) (pushGroup v c)

/-- `read_uintvar`. -/
def readUintvarWord (d : Memory) (n pos : ℕ) : Traced (ℕ × UInt64) (Option UInt64 × ℕ) :=
  readUintvarWordLoop d n 5 pos 0

/-! ## Words as numbers -/

theorem toNat_shiftRight_seven (v : UInt64) : (v >>> 7).toNat = v.toNat / 128 := by
  rw [UInt64.toNat_shiftRight]
  exact Nat.shiftRight_eq_div_pow _ 7

theorem toUInt8_low (v : UInt64) : (v &&& 0x7F).toUInt8 = UInt8.ofNat (v.toNat % 128) := by
  apply UInt8.toNat_inj.mp
  rw [UInt64.toNat_toUInt8, UInt64.toNat_and, UInt8.toNat_ofNat']
  exact congrArg (· % 256) (Nat.and_two_pow_sub_one_eq_mod v.toNat 7)

theorem toUInt8_continued (v : UInt64) :
    (0x80 ||| (v &&& 0x7F)).toUInt8 = UInt8.ofNat (128 + v.toNat % 128) := by
  have hlow : (v &&& 0x7F).toNat = v.toNat % 128 := by
    rw [UInt64.toNat_and]
    exact Nat.and_two_pow_sub_one_eq_mod v.toNat 7
  have hor : 128 ||| v.toNat % 128 = 128 + v.toNat % 128 :=
    (Nat.two_pow_add_eq_or_of_lt (i := 7) (Nat.mod_lt _ (by decide)) 1).symm
  apply UInt8.toNat_inj.mp
  rw [UInt64.toNat_toUInt8, UInt64.toNat_or, hlow, UInt8.toNat_ofNat']
  exact congrArg (· % 256) hor

theorem toNat_and_low (c : UInt8) : (c &&& 0x7F).toNat = c.toNat % 128 := by
  rw [UInt8.toNat_and]
  exact Nat.and_two_pow_sub_one_eq_mod c.toNat 7

/-- A byte has its top bit clear exactly when it is below 128. -/
theorem and_top_eq_zero (c : UInt8) : c &&& 0x80 = 0 ↔ c < 128 := by
  have h : ∀ c : Fin 256, UInt8.ofNat c &&& 0x80 = 0 ↔ UInt8.ofNat c < 128 := by decide +kernel
  have := h ⟨c.toNat, c.toNat_lt⟩
  rwa [UInt8.ofNat_toNat] at this

/-- Seven bits more, as long as the word has room for them. -/
theorem toNat_pushGroup {v : UInt64} (h : v.toNat < 2 ^ 57) (c : UInt8) :
    (pushGroup v c).toNat = v.toNat * 128 + c.toNat % 128 := by
  have hshift : (v <<< 7).toNat = 2 ^ 7 * v.toNat := by
    rw [UInt64.toNat_shiftLeft]
    change v.toNat <<< 7 % 2 ^ 64 = _
    rw [Nat.shiftLeft_eq, Nat.mod_eq_of_lt (by omega), Nat.mul_comm]
  rw [pushGroup, UInt64.toNat_or, hshift, UInt8.toNat_toUInt64, toNat_and_low,
    ← Nat.two_pow_add_eq_or_of_lt (Nat.mod_lt _ (by decide)), Nat.mul_comm]

/-! ## The writer -/

theorem bytesUintvarWord_go (k : ℕ) (v : UInt64) (out : Bytes) :
    bytesUintvarWord.go k v out = bytesUintvar.go k v.toNat out := by
  induction k generalizing v out with
  | zero => rfl
  | succ k ih =>
    rw [bytesUintvarWord.go, bytesUintvar.go, ih, toNat_shiftRight_seven, toUInt8_continued]
    refine if_congr ?_ rfl rfl
    rw [← UInt64.toNat_inj]
    rfl

theorem bytesUintvarWord_eq (v : UInt64) : bytesUintvarWord v = bytesUintvar v.toNat := by
  rw [bytesUintvarWord, bytesUintvarWord_go, toNat_shiftRight_seven, toUInt8_low, bytesUintvar]

theorem uintvarValue_append (v : ℕ) (s t : Bytes) :
    uintvarValue v (s ++ t) = uintvarValue (uintvarValue v s) t :=
  List.foldl_append

/-- The loop of `bytes_uintvar` puts the groups of the value before what is there. -/
theorem bytesUintvar_go (k v : ℕ) (out : Bytes) (h : v < 128 ^ k) :
    ∃ more, bytesUintvar.go k v out = more ++ out ∧ more.length ≤ k ∧ (∀ b ∈ more, 128 ≤ b) ∧
      uintvarValue 0 more = v := by
  induction k generalizing v out with
  | zero =>
    have hv : v = 0 := by simpa using h
    exact ⟨[], rfl, le_rfl, by simp, hv.symm⟩
  | succ k ih =>
    by_cases hv : v = 0
    · exact ⟨[], by simp [bytesUintvar.go, hv], by simp, by simp, by simp [uintvarValue, hv]⟩
    · have hk : v / 128 < 128 ^ k := by
        rw [Nat.div_lt_iff_lt_mul (by decide)]
        rwa [pow_succ] at h
      obtain ⟨more, hgo, hlen, hall, hval⟩ := ih (v / 128) (UInt8.ofNat (128 + v % 128) :: out) hk
      have hbyte : (UInt8.ofNat (128 + v % 128)).toNat = 128 + v % 128 := by
        rw [UInt8.toNat_ofNat']
        omega
      refine ⟨more ++ [UInt8.ofNat (128 + v % 128)], ?_, by simpa using hlen, ?_, ?_⟩
      · rw [bytesUintvar.go, if_neg hv, hgo, List.append_assoc, List.singleton_append]
      · intro b hb
        rcases List.mem_append.mp hb with hb | hb
        · exact hall b hb
        · rw [List.mem_singleton.mp hb, UInt8.le_iff_toNat_le, hbyte]
          exact Nat.le_add_right 128 _
      · rw [uintvarValue_append, hval]
        change v / 128 * 128 + (UInt8.ofNat (128 + v % 128)).toNat % 128 = v
        rw [hbyte]
        omega

/-- What `bytes_uintvar` writes for a value of five groups is an integer of that value. -/
theorem isUintvar_bytesUintvar {v : ℕ} (h : v < 128 ^ 5) : IsUintvar (bytesUintvar v) v := by
  have hk : v / 128 < 128 ^ 4 := by omega
  obtain ⟨more, hgo, hlen, hall, hval⟩ := bytesUintvar_go 4 (v / 128) [UInt8.ofNat (v % 128)] hk
  have hbyte : (UInt8.ofNat (v % 128)).toNat = v % 128 := by
    rw [UInt8.toNat_ofNat']
    omega
  refine ⟨more, UInt8.ofNat (v % 128), hgo, Nat.lt_succ_of_le hlen, hall, ?_, ?_⟩
  · rw [UInt8.lt_iff_toNat_lt, hbyte]
    exact Nat.mod_lt _ (by decide)
  · rw [bytesUintvar, hgo, uintvarValue_append, hval]
    change v / 128 * 128 + (UInt8.ofNat (v % 128)).toNat % 128 = v
    rw [hbyte]
    omega

/-! ## The reader -/

variable {d : Memory} {n pos : ℕ}

/-- A run that starts with the read of a byte. -/
theorem mapReads_readByte_bind {α ι : Type} (g : ℕ → ι) (f : UInt8 → Traced ι α) :
    ((readByte d pos).mapReads g >>= f) = ⟨g pos :: (f (d pos)).reads, (f (d pos)).result⟩ := rfl

theorem readByte_bind {α : Type} (f : UInt8 → Traced ℕ α) :
    (readByte d pos >>= f) = ⟨pos :: (f (d pos)).reads, (f (d pos)).result⟩ := rfl

theorem reads_bind_pure {α β : Type} (p : Traced ℕ α) (f : α → β) :
    (do let a ← p; pure (f a)).reads = p.reads := by
  change (p.bind fun a => pure (f a)).reads = _
  unfold Traced.bind
  cases p.result <;> simp

theorem result_bind_pure {α β : Type} (p : Traced ℕ α) (f : α → β) :
    (do let a ← p; pure (f a)).result = p.result.map f := by
  change (p.bind fun a => pure (f a)).result = _
  unfold Traced.bind
  cases p.result <;> rfl

/-- What the two readers have in common: the bytes read, the value and the end. -/
structure SameReading (word : Traced (ℕ × UInt64) (Option UInt64 × ℕ)) (read : Traced ℕ (ℕ × After pos n)) :
    Prop where
  reads : word.reads.map Prod.fst = read.reads
  result : ∃ r p, word.result = some (r, p) ∧
    read.result.map (fun q => (q.1, q.2.1)) = r.map fun w => (w.toNat, p)

/-- The loop on words does what that on numbers does. -/
theorem sameReading_loop (k : ℕ) (v : UInt64) (hk : k ≤ 5) (h : v.toNat < 128 ^ (5 - k)) :
    SameReading (readUintvarWordLoop d n k pos v) (readUintvarLoop d n k pos v.toNat) := by
  induction k generalizing pos v with
  | zero => exact ⟨rfl, none, pos, rfl, rfl⟩
  | succ k ih =>
    rw [readUintvarWordLoop, readUintvarLoop]
    by_cases hn : n ≤ pos
    · rw [if_pos hn, dif_pos hn]
      exact ⟨rfl, none, pos, rfl, rfl⟩
    · rw [if_neg hn, dif_neg hn, mapReads_readByte_bind, readByte_bind]
      have hroom : 128 ^ (5 - (k + 1)) ≤ 128 ^ 4 := Nat.pow_le_pow_right (by decide) (by omega)
      have hpush := toNat_pushGroup (v := v) (by omega) (d pos)
      by_cases hlast : d pos < 128
      · have htop := (and_top_eq_zero (d pos)).mpr hlast
        rw [if_pos htop, if_pos hlast]
        refine ⟨rfl, some (pushGroup v (d pos)), pos + 1, rfl, ?_⟩
        rw [Option.map_some, hpush, toNat_mod_of_lt hlast]
        rfl
      · have htop : ¬ d pos &&& 0x80 = 0 := fun h => hlast ((and_top_eq_zero (d pos)).mp h)
        rw [if_neg htop, if_neg hlast]
        have hnext : (pushGroup v (d pos)).toNat < 128 ^ (5 - k) := by
          have hlen : 5 - k = (5 - (k + 1)) + 1 := by omega
          rw [hpush, hlen, pow_succ]
          omega
        obtain ⟨hreads, r, p, hresult, hvalue⟩ := @ih (pos + 1) _ (by omega) hnext
        rw [hpush] at hreads hvalue
        refine ⟨?_, r, p, hresult, ?_⟩
        · rw [reads_bind_pure, List.map_cons, hreads]
        · rw [result_bind_pure, ← hvalue, Option.map_map]
          rfl

/-- The word of every read, and where it is, keep to the bounds of the format. -/
theorem bounded_readUintvarWordLoop (k : ℕ) (v : UInt64) (hk : k ≤ 5) (h : v.toNat < 128 ^ (5 - k)) :
    Bounded (fun i => pos ≤ i.1 ∧ i.1 < n ∧ i.1 < pos + k ∧
        (pushGroup i.2 (d i.1)).toNat = i.2.toNat * 128 + (d i.1).toNat % 128)
      (readUintvarWordLoop d n k pos v) fun r => pos ≤ r.2 ∧ r.2 ≤ max pos n ∧ r.2 ≤ pos + k := by
  induction k generalizing pos v with
  | zero => exact bounded_pure (by simp)
  | succ k ih =>
    rw [readUintvarWordLoop]
    by_cases hn : n ≤ pos
    · rw [if_pos hn]
      exact bounded_pure (by simp)
    · rw [if_neg hn]
      have hroom : 128 ^ (5 - (k + 1)) ≤ 128 ^ 4 := Nat.pow_le_pow_right (by decide) (by omega)
      have hpush := toNat_pushGroup (v := v) (by omega) (d pos)
      refine ((@bounded_readByte d (· = pos) pos rfl).mapReads ?_).bind ?_
      · rintro i rfl
        exact ⟨le_rfl, Nat.lt_of_not_le hn, by omega, hpush⟩
      · rintro c rfl
        by_cases htop : d pos &&& 0x80 = 0
        · rw [if_pos htop]
          exact bounded_pure (by simp; omega)
        · rw [if_neg htop]
          have hnext : (pushGroup v (d pos)).toNat < 128 ^ (5 - k) := by
            have hlen : 5 - k = (5 - (k + 1)) + 1 := by omega
            rw [hpush, hlen, pow_succ]
            omega
          refine (@ih (pos + 1) _ (by omega) hnext).mono ?_ ?_
          · rintro i ⟨hlo, hi, hhi, hexact⟩
            exact ⟨by omega, hi, by omega, hexact⟩
          · rintro r ⟨hlo, hmax, hhi⟩
            refine ⟨by omega, ?_, by omega⟩
            have hmaxeq : max (pos + 1) n = max pos n := by omega
            exact hmaxeq ▸ hmax

/-! ## Reading what was written -/

/-- What `read_uintvar` keeps to, whatever the bytes are: it stops within the `n` bytes and after five
of them at most, loses no bit of its word, and reads what the gateway's reader does. -/
structure UintvarKept (d : Memory) (n pos : ℕ) : Prop where
  reads : ∀ i ∈ (readUintvarWord d n pos).reads, pos ≤ i.1 ∧ i.1 < n ∧ i.1 < pos + 5 ∧
    (pushGroup i.2 (d i.1)).toNat = i.2.toNat * 128 + (d i.1).toNat % 128
  stops : ∃ r p, (readUintvarWord d n pos).result = some (r, p) ∧ pos ≤ p ∧ p ≤ max pos n ∧ p ≤ pos + 5 ∧
    ∀ w, r = some w → IsUintvar (d.bytes pos (p - pos)) w.toNat
  same : SameReading (readUintvarWord d n pos) (readUintvar d n pos)

theorem uintvarKept (d : Memory) (n pos : ℕ) : UintvarKept d n pos := by
  have hbounded := @bounded_readUintvarWordLoop d n pos 5 0 le_rfl (by decide)
  have hsame := @sameReading_loop d n pos 5 0 le_rfl (by decide)
  refine ⟨hbounded.1, ?_, hsame⟩
  obtain ⟨r, p, hresult, hvalue⟩ := hsame.result
  obtain ⟨hlo, hmax, hhi⟩ := hbounded.2 _ hresult
  refine ⟨r, p, hresult, hlo, hmax, hhi, ?_⟩
  rintro w rfl
  obtain ⟨q, hq, hqw⟩ := Option.map_eq_some_iff.mp hvalue
  obtain ⟨hw, hp⟩ := Prod.mk.inj hqw
  have hbytes := @bytes_of_readUintvar d n pos _ hq
  rwa [hw, hp] at hbytes

/-- The bytes of an integer are read wherever they stand. -/
theorem readUintvarWord_of_bytes {v : UInt32} {before suffix s : Bytes}
    (hs : s = before ++ bytesUintvarWord v.toUInt64 ++ suffix) (hbytes : d.bytes 0 s.length = s) :
    (readUintvarWord d s.length before.length).result =
      some (some v.toUInt64, before.length + (bytesUintvarWord v.toUInt64).length) := by
  have hwritten : IsUintvar (bytesUintvarWord v.toUInt64) v.toUInt64.toNat := by
    rw [bytesUintvarWord_eq]
    apply isUintvar_bytesUintvar
    rw [UInt32.toNat_toUInt64]
    exact v.toNat_lt.trans (by decide)
  have hlen : s.length = (before ++ bytesUintvarWord v.toUInt64).length + suffix.length := by
    rw [hs, List.length_append]
  have hat : d.bytes before.length (bytesUintvarWord v.toUInt64).length =
      bytesUintvarWord v.toUInt64 := by
    have hsplit := Memory.bytes_eq_append.mp (hbytes.trans hs)
    have hfront := Memory.bytes_eq_append.mp hsplit.1
    simpa using hfront.2.1
  obtain ⟨q, hq, hend⟩ := readUintvar_of_bytes hwritten hat (n := s.length) (by
    rw [hlen, List.length_append]
    exact Nat.le_add_right _ _)
  -- the reader on words ends with the same value and position
  obtain ⟨r, p, hresult, hvalue⟩ := (uintvarKept d s.length before.length).same.result
  rw [hq] at hvalue
  obtain ⟨w, rfl, hw⟩ := Option.map_eq_some_iff.mp hvalue.symm
  obtain ⟨hw, hp⟩ := Prod.mk.inj hw
  rw [hresult, hp, hend, UInt64.toNat_inj.mp hw]

/-- **Integers are read as they were written**, whatever comes before and behind them; and of any bytes
at all the reader takes five at most, none beyond the end, and no value of its word wraps. -/
theorem uintvar_read_as_written :
    (∀ (v : UInt32) (before suffix s : Bytes) (d : Memory),
      s = before ++ bytesUintvarWord v.toUInt64 ++ suffix → d.bytes 0 s.length = s →
        (readUintvarWord d s.length before.length).result =
          some (some v.toUInt64, before.length + (bytesUintvarWord v.toUInt64).length)) ∧
      ∀ d n pos, UintvarKept d n pos :=
  ⟨fun _ _ _ _ _ hs hbytes => readUintvarWord_of_bytes hs hbytes, uintvarKept⟩

theorem uintvar_read_as_written_largest :
    (readUintvarWord (Memory.ofBytes [7, 0x8F, 0xFF, 0xFF, 0xFF, 0x7F, 9]) 7 1).result =
      some (some 0xFFFFFFFF, 6) :=
  uintvar_read_as_written.1 0xFFFFFFFF [7] [9] [7, 0x8F, 0xFF, 0xFF, 0xFF, 0x7F, 9]
    (Memory.ofBytes [7, 0x8F, 0xFF, 0xFF, 0xFF, 0x7F, 9]) (by decide) (by decide)

end BoatRudder.WapGateway
