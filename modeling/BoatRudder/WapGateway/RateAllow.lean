import BoatRudder.Runs.Machine
import BoatRudder.Runs.SlotTable

/-! # The rate limit of the gateway

`rate_allow` of `wap_gateway.c`: a table of 256 addresses, each with the start of its counting window
and the number of its requests in it. -/

namespace BoatRudder.WapGateway

open Slot SlotTable

/-- `RATE_TABLE_SIZE`. -/
def rateTableSize : ℕ := 256

/-- `RATE_WINDOW_SEC`. -/
def rateWindowSec : ℤ := 60

/-- `RateEntry`, a slot of `rate_table`. -/
structure RateEntry where
  /-- The address, 0 in a free slot. -/
  ip : UInt32 := 0
  /-- When the counting window began, 0 in a free slot. -/
  windowStart : ℤ := 0
  /-- The requests of the window. -/
  count : ℤ := 0
  /-- Whether the first drop of the window was logged. -/
  warned : Bool := false
  deriving DecidableEq

/-- A slot holds its address once a window began, and is evicted by the start of the window. -/
instance : Slot RateEntry UInt32 ℤ where
  key e := if e.windowStart = 0 then none else some e.ip
  stamp e := e.windowStart

@[simp] theorem RateEntry.key_eq_some {e : RateEntry} {ip : UInt32} :
    Slot.key e = some ip ↔ e.windowStart ≠ 0 ∧ e.ip = ip := by
  simp [Slot.key]

@[simp] theorem RateEntry.key_eq_none {e : RateEntry} :
    Slot.key e = none ↔ e.windowStart = 0 := by
  simp [Slot.key]

@[simp] theorem RateEntry.stamp_eq (e : RateEntry) : stamp e = e.windowStart := rfl

/-- The entry of an address whose window begins. -/
def RateEntry.fresh (ip : UInt32) (now : ℤ) : RateEntry := { ip := ip, windowStart := now }

/-- An entry that was found: a window of a minute is over. -/
def RateEntry.renew (now : ℤ) (e : RateEntry) : RateEntry :=
  if rateWindowSec ≤ now - e.windowStart then
    { e with windowStart := now, count := 0, warned := false }
  else e

/-- The count, and the answer. -/
def RateEntry.grant (limit : ℤ) (e : RateEntry) : RateEntry × Bool :=
  if e.count + 1 ≤ limit then ({ e with count := e.count + 1 }, true)
  else ({ e with count := e.count + 1, warned := true }, false)

/-- `rate_allow`: the table after a request of an address, and whether it is allowed. The victim the
search keeps is used only where the search ran through the whole table. -/
def rateAllow (limit now : ℤ) (ip : UInt32) (table : List RateEntry) : List RateEntry × Bool :=
  if limit ≤ 0 then (table, true)
  else
    match table.findIdx? fun e => e.ip == ip with
    | some i =>
      let r := ((table.getD i {}).renew now).grant limit
      (table.set i r.1, r.2)
    | none =>
      let r := (RateEntry.fresh ip now).grant limit
      (table.set (oldestIdx table) r.1, r.2)

/-! ## Runs of the gateway -/

/-- A call of `rate_allow`. -/
structure RateCall where
  /-- The source address. -/
  ip : UInt32
  /-- The time. -/
  time : ℤ
  deriving DecidableEq

/-- The table as a machine; a call is answered by whether it is allowed. -/
def rateTable (limit : ℤ) : Machine (List RateEntry) RateCall Bool where
  init := List.replicate rateTableSize {}
  step table c := rateAllow limit c.time c.ip table

@[simp] theorem step_rateTable (limit : ℤ) (table : List RateEntry) (c : RateCall) :
    (rateTable limit).step table c = rateAllow limit c.time c.ip table := rfl

/-- The clock never goes back. -/
def ClockRun (run : List RateCall) : Prop := run.Pairwise fun a b => a.time ≤ b.time

/-- The other addresses that call in a run at a time from `t` on. -/
def otherSources (ip : UInt32) (t : ℤ) (run : List RateCall) : Finset UInt32 :=
  ((run.filter fun c => c.ip ≠ ip ∧ t ≤ c.time).map RateCall.ip).toFinset

@[simp] theorem mem_otherSources {ip ip' : UInt32} {t : ℤ} {run : List RateCall} :
    ip' ∈ otherSources ip t run ↔ ip' ≠ ip ∧ ∃ time, t ≤ time ∧ ⟨ip', time⟩ ∈ run := by
  rw [otherSources, List.mem_toFinset, List.mem_map]
  constructor
  · rintro ⟨c, hc, rfl⟩
    obtain ⟨hmem, h⟩ := List.mem_filter.mp hc
    obtain ⟨hne, hle⟩ := of_decide_eq_true h
    exact ⟨hne, c.time, hle, hmem⟩
  · rintro ⟨hne, time, hle, hmem⟩
    exact ⟨_, List.mem_filter.mpr ⟨hmem, by simp [hne, hle]⟩, rfl⟩

/-- The calls of an address in a run. -/
def callsOf (ip : UInt32) (run : List RateCall) : ℕ := (run.filter fun c => c.ip = ip).length

/-- The answers to the calls of an address in a trace. -/
def answersTo (ip : UInt32) (trace : List (RateCall × Bool)) : List Bool :=
  (trace.filter fun p => p.1.ip = ip).map Prod.snd

/-- A call begins a counting window: the address has none that is still running. -/
def OpensWindow (table : List RateEntry) (c : RateCall) : Prop :=
  ∀ e ∈ table, key e = some c.ip → rateWindowSec ≤ c.time - e.windowStart

/-- The answers of a limit to `n` calls: as many are allowed as the limit says, the others not. -/
def firstAllowed (limit n : ℕ) : List Bool :=
  List.replicate (min n limit) true ++ List.replicate (n - limit) false

/-- The calls of an address that were allowed at a time from `t` on. -/
def allowedSince (ip : UInt32) (t : ℤ) (trace : List (RateCall × Bool)) : ℕ :=
  (trace.filter fun p => p.1.ip = ip ∧ t ≤ p.1.time ∧ p.2 = true).length

/-! ## Runs of the gateway against its rate limit

What one call of `rate_allow` can do to the table (`rateAllow_cases`), the invariant of the table
over whole runs (`RateInv`), and what the limit guarantees: **`rateAllow_limits`**. -/

/-! ## The answers of a limit -/

variable {ip : UInt32} {now : ℤ}

/-- One more call is allowed while there were fewer than the limit. -/
theorem firstAllowed_succ (limit n : ℕ) :
    firstAllowed limit (n + 1) = firstAllowed limit n ++ [decide (n < limit)] := by
  unfold firstAllowed
  by_cases h : n < limit
  · rw [Nat.min_eq_left h, Nat.min_eq_left (by omega), Nat.sub_eq_zero_of_le h,
      Nat.sub_eq_zero_of_le (by omega)]
    simp [h, List.replicate_succ']
  · rw [Nat.min_eq_right (by omega), Nat.min_eq_right (by omega), Nat.sub_add_comm (by omega)]
    simp [h, List.replicate_succ']

@[simp] theorem answersTo_nil (ip : UInt32) : answersTo ip [] = [] := rfl

/-- The answers to a source, part by part. -/
theorem answersTo_append (ip : UInt32) (tr more : List (RateCall × Bool)) :
    answersTo ip (tr ++ more) = answersTo ip tr ++ answersTo ip more := by
  simp [answersTo]

theorem answersTo_cons_self (c : RateCall) (ans : Bool) (tr : List (RateCall × Bool)) :
    answersTo c.ip ((c, ans) :: tr) = ans :: answersTo c.ip tr := by
  simp [answersTo]

/-- The allowed calls, part by part. -/
theorem allowedSince_append (ip : UInt32) (t : ℤ) (tr more : List (RateCall × Bool)) :
    allowedSince ip t (tr ++ more) = allowedSince ip t tr + allowedSince ip t more := by
  simp [allowedSince]

theorem allowedSince_singleton (ip : UInt32) (t : ℤ) (p : RateCall × Bool) :
    allowedSince ip t [p] = if p.1.ip = ip ∧ t ≤ p.1.time ∧ p.2 = true then 1 else 0 := by
  unfold allowedSince
  by_cases h : p.1.ip = ip ∧ t ≤ p.1.time ∧ p.2 = true
  · simp [h]
  · rw [List.filter_cons_of_neg (by simpa using h), if_neg h]
    rfl

/-! ## What one call can do -/

variable {limit : ℤ}

@[simp] theorem RateEntry.ip_renew (now : ℤ) (e : RateEntry) : (e.renew now).ip = e.ip := by
  unfold renew
  split_ifs <;> rfl

@[simp] theorem RateEntry.ip_grant (e : RateEntry) : (e.grant limit).1.ip = e.ip := by
  unfold grant
  split_ifs <;> rfl

@[simp] theorem RateEntry.windowStart_grant (e : RateEntry) :
    (e.grant limit).1.windowStart = e.windowStart := by
  unfold grant
  split_ifs <;> rfl

@[simp] theorem RateEntry.count_grant (e : RateEntry) :
    (e.grant limit).1.count = e.count + 1 := by
  unfold grant
  split_ifs <;> rfl

theorem RateEntry.allowed_grant (e : RateEntry) :
    (e.grant limit).2 = decide (e.count + 1 ≤ limit) := by
  unfold grant
  split_ifs with h <;> simp [h]

/-- The window of an entry goes on, or a new one begins. -/
theorem RateEntry.renew_cases (now : ℤ) (e : RateEntry) :
    (now - e.windowStart < rateWindowSec ∧ e.renew now = e) ∨
      (rateWindowSec ≤ now - e.windowStart ∧ (e.renew now).windowStart = now ∧
        (e.renew now).count = 0) := by
  unfold renew
  by_cases h : rateWindowSec ≤ now - e.windowStart
  · exact Or.inr ⟨h, by simp [h], by simp [h]⟩
  · exact Or.inl ⟨by omega, if_neg h⟩

/-! ## The invariant of the table -/

/-- What holds of the table after every run. -/
structure RateInv (run : List RateCall) (table : List RateEntry) : Prop where
  /-- The table keeps its slots. -/
  length_eq : table.length = rateTableSize
  /-- No address has two counting windows. -/
  distinct : Distinct table
  /-- An address called when its window began. -/
  seen : ∀ e ∈ table, e.windowStart ≠ 0 → ⟨e.ip, e.windowStart⟩ ∈ run
  /-- No window began before the epoch. -/
  nonneg : ∀ e ∈ table, 0 ≤ e.windowStart
  /-- A slot is free as it was at the start. -/
  free : ∀ e ∈ table, e.windowStart = 0 → e = {}
  /-- The free slots are the last ones. -/
  freeLast : table.Pairwise fun a b => a.windowStart = 0 → b.windowStart = 0

variable {run : List RateCall} {table : List RateEntry}

theorem RateInv.ne_nil (h : RateInv run table) : table ≠ [] := by
  apply List.ne_nil_of_length_pos
  rw [h.length_eq]
  decide

/-- The invariant holds of the empty table. -/
theorem rateInv_init : RateInv [] (rateTable limit).init where
  length_eq := List.length_replicate
  distinct := distinct_replicate rfl _
  seen := by
    intro e he hlive
    obtain rfl := List.eq_of_mem_replicate he
    exact absurd rfl hlive
  nonneg := by
    intro e he
    obtain rfl := List.eq_of_mem_replicate he
    exact le_rfl
  free := fun e he _ => List.eq_of_mem_replicate he
  freeLast := List.pairwise_replicate.mpr (Or.inr fun h => h)

/-- **What a call can do to the table.** The window of the address goes on or begins again; or the
address has none, and takes a free slot, or, when there is none, the slot of one of the windows that
began first. -/
theorem rateAllow_cases (hlimit : 0 < limit)
    (h : RateInv run table) (hnow : rateWindowSec ≤ now) (ip : UInt32) :
    (∃ (i : ℕ) (hi : i < table.length), key table[i] = some ip ∧ rateAllow limit now ip table =
        (table.set i ((table[i].renew now).grant limit).1, ((table[i].renew now).grant limit).2)) ∨
    ((∀ e ∈ table, key e ≠ some ip) ∧ ∃ (i : ℕ) (hi : i < table.length),
      rateAllow limit now ip table = (table.set i ((RateEntry.fresh ip now).grant limit).1,
          ((RateEntry.fresh ip now).grant limit).2) ∧ (∀ j (hj : j < i), table[j].windowStart ≠ 0) ∧
      (key table[i] = none ∨
        (∀ e ∈ table, key e ≠ none) ∧ ∀ e ∈ table, stamp table[i] ≤ stamp e)) := by
  unfold rateAllow
  rw [if_neg (by omega)]
  cases hfind : table.findIdx? fun e => e.ip == ip with
  | some i =>
    obtain ⟨hi, hip, hfirst⟩ := List.findIdx?_eq_some_iff_getElem.mp hfind
    have hip : table[i].ip = ip := by simpa using hip
    by_cases hlive : table[i].windowStart = 0
    · -- the address 0 finds the first free slot
      right
      have hfree := h.free _ (List.getElem_mem hi) hlive
      have hzero : ip = 0 := by rw [← hip, hfree]
      refine ⟨fun e he hk => ?_, i, hi, ?_, fun j hj hj0 => ?_, Or.inl (by simpa using hlive)⟩
      · obtain ⟨j, hj, rfl⟩ := List.getElem_of_mem he
        obtain ⟨hlive', hip'⟩ := RateEntry.key_eq_some.mp hk
        rcases Nat.lt_trichotomy j i with hlt | heq | hgt
        · exact absurd (by simpa using hip') (hfirst j hlt)
        · subst heq
          exact hlive' hlive
        · exact hlive' (List.pairwise_iff_getElem.mp h.freeLast i j hi hj hgt hlive)
      · have hrenew : table[i].renew now = RateEntry.fresh ip now := by
          rw [hfree, hzero, RateEntry.renew, if_pos (by simpa using hnow)]
          rfl
        simp [List.getD_eq_getElem?_getD, hi, hrenew]
      · have hj' := h.free _ (List.getElem_mem (by omega)) hj0
        exact hfirst j hj (by rw [hj', hzero]; rfl)
    · left
      exact ⟨i, hi, RateEntry.key_eq_some.mpr ⟨hlive, hip⟩,
        by simp [List.getD_eq_getElem?_getD, hi]⟩
  | none =>
    right
    have hnew : ∀ e ∈ table, e.ip ≠ ip := by
      intro e he hip
      have := List.findIdx?_eq_none_iff.mp hfind e he
      simp [hip] at this
    obtain ⟨hi, hmin, hfirst⟩ := isOldest_oldestIdx h.ne_nil
    refine ⟨fun e he hk => hnew e he (RateEntry.key_eq_some.mp hk).2, oldestIdx table, hi, rfl,
      fun j hj hj0 => ?_, ?_⟩
    · have hlt := hfirst j hj
      rw [RateEntry.stamp_eq, RateEntry.stamp_eq, hj0] at hlt
      exact absurd (h.nonneg _ (List.getElem_mem hi)) (not_le.mpr hlt)
    · by_cases hlive : table[oldestIdx table].windowStart = 0
      · exact Or.inl (by simpa using hlive)
      · refine Or.inr ⟨fun e he hk => ?_, hmin⟩
        have hle := hmin e he
        rw [RateEntry.stamp_eq, RateEntry.stamp_eq, RateEntry.key_eq_none.mp hk] at hle
        have hpos := h.nonneg _ (List.getElem_mem hi)
        omega

/-- What a call writes to the table: an entry of the address, its window begun by a call. -/
theorem RateInv.exists_set (hlimit : 0 < limit)
    (h : RateInv run table) (hnow : rateWindowSec ≤ now) (ip : UInt32) :
    ∃ (i : ℕ) (e : RateEntry), (rateAllow limit now ip table).1 = table.set i e ∧
      key e = some ip ∧ 0 ≤ e.windowStart ∧ ⟨ip, e.windowStart⟩ ∈ run ++ [⟨ip, now⟩] ∧
      Distinct (table.set i e) ∧ ∀ j (hi : i < table.length) (hj : j < i),
        table[j].windowStart ≠ 0 := by
  have hpos : 0 < now := lt_of_lt_of_le (by decide) hnow
  obtain ⟨i, hi, hkey, heq⟩ | ⟨hnew, i, hi, heq, hbefore, -⟩ := rateAllow_cases hlimit h hnow ip
  · obtain ⟨hlive, hip⟩ := RateEntry.key_eq_some.mp hkey
    have hstart : 0 ≤ (table[i].renew now).windowStart ∧ (table[i].renew now).windowStart ≠ 0 ∧
        ⟨ip, (table[i].renew now).windowStart⟩ ∈ run ++ [⟨ip, now⟩] := by
      obtain ⟨-, hsame⟩ | ⟨-, hws, -⟩ := table[i].renew_cases now
      · rw [hsame]
        have hseen := h.seen _ (List.getElem_mem hi) hlive
        rw [hip] at hseen
        exact ⟨h.nonneg _ (List.getElem_mem hi), hlive, List.mem_append_left _ hseen⟩
      · rw [hws]
        exact ⟨le_of_lt hpos, ne_of_gt hpos, by simp⟩
    have hkey' : key ((table[i].renew now).grant limit).1 = some ip := by
      simp [hip, hstart.2.1]
    refine ⟨i, _, by rw [heq], hkey', by simpa using hstart.1, by simpa using hstart.2.2,
      h.distinct.set_same hi (hkey'.trans hkey.symm), fun j _ hj hj0 => ?_⟩
    exact hlive (List.pairwise_iff_getElem.mp h.freeLast j i (by omega) hi hj hj0)
  · have hkey' : key ((RateEntry.fresh ip now).grant limit).1 = some ip := by
      simp [RateEntry.fresh, ne_of_gt hpos]
    exact ⟨i, _, by rw [heq], hkey', by simpa [RateEntry.fresh] using le_of_lt hpos,
      by simp [RateEntry.fresh], h.distinct.set_new i hkey' hnew, fun j _ hj => hbefore j hj⟩

variable {c : RateCall}

/-- A call keeps the invariant. -/
theorem RateInv.step (hlimit : 0 < limit) (h : RateInv run table) (hnow : rateWindowSec ≤ c.time) :
    RateInv (run ++ [c]) ((rateTable limit).step table c).1 := by
  obtain ⟨i, e, heq, hkey, hnonneg, hseen, hdistinct, hbefore⟩ := h.exists_set hlimit hnow c.ip
  obtain ⟨hlive, hip⟩ := RateEntry.key_eq_some.mp hkey
  show RateInv (run ++ [c]) (rateAllow limit c.time c.ip table).1
  rw [heq]
  constructor
  · simpa using h.length_eq
  · exact hdistinct
  · intro e' he' hlive'
    rcases List.mem_or_eq_of_mem_set he' with he' | rfl
    · exact List.mem_append_left _ (h.seen e' he' hlive')
    · rw [hip]
      exact hseen
  · intro e' he'
    rcases List.mem_or_eq_of_mem_set he' with he' | rfl
    · exact h.nonneg e' he'
    · exact hnonneg
  · intro e' he' hfree
    rcases List.mem_or_eq_of_mem_set he' with he' | rfl
    · exact h.free e' he' hfree
    · exact absurd hfree hlive
  · rw [List.pairwise_iff_getElem]
    intro a b ha hb hab
    rw [List.length_set] at ha hb
    rw [List.getElem_set, List.getElem_set]
    by_cases hia : i = a
    · rw [if_pos hia]
      exact fun h0 => absurd h0 hlive
    · rw [if_neg hia]
      by_cases hib : i = b
      · subst hib
        exact fun h0 => absurd h0 (hbefore a hb hab)
      · rw [if_neg hib]
        exact List.pairwise_iff_getElem.mp h.freeLast a b ha hb hab

/-- **The invariant holds after every run.** -/
theorem rateInv_after (hlimit : 0 < limit)
    (htimes : ∀ c ∈ run, rateWindowSec ≤ c.time) : RateInv run ((rateTable limit).after run) := by
  induction run using List.reverseRecOn with
  | nil => exact rateInv_init
  | append_singleton run c ih =>
    rw [Machine.after_concat]
    exact (ih fun c hc => htimes c (by simp [hc])).step hlimit (htimes c (by simp))

/-! ## The calls of a window -/

/-- A window of an address that began at `t` and has had `n` calls. -/
def InWindow (ip : UInt32) (t n : ℤ) (table : List RateEntry) : Prop :=
  ∃ e ∈ table, key e = some ip ∧ e.windowStart = t ∧ e.count = n

/-- The call that begins a window is allowed. -/
theorem RateInv.opens (hlimit : 0 < limit) (h : RateInv run table) (hnow : rateWindowSec ≤ c.time)
    (hopens : OpensWindow table c) : InWindow c.ip c.time 1 (rateAllow limit c.time c.ip table).1 ∧
      (rateAllow limit c.time c.ip table).2 = true := by
  have hpos : c.time ≠ 0 := ne_of_gt (lt_of_lt_of_le (by decide) hnow)
  have hone : 1 ≤ limit := hlimit
  obtain ⟨i, hi, hkey, heq⟩ | ⟨-, i, hi, heq, -⟩ := rateAllow_cases hlimit h hnow c.ip
  · have hover := hopens _ (List.getElem_mem hi) hkey
    obtain ⟨hrunning, -⟩ | ⟨-, hws, hcount⟩ := table[i].renew_cases c.time
    · omega
    · rw [heq]
      refine ⟨⟨_, List.mem_set hi _, ?_, by simpa using hws, by simp [hcount]⟩, ?_⟩
      · simp [hws, hpos, (RateEntry.key_eq_some.mp hkey).2]
      · simpa [RateEntry.allowed_grant, hcount] using hone
  · rw [heq]
    refine ⟨⟨_, List.mem_set hi _, ?_, by simp [RateEntry.fresh], by simp [RateEntry.fresh]⟩, ?_⟩
    · simp [RateEntry.fresh, hpos]
    · simpa [RateEntry.allowed_grant, RateEntry.fresh] using hone

/-- A call within the window is counted, and allowed while there were fewer than the limit. -/
theorem InWindow.call (hlimit : 0 < limit)
    (h : RateInv run table) {t n : ℤ} (hw : InWindow ip t n table)
    (hnow : rateWindowSec ≤ now) (hin : now < t + rateWindowSec) :
    InWindow ip t (n + 1) (rateAllow limit now ip table).1 ∧
      (rateAllow limit now ip table).2 = decide (n + 1 ≤ limit) := by
  obtain ⟨e, he, hkey, rfl, rfl⟩ := hw
  obtain ⟨i, hi, hkey', heq⟩ | ⟨hnew, -⟩ := rateAllow_cases hlimit h hnow ip
  · obtain ⟨j, hj, rfl⟩ := List.getElem_of_mem he
    obtain rfl := h.distinct.eq_of_key hkey' hkey
    obtain ⟨-, hsame⟩ | ⟨hover, -⟩ := table[i].renew_cases now
    · rw [hsame] at heq
      rw [heq]
      refine ⟨⟨_, List.mem_set hi _, ?_, by simp, by simp⟩, RateEntry.allowed_grant _⟩
      simpa using hkey
    · omega
  · exact absurd hkey (hnew e he)

/-- A call of another address leaves the window, unless it is of one other address too many. -/
theorem InWindow.other (hlimit : 0 < limit)
    (h : RateInv run table) {ip' : UInt32} {t n : ℤ} (hw : InWindow ip t n table)
    (hne : ip' ≠ ip) (hnow : rateWindowSec ≤ now) (ht : t ≤ now)
    (hothers : (otherSources ip t (run ++ [⟨ip', now⟩])).card < rateTableSize) :
    InWindow ip t n (rateAllow limit now ip' table).1 := by
  obtain ⟨e, he, hkey, hws, hcount⟩ := hw
  refine ⟨e, ?_, hkey, hws, hcount⟩
  obtain ⟨i, hi, hkey', heq⟩ | ⟨hnew, i, hi, heq, -, hslot⟩ := rateAllow_cases hlimit h hnow ip'
  · rw [heq]
    refine mem_set_of_ne he fun _ hie => hne ?_
    rw [hie, hkey] at hkey'
    exact (Option.some.inj hkey').symm
  · rw [heq]
    refine mem_set_of_ne he fun _ hie => ?_
    have hik : key table[i] = some ip := by rw [hie, hkey]
    obtain hfree | ⟨hfull, hmin⟩ := hslot
    · rw [hfree] at hik
      cases hik
    · -- every other slot holds another address that called in the window
      have hcard : table.length ≤ (otherSources ip t (run ++ [⟨ip', now⟩])).card := by
        refine length_le_card_of_evict (i := i)
          (x := ((RateEntry.fresh ip' now).grant limit).1) (k := ip') h.distinct
          ?_ hnew (mem_otherSources.mpr ⟨hne, now, ht, by simp⟩) ?_
        · have : now ≠ 0 := ne_of_gt (lt_of_lt_of_le (by decide) hnow)
          simp [RateEntry.fresh, this]
        · intro j hj hji
          obtain ⟨kj, hkj⟩ := Option.ne_none_iff_exists'.mp (hfull _ (List.getElem_mem hj))
          obtain ⟨hlive, hip⟩ := RateEntry.key_eq_some.mp hkj
          refine ⟨kj, mem_otherSources.mpr ⟨?_, table[j].windowStart, ?_, ?_⟩, hkj⟩
          · rintro rfl
            exact hji (h.distinct.eq_of_key hkj hik)
          · have hle : table[i].windowStart ≤ table[j].windowStart := hmin _ (List.getElem_mem hj)
            rwa [hie, hws] at hle
          · rw [← hip]
            exact List.mem_append_left _ (h.seen _ (List.getElem_mem hj) hlive)
      rw [h.length_eq] at hcard
      omega

theorem callsOf_append (ip : UInt32) (run more : List RateCall) :
    callsOf ip (run ++ more) = callsOf ip run + callsOf ip more := by
  simp [callsOf]

theorem otherSources_subset_append (ip : UInt32) (t : ℤ) (run more : List RateCall) :
    otherSources ip t run ⊆ otherSources ip t (run ++ more) := by
  intro ip' h
  obtain ⟨hne, time, hle, hmem⟩ := mem_otherSources.mp h
  exact mem_otherSources.mpr ⟨hne, time, hle, List.mem_append_left _ hmem⟩

/-- **The calls of a window are answered as the limit says**, if the other addresses that call in it
are fewer than the slots of the table. -/
theorem window_run (hlimit : 0 < limit) {pre post : List RateCall}
    (htimes : ∀ d ∈ pre ++ c :: post, rateWindowSec ≤ d.time)
    (hopens : OpensWindow ((rateTable limit).after pre) c)
    (hin : ∀ d ∈ post, c.time ≤ d.time ∧ d.time < c.time + rateWindowSec)
    (hothers : (otherSources c.ip c.time (pre ++ c :: post)).card < rateTableSize) :
    InWindow c.ip c.time (callsOf c.ip (c :: post)) ((rateTable limit).after (pre ++ c :: post)) ∧
      answersTo c.ip ((rateTable limit).traceFrom ((rateTable limit).after pre) (c :: post)) =
        firstAllowed limit.toNat (callsOf c.ip (c :: post)) := by
  have hinv : ∀ more, (∀ d ∈ more, d ∈ pre ++ c :: post) →
      RateInv more ((rateTable limit).after more) :=
    fun more hmore => rateInv_after hlimit fun d hd => htimes d (hmore d hd)
  induction post using List.reverseRecOn with
  | nil =>
    obtain ⟨hwindow, hallowed⟩ := (hinv pre (by simp +contextual)).opens hlimit
      (htimes c (by simp)) hopens
    have hcalls : callsOf c.ip [c] = 1 := by simp [callsOf]
    refine ⟨?_, ?_⟩
    · rw [Machine.after_concat, hcalls]
      exact hwindow
    · have hone : 0 < limit.toNat := by omega
      rw [hcalls, firstAllowed_succ]
      simp [Machine.traceFrom, answersTo, firstAllowed, hallowed, hone]
  | append_singleton post d ih =>
    have hsplit : pre ++ c :: (post ++ [d]) = (pre ++ c :: post) ++ [d] := by simp
    have hsplit' : c :: (post ++ [d]) = (c :: post) ++ [d] := rfl
    rw [hsplit] at htimes hothers hinv ⊢
    have hfewer := Finset.card_le_card
      (otherSources_subset_append c.ip c.time (pre ++ c :: post) [d])
    obtain ⟨hwindow, hanswers⟩ := ih (fun e he => htimes e (List.mem_append_left _ he))
      (fun e he => hin e (List.mem_append_left _ he)) (by omega)
      (fun more hmore => hinv more fun e he => List.mem_append_left _ (hmore e he))
    obtain ⟨hlow, hhigh⟩ := hin d (by simp)
    have hd := htimes d (by simp)
    have hnow := hinv (pre ++ c :: post) fun e he => List.mem_append_left _ he
    have hafter : (c :: post).foldl (fun s a => ((rateTable limit).step s a).1)
        ((rateTable limit).after pre) = (rateTable limit).after (pre ++ c :: post) := by
      simp [Machine.after]
    rw [Machine.after_concat, hsplit', Machine.traceFrom_append, hafter, answersTo_append,
      callsOf_append, hanswers]
    by_cases hip : d.ip = c.ip
    · rw [← hip] at hwindow ⊢
      obtain ⟨hwindow', hanswer⟩ := hwindow.call hlimit hnow hd hhigh
      have hcalls : callsOf d.ip [d] = 1 := by simp [callsOf]
      refine ⟨by simpa [hcalls] using hwindow', ?_⟩
      rw [hcalls, firstAllowed_succ]
      have hdecide : decide ((callsOf d.ip (c :: post) : ℤ) + 1 ≤ limit) =
          decide (callsOf d.ip (c :: post) < limit.toNat) := by
        apply decide_eq_decide.mpr
        omega
      rw [← hdecide, ← hanswer]
      simp [Machine.traceFrom, answersTo]
    · have hcalls : callsOf c.ip [d] = 0 := by simp [callsOf, hip]
      rw [hcalls]
      exact ⟨hwindow.other hlimit hnow hip hd hlow hothers,
        by simp [Machine.traceFrom, answersTo, hip]⟩

/-! ## What is refused -/

/-- What an entry counts are calls of its address that were allowed in its window, up to the
limit. -/
def CountsAllowed (limit : ℤ) (trace : List (RateCall × Bool)) (table : List RateEntry) : Prop :=
  ∀ e ∈ table, e.windowStart ≠ 0 → min e.count limit ≤ allowedSince e.ip e.windowStart trace

/-- An entry that counts a call: what it counts is still what was allowed, and it refuses only when
the limit was reached. -/
theorem counts_grant {trace : List (RateCall × Bool)} {e : RateEntry}
    (hip : e.ip = c.ip) (hstart : e.windowStart ≤ c.time)
    (hcounts : min e.count limit ≤ allowedSince e.ip e.windowStart trace) :
    min (e.grant limit).1.count limit ≤
        allowedSince e.ip e.windowStart (trace ++ [(c, (e.grant limit).2)]) ∧
      ((e.grant limit).2 = false → limit ≤ allowedSince e.ip e.windowStart trace) := by
  rw [allowedSince_append, allowedSince_singleton, RateEntry.count_grant, RateEntry.allowed_grant]
  by_cases hallowed : e.count + 1 ≤ limit
  · simp only [hallowed, decide_true, hip, hstart, and_self, if_true]
    rw [← hip]
    exact ⟨by omega, fun h => by cases h⟩
  · simp only [hallowed, decide_false, Bool.false_eq_true, and_false, if_false]
    exact ⟨by omega, fun _ => by omega⟩

/-- A call keeps the counts, and is refused only when as many calls of its address as the limit says
were allowed less than a window ago. -/
theorem CountsAllowed.step (hlimit : 0 < limit)
    (h : RateInv run table) {trace : List (RateCall × Bool)}
    (hcounts : CountsAllowed limit trace table) (hnow : rateWindowSec ≤ c.time)
    (hclock : ∀ d ∈ run, d.time ≤ c.time) :
    CountsAllowed limit (trace ++ [(c, (rateAllow limit c.time c.ip table).2)])
        (rateAllow limit c.time c.ip table).1 ∧ ((rateAllow limit c.time c.ip table).2 = false →
        ∃ t, c.time < t + rateWindowSec ∧ limit ≤ allowedSince c.ip t trace) := by
  have hold : ∀ (ans : Bool), ∀ e ∈ table, e.windowStart ≠ 0 →
      min e.count limit ≤ allowedSince e.ip e.windowStart (trace ++ [(c, ans)]) := by
    intro ans e he hlive
    rw [allowedSince_append]
    have := hcounts e he hlive
    omega
  -- the entry written is the one the call is counted in
  have hwritten : ∀ (i : ℕ) (e : RateEntry), e.ip = c.ip → e.windowStart ≤ c.time →
      c.time < e.windowStart + rateWindowSec →
      min e.count limit ≤ allowedSince e.ip e.windowStart trace →
      CountsAllowed limit (trace ++ [(c, (e.grant limit).2)]) (table.set i (e.grant limit).1) ∧
        ((e.grant limit).2 = false →
          ∃ t, c.time < t + rateWindowSec ∧ limit ≤ allowedSince c.ip t trace) := by
    intro i e hip hstart hrunning he
    obtain ⟨hmin, hrefused⟩ := counts_grant hip hstart he
    refine ⟨fun e' he' hlive => ?_, fun hans => ⟨e.windowStart, hrunning, hip ▸ hrefused hans⟩⟩
    rcases List.mem_or_eq_of_mem_set he' with he' | rfl
    · exact hold _ e' he' hlive
    · rw [RateEntry.ip_grant, RateEntry.windowStart_grant]
      exact hmin
  have hbegin : ∀ e : RateEntry, e.count = 0 →
      min e.count limit ≤ allowedSince e.ip e.windowStart trace := by
    intro e he
    omega
  have hminute : (0 : ℤ) < rateWindowSec := by decide
  obtain ⟨i, hi, hkey, heq⟩ | ⟨-, i, hi, heq, -⟩ := rateAllow_cases hlimit h hnow c.ip
  · obtain ⟨hlive, hip⟩ := RateEntry.key_eq_some.mp hkey
    rw [heq]
    obtain ⟨hrunning, hsame⟩ | ⟨-, hws, hcount⟩ := table[i].renew_cases c.time
    · rw [hsame]
      exact hwritten i _ hip (hclock _ (h.seen _ (List.getElem_mem hi) hlive)) (by omega)
        (hcounts _ (List.getElem_mem hi) hlive)
    · exact hwritten i _ (by simpa using hip) (le_of_eq hws) (by omega) (hbegin _ hcount)
  · rw [heq]
    have hfresh : (RateEntry.fresh c.ip c.time).windowStart = c.time := rfl
    exact hwritten i _ rfl (le_of_eq hfresh) (by omega) (hbegin _ rfl)

/-- **What an entry counts was allowed**, after every run. -/
theorem countsAllowed_after (hlimit : 0 < limit) (hclock : ClockRun run)
    (htimes : ∀ c ∈ run, rateWindowSec ≤ c.time) :
    CountsAllowed limit ((rateTable limit).trace run) ((rateTable limit).after run) := by
  induction run using List.reverseRecOn with
  | nil =>
    intro e he hlive
    obtain rfl := List.eq_of_mem_replicate he
    exact absurd rfl hlive
  | append_singleton run c ih =>
    obtain ⟨hclock', -, hlast⟩ := List.pairwise_append.mp hclock
    have htimes' : ∀ d ∈ run, rateWindowSec ≤ d.time := fun d hd => htimes d (by simp [hd])
    rw [Machine.after_concat, Machine.trace_concat]
    exact ((ih hclock' htimes').step hlimit (rateInv_after hlimit htimes')
      (htimes c (by simp)) fun d hd => hlast d hd c (by simp)).1

/-! ## The limit -/

/-- **What the limit guarantees.** In every run, the calls of an address in a counting window are
answered as the limit says, the first ones allowed and the others refused, if fewer other addresses
call from its beginning on than the table has slots; and whatever the others do, a call is refused
only when as many calls of its own address as the limit says were allowed in the last minute. -/
theorem rateAllow_limits (limit : ℤ) (hlimit : 0 < limit) (run : List RateCall)
    (hclock : ClockRun run) (htimes : ∀ c ∈ run, rateWindowSec ≤ c.time) :
    (∀ pre c post, run = pre ++ c :: post → OpensWindow ((rateTable limit).after pre) c →
      (∀ d ∈ post, d.time < c.time + rateWindowSec) →
      (otherSources c.ip c.time run).card < rateTableSize →
      answersTo c.ip ((rateTable limit).traceFrom ((rateTable limit).after pre) (c :: post)) =
        firstAllowed limit.toNat (callsOf c.ip (c :: post))) ∧
    ∀ pre c post, run = pre ++ c :: post → (rateTable limit).answer pre c = false →
      ∃ t, c.time < t + rateWindowSec ∧ limit ≤ allowedSince c.ip t ((rateTable limit).trace pre) := by
  constructor
  · rintro pre c post rfl hopens hin hothers
    have hafter := (List.pairwise_cons.mp (List.pairwise_append.mp hclock).2.1).1
    exact (window_run hlimit htimes hopens (fun d hd => ⟨hafter d hd, hin d hd⟩) hothers).2
  · rintro pre c post rfl hrefused
    obtain ⟨hclock', -, hlast⟩ := List.pairwise_append.mp hclock
    have htimes' : ∀ d ∈ pre, rateWindowSec ≤ d.time := fun d hd => htimes d (by simp [hd])
    exact ((countsAllowed_after hlimit hclock' htimes').step hlimit (rateInv_after hlimit htimes')
      (htimes c (by simp)) fun d hd => hlast d hd c (by simp)).2 hrefused

/-- Two calls of an address in one window, and one of another address. -/
theorem rateAllow_limits_threeCalls :
    answersTo 1 ((rateTable 1).trace [⟨1, 100⟩, ⟨2, 100⟩, ⟨1, 159⟩]) = [true, false] := by
  have hrun := rateAllow_limits 1 (by decide) [⟨1, 100⟩, ⟨2, 100⟩, ⟨1, 159⟩]
    (by simp [ClockRun]) (by decide)
  refine hrun.1 [] ⟨1, 100⟩ [⟨2, 100⟩, ⟨1, 159⟩] rfl (fun e he hkey => ?_) (by decide) (by decide)
  obtain rfl := List.eq_of_mem_replicate he
  exact absurd rfl (RateEntry.key_eq_some.mp hkey).1

/-! ## More addresses than slots -/

/-- A call of an address that no slot holds. -/
theorem rateAllow_new (hlimit : 0 < limit) (hnew : ∀ e ∈ table, e.ip ≠ ip) (now : ℤ) :
    rateAllow limit now ip table =
      (table.set (oldestIdx table) ((RateEntry.fresh ip now).grant limit).1,
        ((RateEntry.fresh ip now).grant limit).2) := by
  have hfind : table.findIdx? (fun e => e.ip == ip) = none := by
    rw [List.findIdx?_eq_none_iff]
    intro e he
    simpa using hnew e he
  rw [rateAllow, if_neg (by omega), hfind]

/-- The entry of an address that has called once. -/
def calledOnce (now : ℤ) (ip : UInt32) : RateEntry := { ip := ip, windowStart := now, count := 1 }

/-- Different addresses fill the slots of the table one after another. -/
theorem after_fill {now : ℤ} (hnow : 0 < now) {ips : List UInt32} (hdistinct : ips.Nodup)
    (hzero : 0 ∉ ips) (hlen : ips.length ≤ rateTableSize) :
    (rateTable 1).after (ips.map (⟨·, now⟩)) =
      ips.map (calledOnce now) ++
        List.replicate (rateTableSize - ips.length) ({} : RateEntry) := by
  induction ips using List.reverseRecOn with
  | nil => rfl
  | append_singleton ips ip ih =>
    rw [List.length_append, List.length_singleton] at hlen
    obtain ⟨hdistinct', -, hne⟩ := List.nodup_append.mp hdistinct
    rw [List.map_append, List.map_singleton, Machine.after_concat,
      ih hdistinct' (fun h => hzero (List.mem_append_left _ h)) (by omega), step_rateTable]
    have hfree : List.replicate (rateTableSize - ips.length) ({} : RateEntry) =
        {} :: List.replicate (rateTableSize - (ips.length + 1)) {} := by
      rw [← List.replicate_succ]
      congr 1
      omega
    rw [hfree, rateAllow_new (by decide)]
    · have holdest : IsOldest (ips.map (calledOnce now) ++
          ({} : RateEntry) :: List.replicate (rateTableSize - (ips.length + 1)) {})
          ips.length := by
        refine ⟨by simp, ?_, ?_⟩
        · intro e he
          simp only [List.mem_append, List.mem_map, List.mem_cons, List.mem_replicate] at he
          rcases he with ⟨_, -, rfl⟩ | rfl | ⟨-, rfl⟩
          · simpa [calledOnce] using le_of_lt hnow
          · simp
          · simp
        · intro j hj
          simp [hj, calledOnce, hnow]
      rw [(isOldest_oldestIdx (by simp)).unique holdest, List.set_append_right _ _ (by simp)]
      simp [RateEntry.grant, RateEntry.fresh, calledOnce]
    · intro e he
      simp only [List.mem_append, List.mem_map, List.mem_cons, List.mem_replicate] at he
      rcases he with ⟨ip', hip', rfl⟩ | rfl | ⟨-, rfl⟩
      · exact hne ip' hip' ip (by simp)
      · rintro rfl
        exact hzero (by simp)
      · rintro rfl
        exact hzero (by simp)

/-- In every counting window of an address, no more of its calls are allowed than the limit says,
without a condition on the other addresses. -/
def WindowLimited (limit : ℤ) : Prop :=
  ∀ pre c post, ClockRun (pre ++ c :: post) → OpensWindow ((rateTable limit).after pre) c →
    (∀ d ∈ post, d.time < c.time + rateWindowSec) →
    (((answersTo c.ip ((rateTable limit).traceFrom ((rateTable limit).after pre)
      (c :: post))).count true : ℕ) : ℤ) ≤ limit

/-- The addresses from 1 to `n`. -/
def sources (n : ℕ) : List UInt32 := (List.range n).map fun i => UInt32.ofNat (i + 1)

theorem toNat_of_mem_sources {n : ℕ} (hn : n < 2 ^ 32) (h : ip ∈ sources n) :
    0 < ip.toNat ∧ ip.toNat ≤ n := by
  obtain ⟨i, hi, rfl⟩ := List.mem_map.mp h
  have hi := List.mem_range.mp hi
  rw [UInt32.toNat_ofNat_of_lt' (by show i + 1 < 2 ^ 32; omega)]
  omega

/-- The sources differ. -/
theorem nodup_sources {n : ℕ} (hn : n < 2 ^ 32) : (sources n).Nodup := by
  refine List.Nodup.map_on (fun i hi j hj h => ?_) List.nodup_range
  have hi := List.mem_range.mp hi
  have hj := List.mem_range.mp hj
  have := congrArg UInt32.toNat h
  rw [UInt32.toNat_ofNat_of_lt' (by show i + 1 < 2 ^ 32; omega),
    UInt32.toNat_ofNat_of_lt' (by show j + 1 < 2 ^ 32; omega)] at this
  omega

/-- When 256 other addresses call in the window of the address 1, its count is lost. -/
theorem crowd_not_windowLimited : ¬ WindowLimited 1 := by
  intro h
  obtain ⟨rest, hrest⟩ : ∃ rest, sources rateTableSize = 1 :: rest := by
    rw [sources, show rateTableSize = 255 + 1 from rfl, List.range_succ_eq_map]
    exact ⟨_, rfl⟩
  have hnodup := nodup_sources (n := rateTableSize) (by decide)
  have hzero : (0 : UInt32) ∉ sources rateTableSize := fun h0 =>
    absurd (toNat_of_mem_sources (by decide) h0).1 (by decide)
  have hlate : (257 : UInt32) ∉ sources rateTableSize := fun h0 =>
    absurd (toNat_of_mem_sources (by decide) h0).2 (by decide)
  have hfull : (rateTable 1).after ((sources rateTableSize).map (⟨·, 100⟩)) =
      (sources rateTableSize).map (calledOnce 100) := by
    have hfill := @after_fill 100 (by decide) (sources rateTableSize) hnodup hzero (by simp [sources])
    simpa [sources] using hfill
  rw [hrest] at hnodup hlate hfull
  -- every window of the full table began at the same time, so the first slot is given up
  have hevict : (rateTable 1).after (((1 : UInt32) :: rest).map (⟨·, 100⟩) ++ [⟨257, 100⟩]) =
      calledOnce 100 257 :: rest.map (calledOnce 100) := by
    have holdest : IsOldest (((1 : UInt32) :: rest).map (calledOnce 100)) 0 := by
      refine ⟨by simp, fun e he => ?_, by simp⟩
      obtain ⟨ip, -, rfl⟩ := List.mem_map.mp he
      exact le_rfl
    rw [Machine.after_concat, hfull, step_rateTable, rateAllow_new (by decide),
      (isOldest_oldestIdx (by simp)).unique holdest]
    · rfl
    · intro e he hip
      obtain ⟨ip, hmem, rfl⟩ := List.mem_map.mp he
      exact hlate ((show ip = 257 from hip) ▸ hmem)
  have hagain : (rateTable 1).answer (((1 : UInt32) :: rest).map (⟨·, 100⟩) ++ [⟨257, 100⟩])
      ⟨1, 100⟩ = true := by
    rw [Machine.answer, hevict, step_rateTable, rateAllow_new (by decide)]
    · rfl
    · intro e he
      rcases List.mem_cons.mp he with rfl | he
      · decide
      · obtain ⟨ip, hmem, rfl⟩ := List.mem_map.mp he
        rintro rfl
        exact (List.nodup_cons.mp hnodup).1 hmem
  have htimes : ∀ d ∈ (⟨1, 100⟩ : RateCall) :: (rest.map (⟨·, 100⟩) ++ [⟨257, 100⟩] ++ [⟨1, 100⟩]),
      d.time = 100 := by
    simp only [List.mem_cons, List.mem_append, List.mem_map, List.not_mem_nil, or_false]
    rintro d (rfl | (⟨ip, -, rfl⟩ | rfl) | rfl) <;> rfl
  have hclaim := h [] ⟨1, 100⟩ (rest.map (⟨·, 100⟩) ++ [⟨257, 100⟩] ++ [⟨1, 100⟩])
    (List.pairwise_of_forall_mem_list fun a ha b hb => by rw [htimes a ha, htimes b hb])
    (fun e he hkey => by
      obtain rfl := List.eq_of_mem_replicate he
      exact absurd rfl (RateEntry.key_eq_some.mp hkey).1)
    (fun d hd => by rw [htimes d (List.mem_cons_of_mem _ hd)]; decide)
  -- the first and the last of the calls of the address are both allowed
  have hsplit : (⟨1, 100⟩ : RateCall) :: (rest.map (⟨·, 100⟩) ++ [⟨257, 100⟩] ++ [⟨1, 100⟩]) =
      (((1 : UInt32) :: rest).map (⟨·, 100⟩) ++ [⟨257, 100⟩]) ++ [⟨1, 100⟩] := rfl
  have htwo := (rateTable 1).trace_concat
    (((1 : UInt32) :: rest).map (⟨·, 100⟩) ++ [⟨257, 100⟩]) ⟨1, 100⟩
  rw [hagain] at htwo
  rw [Machine.after_nil, hsplit, ← Machine.trace, htwo, answersTo_append, List.count_append] at hclaim
  have hfirst : 0 < (answersTo (⟨1, 100⟩ : RateCall).ip ((rateTable 1).trace
      (((1 : UInt32) :: rest).map (⟨·, 100⟩) ++ [⟨257, 100⟩]))).count true := by
    have hallowed : (rateAllow 1 (⟨1, 100⟩ : RateCall).time (⟨1, 100⟩ : RateCall).ip
        (rateTable 1).init).2 = true := by
      rw [rateAllow_new (by decide)]
      · rfl
      · intro e he
        obtain rfl := List.eq_of_mem_replicate he
        decide
    rw [List.map_cons, List.cons_append, Machine.trace, Machine.traceFrom, step_rateTable,
      answersTo_cons_self, hallowed, List.count_cons_self]
    omega
  have hlast : (answersTo (⟨1, 100⟩ : RateCall).ip [(⟨1, 100⟩, true)]).count true = 1 := by
    rw [answersTo_cons_self]
    rfl
  rw [hlast] at hclaim
  omega

end BoatRudder.WapGateway
