import BoatRudder.Runs.Machine
import BoatRudder.Runs.SlotTable
import BoatRudder.WebServer.InetAddress

/-! # The table of client addresses

The rate limit of `server_listener.c`: `too_many_connections` counts the connections of an address
that come soon after one another, blocks it when they are too many, and makes room for a new address
by evicting the one that connected longest ago. The cleanup thread frees what has gone quiet. -/

namespace BoatRudder.WebServer

/-- The settings of the limit (`config_loader.c`). -/
structure DdosSettings where
  /-- `ddos_rate_window_secs`. -/
  rateWindowSecs : ℤ := 5
  /-- `ddos_rate_limit`. -/
  rateLimit : ℤ := 500
  /-- `ddos_max_ips`, the slots `server_start` allocates. -/
  maxIps : ℕ := 1024
  /-- `ddos_ip_stale_secs`. -/
  ipStaleSecs : ℤ := 300
  /-- Without a slot there is no table to write to. -/
  maxIps_pos : 0 < maxIps := by decide

/-- How long an address stays blocked. -/
def DdosSettings.blockSecs (s : DdosSettings) : ℤ := s.rateWindowSecs * 2

/-- `ip_entry_t`, a slot of `ip_table`. -/
structure IpEntry where
  /-- The address in its 16-byte form. -/
  ip : Bytes := List.replicate 16 0
  /-- Whether the slot is taken. -/
  used : Bool := false
  /-- When the address connected last (while it was not blocked). -/
  lastConn : ℤ := 0
  /-- When it was blocked. -/
  lastRejected : ℤ := 0
  /-- Its connections since it was away for a window. -/
  count : ℤ := 0
  /-- Whether it is blocked. -/
  blocked : Bool := false
  deriving DecidableEq

/-- A slot holds its address when it is taken, and is evicted by the time of the last connection. -/
instance : Slot IpEntry Bytes ℤ where
  key e := if e.used then some e.ip else none
  stamp e := e.lastConn

@[simp] theorem IpEntry.key_eq_some {e : IpEntry} {k : Bytes} :
    Slot.key e = some k ↔ e.used = true ∧ e.ip = k := by
  simp [Slot.key]

@[simp] theorem IpEntry.key_eq_none {e : IpEntry} : Slot.key e = none ↔ e.used = false := by
  simp [Slot.key]

/-- The entry of an address that is not in the table (`fresh`). -/
def IpEntry.fresh (key : Bytes) (now : ℤ) : IpEntry :=
  { ip := key, used := true, lastConn := now, count := 1 }

/-- The lines of `too_many_connections` for an entry that is not blocked: a connection that comes soon
after the one before is counted, any other starts the count again. -/
def IpEntry.tally (s : DdosSettings) (now : ℤ) (e : IpEntry) : IpEntry × Bool :=
  if now - e.lastConn < s.rateWindowSecs then
    if s.rateLimit < e.count + 1 then
      ({ e with count := e.count + 1, lastConn := now, blocked := true, lastRejected := now }, true)
    else ({ e with count := e.count + 1, lastConn := now }, false)
  else ({ e with count := 1, lastConn := now }, false)

/-- A connection of the address of an entry: the entry after it, and whether it is refused. -/
def IpEntry.connect (s : DdosSettings) (now : ℤ) (e : IpEntry) : IpEntry × Bool :=
  if e.blocked then
    if s.blockSecs < now - e.lastRejected then
      -- the block has expired
      { e with blocked := false, count := 0 }.tally s now
    else (e, true)
  else e.tally s now

/-- `too_many_connections`: the table after a connection, and whether it is refused. -/
def tooManyConnections (s : DdosSettings) (now : ℤ) (key : Bytes) (table : List IpEntry) :
    List IpEntry × Bool :=
  match table.findIdx? fun e => e.used && e.ip == key with
  | some i =>
    let r := (table.getD i {}).connect s now
    (table.set i r.1, r.2)
  | none =>
    match table.findIdx? fun e => !e.used with
    | some i => (table.set i (.fresh key now), false)
    | none => (table.set (SlotTable.oldestIdx table) (.fresh key now), false)

/-- The first half of the cleanup: an expired block is lifted. -/
def IpEntry.lift (s : DdosSettings) (now : ℤ) (e : IpEntry) : IpEntry :=
  if e.blocked = true ∧ s.blockSecs < now - e.lastRejected then { e with blocked := false } else e

/-- What a pass of `ip_table_cleanup_thread` does to a slot: the entry of an address that is not
blocked (any more) and has gone quiet is freed. -/
def IpEntry.cleanup (s : DdosSettings) (now : ℤ) (e : IpEntry) : IpEntry :=
  if e.used then
    if (e.lift s now).blocked = false ∧ s.ipStaleSecs < now - (e.lift s now).lastConn then {}
    else e.lift s now
  else e

/-! ## The keys of the table -/

/-- `ipv4_key`: an IPv4 address as the IPv6 address `::ffff:a.b.c.d`. -/
def ipv4Key (addr : Bytes) : Bytes := List.replicate 10 0 ++ [0xFF, 0xFF] ++ addr

/-- The key `server_ip_rate_limited` counts an address under, none for a text that is no address. -/
def ipKey (ipText : Bytes) : Option Bytes :=
  match inetPton4 ipText with
  | some v4 => some (ipv4Key v4)
  | none => inetPton6 ipText

/-- `server_ip_rate_limited`. -/
def serverIpRateLimited (s : DdosSettings) (now : ℤ) (ipText : Bytes) (table : List IpEntry) :
    List IpEntry × Bool :=
  match ipKey ipText with
  | some key => tooManyConnections s now key table
  | none => (table, false)

/-! ## Runs of the listener -/

/-- What the threads do to the table, each under `ip_table_mutex`. -/
inductive IpEvent
  /-- A connection of an address is checked at a time. -/
  | connect (key : Bytes) (now : ℤ)
  /-- The cleanup thread makes a pass at a time. -/
  | cleanup (now : ℤ)
  deriving DecidableEq

/-- When an event takes place. -/
def IpEvent.time : IpEvent → ℤ
  | .connect _ now => now
  | .cleanup now => now

/-- The table as a machine; a connection is answered by whether it is refused. -/
def ipTable (s : DdosSettings) : Machine (List IpEntry) IpEvent Bool where
  init := List.replicate s.maxIps {}
  step table
    | .connect key now => tooManyConnections s now key table
    | .cleanup now => (table.map (IpEntry.cleanup s now), false)

/-- The clock never goes back. -/
def Nondecreasing (run : List IpEvent) : Prop := run.Pairwise fun a b => a.time ≤ b.time

/-- The times at which an address connects in a run. -/
def connectTimes (key : Bytes) (run : List IpEvent) : List ℤ :=
  run.filterMap fun
    | .connect k now => if k = key then some now else none
    | .cleanup _ => none

/-- The other addresses that connect in a run at a time from `t` on. -/
def othersSince (key : Bytes) (t : ℤ) (run : List IpEvent) : Finset Bytes :=
  (run.filterMap fun
    | .connect k now => if k ≠ key ∧ t ≤ now then some k else none
    | .cleanup _ => none).toFinset

@[simp] theorem mem_othersSince {key k : Bytes} {t : ℤ} {run : List IpEvent} :
    k ∈ othersSince key t run ↔ k ≠ key ∧ ∃ now, t ≤ now ∧ IpEvent.connect k now ∈ run := by
  rw [othersSince, List.mem_toFinset, List.mem_filterMap]
  constructor
  · rintro ⟨e, he, h⟩
    cases e with
    | connect k' now =>
      simp only [Option.ite_none_right_eq_some, Option.some.injEq] at h
      obtain ⟨⟨hne, hle⟩, rfl⟩ := h
      exact ⟨hne, now, hle, he⟩
    | cleanup now => simp at h
  · rintro ⟨hne, now, hle, he⟩
    exact ⟨_, he, by simp [hne, hle]⟩

/-! ## What a run keeps of the table

What one call of `too_many_connections` and one pass of the cleanup thread can do to the table
(`tooManyConnections_cases`, `cleanup_cases`), the invariant of the table over whole runs
(`TableInv`), and from these the two guarantees of the limit: **`neverBlocked_iff`**, who is never
blocked, and **`block_lasts`**, how long a block lasts. -/

open Slot SlotTable

variable {k : Bytes} {t : ℤ}
variable (s : DdosSettings)

/-! ## What one step can do -/

/-- What an entry has counted when a connection comes: an expired block starts it again. -/
def IpEntry.carried (e : IpEntry) : ℤ := if e.blocked then 0 else e.count

theorem IpEntry.carried_nonneg {e : IpEntry} (h : 0 ≤ e.count) : 0 ≤ e.carried := by
  unfold carried
  split_ifs <;> simp [h]

/-- **What a connection can do to the entry of its address**: it is refused by a block; or it is one
too many, and blocks the address; or it is counted; or it starts the count again. -/
theorem IpEntry.connect_cases (now : ℤ) (e : IpEntry) :
    (e.blocked = true ∧ now - e.lastRejected ≤ s.blockSecs ∧ e.connect s now = (e, true)) ∨
    (now - e.lastConn < s.rateWindowSecs ∧ s.rateLimit < e.carried + 1 ∧
      e.connect s now = ({ e with
        count := e.carried + 1, lastConn := now, blocked := true, lastRejected := now }, true)) ∨
    (now - e.lastConn < s.rateWindowSecs ∧ e.carried + 1 ≤ s.rateLimit ∧
      e.connect s now = ({ e with
        count := e.carried + 1, lastConn := now, blocked := false }, false)) ∨
    (s.rateWindowSecs ≤ now - e.lastConn ∧
      e.connect s now = ({ e with count := 1, lastConn := now, blocked := false }, false)) := by
  unfold IpEntry.connect IpEntry.carried IpEntry.tally
  cases hb : e.blocked with
  | true =>
    by_cases hexp : s.blockSecs < now - e.lastRejected
    · right
      simp only [if_true, if_pos hexp]
      split_ifs <;> simp_all
    · left
      simp [hexp, le_of_not_gt hexp]
  | false =>
    right
    have he : { e with blocked := false } = e := by rw [← hb]
    simp only [Bool.false_eq_true, if_false]
    split_ifs <;> simp_all

@[simp] theorem IpEntry.ip_connect (now : ℤ) (e : IpEntry) : (e.connect s now).1.ip = e.ip := by
  obtain ⟨-, -, h⟩ | ⟨-, -, h⟩ | ⟨-, -, h⟩ | ⟨-, h⟩ := e.connect_cases s now <;> rw [h]

@[simp] theorem IpEntry.used_connect (now : ℤ) (e : IpEntry) :
    (e.connect s now).1.used = e.used := by
  obtain ⟨-, -, h⟩ | ⟨-, -, h⟩ | ⟨-, -, h⟩ | ⟨-, h⟩ := e.connect_cases s now <;> rw [h]

/-- A connection of the address of an entry leaves the slot to the address. -/
theorem IpEntry.key_connect (now : ℤ) (e : IpEntry) : key (e.connect s now).1 = key e := by
  simp [key]

/-- A pass of the cleanup thread leaves an entry, lifts an expired block, or frees the slot of an
address that is not blocked any more. -/
theorem IpEntry.cleanup_cases (now : ℤ) (e : IpEntry) :
    e.cleanup s now = e ∨
      (e.blocked = true ∧ s.blockSecs < now - e.lastRejected ∧
        e.cleanup s now = { e with blocked := false }) ∨
      ((e.blocked = true → s.blockSecs < now - e.lastRejected) ∧ e.cleanup s now = {}) := by
  have hlift : e.lift s now = e ∨ (e.blocked = true ∧ s.blockSecs < now - e.lastRejected ∧
      e.lift s now = { e with blocked := false }) := by
    unfold IpEntry.lift
    split_ifs with h
    · exact Or.inr ⟨h.1, h.2, rfl⟩
    · exact Or.inl rfl
  unfold IpEntry.cleanup
  split_ifs with hused hfree
  · -- freed: its block, if it had one, has been lifted just now
    refine Or.inr (Or.inr ⟨fun hb => ?_, rfl⟩)
    obtain h | ⟨-, hexp, -⟩ := hlift
    · rw [h, hb] at hfree
      cases hfree.1
    · exact hexp
  · obtain h | h := hlift
    · exact Or.inl h
    · exact Or.inr (Or.inl h)
  · exact Or.inl rfl

variable {table : List IpEntry}

/-- **What a connection can do to the table.** The address has an entry, and that one is updated; or
it is new, and takes a free slot, or, when there is none, the slot of one of the addresses that
connected longest ago. -/
theorem tooManyConnections_cases (hd : Distinct table) (hne : table ≠ []) (now : ℤ) (k : Bytes) :
    (∃ (i : ℕ) (h : i < table.length), key table[i] = some k ∧ tooManyConnections s now k table =
        (table.set i (table[i].connect s now).1, (table[i].connect s now).2)) ∨
    ((∀ e ∈ table, key e ≠ some k) ∧ ∃ (i : ℕ) (h : i < table.length),
      tooManyConnections s now k table = (table.set i (.fresh k now), false) ∧
      (key table[i] = none ∨
        (∀ e ∈ table, key e ≠ none) ∧ ∀ e ∈ table, stamp table[i] ≤ stamp e)) := by
  have hp : ∀ e ∈ table, (e.used && e.ip == k) = true ↔ key e = some k := by simp
  unfold tooManyConnections
  cases hfind : table.findIdx? fun e => e.used && e.ip == k with
  | some i =>
    obtain ⟨hi, hkey⟩ := (findIdx?_eq_some_iff hd hp).mp hfind
    exact Or.inl ⟨i, hi, hkey, by simp [List.getD_eq_getElem?_getD, hi]⟩
  | none =>
    have hnew : ∀ e ∈ table, key e ≠ some k := by
      intro e he hk
      have := List.findIdx?_eq_none_iff.mp hfind e he
      rw [(hp e he).mpr hk] at this
      cases this
    refine Or.inr ⟨hnew, ?_⟩
    cases hfree : table.findIdx? fun e => !e.used with
    | some i =>
      obtain ⟨hi, hused, -⟩ := List.findIdx?_eq_some_iff_getElem.mp hfree
      exact ⟨i, hi, rfl, Or.inl (by simpa using hused)⟩
    | none =>
      obtain ⟨hi, hmin, -⟩ := isOldest_oldestIdx hne
      refine ⟨oldestIdx table, hi, rfl, Or.inr ⟨fun e he hk => ?_, hmin⟩⟩
      have := List.findIdx?_eq_none_iff.mp hfree e he
      simp_all

/-! ## The invariant of the table -/

/-- What holds of the table after every run. -/
structure TableInv (run : List IpEvent) (table : List IpEntry) : Prop where
  /-- The table keeps its slots. -/
  length_eq : table.length = s.maxIps
  /-- No address has two entries. -/
  distinct : Distinct table
  /-- An address connected when its entry says. -/
  seen : ∀ e ∈ table, e.used = true → IpEvent.connect e.ip e.lastConn ∈ run
  /-- A blocked address was blocked at its last connection. -/
  blockedAt : ∀ e ∈ table, e.blocked = true → e.lastRejected = e.lastConn
  /-- No count is negative. -/
  count_nonneg : ∀ e ∈ table, 0 ≤ e.count

variable {s}
theorem TableInv.ne_nil {run : List IpEvent} (h : TableInv s run table) : table ≠ [] := by
  have hpos := s.maxIps_pos
  rw [← h.length_eq] at hpos
  exact List.ne_nil_of_length_pos hpos

variable (s)

theorem tableInv_init : TableInv s [] (ipTable s).init where
  length_eq := by simp [ipTable]
  distinct := distinct_replicate rfl _
  seen := by
    intro e he hused
    obtain rfl := List.eq_of_mem_replicate he
    cases hused
  blockedAt := by
    intro e he hblocked
    obtain rfl := List.eq_of_mem_replicate he
    cases hblocked
  count_nonneg := by
    intro e he
    obtain rfl := List.eq_of_mem_replicate he
    exact le_rfl

/-- A connection keeps the invariant. -/
theorem TableInv.connect {run : List IpEvent} (h : TableInv s run table) (k : Bytes) (now : ℤ) :
    TableInv s (run ++ [.connect k now]) (tooManyConnections s now k table).1 := by
  have hseen : ∀ e ∈ table, e.used = true →
      IpEvent.connect e.ip e.lastConn ∈ run ++ [.connect k now] :=
    fun e he hused => List.mem_append_left _ (h.seen e he hused)
  obtain ⟨i, hi, hkey, heq⟩ | ⟨hnew, i, hi, heq, -⟩ :=
    tooManyConnections_cases s h.distinct h.ne_nil now k
  · obtain ⟨hused, hip⟩ := IpEntry.key_eq_some.mp hkey
    rw [heq]
    constructor
    · simpa using h.length_eq
    · exact h.distinct.set_same hi (IpEntry.key_connect s now _)
    · intro e he hu
      rcases List.mem_or_eq_of_mem_set he with he | rfl
      · exact hseen e he hu
      · rw [IpEntry.ip_connect]
        obtain ⟨-, -, h⟩ | ⟨-, -, h⟩ | ⟨-, -, h⟩ | ⟨-, h⟩ := table[i].connect_cases s now
        · rw [h]
          exact hseen _ (List.getElem_mem hi) hused
        all_goals simp [h, hip]
    · intro e he hb
      rcases List.mem_or_eq_of_mem_set he with he | rfl
      · exact h.blockedAt e he hb
      · obtain ⟨-, -, hc⟩ | ⟨-, -, hc⟩ | ⟨-, -, hc⟩ | ⟨-, hc⟩ := table[i].connect_cases s now
        · rw [hc] at hb ⊢
          exact h.blockedAt _ (List.getElem_mem hi) hb
        · rw [hc]
        · rw [hc] at hb
          cases hb
        · rw [hc] at hb
          cases hb
    · intro e he
      rcases List.mem_or_eq_of_mem_set he with he | rfl
      · exact h.count_nonneg e he
      · have hcount := h.count_nonneg _ (List.getElem_mem hi)
        have hcarried := table[i].carried_nonneg hcount
        obtain ⟨-, -, hc⟩ | ⟨-, -, hc⟩ | ⟨-, -, hc⟩ | ⟨-, hc⟩ := table[i].connect_cases s now <;>
          rw [hc]
        · exact hcount
        · exact Int.add_nonneg hcarried (by decide)
        · exact Int.add_nonneg hcarried (by decide)
        · exact Int.le_of_lt Int.zero_lt_one
  · rw [heq]
    constructor
    · simpa using h.length_eq
    · exact h.distinct.set_new i (k := k) (by simp [IpEntry.fresh]) hnew
    · intro e he hu
      rcases List.mem_or_eq_of_mem_set he with he | rfl
      · exact hseen e he hu
      · simp [IpEntry.fresh]
    · intro e he hb
      rcases List.mem_or_eq_of_mem_set he with he | rfl
      · exact h.blockedAt e he hb
      · cases hb
    · intro e he
      rcases List.mem_or_eq_of_mem_set he with he | rfl
      · exact h.count_nonneg e he
      · exact Int.le_of_lt Int.zero_lt_one

/-- A pass of the cleanup thread keeps the invariant. -/
theorem TableInv.cleanup {run : List IpEvent} (h : TableInv s run table)
    (now : ℤ) : TableInv s (run ++ [.cleanup now]) (table.map (IpEntry.cleanup s now)) where
  length_eq := by simpa using h.length_eq
  distinct := by
    refine h.distinct.map fun e => ?_
    obtain heq | ⟨-, -, heq⟩ | ⟨-, heq⟩ := IpEntry.cleanup_cases s now e <;> rw [heq]
    · exact Or.inl rfl
    · exact Or.inl rfl
    · exact Or.inr rfl
  seen := by
    intro e' he' hused
    obtain ⟨e, he, rfl⟩ := List.mem_map.mp he'
    apply List.mem_append_left
    obtain heq | ⟨-, -, heq⟩ | ⟨-, heq⟩ := IpEntry.cleanup_cases s now e <;> rw [heq] at hused ⊢
    · exact h.seen e he hused
    · exact h.seen e he hused
    · cases hused
  blockedAt := by
    intro e' he' hblocked
    obtain ⟨e, he, rfl⟩ := List.mem_map.mp he'
    obtain heq | ⟨-, -, heq⟩ | ⟨-, heq⟩ := IpEntry.cleanup_cases s now e <;>
      rw [heq] at hblocked ⊢
    · exact h.blockedAt e he hblocked
    · cases hblocked
  count_nonneg := by
    intro e' he'
    obtain ⟨e, he, rfl⟩ := List.mem_map.mp he'
    obtain heq | ⟨-, -, heq⟩ | ⟨-, heq⟩ := IpEntry.cleanup_cases s now e <;> rw [heq]
    · exact h.count_nonneg e he
    · exact h.count_nonneg e he

/-- **The invariant holds after every run.** -/
theorem tableInv_after (run : List IpEvent) : TableInv s run ((ipTable s).after run) := by
  refine (ipTable s).after_induction (tableInv_init s) (fun run e h => ?_) run
  cases e with
  | connect k now => exact h.connect s k now
  | cleanup now => exact h.cleanup s now

/-! ## How long a block lasts -/

/-- An address is blocked since a time. -/
def BlockedSince (k : Bytes) (t : ℤ) (table : List IpEntry) : Prop :=
  ∃ e ∈ table, e.used = true ∧ e.ip = k ∧ e.blocked = true ∧ e.lastRejected = t

variable {s}

/-- **An address is evicted only by as many others as the table has slots**: they have all connected
since its last connection. -/
theorem TableInv.le_card_othersSince {run : List IpEvent} (h : TableInv s run table) {i : ℕ}
    (hi : i < table.length) {k' : Bytes} {now : ℤ}
    (hk : key table[i] = some k) (hnew : ∀ e ∈ table, key e ≠ some k')
    (hfull : ∀ e ∈ table, key e ≠ none) (hmin : ∀ e ∈ table, stamp table[i] ≤ stamp e)
    (ht : t ≤ stamp table[i]) (hnow : t ≤ now) :
    s.maxIps ≤ (othersSince k t (run ++ [.connect k' now])).card := by
  rw [← h.length_eq]
  refine length_le_card_of_evict (i := i) (x := IpEntry.fresh k' now) (k := k') h.distinct
    (by simp [IpEntry.fresh]) hnew ?_ ?_
  · rw [mem_othersSince]
    refine ⟨?_, now, hnow, by simp⟩
    rintro rfl
    exact hnew _ (List.getElem_mem hi) hk
  · intro j hj hji
    obtain ⟨kj, hkj⟩ := Option.ne_none_iff_exists'.mp (hfull _ (List.getElem_mem hj))
    obtain ⟨hused, hip⟩ := IpEntry.key_eq_some.mp hkj
    refine ⟨kj, mem_othersSince.mpr ⟨?_, stamp table[j], ?_, ?_⟩, hkj⟩
    · rintro rfl
      exact hji (h.distinct.eq_of_key hkj hk)
    · exact le_trans ht (hmin _ (List.getElem_mem hj))
    · rw [← hip]
      exact List.mem_append_left _ (h.seen _ (List.getElem_mem hj) hused)

/-- A connection of a blocked address is refused, and changes nothing. -/
theorem TableInv.refused {run : List IpEvent} (h : TableInv s run table) {now : ℤ}
    (hb : BlockedSince k t table)
    (hnow : now - t ≤ s.blockSecs) : tooManyConnections s now k table = (table, true) := by
  obtain ⟨e, he, hused, hip, hblocked, rfl⟩ := hb
  have hek : key e = some k := by simp [hused, hip]
  obtain ⟨i, hi, hkey, heq⟩ | ⟨hnew, -⟩ :=
    tooManyConnections_cases s h.distinct h.ne_nil now k
  · obtain ⟨j, hj, rfl⟩ := List.getElem_of_mem he
    obtain rfl := h.distinct.eq_of_key hkey hek
    have hc : table[i].connect s now = (table[i], true) := by
      rw [IpEntry.connect, if_pos hblocked, if_neg (by omega)]
    rw [heq, hc, List.set_getElem_self]
  · exact absurd hek (hnew e he)

/-- So is one of any text that names a blocked address. -/
theorem TableInv.serverIpRateLimited {run : List IpEvent} (h : TableInv s run table) {ipText : Bytes}
    (hkey : ipKey ipText = some k) {now : ℤ} (hb : BlockedSince k t table)
    (hnow : now - t ≤ s.blockSecs) : serverIpRateLimited s now ipText table = (table, true) := by
  rw [WebServer.serverIpRateLimited, hkey]
  exact h.refused hb hnow

/-- A step within the block keeps it, unless it comes from one other address too many. -/
theorem BlockedSince.step {run : List IpEvent} (h : TableInv s run table)
    (hb : BlockedSince k t table) {e : IpEvent} (hlow : t ≤ e.time)
    (hhigh : e.time - t ≤ s.blockSecs) (hothers : (othersSince k t (run ++ [e])).card < s.maxIps) :
    BlockedSince k t ((ipTable s).step table e).1 := by
  cases e with
  | connect k' now =>
    replace hlow : t ≤ now := hlow
    replace hhigh : now - t ≤ s.blockSecs := hhigh
    show BlockedSince k t (tooManyConnections s now k' table).1
    by_cases hkk : k' = k
    · rw [hkk, h.refused hb hhigh]
      exact hb
    · -- another address writes to its own slot, to a free one, or evicts
      obtain ⟨e, he, hused, hip, hblocked, hrejected⟩ := hb
      have hek : key e = some k := by simp [hused, hip]
      obtain ⟨i, hi, hkey, heq⟩ | ⟨hnew, i, hi, heq, hslot⟩ :=
        tooManyConnections_cases s h.distinct h.ne_nil now k'
      · refine ⟨e, ?_, hused, hip, hblocked, hrejected⟩
        rw [heq]
        refine mem_set_of_ne he fun _ hie => hkk ?_
        rw [hie, hek] at hkey
        exact (Option.some.inj hkey).symm
      · refine ⟨e, ?_, hused, hip, hblocked, hrejected⟩
        rw [heq]
        refine mem_set_of_ne he fun _ hie => ?_
        have hik : key table[i] = some k := by rw [hie, hek]
        obtain hfree | ⟨hfull, hmin⟩ := hslot
        · rw [hfree] at hik
          cases hik
        · have ht : t ≤ stamp table[i] := by
            show t ≤ table[i].lastConn
            rw [hie, ← h.blockedAt e he hblocked, hrejected]
          have := h.le_card_othersSince hi hik hnew hfull hmin ht hlow
          omega
  | cleanup now =>
    obtain ⟨e, he, hused, hip, hblocked, hrejected⟩ := hb
    have hkeep : ¬ s.blockSecs < now - e.lastRejected := by
      rw [hrejected]
      exact not_lt.mpr hhigh
    refine ⟨e, List.mem_map.mpr ⟨e, he, ?_⟩, hused, hip, hblocked, hrejected⟩
    obtain heq | ⟨-, hexp, -⟩ | ⟨hexp, -⟩ := IpEntry.cleanup_cases s now e
    · exact heq
    · exact absurd hexp hkeep
    · exact absurd (hexp hblocked) hkeep

/-- More of a run brings more addresses. -/
theorem othersSince_subset_append (k : Bytes) (t : ℤ) (run more : List IpEvent) :
    othersSince k t run ⊆ othersSince k t (run ++ more) := by
  intro k' hk'
  obtain ⟨hne, now, hle, hmem⟩ := mem_othersSince.mp hk'
  exact mem_othersSince.mpr ⟨hne, now, hle, List.mem_append_left _ hmem⟩

/-- A run within the block keeps it. -/
theorem BlockedSince.run {run : List IpEvent} {k : Bytes} {t : ℤ}
    (hb : BlockedSince k t ((ipTable s).after run)) {more : List IpEvent}
    (htimes : ∀ e ∈ more, t ≤ e.time ∧ e.time - t ≤ s.blockSecs)
    (hothers : (othersSince k t (run ++ more)).card < s.maxIps) :
    BlockedSince k t ((ipTable s).after (run ++ more)) := by
  induction more using List.reverseRecOn with
  | nil => simpa using hb
  | append_singleton more e ih =>
    rw [← List.append_assoc] at hothers ⊢
    have hfewer := Finset.card_le_card (othersSince_subset_append k t (run ++ more) [e])
    have hlast := htimes e (by simp)
    rw [Machine.after_concat]
    refine BlockedSince.step (tableInv_after s (run ++ more)) ?_ hlast.1 hlast.2 hothers
    exact ih (fun e he => htimes e (by simp [he])) (by omega)

/-- A run on which the clock never goes back, read at one event. -/
theorem Nondecreasing.le_of_mem {pre post : List IpEvent} {e : IpEvent}
    (h : Nondecreasing (pre ++ e :: post)) {e' : IpEvent} (he' : e' ∈ post) : e.time ≤ e'.time := by
  have := (List.pairwise_append.mp h).2.1
  exact (List.pairwise_cons.mp this).1 e' he'

/-- **A block lasts.** Once `too_many_connections` blocks an address at `t`, every connection of it
before the end of the block is refused, in every run in which fewer other addresses than the table
has slots connect from `t` on. -/
theorem block_lasts (s : DdosSettings) (pre post : List IpEvent) (k : Bytes) (t t' : ℤ)
    (hclock : Nondecreasing (pre ++ .connect k t :: (post ++ [.connect k t'])))
    (hblocks : BlockedSince k t (tooManyConnections s t k ((ipTable s).after pre)).1)
    (hbefore : t' < t + s.blockSecs)
    (hothers : (othersSince k t (pre ++ .connect k t :: post)).card < s.maxIps) :
    (ipTable s).answer (pre ++ .connect k t :: post) (.connect k t') = true := by
  have hsplit : pre ++ IpEvent.connect k t :: post = pre ++ [.connect k t] ++ post := by simp
  have hstart : BlockedSince k t ((ipTable s).after (pre ++ [.connect k t])) := by
    rw [Machine.after_concat]
    exact hblocks
  have htimes : ∀ e ∈ post, t ≤ e.time ∧ e.time - t ≤ s.blockSecs := by
    intro e he
    have hlow : t ≤ e.time := hclock.le_of_mem (List.mem_append_left _ he)
    have hlast : e.time ≤ t' := by
      have := (List.pairwise_append.mp hclock).2.1
      have := (List.pairwise_append.mp (List.pairwise_cons.mp this).2).2.2 e he
      simpa [IpEvent.time] using this (.connect k t') (by simp)
    omega
  have hblocked : BlockedSince k t ((ipTable s).after (pre ++ .connect k t :: post)) := by
    rw [hsplit] at hothers ⊢
    exact hstart.run htimes hothers
  have hlow : t ≤ t' := hclock.le_of_mem (by simp : IpEvent.connect k t' ∈ post ++ [.connect k t'])
  have hlive : t' - t ≤ s.blockSecs := by omega
  have hrefused := (tableInv_after s (pre ++ .connect k t :: post)).refused hblocked hlive
  show (tooManyConnections s t' k _).2 = true
  rw [hrefused]

/-- A block over a pass of the cleanup thread, with another address in between. -/
theorem block_lasts_cleanup :
    (ipTable { rateLimit := 1, maxIps := 2 }).answer
      [.connect (ipv4Key [10, 0, 0, 1]) 10, .connect (ipv4Key [10, 0, 0, 1]) 11, .connect (ipv4Key [10, 0, 0, 2]) 12, .cleanup 20] (.connect (ipv4Key [10, 0, 0, 1]) 20) = true :=
  block_lasts _ [.connect (ipv4Key [10, 0, 0, 1]) 10] [.connect (ipv4Key [10, 0, 0, 2]) 12, .cleanup 20] (ipv4Key [10, 0, 0, 1]) 11 20
    (by simp [Nondecreasing, IpEvent.time]) ⟨{
      ip := (ipv4Key [10, 0, 0, 1]), used := true, lastConn := 11, lastRejected := 11, count := 2, blocked := true },
      by decide, rfl, rfl, rfl, rfl⟩ (by decide) (by decide)

/-- A block lasts without a condition on the other addresses. -/
def BlockLasts (s : DdosSettings) : Prop :=
  ∀ (pre post : List IpEvent) (k : Bytes) (t t' : ℤ),
    Nondecreasing (pre ++ .connect k t :: (post ++ [.connect k t'])) →
    BlockedSince k t (tooManyConnections s t k ((ipTable s).after pre)).1 →
    t' < t + s.blockSecs → (ipTable s).answer (pre ++ .connect k t :: post) (.connect k t') = true

/-- As many other addresses as there are slots push a blocked address out of the table. -/
theorem evicted_not_blockLasts : ¬ BlockLasts { rateLimit := 1, maxIps := 2 } := by
  intro h
  have := h [.connect (ipv4Key [10, 0, 0, 1]) 10] [.connect (ipv4Key [10, 0, 0, 2]) 12, .connect (ipv4Key [10, 0, 0, 3]) 13] (ipv4Key [10, 0, 0, 1]) 11 14
    (by simp [Nondecreasing, IpEvent.time]) ⟨{
      ip := (ipv4Key [10, 0, 0, 1]), used := true, lastConn := 11, lastRejected := 11, count := 2, blocked := true },
      by decide, rfl, rfl, rfl, rfl⟩ (by decide)
  revert this
  decide

end BoatRudder.WebServer
