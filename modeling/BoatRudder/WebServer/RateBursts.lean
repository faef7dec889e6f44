import Mathlib.Data.List.Chain
import BoatRudder.WebServer.IpTable

/-! # Who is never blocked

`too_many_connections` starts the count of an address again when the address was away for a window,
not when a window has passed. So what it limits are bursts: connections of which each comes less than
a window after the one before, however long they go on. **`neverBlocked_iff`** says that an address
without a burst over the limit is never blocked, whatever the other addresses do, and that an address
with one is, if the others leave it in the table. -/

namespace BoatRudder.WebServer

open Slot SlotTable

variable {table : List IpEntry} {run : List IpEvent} {now : ℤ}
variable (s : DdosSettings) (k : Bytes)

/-! ## Bursts -/

/-- Connections of which each comes less than a window after the one before. -/
def Burst (times : List ℤ) : Prop := times.IsChain fun a b => b - a < s.rateWindowSecs

/-- No burst is over the limit; a connection on its own never is. -/
def BurstsWithin (times : List ℤ) : Prop :=
  ∀ burst, burst <:+: times → Burst s burst → (burst.length : ℤ) ≤ max s.rateLimit 1

/-- The first of the connections have no longer bursts. -/
theorem BurstsWithin.left {s : DdosSettings} {h more : List ℤ} (hw : BurstsWithin s (h ++ more)) :
    BurstsWithin s h :=
  fun burst hinf => hw burst (hinf.trans (List.prefix_append h more).isInfix)

/-- A burst goes on. -/
theorem Burst.concat {s : DdosSettings} {burst : List ℤ} {last : ℤ} (hb : Burst s burst)
    (hlast : burst.getLast? = some last) (hsoon : now - last < s.rateWindowSecs) :
    Burst s (burst ++ [now]) := by
  refine List.isChain_append.mpr ⟨hb, List.isChain_singleton _, ?_⟩
  intro x hx y hy
  rw [hlast, Option.mem_some] at hx
  rw [List.head?_cons, Option.mem_some] at hy
  rwa [← hx, ← hy]

@[simp] theorem connectTimes_nil : connectTimes k [] = [] := rfl

theorem connectTimes_append (run more : List IpEvent) :
    connectTimes k (run ++ more) = connectTimes k run ++ connectTimes k more :=
  List.filterMap_append

@[simp] theorem connectTimes_connect (now : ℤ) :
    connectTimes k [.connect k now] = [now] := by
  simp [connectTimes]

theorem connectTimes_connect_of_ne {k' : Bytes} (h : k' ≠ k) (now : ℤ) :
    connectTimes k [.connect k' now] = [] := by
  simp [connectTimes, h]

@[simp] theorem connectTimes_cleanup (now : ℤ) : connectTimes k [.cleanup now] = [] := rfl

@[simp] theorem connectTimes_map (h : List ℤ) : connectTimes k (h.map (.connect k)) = h := by
  induction h with
  | nil => rfl
  | cons t h ih =>
    have hsplit : List.map (IpEvent.connect k) (t :: h) = [.connect k t] ++ h.map (.connect k) :=
      rfl
    rw [hsplit, connectTimes_append, ih, connectTimes_connect]
    rfl

/-! ## An address whose bursts stay within the limit -/

/-- The entry of an address is not blocked, and counts a burst that its connections end in. -/
def Quiet (run : List IpEvent) (table : List IpEntry) : Prop :=
  ∀ e ∈ table, e.used = true → e.ip = k → e.blocked = false ∧
    ∃ burst, burst <:+ connectTimes k run ∧ Burst s burst ∧ (burst.length : ℤ) = e.count ∧
      burst.getLast? = some e.lastConn

variable {s k}

/-- A first connection of a burst. -/
theorem burst_single (run : List IpEvent) (now : ℤ) :
    ∃ burst, burst <:+ connectTimes k (run ++ [.connect k now]) ∧ Burst s burst ∧
      (burst.length : ℤ) = 1 ∧ burst.getLast? = some now := by
  refine ⟨[now], ?_, List.isChain_singleton _, rfl, rfl⟩
  rw [connectTimes_append, connectTimes_connect]
  exact List.suffix_append _ _

/-- A connection of the address itself is let in. -/
theorem Quiet.connect_self (h : TableInv s run table) (hq : Quiet s k run table)
    (hw : BurstsWithin s (connectTimes k (run ++ [.connect k now]))) :
    Quiet s k (run ++ [.connect k now]) (tooManyConnections s now k table).1 ∧
      (tooManyConnections s now k table).2 = false := by
  obtain ⟨i, hi, hkey, heq⟩ | ⟨hnew, i, hi, heq, -⟩ :=
    tooManyConnections_cases s h.distinct h.ne_nil now k
  · obtain ⟨hused, hip⟩ := IpEntry.key_eq_some.mp hkey
    obtain ⟨hfree, burst, hsuffix, hburst, hlen, hlast⟩ := hq _ (List.getElem_mem hi) hused hip
    have hcarried : table[i].carried = table[i].count := by simp [IpEntry.carried, hfree]
    -- every other slot with the key would be the same slot
    have hothers : ∀ {x : IpEntry}, (x.blocked = false ∧ ∃ burst,
        burst <:+ connectTimes k (run ++ [.connect k now]) ∧ Burst s burst ∧
        (burst.length : ℤ) = x.count ∧ burst.getLast? = some x.lastConn) →
        Quiet s k (run ++ [.connect k now]) (table.set i x) := by
      intro x hx e he hu hp
      obtain rfl | ⟨j, hj, hji, rfl⟩ := eq_or_exists_of_mem_set he
      · exact hx
      · exact absurd (h.distinct.eq_of_key (IpEntry.key_eq_some.mpr ⟨hu, hp⟩) hkey) hji
    have hlonger : now - table[i].lastConn < s.rateWindowSecs →
        ∃ burst, burst <:+ connectTimes k (run ++ [.connect k now]) ∧ Burst s burst ∧
          (burst.length : ℤ) = table[i].count + 1 ∧ burst.getLast? = some now := by
      intro hsoon
      refine ⟨burst ++ [now], ?_, hburst.concat hlast hsoon, by simp [hlen], by simp⟩
      rw [connectTimes_append, connectTimes_connect]
      obtain ⟨pre, hpre⟩ := hsuffix
      exact ⟨pre, by rw [← hpre, List.append_assoc]⟩
    rw [heq]
    obtain ⟨hblocked, -⟩ | ⟨hsoon, hover, -⟩ | ⟨hsoon, -, hc⟩ | ⟨-, hc⟩ :=
      table[i].connect_cases s now
    · rw [hfree] at hblocked
      cases hblocked
    · -- one too many: the burst with this connection would be over the limit
      exfalso
      obtain ⟨burst', hsuffix', hburst', hlen', -⟩ := hlonger hsoon
      have hle := hw burst' hsuffix'.isInfix hburst'
      have hpos : 0 < burst.length := by
        rw [List.length_pos_iff]
        rintro rfl
        cases hlast
      omega
    · rw [hc]
      refine ⟨hothers ⟨rfl, ?_⟩, rfl⟩
      simpa [hcarried] using hlonger hsoon
    · rw [hc]
      exact ⟨hothers ⟨rfl, by simpa using burst_single run now⟩, rfl⟩
  · rw [heq]
    refine ⟨?_, rfl⟩
    intro e he hu hp
    rcases List.mem_or_eq_of_mem_set he with he | rfl
    · exact absurd (IpEntry.key_eq_some.mpr ⟨hu, hp⟩) (hnew e he)
    · exact ⟨rfl, burst_single run now⟩

/-- A connection of another address leaves the entry as it is, or evicts it. -/
theorem Quiet.connect_other (h : TableInv s run table)
    (hq : Quiet s k run table) {k' : Bytes} (hne : k' ≠ k) (now : ℤ) :
    Quiet s k (run ++ [.connect k' now]) (tooManyConnections s now k' table).1 := by
  have htimes : connectTimes k (run ++ [.connect k' now]) = connectTimes k run := by
    rw [connectTimes_append, connectTimes_connect_of_ne k hne, List.append_nil]
  intro e he hu hp
  rw [htimes]
  obtain ⟨i, hi, hkey, heq⟩ | ⟨-, i, hi, heq, -⟩ :=
    tooManyConnections_cases s h.distinct h.ne_nil now k'
  · rw [heq] at he
    rcases List.mem_or_eq_of_mem_set he with he | rfl
    · exact hq e he hu hp
    · rw [IpEntry.ip_connect] at hp
      exact absurd ((IpEntry.key_eq_some.mp hkey).2.symm.trans hp) hne
  · rw [heq] at he
    rcases List.mem_or_eq_of_mem_set he with he | rfl
    · exact hq e he hu hp
    · exact absurd hp hne

/-- A pass of the cleanup thread leaves the entry as it is, or frees it. -/
theorem Quiet.cleanup (hq : Quiet s k run table)
    (now : ℤ) : Quiet s k (run ++ [.cleanup now]) (table.map (IpEntry.cleanup s now)) := by
  intro e' he' hu hp
  obtain ⟨e, he, rfl⟩ := List.mem_map.mp he'
  rw [connectTimes_append, connectTimes_cleanup, List.append_nil]
  obtain heq | ⟨-, -, heq⟩ | ⟨-, heq⟩ := IpEntry.cleanup_cases s now e <;> rw [heq] at hu hp ⊢
  · exact hq e he hu hp
  · exact ⟨rfl, (hq e he hu hp).2⟩
  · cases hu

/-- **An address whose bursts stay within the limit** is let in at every connection of every run,
and its entry is never blocked. -/
theorem quiet_after (run : List IpEvent) (hw : BurstsWithin s (connectTimes k run)) :
    Quiet s k run ((ipTable s).after run) ∧
      ∀ t, (IpEvent.connect k t, true) ∉ (ipTable s).trace run := by
  induction run using List.reverseRecOn with
  | nil =>
    refine ⟨fun e he hu => ?_, by simp⟩
    obtain rfl := List.eq_of_mem_replicate he
    cases hu
  | append_singleton run e ih =>
    have hinv := tableInv_after s run
    obtain ⟨hq, hlet⟩ := ih (by rw [connectTimes_append] at hw; exact hw.left)
    rw [Machine.after_concat, Machine.trace_concat]
    have hanswer : ∀ {ans : Bool}, (∀ t, e = .connect k t → ans = false) →
        ∀ t, (IpEvent.connect k t, true) ∉ (ipTable s).trace run ++ [(e, ans)] := by
      intro ans hans t hmem
      rcases List.mem_append.mp hmem with hmem | hmem
      · exact hlet t hmem
      · have hlast := List.mem_singleton.mp hmem
        rw [Prod.mk.injEq] at hlast
        rw [hans t hlast.1.symm] at hlast
        cases hlast.2
    cases e with
    | connect k' now =>
      by_cases hk : k' = k
      · subst hk
        obtain ⟨hq', hfalse⟩ := hq.connect_self hinv hw
        exact ⟨hq', hanswer fun _ _ => hfalse⟩
      · refine ⟨hq.connect_other hinv hk now, hanswer fun t ht => ?_⟩
        injection ht with hkk
        exact absurd hkk hk
    | cleanup now => exact ⟨hq.cleanup now, hanswer fun t ht => by cases ht⟩

/-! ## An address with a burst over the limit -/

/-- A connection that is let in is counted, and if it comes soon after the one before, its count is
within the limit. -/
theorem TableInv.counted (h : TableInv s run table)
    (hlet : (tooManyConnections s now k table).2 = false) :
    ∃ e' ∈ (tooManyConnections s now k table).1, e'.used = true ∧ e'.ip = k ∧
      e'.blocked = false ∧ e'.lastConn = now ∧ 1 ≤ e'.count ∧
      ∀ e ∈ table, e.used = true → e.ip = k → e.blocked = false →
        now - e.lastConn < s.rateWindowSecs → e'.count = e.count + 1 ∧ e'.count ≤ s.rateLimit := by
  obtain ⟨i, hi, hkey, heq⟩ | ⟨hnew, i, hi, heq, -⟩ :=
    tooManyConnections_cases s h.distinct h.ne_nil now k
  · obtain ⟨hused, hip⟩ := IpEntry.key_eq_some.mp hkey
    rw [heq] at hlet ⊢
    have hcarried := IpEntry.carried_nonneg (h.count_nonneg _ (List.getElem_mem hi))
    have honly : ∀ e ∈ table, e.used = true → e.ip = k → e = table[i] := by
      intro e he hu hp
      obtain ⟨j, hj, rfl⟩ := List.getElem_of_mem he
      obtain rfl := h.distinct.eq_of_key hkey (IpEntry.key_eq_some.mpr ⟨hu, hp⟩)
      rfl
    refine ⟨(table[i].connect s now).1, List.mem_set hi _, by rw [IpEntry.used_connect, hused],
      by rw [IpEntry.ip_connect, hip], ?_⟩
    obtain ⟨-, -, hc⟩ | ⟨-, -, hc⟩ | ⟨hsoon, hwithin, hc⟩ | ⟨hlate, hc⟩ :=
      table[i].connect_cases s now
    · rw [hc] at hlet
      cases hlet
    · rw [hc] at hlet
      cases hlet
    · rw [hc]
      refine ⟨rfl, rfl, by show 1 ≤ table[i].carried + 1; omega, ?_⟩
      intro e he hu hp hfree _
      obtain rfl := honly e he hu hp
      have hsame : table[i].carried = table[i].count := by simp [IpEntry.carried, hfree]
      rw [hsame] at hwithin ⊢
      exact ⟨rfl, hwithin⟩
    · rw [hc]
      refine ⟨rfl, rfl, le_rfl, ?_⟩
      intro e he hu hp _ hsoon
      obtain rfl := honly e he hu hp
      omega
  · rw [heq]
    refine ⟨.fresh k now, List.mem_set hi _, rfl, rfl, rfl, rfl, le_rfl, ?_⟩
    intro e he hu hp
    exact absurd (IpEntry.key_eq_some.mpr ⟨hu, hp⟩) (hnew e he)

/-- A burst of which every connection is let in is counted in full, and is within the limit. -/
theorem burst_counted (run : List IpEvent) {burst : List ℤ} (hburst : Burst s burst)
    (hne : burst ≠ [])
    (hlet : ∀ t, (IpEvent.connect k t, true) ∉
      (ipTable s).trace (run ++ burst.map (.connect k))) :
    (burst.length : ℤ) ≤ max s.rateLimit 1 ∧
      ∃ e ∈ (ipTable s).after (run ++ burst.map (.connect k)), e.used = true ∧ e.ip = k ∧
        e.blocked = false ∧ burst.getLast? = some e.lastConn ∧ (burst.length : ℤ) ≤ e.count := by
  induction burst using List.reverseRecOn with
  | nil => exact absurd rfl hne
  | append_singleton burst now ih =>
    rw [List.map_append, List.map_singleton, ← List.append_assoc] at hlet ⊢
    rw [Machine.trace_concat] at hlet
    rw [Machine.after_concat]
    have hinv := tableInv_after s (run ++ burst.map (.connect k))
    have hnow : (tooManyConnections s now k
        ((ipTable s).after (run ++ burst.map (.connect k)))).2 = false := by
      rw [← Bool.not_eq_true]
      intro hrefused
      apply hlet now
      rw [← hrefused]
      exact List.mem_append_right _ (List.mem_singleton.mpr rfl)
    obtain ⟨e', he', hused, hip, hfree, hlast, hone, hmore⟩ := hinv.counted hnow
    have hentry : ∀ {P : Prop}, P ∧ ((burst ++ [now]).length : ℤ) ≤ e'.count → P ∧
        ∃ e ∈ ((ipTable s).step ((ipTable s).after (run ++ burst.map (.connect k)))
          (.connect k now)).1, e.used = true ∧ e.ip = k ∧ e.blocked = false ∧
          (burst ++ [now]).getLast? = some e.lastConn ∧
          ((burst ++ [now]).length : ℤ) ≤ e.count :=
      fun h => ⟨h.1, e', he', hused, hip, hfree, by simp [hlast], h.2⟩
    apply hentry
    by_cases hburst0 : burst = []
    · subst hburst0
      exact ⟨by simp, by simpa using hone⟩
    · obtain ⟨hpre, -, hlink⟩ := List.isChain_append.mp hburst
      obtain ⟨-, e, he, hu, hp, hf, hlast', hlen⟩ := ih hpre hburst0
        fun t ht => hlet t (List.mem_append_left _ ht)
      have hsoon : now - e.lastConn < s.rateWindowSecs :=
        hlink _ (by rw [hlast']; rfl) now (by simp)
      obtain ⟨hcount, hwithin⟩ := hmore e he hu hp hf hsoon
      rw [List.length_append, List.length_singleton]
      exact ⟨by omega, by omega⟩

/-! ## The limit -/

variable (s k)

/-- An address that connects at the given times is never reported as over the limit and never
blocked, whatever the other addresses do and whenever the cleanup thread runs. -/
def NeverBlocked (h : List ℤ) : Prop :=
  ∀ run, Nondecreasing run → connectTimes k run = h →
    (∀ t, (IpEvent.connect k t, true) ∉ (ipTable s).trace run) ∧
    ∀ e ∈ (ipTable s).after run, e.used = true → e.ip = k → e.blocked = false

/-- **Who is never blocked**: the addresses whose bursts all stay within the limit. -/
theorem neverBlocked_iff {h : List ℤ} (hclock : h.Pairwise (· ≤ ·)) :
    NeverBlocked s k h ↔ ∀ burst, burst <:+: h →
      (burst.IsChain fun a b => b - a < s.rateWindowSecs) →
      (burst.length : ℤ) ≤ max s.rateLimit 1 := by
  constructor
  · -- the run in which nobody else connects
    intro hnever burst hinf hburst
    obtain ⟨pre, post, rfl⟩ := hinf
    by_cases hne : burst = []
    · subst hne
      exact le_trans (by simp) (le_max_right _ _)
    have hrun : Nondecreasing ((pre ++ burst).map (.connect k)) := by
      rw [Nondecreasing, List.pairwise_map]
      exact (List.pairwise_append.mp hclock).1
    have hall : Nondecreasing ((pre ++ burst ++ post).map (.connect k)) := by
      rw [Nondecreasing, List.pairwise_map]
      exact hclock
    obtain ⟨hlet, -⟩ := hnever _ hall (connectTimes_map k _)
    rw [List.map_append, List.map_append] at hlet
    refine (burst_counted (k := k) (pre.map (.connect k)) hburst hne fun t ht => hlet t ?_).1
    rw [Machine.trace, Machine.traceFrom_append]
    exact List.mem_append_left _ ht
  · intro hw run _ htimes
    obtain ⟨hq, hlet⟩ := quiet_after run (by rw [htimes]; exact hw)
    exact ⟨hlet, fun e he hu hp => (hq e he hu hp).1⟩

/-- Three connections, of which only the last two come soon after one another. -/
theorem neverBlocked_pause :
    NeverBlocked { rateLimit := 2 } (ipv4Key [10, 0, 0, 1]) [10, 20, 23] := by
  refine (neverBlocked_iff _ _ (by decide)).mpr fun burst hinf hburst => ?_
  have hle : burst.length ≤ 3 := hinf.length_le
  by_cases h3 : burst.length = 3
  · obtain rfl := hinf.eq_of_length h3
    revert hburst
    decide
  · show (burst.length : ℤ) ≤ 2
    omega

/-- An address connects at most as often as the limit says in every interval of a window. -/
def SlowEnough (h : List ℤ) : Prop :=
  ∀ x, ((h.filter fun t => x ≤ t ∧ t < x + s.rateWindowSecs).length : ℤ) ≤ s.rateLimit

/-- An address that connects every four seconds has at most two connections in five seconds, and is
blocked by a limit of two at its third connection. -/
theorem steady_not_neverBlocked : ¬ ∀ (s : DdosSettings) (k : Bytes) (h : List ℤ),
    h.Pairwise (· ≤ ·) → SlowEnough s h → NeverBlocked s k h := by
  intro hclaim
  have hslow : SlowEnough { rateLimit := 2 } [10, 14, 18] := by
    intro x
    simp only [List.filter_cons, List.filter_nil, decide_eq_true_eq]
    split_ifs <;> simp
    all_goals omega
  obtain ⟨hlet, -⟩ := hclaim { rateLimit := 2 } (ipv4Key [10, 0, 0, 1]) [10, 14, 18] (by decide)
    hslow ([10, 14, 18].map (.connect (ipv4Key [10, 0, 0, 1])))
    (by simp [Nondecreasing, IpEvent.time]) (connectTimes_map _ _)
  exact hlet 18 (by decide +kernel)

end BoatRudder.WebServer
