import BoatRudder.Text.Numbers
import BoatRudder.WebServer.InetAddress

/-! # Addresses that are written are read back

`inet_pton` reads what `inet_ntop` writes as the address it was written for
(**`inetPton4_inetNtop4`**, **`inetPton6_inetNtop6`**), and accepts nothing but digits, colons and
dots. -/

namespace BoatRudder.WebServer

/-! ## IPv4 -/

variable {a out s : Bytes} {ws : List ℕ} {n w : ℕ}

theorem octet_decimal (b : UInt8) : octet (decimal b.toNat) = some b := by
  have hall : ∀ n < 256, octet (decimal n) = some (UInt8.ofNat n) := by decide +kernel
  have hb := hall b.toNat b.toNat_lt
  rwa [UInt8.ofNat_toNat] at hb

theorem dot_notMem_decimal (n : ℕ) : ∀ c ∈ decimal n, (c == 46) = false := by
  intro c hc
  refine beq_eq_false_iff_ne.mpr ?_
  rintro rfl
  cases isDigit_of_mem_decimal hc

/-- An address of four bytes, written out. -/
theorem inetNtop4_eq (a b c d : UInt8) :
    inetNtop4 [a, b, c, d] = decimal a.toNat ++ 46 :: (decimal b.toNat ++ 46 :: (decimal c.toNat ++
      46 :: decimal d.toNat)) := by
  simp [inetNtop4, lit]

/-- **An IPv4 address is read back.** -/
theorem inetPton4_inetNtop4 (h : a.length = 4) : inetPton4 (inetNtop4 a) = some a := by
  obtain ⟨w, x, y, z, rfl⟩ : ∃ w x y z, a = [w, x, y, z] := by
    match a, h with
    | [w, x, y, z], _ => exact ⟨w, x, y, z, rfl⟩
  have hsplit : (inetNtop4 [w, x, y, z]).splitOnP (· == 46) =
      [decimal w.toNat, decimal x.toNat, decimal y.toNat, decimal z.toNat] := by
    rw [inetNtop4_eq, List.splitOnP_append_cons _ _ rfl, List.splitOnP_append_cons _ _ rfl,
      List.splitOnP_append_cons _ _ rfl, List.splitOnP_eq_singleton (dot_notMem_decimal _),
      List.splitOnP_eq_singleton (dot_notMem_decimal _), List.splitOnP_eq_singleton (dot_notMem_decimal _),
      List.splitOnP_eq_singleton (dot_notMem_decimal _)]
    rfl
  rw [inetPton4, hsplit]
  simp [octet_decimal]

/-! ## IPv6: groups -/

/-- A group that is written and read. -/
theorem digitsValue_hex (n : ℕ) : digitsValue 16 0 (hex n) = n := by
  have hdigit : ∀ d < 16, (digitValue (UInt8.ofNat d.digitChar.toNat)).getD 0 = d := by decide
  induction n using Nat.strongRecOn with
  | _ n ih =>
    rcases Nat.lt_or_ge n 16 with hlt | hge
    · rw [hex, Nat.toDigits_of_lt_base hlt]
      simp [digitsValue, hdigit n hlt]
    · have hstep : hex n = hex (n / 16) ++ [UInt8.ofNat (n % 16).digitChar.toNat] := by
        rw [hex, Nat.toDigits_of_base_le (by decide) hge, List.map_append]
        rfl
      have hrec := ih (n / 16) (by omega)
      rw [hstep, digitsValue, List.foldl_append]
      rw [digitsValue] at hrec
      rw [hrec]
      simp only [List.foldl_cons, List.foldl_nil, hdigit (n % 16) (by omega)]
      omega

theorem isXDigit_of_mem_hex {c : UInt8} (h : c ∈ hex n) : isXDigit c = true :=
  isXDigit_of_mem_hexNumber h

theorem length_hex (h : n < 65536) : 0 < (hex n).length ∧ (hex n).length ≤ 4 := by
  rw [hex, List.length_map]
  refine ⟨List.length_pos_iff.mpr (Nat.toDigits_ne_nil), ?_⟩
  exact (Nat.length_toDigits_le_iff (by decide) (by decide)).mpr h

/-- Groups, with a colon before each but the first. -/
theorem joinGroups_cons (w : ℕ) (ws : List ℕ) : joinGroups (w :: ws) = hex w ++ ws.flatMap fun v => 58 :: hex v := by
  induction ws generalizing w with
  | nil => simp [joinGroups]
  | cons v ws ih =>
    have hstep : joinGroups (w :: v :: ws) = hex w ++ 58 :: joinGroups (v :: ws) := by
      simp [joinGroups, lit]
    rw [hstep, ih v]
    rfl

/-! ## IPv6: reading -/

/-- **Digits are read** into the group they begin. -/
theorem pton6Loop_digits {l : Bytes} (hl : ∀ c ∈ l, isXDigit c = true) (s : Bytes) (st : Pton6)
    (hfits : st.digits + l.length ≤ 4) :
    pton6Loop st (l ++ s) =
      pton6Loop { st with digits := st.digits + l.length, val := digitsValue 16 st.val l } s := by
  induction l generalizing st with
  | nil => rfl
  | cons c l ih =>
    rw [List.length_cons] at hfits
    rw [List.cons_append, pton6Loop, if_pos (hl c List.mem_cons_self), if_neg (by omega),
      ih (fun d hd => hl d (List.mem_cons_of_mem _ hd)) _ (by show st.digits + 1 + l.length ≤ 4; omega)]
    congr 2
    simp only [List.length_cons]
    omega

/-- A group is read. -/
theorem pton6Loop_hex (hw : w < 65536) (out : Bytes) (colon : Option ℕ) (token s : Bytes) :
    pton6Loop ⟨out, colon, 0, 0, token⟩ (hex w ++ s) = pton6Loop ⟨out, colon, (hex w).length, w, token⟩ s := by
  obtain ⟨-, hlength⟩ := length_hex hw
  rw [pton6Loop_digits (fun c hc => isXDigit_of_mem_hex hc) s _ (by simpa using hlength), digitsValue_hex,
    Nat.zero_add]

/-- The colon behind a group ends it. -/
theorem pton6Loop_colon (hout : out.length + 2 ≤ 16) (colon : Option ℕ) {digits : ℕ}
    (hdigits : 0 < digits) (w : ℕ) (token : Bytes) (hs : s ≠ []) :
    pton6Loop ⟨out, colon, digits, w, token⟩ (58 :: s) = pton6Loop ⟨out ++ groupBytes w, colon, 0, 0, s⟩ s := by
  have hcolon : isXDigit 58 = false := by decide
  rw [pton6Loop, hcolon, if_neg Bool.false_ne_true, if_pos rfl]
  dsimp only
  rw [if_neg (by omega), if_neg (not_or.mpr ⟨hs, by omega⟩)]

/-- The bytes of groups. -/
def groupsBytes (ws : List ℕ) : Bytes := ws.flatMap groupBytes

theorem length_groupsBytes (ws : List ℕ) : (groupsBytes ws).length = 2 * ws.length := by
  induction ws with
  | nil => rfl
  | cons w ws ih =>
    rw [groupsBytes, List.flatMap_cons, List.length_append, ← groupsBytes, ih, List.length_cons]
    show 2 + _ = _
    omega

/-- **Groups are read** up to the last, which is not ended yet. -/
theorem pton6Loop_groups (hw : w < 65536) (hws : ∀ v ∈ ws, v < 65536)
    (hout : out.length + 2 * ws.length ≤ 16) (colon : Option ℕ) (token s : Bytes) :
    ∃ init last token', w :: ws = init ++ [last] ∧
      pton6Loop ⟨out, colon, 0, 0, token⟩ (joinGroups (w :: ws) ++ s) =
        pton6Loop ⟨out ++ groupsBytes init, colon, (hex last).length, last, token'⟩ s := by
  induction ws generalizing w out token with
  | nil =>
    refine ⟨[], w, token, rfl, ?_⟩
    rw [joinGroups_cons, List.flatMap_nil, List.append_nil, pton6Loop_hex hw]
    simp [groupsBytes]
  | cons v ws ih =>
    rw [List.length_cons] at hout
    have hlength : (out ++ groupBytes w).length = out.length + 2 := by
      rw [List.length_append]
      rfl
    obtain ⟨init, last, token', hsplit, hread⟩ :=
      ih (hws v List.mem_cons_self) (fun u hu => hws u (List.mem_cons_of_mem _ hu))
        (by omega : (out ++ groupBytes w).length + 2 * ws.length ≤ 16) (joinGroups (v :: ws) ++ s)
    refine ⟨w :: init, last, token', by rw [hsplit]; rfl, ?_⟩
    have hjoin : joinGroups (w :: v :: ws) ++ s = hex w ++ (58 :: (joinGroups (v :: ws) ++ s)) := by
      rw [joinGroups_cons, joinGroups_cons]
      simp
    have hne : joinGroups (v :: ws) ++ s ≠ [] := by
      rw [joinGroups_cons]
      have := (length_hex (hws v List.mem_cons_self)).1
      intro h
      rw [List.append_assoc, List.append_eq_nil_iff] at h
      rw [h.1] at this
      cases this
    rw [hjoin, pton6Loop_hex hw, pton6Loop_colon (by omega) colon (length_hex hw).1 w token hne, hread,
      List.append_assoc]
    rfl

/-- The end of a text whose last group is not ended. -/
theorem pton6Loop_nil_group {colon : Option ℕ} {digits : ℕ} {token : Bytes}
    (hdigits : 0 < digits) (hout : out.length + 2 ≤ 16) :
    pton6Loop ⟨out, colon, digits, w, token⟩ [] = pton6Loop ⟨out ++ groupBytes w, colon, 0, 0, token⟩ [] := by
  have hfits : ¬ 16 < out.length + 2 := by omega
  simp [pton6Loop, Pton6.finish, hdigits, hfits]

/-- What is read behind `::` to the end. -/
theorem pton6Loop_tail (hws : ∀ v ∈ ws, v < 65536)
    (hout : out.length + 2 * ws.length < 16) (token : Bytes) :
    pton6Loop ⟨out, some out.length, 0, 0, token⟩ (joinGroups ws) =
      some (out ++ List.replicate (16 - (out.length + 2 * ws.length)) 0 ++ groupsBytes ws) := by
  have hfinish (bytes token : Bytes) (hbytes : out.length + bytes.length < 16) :
      pton6Loop ⟨out ++ bytes, some out.length, 0, 0, token⟩ [] =
        some (out ++ List.replicate (16 - (out.length + bytes.length)) 0 ++ bytes) := by
    rw [pton6Loop, Pton6.finish]
    simp [show ¬ out.length + bytes.length = 16 by omega]
  cases ws with
  | nil =>
    have := hfinish [] token (by simpa using hout)
    simpa [joinGroups, groupsBytes] using this
  | cons w ws =>
    rw [List.length_cons] at hout
    have hout' : out.length + 2 * ws.length ≤ 16 := by omega
    obtain ⟨init, last, token', hsplit, hread⟩ :=
      pton6Loop_groups (hws w List.mem_cons_self) (fun v hv => hws v (List.mem_cons_of_mem _ hv))
        hout' (some out.length) token []
    have hlast : last < 65536 := hws last (by rw [hsplit]; simp)
    have hbytes : groupsBytes init ++ groupBytes last = groupsBytes (w :: ws) := by
      rw [hsplit, groupsBytes, groupsBytes, List.flatMap_append]
      simp
    have hlen : (groupsBytes (w :: ws)).length = 2 * (ws.length + 1) := length_groupsBytes (w :: ws)
    have hinit : (groupsBytes init).length + 2 = (groupsBytes (w :: ws)).length := by
      rw [← hbytes, List.length_append]
      rfl
    rw [List.append_nil] at hread
    rw [hread, pton6Loop_nil_group (length_hex hlast).1 (by rw [List.length_append]; omega),
      List.append_assoc, hbytes, hfinish _ _ (by omega), hlen]
    rfl

/-! ## IPv6: the groups of an address -/

theorem groupBytes_eq (a b : UInt8) : groupBytes (a.toNat * 256 + b.toNat) = [a, b] := by
  have ha := a.toNat_lt
  have hb := b.toNat_lt
  have hhigh : UInt8.ofNat ((a.toNat * 256 + b.toNat) >>> 8) = a := by
    apply UInt8.toNat_inj.mp
    simp only [UInt8.toNat_ofNat', Nat.shiftRight_eq_div_pow]
    omega
  have hlow : UInt8.ofNat (a.toNat * 256 + b.toNat) = b := by
    apply UInt8.toNat_inj.mp
    simp only [UInt8.toNat_ofNat']
    omega
  rw [groupBytes, hhigh, hlow]

/-- The groups of an address, and each of them. -/
theorem of_groups (h : a.length = 2 * n) :
    (groups a).length = n ∧ (∀ w ∈ groups a, w < 65536) ∧ groupsBytes (groups a) = a := by
  induction n generalizing a with
  | zero =>
    obtain rfl := List.length_eq_zero_iff.mp h
    exact ⟨rfl, nofun, rfl⟩
  | succ n ih =>
    match a, h with
    | x :: y :: a, h =>
      obtain ⟨hlength, hall, hbytes⟩ := ih (a := a) (by simp only [List.length_cons] at h; omega)
      refine ⟨by rw [groups, List.length_cons, hlength], ?_, ?_⟩
      · intro w hw
        rcases List.mem_cons.mp hw with rfl | hw
        · have hx := x.toNat_lt
          have hy := y.toNat_lt
          omega
        · exact hall w hw
      · rw [groups, groupsBytes, List.flatMap_cons, groupBytes_eq, ← groupsBytes, hbytes]
        rfl

/-- A run of zeros in groups. -/
def IsZeroRun (ws : List ℕ) (r : ℕ × ℕ) : Prop := r.1 + r.2 ≤ ws.length ∧ (ws.drop r.1).take r.2 = List.replicate r.2 0

/-- **The runs that are found** are runs of zeros. -/
theorem isZeroRun_of_mem (pre : List ℕ) {r : ℕ × ℕ} (h : r ∈ zeroRuns pre.length ws) :
    IsZeroRun (pre ++ ws) r := by
  induction ws generalizing pre r with
  | nil => cases h
  | cons w ws ih =>
    have hpre : (pre ++ [w]).length = pre.length + 1 := List.length_append
    have hassoc : pre ++ [w] ++ ws = pre ++ w :: ws := by simp
    have hlater : ∀ r ∈ zeroRuns (pre.length + 1) ws, IsZeroRun (pre ++ w :: ws) r := by
      intro r hr
      rw [← hassoc]
      exact ih (pre ++ [w]) (by rwa [hpre])
    rw [zeroRuns] at h
    by_cases hw : w ≠ 0
    · rw [if_pos hw] at h
      exact hlater r h
    · rw [if_neg hw] at h
      obtain rfl := not_not.mp hw
      have hdrop : (pre ++ 0 :: ws).drop pre.length = 0 :: (pre ++ 0 :: ws).drop (pre.length + 1) := by
        rw [← hpre, ← hassoc, List.drop_left, hassoc, List.drop_left]
      have hone : IsZeroRun (pre ++ 0 :: ws) (pre.length, 1) := by
        refine ⟨?_, ?_⟩
        · show pre.length + 1 ≤ (pre ++ 0 :: ws).length
          rw [List.length_append, List.length_cons]
          omega
        · show ((pre ++ 0 :: ws).drop pre.length).take 1 = [0]
          rw [hdrop]
          rfl
      cases hruns : zeroRuns (pre.length + 1) ws with
      | nil =>
        rw [hruns] at h
        obtain rfl := List.mem_singleton.mp h
        exact hone
      | cons first rest =>
        obtain ⟨j, n⟩ := first
        rw [hruns] at h hlater
        dsimp only at h
        split_ifs at h with hj
        · subst hj
          rcases List.mem_cons.mp h with rfl | h
          · obtain ⟨hlength, hzeros⟩ := hlater _ List.mem_cons_self
            dsimp only at hlength hzeros
            refine ⟨?_, ?_⟩
            · show pre.length + (n + 1) ≤ _
              omega
            · show ((pre ++ 0 :: ws).drop pre.length).take (n + 1) = _
              rw [hdrop, List.take_succ_cons, hzeros]
              rfl
          · exact hlater r (List.mem_cons_of_mem _ h)
        · rcases List.mem_cons.mp h with rfl | h
          · exact hone
          · exact hlater r h

/-- The run that is left out is one of zeros. -/
theorem isZeroRun_of_bestRun {r : ℕ × ℕ} (h : bestRun ws = some r) : IsZeroRun ws r ∧ 2 ≤ r.2 := by
  have hruns : ∀ r ∈ zeroRuns 0 ws, IsZeroRun ws r := fun r hr => isZeroRun_of_mem [] hr
  rw [bestRun] at h
  generalize zeroRuns 0 ws = runs at h hruns
  have hnone : ∀ r, (none : Option (ℕ × ℕ)) = some r → IsZeroRun ws r ∧ 2 ≤ r.2 := nofun
  generalize (none : Option (ℕ × ℕ)) = best at h hnone
  induction runs generalizing best with
  | nil => exact hnone r h
  | cons first runs ih =>
    refine ih (fun r hr => hruns r (List.mem_cons_of_mem _ hr)) _ h ?_
    have hfirst := hruns first List.mem_cons_self
    intro r hr
    dsimp only at hr
    split_ifs at hr with hshort
    · exact hnone r hr
    · have hlong : 2 ≤ first.2 := by omega
      cases best with
      | none =>
        obtain rfl := Option.some.inj hr
        exact ⟨hfirst, hlong⟩
      | some b =>
        dsimp only at hr
        split_ifs at hr
        · obtain rfl := Option.some.inj hr
          exact ⟨hfirst, hlong⟩
        · exact hnone r hr

/-! ## IPv6: the round trip -/

/-- A text that begins with a group is read from its first digit. -/
theorem inetPton6_of_group (hw : w < 65536) (s : Bytes) :
    inetPton6 (hex w ++ s) = pton6Loop ⟨[], none, 0, 0, hex w ++ s⟩ (hex w ++ s) := by
  cases hhex : hex w with
  | nil =>
    have := (length_hex hw).1
    rw [hhex] at this
    cases this
  | cons c l =>
    have hc : c ≠ 58 := by
      rintro rfl
      cases isXDigit_of_mem_hex (n := w) (by rw [hhex]; exact List.mem_cons_self)
    rw [List.cons_append, inetPton6.eq_3]
    · exact List.cons_ne_nil _ _
    · exact fun t h => hc (List.cons.inj h).1

/-- The second of two colons is where zeros are left out. -/
theorem pton6Loop_colons (out token s : Bytes) :
    pton6Loop ⟨out, none, 0, 0, token⟩ (58 :: s) = pton6Loop ⟨out, some out.length, 0, 0, s⟩ s := by
  have hcolon : isXDigit 58 = false := by decide
  rw [pton6Loop, hcolon, if_neg Bool.false_ne_true, if_pos rfl]
  rfl

/-- A text that begins with `::` is read from what follows. -/
theorem inetPton6_of_colons (s : Bytes) : inetPton6 (58 :: 58 :: s) = pton6Loop ⟨[], some 0, 0, 0, s⟩ s := by
  rw [inetPton6.eq_2, List.head?_cons, if_pos rfl]
  exact pton6Loop_colons [] _ s

/-- A dotted end is read, behind the zeros that are left out. -/
theorem pton6Loop_dotted {v : Bytes} (hv : v.length = 4) (hout : out.length < 12) :
    pton6Loop ⟨out, some 0, 0, 0, inetNtop4 v⟩ (inetNtop4 v) =
      some (List.replicate (12 - out.length) 0 ++ (out ++ v)) := by
  obtain ⟨a, b, c, d, rfl⟩ : ∃ a b c d, v = [a, b, c, d] := by
    match v, hv with
    | [a, b, c, d], _ => exact ⟨a, b, c, d, rfl⟩
  have hdigits : ∀ e ∈ decimal a.toNat, isXDigit e = true := by
    intro e he
    rw [isXDigit, isDigit_of_mem_decimal he]
    rfl
  have hlength : (decimal a.toNat).length ≤ 3 :=
    (length_decimal_le_iff (by decide)).mpr (by have := a.toNat_lt; omega)
  have hdot : isXDigit 46 = false := by decide
  -- the number before the first dot is read as a group, and then again
  have hread (token s : Bytes) (htoken : inetPton4 token = some [a, b, c, d]) :
      pton6Loop ⟨out, some 0, 0, 0, token⟩ (decimal a.toNat ++ 46 :: s) =
        some (List.replicate (12 - out.length) 0 ++ (out ++ [a, b, c, d])) := by
    rw [pton6Loop_digits hdigits _ _ (by show 0 + _ ≤ 4; omega), pton6Loop, hdot, if_neg Bool.false_ne_true,
      if_neg (by decide), if_pos ⟨rfl, by show out.length + 4 ≤ 16; omega⟩]
    dsimp only
    rw [htoken]
    have hne : ¬ out.length = 12 := by omega
    have hzeros : 16 - (out.length + 4) = 12 - out.length := by omega
    simp [Pton6.finish, hne, hzeros]
  have := hread (inetNtop4 [a, b, c, d]) (decimal b.toNat ++ 46 :: (decimal c.toNat ++ 46 :: decimal d.toNat))
    (inetPton4_inetNtop4 hv)
  rwa [← inetNtop4_eq] at this

/-- Groups around a run of zeros. -/
theorem IsZeroRun.split {i : ℕ} (h : IsZeroRun ws (i, n)) :
    ws = ws.take i ++ List.replicate n 0 ++ ws.drop (i + n) := by
  obtain ⟨-, hzeros⟩ := h
  dsimp only at hzeros
  rw [← hzeros, List.append_assoc, ← List.drop_drop, List.take_append_drop, List.take_append_drop]

/-- The zeros that are left out. -/
theorem groupsBytes_replicate (n : ℕ) : groupsBytes (List.replicate n 0) = List.replicate (2 * n) 0 := by
  induction n with
  | zero => rfl
  | succ n ih =>
    rw [List.replicate_succ, groupsBytes, List.flatMap_cons, ← groupsBytes, ih]
    rfl

/-- **An address with `::`** is read back. -/
theorem inetPton6_colons (hlength : ws.length = 8) (hall : ∀ w ∈ ws, w < 65536) {i : ℕ}
    (hrun : IsZeroRun ws (i, n)) (hn : 2 ≤ n) :
    inetPton6 (joinGroups (ws.take i) ++ lit "::" ++ joinGroups (ws.drop (i + n))) = some (groupsBytes ws) := by
  have hend := hrun.1
  dsimp only at hend
  have hbefore : (ws.take i).length = i := by
    rw [List.length_take]
    omega
  have hbehind : (ws.drop (i + n)).length = 8 - (i + n) := by rw [List.length_drop, hlength]
  have hbytes : groupsBytes ws = groupsBytes (ws.take i) ++ List.replicate (2 * n) 0 ++ groupsBytes (ws.drop (i + n)) := by
    conv_lhs => rw [hrun.split]
    rw [groupsBytes, List.flatMap_append, List.flatMap_append, ← groupsBytes, ← groupsBytes, ← groupsBytes,
      groupsBytes_replicate]
  have htail (out : Bytes) (hout : out = groupsBytes (ws.take i)) (token : Bytes) :
      pton6Loop ⟨out, some out.length, 0, 0, token⟩ (joinGroups (ws.drop (i + n))) = some (groupsBytes ws) := by
    have hlen : out.length = 2 * i := by rw [hout, length_groupsBytes, hbefore]
    rw [pton6Loop_tail (fun v hv => hall v (List.mem_of_mem_drop hv)) (by rw [hbehind]; omega), hbytes, hout]
    congr 4
    rw [hbehind, ← hout]
    omega
  cases htake : ws.take i with
  | nil =>
    show inetPton6 (58 :: 58 :: joinGroups (ws.drop (i + n))) = _
    rw [inetPton6_of_colons]
    exact htail [] (by rw [htake]; rfl) _
  | cons w us =>
    have hw : ∀ v ∈ w :: us, v < 65536 := fun v hv => hall v (List.mem_of_mem_take (htake ▸ hv))
    have hus : us.length + 1 = i := by
      rw [htake] at hbefore
      exact hbefore
    generalize htext : joinGroups (ws.drop (i + n)) = text at htail ⊢
    have hout : ([] : Bytes).length + 2 * us.length ≤ 16 := by
      rw [List.length_nil]
      omega
    obtain ⟨init, last, token, hsplit, hread⟩ :=
      pton6Loop_groups (hw w List.mem_cons_self) (fun v hv => hw v (List.mem_cons_of_mem _ hv)) hout none
        (joinGroups (w :: us) ++ 58 :: 58 :: text) (58 :: 58 :: text)
    have hlast : last < 65536 := hw last (by rw [hsplit]; simp)
    have hinit : init.length + 1 = us.length + 1 := by
      have := congrArg List.length hsplit
      simpa using this.symm
    have hbytes' : groupsBytes init ++ groupBytes last = groupsBytes (ws.take i) := by
      rw [htake, hsplit, groupsBytes, groupsBytes, List.flatMap_append]
      simp
    have hroom : (groupsBytes init).length + 2 ≤ 16 := by
      rw [length_groupsBytes]
      omega
    have hread' : pton6Loop ⟨[], none, 0, 0, joinGroups (w :: us) ++ 58 :: 58 :: text⟩
        (joinGroups (w :: us) ++ 58 :: 58 :: text) = some (groupsBytes ws) := by
      rw [hread, List.nil_append, pton6Loop_colon hroom none (length_hex hlast).1 last token (List.cons_ne_nil _ _),
        pton6Loop_colons]
      exact htail _ hbytes' _
    have hgroups : joinGroups (w :: us) ++ 58 :: 58 :: text =
        hex w ++ ((us.flatMap fun v => 58 :: hex v) ++ 58 :: 58 :: text) := by
      rw [joinGroups_cons, List.append_assoc]
    rw [show joinGroups (w :: us) ++ lit "::" ++ text = joinGroups (w :: us) ++ 58 :: 58 :: text by simp [lit],
      hgroups, inetPton6_of_group (hw w List.mem_cons_self), ← hgroups, hread']

/-- An address without `::` is read back. -/
theorem inetPton6_joinGroups (hlength : ws.length = 8) (hall : ∀ w ∈ ws, w < 65536) :
    inetPton6 (joinGroups ws) = some (groupsBytes ws) := by
  cases ws with
  | nil => cases hlength
  | cons w us =>
    have hus : us.length + 1 = 8 := hlength
    have hout : ([] : Bytes).length + 2 * us.length ≤ 16 := by
      rw [List.length_nil]
      omega
    obtain ⟨init, last, token, hsplit, hread⟩ :=
      pton6Loop_groups (hall w List.mem_cons_self) (fun v hv => hall v (List.mem_cons_of_mem _ hv)) hout none
        (joinGroups (w :: us)) []
    have hlast : last < 65536 := hall last (by rw [hsplit]; simp)
    have hinit : init.length + 1 = us.length + 1 := by
      have := congrArg List.length hsplit
      simpa using this.symm
    have hbytes : groupsBytes init ++ groupBytes last = groupsBytes (w :: us) := by
      rw [hsplit, groupsBytes, groupsBytes, List.flatMap_append]
      simp
    have hroom : (groupsBytes init).length + 2 ≤ 16 := by
      rw [length_groupsBytes]
      omega
    have hsixteen : (groupsBytes (w :: us)).length = 16 := by
      rw [length_groupsBytes, hlength]
    have hgroups : joinGroups (w :: us) = hex w ++ us.flatMap fun v => 58 :: hex v := joinGroups_cons w us
    rw [hgroups, inetPton6_of_group (hall w List.mem_cons_self), ← hgroups]
    rw [List.append_nil] at hread
    rw [hread, List.nil_append, pton6Loop_nil_group (length_hex hlast).1 hroom, hbytes, pton6Loop, Pton6.finish]
    simp [hsixteen]

/-- The bytes before and behind a run of zeros at the beginning. -/
theorem of_zeroRun_zero (hbytes : groupsBytes ws = a) (hrun : IsZeroRun ws (0, n)) :
    a = List.replicate (2 * n) 0 ++ groupsBytes (ws.drop n) := by
  rw [← hbytes]
  conv_lhs => rw [hrun.split]
  rw [List.take_zero, List.nil_append, Nat.zero_add, groupsBytes, List.flatMap_append, ← groupsBytes, ← groupsBytes,
    groupsBytes_replicate]

/-- **An IPv6 address is read back.** -/
theorem inetPton6_inetNtop6 (h : a.length = 16) : inetPton6 (inetNtop6 a) = some a := by
  obtain ⟨hlength, hall, hbytes⟩ := of_groups (n := 8) h
  have hdotted : (a.drop 12).length = 4 := by
    rw [List.length_drop]
    omega
  rw [inetNtop6]
  cases hbest : bestRun (groups a) with
  | none =>
    show inetPton6 (joinGroups (groups a)) = some a
    rw [inetPton6_joinGroups hlength hall, hbytes]
  | some r =>
    obtain ⟨i, n⟩ := r
    obtain ⟨hrun, hn⟩ := isZeroRun_of_bestRun hbest
    dsimp only at hn ⊢
    by_cases hv4 : i = 0 ∧ (n = 6 ∨ (n = 5 ∧ (groups a).getD 5 0 = 0xFFFF))
    · rw [if_pos hv4]
      obtain ⟨rfl, rfl | ⟨rfl, hffff⟩⟩ := hv4
      · have ha := of_zeroRun_zero hbytes hrun
        show inetPton6 (58 :: 58 :: inetNtop4 (a.drop 12)) = some a
        rw [inetPton6_of_colons, pton6Loop_dotted hdotted (by decide)]
        have hdrop : a.drop 12 = groupsBytes ((groups a).drop 6) := by
          conv_lhs => rw [ha]
          exact List.drop_left' (List.length_replicate)
        rw [hdrop]
        exact congrArg some ha.symm
      · have ha := of_zeroRun_zero hbytes hrun
        have hgroup : (groups a).drop 5 = 0xFFFF :: (groups a).drop 6 := by
          have h5 : 5 < (groups a).length := by omega
          rw [List.drop_eq_getElem_cons h5]
          rw [List.getD_eq_getElem?_getD, List.getElem?_eq_getElem h5, Option.getD_some] at hffff
          rw [hffff]
        rw [hgroup, groupsBytes, List.flatMap_cons, ← groupsBytes, ← List.append_assoc] at ha
        show inetPton6 (58 :: 58 :: (hex 0xFFFF ++ 58 :: inetNtop4 (a.drop 12))) = some a
        have hne : inetNtop4 (a.drop 12) ≠ [] := by
          intro hnil
          have hread := inetPton4_inetNtop4 hdotted
          rw [hnil] at hread
          cases hread
        rw [inetPton6_of_colons, pton6Loop_hex (by decide), pton6Loop_colon (by decide) (some 0) (by decide) _ _ hne,
          List.nil_append, pton6Loop_dotted hdotted (by decide)]
        have hdrop : a.drop 12 = groupsBytes ((groups a).drop 6) := by
          conv_lhs => rw [ha]
          exact List.drop_left' rfl
        rw [hdrop, ← List.append_assoc]
        exact congrArg some ha.symm
    · rw [if_neg hv4]
      show inetPton6 (joinGroups ((groups a).take i) ++ lit "::" ++ joinGroups ((groups a).drop (i + n))) = some a
      rw [inetPton6_colons hlength hall hrun hn, hbytes]

/-! ## What is accepted -/

/-- The bytes an address is written with. -/
def isAddressByte (b : UInt8) : Bool := isXDigit b || b == 58 || b == 46

/-- A digit or a dot. -/
def isDottedByte (b : UInt8) : Bool := isDigit b || b == 46

theorem isAddressByte_of_dotted {b : UInt8} (h : isDottedByte b = true) : isAddressByte b = true := by
  rw [isDottedByte, Bool.or_eq_true] at h
  rcases h with h | h <;> simp [isAddressByte, isXDigit, h]

theorem of_octet {b : UInt8} (h : octet s = some b) : ∀ c ∈ s, isDottedByte c = true := by
  rw [octet] at h
  split_ifs at h with hs
  intro c hc
  rw [isDottedByte, List.all_eq_true.mp hs.2.2.1 c hc]
  rfl

/-- **An IPv4 address** has four bytes, and its text holds digits and dots only. -/
theorem of_inetPton4 (h : inetPton4 s = some a) : a.length = 4 ∧ ∀ c ∈ s, isDottedByte c = true :=
    by
  rw [inetPton4] at h
  split at h
  · next w x y z hsplit =>
      have hs : s = w ++ 46 :: (x ++ 46 :: (y ++ 46 :: z)) := by
        have hjoin : [46].intercalate (s.splitOn 46) = s := List.intercalate_splitOn 46
        rw [List.splitOn, hsplit] at hjoin
        rw [← hjoin]
        simp [List.intercalate]
      simp only [List.mapM_cons, List.mapM_nil, Option.pure_def, Option.bind_eq_bind, Option.bind_eq_some_iff,
        Option.some.injEq] at h
      obtain ⟨w', hw, _, ⟨x', hx, _, ⟨y', hy, _, ⟨z', hz, _, rfl, rfl⟩, rfl⟩, rfl⟩, rfl⟩ := h
      refine ⟨rfl, fun c hc => ?_⟩
      rw [hs] at hc
      simp only [List.mem_append, List.mem_cons] at hc
      rcases hc with hc | rfl | hc | rfl | hc | rfl | hc
      · exact of_octet hw c hc
      · rfl
      · exact of_octet hx c hc
      · rfl
      · exact of_octet hy c hc
      · rfl
      · exact of_octet hz c hc
  · cases h

/-- What is read to the end. -/
theorem of_pton6Loop {st : Pton6} (h : pton6Loop st s = some a) (hout : st.out.length ≤ 16)
    (htoken : s <:+ st.token) : a.length = 16 ∧ ∀ c ∈ s, isAddressByte c = true := by
  have hfinish (st : Pton6) (hout : st.out.length ≤ 16) (h : st.finish = some a) : a.length = 16 := by
    have hlength (out : Bytes) (hout : out.length ≤ 16) (i : ℕ) :
        (out.take i ++ List.replicate (16 - out.length) 0 ++ out.drop i).length = 16 := by
      simp only [List.length_append, List.length_take, List.length_replicate, List.length_drop]
      omega
    by_cases hroom : 0 < st.digits ∧ 16 < st.out.length + 2
    · rw [Pton6.finish, if_pos hroom] at h
      cases h
    rw [Pton6.finish, if_neg hroom] at h
    have hfull : (if 0 < st.digits then st.out ++ groupBytes st.val else st.out).length ≤ 16 := by
      split_ifs with hdigits
      · have hlen : (st.out ++ groupBytes st.val).length = st.out.length + 2 := List.length_append
        omega
      · exact hout
    dsimp only at h
    generalize (if 0 < st.digits then st.out ++ groupBytes st.val else st.out) = out at h hfull
    cases hcolon : st.colon with
    | none =>
      rw [hcolon] at h
      dsimp only at h
      split_ifs at h with hsixteen
      rwa [← Option.some.inj h]
    | some i =>
      rw [hcolon] at h
      dsimp only at h
      split_ifs at h
      rw [← Option.some.inj h]
      exact hlength out hfull i
  induction s generalizing st with
  | nil => exact ⟨hfinish st hout h, nofun⟩
  | cons ch s ih =>
    have hsuffix : s <:+ st.token := (List.suffix_cons ch s).trans htoken
    rw [pton6Loop] at h
    split_ifs at h with hdigit hfour hcolon hfirst hsecond hlong hdot
    · obtain ⟨hlength, hall⟩ := ih h hout hsuffix
      refine ⟨hlength, List.forall_mem_cons.mpr ⟨?_, hall⟩⟩
      simp [isAddressByte, hdigit]
    · obtain ⟨hlength, hall⟩ := ih h hout (List.suffix_refl s)
      exact ⟨hlength, List.forall_mem_cons.mpr ⟨by rw [hcolon]; rfl, hall⟩⟩
    · have hlen : (st.out ++ groupBytes st.val).length = st.out.length + 2 := List.length_append
      rw [not_or] at hlong
      obtain ⟨hlength, hall⟩ := ih h (by show (st.out ++ groupBytes st.val).length ≤ 16; omega) (List.suffix_refl s)
      exact ⟨hlength, List.forall_mem_cons.mpr ⟨by rw [hcolon]; rfl, hall⟩⟩
    · cases hv4 : inetPton4 st.token with
      | none =>
        rw [hv4] at h
        cases h
      | some v =>
        rw [hv4] at h
        obtain ⟨hv, hall⟩ := of_inetPton4 hv4
        have hlen : (st.out ++ v).length = st.out.length + 4 := by rw [List.length_append, hv]
        refine ⟨hfinish _ ?_ h, fun c hc => isAddressByte_of_dotted (hall c (htoken.subset hc))⟩
        show (st.out ++ v).length ≤ 16
        omega

/-- **An IPv6 address** has sixteen bytes, and its text holds digits, colons and dots only. -/
theorem of_inetPton6 (h : inetPton6 s = some a) : a.length = 16 ∧ ∀ c ∈ s, isAddressByte c = true :=
    by
  have hstart (t : Bytes) (ht : pton6Loop ⟨[], none, 0, 0, t⟩ t = some a) :
      a.length = 16 ∧ ∀ c ∈ t, isAddressByte c = true := by
    apply of_pton6Loop ht
    · exact Nat.zero_le 16
    · exact List.suffix_refl t
  unfold inetPton6 at h
  split at h
  · cases h
  · split_ifs at h
    obtain ⟨hlength, hall⟩ := hstart _ h
    exact ⟨hlength, List.forall_mem_cons.mpr ⟨rfl, hall⟩⟩
  · exact hstart _ h

end BoatRudder.WebServer
