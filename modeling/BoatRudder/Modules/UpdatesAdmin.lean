import Mathlib.Data.List.Lex
import BoatRudder.Runs.Comparators
import BoatRudder.Text.Bytes

/-! # Versions and updates

The releases of the site's software are compared by their versions, up to four numbers between dots. The
list is sorted by them, and an update is queued by the one that is asked for. -/

namespace BoatRudder.Modules

/-! ## Versions -/

/-- `LONG_MAX`. -/
def longMax : ℕ := 2 ^ 63 - 1

/-- The number that `strtol` reads where a digit stands; one too large is `LONG_MAX`. -/
def strtol (s : Bytes) : ℕ := min (digitsValue 10 0 (s.takeWhile isDigit)) longMax

/-- The loop of `parse_version` with `out` read already, its numbers being read by `read`; nothing when
the string is no dotted version. -/
def versionLoop (read : Bytes → ℕ) (out : List ℕ) (s : Bytes) : List ℕ :=
  match s with
  | [] => out
  | c :: s =>
    if out.length = 4 ∨ isDigit c = false then []
    else
      match _h : (c :: s).dropWhile isDigit with
      | [] => out ++ [read (c :: s)]
      | d :: t => if d = 46 ∧ t ≠ [] then versionLoop read (out ++ [read (c :: s)]) t else []
termination_by s.length
decreasing_by
  have hle := (List.dropWhile_suffix isDigit (l := c :: s)).length_le
  rw [_h] at hle
  simp only [List.length_cons] at hle ⊢
  omega

/-- `parse_version`. -/
def parseVersion (s : Bytes) : List ℕ := versionLoop strtol [] s

/-- The four numbers, a missing one being zero. -/
def fourNumbers (v : List ℕ) : List ℕ := (List.range 4).map fun i => v.getD i 0

/-- The loop over the numbers of `version_cmp`. -/
def cmpNumbers : List ℕ → List ℕ → ℤ
  | a :: as, b :: bs => if a ≠ b then if a < b then -1 else 1 else cmpNumbers as bs
  | _, _ => 0

/-- `version_cmp`. -/
def versionCmp (a b : Bytes) : ℤ :=
  let va := parseVersion a
  let vb := parseVersion b
  if va = [] ∨ vb = [] then (va.length : ℤ) - vb.length
  else cmpNumbers (fourNumbers va) (fourNumbers vb)

/-! ## Releases -/

/-- `Release`, with what is read of it to sort and to install. -/
structure Release where
  version : Bytes
  installable : Bool
  /-- What `version[64]` holds. -/
  fits : version.length < 64

/-- `release_newest_first`. -/
def releaseNewestFirst (a b : Release) : ℤ := versionCmp b.version a.version

/-- What an update request meets: the cached releases, the version that runs, whether updates can be
applied and one is under way, and what `rollback_target` finds. -/
structure UpdatesState where
  releases : List Release
  running : Bytes
  unavailable : Bool
  active : Bool
  rollback : Option Bytes

/-- What is written to `request.json`. -/
structure UpdateRequest where
  action : Bytes
  version : Bytes
deriving DecidableEq, Repr

/-- Whether the version asked for is a known one to install: the last release of its name says. -/
def knownUpdate (u : UpdatesState) (version : Option Bytes) : Bool :=
  match version with
  | none => false
  | some version => u.releases.foldl (fun known r =>
    if r.installable = true ∧ r.version = version then decide (0 < versionCmp version u.running)
    else known) false

/-- `updates_admin_request`: what is queued, or the error; `launched` tells whether the files are written
and the updater starts. -/
def updatesAdminRequest (u : UpdatesState) (action : Bytes) (version : Option Bytes) (launched : Bool) :
    Except Bytes UpdateRequest :=
  if u.unavailable then .error (lit "unavailable")
  else if u.active then .error (lit "busy")
  else if action = lit "install" then
    if knownUpdate u version = false then .error (lit "version")
    else if launched then .ok ⟨lit "install", (version.getD []).take 63⟩ else .error (lit "launch")
  else if action ≠ lit "rollback" ∨ u.rollback = none then .error (lit "rollback")
  else if launched then .ok ⟨lit "rollback", []⟩ else .error (lit "launch")

/-! ## Numbers of any size -/

/-- The numbers of a version as they are written. -/
def writtenVersion (s : Bytes) : List ℕ :=
  versionLoop (fun s => digitsValue 10 0 (s.takeWhile isDigit)) [] s

/-- What a version is compared by: nothing for one that cannot be parsed, before all others. -/
def versionKey (v : List ℕ) : List ℕ := if v = [] then [] else fourNumbers v

/-- One version is newer than another by the numbers as they are written. -/
def WrittenNewer (a b : Bytes) : Prop := versionKey (writtenVersion b) < versionKey (writtenVersion a)

/-! ## What is to hold -/

/-- Versions are totally preordered, the list is sorted by them, and only an upgrade from the list is
queued for installation. -/
structure OnlyUpgrades : Prop where
  comparator : IsComparator versionCmp
  unparseable : ∀ a b, parseVersion a = [] → parseVersion b ≠ [] → versionCmp a b < 0
  missing : ∀ a, parseVersion a ≠ [] → (parseVersion a).length < 4 →
    parseVersion (a ++ lit ".0") = parseVersion a ++ [0] ∧ versionCmp (a ++ lit ".0") a = 0
  sorted : ∀ fresh cached, Qsorted releaseNewestFirst fresh cached →
    cached.Perm fresh ∧ cached.Pairwise fun r r' => 0 ≤ versionCmp r.version r'.version
  installs : ∀ u action version launched q, updatesAdminRequest u action version launched = .ok q →
    q.action = lit "install" → ∃ r ∈ u.releases, r.installable = true ∧ version = some r.version ∧
      q.version = r.version ∧ 0 < versionCmp r.version u.running ∧
        ((∀ n ∈ writtenVersion u.running, n ≤ longMax) → WrittenNewer r.version u.running)

/-! ## The order of versions

A version is compared by its four numbers, read lexicographically, and one that cannot be parsed comes
before all others; so `version_cmp` is a comparator and the list of releases is sorted. What is asked for
is installed when it is in the list and newer, by the numbers that are read and, where those of the
running version are not cut off, by the numbers as they are written. -/

/-! ## The numbers -/

/-- The loop compares lexicographically. -/
theorem cmpNumbers_iff {as bs : List ℕ} (hlen : as.length = bs.length) :
    (cmpNumbers as bs < 0 ↔ as < bs) ∧ (0 < cmpNumbers as bs ↔ bs < as) := by
  induction as generalizing bs with
  | nil =>
    obtain rfl := List.eq_nil_of_length_eq_zero hlen.symm
    simp [cmpNumbers]
  | cons a as ih =>
    cases bs with
    | nil => cases hlen
    | cons b bs =>
      obtain ⟨hlt, hgt⟩ := ih (Nat.succ.inj hlen)
      rw [List.cons_lt_cons_iff, List.cons_lt_cons_iff, cmpNumbers]
      rcases lt_trichotomy a b with h | rfl | h
      · simp [h, h.ne, h.ne', h.not_gt]
      · simp [hlt, hgt]
      · simp [h, h.ne, h.ne', h.not_gt]

theorem length_fourNumbers (v : List ℕ) : (fourNumbers v).length = 4 := by
  rw [fourNumbers, List.length_map, List.length_range]

theorem nil_lt_fourNumbers (v : List ℕ) : [] < fourNumbers v :=
  List.nil_lt_cons _ _

/-- **Versions are compared by their keys.** -/
theorem versionCmp_iff (a b : Bytes) :
    (versionCmp a b < 0 ↔ versionKey (parseVersion a) < versionKey (parseVersion b)) ∧
      (0 < versionCmp a b ↔ versionKey (parseVersion b) < versionKey (parseVersion a)) := by
  have hlen : ∀ v : List ℕ, v ≠ [] → (0 : ℤ) < v.length := fun v hv => by
    exact_mod_cast List.length_pos_iff.mpr hv
  have hnot : ∀ v : List ℕ, ¬ v < [] := fun v => List.not_lt_nil v
  rw [versionCmp, versionKey, versionKey]
  by_cases ha : parseVersion a = [] <;> by_cases hb : parseVersion b = []
  · simp [ha, hb]
  · have hpos := hlen _ hb
    simp only [ha, hb, true_or, if_true, if_false, List.length_nil, Nat.cast_zero, zero_sub]
    exact ⟨iff_of_true (by omega) (nil_lt_fourNumbers _), iff_of_false (by omega) (hnot _)⟩
  · have hpos := hlen _ ha
    simp only [ha, hb, or_true, if_true, if_false, List.length_nil, Nat.cast_zero, sub_zero]
    exact ⟨iff_of_false (by omega) (hnot _), iff_of_true hpos (nil_lt_fourNumbers _)⟩
  · simp only [ha, hb, or_self, if_false]
    exact cmpNumbers_iff (by rw [length_fourNumbers, length_fourNumbers])

theorem isComparator_versionCmp : IsComparator versionCmp :=
  isComparator_of_key (fun s => versionKey (parseVersion s)) (fun a b => (versionCmp_iff a b).1)
    fun a b => (versionCmp_iff a b).2

/-! ## Missing numbers -/

/-- A dot ends the digits. -/
theorem takeWhile_isDigit_append (s t : Bytes) :
    (s ++ 46 :: t).takeWhile isDigit = s.takeWhile isDigit := by
  induction s with
  | nil => rfl
  | cons c s ih =>
    rw [List.cons_append, List.takeWhile_cons, List.takeWhile_cons, ih]

theorem dropWhile_isDigit_append (s t : Bytes) :
    (s ++ 46 :: t).dropWhile isDigit = s.dropWhile isDigit ++ 46 :: t := by
  induction s with
  | nil => rfl
  | cons c s ih =>
    rw [List.cons_append, List.dropWhile_cons, List.dropWhile_cons, ih]
    split_ifs <;> rfl

theorem strtol_append (s t : Bytes) : strtol (s ++ 46 :: t) = strtol s := by
  rw [strtol, strtol, takeWhile_isDigit_append]

/-- What the loop does where a number stands. -/
theorem versionLoop_cons (read : Bytes → ℕ) {out : List ℕ} (hout : out.length ≠ 4) {c : UInt8}
    (hc : isDigit c = true) (s : Bytes) : versionLoop read out (c :: s) =
      match (c :: s).dropWhile isDigit with
      | [] => out ++ [read (c :: s)]
      | d :: t => if d = 46 ∧ t ≠ [] then versionLoop read (out ++ [read (c :: s)]) t else [] := by
  rw [versionLoop, if_neg (by simp [hout, hc])]
  split
  · next hrest => rw [hrest]
  · next d t hrest => rw [hrest]

/-- **A missing number is a zero.** -/
theorem versionLoop_append_zero {out : List ℕ} {s : Bytes} (hs : s ≠ [])
    (hne : versionLoop strtol out s ≠ []) (hlt : (versionLoop strtol out s).length < 4) :
    versionLoop strtol out (s ++ lit ".0") = versionLoop strtol out s ++ [0] := by
  induction hn : s.length using Nat.strong_induction_on generalizing out s with
  | _ n ih =>
    subst hn
    cases s with
    | nil => exact absurd rfl hs
    | cons c s =>
      by_cases hstop : out.length = 4 ∨ isDigit c = false
      · rw [versionLoop, if_pos hstop] at hne
        exact absurd rfl hne
      · obtain ⟨hout, hc⟩ := not_or.mp hstop
        have hc' : isDigit c = true := by simpa using hc
        have hzero : lit ".0" = 46 :: [48] := by decide
        have hdrop := dropWhile_isDigit_append (c :: s) [48]
        rw [versionLoop_cons strtol hout hc'] at hne hlt
        rw [hzero, List.cons_append, versionLoop_cons strtol hout hc', versionLoop_cons strtol hout hc',
          ← List.cons_append, hdrop, strtol_append]
        have hsuffix := (List.dropWhile_suffix isDigit (l := c :: s)).length_le
        cases hrest : (c :: s).dropWhile isDigit with
        | nil =>
          rw [hrest] at hlt
          simp only [List.length_append, List.length_singleton] at hlt
          have hlast : versionLoop strtol (out ++ [strtol (c :: s)]) [48] = out ++ [strtol (c :: s)] ++ [0] := by
            rw [versionLoop_cons strtol (by simp; omega) (by decide)]
            rfl
          simpa using hlast
        | cons d t =>
          rw [hrest] at hne hlt hsuffix
          simp only [List.length_cons] at hsuffix
          by_cases hdot : d = 46 ∧ t ≠ []
          · simp only [if_pos hdot] at hne hlt ⊢
            have hdot' : d = 46 ∧ t ++ [46, 48] ≠ [] := ⟨hdot.1, by simp⟩
            have hstep := ih t.length (by simp only [List.length_cons]; omega) hdot.2 hne hlt rfl
            rw [hzero] at hstep
            simp only [List.cons_append, if_pos hdot']
            exact hstep
          · simp only [if_neg hdot] at hne
            exact absurd rfl hne

theorem fourNumbers_append_zero (v : List ℕ) : fourNumbers (v ++ [0]) = fourNumbers v := by
  rw [fourNumbers, fourNumbers]
  refine List.map_congr_left fun i _ => ?_
  rw [List.getD_eq_getElem?_getD, List.getD_eq_getElem?_getD, List.getElem?_append]
  split_ifs with hi
  · rfl
  · rw [List.getElem?_eq_none (Nat.not_lt.mp hi)]
    cases hzero : ([0] : List ℕ)[i - v.length]? with
    | none => rfl
    | some n =>
      obtain rfl : n = 0 := by simpa using List.mem_of_getElem? hzero
      rfl

theorem parseVersion_append_zero {a : Bytes} (hne : parseVersion a ≠ []) (hlt : (parseVersion a).length < 4) :
    parseVersion (a ++ lit ".0") = parseVersion a ++ [0] ∧ versionCmp (a ++ lit ".0") a = 0 := by
  have hparse : parseVersion (a ++ lit ".0") = parseVersion a ++ [0] := by
    refine versionLoop_append_zero ?_ hne hlt
    rintro rfl
    exact hne (by rw [parseVersion, versionLoop])
  refine ⟨hparse, ?_⟩
  have hkey : versionKey (parseVersion (a ++ lit ".0")) = versionKey (parseVersion a) := by
    rw [hparse, versionKey, versionKey, if_neg hne, if_neg (by simp), fourNumbers_append_zero]
  obtain ⟨hlt, hgt⟩ := versionCmp_iff (a ++ lit ".0") a
  rw [hkey] at hlt hgt
  have h1 := mt hlt.mp (lt_irrefl _)
  have h2 := mt hgt.mp (lt_irrefl _)
  omega

/-! ## Numbers as they are written -/

/-- The numbers that are read are those written, cut off. -/
theorem versionLoop_map (read : Bytes → ℕ) (f : ℕ → ℕ) (out : List ℕ) (s : Bytes) :
    versionLoop (fun s => f (read s)) (out.map f) s = (versionLoop read out s).map f := by
  induction hn : s.length using Nat.strong_induction_on generalizing out s with
  | _ n ih =>
    subst hn
    cases s with
    | nil => rw [versionLoop, versionLoop]
    | cons c s =>
      by_cases hstop : out.length = 4 ∨ isDigit c = false
      · rw [versionLoop, versionLoop, if_pos hstop, if_pos (by rwa [List.length_map])]
        rfl
      · obtain ⟨hout, hc⟩ := not_or.mp hstop
        have hc' : isDigit c = true := by simpa using hc
        have hsuffix := (List.dropWhile_suffix isDigit (l := c :: s)).length_le
        rw [versionLoop_cons _ hout hc', versionLoop_cons _ (by rwa [List.length_map]) hc']
        cases hrest : (c :: s).dropWhile isDigit with
        | nil => simp
        | cons d t =>
          rw [hrest] at hsuffix
          simp only [List.length_cons] at hsuffix
          have hstep := ih t.length (by simp only [List.length_cons]; omega) (out ++ [read (c :: s)]) t rfl
          rw [List.map_append, List.map_singleton] at hstep
          by_cases hdot : d = 46 ∧ t ≠ []
          · simp only [if_pos hdot, hstep]
          · simp only [if_neg hdot, List.map_nil]

theorem parseVersion_eq (s : Bytes) : parseVersion s = (writtenVersion s).map (min · longMax) :=
  versionLoop_map (fun s => digitsValue 10 0 (s.takeWhile isDigit)) (min · longMax) [] s

theorem fourNumbers_map {f : ℕ → ℕ} (hf : f 0 = 0) (v : List ℕ) : fourNumbers (v.map f) = (fourNumbers v).map f := by
  rw [fourNumbers, fourNumbers, List.map_map]
  refine List.map_congr_left fun i _ => ?_
  rw [Function.comp_apply, List.getD_eq_getElem?_getD, List.getD_eq_getElem?_getD, List.getElem?_map]
  cases v[i]? with
  | none => exact hf.symm
  | some n => rfl

/-- Numbers that are cut off are larger than they look. -/
theorem lt_of_lt_map_min {m : ℕ} {rs as : List ℕ} (hrs : ∀ r ∈ rs, r ≤ m) (h : rs < as.map (min · m)) : rs < as := by
  induction rs generalizing as with
  | nil =>
    cases as with
    | nil => exact absurd h (List.not_lt_nil _)
    | cons a as => exact List.nil_lt_cons _ _
  | cons r rs ih =>
    cases as with
    | nil => exact absurd h (List.not_lt_nil _)
    | cons a as =>
      obtain ⟨hr, hrs⟩ := List.forall_mem_cons.mp hrs
      rw [List.map_cons, List.cons_lt_cons_iff] at h
      rw [List.cons_lt_cons_iff]
      rcases h with h | ⟨h, hlt⟩
      · exact Or.inl (lt_of_lt_of_le h (min_le_left _ _))
      · by_cases ha : a ≤ m
        · exact Or.inr ⟨by rw [h, min_eq_left ha], ih hrs hlt⟩
        · exact Or.inl (by omega)

/-- **What is newer by the numbers that are read is newer by those written**, where those of the older
version are read whole. -/
theorem writtenNewer_of_versionCmp {a b : Bytes} (h : 0 < versionCmp a b)
    (hb : ∀ n ∈ writtenVersion b, n ≤ longMax) : WrittenNewer a b := by
  have hwhole : parseVersion b = writtenVersion b := by
    rw [parseVersion_eq]
    conv_rhs => rw [← List.map_id (writtenVersion b)]
    exact List.map_congr_left fun n hn => min_eq_left (hb n hn)
  have hlt := (versionCmp_iff a b).2.mp h
  rw [hwhole, parseVersion_eq] at hlt
  rw [WrittenNewer]
  by_cases ha : writtenVersion a = []
  · rw [ha] at hlt
    exact absurd hlt (List.not_lt_nil _)
  · have hkey : versionKey ((writtenVersion a).map (min · longMax)) =
        (versionKey (writtenVersion a)).map (min · longMax) := by
      rw [versionKey, versionKey, if_neg ha, if_neg (by simpa using ha), @fourNumbers_map (min · longMax) (Nat.zero_min _)]
    rw [hkey] at hlt
    refine lt_of_lt_map_min (fun n hn => ?_) hlt
    rw [versionKey] at hn
    split_ifs at hn with hnil
    · cases hn
    · obtain ⟨i, -, rfl⟩ := List.mem_map.mp hn
      rw [List.getD_eq_getElem?_getD]
      cases hi : (writtenVersion b)[i]? with
      | none => exact Nat.zero_le _
      | some n => exact hb n (List.mem_of_getElem? hi)

/-! ## Requests -/

/-- A known version is that of a release that can be installed, and newer. -/
theorem knownUpdate_spec {u : UpdatesState} {version : Option Bytes} (h : knownUpdate u version = true) :
    ∃ r ∈ u.releases, r.installable = true ∧ version = some r.version ∧ 0 < versionCmp r.version u.running := by
  cases version with
  | none => cases h
  | some version =>
    -- the loop remembers the last release of the name, and no other
    have hloop : ∀ (rs : List Release) (known : Bool), rs.foldl (fun known r =>
        if r.installable = true ∧ r.version = version then decide (0 < versionCmp version u.running) else known)
        known = true → known = true ∨
          (∃ r ∈ rs, r.installable = true ∧ r.version = version) ∧ 0 < versionCmp version u.running := by
      intro rs
      induction rs with
      | nil => exact fun known hknown => Or.inl hknown
      | cons r rs ih =>
        intro known hknown
        rw [List.foldl_cons] at hknown
        rcases ih _ hknown with hfirst | ⟨⟨r', hr', hmatch⟩, hnewer⟩
        · split_ifs at hfirst with hmatch
          · exact Or.inr ⟨⟨r, List.mem_cons_self, hmatch⟩, by simpa using hfirst⟩
          · exact Or.inl hfirst
        · exact Or.inr ⟨⟨r', List.mem_cons_of_mem _ hr', hmatch⟩, hnewer⟩
    obtain ⟨⟨r, hr, hinstallable, rfl⟩, hnewer⟩ := (hloop u.releases false h).resolve_left (by decide)
    exact ⟨r, hr, hinstallable, rfl, hnewer⟩

/-- What is queued to be installed is known. -/
theorem updatesAdminRequest_install {u : UpdatesState} {action : Bytes} {version : Option Bytes}
    {launched : Bool} {q : UpdateRequest} (h : updatesAdminRequest u action version launched = .ok q)
    (hq : q.action = lit "install") : knownUpdate u version = true ∧ q.version = (version.getD []).take 63 := by
  rw [updatesAdminRequest] at h
  split_ifs at h with _ _ _ hknown
  · obtain rfl := Except.ok.inj h
    exact ⟨by simpa using hknown, rfl⟩
  · obtain rfl := Except.ok.inj h
    exact absurd hq (by decide)

/-- **Versions are totally preordered and only upgrades are installed.** -/
theorem onlyUpgrades : OnlyUpgrades where
  comparator := isComparator_versionCmp
  unparseable a b ha hb := by
    rw [(versionCmp_iff a b).1, ha, versionKey, versionKey, if_pos rfl, if_neg hb]
    exact nil_lt_fourNumbers _
  missing a := parseVersion_append_zero
  sorted fresh cached h :=
    ⟨h.perm, h.sorted (isComparator_versionCmp.comap_swap Release.version) |>.imp fun {r r'} hle => by
      have hsign := isComparator_versionCmp.sign_swap r'.version r.version
      have hle' : (versionCmp r'.version r.version).sign ≤ 0 := Int.sign_nonpos_iff.mpr hle
      exact Int.sign_nonneg_iff.mp (by omega)⟩
  installs u action version launched q h hq := by
    obtain ⟨hknown, hversion⟩ := updatesAdminRequest_install h hq
    obtain ⟨r, hr, hinstallable, rfl, hnewer⟩ := knownUpdate_spec hknown
    refine ⟨r, hr, hinstallable, rfl, ?_, hnewer, writtenNewer_of_versionCmp hnewer⟩
    have hfits := r.fits
    rw [hversion, Option.getD_some, List.take_of_length_le (by omega)]

/-- The running version, and a list with a newer one. -/
def oneNewer : UpdatesState where
  releases := [⟨lit "0.0.8", true, by decide⟩, ⟨lit "0.0.7", true, by decide⟩]
  running := lit "0.0.7"
  unavailable := false
  active := false
  rollback := none

theorem onlyUpgrades_oneNewer :
    updatesAdminRequest oneNewer (lit "install") (some (lit "0.0.8")) true =
        .ok ⟨lit "install", lit "0.0.8"⟩ ∧
      ∃ r ∈ oneNewer.releases, r.installable = true ∧ 0 < versionCmp r.version oneNewer.running := by
  have hrun : updatesAdminRequest oneNewer (lit "install") (some (lit "0.0.8")) true =
      .ok ⟨lit "install", lit "0.0.8"⟩ := by
    decide +kernel
  obtain ⟨r, hr, hinstallable, -, -, hnewer, -⟩ := onlyUpgrades.installs _ _ _ _ _ hrun rfl
  exact ⟨hrun, r, hr, hinstallable, hnewer⟩

end BoatRudder.Modules
