import BoatRudder.Utils.Captcha

/-! # Readers of the Cookie header

Three functions look for a cookie in the header. `cookie_value` goes from cookie to cookie; the other
two search for the name with its equals sign, and take what stands behind the first place where they
find it. -/

namespace BoatRudder.Utils

/-! ## `cookie_value` -/

/-- The loop of `cookie_value`, with the value as it stands in the header. -/
def cookieScan (name p : Bytes) : Option Bytes :=
  let q := p.dropWhile fun b => b == 32 || b == 59
  if q = [] then none
  else if 61 ∉ q then none
  else if q.takeWhile (· ≠ 61) = name then some ((afterByte 61 q).takeWhile (· ≠ 59))
  else if _h : 59 ∈ q then cookieScan name (afterByte 59 q)
  else none
termination_by p.length
decreasing_by
  have hle := (List.dropWhile_suffix (fun b => b == 32 || b == 59) (l := p)).length_le
  have hsplit := congrArg List.length (takeWhile_afterByte _h)
  rw [List.length_append, List.length_cons] at hsplit
  simp only [q] at hsplit
  omega

/-- `cookie_value`, into a buffer of `size` bytes. -/
def cookieValue (header name : Bytes) (size : ℕ) : Option Bytes :=
  (cookieScan name header).map (·.take (size - 1))

/-! ## The session -/

/-- `SESSION_COOKIE_NAME`. -/
def sessionCookieName : Bytes := lit "session"

/-- `SESSION_TOKEN_BUF_SIZE`, the size every caller gives. -/
def sessionTokenBufSize : ℕ := 65

/-- What stands behind the first place of `name=`. -/
def behindName (name header : Bytes) : Option Bytes :=
  (findSub (name ++ [61]) header).map fun i => header.drop (i + (name.length + 1))

/-- `extract_session_token`. -/
def extractSessionToken (header : Bytes) : Option Bytes :=
  match behindName sessionCookieName header with
  | none => none
  | some p =>
    let token := (p.takeWhile (· ≠ 59)).take (sessionTokenBufSize - 1)
    if token = [] then none else some token

/-- `validate_session_cookie`, `validateSession` telling whose session a token is. -/
def validateSessionCookie (validateSession : Bytes → Option Bytes) (header : Bytes) : Option Bytes :=
  (extractSessionToken header).bind validateSession

/-! ## The commenter -/

/-- `REMEMBER_COOKIE`. -/
def rememberCookie : Bytes := lit "br_commenter"

/-- The parts of the cookie's value. -/
structure CommenterMark where
  id : Bytes
  issued : Bytes
  mac : Bytes
deriving DecidableEq, Repr

/-- The value of the cookie in the buffer `value[160]`, taken to its parts. -/
def commenterMark (value : Bytes) : Option CommenterMark :=
  if 160 ≤ value.length then none
  else if 46 ∈ value ∧ 46 ∈ afterByte 46 value then
    let id := value.takeWhile (· ≠ 46)
    let issued := (afterByte 46 value).takeWhile (· ≠ 46)
    let mac := afterByte 46 (afterByte 46 value)
    if id.length ≠ 24 ∨ mac.length ≠ 64 then none else some ⟨id, issued, mac⟩
  else none

/-- What `remembered_commenter` reads from the header. -/
def readCommenter (header : Bytes) : Option CommenterMark :=
  match behindName rememberCookie header with
  | none => none
  | some p => commenterMark (p.takeWhile fun b => b ≠ 59 && b ≠ 32)

/-- `remember_mac`, under the site's key. -/
def rememberMac (hmac : Hmac) (id : Bytes) (issued : ℤ) : Bytes :=
  bin2hex (hmac ((lit "commenter|" ++ id ++ 124 :: signed issued).take 95)).bytes

/-- `REMEMBER_DAYS`, in seconds. -/
def rememberSecs : ℤ := 365 * 86400

/-- `remembered_commenter`, at a time and with the site's key if it can be had. -/
def rememberedCommenter (now : ℤ) (hmac : Option Hmac) (header : Bytes) : Option Bytes :=
  match readCommenter header, hmac with
  | some mark, some hmac =>
    let issued := (strtoll mark.issued).1
    if issued ≤ 0 ∨ rememberSecs < now - issued then none
    else if rememberMac hmac mark.id issued = mark.mac then some mark.id
    else none
  | _, _ => none

/-! ## What the readers are to agree on -/

/-- Both readers take the value of the first cookie of exactly their name, as `cookie_value` delimits it:
the session's when it is not empty and the buffer holds it whole, the commenter's when it is one that can
be taken to its parts. -/
structure ReadersAgree (header : Bytes) : Prop where
  session : extractSessionToken header =
    (cookieScan sessionCookieName header).filter fun v => v ≠ [] ∧ v.length < sessionTokenBufSize
  commenter : readCommenter header = (cookieScan rememberCookie header).bind commenterMark

/-! ## When they do -/

/-- Behind this much of a header a cookie begins: there are only blanks since the last semicolon, or since
the start. -/
def cookieBegins (before : Bytes) : Bool :=
  before.foldl (fun blank b => b == 59 || blank && b == 32) true

/-- The first place of `session=` begins a cookie that the buffer holds whole; or it begins none, and what
stands behind it is as far as it is read the whole value of the cookie, or nothing while there is no such
value. -/
def SessionPlain (header : Bytes) : Prop :=
  ∀ i, findSub (sessionCookieName ++ [61]) header = some i →
    let v := (header.drop (i + (sessionCookieName.length + 1))).takeWhile (· ≠ 59)
    cookieBegins (header.take i) = true ∧ v.length < sessionTokenBufSize ∨
      cookieBegins (header.take i) = false ∧
        if v = [] then ∀ w, cookieScan sessionCookieName header = some w → w = [] ∨ sessionTokenBufSize ≤ w.length
        else cookieScan sessionCookieName header = some (v.take (sessionTokenBufSize - 1))

/-- The first place of `br_commenter=` begins a cookie without a blank in its value; or what stands behind
it, up to a blank, has the same parts as the cookie, or neither has any. -/
def CommenterPlain (header : Bytes) : Prop :=
  ∀ i, findSub (rememberCookie ++ [61]) header = some i →
    let v := (header.drop (i + (rememberCookie.length + 1))).takeWhile (· ≠ 59)
    let cut := v.takeWhile (· ≠ 32)
    cookieBegins (header.take i) = true ∧ (32 ∉ v ∨ commenterMark v = none ∧ commenterMark cut = none) ∨
      cookieBegins (header.take i) = false ∧
        match cookieScan rememberCookie header with
        | none => commenterMark cut = none
        | some w => commenterMark cut = commenterMark w

/-! ## When the cookie readers agree

The loop of `cookie_value` stops at the first place of the name where a cookie begins. The first place
that a search finds is that one, or begins no cookie; and what is then taken from it is compared with
the cookie. -/

/-! ## The loop -/

/-- A cookie's name, as the header has it. -/
structure IsCookieName (name : Bytes) : Prop where
  nonempty : name ≠ []
  plain : ∀ b ∈ name, b ≠ 61 ∧ b ≠ 59 ∧ b ≠ 32

theorem isCookieName_session : IsCookieName sessionCookieName :=
  ⟨by decide, by decide⟩

theorem isCookieName_rememberCookie : IsCookieName rememberCookie :=
  ⟨by decide, by decide⟩

/-- What parts cookies. -/
def isGap (b : UInt8) : Bool := b == 32 || b == 59

theorem cookieScan_eq (name p : Bytes) : cookieScan name p =
    if p.dropWhile isGap = [] then none
    else if 61 ∉ p.dropWhile isGap then none
    else if (p.dropWhile isGap).takeWhile (· ≠ 61) = name then
      some ((afterByte 61 (p.dropWhile isGap)).takeWhile (· ≠ 59))
    else if 59 ∈ p.dropWhile isGap then cookieScan name (afterByte 59 (p.dropWhile isGap))
    else none := by
  conv_lhs => rw [cookieScan]
  rfl

section

variable {name : Bytes}

/-- The loop is at a cookie of the name just when the name stands there with its equals sign. -/
theorem takeWhile_eq_name_iff (hname : IsCookieName name) {q : Bytes} (h61 : 61 ∈ q) :
    q.takeWhile (· ≠ 61) = name ↔ name ++ [61] <+: q := by
  have hno : 61 ∉ name := fun h => (hname.plain 61 h).1 rfl
  constructor
  · intro h
    refine ⟨afterByte 61 q, ?_⟩
    rw [← h, List.append_assoc, List.singleton_append, takeWhile_afterByte h61]
  · rintro ⟨t, rfl⟩
    rw [List.append_assoc, List.singleton_append, takeWhile_ne_append hno]

/-- **What the loop finds stands in the header.** -/
theorem infix_of_cookieScan (hname : IsCookieName name) {p v : Bytes} (h : cookieScan name p = some v) :
    name ++ [61] <:+: p := by
  induction hn : p.length using Nat.strong_induction_on generalizing p with
  | _ n ih =>
    subst hn
    rw [cookieScan_eq] at h
    have hsuffix := List.dropWhile_suffix isGap (l := p)
    generalize p.dropWhile isGap = q at h hsuffix
    split_ifs at h with h0 h61 hat h59
    · exact ((takeWhile_eq_name_iff hname (by simpa using h61)).mp hat).isInfix.trans hsuffix.isInfix
    · have hsplit := takeWhile_afterByte h59
      have hlen := congrArg List.length hsplit
      have hle := hsuffix.length_le
      rw [List.length_append, List.length_cons] at hlen
      have hrest := ih _ (by omega) h rfl
      have htail : afterByte 59 q <:+ q := ⟨q.takeWhile (· ≠ 59) ++ [59], by simpa using hsplit⟩
      exact hrest.trans (htail.trans hsuffix).isInfix

/-! ## Where a cookie begins -/

theorem cookieBegins_append_gap {s : Bytes} (hs : ∀ b ∈ s, isGap b = true) (t : Bytes) :
    cookieBegins (s ++ t) = cookieBegins t := by
  induction s with
  | nil => rfl
  | cons b s ih =>
    obtain ⟨hb, hs⟩ := List.forall_mem_cons.mp hs
    have hstep : (b == 59 || true && b == 32) = true := by
      simpa [isGap, or_comm] using hb
    rw [← ih hs, List.cons_append]
    simp only [cookieBegins, List.foldl_cons, hstep]

/-- Behind a semicolon it does not matter what stood before. -/
theorem cookieBegins_append_semicolon (s t : Bytes) : cookieBegins (s ++ 59 :: t) = cookieBegins t := by
  rw [cookieBegins, List.foldl_append, List.foldl_cons]
  rfl

/-- Behind something else a cookie begins only after a semicolon. -/
theorem mem_of_cookieBegins {b : UInt8} {t : Bytes} (hb : isGap b = false)
    (h : cookieBegins (b :: t) = true) : 59 ∈ t := by
  by_contra hno
  have hfalse : ∀ u : Bytes, 59 ∉ u → u.foldl (fun blank b => b == 59 || blank && b == 32) false = false := by
    intro u hu
    induction u with
    | nil => rfl
    | cons d u ih =>
      obtain ⟨hd, hu⟩ := not_or.mp (mt List.mem_cons.mpr hu)
      rw [List.foldl_cons]
      have hstep : (d == 59 || false && d == 32) = false := by simpa using Ne.symm hd
      rw [hstep]
      exact ih hu
  have hstep : (b == 59 || true && b == 32) = false := by
    simpa [isGap, and_comm] using hb
  rw [cookieBegins, List.foldl_cons, hstep, hfalse t hno] at h
  cases h

/-- **The loop stops at the first place of the name**, if a cookie begins there. -/
theorem cookieScan_of_begins (hname : IsCookieName name) {before after : Bytes}
    (hfirst : ∀ j < before.length, ¬ name ++ [61] <+: (before ++ (name ++ 61 :: after)).drop j)
    (hbegins : cookieBegins before = true) :
    cookieScan name (before ++ (name ++ 61 :: after)) = some (after.takeWhile (· ≠ 59)) := by
  induction hn : before.length using Nat.strong_induction_on generalizing before with
  | _ n ih =>
    subst hn
    have hno : 61 ∉ name := fun h => (hname.plain 61 h).1 rfl
    -- the gap in front is skipped
    have hgap : ∀ b ∈ before.takeWhile isGap, isGap b = true := fun b hb => List.mem_takeWhile_imp hb
    have hsplit : before = before.takeWhile isGap ++ before.dropWhile isGap :=
      List.takeWhile_append_dropWhile.symm
    have hstop : (name ++ 61 :: after).dropWhile isGap = name ++ 61 :: after := by
      obtain ⟨c, t, hcons⟩ := List.exists_cons_of_ne_nil hname.nonempty
      have hc := hname.plain c (by simp [hcons])
      rw [hcons, List.cons_append, List.dropWhile_cons_of_neg (by simp [isGap, hc.2.1, hc.2.2])]
    have hdrop : (before ++ (name ++ 61 :: after)).dropWhile isGap =
        before.dropWhile isGap ++ (name ++ 61 :: after) := by
      rw [List.dropWhile_append]
      split_ifs with hnil
      · rw [hstop, List.isEmpty_iff.mp hnil, List.nil_append]
      · rfl
    have hlen := congrArg List.length hsplit
    rw [List.length_append] at hlen
    rw [hsplit, cookieBegins_append_gap hgap] at hbegins
    rw [cookieScan_eq, hdrop]
    have hq : before.dropWhile isGap ++ (name ++ 61 :: after) ≠ [] := by simp
    have h61 : 61 ∈ before.dropWhile isGap ++ (name ++ 61 :: after) := by simp
    rw [if_neg hq, if_neg (not_not.mpr h61)]
    cases hrest : before.dropWhile isGap with
    | nil =>
      rw [List.nil_append, takeWhile_ne_append hno, if_pos rfl, afterByte_append hno]
    | cons c rest =>
      rw [hrest] at hbegins hlen hdrop
      have hc : isGap c = false := by
        have hnot := List.head?_dropWhile_not isGap before
        rw [hrest] at hnot
        simpa using hnot
      have hnext : ∀ j < (c :: rest).length, ¬ name ++ [61] <+: (c :: rest ++ (name ++ 61 :: after)).drop j := by
        intro j hj hpre
        refine hfirst ((before.takeWhile isGap).length + j) (by omega) ?_
        have hwhole : before ++ (name ++ 61 :: after) =
            before.takeWhile isGap ++ (c :: rest ++ (name ++ 61 :: after)) := by
          conv_lhs => rw [hsplit, hrest, List.append_assoc]
        rw [hwhole, List.drop_length_add_append]
        exact hpre
      have h59 : 59 ∈ rest := mem_of_cookieBegins hc hbegins
      have hc59 : c ≠ 59 := by
        rintro rfl
        cases hc
      have hmem : 59 ∈ c :: rest := List.mem_cons_of_mem _ h59
      have hnot : ¬ (c :: rest ++ (name ++ 61 :: after)).takeWhile (· ≠ 61) = name := by
        rw [takeWhile_eq_name_iff hname (by simp)]
        exact hnext 0 (Nat.succ_pos _)
      have hparts := takeWhile_afterByte hmem
      rw [if_neg hnot, if_pos (List.mem_append_left _ hmem), afterByte_append_of_mem hmem]
      have hplen := congrArg List.length hparts
      rw [List.length_append, List.length_cons (a := (59 : UInt8))] at hplen
      refine ih (afterByte 59 (c :: rest)).length (by omega) (fun j hj hpre => ?_) ?_ rfl
      · have hfront : ((c :: rest).takeWhile (· ≠ 59) ++ [59]).length =
            ((c :: rest).takeWhile (· ≠ 59)).length + 1 := List.length_append
        refine hnext (((c :: rest).takeWhile (· ≠ 59) ++ [59]).length + j) (by omega) ?_
        have hwhole : c :: rest ++ (name ++ 61 :: after) = ((c :: rest).takeWhile (· ≠ 59) ++ [59]) ++
            (afterByte 59 (c :: rest) ++ (name ++ 61 :: after)) := by
          conv_lhs => rw [← hparts]
          simp
        rw [hwhole, List.drop_length_add_append]
        exact hpre
      · rw [← hparts, cookieBegins_append_semicolon] at hbegins
        exact hbegins

/-- The place that the search finds, when a cookie begins there. -/
theorem cookieScan_of_findSub (hname : IsCookieName name) {header : Bytes} {i : ℕ}
    (h : findSub (name ++ [61]) header = some i) (hbegins : cookieBegins (header.take i) = true) :
    cookieScan name header = some ((header.drop (i + (name.length + 1))).takeWhile (· ≠ 59)) := by
  have hsplit := findSub_split h
  obtain ⟨-, hfirst⟩ := findSub_eq_some h
  rw [List.length_append, List.length_singleton, List.append_assoc, List.singleton_append] at hsplit
  have hle : i ≤ header.length := (findSub_add_le h).elim (fun hle => by omega) fun hnil => by
    simp at hnil
  have hlen : (header.take i).length = i := List.length_take_of_le hle
  have hscan := @cookieScan_of_begins name hname (header.take i) (header.drop (i + (name.length + 1)))
  rw [← hsplit, hlen] at hscan
  exact hscan hfirst hbegins

/-- Where the name is not found there is no cookie of it. -/
theorem cookieScan_of_findSub_none (hname : IsCookieName name) {header : Bytes}
    (h : findSub (name ++ [61]) header = none) : cookieScan name header = none := by
  cases hscan : cookieScan name header with
  | none => rfl
  | some v => exact absurd (infix_of_cookieScan hname hscan) (findSub_eq_none_iff.mp h)

end

/-! ## The session -/

/-- A token that is cut off is not empty when there is something to cut. -/
theorem take_token_ne_nil {v : Bytes} (h : v ≠ []) : v.take (sessionTokenBufSize - 1) ≠ [] := by
  rw [Ne, List.take_eq_nil_iff]
  rintro (h0 | h0)
  · exact absurd h0 (by decide)
  · exact h h0

theorem length_take_token (v : Bytes) : (v.take (sessionTokenBufSize - 1)).length < sessionTokenBufSize := by
  have hle : (v.take (sessionTokenBufSize - 1)).length ≤ sessionTokenBufSize - 1 := List.length_take_le _ _
  have hsize : sessionTokenBufSize = 65 := rfl
  omega

theorem session_iff (header : Bytes) : extractSessionToken header =
    ((cookieScan sessionCookieName header).filter fun v => v ≠ [] ∧ v.length < sessionTokenBufSize) ↔
      SessionPlain header := by
  rw [extractSessionToken, behindName, SessionPlain]
  cases hfind : findSub (sessionCookieName ++ [61]) header with
  | none =>
    rw [cookieScan_of_findSub_none isCookieName_session hfind]
    exact iff_of_true rfl (by simp)
  | some i =>
    simp only [Option.map_some, Option.some.injEq, forall_eq']
    generalize hv : (header.drop (i + (sessionCookieName.length + 1))).takeWhile (· ≠ 59) = v
    cases hbegins : cookieBegins (header.take i) with
    | true =>
      rw [cookieScan_of_findSub isCookieName_session hfind hbegins, hv]
      simp only [true_and, Bool.true_eq_false, false_and, or_false]
      by_cases hnil : v = []
      · rw [hnil]
        exact iff_of_true rfl (by decide)
      · rw [if_neg (take_token_ne_nil hnil)]
        by_cases hfits : v.length < sessionTokenBufSize
        · rw [List.take_of_length_le (by omega)]
          exact iff_of_true (by simp [Option.filter, hnil, hfits]) hfits
        · exact iff_of_false (by simp [Option.filter, hfits]) hfits
    | false =>
      simp only [Bool.false_eq_true, false_and, false_or, true_and]
      by_cases hnil : v = []
      · rw [if_pos hnil, hnil, List.take_nil, if_pos rfl, eq_comm, Option.filter_eq_none_iff]
        refine forall₂_congr fun w _ => ?_
        simp only [decide_eq_true_eq, not_and, Nat.not_lt, ne_eq]
        exact or_iff_not_imp_left.symm
      · rw [if_neg hnil, if_neg (take_token_ne_nil hnil), eq_comm, Option.filter_eq_some_iff]
        exact and_iff_left (decide_eq_true ⟨take_token_ne_nil hnil, length_take_token v⟩)

/-! ## The commenter -/

theorem takeWhile_and (v : Bytes) :
    (v.takeWhile fun b => b ≠ 59 && b ≠ 32) = (v.takeWhile (· ≠ 59)).takeWhile (· ≠ 32) := by
  rw [List.takeWhile_takeWhile]
  refine congrArg (fun p => List.takeWhile p v) (funext fun b => ?_)
  rw [Bool.and_comm, Bool.decide_and, Bool.decide_eq_true, Bool.decide_eq_true]

/-- The value is put together from its parts. -/
theorem commenterMark_eq_some {v : Bytes} {mark : CommenterMark} (h : commenterMark v = some mark) :
    v = mark.id ++ 46 :: (mark.issued ++ 46 :: mark.mac) := by
  rw [commenterMark] at h
  split_ifs at h with _ hdots
  · simp only at h
    split_ifs at h
    obtain rfl := Option.some.inj h
    simp only
    rw [takeWhile_afterByte hdots.2, takeWhile_afterByte hdots.1]

theorem commenter_iff (header : Bytes) : readCommenter header =
    (cookieScan rememberCookie header).bind commenterMark ↔ CommenterPlain header := by
  rw [readCommenter, behindName, CommenterPlain]
  cases hfind : findSub (rememberCookie ++ [61]) header with
  | none =>
    rw [cookieScan_of_findSub_none isCookieName_rememberCookie hfind]
    exact iff_of_true rfl (by simp)
  | some i =>
    simp only [Option.map_some, Option.some.injEq, forall_eq', takeWhile_and]
    generalize hv : (header.drop (i + (rememberCookie.length + 1))).takeWhile (· ≠ 59) = v
    cases hbegins : cookieBegins (header.take i) with
    | true =>
      rw [cookieScan_of_findSub isCookieName_rememberCookie hfind hbegins, hv, Option.bind_some]
      simp only [true_and, Bool.true_eq_false, false_and, or_false]
      constructor
      · intro h
        by_cases h32 : 32 ∈ v
        · refine Or.inr ?_
          cases hmark : commenterMark v with
          | none => exact ⟨rfl, by rw [h, hmark]⟩
          | some mark =>
            -- what is cut off would have the same parts, so it is not cut off
            rw [hmark] at h
            have hsame := (commenterMark_eq_some h).trans (commenterMark_eq_some hmark).symm
            exact absurd (List.mem_takeWhile_imp (hsame ▸ h32)) (by decide)
        · exact Or.inl h32
      · rintro (h32 | ⟨hv, hcut⟩)
        · rw [List.takeWhile_eq_self_iff.mpr fun b hb => by
            simpa using fun h : b = 32 => h32 (h ▸ hb)]
        · rw [hv, hcut]
    | false =>
      simp only [Bool.false_eq_true, false_and, false_or, true_and]
      cases cookieScan rememberCookie header with
      | none => exact Iff.rfl
      | some w => exact Iff.rfl

/-- **The readers agree** just when the first places of the names begin cookies that are read whole, or
give what the cookies do. -/
theorem readersAgree_iff (header : Bytes) :
    ReadersAgree header ↔ SessionPlain header ∧ CommenterPlain header :=
  ⟨fun h => ⟨(session_iff header).mp h.session, (commenter_iff header).mp h.commenter⟩,
    fun h => ⟨(session_iff header).mpr h.1, (commenter_iff header).mpr h.2⟩⟩

/-- A cookie whose name ends in that of the session plants one. -/
theorem not_readersAgree_mysession : ¬ ReadersAgree (lit "mysession=attacker") := by
  intro h
  have hsession := h.session
  revert hsession
  decide +kernel

/-- **Where the readers agree, the cookies decide** who is taken for whom: headers with the same two cookies
are read as the same session and the same commenter. -/
theorem same_of_readersAgree {header header' : Bytes} (h : ReadersAgree header) (h' : ReadersAgree header')
    (hsession : cookieScan sessionCookieName header = cookieScan sessionCookieName header')
    (hcommenter : cookieScan rememberCookie header = cookieScan rememberCookie header')
    (validateSession : Bytes → Option Bytes) (now : ℤ) (hmac : Option Hmac) :
    validateSessionCookie validateSession header = validateSessionCookie validateSession header' ∧
      rememberedCommenter now hmac header = rememberedCommenter now hmac header' := by
  have hread : readCommenter header = readCommenter header' := by
    rw [h.commenter, h'.commenter, hcommenter]
  constructor
  · rw [validateSessionCookie, validateSessionCookie, h.session, h'.session, hsession]
  · simp only [rememberedCommenter, hread]

/-- A token that is read is then the one that `cookie_value` reads. -/
theorem ReadersAgree.cookieValue {header token : Bytes} (h : ReadersAgree header)
    (htoken : extractSessionToken header = some token) :
    cookieValue header sessionCookieName sessionTokenBufSize = some token := by
  rw [h.session, Option.filter_eq_some_iff, decide_eq_true_eq] at htoken
  rw [Utils.cookieValue, htoken.1, Option.map_some, List.take_of_length_le (Nat.le_sub_one_of_lt htoken.2.2)]

end BoatRudder.Utils
