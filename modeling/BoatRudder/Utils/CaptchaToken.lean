import BoatRudder.Utils.Captcha
import Mathlib.Data.List.Nodup
import Mathlib.Data.Set.Insert

/-! # Which captchas are accepted

An answer is accepted exactly when the token's parts are those of one that was issued, the answer is
the one derived for it, and the time since then is neither too short nor too long; and a picture is
drawn of the answers of such tokens only. The keyed hash is taken as one whose values cannot be met by
other messages, nor made up. -/

namespace BoatRudder.Utils

/-- What is relied on of the keyed hash, when a mac is presented. -/
structure Hmac.Secure (hmac : Hmac) (issues : Set Issue) (mac : Bytes) : Prop where
  /-- No message but the one that was signed has its digest. -/
  injective : ∀ s ∈ issues, ∀ msg, hmac msg = hmac (s.message hmac) → msg = s.message hmac
  /-- A mac that is the mac of some message was given out. -/
  unforgeable : ∀ msg, bin2hex (hmac msg).bytes = mac → ∃ s ∈ issues, mac = s.mac hmac

/-- The mac of a token. -/
def presentedMac (token : Bytes) : Bytes := afterByte 46 (afterByte 46 token)

/-- The nonce, the time value and the mac of a token are those of the one issued. -/
structure Issue.Carries (hmac : Hmac) (s : Issue) (token : Bytes) : Prop where
  nonce : token.takeWhile (· ≠ 46) = s.nonce
  time : strtoll ((afterByte 46 token).takeWhile (· ≠ 46)) = (s.issued, [])
  mac : presentedMac token = s.mac hmac

/-- `captcha_check` accepts exactly the answers it should. -/
def AcceptsExactly (hmac : Hmac) (issues : Set Issue) (token answer : Bytes) (now : ℤ) : Prop :=
  ∀ nonce, captchaCheck hmac (some token) (some answer) now = .ok nonce ↔
    ∃ s ∈ issues, s.Carries hmac token ∧ nonce = s.nonce ∧ normalAnswer answer = s.answer hmac ∧
      captchaMinSecs ≤ now - s.issued ∧ now - s.issued ≤ captchaTtlSecs

/-- What is drawn, if anything, is the picture of the answer that is accepted for a token that was
issued, and has not expired. -/
def ShowsAnswer (hmac : Hmac) (issues : Set Issue) (token : Bytes) (now : ℤ)
    (picture : Bytes → Bytes → Option Bytes) (drawn : Option Bytes) : Prop :=
  drawn ≠ none → ∃ s ∈ issues, s.Carries hmac token ∧ now - s.issued ≤ captchaTtlSecs ∧
    s.issued ≤ now + 60 ∧ drawn = picture (s.answer hmac) (drawSeed hmac s.nonce s.issued) ∧
      ∀ answer time, normalAnswer answer = s.answer hmac → captchaMinSecs ≤ time - s.issued →
        time - s.issued ≤ captchaTtlSecs →
          captchaCheck hmac (some token) (some answer) time = .ok s.nonce

/-- What the challenge keeps to for a token, an answer and a time. -/
structure CaptchaExact (hmac : Hmac) (draw : Drawing) (issues : Set Issue) (token answer : Bytes)
    (now : ℤ) : Prop where
  accepts : AcceptsExactly hmac issues token answer now
  gif : ShowsAnswer hmac issues token now (draw.imageOf · · true)
    (captchaTokenGif hmac draw (some token) now)
  wbmp : ShowsAnswer hmac issues token now draw.drawWbmp (captchaTokenWbmp hmac draw (some token) now)
  text : ShowsAnswer hmac issues token now draw.drawTextArt
    (captchaTokenText hmac draw (some token) now)

variable {hmac : Hmac} {issues : Set Issue} {token answer : Bytes} {now : ℤ} {s : Issue}

/-! ## Reading tokens -/

theorem mem_of_afterByte_ne_nil {c : UInt8} {s : Bytes} (h : afterByte c s ≠ []) : c ∈ s := by
  by_contra hnot
  have hnil : s.dropWhile (· ≠ c) = [] :=
    List.dropWhile_eq_nil_iff.mpr fun b hb => by simpa using ne_of_mem_of_not_mem hb hnot
  exact h (by rw [afterByte, hnil]; rfl)

/-- The number of a token is read as if the string ended at the second dot. -/
theorem strtoll_rest {rest : Bytes} (h : 46 ∈ rest) :
    strtoll rest = ((strtoll (rest.takeWhile (· ≠ 46))).1,
      (strtoll (rest.takeWhile (· ≠ 46))).2 ++ 46 :: afterByte 46 rest) := by
  conv_lhs => rw [← takeWhile_afterByte h]
  exact strtoll_append (by decide) (by decide) (by decide) (by decide) _ _

/-- A token reads as its three parts, when they are of the right shape. -/
theorem parseToken_eq_some_iff {p : TokenParts} :
    parseToken (some token) = some p ↔
      token.takeWhile (· ≠ 46) = p.nonce ∧
        strtoll ((afterByte 46 token).takeWhile (· ≠ 46)) = (p.issued, []) ∧
          presentedMac token = p.mac ∧
            p.nonce.length = 32 ∧ p.nonce.all isXDigit = true ∧ p.mac.length = 64 ∧ 0 < p.issued := by
  constructor
  · intro h
    simp only [parseToken] at h
    split_ifs at h with hshape hhex hnumber
    obtain rfl := Option.some.inj h
    simp only [not_or, not_not, not_le] at hshape hnumber
    obtain ⟨hdot, hdot', hlength, hmac⟩ := hshape
    obtain ⟨hend, hpos⟩ := hnumber
    rw [strtoll_rest hdot'] at hend hpos
    refine ⟨rfl, ?_, rfl, hlength, by simpa using hhex, hmac, ?_⟩
    · -- the number ends at the second dot, so nothing is left before it
      have hnil := List.append_cancel_right (hend.trans (List.nil_append _).symm)
      rw [strtoll_rest hdot']
      exact Prod.ext rfl hnil
    · rw [strtoll_rest hdot']
      exact hpos
  · rintro ⟨hnonce, htime, hmac, hlength, hhex, hmaclen, hpos⟩
    have hdot' : 46 ∈ afterByte 46 token :=
      mem_of_afterByte_ne_nil fun hnil => by
        rw [← hmac, presentedMac, hnil] at hmaclen
        cases hmaclen
    have hdot : 46 ∈ token :=
      mem_of_afterByte_ne_nil fun hnil => by
        rw [hnil] at hdot'
        cases hdot'
    have hrest := strtoll_rest hdot'
    rw [htime] at hrest
    have hmac' : afterByte 46 (afterByte 46 token) = p.mac := hmac
    simp only [parseToken, hnonce, hrest, hmac']
    rw [if_neg, if_neg, if_neg]
    · simp [not_le.mpr hpos]
    · simp [hhex]
    · simp [hdot, hdot', hlength, hmaclen]

/-- A nonce is made of hexadecimal digits. -/
theorem Issue.all_nonce (s : Issue) : s.nonce.all isXDigit = true := by
  rw [List.all_eq_true]
  intro c hc
  have hlower := lowerHex_of_mem_bin2hex hc
  simp only [isXDigit, Bool.or_eq_true, Bool.and_eq_true] at hlower ⊢
  rcases hlower with h | h
  · exact Or.inl (Or.inl h)
  · exact Or.inr h

/-- A token that carries the parts of one issued at a positive time is read so. -/
theorem Issue.Carries.parse (h : s.Carries hmac token) (hpos : 0 < s.issued) :
    parseToken (some token) = some ⟨s.nonce, s.issued, s.mac hmac⟩ :=
  parseToken_eq_some_iff.mpr
    ⟨h.nonce, h.time, h.mac, s.length_nonce, s.all_nonce, s.length_mac hmac, hpos⟩

/-- The token that is issued carries its parts. -/
theorem Issue.carries_token (hmac : Hmac) (s : Issue) : s.Carries hmac (s.token hmac) := by
  have hnonce : 46 ∉ s.nonce := fun h => by
    have hlower := lowerHex_of_mem_bin2hex h
    revert hlower
    decide
  have htime : 46 ∉ signed s.issued := fun h => by
    rcases isDigit_of_mem_signed h with heq | hdigit
    · exact absurd heq (by decide)
    · exact absurd hdigit (by decide)
  have hrest : afterByte 46 (s.token hmac) = signed s.issued ++ 46 :: s.mac hmac := afterByte_append hnonce _
  refine ⟨takeWhile_ne_append hnonce _, ?_, ?_⟩
  · rw [hrest, takeWhile_ne_append htime]
    exact strtoll_signed s.range.1 s.range.2
  · rw [presentedMac, hrest, afterByte_append htime]

/-- What `captcha_issue` fills in is the token, whole. -/
theorem token_captchaIssue (draw : Drawing) (inlinePng : Bool) :
    (captchaIssue hmac draw s.raw s.issued inlinePng).1.token = s.token hmac := by
  have hlen : (s.token hmac).length ≤ captchaTokenMax - 1 := by
    have hsigned := length_signed_le s.range
    rw [Issue.token, List.length_append, List.length_cons, List.length_append, List.length_cons,
      s.length_nonce, s.length_mac, captchaTokenMax]
    omega
  have htoken : (captchaIssue hmac draw s.raw s.issued inlinePng).1.token =
      (s.token hmac).take (captchaTokenMax - 1) := by
    rw [captchaIssue]
    split
    · split <;> rfl
    · rfl
  rw [htoken, List.take_of_length_le hlen]

/-- **The answer of a captcha is read back from its token** alone. -/
theorem captchaAnswer_captchaIssue (draw : Drawing) (hpos : 0 < s.issued) (inlinePng : Bool) :
    captchaAnswer hmac (some (captchaIssue hmac draw s.raw s.issued inlinePng).1.token) =
      some (s.answer hmac) := by
  have hmac' : macHex hmac s.nonce s.issued (deriveText hmac s.nonce s.issued) = s.mac hmac := rfl
  simp only [captchaAnswer, tokenGenuine, token_captchaIssue, (s.carries_token hmac).parse hpos, hmac',
    if_true, Option.map_some]
  rfl

/-! ## Macs -/

theorem Digest.ext_of_hex {d e : Digest} (h : bin2hex d.bytes = bin2hex e.bytes) : d = e := by
  obtain ⟨d, hd⟩ := d
  obtain ⟨e, he⟩ := e
  obtain rfl : d = e := bin2hex_injective h
  rfl

/-- **The mac of a text that is presented names the token that was issued, and its answer.** -/
theorem issue_of_mac (hsecure : hmac.Secure issues (presentedMac token)) {p : TokenParts}
    (hp : parseToken (some token) = some p) {text : Bytes} (htext : text.length ≤ 15)
    (hsigned : macHex hmac p.nonce p.issued text = p.mac) :
    ∃ s ∈ issues, s.Carries hmac token ∧ p = ⟨s.nonce, s.issued, s.mac hmac⟩ ∧ text = s.answer hmac := by
  obtain ⟨hnonce, htime, hpresented, hlength, -, -, -⟩ := parseToken_eq_some_iff.mp hp
  obtain ⟨s, hs, hgiven⟩ := hsecure.unforgeable _ (hsigned.trans hpresented.symm)
  -- the mac is that of the message which was signed
  have hdigest := Digest.ext_of_hex (hsigned.trans (hpresented.symm.trans hgiven))
  have hrange : InRange p.issued := by
    have := strtoll_range ((afterByte 46 token).takeWhile (· ≠ 46))
    rwa [htime] at this
  obtain ⟨hn, hi, ht⟩ := macMessage_inj hlength s.length_nonce hrange s.range htext
    (by rw [s.length_answer]; decide) (hsecure.injective s hs _ hdigest)
  refine ⟨s, hs, ⟨hnonce.trans hn, hi ▸ htime, hgiven⟩, ?_, ht⟩
  obtain ⟨nonce, issued, mac⟩ := p
  obtain rfl : nonce = s.nonce := hn
  obtain rfl : issued = s.issued := hi
  obtain rfl : mac = s.mac hmac := hpresented.symm.trans hgiven
  rfl

/-! ## Answers -/

/-- An answer that is not cut is the one looked at. -/
theorem normalAnswer_of_take {text : Bytes} (hlen : text.length = 5)
    (h : (normalAnswer answer).take 15 = text) : normalAnswer answer = text := by
  have hle : (normalAnswer answer).length ≤ 15 := by
    have hcut := congrArg List.length h
    rw [List.length_take, hlen] at hcut
    omega
  rwa [List.take_of_length_le hle] at h

/-- The answer of an issued token is accepted within its time. -/
theorem Issue.Carries.check (h : s.Carries hmac token) (hpos : 0 < s.issued)
    (hanswer : normalAnswer answer = s.answer hmac) (hmin : captchaMinSecs ≤ now - s.issued)
    (hmax : now - s.issued ≤ captchaTtlSecs) :
    captchaCheck hmac (some token) (some answer) now = .ok s.nonce := by
  have hnorm : (normalAnswer answer).take 15 = s.answer hmac := by
    rw [hanswer]
    exact List.take_of_length_le (by rw [s.length_answer]; decide)
  have hmac : macHex hmac s.nonce s.issued (s.answer hmac) = s.mac hmac := rfl
  simp only [captchaCheck, h.parse hpos, hnorm, hmac, ne_eq, not_true_eq_false, if_false,
    if_neg (not_lt.mpr hmax), if_neg (not_lt.mpr hmin), gt_iff_lt]

theorem acceptsExactly (hsecure : hmac.Secure issues (presentedMac token))
    (hpos : ∀ s ∈ issues, 0 < s.issued) : AcceptsExactly hmac issues token answer now := by
  intro nonce
  constructor
  · intro h
    simp only [captchaCheck] at h
    cases hp : parseToken (some token) with
    | none =>
      rw [hp] at h
      cases h
    | some p =>
      simp only [hp] at h
      split_ifs at h with hsigned hold hfast
      obtain rfl := CaptchaResult.ok.inj h
      obtain ⟨s, hs, hcarries, rfl, htext⟩ := issue_of_mac hsecure hp
        (List.length_take_le 15 _) (not_not.mp hsigned)
      exact ⟨s, hs, hcarries, rfl, normalAnswer_of_take (s.length_answer hmac) htext,
        not_lt.mp hfast, not_lt.mp hold⟩
  · rintro ⟨s, hs, hcarries, rfl, hanswer, hmin, hmax⟩
    exact hcarries.check (hpos s hs) hanswer hmin hmax

/-! ## Pictures -/

/-- What is drawn is drawn of a token that was issued. -/
theorem tokenDrawing_eq_some (hsecure : hmac.Secure issues (presentedMac token)) {d : Bytes × Bytes}
    (h : tokenDrawing hmac (some token) now = some d) :
    ∃ s ∈ issues, s.Carries hmac token ∧ now - s.issued ≤ captchaTtlSecs ∧ s.issued ≤ now + 60 ∧
      d = (s.answer hmac, drawSeed hmac s.nonce s.issued) := by
  simp only [tokenDrawing, tokenGenuine] at h
  cases hp : parseToken (some token) with
  | none =>
    rw [hp] at h
    cases h
  | some p =>
    simp only [hp] at h
    by_cases hsigned : macHex hmac p.nonce p.issued (deriveText hmac p.nonce p.issued) = p.mac
    · simp only [if_pos hsigned] at h
      split_ifs at h with htime
      have hlen : (deriveText hmac p.nonce p.issued).length ≤ 15 := by
        rw [deriveText, List.length_map]
        exact (List.length_take_le _ _).trans (by decide)
      obtain ⟨s, hs, hcarries, rfl, -⟩ := issue_of_mac hsecure hp hlen hsigned
      simp only [not_or, gt_iff_lt, not_lt] at htime
      exact ⟨s, hs, hcarries, htime.1, htime.2, (Option.some.inj h).symm⟩
    · simp only [if_neg hsigned] at h
      cases h

theorem showsAnswer (hsecure : hmac.Secure issues (presentedMac token))
    (hpos : ∀ s ∈ issues, 0 < s.issued) (picture : Bytes → Bytes → Option Bytes) :
    ShowsAnswer hmac issues token now picture
      ((tokenDrawing hmac (some token) now).bind fun d => picture d.1 d.2) := by
  intro hdrawn
  cases hd : tokenDrawing hmac (some token) now with
  | none =>
    rw [hd] at hdrawn
    exact absurd rfl hdrawn
  | some d =>
    obtain ⟨s, hs, hcarries, hmax, hahead, rfl⟩ := tokenDrawing_eq_some hsecure hd
    exact ⟨s, hs, hcarries, hmax, hahead, rfl, fun _ _ hanswer hmin htime =>
      hcarries.check (hpos s hs) hanswer hmin htime⟩

/-- **A captcha is accepted and drawn exactly as it should be**, for every token, answer and time, when
the tokens were issued at positive times. -/
theorem captcha_exact (draw : Drawing) (hsecure : hmac.Secure issues (presentedMac token))
    (hpos : ∀ s ∈ issues, 0 < s.issued) : CaptchaExact hmac draw issues token answer now where
  accepts := acceptsExactly hsecure hpos
  gif := showsAnswer hsecure hpos (draw.imageOf · · true)
  wbmp := showsAnswer hsecure hpos draw.drawWbmp
  text := showsAnswer hsecure hpos draw.drawTextArt

/-! ## Tokens of one nonce -/

/-- A keyed hash by its digests of some messages, all others having one digest of zeros. -/
def tableHmac (table : List (Bytes × Digest)) : Hmac := fun msg =>
  (table.lookup msg).getD ⟨List.replicate 32 0, rfl⟩

/-- A digest of the table is that of one message. -/
theorem tableHmac_inj {table : List (Bytes × Digest)} (hnodup : (table.map (·.2.bytes)).Nodup)
    (hzero : List.replicate 32 0 ∉ table.map (·.2.bytes)) {m m' : Bytes} (hm : (table.lookup m).isSome)
    (h : tableHmac table m' = tableHmac table m) : m' = m := by
  have hmem : ∀ {m : Bytes} {d : Digest}, table.lookup m = some d → (m, d) ∈ table := by
    intro m d hd
    obtain ⟨l, r, rfl, -⟩ := List.lookup_eq_some_iff.mp hd
    simp
  obtain ⟨d, hd⟩ := Option.isSome_iff_exists.mp hm
  rw [tableHmac, tableHmac, hd, Option.getD_some] at h
  cases hd' : table.lookup m' with
  | none =>
    rw [hd', Option.getD_none] at h
    subst h
    exact absurd (List.mem_map_of_mem (f := fun p : Bytes × Digest => p.2.bytes) (hmem hd)) hzero
  | some d' =>
    rw [hd', Option.getD_some] at h
    subst h
    exact (Prod.mk.inj (List.inj_on_of_nodup_map hnodup (hmem hd') (hmem hd) rfl)).1

/-- The HMAC-SHA256 of the messages of two tokens, under the key of the bytes from 0 to 31. -/
def firstTable : List (Bytes × Digest) :=
  [(lit "captcha-text|000102030405060708090a0b0c0d0e0f|1000",
      ⟨[114, 241, 110, 11, 130, 63, 113, 116, 20, 22, 45, 178, 220, 254, 169, 78, 82, 15, 1, 218, 104,
        25, 28, 116, 175, 144, 7, 193, 119, 188, 196, 55], rfl⟩),
    (lit "captcha|000102030405060708090a0b0c0d0e0f|1000|9R3RW",
      ⟨[108, 139, 138, 37, 194, 166, 23, 38, 233, 116, 119, 68, 34, 1, 208, 173, 203, 70, 225, 16, 68,
        122, 203, 140, 104, 224, 228, 90, 170, 52, 244, 93], rfl⟩),
    (lit "captcha-text|000102030405060708090a0b0c0d0e0f|0",
      ⟨[247, 111, 95, 200, 210, 25, 38, 180, 246, 156, 108, 21, 157, 192, 31, 42, 204, 224, 106, 89,
        151, 38, 182, 225, 33, 107, 66, 65, 100, 227, 79, 146], rfl⟩),
    (lit "captcha|000102030405060708090a0b0c0d0e0f|0|Y4EXE",
      ⟨[78, 129, 228, 232, 164, 188, 29, 57, 149, 53, 29, 39, 190, 95, 167, 197, 93, 216, 224, 55, 125,
        96, 179, 250, 203, 54, 105, 207, 46, 52, 214, 97], rfl⟩)]

/-- The keyed hash of the table. -/
def firstHmac : Hmac := tableHmac firstTable

/-- The hash is secure for a token of these that was issued, when it is presented. -/
theorem firstHmac_secure {s : Issue} (h : (firstTable.lookup (s.message firstHmac)).isSome) :
    firstHmac.Secure {s} (s.mac firstHmac) where
  injective := by
    rintro t ht msg hmsg
    obtain rfl := Set.mem_singleton_iff.mp ht
    exact tableHmac_inj (by decide) (by decide) h hmsg
  unforgeable _ _ := ⟨s, Set.mem_singleton s, rfl⟩

/-- The token that is issued at a time for the nonce of the bytes from 0 to 15. -/
def issueAt (issued : ℤ) (h : InRange issued) : Issue :=
  ⟨[0, 1, 2, 3, 4, 5, 6, 7, 8, 9, 10, 11, 12, 13, 14, 15], rfl, issued, h⟩

/-- Pictures that are the text itself. -/
def plainDrawing : Drawing := ⟨fun text _ _ => some text, fun text _ => some text, fun text _ => some text, id⟩

theorem captcha_exact_issued :
    CaptchaExact firstHmac plainDrawing {issueAt 1000 (by decide)}
      ((issueAt 1000 (by decide)).token firstHmac) (lit " 9r 3rw") 1010 := by
  refine captcha_exact plainDrawing ?_ ?_
  · have hmac : presentedMac ((issueAt 1000 (by decide)).token firstHmac) =
        (issueAt 1000 (by decide)).mac firstHmac := by decide
    rw [hmac]
    exact firstHmac_secure (by decide)
  · rintro s rfl
    decide

/-- **A token issued at time 0 is refused**, whatever is answered: `parse_token` takes positive times
only. -/
theorem captcha_at_zero :
    firstHmac.Secure {issueAt 0 (by decide)} (presentedMac ((issueAt 0 (by decide)).token firstHmac)) ∧
      ¬ AcceptsExactly firstHmac {issueAt 0 (by decide)} ((issueAt 0 (by decide)).token firstHmac)
        (lit "Y4EXE") 10 := by
  have hmac : presentedMac ((issueAt 0 (by decide)).token firstHmac) =
      (issueAt 0 (by decide)).mac firstHmac := by decide
  refine ⟨hmac ▸ firstHmac_secure (by decide), fun h => ?_⟩
  have hok := (h (issueAt 0 (by decide)).nonce).mpr
    ⟨issueAt 0 (by decide), rfl, ⟨by decide, by decide, hmac⟩, rfl, by decide,
      by decide, by decide⟩
  have hmalformed : captchaCheck firstHmac (some ((issueAt 0 (by decide)).token firstHmac))
      (some (lit "Y4EXE")) 10 = .malformed := by decide
  exact absurd (hok.symm.trans hmalformed) nofun

end BoatRudder.Utils
