import BoatRudder.Text.Numbers
import Mathlib.Data.Set.Defs

/-! # The challenge of the comment form

A captcha is a token `nonce.issued.mac` and the picture of a text. The text is derived from the nonce
and the time under the site's key, and the mac signs both together with it, so nothing is stored: an
answer is checked by signing it again, and the picture is drawn again from the token alone. -/

namespace BoatRudder.Utils

/-- `CAPTCHA_LENGTH`. -/
def captchaLength : ℕ := 5

/-- `CAPTCHA_TTL_SECS`. -/
def captchaTtlSecs : ℤ := 900

/-- `CAPTCHA_MIN_SECS`. -/
def captchaMinSecs : ℤ := 3

/-- `CAPTCHA_TOKEN_MAX`. -/
def captchaTokenMax : ℕ := 128

/-- `ALPHABET`. -/
def captchaAlphabet : Bytes := lit "ACDEFHJKMNPRTUVWXY34679"

/-- What `crypto_auth_hmacsha256` returns. -/
structure Digest where
  bytes : Bytes
  length : bytes.length = 32

/-- `hmac`, under the site's key. -/
abbrev Hmac : Type := Bytes → Digest

/-- The pictures of a text with the seed of their noise, `none` without memory for them, and
`sodium_bin2base64`. -/
structure Drawing where
  /-- `image_of`, as a PNG or as a GIF. -/
  imageOf : Bytes → Bytes → Bool → Option Bytes
  drawWbmp : Bytes → Bytes → Option Bytes
  drawTextArt : Bytes → Bytes → Option Bytes
  base64 : Bytes → Bytes

section

variable (hmac : Hmac)

/-! ## What is derived and signed -/

/-- `derive_text`. -/
def deriveText (nonce : Bytes) (issued : ℤ) : Bytes :=
  let h := hmac ((lit "captcha-text|" ++ nonce ++ 124 :: signed issued).take 95)
  (h.bytes.take captchaLength).map fun b =>
    captchaAlphabet.getD (b.toNat % captchaAlphabet.length) 0

/-- `draw_seed`. -/
def drawSeed (nonce : Bytes) (issued : ℤ) : Bytes :=
  (hmac ((lit "captcha-draw|" ++ nonce ++ 124 :: signed issued).take 95)).bytes

/-- The message that `mac_hex` signs. -/
def macMessage (nonce : Bytes) (issued : ℤ) (answer : Bytes) : Bytes :=
  (lit "captcha|" ++ nonce ++ 124 :: (signed issued ++ 124 :: answer)).take 127

/-- `mac_hex`. -/
def macHex (nonce : Bytes) (issued : ℤ) (answer : Bytes) : Bytes :=
  bin2hex (hmac (macMessage nonce issued answer)).bytes

/-! ## Tokens -/

/-- What `parse_token` fills in. -/
structure TokenParts where
  nonce : Bytes
  issued : ℤ
  mac : Bytes
deriving DecidableEq, Repr

/-- `parse_token`. -/
def parseToken : Option Bytes → Option TokenParts
  | none => none
  | some token =>
    let nonce := token.takeWhile (· ≠ 46)
    let rest := afterByte 46 token
    let mac := afterByte 46 rest
    if 46 ∉ token ∨ 46 ∉ rest ∨ nonce.length ≠ 32 ∨ mac.length ≠ 64 then none
    else if !nonce.all isXDigit then none
    else
      -- the number has to end at the second dot
      let number := strtoll rest
      if number.2 ≠ 46 :: mac ∨ number.1 ≤ 0 then none else some ⟨nonce, number.1, mac⟩

/-- `token_genuine`: the parts of a token of the site's own, and its answer. -/
def tokenGenuine (token : Option Bytes) : Option (TokenParts × Bytes) :=
  match parseToken token with
  | none => none
  | some parts =>
    let text := deriveText hmac parts.nonce parts.issued
    if macHex hmac parts.nonce parts.issued text = parts.mac then some (parts, text) else none

/-- `Captcha`. -/
structure Captcha where
  token : Bytes
  imageDataUri : Option Bytes

/-- `captcha_issue`, `raw` being what `randombytes_buf` drew, with its result. -/
def captchaIssue (draw : Drawing) (raw : Bytes) (issued : ℤ) (inlinePng : Bool) : Captcha × ℤ :=
  let nonce := bin2hex raw
  let text := deriveText hmac nonce issued
  let mac := macHex hmac nonce issued text
  let token := (nonce ++ 46 :: (signed issued ++ 46 :: mac)).take (captchaTokenMax - 1)
  if inlinePng then
    match draw.imageOf text (drawSeed hmac nonce issued) false with
    | none => (⟨token, none⟩, -1)
    | some png => (⟨token, some (lit "data:image/png;base64," ++ draw.base64 png)⟩, 0)
  else (⟨token, none⟩, 0)

/-- `captcha_answer`. -/
def captchaAnswer (token : Option Bytes) : Option Bytes := (tokenGenuine hmac token).map (·.2)

/-! ## Pictures by token -/

/-- `token_drawing`: the answer and the seed of a token that is genuine and not expired. -/
def tokenDrawing (token : Option Bytes) (now : ℤ) : Option (Bytes × Bytes) :=
  match tokenGenuine hmac token with
  | none => none
  | some (parts, text) =>
    if now - parts.issued > captchaTtlSecs ∨ parts.issued > now + 60 then none
    else some (text, drawSeed hmac parts.nonce parts.issued)

variable (draw : Drawing)

/-- `captcha_token_gif`. -/
def captchaTokenGif (token : Option Bytes) (now : ℤ) : Option Bytes :=
  (tokenDrawing hmac token now).bind fun d => draw.imageOf d.1 d.2 true

/-- `captcha_token_wbmp`. -/
def captchaTokenWbmp (token : Option Bytes) (now : ℤ) : Option Bytes :=
  (tokenDrawing hmac token now).bind fun d => draw.drawWbmp d.1 d.2

/-- `captcha_token_text`. -/
def captchaTokenText (token : Option Bytes) (now : ℤ) : Option Bytes :=
  (tokenDrawing hmac token now).bind fun d => draw.drawTextArt d.1 d.2

/-! ## Answers -/

/-- `CaptchaResult`, with the nonce that is filled in. -/
inductive CaptchaResult where
  | ok (nonce : Bytes)
  | wrong
  | expired
  | tooFast
  | malformed
deriving DecidableEq, Repr

/-- An answer without its blanks, in upper case. -/
def normalAnswer (answer : Bytes) : Bytes := ((cstr answer).filter fun b => !isSpace b).map toUpper

/-- `captcha_check`; of an answer no more than 15 characters are looked at. -/
def captchaCheck (token answer : Option Bytes) (now : ℤ) : CaptchaResult :=
  match answer, parseToken token with
  | some answer, some parts =>
    let norm := (normalAnswer answer).take 15
    if macHex hmac parts.nonce parts.issued norm ≠ parts.mac then .wrong
    else if now - parts.issued > captchaTtlSecs then .expired
    else if now - parts.issued < captchaMinSecs then .tooFast
    else .ok parts.nonce
  | _, _ => .malformed

end

/-! ## Messages -/

/-- The numbers of a token are those of 64 bits. -/
def InRange (n : ℤ) : Prop := -2 ^ 63 ≤ n ∧ n < 2 ^ 63

instance : DecidablePred InRange := fun _ => inferInstanceAs (Decidable (_ ∧ _))

/-- A message fits its buffer. -/
theorem macMessage_eq {nonce : Bytes} {issued : ℤ} {answer : Bytes} (hnonce : nonce.length = 32)
    (hissued : InRange issued) (hanswer : answer.length ≤ 15) :
    macMessage nonce issued answer = lit "captcha|" ++ nonce ++ 124 :: (signed issued ++ 124 :: answer) := by
  have hlen := length_signed_le hissued
  have hlit : (lit "captcha|").length = 8 := rfl
  refine List.take_of_length_le ?_
  simp only [List.length_append, List.length_cons, hlit]
  omega

/-- **A message says what was signed**: no separator in the answer moves its parts. -/
theorem macMessage_inj {nonce nonce' : Bytes} {issued issued' : ℤ} {answer answer' : Bytes}
    (hnonce : nonce.length = 32) (hnonce' : nonce'.length = 32) (hissued : InRange issued)
    (hissued' : InRange issued') (hanswer : answer.length ≤ 15) (hanswer' : answer'.length ≤ 15)
    (h : macMessage nonce issued answer = macMessage nonce' issued' answer') :
    nonce = nonce' ∧ issued = issued' ∧ answer = answer' := by
  rw [macMessage_eq hnonce hissued hanswer, macMessage_eq hnonce' hissued' hanswer',
    List.append_assoc, List.append_assoc] at h
  obtain ⟨hn, hrest⟩ := List.append_inj (List.append_cancel_left h) (hnonce.trans hnonce'.symm)
  have hbar : ∀ n : ℤ, 124 ∉ signed n := by
    intro n hmem
    rcases isDigit_of_mem_signed hmem with heq | hdigit
    · exact absurd heq (by decide)
    · exact absurd hdigit (by decide)
  have hrest := (List.cons.inj hrest).2
  -- the time ends at the first bar behind it
  have htime : signed issued = signed issued' := by
    have := congrArg (List.takeWhile (· ≠ 124)) hrest
    rwa [takeWhile_ne_append (hbar issued), takeWhile_ne_append (hbar issued')] at this
  have hans : answer = answer' := by
    have := congrArg (afterByte 124) hrest
    rwa [afterByte_append (hbar issued), afterByte_append (hbar issued')] at this
  exact ⟨hn, signed_inj hissued hissued' htime, hans⟩

/-! ## Tokens that were issued -/

/-- A call of `captcha_issue`: what it drew, and the time it was given. -/
structure Issue where
  raw : Bytes
  length : raw.length = 16
  issued : ℤ
  range : InRange issued

section

variable (hmac : Hmac) (s : Issue)

/-- The nonce of the token. -/
def Issue.nonce : Bytes := bin2hex s.raw

/-- The answer behind the token. -/
def Issue.answer : Bytes := deriveText hmac s.nonce s.issued

/-- The message its mac signs. -/
def Issue.message : Bytes := macMessage s.nonce s.issued (s.answer hmac)

/-- The mac of the token. -/
def Issue.mac : Bytes := macHex hmac s.nonce s.issued (s.answer hmac)

/-- The token that `captcha_issue` produced. -/
def Issue.token : Bytes := s.nonce ++ 46 :: (signed s.issued ++ 46 :: s.mac hmac)

theorem Issue.length_nonce : s.nonce.length = 32 := by
  rw [nonce, length_bin2hex, s.length]

theorem Issue.length_answer : (s.answer hmac).length = 5 := by
  rw [answer, deriveText, List.length_map, List.length_take, (hmac _).length]
  rfl

theorem Issue.length_mac : (s.mac hmac).length = 64 := by
  rw [mac, macHex, length_bin2hex, (hmac _).length]

end

end BoatRudder.Utils
