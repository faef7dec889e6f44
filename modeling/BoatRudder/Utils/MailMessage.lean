import BoatRudder.Db.CmsSiteSettings
import BoatRudder.Extensions.Registry
import BoatRudder.Formats.Calendar
import BoatRudder.Formats.MailText
import BoatRudder.Text.Padded
import BoatRudder.Text.Utf8
import BoatRudder.Utils.Mailer

/-! # The message that is sent

`build_message` puts a letter of the queue into a message: eight header lines, the empty line, the
text. Into the header lines go the recipient and the subject, which `mailer_enqueue` has checked, the
sender's address, which is read from `settings.conf` at the start of the server, and the sender's name:
that of `settings.conf`, or else the site's, which an administrator stores with a form. -/

namespace BoatRudder.Utils

open Db

/-! ## The settings of the sender -/

/-- The settings of the sender: `mail_from` and `mail_from_name`. -/
structure MailSettings where
  mailFrom : Bytes := []
  mailFromName : Bytes := []
  deriving DecidableEq, Repr

/-- What `load_config` does with a key and its value: the two buffers have 256 and 128 bytes. -/
def MailSettings.set (s : MailSettings) (key value : Bytes) : MailSettings :=
  if key = lit "mail_from" then { s with mailFrom := value.take 255 }
  else if key = lit "mail_from_name" then { s with mailFromName := value.take 127 }
  else s

/-- A line of `settings.conf` read: an empty one, a comment and one without `=` are passed over. -/
def MailSettings.readLine (s : MailSettings) (line : Bytes) : MailSettings :=
  let l := cstr line
  if l.head? = some 10 ∨ l.head? = some 35 ∨ 61 ∉ l then s
  else s.set (l.takeWhile (· ≠ 61)) ((afterByte 61 l).takeWhile (· ≠ 10))

/-- The loop of `load_config`, as far as it sets these. -/
def loadMailSettings (file : Bytes) : MailSettings :=
  (Extensions.fgetsLines 512 [] file).foldl MailSettings.readLine {}

/-! ## The message -/

/-- `header_text`: a text of ASCII as it is, any other as an encoded word. `base64` is
`sodium_bin2base64`, and the buffer has sixteen bytes more than that writes. -/
def headerText (base64 : Bytes → Bytes) (s : Bytes) : Bytes :=
  if s.all isAscii then s else lit "=?UTF-8?B?" ++ base64 s ++ lit "?="

/-- `%a`, from Monday. -/
def dayNames : List String := ["Mon", "Tue", "Wed", "Thu", "Fri", "Sat", "Sun"]

/-- `%b`. -/
def monthNames : List String :=
  ["Jan", "Feb", "Mar", "Apr", "May", "Jun", "Jul", "Aug", "Sep", "Oct", "Nov", "Dec"]

/-- The date `strftime` writes of a time, into a buffer of 64 bytes. -/
def mailDate (now : ℕ) : Bytes :=
  let day := Calendar.dateOf (now / 86400 : ℕ)
  (lit (dayNames.getD (Calendar.weekday (now / 86400 : ℕ)).toNat "") ++ lit ", " ++ padded 2 day.day ++ lit " " ++
    lit (monthNames.getD (day.month - 1) "") ++ lit " " ++ decimal day.year.toNat ++ lit " " ++
    padded 2 (now / 3600 % 24) ++ lit ":" ++ padded 2 (now / 60 % 60) ++ lit ":" ++ padded 2 (now % 60) ++
    lit " +0000").take 63

/-- What a message takes from outside: the time, and twelve random bytes. -/
structure MailStamp where
  now : ℕ
  random : Bytes
  /-- `rnd` is an array of twelve bytes. -/
  length_random : random.length = 12

/-- `domain`: the sender's, with the `@` before it. -/
def mailDomain (mailFrom : Bytes) : Bytes :=
  if 64 ∈ mailFrom then mailFrom.dropWhile (· ≠ 64) else lit "@localhost"

/-- The body of the message. -/
def mailBody : Bytes → Bytes
  | [] => crlf
  | b :: text =>
    if b = 13 then mailBody text
    else if b = 10 then 13 :: 10 :: mailBody text
    else b :: mailBody text

/-- The name a message is sent under, before `header_text`. -/
def senderName (settings : MailSettings) (site : Option Bytes) : Bytes :=
  if settings.mailFromName ≠ [] then settings.mailFromName else cmsGetSiteName site

/-- The header lines of the format, with what is put into them. -/
def mailHeaders (fromName mailFrom recipient subject : Bytes) (stamp : MailStamp) : List Bytes :=
  [lit "Date: " ++ mailDate stamp.now,
    lit "From: " ++ fromName ++ lit " <" ++ mailFrom ++ lit ">",
    lit "To: <" ++ recipient ++ lit ">",
    lit "Subject: " ++ subject,
    lit "Message-ID: <" ++ bin2hex stamp.random ++ mailDomain mailFrom ++ lit ">",
    lit "MIME-Version: 1.0",
    lit "Content-Type: text/plain; charset=UTF-8",
    lit "Content-Transfer-Encoding: 8bit"]

/-- The header lines that `build_message` writes for a letter. -/
def writtenHeaders (base64 : Bytes → Bytes) (settings : MailSettings) (site : Option Bytes) (letter : Letter)
    (stamp : MailStamp) : List Bytes :=
  mailHeaders (headerText base64 (senderName settings site)) settings.mailFrom letter.recipient
    (headerText base64 letter.subject) stamp

/-- `build_message`: what stands in `msg`, a buffer of `cap` bytes. -/
def buildMessage (base64 : Bytes → Bytes) (settings : MailSettings) (site : Option Bytes) (letter : Letter)
    (stamp : MailStamp) : Bytes :=
  let fromName := headerText base64 (senderName settings site)
  let subject := headerText base64 letter.subject
  let body := mailBody letter.text
  let cap := fromName.length + subject.length + body.length + letter.recipient.length + 512 +
    settings.mailFrom.length * 2
  (renderHead (mailHeaders fromName settings.mailFrom letter.recipient subject stamp) ++ body).take (cap - 1)

/-! ## What it holds -/

/-- The line feed that ends a line of `settings.conf` is in no value. -/
theorem ten_notMem_loadMailSettings (file : Bytes) :
    10 ∉ (loadMailSettings file).mailFrom ∧ 10 ∉ (loadMailSettings file).mailFromName := by
  have hset : ∀ (s : MailSettings) (key : Bytes) {value : Bytes}, 10 ∉ value →
      10 ∉ s.mailFrom ∧ 10 ∉ s.mailFromName →
      10 ∉ (s.set key value).mailFrom ∧ 10 ∉ (s.set key value).mailFromName := by
    intro s key value hvalue hs
    have htake (k : ℕ) : 10 ∉ value.take k := fun h => hvalue (List.mem_of_mem_take h)
    rw [MailSettings.set]
    split_ifs
    · exact ⟨htake 255, hs.2⟩
    · exact ⟨hs.1, htake 127⟩
    · exact hs
  have hread : ∀ (s : MailSettings) (line : Bytes), 10 ∉ s.mailFrom ∧ 10 ∉ s.mailFromName →
      10 ∉ (s.readLine line).mailFrom ∧ 10 ∉ (s.readLine line).mailFromName := by
    intro s line hs
    rw [MailSettings.readLine]
    split_ifs
    · exact hs
    · exact hset s _ (fun h => by simpa using List.mem_takeWhile_imp h) hs
  have hrun : ∀ (lines : List Bytes) (s : MailSettings), 10 ∉ s.mailFrom ∧ 10 ∉ s.mailFromName →
      10 ∉ (lines.foldl MailSettings.readLine s).mailFrom ∧
        10 ∉ (lines.foldl MailSettings.readLine s).mailFromName := by
    intro lines
    induction lines with
    | nil => exact fun s hs => hs
    | cons line lines ih => exact fun s hs => ih _ (hread s line hs)
  exact hrun _ {} ⟨List.not_mem_nil, List.not_mem_nil⟩

/-- The body is not longer than the text with its line breaks as CR LF. -/
theorem length_mailBody_le (text : Bytes) : (mailBody text).length ≤ (crlfText text).length := by
  fun_induction crlfText text with
  | case1 => exact Nat.le_refl _
  | case2 t ih => exact Nat.add_le_add_right ih 2
  | case3 t ih => exact Nat.add_le_add_right ih 2
  | case4 b t _ hlf ih =>
    rw [mailBody, if_neg hlf]
    split_ifs
    · exact Nat.le_succ_of_le ih
    · exact Nat.succ_le_succ ih

/-- **The body is the text with its line breaks as CR LF** exactly where each carriage return of it is half
of a line break. -/
theorem mailBody_eq_iff (text : Bytes) : mailBody text = crlfText text ↔ ReturnsEndLines text := by
  fun_induction crlfText text with
  | case1 => exact iff_of_true rfl returnsEndLines_nil
  | case2 t ih =>
    rw [returnsEndLines_cons, returnsEndLines_cons, ← ih]
    simp [mailBody, crlf]
  | case3 t ih =>
    rw [returnsEndLines_cons, ← ih]
    simp [mailBody, crlf]
  | case4 b t hbreak hlf ih =>
    rw [returnsEndLines_cons, ← ih, mailBody, if_neg hlf]
    split_ifs with hcr
    · -- a carriage return of a line is left out of the body
      have hshort : mailBody t ≠ b :: crlfText t := fun heq => by
        have hlen := congrArg List.length heq
        have hle := length_mailBody_le t
        rw [List.length_cons] at hlen
        omega
      have hno : t.head? ≠ some 10 := fun hhead => by
        obtain ⟨u, rfl⟩ := List.head?_eq_some_iff.mp hhead
        exact hbreak u hcr rfl
      exact iff_of_false hshort fun h => hno (h.1 hcr)
    · simp [hcr]

theorem length_mailDomain_le (mailFrom : Bytes) : (mailDomain mailFrom).length ≤ mailFrom.length + 10 := by
  rw [mailDomain]
  split_ifs
  · exact (length_dropWhile_le _ mailFrom).trans (Nat.le_add_right _ _)
  · exact Nat.le_add_left _ _

/-- The message is not cut: its buffer holds it whole. -/
theorem buildMessage_eq (base64 : Bytes → Bytes) (settings : MailSettings) (site : Option Bytes)
    (letter : Letter) (stamp : MailStamp) :
    buildMessage base64 settings site letter stamp =
      renderHead (writtenHeaders base64 settings site letter stamp) ++ mailBody letter.text := by
  rw [buildMessage, writtenHeaders]
  apply List.take_of_length_le
  have hdate : (mailDate stamp.now).length ≤ 63 := List.length_take_le _ _
  have hdomain := length_mailDomain_le settings.mailFrom
  have hid : (bin2hex stamp.random).length = 24 := by rw [length_bin2hex, stamp.length_random]
  -- the texts of the format have 164 bytes, and the empty line and the ends of the others 18
  have hlit : ∀ s : String, (lit s).length = s.length := fun s => by rw [lit, List.length_map, String.length_toList]
  simp only [mailHeaders, List.length_append, length_renderHead, List.map_cons, List.map_nil, List.sum_cons,
    List.sum_nil, List.length_cons, List.length_nil, hid, hlit]
  have hformat : "Date: ".length + "From: ".length + " <".length + ">".length + "To: <".length + ">".length +
      "Subject: ".length + "Message-ID: <".length + ">".length + "MIME-Version: 1.0".length +
      "Content-Type: text/plain; charset=UTF-8".length + "Content-Transfer-Encoding: 8bit".length ≤ 200 := by
    decide
  omega

/-! ## Header injection

A message is to have the header lines of `build_message` and no other, whatever the recipient, the
subject, the sender's settings and the name of the site are. Recipient and subject have been checked
when the letter was queued. The sender's name and address are checked nowhere: `header_text` encodes
a name only where it is not ASCII, and a name with line ends of its own makes headers. The text is to be
that of the letter, its line breaks as CR LF (**`uninjected_iff`**). -/

/-- Nothing is injected into the message of a letter, where these are the header lines written. -/
structure Uninjected (written : List Bytes) (letter : Letter) (msg : Bytes) : Prop where
  /-- Before the first empty line there are the header lines written, and nothing else. -/
  headers : (readMessage msg).1 = written
  /-- Each is a single line. -/
  single : ∀ line ∈ written, IsLine line
  /-- There is one recipient, that of the letter. -/
  recipient : (readMessage msg).1.filter (fun line => (lit "to:").isPrefixOf (lower line)) =
    [lit "To: <" ++ letter.recipient ++ lit ">"]
  /-- Behind the empty line is the text, each line break of it CR LF. -/
  text : (readMessage msg).2 = crlfText letter.text

/-! ## The strings that are put into the lines -/

/-- A string without control characters is a line. -/
theorem isLine_of_hasControl_eq_false {s : Bytes} (h : hasControl s = false) : IsLine s := by
  rw [hasControl, List.any_eq_false] at h
  constructor
  · exact fun hmem => h 13 hmem (by decide)
  · exact fun hmem => h 10 hmem (by decide)

/-- What is accepted is of single lines. -/
theorem isLine_of_accepted {letter : Letter} (h : letter.accepted = true) :
    IsLine letter.recipient ∧ IsLine letter.subject := by
  simp only [Letter.accepted, Bool.and_eq_true, Bool.not_eq_true'] at h
  obtain ⟨⟨haddress, hsubject⟩, -⟩ := h
  refine ⟨isLine_of_hasControl_eq_false ?_, isLine_of_hasControl_eq_false hsubject⟩
  by_contra hcontrol
  rw [mailerValidAddress, if_pos (by simp [hcontrol])] at haddress
  cases haddress

/-- Bytes that are printed make a line. -/
theorem isLine_of_forall {s : Bytes} {p : UInt8 → Bool} (hcr : p 13 = false) (hlf : p 10 = false)
    (h : ∀ b ∈ s, p b = true) : IsLine s := by
  constructor
  · exact fun hmem => Bool.false_ne_true (hcr.symm.trans (h 13 hmem))
  · exact fun hmem => Bool.false_ne_true (hlf.symm.trans (h 10 hmem))

/-- The characters of base64. -/
def isBase64 (b : UInt8) : Bool := isAlnum b || b == 43 || b == 47 || b == 61

/-- **What `header_text` writes is a line** exactly where the text is one, or not ASCII. -/
theorem isLine_headerText_iff {base64 : Bytes → Bytes} (hbase64 : ∀ s, ∀ b ∈ base64 s, isBase64 b = true)
    (s : Bytes) : IsLine (headerText base64 s) ↔ (s.all isAscii = true → IsLine s) := by
  rw [headerText]
  split_ifs with hascii
  · simp [hascii]
  · have hword : IsLine (base64 s) := isLine_of_forall rfl rfl (hbase64 s)
    have hopen : IsLine (lit "=?UTF-8?B?") := by decide
    have hclose : IsLine (lit "?=") := by decide
    simp [isLine_append, hopen, hword, hclose, hascii]

theorem isLine_bin2hex (s : Bytes) : IsLine (bin2hex s) :=
  isLine_of_forall (p := fun b => isDigit b || (97 ≤ b && b ≤ 102)) rfl rfl fun _ => lowerHex_of_mem_bin2hex

/-- A date is a line. -/
theorem isLine_mailDate (now : ℕ) : IsLine (mailDate now) := by
  have hname : ∀ {names : List String}, (∀ s ∈ names, IsLine (lit s)) → ∀ i, IsLine (lit (names.getD i "")) := by
    intro names hnames i
    rw [List.getD_eq_getElem?_getD]
    cases hi : names[i]? with
    | none => decide
    | some s => exact hnames s (List.mem_of_getElem? hi)
  have hpadded (w n : ℕ) : IsLine (padded w n) :=
    isLine_of_forall (p := isDigit) rfl rfl fun _ => isDigit_of_mem_padded
  have hdecimal (n : ℕ) : IsLine (decimal n) :=
    isLine_of_forall (p := isDigit) rfl rfl fun _ => isDigit_of_mem_decimal
  have hday := @hname dayNames (by decide)
  have hmonth := @hname monthNames (by decide)
  have hcomma : IsLine (lit ", ") := by decide
  have hblank : IsLine (lit " ") := by decide
  have hcolon : IsLine (lit ":") := by decide
  have hzone : IsLine (lit " +0000") := by decide
  -- the buffer may only leave bytes out
  have htake : ∀ {s : Bytes} (k : ℕ), IsLine s → IsLine (s.take k) := fun k hs =>
    ⟨fun h => hs.1 (List.mem_of_mem_take h), fun h => hs.2 (List.mem_of_mem_take h)⟩
  apply htake
  simp only [isLine_append, hday, hmonth, hpadded, hdecimal, hcomma, hblank, hcolon, hzone, and_self]

theorem isLine_mailDomain {mailFrom : Bytes} (h : IsLine mailFrom) : IsLine (mailDomain mailFrom) := by
  rw [mailDomain]
  split_ifs
  · have hsuffix := List.dropWhile_suffix (l := mailFrom) (· ≠ 64)
    exact ⟨fun hmem => h.1 (hsuffix.subset hmem), fun hmem => h.2 (hsuffix.subset hmem)⟩
  · decide

/-! ## The header lines -/

/-- The header lines are lines where the four strings that are put into them are. -/
theorem isLine_mailHeaders_iff (fromName mailFrom recipient subject : Bytes) (stamp : MailStamp) :
    (∀ line ∈ mailHeaders fromName mailFrom recipient subject stamp, IsLine line) ↔
      IsLine fromName ∧ IsLine mailFrom ∧ IsLine recipient ∧ IsLine subject := by
  have hlit : ∀ s ∈ ["Date: ", "From: ", " <", ">", "To: <", "Subject: ", "Message-ID: <", "MIME-Version: 1.0",
      "Content-Type: text/plain; charset=UTF-8", "Content-Transfer-Encoding: 8bit"], IsLine (lit s) := by decide
  simp only [List.forall_mem_cons, List.not_mem_nil, false_implies, implies_true, and_true] at hlit
  simp only [mailHeaders, List.forall_mem_cons, List.not_mem_nil, false_implies, implies_true, and_true,
    isLine_append, hlit, isLine_mailDate, isLine_bin2hex, true_and]
  constructor
  · rintro ⟨⟨hname, hfrom⟩, hrecipient, hsubject, -⟩
    exact ⟨hname, hfrom, hrecipient, hsubject⟩
  · rintro ⟨hname, hfrom, hrecipient, hsubject⟩
    exact ⟨⟨hname, hfrom⟩, hrecipient, hsubject, isLine_mailDomain hfrom⟩

/-- No header line is empty. -/
theorem ne_nil_of_mem_mailHeaders {fromName mailFrom recipient subject line : Bytes} {stamp : MailStamp}
    (h : line ∈ mailHeaders fromName mailFrom recipient subject stamp) : line ≠ [] := by
  rintro rfl
  simp [mailHeaders, lit] at h

/-- One of the header lines is for the recipient. -/
theorem filter_to_mailHeaders (fromName mailFrom recipient subject : Bytes) (stamp : MailStamp) :
    (mailHeaders fromName mailFrom recipient subject stamp).filter
      (fun line => (lit "to:").isPrefixOf (lower line)) = [lit "To: <" ++ recipient ++ lit ">"] := rfl

/-! ## Injection -/

section
variable (base64 : Bytes → Bytes) (settings : MailSettings) (site : Option Bytes) (letter : Letter)
  (stamp : MailStamp)

/-- A message whose header lines are lines is read as they and the body. -/
theorem readMessage_buildMessage
    (h : ∀ line ∈ writtenHeaders base64 settings site letter stamp, IsLine line) :
    readMessage (buildMessage base64 settings site letter stamp) =
      (writtenHeaders base64 settings site letter stamp, mailBody letter.text) := by
  rw [buildMessage_eq]
  exact readMessage_renderHead (fun line hline => ⟨h line hline, ne_nil_of_mem_mailHeaders hline⟩) _

/-- Nothing is injected exactly where the lines written are lines and the text has no carriage return
but those of its line breaks. -/
theorem uninjected_iff_isLine :
    Uninjected (writtenHeaders base64 settings site letter stamp) letter
        (buildMessage base64 settings site letter stamp) ↔
      (∀ line ∈ writtenHeaders base64 settings site letter stamp, IsLine line) ∧
        ReturnsEndLines letter.text := by
  rw [← mailBody_eq_iff]
  constructor
  · intro h
    have htext := h.text
    rw [readMessage_buildMessage base64 settings site letter stamp h.single] at htext
    exact ⟨h.single, htext⟩
  · rintro ⟨hlines, htext⟩
    have hread := readMessage_buildMessage base64 settings site letter stamp hlines
    exact
      { headers := by rw [hread]
        single := hlines
        recipient := by
          rw [hread]
          exact filter_to_mailHeaders _ _ _ _ _
        text := by
          rw [hread]
          exact htext }

/-- **Nothing is injected into a message exactly where the sender's address is a line, the sender's name
is one or is not ASCII**, and each carriage return of the text is half of a line break. The name is that of
`settings.conf`, or else that of the site. -/
theorem uninjected_iff (hbase64 : ∀ s, ∀ b ∈ base64 s, isBase64 b = true)
    (haccepted : letter.accepted = true) :
    Uninjected (writtenHeaders base64 settings site letter stamp) letter
        (buildMessage base64 settings site letter stamp) ↔
      IsLine settings.mailFrom ∧
        ((senderName settings site).all isAscii = true → IsLine (senderName settings site)) ∧
          ReturnsEndLines letter.text := by
  obtain ⟨hrecipient, hsubject⟩ := isLine_of_accepted haccepted
  have hsubject' : IsLine (headerText base64 letter.subject) :=
    (isLine_headerText_iff hbase64 _).mpr fun _ => hsubject
  have hlines := isLine_mailHeaders_iff (headerText base64 (senderName settings site)) settings.mailFrom
    letter.recipient (headerText base64 letter.subject) stamp
  rw [isLine_headerText_iff hbase64] at hlines
  rw [uninjected_iff_isLine, writtenHeaders, hlines]
  constructor
  · rintro ⟨⟨hname, hfrom, -⟩, htext⟩
    exact ⟨hfrom, hname, htext⟩
  · rintro ⟨hfrom, hname, htext⟩
    exact ⟨⟨hname, hfrom, hrecipient, hsubject'⟩, htext⟩

/-- Of the settings that were read from their file, only a carriage return is in the way. -/
theorem isLine_loadMailSettings_iff (file : Bytes) :
    (IsLine (loadMailSettings file).mailFrom ↔ 13 ∉ (loadMailSettings file).mailFrom) ∧
      (IsLine (loadMailSettings file).mailFromName ↔ 13 ∉ (loadMailSettings file).mailFromName) :=
  ⟨and_iff_left (ten_notMem_loadMailSettings file).1, and_iff_left (ten_notMem_loadMailSettings file).2⟩

end

/-! ## Two sites -/

/-- A digit of base64. -/
def base64Digit (n : ℕ) : UInt8 :=
  (lit "ABCDEFGHIJKLMNOPQRSTUVWXYZabcdefghijklmnopqrstuvwxyz0123456789+/").getD (n % 64) 65

/-- Base64 with padding, three bytes in four digits. -/
def base64Original : Bytes → Bytes
  | [] => []
  | [a] => [base64Digit (a.toNat / 4), base64Digit (a.toNat * 16), 61, 61]
  | [a, b] =>
    [base64Digit (a.toNat / 4), base64Digit (a.toNat * 16 + b.toNat / 16), base64Digit (b.toNat * 4), 61]
  | a :: b :: c :: s =>
    base64Digit (a.toNat / 4) :: base64Digit (a.toNat * 16 + b.toNat / 16) ::
      base64Digit (b.toNat * 4 + c.toNat / 64) :: base64Digit c.toNat :: base64Original s

theorem isBase64_of_mem_base64Original (s : Bytes) : ∀ b ∈ base64Original s, isBase64 b = true := by
  have hdigit (n : ℕ) : isBase64 (base64Digit n) = true := by
    have hall : ∀ k < 64, isBase64 (base64Digit k) = true := by decide +kernel
    have hmod : base64Digit n = base64Digit (n % 64) := by rw [base64Digit, base64Digit, Nat.mod_mod]
    rw [hmod]
    exact hall _ (Nat.mod_lt _ (by decide))
  have hpad : isBase64 61 = true := by decide
  induction s using base64Original.induct with
  | case1 => simp [base64Original]
  | case2 a => simp [base64Original, hdigit, hpad]
  | case3 a b => simp [base64Original, hdigit, hpad]
  | case4 a b c s ih => simpa [base64Original, hdigit] using ih

/-- A shop that sends mail. -/
def shopSettings : MailSettings :=
  loadMailSettings (lit "# mail\nmail_smtp_url=smtp://localhost\nmail_from=shop@example.org\n")

/-- A letter it sends. -/
def shopLetter : Letter := ⟨lit "anna@example.org", lit "Your order", lit "Hello Anna,\r\nthank you."⟩

def shopStamp : MailStamp := ⟨1753000000, List.replicate 12 7, rfl⟩

/-- A site with an accent in its name, and more. -/
def cafeSite : Option Bytes := some (lit "Caf" ++ [0xC3, 0xA9] ++ lit "\r\nBcc: all@example.org")

/-- A name of a site that is not ASCII is encoded, with what else is in it. -/
theorem uninjected_iff_cafe :
    Uninjected (writtenHeaders base64Original shopSettings cafeSite shopLetter shopStamp) shopLetter
      (buildMessage base64Original shopSettings cafeSite shopLetter shopStamp) :=
  (uninjected_iff base64Original shopSettings cafeSite shopLetter shopStamp isBase64_of_mem_base64Original
    (by decide)).mpr ⟨by decide, by decide, (mailBody_eq_iff _).mp (by decide)⟩

/-- A site whose name the form of the settings has brought a line end into. -/
def shopSite : Option Bytes :=
  postSettings (lit "site_name=Shop%0D%0ABcc%3A+all%40example.org") none .done

/-- A name of a site that is ASCII adds a recipient. -/
theorem not_uninjected_shop :
    lit "Bcc: all@example.org <shop@example.org>" ∈
        (readMessage (buildMessage base64Original shopSettings shopSite shopLetter shopStamp)).1 ∧
      ¬ Uninjected (writtenHeaders base64Original shopSettings shopSite shopLetter shopStamp) shopLetter
        (buildMessage base64Original shopSettings shopSite shopLetter shopStamp) := by
  constructor
  · decide
  · intro h
    have hsingle := h.single
    revert hsingle
    decide

end BoatRudder.Utils
