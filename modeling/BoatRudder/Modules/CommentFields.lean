import Mathlib.Data.List.Chain
import BoatRudder.Text.CharTexts

/-! # The fields of a comment

A name or a text that is sent is read as UTF-8, or as Windows-1252 where it is not, and then cleaned:
blanks are dropped or joined, control characters too, and what is left is checked. -/

namespace BoatRudder.Modules

/-! ## Reading a field -/

/-- `valid_utf8`. -/
def validUtf8 : Bytes → Bool
  | [] => true
  | b :: s =>
    match trailCount b with
    | none => false
    | some n => (s.take n).length == n && (s.take n).all continues && validUtf8 (s.drop n)
termination_by s => s.length

/-- `CP1252_HIGH`. -/
def cp1252High : List ℕ :=
  [0x20AC, 0, 0x201A, 0x0192, 0x201E, 0x2026, 0x2020, 0x2021, 0x02C6, 0x2030, 0x0160, 0x2039, 0x0152, 0,
    0x017D, 0,
    0, 0x2018, 0x2019, 0x201C, 0x201D, 0x2022, 0x2013, 0x2014, 0x02DC, 0x2122, 0x0161, 0x203A, 0x0153, 0,
    0x017E, 0x0178]

/-- The code point of a byte of Windows-1252, 0 where it has nothing. -/
def cp1252 (b : UInt8) : ℕ :=
  if b < 0x80 then b.toNat else if b < 0xA0 then cp1252High.getD (b.toNat - 0x80) 0 else b.toNat

/-- What `to_utf8` writes for a code point. -/
def writeCodePoint (cp : ℕ) : Bytes :=
  if cp = 0 then []
  else if cp < 0x80 then [UInt8.ofNat cp]
  else if cp < 0x800 then [UInt8.ofNat (0xC0 ||| cp >>> 6), UInt8.ofNat (0x80 ||| (cp &&& 0x3F))]
  else [UInt8.ofNat (0xE0 ||| cp >>> 12), UInt8.ofNat (0x80 ||| (cp >>> 6 &&& 0x3F)),
    UInt8.ofNat (0x80 ||| (cp &&& 0x3F))]

/-- `to_utf8`, with nothing for the -1 it returns when the text does not fit. -/
def toUtf8 (size : ℕ) (s : Bytes) : Option Bytes :=
  if validUtf8 s then some s
  else
    let out := s.flatMap fun b => writeCodePoint (cp1252 b)
    if out.length < size then some out else none

/-! ## Cleaning it -/

/-- `trim`. -/
def trim (s : Bytes) : Bytes := (s.dropWhile isSpace).rdropWhile isSpace

/-- A blank of a name. -/
def isNameBlank (b : UInt8) : Bool := b == 32 || b == 9

/-- Whether a name may have this byte, a blank apart. -/
def isCommenterByte (b : UInt8) : Bool := !(b < 0x80) || isAlnum b || (lit "._-'").contains b

/-- The loop of `clean_name`, `name` being what is written and `space` whether blanks were read last. The
writes stay behind the reads. -/
def nameLoop (name : Bytes) (space : Bool) : Bytes → Option Bytes
  | [] => some name
  | c :: s =>
    if isNameBlank c then nameLoop name true s
    else if isCommenterByte c then
      nameLoop ((if space && name ≠ [] then name ++ [32] else name) ++ [c]) false s
    else none

/-- `COMMENT_NAME_MIN`. -/
def commentNameMin : ℕ := 2

/-- `COMMENT_NAME_MAX`. -/
def commentNameMax : ℕ := 40

/-- `COMMENT_TEXT_MAX`. -/
def commentTextMax : ℕ := 2000

/-- `clean_name`: the name, or the message. -/
def cleanName (name : Bytes) : Except Bytes Bytes :=
  match nameLoop [] false (trim name) with
  | none => .error (lit "Your name may only use letters, digits, spaces and . _ - '")
  | some name =>
    if validUtf8 name = false then .error (lit "Your name has characters we can't read.")
    else if name.length < commentNameMin then .error (lit "Please give a name (at least 2 characters).")
    else if commentNameMax < name.length then .error (lit "Your name is too long.")
    else .ok name

/-- What the loop of `clean_text` writes for a byte. -/
def textByte (c : UInt8) : Option UInt8 :=
  if c = 13 then none
  else
    let c := if c = 9 then 32 else c
    if c < 0x20 ∧ c ≠ 10 then none
    else if c = 0x7F then none
    else some c

/-- `clean_text`: the text, or the message. -/
def cleanText (text : Bytes) : Except Bytes Bytes :=
  let text := trim (text.filterMap textByte)
  if validUtf8 text = false then .error (lit "Your comment has characters we can't read.")
  else if text = [] then .error (lit "Please write a comment.")
  else if commentTextMax < text.length then
    .error (lit "Your comment is too long (2000 characters at most).")
  else .ok text

/-- What becomes of the name in `comments_post`. -/
def postedName (name : Bytes) : Except Bytes Bytes :=
  match toUtf8 (commentNameMax * 2 + 1) name with
  | none => .error (lit "Your name is too long.")
  | some name => cleanName name

/-- What becomes of the text in `comments_post`. -/
def postedText (text : Bytes) : Except Bytes Bytes :=
  match toUtf8 (commentTextMax + 1) text with
  | none => .error (lit "Your comment is too long (2000 characters at most).")
  | some text => cleanText text

/-! ## What the fields are to be -/

/-- The control characters of Unicode. -/
def isControl (c : Char) : Bool := c.toNat < 0x20 || (0x7F ≤ c.toNat && c.toNat < 0xA0)

/-- A character that shows. -/
def isPrinted (c : Char) : Bool := !isControl c && c != ' '

/-- The field `sent` comes out as `t`, clean: a text in UTF-8 without control characters, save line feeds
where `feeds` says so, of a length between the limits and without blanks at its ends; and if a text was
sent, with all that shows of it. -/
structure CleanField (feeds : Bool) (least most : ℕ) (sent t : Bytes) : Prop where
  chars : TextOf (fun c => isControl c = false ∨ feeds = true ∧ c = '\n') t
  least_le : least ≤ t.length
  le_most : t.length ≤ most
  head : ∀ b ∈ t.head?, isSpace b = false
  last : ∀ b ∈ t.getLast?, isSpace b = false
  kept : ∀ cs : List Char, sent = cs.flatMap String.utf8EncodeChar →
    ∃ ds : List Char, t = ds.flatMap String.utf8EncodeChar ∧ ds.filter isPrinted = cs.filter isPrinted

/-- A name is refused or comes out clean, without two blanks in a row and such that cleaning it again
changes nothing. -/
def NameComesClean (sent : Bytes) : Prop :=
  ∀ t, postedName sent = .ok t → CleanField false commentNameMin commentNameMax sent t ∧
    (∀ a b, [a, b] <:+: t → isSpace a = true → isSpace b = false) ∧ cleanName t = .ok t

/-- A text is refused or comes out clean. -/
def TextComesClean (sent : Bytes) : Prop :=
  ∀ t, postedText sent = .ok t → CleanField true 1 commentTextMax sent t

/-! ## What is asked of what is sent -/

/-- A text in UTF-8, without the control characters that are not of ASCII. -/
def ProperText (s : Bytes) : Prop := TextOf (fun c => ¬ (0x80 ≤ c.toNat ∧ c.toNat < 0xA0)) s

/-- The words of a name. -/
def nameWords (name : Bytes) : List Bytes := strtok isNameBlank (trim name)

/-- Nothing in a name is against it: neither its letters, nor the length of its words with a blank between
two. -/
structure NameAccepted (name : Bytes) : Prop where
  letters : ∀ b ∈ trim name, isNameBlank b = true ∨ isCommenterByte b = true
  length : commentNameMin ≤ ((nameWords name).map List.length).sum + ((nameWords name).length - 1) ∧
    ((nameWords name).map List.length).sum + ((nameWords name).length - 1) ≤ commentNameMax

/-- The bytes of what shows. -/
def isPrintedByte (b : UInt8) : Bool := 0x20 < b && b != 0x7F

/-- Nothing in a text is against it: something in it shows, and from the first byte that does to the last
there are not too many to be kept. -/
structure TextAccepted (text : Bytes) : Prop where
  printed : ∃ b ∈ text, isPrintedByte b = true
  length : ((text.dropWhile fun b => !isPrintedByte b).rdropWhile fun b => !isPrintedByte b).countP
    (fun b => (textByte b).isSome) ≤ commentTextMax

/-! ## Which fields of a comment come out clean

`valid_utf8` asks for the patterns of characters and no more. A field without them is read as
Windows-1252, and what that gives is always a text; a field with them is kept as it is, and comes out
clean when it is a text itself, without the control characters beyond ASCII, or is refused for
something else. -/

/-! ## The test -/

variable {name s sent t : Bytes} {b : UInt8} {q : UInt8 → Bool}

theorem validUtf8_append {x : Bytes} (hx : CharPattern x) (s : Bytes) : validUtf8 (x ++ s) = validUtf8 s := by
  obtain ⟨b, t, rfl, hcount, ht⟩ := hx
  have hall : t.all continues = true := List.all_eq_true.mpr ht
  rw [List.cons_append, validUtf8, hcount]
  simp only [List.take_left, List.drop_left, beq_self_eq_true, hall, Bool.true_and]

theorem validUtf8_iff (s : Bytes) : validUtf8 s = true ↔ Patterned s := by
  constructor
  · intro h
    induction hn : s.length using Nat.strong_induction_on generalizing s with
    | _ n ih =>
      subst hn
      cases s with
      | nil => exact Patterned.nil
      | cons b s =>
        rw [validUtf8] at h
        cases hcount : trailCount b with
        | none => rw [hcount] at h; cases h
        | some n =>
          rw [hcount] at h
          simp only [Bool.and_eq_true, beq_iff_eq, List.all_eq_true] at h
          obtain ⟨⟨hlen, hall⟩, hrest⟩ := h
          have hx : CharPattern (b :: s.take n) := ⟨b, s.take n, rfl, by rw [hcount, hlen], hall⟩
          have hlt : (s.drop n).length < (b :: s).length := by
            rw [List.length_drop, List.length_cons]
            omega
          rw [← List.take_append_drop n s, ← List.cons_append]
          exact Patterned.pattern hx (ih _ hlt _ hrest rfl)
  · intro h
    induction h with
    | nil => rw [validUtf8]
    | pattern hx _ ih => rw [validUtf8_append hx, ih]

/-! ## Windows-1252 -/

/-- A byte gives nothing, or a character that is no control character beyond ASCII. -/
theorem writeCodePoint_cp1252 (b : UInt8) :
    writeCodePoint (cp1252 b) = [] ∨ writeCodePoint (cp1252 b) = String.utf8EncodeChar (Char.ofNat (cp1252 b)) ∧
      ¬ (0x80 ≤ (Char.ofNat (cp1252 b)).toNat ∧ (Char.ofNat (cp1252 b)).toNat < 0xA0) := by
  revert b
  decide +kernel

/-- What is read as Windows-1252 is a text. -/
theorem properText_cp1252 (s : Bytes) : ProperText (s.flatMap fun b => writeCodePoint (cp1252 b)) := by
  refine TextOf.flatMap fun b _ => ?_
  rcases writeCodePoint_cp1252 b with h | ⟨h, hproper⟩
  · rw [h]
    exact textOf_nil
  · rw [h]
    exact textOf_char hproper

theorem toUtf8_of_valid (h : validUtf8 s = true) (size : ℕ) : toUtf8 size s = some s := by
  rw [toUtf8, if_pos h]

/-- What is read is what was sent, or a text. -/
theorem toUtf8_eq_some {size : ℕ} (h : toUtf8 size s = some t) :
    (validUtf8 s = true ∧ t = s) ∨ validUtf8 s = false ∧ ProperText t := by
  by_cases hvalid : validUtf8 s = true
  · rw [toUtf8_of_valid hvalid] at h
    exact Or.inl ⟨hvalid, (Option.some.inj h).symm⟩
  · rw [toUtf8, if_neg hvalid] at h
    obtain ⟨-, h⟩ := Option.ite_none_right_eq_some.mp h
    rw [← Option.some.inj h]
    exact Or.inr ⟨by simpa using hvalid, properText_cp1252 s⟩

/-! ## Bytes -/

/-- What the classes of a byte have to do with each other. -/
theorem byteClasses (b : UInt8) :
    ((isSpace b = true → isAscii b = true) ∧ (isAscii b = false → isPrintedByte b = true) ∧
      (isSpace b = true → isPrintedByte b = false) ∧
      (isPrintedByte b = true → isControl (Char.ofNat b.toNat) = false ∨ isAscii b = false)) ∧
    ((isCommenterByte b = true → isNameBlank b = false → isPrintedByte b = true) ∧
      (isNameBlank b = true → isSpace b = true ∧ isCommenterByte b = false)) ∧
    (isPrintedByte b = true → textByte b = some b) ∧
      (isPrintedByte b = false → textByte b = none ∨ textByte b = some 10 ∨ textByte b = some 32) := by
  revert b
  decide +kernel

/-- What shows is beyond ASCII, or a character of it that is none of control and no blank. -/
theorem isPrintedByte_cases (b : UInt8) :
    (isAscii b = false → isPrintedByte b = true) ∧ (isSpace b = true → isPrintedByte b = false) ∧
      (isPrintedByte b = true → isControl (Char.ofNat b.toNat) = false ∨ isAscii b = false) :=
  (byteClasses b).1.2

/-- A byte of a name shows. -/
theorem isCommenterByte_cases (b : UInt8) :
    (isCommenterByte b = true → isNameBlank b = false → isPrintedByte b = true) ∧
      (isNameBlank b = true → isSpace b = true ∧ isCommenterByte b = false) := (byteClasses b).2.1

/-- What is kept of a text is what shows, a line feed or a blank. -/
theorem textByte_cases (b : UInt8) :
    (isPrintedByte b = true → textByte b = some b) ∧
      (isPrintedByte b = false → textByte b = none ∨ textByte b = some 10 ∨ textByte b = some 32) :=
  (byteClasses b).2.2

theorem not_isSpace_of_isPrintedByte (h : isPrintedByte b = true) : isSpace b = false := by
  cases hb : isSpace b with
  | false => rfl
  | true => exact absurd h (by rw [(isPrintedByte_cases b).2.1 hb]; decide)

/-! ## Trimming -/

theorem trim_head (s : Bytes) : ∀ b ∈ (trim s).head?, isSpace b = false := by
  intro b hb
  have hprefix : trim s <+: s.dropWhile isSpace := List.rdropWhile_prefix ..
  obtain ⟨r, hr⟩ := hprefix
  have hhead : b ∈ (s.dropWhile isSpace).head? := by
    rw [← hr]
    exact List.mem_head?_append_of_mem_head? hb
  have hnot := List.head?_dropWhile_not isSpace s
  rw [Option.mem_def.mp hhead] at hnot
  simpa using hnot

theorem trim_last (s : Bytes) : ∀ b ∈ (trim s).getLast?, isSpace b = false := by
  intro b hb
  obtain ⟨hne, rfl⟩ := List.mem_getLast?_eq_getLast hb
  exact Bool.eq_false_iff.mpr (List.rdropWhile_last_not isSpace (s.dropWhile isSpace) hne)

/-- A text without blanks at its ends stays. -/
theorem trim_eq_self (hhead : ∀ b ∈ s.head?, isSpace b = false)
    (hlast : ∀ b ∈ s.getLast?, isSpace b = false) : trim s = s := by
  have hdrop : s.dropWhile isSpace = s := by
    cases s with
    | nil => rfl
    | cons b s => rw [List.dropWhile_cons, hhead b rfl]; rfl
  rw [trim, hdrop, List.rdropWhile_eq_self_iff]
  intro hne
  rw [hlast _ (List.getLast?_eq_getLast_of_ne_nil hne)]
  decide

theorem filter_dropWhile {p : UInt8 → Bool} (h : ∀ b, p b = true → q b = false) (s : Bytes) :
    (s.dropWhile p).filter q = s.filter q := by
  induction s with
  | nil => rfl
  | cons b s ih =>
    rw [List.dropWhile_cons]
    split_ifs with hb
    · rw [ih, List.filter_cons, h b hb]
      rfl
    · rfl

theorem filter_rdropWhile {p : UInt8 → Bool} (h : ∀ b, p b = true → q b = false) (s : Bytes) :
    (s.rdropWhile p).filter q = s.filter q := by
  rw [List.rdropWhile, List.filter_reverse, filter_dropWhile h, ← List.filter_reverse, List.reverse_reverse]

/-- What no blank is stays. -/
theorem filter_trim (h : ∀ b, isSpace b = true → q b = false) (s : Bytes) :
    (trim s).filter q = s.filter q := by
  rw [trim, filter_rdropWhile h, filter_dropWhile h]

theorem patterned_trim (h : Patterned s) : Patterned (trim s) :=
  (h.dropWhile fun _ => isAscii_of_isSpace).rdropWhile fun _ => isAscii_of_isSpace

/-! ## The name -/

/-- Words with a blank between two. -/
def joinWords : List Bytes → Bytes
  | [] => []
  | w :: ws => w ++ ws.flatMap (32 :: ·)

theorem length_joinWords (ws : List Bytes) :
    (joinWords ws).length = (ws.map List.length).sum + (ws.length - 1) := by
  have hrest : ∀ vs : List Bytes, (vs.flatMap (32 :: ·)).length = (vs.map List.length).sum + vs.length := by
    intro vs
    induction vs with
    | nil => rfl
    | cons v vs ih =>
      rw [List.flatMap_cons, List.length_append, ih, List.map_cons, List.sum_cons, List.length_cons,
        List.length_cons]
      omega
  cases ws with
  | nil => rfl
  | cons w ws =>
    rw [joinWords, List.length_append, hrest, List.map_cons, List.sum_cons, List.length_cons]
    omega

/-- Blanks are skipped. -/
theorem nameLoop_dropWhile (name : Bytes) (space : Bool) (s : Bytes) :
    nameLoop name space s =
      nameLoop name (space || s.head?.any isNameBlank) (s.dropWhile isNameBlank) := by
  induction s generalizing space with
  | nil => rfl
  | cons c s ih =>
    cases hc : isNameBlank c with
    | false => simp [hc]
    | true =>
      rw [nameLoop, if_pos hc, ih, List.dropWhile_cons_of_pos hc]
      simp [hc]

/-- The letters of a word are written one behind the other. -/
theorem nameLoop_append {w : Bytes} (hw : ∀ c ∈ w, isNameBlank c = false ∧ isCommenterByte c = true)
    (t : Bytes) : nameLoop name false (w ++ t) = nameLoop (name ++ w) false t := by
  induction w generalizing name with
  | nil => simp
  | cons c w ih =>
    obtain ⟨⟨hblank, hbyte⟩, hw⟩ := List.forall_mem_cons.mp hw
    rw [List.cons_append, nameLoop, if_neg (by rw [hblank]; decide), if_pos hbyte, Bool.false_and,
      if_neg (by decide), ih hw, List.append_assoc, List.singleton_append]

/-- The first letter of a word comes behind a blank, if something is written. -/
theorem nameLoop_word {w : Bytes} (hne : w ≠ [])
    (hw : ∀ c ∈ w, isNameBlank c = false ∧ isCommenterByte c = true) (name : Bytes) (space : Bool) (t : Bytes) :
    nameLoop name space (w ++ t) =
      nameLoop ((if space && name ≠ [] then name ++ [32] else name) ++ w) false t := by
  cases w with
  | nil => exact absurd rfl hne
  | cons c w =>
    obtain ⟨⟨hblank, hbyte⟩, hw⟩ := List.forall_mem_cons.mp hw
    rw [List.cons_append, nameLoop, if_neg (by rw [hblank]; decide), if_pos hbyte, nameLoop_append hw,
      List.append_assoc, List.singleton_append]

/-- **The words that are left are written**, each behind a blank but the first of the name. -/
theorem nameLoop_eq (hs : ∀ b ∈ s, isNameBlank b = true ∨ isCommenterByte b = true)
    {space : Bool} (hcut : name = [] ∨ space = true ∨ ∀ c ∈ s.head?, isNameBlank c = true) :
    nameLoop name space s = some (if name = [] then joinWords (strtok isNameBlank s) else
      name ++ (strtok isNameBlank s).flatMap (32 :: ·)) := by
  induction hn : s.length using Nat.strong_induction_on generalizing s name space with
  | _ n ih =>
    subst hn
    rw [nameLoop_dropWhile]
    by_cases hnone : s.dropWhile isNameBlank = []
    · rw [hnone, strtok_eq_nil_iff.mpr hnone, nameLoop]
      split_ifs with hname
      · rw [hname]
        rfl
      · rw [List.flatMap_nil, List.append_nil]
    · obtain ⟨w, t, hsplit, hne, hplain, hstop, htokens⟩ := exists_token hnone
      have hsuffix := (List.dropWhile_suffix isNameBlank (l := s))
      have hmem : ∀ b ∈ w ++ t, b ∈ s := fun b hb => hsuffix.subset (hsplit ▸ hb)
      have hw : ∀ c ∈ w, isNameBlank c = false ∧ isCommenterByte c = true := fun c hc =>
        ⟨hplain c hc, (hs c (hmem c (List.mem_append_left _ hc))).resolve_left (by rw [hplain c hc]; decide)⟩
      have hlt : t.length < s.length := by
        have hle := hsuffix.length_le
        have hpos := List.length_pos_iff.mpr hne
        rw [hsplit, List.length_append] at hle
        omega
      have hname : ∀ name' : Bytes, name' ++ w ≠ [] := fun name' h =>
        hne (List.append_eq_nil_iff.mp h).2
      -- the word comes behind a blank just when there is something to come behind
      have hspace : ((space || s.head?.any isNameBlank) && name ≠ []) = decide (name ≠ []) := by
        by_cases h0 : name = []
        · simp [h0]
        · rcases hcut with h | h | h
          · exact absurd h h0
          · simp [h]
          · cases s with
            | nil => exact absurd rfl hnone
            | cons c s => simp [h c rfl]
      rw [hsplit, nameLoop_word hne hw, hspace, ih t.length hlt
        (fun b hb => hs b (hmem b (List.mem_append_right _ hb))) (Or.inr (Or.inr hstop)) rfl,
        if_neg (hname _), htokens]
      by_cases h0 : name = []
      · simp [h0, joinWords]
      · simp [h0]

/-- Something else stops the loop. -/
theorem nameLoop_eq_none (hs : ∃ b ∈ s, isNameBlank b = false ∧ isCommenterByte b = false) (name : Bytes)
    (space : Bool) : nameLoop name space s = none := by
  induction s generalizing name space with
  | nil => simp at hs
  | cons c s ih =>
    obtain ⟨b, hb, hblank, hbyte⟩ := hs
    rw [nameLoop]
    rcases List.mem_cons.mp hb with rfl | hb
    · rw [hblank, hbyte]
      rfl
    · have hrest := ih ⟨b, hb, hblank, hbyte⟩
      by_cases hc : isNameBlank c = true
      · rw [if_pos hc, hrest]
      · by_cases hc' : isCommenterByte c = true
        · rw [if_neg hc, if_pos hc', hrest]
        · rw [if_neg hc, if_neg hc']

theorem nameLoop_trim_iff : nameLoop [] false (trim name) = some t ↔
    (∀ b ∈ trim name, isNameBlank b = true ∨ isCommenterByte b = true) ∧ t = joinWords (nameWords name) := by
  by_cases hs : ∀ b ∈ trim name, isNameBlank b = true ∨ isCommenterByte b = true
  · rw [nameLoop_eq hs (Or.inl rfl), if_pos rfl, Option.some.injEq, eq_comm]
    exact (and_iff_right hs).symm
  · have hstop : ∃ b ∈ trim name, isNameBlank b = false ∧ isCommenterByte b = false := by
      push Not at hs
      obtain ⟨b, hb, hblank, hbyte⟩ := hs
      exact ⟨b, hb, by simpa using hblank, by simpa using hbyte⟩
    rw [nameLoop_eq_none hstop]
    exact iff_of_false (by simp) fun h => hs h.1

/-- **When a name is fine, and what it is then.** -/
theorem cleanName_eq_ok : cleanName name = .ok t ↔
    NameAccepted name ∧ validUtf8 (joinWords (nameWords name)) = true ∧ t = joinWords (nameWords name) := by
  rw [cleanName]
  cases hloop : nameLoop [] false (trim name) with
  | none =>
    refine iff_of_false (by simp) fun h => ?_
    rw [nameLoop_trim_iff.mpr ⟨h.1.letters, rfl⟩] at hloop
    cases hloop
  | some w =>
    obtain ⟨hletters, rfl⟩ := nameLoop_trim_iff.mp hloop
    simp only
    split_ifs with hvalid hleast hmost
    · refine iff_of_false (by simp) fun h => ?_
      rw [h.2.1] at hvalid
      cases hvalid
    · refine iff_of_false (by simp) fun h => ?_
      have := h.1.length.1
      rw [← length_joinWords] at this
      omega
    · refine iff_of_false (by simp) fun h => ?_
      have := h.1.length.2
      rw [← length_joinWords] at this
      omega
    · rw [Except.ok.injEq, eq_comm]
      refine (and_iff_right ?_).symm.trans and_assoc
      refine ⟨⟨hletters, ?_⟩, by simpa using hvalid⟩
      rw [← length_joinWords]
      exact ⟨Nat.not_lt.mp hleast, Nat.not_lt.mp hmost⟩

/-! ### The cleaned name -/

section

variable {ws : List Bytes}

/-- What a blank is not is the same in the words as between them. -/
theorem filter_joinWords {q : UInt8 → Bool} (hq : q 32 = false) (ws : List Bytes) :
    (joinWords ws).filter q = ws.flatten.filter q := by
  have hrest : ∀ vs : List Bytes, (vs.flatMap (32 :: ·)).filter q = vs.flatten.filter q := by
    intro vs
    induction vs with
    | nil => rfl
    | cons v vs ih =>
      rw [List.flatMap_cons, List.filter_append, ih, List.filter_cons_of_neg (by rw [hq]; decide),
        List.flatten_cons, List.filter_append]
  cases ws with
  | nil => rfl
  | cons w ws => rw [joinWords, List.filter_append, hrest, List.flatten_cons, List.filter_append]

theorem mem_joinWords {b : UInt8} (h : b ∈ joinWords ws) : b = 32 ∨ ∃ w ∈ ws, b ∈ w := by
  cases ws with
  | nil => cases h
  | cons w ws =>
    rcases List.mem_append.mp h with h | h
    · exact Or.inr ⟨w, List.mem_cons_self, h⟩
    · obtain ⟨v, hv, hb⟩ := List.mem_flatMap.mp h
      rcases List.mem_cons.mp hb with hb | hb
      · exact Or.inl hb
      · exact Or.inr ⟨v, List.mem_cons_of_mem _ hv, hb⟩

theorem patterned_joinWords (h : ∀ w ∈ ws, Patterned w) : Patterned (joinWords ws) := by
  have hrest : ∀ vs : List Bytes, (∀ v ∈ vs, Patterned v) → Patterned (vs.flatMap (32 :: ·)) := by
    intro vs hvs
    induction vs with
    | nil => exact Patterned.nil
    | cons v vs ih =>
      obtain ⟨hv, hvs⟩ := List.forall_mem_cons.mp hvs
      rw [List.flatMap_cons]
      exact ((patterned_cons rfl).mpr hv).append (ih hvs)
  cases ws with
  | nil => exact Patterned.nil
  | cons w ws =>
    obtain ⟨hw, hws⟩ := List.forall_mem_cons.mp h
    exact hw.append (hrest ws hws)

/-- The words are read back. -/
theorem strtok_joinWords (h : ∀ w ∈ ws, w ≠ [] ∧ ∀ b ∈ w, isNameBlank b = false) :
    strtok isNameBlank (joinWords ws) = ws := by
  have hstop : ∀ vs : List Bytes, ∀ b ∈ (vs.flatMap (32 :: ·)).head?, isNameBlank b = true := by
    intro vs b hb
    cases vs with
    | nil => cases hb
    | cons v vs =>
      obtain rfl : b = 32 := by simpa using hb.symm
      rfl
  have hrest : ∀ vs : List Bytes, (∀ v ∈ vs, v ≠ [] ∧ ∀ b ∈ v, isNameBlank b = false) →
      strtok isNameBlank (vs.flatMap (32 :: ·)) = vs := by
    intro vs hvs
    induction vs with
    | nil => exact strtok_nil _
    | cons v vs ih =>
      obtain ⟨⟨hne, hplain⟩, hvs⟩ := List.forall_mem_cons.mp hvs
      rw [List.flatMap_cons, List.cons_append, strtok_cons rfl,
        strtok_append_of_forall hplain hne (hstop vs), ih hvs]
  cases ws with
  | nil => exact strtok_nil _
  | cons w ws =>
    obtain ⟨⟨hne, hplain⟩, hws⟩ := List.forall_mem_cons.mp h
    rw [joinWords, strtok_append_of_forall hplain hne (hstop ws), hrest ws hws]

/-- No blank is beside another. -/
def Apart (a b : UInt8) : Prop := isSpace a = true → isSpace b = false

theorem isChain_apart {w : Bytes} (h : ∀ b ∈ w, isSpace b = false) : w.IsChain Apart := by
  have hpairs : w.Pairwise Apart := List.pairwise_of_forall_mem_list fun a ha b hb _ => h b hb
  exact hpairs.isChain

/-- Words with blanks between them begin and end with no blank, nor have two in a row. -/
theorem edges_joinWords (h : ∀ w ∈ ws, w ≠ [] ∧ ∀ b ∈ w, isSpace b = false) :
    (∀ b ∈ (joinWords ws).head?, isSpace b = false) ∧ (∀ b ∈ (joinWords ws).getLast?, isSpace b = false) ∧
      (joinWords ws).IsChain Apart := by
  -- what stands behind the first word, seen from behind a byte that is no blank
  have hrest : ∀ vs : List Bytes, (∀ v ∈ vs, v ≠ [] ∧ ∀ b ∈ v, isSpace b = false) →
      ∀ w : Bytes, w ≠ [] → (∀ b ∈ w, isSpace b = false) →
        (∀ b ∈ (w ++ vs.flatMap (32 :: ·)).getLast?, isSpace b = false) ∧
          (w ++ vs.flatMap (32 :: ·)).IsChain Apart := by
    intro vs
    induction vs with
    | nil =>
      intro _ w _ hw
      rw [List.flatMap_nil, List.append_nil]
      exact ⟨fun b hb => hw b (List.mem_of_getLast? hb), isChain_apart hw⟩
    | cons v vs ih =>
      intro hvs w hne hw
      obtain ⟨⟨hvne, hv⟩, hvs⟩ := List.forall_mem_cons.mp hvs
      obtain ⟨hlast, hchain⟩ := ih hvs v hvne hv
      have htail : v ++ vs.flatMap (32 :: ·) ≠ [] := List.append_ne_nil_of_left_ne_nil hvne _
      have hhead : ∀ b ∈ (v ++ vs.flatMap (32 :: ·)).head?, isSpace b = false := by
        rw [List.head?_append_of_ne_nil _ hvne]
        exact fun b hb => hv b (List.mem_of_head? hb)
      rw [List.flatMap_cons, List.cons_append]
      generalize v ++ vs.flatMap (32 :: ·) = t at hlast hchain htail hhead
      constructor
      · rw [← List.singleton_append, ← List.append_assoc, List.getLast?_append_of_ne_nil _ htail]
        exact hlast
      · refine List.isChain_append.mpr ⟨isChain_apart hw, ?_, fun x hx y _ hspace => ?_⟩
        · exact List.isChain_cons.mpr ⟨fun b hb _ => hhead b hb, hchain⟩
        · rw [hw x (List.mem_of_getLast? hx)] at hspace
          cases hspace
  cases ws with
  | nil => exact ⟨by simp [joinWords], by simp [joinWords], List.IsChain.nil⟩
  | cons w ws =>
    obtain ⟨⟨hne, hw⟩, hws⟩ := List.forall_mem_cons.mp h
    obtain ⟨hlast, hchain⟩ := hrest ws hws w hne hw
    refine ⟨fun b hb => ?_, hlast, hchain⟩
    rw [joinWords, List.head?_append_of_ne_nil _ hne] at hb
    exact hw b (List.mem_of_head? hb)

end

/-! ## The texts of the fields -/

/-- A cleaned string of patterns has no control characters when what was sent is a text without those
beyond ASCII, and only then. -/
theorem chars_iff {feeds : Bool} (hsent : Patterned sent) (ht : Patterned t)
    (hbeyond : beyondAscii t = beyondAscii sent) (hascii : ∀ b ∈ t, isAscii b = true →
      isControl (Char.ofNat b.toNat) = false ∨ feeds = true ∧ Char.ofNat b.toNat = '\n') :
    TextOf (fun c => isControl c = false ∨ feeds = true ∧ c = '\n') t ↔ ProperText sent := by
  have hnames : ∀ c : Char, 0x80 ≤ c.toNat → ((isControl c = false ∨ feeds = true ∧ c = '\n') ↔
      ¬ (0x80 ≤ c.toNat ∧ c.toNat < 0xA0)) := by
    intro c hc
    have hfeed : c ≠ '\n' := by
      rintro rfl
      exact absurd hc (by decide)
    have hlow : ¬ c.toNat < 0x20 := by omega
    have hhigh : 0x7F ≤ c.toNat := by omega
    simp [isControl, hfeed, hlow, hhigh, hc]
  rw [ht.textOf_iff hnames, ProperText, hsent.textOf_iff fun _ _ => Iff.rfl, hbeyond]
  refine and_congr (iff_of_true hascii fun b _ hb => ?_) Iff.rfl
  have hlt : b.toNat < 128 := by simpa [isAscii, UInt8.lt_iff_toNat_lt] using hb
  rw [toNat_charOfNat (Or.inl (by omega))]
  omega

/-- What shows of a text that is kept as it is sent is still there, if its bytes are. -/
theorem kept_of_filter {P : Char → Prop} (ht : TextOf P t)
    (hfilter : t.filter isPrintedByte = sent.filter isPrintedByte) (cs : List Char)
    (hcs : sent = cs.flatMap String.utf8EncodeChar) :
    ∃ ds : List Char, t = ds.flatMap String.utf8EncodeChar ∧ ds.filter isPrinted = cs.filter isPrinted := by
  obtain ⟨ds, rfl, -⟩ := ht
  rw [hcs] at hfilter
  refine ⟨ds, rfl, filter_eq_of_filter_eq (fun b => (isPrintedByte_cases b).1) hfilter fun c hc => ?_⟩
  by_cases hlt : c.toNat < 0x80
  · right
    simp only [isPrinted, isControl, Bool.and_eq_true, Bool.not_eq_true', Bool.or_eq_false_iff,
      decide_eq_false_iff_not, Bool.and_eq_false_iff, bne_iff_ne] at hc
    obtain ⟨⟨hlow, hhigh⟩, hblank⟩ := hc
    have h32 : c.toNat ≠ 32 := fun h => hblank (Char.toNat_inj.mp h)
    have hnat := toNat_ofNat_of_lt (show c.toNat < 256 by omega)
    have h20 : (0x20 : UInt8).toNat = 32 := rfl
    have h7F : (0x7F : UInt8).toNat = 127 := rfl
    simp only [isPrintedByte, Bool.and_eq_true, decide_eq_true_eq, bne_iff_ne, UInt8.lt_iff_toNat_lt, ne_eq,
      ← UInt8.toNat_inj, hnat, h20, h7F]
    omega
  · exact Or.inl (Nat.not_lt.mp hlt)

theorem beyondAscii_eq_of_filter (h : t.filter isPrintedByte = s.filter isPrintedByte) :
    beyondAscii t = beyondAscii s := by
  have hboth : ∀ u : Bytes, beyondAscii (u.filter isPrintedByte) = beyondAscii u := by
    intro u
    rw [beyondAscii, beyondAscii, List.filter_filter]
    refine List.filter_congr fun b _ => ?_
    cases hb : isAscii b with
    | false => rw [(isPrintedByte_cases b).1 hb]; rfl
    | true => rfl
  rw [← hboth t, h, hboth s]

/-- What is sent as a text is kept as it is. -/
theorem validUtf8_of_text {cs : List Char} (h : sent = cs.flatMap String.utf8EncodeChar) :
    validUtf8 sent = true :=
  (validUtf8_iff sent).mpr (TextOf.patterned (P := fun _ => True) ⟨cs, h, fun _ _ => trivial⟩)

/-- **A cleaned field**: what is asked of the one that was read, to be clean. -/
theorem cleanField_iff {feeds : Bool} {least most : ℕ} {size : ℕ} {read : Bytes}
    (hread : toUtf8 size sent = some read) (ht : Patterned t)
    (hfilter : t.filter isPrintedByte = read.filter isPrintedByte) (hascii : ∀ b ∈ t, isAscii b = true →
      isControl (Char.ofNat b.toNat) = false ∨ feeds = true ∧ Char.ofNat b.toNat = '\n')
    (hlength : least ≤ t.length ∧ t.length ≤ most) (hhead : ∀ b ∈ t.head?, isSpace b = false)
    (hlast : ∀ b ∈ t.getLast?, isSpace b = false) :
    CleanField feeds least most sent t ↔ (validUtf8 sent = true → ProperText sent) := by
  have hbeyond := beyondAscii_eq_of_filter hfilter
  constructor
  · intro h hvalid
    rw [toUtf8_of_valid hvalid] at hread
    obtain rfl := Option.some.inj hread
    exact (chars_iff ((validUtf8_iff sent).mp hvalid) ht hbeyond hascii).mp h.chars
  · intro h
    have hproper : ProperText read := by
      rcases toUtf8_eq_some hread with ⟨hvalid, rfl⟩ | ⟨-, hproper⟩
      · exact h hvalid
      · exact hproper
    have hchars := (chars_iff hproper.patterned ht hbeyond hascii).mpr hproper
    refine ⟨hchars, hlength.1, hlength.2, hhead, hlast, fun cs hcs => ?_⟩
    rw [toUtf8_of_valid (validUtf8_of_text hcs)] at hread
    exact kept_of_filter hchars ((Option.some.inj hread) ▸ hfilter) cs hcs

/-! ### The name -/

theorem isPrintedByte_blank : isPrintedByte 32 = false := rfl

/-- The words of a name whose letters are right. -/
theorem nameWords_spec (h : NameAccepted name) :
    ∀ w ∈ nameWords name, w ≠ [] ∧ ∀ b ∈ w, isNameBlank b = false ∧ isCommenterByte b = true := by
  intro w hw
  have hmem : ∀ b ∈ w, b ∈ (trim name).filter fun c => !isNameBlank c := fun b hb => by
    rw [← flatten_strtok]
    exact List.mem_flatten.mpr ⟨w, hw, hb⟩
  refine ⟨by simpa using (List.mem_filter.mp hw).2, fun b hb => ?_⟩
  obtain ⟨hin, hblank⟩ := List.mem_filter.mp (hmem b hb)
  have hblank' : isNameBlank b = false := by simpa using hblank
  exact ⟨hblank', (h.letters b hin).resolve_left (by rw [hblank']; decide)⟩

/-- A name that is accepted shows all that is in it. -/
theorem filter_nameWords (name : Bytes) :
    (joinWords (nameWords name)).filter isPrintedByte = name.filter isPrintedByte := by
  rw [filter_joinWords isPrintedByte_blank, nameWords, flatten_strtok, List.filter_filter,
    ← filter_trim (fun b => (isPrintedByte_cases b).2.1) name]
  refine List.filter_congr fun b _ => ?_
  cases hb : isNameBlank b with
  | false => simp
  | true => rw [(isPrintedByte_cases b).2.1 ((isCommenterByte_cases b).2 hb).1]; rfl

/-- A cleaned name is as it is to be, but perhaps for its characters. -/
theorem cleanName_spec (h : cleanName name = .ok t) :
    Patterned t ∧ t.filter isPrintedByte = name.filter isPrintedByte ∧
      (∀ b ∈ t, isAscii b = true → isControl (Char.ofNat b.toNat) = false) ∧
      (commentNameMin ≤ t.length ∧ t.length ≤ commentNameMax) ∧ (∀ b ∈ t.head?, isSpace b = false) ∧
      (∀ b ∈ t.getLast?, isSpace b = false) ∧ t.IsChain Apart ∧ cleanName t = .ok t := by
  obtain ⟨haccepted, hvalid, rfl⟩ := cleanName_eq_ok.mp h
  have hwords := nameWords_spec haccepted
  have hspace : ∀ w ∈ nameWords name, w ≠ [] ∧ ∀ b ∈ w, isSpace b = false := fun w hw =>
    ⟨(hwords w hw).1, fun b hb => not_isSpace_of_isPrintedByte
      ((isCommenterByte_cases b).1 ((hwords w hw).2 b hb).2 ((hwords w hw).2 b hb).1)⟩
  have hblank : ∀ w ∈ nameWords name, w ≠ [] ∧ ∀ b ∈ w, isNameBlank b = false := fun w hw =>
    ⟨(hwords w hw).1, fun b hb => ((hwords w hw).2 b hb).1⟩
  obtain ⟨hhead, hlast, hchain⟩ := edges_joinWords hspace
  have hlength := haccepted.length
  rw [← length_joinWords] at hlength
  have htrim := trim_eq_self hhead hlast
  have hsame : nameWords (joinWords (nameWords name)) = nameWords name := by
    conv_lhs => rw [nameWords, htrim, strtok_joinWords hblank]
  have hbytes : ∀ b ∈ joinWords (nameWords name), b = 32 ∨ isCommenterByte b = true := fun b hb =>
    (mem_joinWords hb).imp id fun ⟨w, hw, hbw⟩ => ((hwords w hw).2 b hbw).2
  refine ⟨(validUtf8_iff _).mp hvalid, filter_nameWords name, fun b hb hascii => ?_, hlength, hhead, hlast,
    hchain, cleanName_eq_ok.mpr ⟨⟨fun b hb => ?_, ?_⟩, ?_, ?_⟩⟩
  · rcases mem_joinWords hb with rfl | ⟨w, hw, hbw⟩
    · decide
    · obtain ⟨hplain, hbyte⟩ := (hwords w hw).2 b hbw
      refine ((isPrintedByte_cases b).2.2 ((isCommenterByte_cases b).1 hbyte hplain)).resolve_right ?_
      rw [hascii]
      decide
  · rw [htrim] at hb
    rcases hbytes b hb with rfl | hbyte
    · exact Or.inl rfl
    · exact Or.inr hbyte
  · rw [hsame]
    exact haccepted.length
  · rw [hsame, hvalid]
  · rw [hsame]

/-- A name that is a string of patterns, and has nothing else against it, is accepted. -/
theorem exists_cleanName (h : Patterned name) (haccepted : NameAccepted name) :
    ∃ t, cleanName name = .ok t := by
  refine ⟨_, cleanName_eq_ok.mpr ⟨haccepted, (validUtf8_iff _).mpr (patterned_joinWords ?_), rfl⟩⟩
  refine (patterned_trim h).strtok fun b hb => ?_
  exact isAscii_of_isSpace ((isCommenterByte_cases b).2 hb).1

theorem nameComesClean_iff (sent : Bytes) :
    NameComesClean sent ↔ (validUtf8 sent = true → NameAccepted sent → ProperText sent) := by
  constructor
  · intro h hvalid haccepted
    obtain ⟨t, ht⟩ := exists_cleanName ((validUtf8_iff sent).mp hvalid) haccepted
    have hposted : postedName sent = .ok t := by
      rw [postedName, toUtf8_of_valid hvalid]
      exact ht
    obtain ⟨hpatterned, hfilter, hascii, hlength, hhead, hlast, -⟩ := cleanName_spec ht
    refine (cleanField_iff (toUtf8_of_valid hvalid (commentNameMax * 2 + 1)) hpatterned hfilter
      (fun b hb hb' => Or.inl (hascii b hb hb')) hlength hhead hlast).mp (h t hposted).1 hvalid
  · intro h t ht
    rw [postedName] at ht
    cases hread : toUtf8 (commentNameMax * 2 + 1) sent with
    | none => rw [hread] at ht; cases ht
    | some read =>
      rw [hread] at ht
      obtain ⟨hpatterned, hfilter, hascii, hlength, hhead, hlast, hchain, hagain⟩ := cleanName_spec ht
      refine ⟨(cleanField_iff hread hpatterned hfilter (fun b hb hb' => Or.inl (hascii b hb hb')) hlength
        hhead hlast).mpr fun hvalid => ?_, fun a b hab => ?_, hagain⟩
      · rw [toUtf8_of_valid hvalid] at hread
        obtain rfl := Option.some.inj hread
        exact h hvalid (cleanName_eq_ok.mp ht).1
      · have hpair := hchain.infix hab
        simpa [Apart] using hpair

/-! ### The text -/

/-- A byte that does not show is dropped, or stands for a blank. -/
theorem dropWhile_filterMap_textByte (s : Bytes) :
    (s.filterMap textByte).dropWhile isSpace =
      (s.dropWhile fun b => !isPrintedByte b).filterMap textByte := by
  induction s with
  | nil => rfl
  | cons b s ih =>
    cases hb : isPrintedByte b with
    | true =>
      have hbyte := (textByte_cases b).1 hb
      have hspace := not_isSpace_of_isPrintedByte hb
      rw [List.filterMap_cons_some hbyte, List.dropWhile_cons_of_neg (by simp [hspace]),
        List.dropWhile_cons_of_neg (by simp [hb]), List.filterMap_cons_some hbyte]
    | false =>
      rw [List.dropWhile_cons_of_pos (by simp [hb]), ← ih]
      rcases (textByte_cases b).2 hb with h | h | h
      · rw [List.filterMap_cons_none h]
      · rw [List.filterMap_cons_some h, List.dropWhile_cons_of_pos rfl]
      · rw [List.filterMap_cons_some h, List.dropWhile_cons_of_pos rfl]

theorem trim_filterMap_textByte (s : Bytes) : trim (s.filterMap textByte) =
    ((s.dropWhile fun b => !isPrintedByte b).rdropWhile fun b => !isPrintedByte b).filterMap textByte := by
  rw [trim, dropWhile_filterMap_textByte]
  generalize (s.dropWhile fun b => !isPrintedByte b) = u
  rw [List.rdropWhile, ← List.filterMap_reverse, dropWhile_filterMap_textByte, ← List.filterMap_reverse,
    List.rdropWhile]

theorem filter_filterMap_textByte (s : Bytes) :
    (s.filterMap textByte).filter isPrintedByte = s.filter isPrintedByte := by
  induction s with
  | nil => rfl
  | cons b s ih =>
    cases hb : isPrintedByte b with
    | true =>
      rw [List.filterMap_cons_some ((textByte_cases b).1 hb), List.filter_cons_of_pos hb,
        List.filter_cons_of_pos hb, ih]
    | false =>
      rw [List.filter_cons_of_neg (a := b) (by rw [hb]; decide), ← ih]
      rcases (textByte_cases b).2 hb with h | h | h
      · rw [List.filterMap_cons_none h]
      · rw [List.filterMap_cons_some h]
        rfl
      · rw [List.filterMap_cons_some h]
        rfl

theorem filter_cleanText (text : Bytes) :
    (trim (text.filterMap textByte)).filter isPrintedByte = text.filter isPrintedByte := by
  rw [filter_trim fun b => (isPrintedByte_cases b).2.1, filter_filterMap_textByte]

/-- What is left is empty when nothing shows. -/
theorem trim_filterMap_eq_nil_iff (text : Bytes) :
    trim (text.filterMap textByte) = [] ↔ ¬ ∃ b ∈ text, isPrintedByte b = true := by
  have hfilter := filter_cleanText text
  constructor
  · rintro h ⟨b, hb, hprinted⟩
    rw [h] at hfilter
    exact absurd (hfilter ▸ List.mem_filter.mpr ⟨hb, hprinted⟩) (by simp)
  · intro h
    rw [trim_filterMap_textByte, List.dropWhile_eq_nil_iff.mpr fun b hb => by
      simpa using fun hprinted => h ⟨b, hb, hprinted⟩]
    rfl

/-- **When a text is fine, and what it is then.** -/
theorem cleanText_eq_ok {text : Bytes} : cleanText text = .ok t ↔ TextAccepted text ∧
    validUtf8 (trim (text.filterMap textByte)) = true ∧ t = trim (text.filterMap textByte) := by
  have hlen := congrArg List.length (trim_filterMap_textByte text)
  rw [List.length_filterMap_eq_countP] at hlen
  have hempty := trim_filterMap_eq_nil_iff text
  rw [cleanText]
  split_ifs with hvalid hnil hmost
  · refine iff_of_false (by simp) fun h => ?_
    rw [h.2.1] at hvalid
    cases hvalid
  · exact iff_of_false (by simp) fun h => hempty.mp hnil h.1.printed
  · refine iff_of_false (by simp) fun h => ?_
    have := h.1.length
    omega
  · rw [Except.ok.injEq, eq_comm]
    refine (and_iff_right ?_).symm.trans and_assoc
    refine ⟨⟨?_, hlen ▸ Nat.not_lt.mp hmost⟩, by simpa using hvalid⟩
    by_contra hnone
    exact hnil (hempty.mpr hnone)

/-- What is kept of a text of patterns is one. -/
theorem patterned_filterMap_textByte (h : Patterned s) : Patterned (s.filterMap textByte) := by
  refine h.filterMap (fun b hb => (textByte_cases b).1 ((isPrintedByte_cases b).1 hb)) fun b d hb hd => ?_
  cases hprinted : isPrintedByte b with
  | true =>
    rw [(textByte_cases b).1 hprinted] at hd
    exact Option.some.inj hd ▸ hb
  | false =>
    rcases (textByte_cases b).2 hprinted with h | h | h
    · rw [h] at hd
      cases hd
    · rw [h] at hd
      exact Option.some.inj hd ▸ rfl
    · rw [h] at hd
      exact Option.some.inj hd ▸ rfl

/-- No control character but the line feed is kept. -/
theorem ascii_of_mem_cleanText {text : Bytes} (h : b ∈ trim (text.filterMap textByte))
    (hascii : isAscii b = true) :
    isControl (Char.ofNat b.toNat) = false ∨ true = true ∧ Char.ofNat b.toNat = '\n' := by
  rw [trim_filterMap_textByte] at h
  obtain ⟨d, -, hd⟩ := List.mem_filterMap.mp h
  cases hprinted : isPrintedByte d with
  | true =>
    rw [(textByte_cases d).1 hprinted] at hd
    obtain rfl := Option.some.inj hd
    left
    refine ((isPrintedByte_cases d).2.2 hprinted).resolve_right ?_
    rw [hascii]
    decide
  | false =>
    rcases (textByte_cases d).2 hprinted with h | h | h
    · rw [h] at hd
      cases hd
    · rw [h] at hd
      exact Option.some.inj hd ▸ Or.inr ⟨rfl, rfl⟩
    · rw [h] at hd
      exact Option.some.inj hd ▸ Or.inl rfl

/-- A cleaned text is as it is to be, but perhaps for its characters. -/
theorem cleanField_cleanText {read : Bytes} (hread : toUtf8 (commentTextMax + 1) sent = some read)
    (h : cleanText read = .ok t) :
    CleanField true 1 commentTextMax sent t ↔ (validUtf8 sent = true → ProperText sent) := by
  obtain ⟨haccepted, hvalid, rfl⟩ := cleanText_eq_ok.mp h
  have hne : trim (read.filterMap textByte) ≠ [] := fun hnil =>
    (trim_filterMap_eq_nil_iff read).mp hnil haccepted.printed
  have hmost := haccepted.length
  rw [← List.length_filterMap_eq_countP, ← trim_filterMap_textByte] at hmost
  exact cleanField_iff hread ((validUtf8_iff _).mp hvalid) (filter_cleanText read)
    (fun b hb => ascii_of_mem_cleanText hb) ⟨List.length_pos_iff.mpr hne, hmost⟩ (trim_head _) (trim_last _)

theorem textComesClean_iff (sent : Bytes) :
    TextComesClean sent ↔ (validUtf8 sent = true → TextAccepted sent → ProperText sent) := by
  constructor
  · intro h hvalid haccepted
    have hpatterned := patterned_trim (patterned_filterMap_textByte ((validUtf8_iff sent).mp hvalid))
    have ht := cleanText_eq_ok.mpr ⟨haccepted, (validUtf8_iff _).mpr hpatterned, rfl⟩
    have hread := toUtf8_of_valid hvalid (commentTextMax + 1)
    refine (cleanField_cleanText hread ht).mp (h _ ?_) hvalid
    rw [postedText, hread]
    exact ht
  · intro h t ht
    rw [postedText] at ht
    cases hread : toUtf8 (commentTextMax + 1) sent with
    | none => rw [hread] at ht; cases ht
    | some read =>
      rw [hread] at ht
      refine (cleanField_cleanText hread ht).mpr fun hvalid => ?_
      rw [toUtf8_of_valid hvalid] at hread
      obtain rfl := Option.some.inj hread
      exact h hvalid (cleanText_eq_ok.mp ht).1

/-- **Both fields come out clean** just when a string that passes `valid_utf8`, and for which nothing else
is refused, is a text without the control characters beyond ASCII. -/
theorem fieldsComeClean_iff (sent : Bytes) :
    (NameComesClean sent ↔ (validUtf8 sent = true → NameAccepted sent → ProperText sent)) ∧
      (TextComesClean sent ↔ (validUtf8 sent = true → TextAccepted sent → ProperText sent)) :=
  ⟨nameComesClean_iff sent, textComesClean_iff sent⟩

/-- The overlong form of NUL is no text. -/
theorem not_validUtf8_overlong : ¬ ValidUtf8 [0xC0, 0x80] := by
  rintro ⟨cs, heq⟩
  cases cs with
  | nil => cases heq
  | cons c cs =>
    rw [List.flatMap_cons] at heq
    have hC0 : (0xC0 : UInt8).toNat = 192 := rfl
    have hlead {n : ℕ} {t : Bytes} (hn : n < 256) (h : String.utf8EncodeChar c = UInt8.ofNat n :: t) :
        n = 192 := by
      rw [h, List.cons_append] at heq
      rw [← hC0, (List.cons.inj heq).1, toNat_ofNat_of_lt hn]
    rcases utf8EncodeChar_cases c with ⟨h, hc⟩ | ⟨h, h', hc⟩ | ⟨h, h', hc⟩ | ⟨h, hc⟩ <;>
      have := hlead (by omega) hc
    all_goals omega

/-- It passes behind two letters, in either field. -/
theorem not_comesClean_overlong :
    ¬ NameComesClean [97, 98, 0xC0, 0x80] ∧ ¬ TextComesClean [97, 98, 0xC0, 0x80] := by
  have hnot : ¬ ValidUtf8 [97, 98, 0xC0, 0x80] := by
    rw [validUtf8_cons rfl, validUtf8_cons rfl]
    exact not_validUtf8_overlong
  constructor
  · intro h
    have hposted : postedName [97, 98, 0xC0, 0x80] = .ok [97, 98, 0xC0, 0x80] := by decide +kernel
    exact hnot (h _ hposted).1.chars.validUtf8
  · intro h
    have hposted : postedText [97, 98, 0xC0, 0x80] = .ok [97, 98, 0xC0, 0x80] := by decide +kernel
    exact hnot (h _ hposted).chars.validUtf8

end BoatRudder.Modules
