import BoatRudder.Text.Utf8Scan
import Mathlib.Data.List.DropRight

/-! # Texts made of characters of a kind

A string may follow the patterns of characters throughout and still not be a text: its patterns must be
characters too. What separates the two is in the bytes beyond ASCII, so that a string whose ASCII bytes
are edited is a text, of characters of some kind, just when its other bytes are. -/

namespace BoatRudder

variable {s t x : Bytes} {b : UInt8} {p : UInt8 → Bool}

/-- A string of patterns, whatever they encode. -/
inductive Patterned : Bytes → Prop
  | nil : Patterned []
  | pattern {x s : Bytes} : CharPattern x → Patterned s → Patterned (x ++ s)

/-- A text all of whose characters are of a kind. -/
def TextOf (P : Char → Prop) (s : Bytes) : Prop :=
  ∃ cs : List Char, s = cs.flatMap String.utf8EncodeChar ∧ ∀ c ∈ cs, P c

/-- The bytes that are not of ASCII. -/
def beyondAscii (s : Bytes) : Bytes := s.filter fun b => !isAscii b

theorem charPattern_ascii (hb : isAscii b = true) : CharPattern [b] := by
  refine ⟨b, [], rfl, ?_, by simp⟩
  have hlt : b < 0x80 := by simpa [isAscii] using hb
  rw [trailCount, if_pos hlt]
  rfl

theorem not_isAscii_of_continues (h : continues b = true) : isAscii b = false := by
  cases hb : isAscii b with
  | false => rfl
  | true => exact absurd h (by rw [continues_of_isAscii hb]; decide)

/-- A pattern is a byte of ASCII, or has none. -/
theorem CharPattern.ascii_or (hx : CharPattern x) :
    (∃ b, isAscii b = true ∧ x = [b]) ∨ ∀ b ∈ x, isAscii b = false := by
  obtain ⟨b, t, rfl, hcount, ht⟩ := hx
  cases hb : isAscii b with
  | true =>
    have hlt : b < 0x80 := by simpa [isAscii] using hb
    rw [trailCount, if_pos hlt] at hcount
    have hnil : t = [] := List.eq_nil_of_length_eq_zero (Option.some.inj hcount).symm
    exact Or.inl ⟨b, hb, by rw [hnil]⟩
  | false =>
    right
    intro d hd
    rcases List.mem_cons.mp hd with rfl | hd
    · exact hb
    · exact not_isAscii_of_continues (ht d hd)

/-! ## Strings of patterns -/

theorem patterned_append (hx : CharPattern x) : Patterned (x ++ s) ↔ Patterned s := by
  refine ⟨fun h => ?_, Patterned.pattern hx⟩
  generalize heq : x ++ s = t at h
  cases h with
  | nil => exact absurd (List.append_eq_nil_iff.mp heq).1 hx.ne_nil
  | @pattern y r hy hr =>
    have hxy : x = y := hx.unique hy (List.prefix_append x s) (heq ▸ List.prefix_append y r)
    subst hxy
    rwa [List.append_cancel_left heq]

theorem patterned_cons (hb : isAscii b = true) : Patterned (b :: s) ↔ Patterned s :=
  patterned_append (charPattern_ascii hb)

/-- Strings of patterns one behind the other. -/
theorem Patterned.append (hs : Patterned s) (ht : Patterned t) : Patterned (s ++ t) := by
  induction hs with
  | nil => exact ht
  | pattern hx _ ih =>
    rw [List.append_assoc]
    exact Patterned.pattern hx ih

/-- Dropping ASCII bytes in front cuts no character. -/
theorem Patterned.dropWhile (h : Patterned s)
    (hp : ∀ b, p b = true → isAscii b = true) : Patterned (s.dropWhile p) := by
  induction s with
  | nil => exact h
  | cons b s ih =>
    rw [List.dropWhile_cons]
    split_ifs with hb
    · exact ih ((patterned_cons (hp b hb)).mp h)
    · exact h

/-- At a byte of ASCII a string of patterns is cut on both sides. -/
theorem Patterned.cut (h : Patterned (s ++ b :: t)) (hb : isAscii b = true) :
    Patterned s ∧ Patterned t := by
  generalize heq : s ++ b :: t = u at h
  induction h generalizing s with
  | nil => exact absurd heq (by simp)
  | @pattern x r hx hr ih =>
    rcases List.append_eq_append_iff.mp heq with ⟨z, rfl, hz⟩ | ⟨z, rfl, hz⟩
    · -- the first pattern goes on to the byte, or ends in front of it
      cases z with
      | nil =>
        rw [List.append_nil] at hx
        rw [List.nil_append] at hz
        rw [← hz, patterned_cons hb] at hr
        have hs : Patterned (s ++ []) := Patterned.pattern hx Patterned.nil
        rw [List.append_nil] at hs
        exact ⟨hs, hr⟩
      | cons d z =>
        obtain ⟨rfl, rfl⟩ := List.cons.inj hz
        rcases hx.ascii_or with ⟨e, -, he⟩ | hnone
        · obtain ⟨rfl, hdz⟩ := List.append_eq_singleton_iff.mp he |>.resolve_right (by simp)
          obtain ⟨rfl, rfl⟩ := List.cons.inj hdz
          exact ⟨Patterned.nil, hr⟩
        · exact absurd hb (by rw [hnone b (by simp)]; decide)
    · obtain ⟨hs, ht⟩ := ih hz.symm
      exact ⟨Patterned.pattern hx hs, ht⟩

/-- The tokens between separators of ASCII are strings of patterns. -/
theorem Patterned.strtok {sep : UInt8 → Bool} (hsep : ∀ b, sep b = true → isAscii b = true)
    (h : Patterned s) : ∀ w ∈ strtok sep s, Patterned w := by
  induction hlen : s.length using Nat.strong_induction_on generalizing s with
  | _ n ih =>
    subst hlen
    intro w hw
    by_cases hmem : ∃ b ∈ s, sep b = true
    · obtain ⟨b, hb, hsepb⟩ := hmem
      obtain ⟨u, v, rfl⟩ := List.append_of_mem hb
      obtain ⟨hu, hv⟩ := h.cut (hsep b hsepb)
      rw [strtok_append hsepb, List.mem_append] at hw
      rcases hw with hw | hw
      · exact ih u.length (by simp) hu rfl w hw
      · exact ih v.length (by simp; omega) hv rfl w hw
    · push Not at hmem
      by_cases hne : s = []
      · rw [hne, strtok_nil] at hw
        cases hw
      · rw [strtok_of_forall (fun b hb => by simpa using hmem b hb) hne, List.mem_singleton] at hw
        exact hw ▸ h

/-- Dropping ASCII bytes at the end cuts no character. -/
theorem Patterned.rdropWhile (h : Patterned s)
    (hp : ∀ b, p b = true → isAscii b = true) : Patterned (s.rdropWhile p) := by
  induction s using List.reverseRecOn with
  | nil => exact h
  | append_singleton s b ih =>
    rw [List.rdropWhile_concat]
    split_ifs with hb
    · exact ih (h.cut (hp b hb)).1
    · exact h

/-- Bytes of ASCII may be taken out, and exchanged for others. -/
theorem Patterned.filterMap {f : UInt8 → Option UInt8} (h : Patterned s)
    (hf : ∀ b, isAscii b = false → f b = some b)
    (hascii : ∀ b d, isAscii b = true → f b = some d → isAscii d = true) : Patterned (s.filterMap f) := by
  induction h with
  | nil => exact Patterned.nil
  | @pattern x s hx _ ih =>
    rw [List.filterMap_append]
    rcases hx.ascii_or with ⟨b, hb, rfl⟩ | hnone
    · cases hfb : f b with
      | none => simpa [hfb] using ih
      | some d =>
        have hd := charPattern_ascii (hascii b d hb hfb)
        simpa [hfb] using Patterned.pattern hd ih
    · have hsame : x.filterMap f = x := by
        have := List.filterMap_congr fun b hb => hf b (hnone b hb)
        rw [this, List.filterMap_some]
      rw [hsame]
      exact Patterned.pattern hx ih

/-! ## Texts -/

variable {P Q : Char → Prop}

theorem validUtf8_iff_textOf : ValidUtf8 s ↔ TextOf (fun _ => True) s :=
  exists_congr fun _ => ⟨fun h => ⟨h, fun _ _ => trivial⟩, And.left⟩

/-- A property of the characters may be weakened. -/
theorem TextOf.imp (h : TextOf P s) (hPQ : ∀ c, P c → Q c) : TextOf Q s := by
  obtain ⟨cs, rfl, hcs⟩ := h
  exact ⟨cs, rfl, fun c hc => hPQ c (hcs c hc)⟩

theorem TextOf.validUtf8 (h : TextOf P s) : ValidUtf8 s :=
  validUtf8_iff_textOf.mpr (h.imp fun _ _ => trivial)

/-- Two texts of such characters make one. -/
theorem TextOf.append (hs : TextOf P s) (ht : TextOf P t) : TextOf P (s ++ t) := by
  obtain ⟨cs, rfl, hcs⟩ := hs
  obtain ⟨ds, rfl, hds⟩ := ht
  exact ⟨cs ++ ds, List.flatMap_append.symm, List.forall_mem_append.mpr ⟨hcs, hds⟩⟩

theorem textOf_nil : TextOf P [] := ⟨[], rfl, by simp⟩

theorem textOf_char {c : Char} (h : P c) : TextOf P (String.utf8EncodeChar c) :=
  ⟨[c], by simp, by simpa using h⟩

theorem TextOf.flatMap {α : Type} {as : List α} {f : α → Bytes} (h : ∀ a ∈ as, TextOf P (f a)) :
    TextOf P (as.flatMap f) := by
  induction as with
  | nil => exact textOf_nil
  | cons a as ih =>
    obtain ⟨ha, has⟩ := List.forall_mem_cons.mp h
    exact ha.append (ih has)

/-- A text has a character where it has a pattern. -/
theorem textOf_append_iff (hx : CharPattern x) :
    TextOf P (x ++ s) ↔ (∃ c, x = String.utf8EncodeChar c ∧ P c) ∧ TextOf P s := by
  constructor
  · rintro ⟨cs, heq, hcs⟩
    cases cs with
    | nil => exact absurd (List.append_eq_nil_iff.mp heq).1 hx.ne_nil
    | cons c cs =>
      obtain ⟨hc, hcs⟩ := List.forall_mem_cons.mp hcs
      rw [List.flatMap_cons] at heq
      have hxc : x = String.utf8EncodeChar c := hx.unique (charPattern_utf8 c) (List.prefix_append x s)
        (heq ▸ List.prefix_append _ _)
      rw [hxc] at heq
      exact ⟨⟨c, hxc, hc⟩, cs, List.append_cancel_left heq, hcs⟩
  · rintro ⟨⟨c, rfl, hc⟩, hs⟩
    exact (textOf_char hc).append hs

/-- The character of a byte of ASCII. -/
theorem utf8EncodeChar_ascii (hb : isAscii b = true) :
    String.utf8EncodeChar (Char.ofNat b.toNat) = [b] := by
  have hlt : b.toNat < 128 := by simpa [isAscii, UInt8.lt_iff_toNat_lt] using hb
  have hnat : (Char.ofNat b.toNat).toNat = b.toNat := toNat_charOfNat (Or.inl (by omega))
  rcases utf8EncodeChar_cases (Char.ofNat b.toNat) with ⟨-, heq⟩ | ⟨h, -⟩ | ⟨h, -⟩ | ⟨h, -⟩
  · rw [heq, hnat, UInt8.ofNat_toNat]
  all_goals omega

/-- A character whose bytes are none of ASCII is not of ASCII either. -/
theorem le_of_beyondAscii {c : Char} (h : ∀ b ∈ String.utf8EncodeChar c, isAscii b = false) :
    0x80 ≤ c.toNat := by
  rcases utf8EncodeChar_cases c with ⟨hc, heq⟩ | ⟨hc, -⟩ | ⟨hc, -⟩ | ⟨hc, -⟩
  · have hb := h (UInt8.ofNat c.toNat) (by rw [heq]; simp)
    simp only [isAscii, decide_eq_false_iff_not, UInt8.lt_iff_toNat_lt,
      toNat_ofNat_of_lt (show c.toNat < 256 by omega)] at hb
    have h80 : (0x80 : UInt8).toNat = 128 := rfl
    omega
  all_goals omega

theorem textOf_cons_iff (hb : isAscii b = true) :
    TextOf P (b :: s) ↔ P (Char.ofNat b.toNat) ∧ TextOf P s := by
  refine (textOf_append_iff (charPattern_ascii hb)).trans (and_congr_left fun _ => ?_)
  constructor
  · rintro ⟨c, hc, hP⟩
    rwa [utf8EncodeChar_inj (s := [b]) (c := Char.ofNat b.toNat) (d := c)
      (by rw [utf8EncodeChar_ascii hb]) (by rw [← hc])]
  · exact fun hP => ⟨_, (utf8EncodeChar_ascii hb).symm, hP⟩

/-- **A string of patterns is a text just when its bytes beyond ASCII are.** -/
theorem Patterned.textOf_iff (h : Patterned s) (hPQ : ∀ c : Char, 0x80 ≤ c.toNat → (P c ↔ Q c)) :
    TextOf P s ↔ (∀ b ∈ s, isAscii b = true → P (Char.ofNat b.toNat)) ∧ TextOf Q (beyondAscii s) := by
  induction h with
  | nil => exact iff_of_true textOf_nil ⟨by simp, textOf_nil⟩
  | @pattern x s hx _ ih =>
    rw [beyondAscii, List.filter_append]
    rcases hx.ascii_or with ⟨b, hb, rfl⟩ | hnone
    · have hout : [b].filter (fun b => !isAscii b) = [] := by simp [hb]
      rw [hout, List.nil_append, List.singleton_append, textOf_cons_iff hb, ih, List.forall_mem_cons,
        and_assoc, beyondAscii]
      exact and_congr_left fun _ => ⟨fun hP _ => hP, fun hP => hP hb⟩
    · have hin : x.filter (fun b => !isAscii b) = x :=
        List.filter_eq_self.mpr fun b hb => by simp [hnone b hb]
      have hchar : (∃ c, x = String.utf8EncodeChar c ∧ P c) ↔ ∃ c, x = String.utf8EncodeChar c ∧ Q c :=
        exists_congr fun c => and_congr_right fun hc => hPQ c (le_of_beyondAscii (hc ▸ hnone))
      rw [hin, textOf_append_iff hx, textOf_append_iff hx, ih, hchar, List.forall_mem_append, beyondAscii]
      have hx' : ∀ b ∈ x, isAscii b = true → P (Char.ofNat b.toNat) := fun b hb hascii =>
        absurd hascii (by rw [hnone b hb]; decide)
      exact ⟨fun h => ⟨⟨hx', h.2.1⟩, h.1, h.2.2⟩, fun h => ⟨h.2.1, h.1.2, h.2.2⟩⟩

theorem TextOf.patterned (h : TextOf P s) : Patterned s := by
  obtain ⟨cs, rfl, -⟩ := h
  induction cs with
  | nil => exact Patterned.nil
  | cons c cs ih => exact Patterned.pattern (charPattern_utf8 c) ih

/-! ## What is kept of a text -/

/-- A text has one list of characters. -/
theorem flatMap_utf8_injective :
    Function.Injective fun cs : List Char => cs.flatMap String.utf8EncodeChar := by
  intro cs
  induction cs with
  | nil =>
    intro ds h
    cases ds with
    | nil => rfl
    | cons d ds => exact absurd (List.append_eq_nil_iff.mp h.symm).1 (charPattern_utf8 d).ne_nil
  | cons c cs ih =>
    intro ds h
    cases ds with
    | nil => exact absurd (List.append_eq_nil_iff.mp h).1 (charPattern_utf8 c).ne_nil
    | cons d ds =>
      simp only [List.flatMap_cons] at h
      have hd : String.utf8EncodeChar d <+: String.utf8EncodeChar c ++ cs.flatMap String.utf8EncodeChar := by
        rw [h]
        exact List.prefix_append _ _
      have hcd : c = d := utf8EncodeChar_inj (List.prefix_append _ _) hd
      subst hcd
      exact congrArg (c :: ·) (ih (List.append_cancel_left h))

/-- A choice of bytes that keeps those beyond ASCII is one of characters. -/
theorem filter_flatMap_utf8 (hp : ∀ b, isAscii b = false → p b = true) (cs : List Char) :
    (cs.flatMap String.utf8EncodeChar).filter p =
      (cs.filter fun c => 0x80 ≤ c.toNat || p (UInt8.ofNat c.toNat)).flatMap String.utf8EncodeChar := by
  induction cs with
  | nil => rfl
  | cons c cs ih =>
    rw [List.flatMap_cons, List.filter_append, ih]
    rcases (charPattern_utf8 c).ascii_or with ⟨b, hb, hc⟩ | hnone
    · have hcb : c = Char.ofNat b.toNat :=
        utf8EncodeChar_inj (s := [b]) (by rw [hc]) (by rw [utf8EncodeChar_ascii hb])
      have hlt : b.toNat < 128 := by simpa [isAscii, UInt8.lt_iff_toNat_lt] using hb
      have hnat : c.toNat = b.toNat := by rw [hcb, toNat_charOfNat (Or.inl (by omega))]
      have hnot : ¬ 0x80 ≤ b.toNat := by omega
      rw [List.filter_cons, hnat, UInt8.ofNat_toNat, hc, decide_eq_false hnot, Bool.false_or,
        List.filter_cons, List.filter_nil]
      cases p b with
      | false => simp
      | true => simp [hc]
    · have hall : (String.utf8EncodeChar c).filter p = String.utf8EncodeChar c :=
        List.filter_eq_self.mpr fun b hb => hp b (hnone b hb)
      rw [hall, List.filter_cons_of_pos (by simp [le_of_beyondAscii hnone]), List.flatMap_cons]

/-- So texts with the same bytes of a choice have the same characters of it. -/
theorem filter_eq_of_filter_eq (hp : ∀ b, isAscii b = false → p b = true) {cs ds : List Char}
    (h : (ds.flatMap String.utf8EncodeChar).filter p = (cs.flatMap String.utf8EncodeChar).filter p)
    {q : Char → Bool} (hq : ∀ c, q c = true → 0x80 ≤ c.toNat ∨ p (UInt8.ofNat c.toNat) = true) :
    ds.filter q = cs.filter q := by
  rw [filter_flatMap_utf8 hp, filter_flatMap_utf8 hp] at h
  have hsame := congrArg (List.filter q) (flatMap_utf8_injective h)
  have hboth : ∀ c, (q c && (decide (0x80 ≤ c.toNat) || p (UInt8.ofNat c.toNat))) = q c := by
    intro c
    cases hc : q c with
    | false => rfl
    | true =>
      rw [Bool.true_and, Bool.or_eq_true, decide_eq_true_eq]
      exact hq c hc
  rw [List.filter_filter, List.filter_filter, List.filter_congr fun c _ => hboth c,
    List.filter_congr fun c _ => hboth c] at hsame
  exact hsame

end BoatRudder
