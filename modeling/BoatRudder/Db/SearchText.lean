import BoatRudder.Text.Bytes

/-! # The texts of a search

A query as a regular expression, the case that the search does not tell apart, and what a reader
sees of rich text. -/

namespace BoatRudder.Db

/-! ## The query -/

/-- What stands for itself in a regular expression. -/
def isPlainByte (b : UInt8) : Bool := 0x80 ≤ b || isAlnum b || b == 32

/-- `regex_literal`. -/
def regexLiteral : Bytes → Bytes
  | [] => []
  | b :: s => if isPlainByte b then b :: regexLiteral s else 92 :: b :: regexLiteral s

/-- A regular expression that spells a string out, with a backslash before what does not stand for
itself. -/
inductive Spells : Bytes → Bytes → Prop
  | nil : Spells [] []
  | plain {b : UInt8} {p q : Bytes} (hb : isPlainByte b = true) (h : Spells p q) :
      Spells (b :: p) (b :: q)
  | escaped {b : UInt8} {p q : Bytes} (hb : isPlainByte b = false) (h : Spells p q) :
      Spells (92 :: b :: p) (b :: q)

/-- The regular expression of a query spells it out. -/
theorem spells_regexLiteral (q : Bytes) : Spells (regexLiteral q) q := by
  induction q with
  | nil => exact .nil
  | cons b q ih =>
    rw [regexLiteral]
    split
    · next hb => exact .plain hb ih
    · next hb => exact .escaped (by simpa using hb) ih

/-! ## Case -/

/-- The second byte of a Latin-1 capital, U+00C0 to U+00DE without U+00D7. -/
def isLatinCapital (b : UInt8) : Bool := 0x80 ≤ b && b ≤ 0x9E && b != 0x97

/-- `fold_case`. -/
def foldCase : Bytes → Bytes
  | [] => []
  | [b] => [toLower b]
  | b :: c :: s =>
    if b = 0xC3 ∧ isLatinCapital c then b :: (c + 0x20) :: foldCase s
    else toLower b :: foldCase (c :: s)

@[simp] theorem foldCase_nil : foldCase [] = [] := rfl

/-- A letter of two bytes. -/
theorem foldCase_pair {c : UInt8} (hc : isLatinCapital c = true) (s : Bytes) :
    foldCase (0xC3 :: c :: s) = 0xC3 :: (c + 0x20) :: foldCase s := by
  rw [foldCase, if_pos ⟨rfl, hc⟩]

/-- A byte that is not the first one of a letter of two bytes. -/
theorem foldCase_cons {b : UInt8} {s : Bytes}
    (h : b = 0xC3 → ∀ c ∈ s.head?, isLatinCapital c = false) :
    foldCase (b :: s) = toLower b :: foldCase s := by
  cases s with
  | nil => rfl
  | cons c s =>
    rw [foldCase, if_neg]
    rintro ⟨hb, hc⟩
    rw [h hb c rfl] at hc
    cases hc

/-- A string without a letter at its beginning that takes two bytes, or with one. -/
theorem foldCase_cases (b : UInt8) (s : Bytes) :
    (∃ c t, b = 0xC3 ∧ s = c :: t ∧ isLatinCapital c = true) ∨
      (b = 0xC3 → ∀ c ∈ s.head?, isLatinCapital c = false) := by
  cases s with
  | nil => exact Or.inr fun _ => by simp
  | cons c t =>
    by_cases hc : b = 0xC3 ∧ isLatinCapital c = true
    · exact Or.inl ⟨c, t, hc.1, rfl, hc.2⟩
    · refine Or.inr fun hb d hd => ?_
      obtain rfl : c = d := by simpa using hd
      simpa using fun h => hc ⟨hb, h⟩

@[simp] theorem length_foldCase (s : Bytes) : (foldCase s).length = s.length := by
  induction s using foldCase.induct with
  | case1 => rfl
  | case2 b => rfl
  | case3 b c s hpair ih => rw [foldCase, if_pos hpair]; simp [ih]
  | case4 b c s hpair ih => rw [foldCase, if_neg hpair]; simp [ih]

/-- What a search does not tell apart before a cut does not depend on what follows it. -/
theorem take_foldCase_append (a b : Bytes) : (foldCase (a ++ b)).take a.length = foldCase a := by
  induction a using foldCase.induct with
  | case1 => rfl
  | case2 x =>
    rw [List.singleton_append]
    obtain ⟨c, t, rfl, rfl, hc⟩ | hx := foldCase_cases x b
    · rw [foldCase_pair hc]
      rfl
    · rw [foldCase_cons hx]
      rfl
  | case3 x c a hpair ih =>
    obtain ⟨rfl, hc⟩ := hpair
    rw [List.cons_append, List.cons_append, foldCase_pair hc, foldCase_pair hc]
    simp [ih]
  | case4 x c a hpair ih =>
    rw [List.cons_append, List.cons_append, foldCase, if_neg hpair, foldCase, if_neg hpair]
    rw [List.cons_append] at ih
    simp only [List.length_cons, List.take_succ_cons] at ih ⊢
    rw [ih]

/-- After a cut it depends on what stands before it only where the cut is inside a letter. -/
theorem drop_foldCase_append (a b : Bytes) :
    (foldCase (a ++ b)).drop a.length = foldCase b ∨
      ∃ c t, b = c :: t ∧ isLatinCapital c = true ∧
        (foldCase (a ++ b)).drop a.length = (c + 0x20) :: foldCase t := by
  induction a using foldCase.induct with
  | case1 => exact Or.inl rfl
  | case2 x =>
    rw [List.singleton_append]
    obtain ⟨c, t, rfl, rfl, hc⟩ | hx := foldCase_cases x b
    · exact Or.inr ⟨c, t, rfl, hc, by rw [foldCase_pair hc]; rfl⟩
    · exact Or.inl (by rw [foldCase_cons hx]; rfl)
  | case3 x c a hpair ih =>
    obtain ⟨rfl, hc⟩ := hpair
    simpa [foldCase_pair hc] using ih
  | case4 x c a hpair ih =>
    rw [List.cons_append] at ih
    rw [List.cons_append, List.cons_append, foldCase, if_neg hpair]
    simpa only [List.length_cons, List.drop_succ_cons] using ih

/-- Whether a string starts at a letter, and not inside one. -/
def StartsLetter (q : Bytes) : Prop := ∀ b ∈ q.head?, b < 0x80 ∨ 0xC0 ≤ b

instance (q : Bytes) : Decidable (StartsLetter q) :=
  inferInstanceAs (Decidable (∀ b ∈ q.head?, _))

/-- The first byte of a string that starts at a letter stays what it is, but for its case. -/
theorem StartsLetter.foldCase {q : Bytes} (h : StartsLetter q) : StartsLetter (foldCase q) := by
  cases q with
  | nil => exact h
  | cons b s =>
    have hb := h b rfl
    obtain ⟨c, t, rfl, rfl, hc⟩ | hcons := foldCase_cases b s
    · rw [foldCase_pair hc]
      intro d hd
      obtain rfl : (0xC3 : UInt8) = d := by simpa using hd
      exact Or.inr (by decide)
    · rw [foldCase_cons hcons]
      intro d hd
      obtain rfl : toLower b = d := by simpa using hd
      rw [toLower]
      split
      · next hup =>
          left
          simp only [isUpper, Bool.and_eq_true, decide_eq_true_eq] at hup
          grind
      · exact hb

/-- **An occurrence in folded text is one in the text**, but for its case. -/
theorem exists_of_infix_foldCase {q text : Bytes} (hq : StartsLetter q)
    (h : foldCase q <:+: foldCase text) :
    ∃ a b c, text = a ++ (b ++ c) ∧ foldCase b = foldCase q := by
  obtain ⟨x, y, hxy⟩ := h
  rw [List.append_assoc] at hxy
  have hlen := congrArg List.length hxy
  simp only [List.length_append, length_foldCase] at hlen
  have ha : (text.take x.length).length = x.length := by
    rw [List.length_take]
    omega
  have hrest : (foldCase text).drop x.length = foldCase q ++ y := by rw [← hxy, List.drop_left]
  refine ⟨text.take x.length, (text.drop x.length).take q.length,
    (text.drop x.length).drop q.length, ?_, ?_⟩
  · rw [List.take_append_drop, List.take_append_drop]
  · have hb : ((text.drop x.length).take q.length).length = q.length := by
      rw [List.length_take, List.length_drop]
      omega
    have htake := take_foldCase_append ((text.drop x.length).take q.length)
      ((text.drop x.length).drop q.length)
    rw [List.take_append_drop, hb] at htake
    rw [← htake]
    have hcut := drop_foldCase_append (text.take x.length) (text.drop x.length)
    rw [List.take_append_drop, ha, hrest] at hcut
    rcases hcut with hcut | ⟨c, t, -, hc, hcut⟩
    · rw [← hcut]
      exact List.take_left' (length_foldCase q)
    · -- a query would start inside a letter here
      cases q with
      | nil => simp
      | cons b q =>
        exfalso
        obtain ⟨d, s, hd⟩ : ∃ d s, foldCase (b :: q) = d :: s :=
          List.exists_cons_of_ne_nil (by
            rw [← List.length_pos_iff, length_foldCase]
            simp)
        have hfirst := hq.foldCase d (by rw [hd]; rfl)
        rw [hd, List.cons_append] at hcut
        obtain ⟨rfl, -⟩ := List.cons.inj hcut
        simp only [isLatinCapital, Bool.and_eq_true, decide_eq_true_eq] at hc
        grind

/-- ASCII characters other than capitals are not changed, nor is anything changed into them but
capitals. -/
theorem mem_foldCase_iff {b : UInt8} (hb : b < 0x80) (hletter : isAlpha b = false) (s : Bytes) :
    b ∈ foldCase s ↔ b ∈ s := by
  have hlower : ∀ x : UInt8, b = toLower x ↔ b = x := by
    intro x
    unfold toLower
    simp only [isAlpha, Bool.or_eq_false_iff] at hletter
    split
    · next hup =>
        simp only [isUpper, isLower, Bool.and_eq_true, decide_eq_true_eq, Bool.and_eq_false_iff,
          decide_eq_false_iff_not] at hup hletter
        grind
    · exact Iff.rfl
  induction s using foldCase.induct with
  | case1 => rfl
  | case2 x => simp [foldCase, hlower]
  | case3 x c s hpair ih =>
    obtain ⟨rfl, hc⟩ := hpair
    simp only [isLatinCapital, Bool.and_eq_true, decide_eq_true_eq] at hc
    have hne : b ≠ c ∧ b ≠ c + 0x20 := by grind
    rw [foldCase_pair (by simp [isLatinCapital, hc])]
    simp [ih, hne]
  | case4 x c s hpair ih =>
    rw [foldCase, if_neg hpair, List.mem_cons, hlower]
    exact (or_congr_right ih).trans List.mem_cons.symm

/-! ## Rich text -/

/-- The entities `plain_text` knows. -/
def searchEntities : List (Bytes × UInt8) :=
  [(lit "&amp;", 38), (lit "&lt;", 60), (lit "&gt;", 62), (lit "&quot;", 34), (lit "&#39;", 39),
    (lit "&apos;", 39), (lit "&nbsp;", 32), (lit "&#160;", 32)]

/-- What `plain_text` reads at `b :: s`: a tag, or the byte that a reader sees; and the rest. -/
def plainStep (b : UInt8) (s : Bytes) : Option UInt8 × Bytes :=
  if b = 60 then (none, afterByte 62 s)
  else if b = 38 then
    match searchEntities.find? (fun e => e.1.isPrefixOf (b :: s)) with
    | some (name, c) => (some c, (b :: s).drop name.length)
    | none => (some b, s)
  else (some b, s)

theorem length_plainStep_le (b : UInt8) (s : Bytes) : (plainStep b s).2.length ≤ s.length := by
  unfold plainStep
  split
  · exact length_afterByte_le 62 s
  · split
    · split
      · next name c hfind =>
          have hname : 0 < name.length := by
            have hmem := List.mem_of_find?_eq_some hfind
            have hall : ∀ e ∈ searchEntities, 0 < e.1.length := by decide
            exact hall _ hmem
          simp only [List.length_drop, List.length_cons]
          omega
      · exact le_rfl
    · exact le_rfl

/-- White space, as `plain_text` collapses it. -/
def isGapByte (b : UInt8) : Bool := b == 32 || b == 9 || b == 13 || b == 10

/-- The loop of `plain_text`: whether something was written, whether a blank is due, and the rest of
the text. -/
def plainLoop (started space : Bool) : Bytes → Bytes
  | [] => []
  | b :: s =>
    match (plainStep b s).1 with
    | none => plainLoop started true (plainStep b s).2
    | some c =>
      if isGapByte c then plainLoop started true (plainStep b s).2
      else if space && started then 32 :: c :: plainLoop true false (plainStep b s).2
      else c :: plainLoop true false (plainStep b s).2
termination_by html => html.length
decreasing_by all_goals exact Nat.lt_succ_of_le (length_plainStep_le b s)

/-- `plain_text`. -/
def plainText (html : Bytes) : Bytes := plainLoop false false html

/-! ## What a reader sees, and what is stored for it -/

/-- A byte that a reader sees, with the stretch of the stored text that it stands for. -/
structure Shown where
  byte : UInt8
  stored : Bytes

/-- The bytes of the loop of `plain_text` with what is stored for each, `gap` being stored for a
blank that is due. -/
def shownLoop (started : Bool) (gap : Bytes) : Bytes → List Shown
  | [] => []
  | b :: s =>
    let stored := (b :: s).take ((b :: s).length - (plainStep b s).2.length)
    match (plainStep b s).1 with
    | none => shownLoop started (gap ++ stored) (plainStep b s).2
    | some c =>
      if isGapByte c then shownLoop started (gap ++ stored) (plainStep b s).2
      else if gap ≠ [] ∧ started then
        ⟨32, gap⟩ :: ⟨c, stored⟩ :: shownLoop true [] (plainStep b s).2
      else ⟨c, stored⟩ :: shownLoop true [] (plainStep b s).2
termination_by html => html.length
decreasing_by all_goals exact Nat.lt_succ_of_le (length_plainStep_le b s)

/-- What a reader sees of a text. -/
def shown (html : Bytes) : List Shown := shownLoop false [] html

/-- The characters that a text may store as something else: the blank, and those of entities. -/
def storedBytes : List UInt8 := [32, 38, 60, 62, 34, 39]

/-- What a step reads. -/
theorem plainStep_cases (b : UInt8) (s : Bytes) {c : UInt8} (h : (plainStep b s).1 = some c) :
    c ∈ storedBytes ∨ c = b ∧ (plainStep b s).2 = s := by
  unfold plainStep at h ⊢
  split at h
  · cases h
  · split at h
    · split at h
      · next name d hfind =>
          obtain rfl := Option.some.inj h
          have hall : ∀ e ∈ searchEntities, e.2 ∈ storedBytes := by decide
          exact Or.inl (hall _ (List.mem_of_find?_eq_some hfind))
      · next hfind =>
          obtain rfl := Option.some.inj h
          exact Or.inr ⟨rfl, by simp [*]⟩
    · next hb hamp =>
        obtain rfl := Option.some.inj h
        exact Or.inr ⟨rfl, by rw [if_neg hb, if_neg hamp]⟩

/-- A step leaves the end of the text. -/
theorem plainStep_suffix (b : UInt8) (s : Bytes) : (plainStep b s).2 <:+ b :: s := by
  have hself : s <:+ b :: s := List.suffix_cons b s
  unfold plainStep
  split
  · exact ((List.drop_suffix 1 _).trans (List.dropWhile_suffix _)).trans hself
  · split
    · split
      · exact List.drop_suffix _ _
      · exact hself
    · exact hself

/-- What a step reads, and what it leaves. -/
theorem plainStep_append (b : UInt8) (s : Bytes) :
    (b :: s).take ((b :: s).length - (plainStep b s).2.length) ++ (plainStep b s).2 = b :: s := by
  obtain ⟨t, ht⟩ := plainStep_suffix b s
  have hlen : (b :: s).length - (plainStep b s).2.length = t.length := by
    rw [← ht, List.length_append, Nat.add_sub_cancel]
  rw [hlen]
  conv_lhs => rw [← ht]
  rw [List.take_left]
  exact ht

/-- A step reads something. -/
theorem stored_ne_nil (b : UInt8) (s : Bytes) :
    (b :: s).take ((b :: s).length - (plainStep b s).2.length) ≠ [] := by
  have := length_plainStep_le b s
  rw [Ne, List.take_eq_nil_iff, List.length_cons]
  exact not_or.mpr ⟨by omega, by simp⟩

/-- The bytes that are shown are the plain text. -/
theorem map_byte_shownLoop (started : Bool) (gap html : Bytes) :
    (shownLoop started gap html).map Shown.byte =
      plainLoop started (decide (gap ≠ [])) html := by
  fun_induction shownLoop started gap html with
  | case1 => rw [plainLoop]; rfl
  | case2 started gap b s stored hstep ih =>
    have hdue : decide (gap ++ stored ≠ []) = true :=
      decide_eq_true (List.append_ne_nil_of_right_ne_nil gap (stored_ne_nil b s))
    rw [ih, hdue, plainLoop, hstep]
  | case3 started gap b s stored c hstep hgap ih =>
    have hdue : decide (gap ++ stored ≠ []) = true :=
      decide_eq_true (List.append_ne_nil_of_right_ne_nil gap (stored_ne_nil b s))
    rw [ih, hdue, plainLoop, hstep]
    simp only [hgap, if_true]
  | case4 started gap b s stored c hstep hgap hdue ih =>
    rw [plainLoop, hstep]
    simp only [hgap, Bool.false_eq_true, if_false, List.map_cons, ih]
    rw [if_pos (by simp [hdue])]
    rfl
  | case5 started gap b s stored c hstep hgap hdue ih =>
    rw [plainLoop, hstep]
    simp only [hgap, Bool.false_eq_true, if_false, List.map_cons, ih]
    rw [if_neg (by simpa using hdue)]
    rfl

/-- The bytes that are shown are the plain text. -/
theorem map_byte_shown (html : Bytes) : (shown html).map Shown.byte = plainText html :=
  map_byte_shownLoop false [] html

/-- What is stored for the bytes shown stands in the text in one piece. -/
theorem shownLoop_stored (started : Bool) (gap html : Bytes) :
    ∃ lead trail, (started = true → lead = []) ∧
      gap ++ html = lead ++ ((shownLoop started gap html).flatMap Shown.stored ++ trail) := by
  fun_induction shownLoop started gap html with
  | case1 started gap => exact ⟨[], gap, fun _ => rfl, by simp⟩
  | case2 started gap b s stored hstep ih =>
    obtain ⟨lead, trail, hlead, heq⟩ := ih
    refine ⟨lead, trail, hlead, ?_⟩
    rw [← heq, List.append_assoc, plainStep_append]
  | case3 started gap b s stored c hstep hgap ih =>
    obtain ⟨lead, trail, hlead, heq⟩ := ih
    refine ⟨lead, trail, hlead, ?_⟩
    rw [← heq, List.append_assoc, plainStep_append]
  | case4 started gap b s stored c hstep hgap hdue ih =>
    obtain ⟨lead, trail, hlead, heq⟩ := ih
    obtain rfl := hlead rfl
    refine ⟨[], trail, fun _ => rfl, ?_⟩
    rw [List.nil_append, List.nil_append] at heq
    rw [List.flatMap_cons, List.flatMap_cons, List.nil_append, List.append_assoc,
      List.append_assoc, ← heq]
    exact congrArg (gap ++ ·) (plainStep_append b s).symm
  | case5 started gap b s stored c hstep hgap hdue ih =>
    obtain ⟨lead, trail, hlead, heq⟩ := ih
    obtain rfl := hlead rfl
    refine ⟨gap, trail, fun hstarted => ?_, ?_⟩
    · by_contra hne
      exact hdue ⟨hne, hstarted⟩
    · rw [List.nil_append, List.nil_append] at heq
      rw [List.flatMap_cons, List.append_assoc, ← heq]
      exact congrArg (gap ++ ·) (plainStep_append b s).symm

/-- A byte that is not stored as itself is one of those that a text may store as something else. -/
theorem stored_of_mem_shownLoop {started : Bool} {gap html : Bytes} {x : Shown}
    (h : x ∈ shownLoop started gap html) : x.stored = [x.byte] ∨ x.byte ∈ storedBytes := by
  have hread : ∀ {b : UInt8} {s : Bytes} {c : UInt8}, (plainStep b s).1 = some c →
      (b :: s).take ((b :: s).length - (plainStep b s).2.length) = [c] ∨ c ∈ storedBytes := by
    intro b s c hc
    rcases plainStep_cases b s hc with hmem | ⟨rfl, hrest⟩
    · exact Or.inr hmem
    · left
      rw [hrest, List.length_cons, Nat.add_sub_cancel_left]
      rfl
  fun_induction shownLoop started gap html with
  | case1 => cases h
  | case2 started gap b s stored hstep ih => exact ih h
  | case3 started gap b s stored c hstep hgap ih => exact ih h
  | case4 started gap b s stored c hstep hgap hdue ih =>
    rcases List.mem_cons.mp h with rfl | h
    · exact Or.inr List.mem_cons_self
    · rcases List.mem_cons.mp h with rfl | h
      · exact hread hstep
      · exact ih h
  | case5 started gap b s stored c hstep hgap hdue ih =>
    rcases List.mem_cons.mp h with rfl | h
    · exact hread hstep
    · exact ih h

/-! ## Occurrences -/

/-- The query occurs in a text where it is stored as it is read. -/
def ReadAsStored (q html : Bytes) : Prop :=
  ∃ before occ after, shown html = before ++ (occ ++ after) ∧
    foldCase (occ.map Shown.byte) = foldCase q ∧ ∀ x ∈ occ, x.stored = [x.byte]

/-- An occurrence that is stored as it is read is one in the stored text. -/
theorem ReadAsStored.occurs {q html : Bytes} (h : ReadAsStored q html) :
    ∃ a b c, html = a ++ (b ++ c) ∧ foldCase b = foldCase q := by
  obtain ⟨before, occ, after, hshown, hfold, hstored⟩ := h
  obtain ⟨lead, trail, -, heq⟩ := shownLoop_stored false [] html
  have hocc : occ.flatMap Shown.stored = occ.map Shown.byte := by
    rw [List.flatMap_congr hstored]
    exact List.map_eq_flatMap.symm
  refine ⟨lead ++ before.flatMap Shown.stored, occ.map Shown.byte,
    after.flatMap Shown.stored ++ trail, ?_, hfold⟩
  rw [List.nil_append, show shownLoop false [] html = shown html from rfl, hshown,
    List.flatMap_append, List.flatMap_append, hocc] at heq
  simpa [List.append_assoc] using heq

/-- **A query without characters that a text may store as something else is stored as it is read**,
wherever it occurs. -/
theorem readAsStored_of_occurs {q html : Bytes} (hq : StartsLetter q)
    (hplain : ∀ b ∈ q, b ∉ storedBytes) (h : foldCase q <:+: foldCase (plainText html)) :
    ReadAsStored q html := by
  obtain ⟨a, b, c, hsplit, hfold⟩ := exists_of_infix_foldCase hq h
  rw [← map_byte_shown] at hsplit
  obtain ⟨before, rest, hshown, rfl, hrest⟩ := List.map_eq_append_iff.mp hsplit
  obtain ⟨occ, after, rfl, rfl, rfl⟩ := List.map_eq_append_iff.mp hrest
  refine ⟨before, occ, after, hshown, hfold, fun x hx => ?_⟩
  have hmem : x ∈ shownLoop false [] html := by
    change x ∈ shown html
    rw [hshown]
    simp [hx]
  refine (stored_of_mem_shownLoop hmem).resolve_right fun hbyte => ?_
  have hascii : ∀ b ∈ storedBytes, b < 0x80 ∧ isAlpha b = false := by decide
  obtain ⟨h80, halpha⟩ := hascii _ hbyte
  -- such a byte would be in the query
  have hin : x.byte ∈ foldCase (occ.map Shown.byte) :=
    (mem_foldCase_iff h80 halpha _).mpr (List.mem_map_of_mem hx)
  rw [hfold, mem_foldCase_iff h80 halpha] at hin
  exact hplain _ hin hbyte

end BoatRudder.Db
