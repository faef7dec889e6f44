import BoatRudder.WapGateway.PagedBuild

/-! # Written decks read back

What `ser_node` writes of a tree, `parse_wml` reads back as that tree, when its names are names and
no text of it is interrupted. -/

namespace BoatRudder.Wml

open Wbxml

/-! ## Escapes -/

variable {name s t : Bytes} {as : List (Bytes × Bytes)} {st : Stack}

/-- An escape is decoded to what it stands for. -/
theorem decodeEntities_escape {name : Bytes} {c : UInt8} (s : Bytes)
    (h : (name, c) ∈ [(lit "&amp;", 38), (lit "&lt;", 60), (lit "&gt;", 62), (lit "&quot;", 34)]) :
    decodeEntities (name ++ s) = c :: decodeEntities s := by
  have hamp : lit "&amp;" = [38, 97, 109, 112, 59] := by decide
  have hlt : lit "&lt;" = [38, 108, 116, 59] := by decide
  have hgt : lit "&gt;" = [38, 103, 116, 59] := by decide
  have hquot : lit "&quot;" = [38, 113, 117, 111, 116, 59] := by decide
  have hcode : entityCode [97, 109, 112] = some 38 ∧ entityCode [108, 116] = some 60 ∧
      entityCode [103, 116] = some 62 ∧ entityCode [113, 117, 111, 116] = some 34 := by decide
  have hutf8 : utf8 38 = [38] ∧ utf8 60 = [60] ∧ utf8 62 = [62] ∧ utf8 34 = [34] := by decide
  simp only [List.mem_cons, List.not_mem_nil, or_false, Prod.mk.injEq] at h
  rcases h with ⟨rfl, rfl⟩ | ⟨rfl, rfl⟩ | ⟨rfl, rfl⟩ | ⟨rfl, rfl⟩
  · rw [hamp]
    simp only [List.cons_append, List.nil_append]
    rw [decodeEntities]
    simp [List.findIdx?_cons, hcode, hutf8]
  · rw [hlt]
    simp only [List.cons_append, List.nil_append]
    rw [decodeEntities]
    simp [List.findIdx?_cons, hcode, hutf8]
  · rw [hgt]
    simp only [List.cons_append, List.nil_append]
    rw [decodeEntities]
    simp [List.findIdx?_cons, hcode, hutf8]
  · rw [hquot]
    simp only [List.cons_append, List.nil_append]
    rw [decodeEntities]
    simp [List.findIdx?_cons, hcode, hutf8]

/-- What is escaped is decoded back. -/
theorem decodeEntities_serEscape (attr : Bool) (s : Bytes) :
    decodeEntities (serEscape attr s) = s := by
  induction s with
  | nil => rw [serEscape, List.flatMap_nil, decodeEntities]
  | cons c s ih =>
    have hcons : serEscape attr (c :: s) = (if c = 38 then lit "&amp;"
        else if c = 60 then lit "&lt;"
        else if c = 62 then lit "&gt;"
        else if c = 34 ∧ attr then lit "&quot;"
        else [c]) ++ serEscape attr s := List.flatMap_cons
    rw [hcons]
    split_ifs with h1 h2 h3 h4
    · rw [h1, @decodeEntities_escape _ 38 _ (by simp), ih]
    · rw [h2, @decodeEntities_escape _ 60 _ (by simp), ih]
    · rw [h3, @decodeEntities_escape _ 62 _ (by simp), ih]
    · rw [h4.1, @decodeEntities_escape _ 34 _ (by simp), ih]
    · rw [List.singleton_append, decodeEntities, if_pos h1, ih]

/-- No angle bracket stands in what is escaped, and no quote in a value. -/
theorem ne_of_mem_serEscape {attr : Bool} {b : UInt8} (h : b ∈ serEscape attr s) :
    b ≠ 60 ∧ b ≠ 62 ∧ (attr = true → b ≠ 34) := by
  obtain ⟨c, -, hb⟩ := List.mem_flatMap.mp h
  have hclean : ∀ name ∈ [lit "&amp;", lit "&lt;", lit "&gt;", lit "&quot;"],
      ∀ b ∈ name, b ≠ 60 ∧ b ≠ 62 ∧ (attr = true → b ≠ 34) := by
    cases attr <;> decide
  split_ifs at hb with h1 h2 h3 h4
  · exact hclean _ (by simp) b hb
  · exact hclean _ (by simp) b hb
  · exact hclean _ (by simp) b hb
  · exact hclean _ (by simp) b hb
  · obtain rfl := List.mem_singleton.mp hb
    exact ⟨h2, h3, fun ha hb => h4 ⟨hb, ha⟩⟩

theorem serEscape_append (attr : Bool) (s t : Bytes) :
    serEscape attr (s ++ t) = serEscape attr s ++ serEscape attr t := List.flatMap_append

theorem serEscape_ne_nil {attr : Bool} (h : s ≠ []) : serEscape attr s ≠ [] := by
  intro hnil
  have := decodeEntities_serEscape attr s
  rw [hnil, decodeEntities] at this
  exact h this.symm

/-! ## Tags -/

/-- A name as `parse_wml` reads it. -/
def isWmlName (s : Bytes) : Bool := s ≠ [] && s.length ≤ 31 && s.all isNameChar

/-- A byte that ends a name. -/
def EndsName (s : Bytes) : Prop := ∀ c ∈ s.head?, isNameChar c = false

theorem dropWhile_isNameChar_append (hname : isWmlName name = true)
    (hs : EndsName s) : (name ++ s).dropWhile isNameChar = s := by
  simp only [isWmlName, Bool.and_eq_true, List.all_eq_true] at hname
  rw [List.dropWhile_append_of_pos hname.2]
  cases s with
  | nil => rfl
  | cons c s => rw [List.dropWhile_cons, hs c rfl]; rfl

theorem takeWhile_isNameChar_append (hname : isWmlName name = true)
    (hs : EndsName s) : (name ++ s).takeWhile isNameChar = name := by
  simp only [isWmlName, Bool.and_eq_true, List.all_eq_true] at hname
  rw [List.takeWhile_append_of_pos hname.2]
  cases s with
  | nil => exact List.append_nil name
  | cons c s => rw [List.takeWhile_cons, hs c rfl]; exact List.append_nil name

/-- A name is read whole. -/
theorem tagName_append (hname : isWmlName name = true) (hs : EndsName s) :
    tagName (name ++ s) = name := by
  rw [tagName, takeWhile_isNameChar_append hname hs]
  simp only [isWmlName, Bool.and_eq_true, decide_eq_true_eq] at hname
  exact List.take_of_length_le hname.1.2

/-- The first byte of a name. -/
theorem exists_cons_of_isWmlName (hname : isWmlName name = true) :
    ∃ c s, name = c :: s ∧ isNameChar c = true := by
  simp only [isWmlName, Bool.and_eq_true, decide_eq_true_eq, List.all_eq_true] at hname
  obtain ⟨c, s, rfl⟩ := List.exists_cons_of_ne_nil hname.1.1
  exact ⟨c, s, rfl, hname.2 c (by simp)⟩

/-- An attribute reads back. -/
theorem parseAttrs_serAttr (attrs : List (Bytes × Bytes)) (selfClose : Bool) {a : Bytes × Bytes}
    (ha : isWmlName a.1 = true) (s : Bytes) :
    parseAttrs attrs selfClose (serAttr a ++ s) = parseAttrs (attrs ++ [a]) selfClose s := by
  obtain ⟨name, value⟩ := a
  obtain ⟨c, t, rfl, hc⟩ := exists_cons_of_isWmlName ha
  have hblank : lit " " = [32] := by decide
  have hquote : lit "\"" = [34] := by decide
  have heq : lit "=\"" = [61, 34] := by decide
  have hclass : ∀ b : UInt8, isNameChar b = true → isSpace b = false ∧ b ≠ 62 ∧ b ≠ 47 := by
    intro b hb
    refine ⟨?_, ?_, ?_⟩
    · by_contra h
      simp only [Bool.not_eq_false, isSpace, Bool.or_eq_true, beq_iff_eq, Bool.and_eq_true,
        decide_eq_true_eq] at h
      simp only [isNameChar, isAlnum, isAlpha, isUpper, isLower, isDigit, Bool.or_eq_true,
        Bool.and_eq_true, decide_eq_true_eq, beq_iff_eq] at hb
      grind
    · rintro rfl
      exact absurd hb (by decide)
    · rintro rfl
      exact absurd hb (by decide)
  have hends : EndsName (61 :: 34 :: (serEscape true value ++ 34 :: s)) := by
    intro b hb
    obtain rfl := Option.mem_some_iff.mp hb
    decide
  -- what stands at the start of the attribute, past its blank
  have hsource : serAttr (c :: t, value) ++ s =
      32 :: (c :: t ++ 61 :: 34 :: (serEscape true value ++ 34 :: s)) := by
    simp [serAttr, hblank, hquote, heq]
  have hdrop : (32 :: (c :: t ++ 61 :: 34 :: (serEscape true value ++ 34 :: s))).dropWhile isSpace =
      c :: (t ++ 61 :: 34 :: (serEscape true value ++ 34 :: s)) := by
    have h32 : isSpace 32 = true := by decide
    rw [List.dropWhile_cons, h32]
    simp [(hclass c hc).1]
  have hname := tagName_append ha hends
  have htail : (t ++ 61 :: 34 :: (serEscape true value ++ 34 :: s)).dropWhile isNameChar =
      61 :: 34 :: (serEscape true value ++ 34 :: s) := by
    have := dropWhile_isNameChar_append ha hends
    rwa [List.cons_append, List.dropWhile_cons, hc] at this
  have h61 : (61 :: 34 :: (serEscape true value ++ 34 :: s)).dropWhile isSpace =
      61 :: 34 :: (serEscape true value ++ 34 :: s) := by
    have : isSpace 61 = false := by decide
    simp [this]
  have hvalue : attrValue (34 :: (serEscape true value ++ 34 :: s)) = (serEscape true value, s) := by
    have h34 : isSpace 34 = false := by decide
    have hno : 34 ∉ serEscape true value := fun h => (ne_of_mem_serEscape h).2.2 rfl rfl
    simp only [attrValue, List.dropWhile_cons, h34, Bool.false_eq_true, if_false, beq_self_eq_true,
      Bool.true_or, if_true]
    rw [takeWhile_ne_append hno, afterByte_append hno]
  rw [hsource, parseAttrs.eq_def]
  split
  · next hs => rw [hdrop] at hs; cases hs
  · next d u hs =>
      rw [hdrop] at hs
      obtain ⟨rfl, rfl⟩ := List.cons.inj hs
      have h62 : (c == 62) = false := by simpa using (hclass c hc).2.1
      have h47 : (c == 47) = false := by simpa using (hclass c hc).2.2
      simp only [h62, h47, hc, Bool.false_eq_true, if_false, Bool.not_true]
      split
      · next hr => rw [htail, h61] at hr; cases hr
      · next e r hr =>
          rw [htail, h61] at hr
          obtain ⟨rfl, rfl⟩ := List.cons.inj hr
          have hread : ((c :: (t ++ 61 :: 34 :: (serEscape true value ++ 34 :: s))).takeWhile
              isNameChar).take 31 = c :: t := hname
          rw [hread, hvalue, decodeEntities_serEscape]
          rfl

/-- Attributes read back. -/
theorem parseAttrs_flatMap_serAttr (attrs : List (Bytes × Bytes)) (selfClose : Bool)
    (has : ∀ a ∈ as, isWmlName a.1 = true) (s : Bytes) :
    parseAttrs attrs selfClose (as.flatMap serAttr ++ s) = parseAttrs (attrs ++ as) selfClose s := by
  induction as generalizing attrs with
  | nil => simp
  | cons a as ih =>
    rw [List.flatMap_cons, List.append_assoc, parseAttrs_serAttr _ _ (has a (by simp)),
      ih _ fun b hb => has b (List.mem_cons_of_mem a hb), List.append_assoc,
      List.singleton_append]

/-! ## The loop of the reader -/

theorem parseLoop_nil (st : Stack) : parseLoop [] st = closeAll st.top st.below := by
  rw [parseLoop, dif_pos rfl]

/-- One turn of the loop. -/
theorem parseLoop_step (hs : s ≠ []) (st : Stack) :
    parseLoop s st = parseLoop (parseStep s st).1 (parseStep s st).2 := by
  rw [parseLoop, dif_neg hs]

/-- A string that starts at a tag, or nothing. -/
def AtTag (s : Bytes) : Prop := ∀ c ∈ s.head?, c = 60

theorem takeWhile_text {t s : Bytes} (ht : 60 ∉ t) (hs : AtTag s) :
    (t ++ s).takeWhile (· ≠ 60) = t ∧ (t ++ s).dropWhile (· ≠ 60) = s := by
  cases s with
  | nil =>
    have hall : ∀ b ∈ t, (decide (b ≠ 60)) = true := fun b hb => by
      simpa using fun h : b = 60 => ht (h ▸ hb)
    rw [List.append_nil]
    exact ⟨List.takeWhile_eq_self_iff.mpr hall, List.dropWhile_eq_nil_iff.mpr hall⟩
  | cons c s =>
    obtain rfl : c = 60 := hs c rfl
    exact ⟨takeWhile_ne_append ht s, dropWhile_ne_append ht s⟩

/-- A run of text is read in one turn. -/
theorem parseLoop_run {t s : Bytes} (hne : t ≠ []) (ht : 60 ∉ t) (hs : AtTag s)
    (st : Stack) : parseLoop (t ++ s) st = parseLoop s (readText (t ++ s) st) := by
  obtain ⟨b, u, rfl⟩ := List.exists_cons_of_ne_nil hne
  have hb : b ≠ 60 := fun h => ht (by simp [h])
  rw [parseLoop_step (by simp), parseStep, if_pos (by simpa using hb), (takeWhile_text ht hs).2]

/-- A text whose blanks are collapsed, and that is not a blank. -/
def Collapsed (t : Bytes) : Prop := t.all isBlank = false ∧ collapseBlanks false false t = t

instance (t : Bytes) : Decidable (Collapsed t) := inferInstanceAs (Decidable (_ ∧ _))

theorem Collapsed.ne_nil (h : Collapsed t) : t ≠ [] := by
  rintro rfl
  exact absurd h.1 (by simp)

/-- A text reads back. -/
theorem parseLoop_text (ht : Collapsed t) (hs : AtTag s) (st : Stack) :
    parseLoop (serEscape false t ++ s) st = parseLoop s (st.add (.text t)) := by
  have hno : 60 ∉ serEscape false t := fun h => (ne_of_mem_serEscape h).1 rfl
  have hmake : makeText (serEscape false t) = some t := by
    simp only [makeText, decodeEntities_serEscape, ht.1, Bool.false_eq_true, if_false, ht.2]
  rw [parseLoop_run (serEscape_ne_nil ht.ne_nil) hno hs, readText, (takeWhile_text hno hs).1, hmake]

/-- A blank between two elements of a text reads back. -/
theorem parseLoop_gap {c : UInt8} (hc : c ≠ 47) (hgap : inlineGap st.top = true) :
    parseLoop (32 :: 60 :: c :: s) st = parseLoop (60 :: c :: s) (st.add (.text [32])) := by
  have hblank : lit " " = [32] := by decide
  have hmake : makeText [32] = none := by decide +kernel
  have hread := @parseLoop_run [32] (60 :: c :: s) (by simp) (by decide) (by simp [AtTag]) st
  rw [List.singleton_append] at hread
  have htake := @takeWhile_text [32] (60 :: c :: s) (by decide) (by simp [AtTag])
  rw [List.singleton_append] at htake
  rw [hread, readText, htake.1, hmake, htake.2]
  simp only
  rw [if_pos ⟨by simp, by simpa using hc, hgap⟩, hblank]

/-- A line feed between two elements that are no part of a text is dropped. -/
theorem parseLoop_lineFeed (hs : AtTag s)
    (hgap : inlineGap st.top = false) : parseLoop (10 :: s) st = parseLoop s st := by
  have hmake : makeText [10] = none := by decide +kernel
  have hread := @parseLoop_run [10] s (by simp) (by decide) hs st
  rw [List.singleton_append] at hread
  have htake := @takeWhile_text [10] s (by decide) hs
  rw [List.singleton_append] at htake
  rw [hread, readText, htake.1, hmake]
  simp only
  rw [if_neg (by simp [hgap])]

/-! ## Elements -/

/-- What is written of an element up to the end of its open tag. -/
theorem endsName_attrs (as : List (Bytes × Bytes)) (hs : EndsName s) :
    EndsName (as.flatMap serAttr ++ s) := by
  cases as with
  | nil => simpa using hs
  | cons a as =>
    have hblank : lit " " = [32] := by decide
    intro c hc
    obtain rfl : 32 = c := by simpa [serAttr, hblank] using hc
    decide

/-- One turn of the loop at an open tag. -/
theorem parseLoop_openTag (hname : isWmlName name = true) (hs : EndsName s) (st : Stack) :
    parseLoop (60 :: (name ++ s)) st =
      parseLoop (readOpenTag (name ++ s) st).1 (readOpenTag (name ++ s) st).2 := by
  obtain ⟨c, t, rfl, hc⟩ := exists_cons_of_isWmlName hname
  have hne : c ≠ 33 ∧ c ≠ 63 ∧ c ≠ 47 := by
    refine ⟨?_, ?_, ?_⟩ <;> (rintro rfl; exact absurd hc (by decide))
  have hcomment : lit "<!--" = [60, 33, 45, 45] := by decide
  have htake := takeWhile_isNameChar_append hname hs
  have hdrop : (60 :: (c :: t ++ s)).drop 1 = c :: t ++ s := rfl
  rw [parseLoop_step (by simp), parseStep, if_neg (by simp), if_neg, if_neg, if_neg, if_neg, hdrop]
  · rw [hdrop, htake]
    simp
  · simpa using hne.2.2
  · simpa using ⟨hne.2.1, hne.1⟩
  · rw [hcomment]
    simpa using fun h : 33 = c => absurd h.symm hne.1

/-- An element without children reads back. -/
theorem parseLoop_selfClose (hname : isWmlName name = true) (has : ∀ a ∈ as, isWmlName a.1 = true)
    (s : Bytes)
    (st : Stack) : parseLoop (60 :: (name ++ (as.flatMap serAttr ++ 47 :: 62 :: s))) st =
      parseLoop s (st.add (.elem name as [])) := by
  have hends := endsName_attrs as (show EndsName (47 :: 62 :: s) by
    intro c hc
    obtain rfl := Option.mem_some_iff.mp hc
    decide)
  have htag : parseAttrs [] false (as.flatMap serAttr ++ 47 :: 62 :: s) = (as, true, s) := by
    rw [parseAttrs_flatMap_serAttr [] false has, List.nil_append, parseAttrs_slash, parseAttrs_gt]
  rw [parseLoop_openTag hname hends, readOpenTag, dropWhile_isNameChar_append hname hends, htag,
    tagName_append hname hends]
  simp

/-- The open tag of an element with children is read. -/
theorem parseLoop_open (hname : isWmlName name = true)
    (has : ∀ a ∈ as, isWmlName a.1 = true) (hvoid : isVoidTag name = false)
    (hdepth : st.below.length < 63) (s : Bytes) :
    parseLoop (60 :: (name ++ (as.flatMap serAttr ++ 62 :: s))) st =
      parseLoop s ⟨⟨name, as, []⟩, st.top :: st.below⟩ := by
  have hends := endsName_attrs as (show EndsName (62 :: s) by
    intro c hc
    obtain rfl := Option.mem_some_iff.mp hc
    decide)
  have htag : parseAttrs [] false (as.flatMap serAttr ++ 62 :: s) = (as, false, s) := by
    rw [parseAttrs_flatMap_serAttr [] false has, List.nil_append, parseAttrs_gt]
  rw [parseLoop_openTag hname hends, readOpenTag, dropWhile_isNameChar_append hname hends, htag,
    tagName_append hname hends]
  simp [hvoid, hdepth]

/-- The close tag of the innermost open element is read. -/
theorem parseLoop_close {kids : List Node}
    {parent : Frame} {below : List Frame} (hname : isWmlName name = true) (s : Bytes) :
    parseLoop (60 :: 47 :: (name ++ 62 :: s)) ⟨⟨name, as, kids⟩, parent :: below⟩ =
      parseLoop s ⟨parent.add (.elem name as kids), below⟩ := by
  have hcomment : lit "<!--" = [60, 33, 45, 45] := by decide
  have hends : EndsName (62 :: s) := by
    intro c hc
    obtain rfl := Option.mem_some_iff.mp hc
    decide
  have hdrop : (60 :: 47 :: (name ++ 62 :: s)).drop 2 = name ++ 62 :: s := rfl
  have hafter : afterByte 62 (62 :: s) = s := by simp [afterByte]
  rw [parseLoop_step (by simp), parseStep, if_neg (by simp), if_neg (by simp [hcomment]),
    if_neg (by simp), if_pos (by simp), hdrop, dropWhile_isNameChar_append hname hends,
    tagName_append hname hends, hafter, popTo, if_pos (eqNoCase_refl _)]
  rfl

/-! ## Trees -/

/-- The children of an element as `parse_wml` makes them: texts with their blanks collapsed, and
single blanks behind an inline element. -/
def ShapedKids (name : Bytes) (kids : List Node) : Prop :=
  ∀ pre t post, kids = pre ++ .text t :: post →
    Collapsed t ∨ (t = lit " " ∧ inlineGap ⟨name, [], pre⟩ = true)

/-- A node as `parse_wml` makes it: a name and the names of attributes are names, and an element
that is empty by its name has no children. -/
def Shaped : Node → Prop
  | .text _ => True
  | .elem name attrs kids => isWmlName name = true ∧ (∀ a ∈ attrs, isWmlName a.1 = true) ∧
    (isVoidTag name = true → kids = []) ∧ ShapedKids name kids

/-- Whether a text is a blank. -/
def isBlankText : Node → Bool
  | .text t => t.all isBlank
  | .elem _ _ _ => false

/-- Siblings no text among which is interrupted: none stands next to another, and none that is a
blank is the last one. -/
def Uninterrupted (kids : List Node) : Prop :=
  kids.IsChain (fun a b => a.isElem = true ∨ b.isElem = true) ∧
    ∀ k ∈ kids.getLast?, isBlankText k = false

instance (kids : List Node) : Decidable (Uninterrupted kids) := inferInstanceAs (Decidable (_ ∧ _))

/-- The next sibling of a text starts a tag. -/
theorem atTag_serNodes {ks : List Node}
    (hchain : (Tree.text t :: ks).IsChain fun a b => a.isElem = true ∨ b.isElem = true)
    (hs : AtTag s) : AtTag (serNodes ks ++ s) := by
  have hlt : lit "<" = [60] := by decide
  cases ks with
  | nil => exact hs
  | cons k ks =>
    cases k with
    | text u =>
      have := (List.isChain_cons_cons.mp hchain).1
      simp [Tree.isElem] at this
    | elem name attrs kids => simp [AtTag, serNodes, serNode, hlt]

/-- A node that is written so that it reads back. -/
def ReadsBack (n : Node) : Prop := n.Every fun n => Shaped n ∧ Uninterrupted n.kids

/-- An element is written with its tags around its children, unless it has none. -/
theorem serNode_elem {attrs : List (Bytes × Bytes)} {kids : List Node}
    (h : kids ≠ []) (s : Bytes) : serNode (.elem name attrs kids) ++ s =
      60 :: (name ++ (attrs.flatMap serAttr ++ 62 :: (serNodes kids ++
        60 :: 47 :: (name ++ 62 :: s)))) := by
  have h1 : lit "<" = [60] := by decide
  have h2 : lit ">" = [62] := by decide
  have h3 : lit "</" = [60, 47] := by decide
  simp [serNode, h, h1, h2, h3]

theorem serNode_empty (name : Bytes) (attrs : List (Bytes × Bytes)) (s : Bytes) :
    serNode (.elem name attrs []) ++ s = 60 :: (name ++ (attrs.flatMap serAttr ++ 47 :: 62 :: s)) := by
  have h1 : lit "<" = [60] := by decide
  have h2 : lit "/>" = [47, 62] := by decide
  simp [serNode, h1, h2]

/-- The children of an element read back, when each of them does. -/
theorem parseLoop_serNodes {name : Bytes} {attrs : List (Bytes × Bytes)} {below : List Frame}
    {ks : List Node} {s : Bytes} (hs : AtTag s)
    (hread : ∀ k ∈ ks, k.isElem = true → ∀ done t,
      parseLoop (serNode k ++ t) ⟨⟨name, attrs, done⟩, below⟩ =
        parseLoop t ⟨⟨name, attrs, done ++ [k]⟩, below⟩)
    (done : List Node) (hshaped : ShapedKids name (done ++ ks)) (hclean : Uninterrupted ks)
    (helem : ∀ k ∈ ks, k.isElem = true → Shaped k) :
    parseLoop (serNodes ks ++ s) ⟨⟨name, attrs, done⟩, below⟩ =
      parseLoop s ⟨⟨name, attrs, done ++ ks⟩, below⟩ := by
  induction ks generalizing done with
  | nil => simp [serNodes]
  | cons k ks ih =>
    have hrest : Uninterrupted ks := by
      refine ⟨hclean.1.tail, fun l hl => hclean.2 l ?_⟩
      cases ks with
      | nil => cases hl
      | cons m ks => rwa [List.getLast?_cons_cons]
    have hnext : ∀ st : Stack, st = ⟨⟨name, attrs, done ++ [k]⟩, below⟩ →
        parseLoop (serNodes ks ++ s) st =
          parseLoop s ⟨⟨name, attrs, done ++ k :: ks⟩, below⟩ := by
      rintro _ rfl
      have := ih (fun l hl => hread l (List.mem_cons_of_mem k hl)) (done ++ [k])
        (by simpa using hshaped) hrest (fun l hl => helem l (List.mem_cons_of_mem k hl))
      simpa using this
    rw [serNodes, List.append_assoc]
    cases k with
    | elem kname kattrs kids =>
      rw [hread _ (by simp) rfl]
      exact hnext _ rfl
    | text t =>
      rw [serNode]
      rcases hshaped done t ks rfl with hcollapsed | ⟨rfl, hgap⟩
      · rw [parseLoop_text hcollapsed (atTag_serNodes hclean.1 hs)]
        exact hnext _ rfl
      · -- a blank: an element follows it
        cases ks with
        | nil => exact absurd (hclean.2 (.text (lit " ")) rfl) (by decide)
        | cons m ks =>
          cases m with
          | text u => simpa [Tree.isElem] using (List.isChain_cons_cons.mp hclean.1).1
          | elem mname mattrs mkids =>
            obtain ⟨c, u, rfl, hc⟩ :=
              exists_cons_of_isWmlName (helem (.elem mname mattrs mkids) (by simp) rfl).1
            have hne : c ≠ 47 := by
              rintro rfl
              exact absurd hc (by decide)
            have hblank : serEscape false (lit " ") = [32] := by decide
            have hlt : lit "<" = [60] := by decide
            have hlit : lit " " = [32] := by decide
            obtain ⟨v, hv⟩ : ∃ v, serNodes (.elem (c :: u) mattrs mkids :: ks) ++ s =
                60 :: c :: v := by
              simp [serNodes, serNode, hlt]
            have hgap' : inlineGap (⟨⟨name, attrs, done⟩, below⟩ : Stack).top = true := hgap
            rw [hblank, hv, List.singleton_append, parseLoop_gap hne hgap', ← hv]
            exact hnext _ (by rw [hlit]; rfl)

/-- **A node that is written reads back.** The induction is on the node, over every stack that leaves
room for it. -/
theorem parseLoop_serNode {n : Node} (hread : ReadsBack n) (helem : n.isElem = true)
    (hdepth : st.below.length + n.depth ≤ 63) (s : Bytes) :
    parseLoop (serNode n ++ s) st = parseLoop s (st.add n) := by
  induction n using Tree.induction generalizing st s with
  | text t => cases helem
  | elem name attrs kids ih =>
    obtain ⟨⟨⟨hname, hattrs, hvoid, hshaped⟩, hclean⟩, hkids⟩ := Tree.every_elem.mp hread
    by_cases hnil : kids = []
    · subst hnil
      rw [serNode_empty, parseLoop_selfClose hname hattrs]
    · have hvoid' : isVoidTag name = false := by
        by_contra h
        exact hnil (hvoid (by simpa using h))
      rw [Tree.depth] at hdepth
      have hroom : st.below.length < 63 := by omega
      rw [serNode_elem hnil, parseLoop_open hname hattrs hvoid' hroom]
      have hinner := @parseLoop_serNodes name attrs (st.top :: st.below) kids
        (60 :: 47 :: (name ++ 62 :: s)) (by simp [AtTag])
        (fun k hk hkelem done t => ih k hk (hkids k hk) hkelem (by
          have := Tree.depth_le_depthIn hk
          simp only [List.length_cons]
          omega) t)
        [] (by simpa using hshaped) hclean (fun k hk _ => (hkids k hk).root.1)
      rw [hinner, List.nil_append]
      exact parseLoop_close hname s

/-! ## Decks -/

/-- A deck of one card, as `wml_paginate` writes it. -/
def wmlDeck (xmlEncoding title : Bytes) (blocks : List Node) : Bytes :=
  wmlHead xmlEncoding ++ serAttr (lit "title", title) ++ lit ">\n" ++ blocks.flatMap serLine ++
    lit "</card>\n</wml>\n"

/-- The tree of such a deck. -/
def deckTree (title : Bytes) (blocks : List Node) : Node :=
  .elem (lit "#root") []
    [.elem (lit "wml") []
      [.elem (lit "card") [(lit "id", lit "p"), (lit "title", title)] blocks]]

/-- What stands before a deck's root element is skipped: it is no comment. -/
theorem parseLoop_prolog {c : UInt8} {a : Bytes}
    (hc : c = 63 ∨ c = 33 ∧ ∃ d u, a = d :: u ∧ d ≠ 45) (ha : 62 ∉ a) (st : Stack) :
    parseLoop (60 :: c :: (a ++ 62 :: s)) st = parseLoop s st := by
  have hafter : afterByte 62 (60 :: c :: (a ++ 62 :: s)) = s := by
    have hno : 62 ∉ 60 :: c :: a := by
      rcases hc with rfl | ⟨rfl, -⟩ <;> simpa using ha
    exact afterByte_append hno s
  have hcomment : (lit "<!--").isPrefixOf (60 :: c :: (a ++ 62 :: s)) = false := by
    have hlit : lit "<!--" = [60, 33, 45, 45] := by decide
    rcases hc with rfl | ⟨rfl, d, u, rfl, hd⟩
    · simp [hlit, List.isPrefixOf]
    · simp [hlit, List.isPrefixOf, hd.symm]
  rw [parseLoop_step (by simp), parseStep, if_neg (by simp), if_neg (by simp [hcomment]),
    if_pos (by simpa using hc.imp_right And.left), hafter]

/-- An element that holds no text has no gaps between its children. -/
theorem inlineGap_false {f : Frame} (h : textParents.any (eqNoCase f.name) = false) :
    inlineGap f = false := by
  unfold inlineGap
  split
  · rw [h, Bool.and_false]
  · rfl

/-- The blocks of a card, each on its line, read back. -/
theorem parseLoop_serLines {attrs : List (Bytes × Bytes)} {below : List Frame}
    {blocks : List Node} (hs : AtTag s) (hdepth : below.length = 2)
    (hblocks : ∀ b ∈ blocks, b.isElem = true ∧ ReadsBack b ∧ b.depth ≤ 61) (done : List Node) :
    parseLoop (blocks.flatMap serLine ++ s) ⟨⟨lit "card", attrs, done⟩, below⟩ =
      parseLoop s ⟨⟨lit "card", attrs, done ++ blocks⟩, below⟩ := by
  have hcard : textParents.any (eqNoCase (lit "card")) = false := by decide
  have hfeed : lit "\n" = [10] := by decide
  have hlt : lit "<" = [60] := by decide
  induction blocks generalizing done with
  | nil => simp
  | cons b blocks ih =>
    obtain ⟨helem, hread, hdeep⟩ := hblocks b (by simp)
    have hrest : AtTag (blocks.flatMap serLine ++ s) := by
      cases blocks with
      | nil => exact hs
      | cons c blocks =>
        obtain ⟨hcelem, -⟩ := hblocks c (by simp)
        cases c with
        | text t => cases hcelem
        | elem name as kids => simp [AtTag, serLine, serNode, hlt]
    rw [List.flatMap_cons, serLine, List.append_assoc, List.append_assoc,
      parseLoop_serNode hread helem (by simp only [hdepth]; omega), hfeed, List.singleton_append,
      parseLoop_lineFeed hrest (inlineGap_false hcard)]
    have := ih (fun c hc => hblocks c (List.mem_cons_of_mem b hc)) (done ++ [b])
    simpa [Stack.add, Frame.add] using this

/-- **A written deck reads back**: its title, and its blocks. -/
theorem parseWml_wmlDeck {xmlEncoding title : Bytes} (henc : 62 ∉ xmlEncoding)
    {blocks : List Node}
    (hblocks : ∀ b ∈ blocks, b.isElem = true ∧ ReadsBack b ∧ b.depth ≤ 61) :
    parseWml (wmlDeck xmlEncoding title blocks) = deckTree title blocks := by
  have hroot : textParents.any (eqNoCase (lit "#root")) = false := by decide
  have hwml : textParents.any (eqNoCase (lit "wml")) = false := by decide
  have hcard : textParents.any (eqNoCase (lit "card")) = false := by decide
  set cardAttrs : List (Bytes × Bytes) := [(lit "id", lit "p"), (lit "title", title)]
    with hcardAttrs
  set doctype := lit "DOCTYPE wml PUBLIC \"-//WAPFORUM//DTD WML 1.1//EN\" " ++
    lit "\"http://www.wapforum.org/DTD/wml_1.1.xml\"" with hdoctype
  set tail := lit "</card>\n</wml>\n" with htail
  have hclose : tail =
      60 :: 47 :: (lit "card" ++ 62 :: (10 :: (60 :: 47 :: (lit "wml" ++ 62 :: (10 :: []))))) := by
    decide
  -- the deck from tag to tag
  have hdeck : wmlDeck xmlEncoding title blocks =
      60 :: 63 :: ((lit "xml version=\"1.0\" encoding=\"" ++ xmlEncoding ++ lit "\"?") ++ 62 ::
        10 :: 60 :: 33 :: (doctype ++ 62 ::
          10 :: 60 :: (lit "wml" ++ (([] : List (Bytes × Bytes)).flatMap serAttr ++ 62 ::
            10 :: 60 :: (lit "card" ++ (cardAttrs.flatMap serAttr ++ 62 ::
              10 :: (blocks.flatMap serLine ++ tail))))))) := by
    have h1 : lit "<?xml version=\"1.0\" encoding=\"" =
        60 :: 63 :: lit "xml version=\"1.0\" encoding=\"" := by decide
    have h2 : lit "\"?>\n" = lit "\"?" ++ [62, 10] := by decide
    have h3 : lit "<!DOCTYPE wml PUBLIC \"-//WAPFORUM//DTD WML 1.1//EN\" " =
        60 :: 33 :: lit "DOCTYPE wml PUBLIC \"-//WAPFORUM//DTD WML 1.1//EN\" " := by decide
    have h4 : lit "\"http://www.wapforum.org/DTD/wml_1.1.xml\">\n<wml>\n<card id=\"p\"" =
        lit "\"http://www.wapforum.org/DTD/wml_1.1.xml\"" ++ 62 :: 10 :: 60 :: (lit "wml" ++
          62 :: 10 :: 60 :: (lit "card" ++ serAttr (lit "id", lit "p"))) := by decide
    have h5 : lit ">\n" = [62, 10] := by decide
    simp [wmlDeck, wmlHead, h1, h2, h3, h4, h5, hcardAttrs, hdoctype, htail]
  have hprolog : (62 : UInt8) ∉
      lit "xml version=\"1.0\" encoding=\"" ++ xmlEncoding ++ lit "\"?" := by
    have hplain : 62 ∉ lit "xml version=\"1.0\" encoding=\"" ∧ 62 ∉ lit "\"?" := by
      decide
    simp [hplain, henc]
  have hnames : ∀ a ∈ cardAttrs, isWmlName a.1 = true := by
    have h : isWmlName (lit "id") = true ∧ isWmlName (lit "title") = true := by decide
    simpa [hcardAttrs] using h
  have hdoctypeHead : ∃ d u, doctype = d :: u ∧ d ≠ 45 := ⟨_, _, rfl, by decide⟩
  have hline : AtTag (blocks.flatMap serLine ++ tail) := by
    have hlt : lit "<" = [60] := by decide
    cases blocks with
    | nil => simp [AtTag, hclose]
    | cons b blocks =>
      obtain ⟨helem, -⟩ := hblocks b (by simp)
      cases b with
      | text t => cases helem
      | elem name as kids => simp [AtTag, serLine, serNode, hlt]
  rw [parseWml, hdeck, parseLoop_prolog (Or.inl rfl) hprolog, parseLoop_lineFeed (by simp [AtTag]) rfl,
    parseLoop_prolog (Or.inr ⟨rfl, hdoctypeHead⟩) (by decide), parseLoop_lineFeed (by simp [AtTag]) rfl,
    parseLoop_open (by decide) (by simp) (by decide) (by decide),
    parseLoop_lineFeed (by simp [AtTag]) (inlineGap_false hwml),
    parseLoop_open (by decide) hnames (by decide) (by decide),
    parseLoop_lineFeed hline (inlineGap_false hcard),
    parseLoop_serLines (by simp [AtTag, hclose]) rfl hblocks, hclose, List.nil_append,
    parseLoop_close (by decide), parseLoop_lineFeed (by simp [AtTag]) (inlineGap_false hwml)]
  refine (parseLoop_close (by decide) _).trans ?_
  rw [parseLoop_lineFeed (by simp [AtTag]) (inlineGap_false hroot), parseLoop_nil]
  rfl

end BoatRudder.Wml
