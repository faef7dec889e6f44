import BoatRudder.WapGateway.PageBlocks
import BoatRudder.WapGateway.PageParamKept
import BoatRudder.WapGateway.ValidTexts
import BoatRudder.WapGateway.WbxmlRoundTrip

/-! # The strings of a page are UTF-8

The inline strings of a compiled page are cut out of the texts and attribute values of its deck, its
title and its links at ASCII bytes, or in front of a byte that continues no character. They are UTF-8
where these are. -/

namespace BoatRudder.Wbxml

open Wml

/-! ## The strings of a body -/

variable {s t uri : Bytes}

/-- The tokens with an inline string: `STR_I`, and the extension tokens with a variable's name. -/
def IsStringToken (b : UInt8) : Prop := b = tokenStrI ∨ b = 0x40 ∨ b = 0x41 ∨ b = 0x42

instance (b : UInt8) : Decidable (IsStringToken b) := inferInstanceAs (Decidable (_ ∨ _))

/-- The inline strings of a body, token by token. -/
def inlineStrings : Bytes → List Bytes
  | [] => []
  | b :: s =>
    if IsStringToken b then s.takeWhile (· ≠ 0) :: inlineStrings (afterByte 0 s)
    else inlineStrings s
termination_by s => s.length
decreasing_by
  · have := length_afterByte_le 0 s
    rw [List.length_cons]
    omega
  · simp

/-- What goes out as a string: UTF-8, without a NUL. -/
structure Sendable (s : Bytes) : Prop where
  /-- UTF-8. -/
  utf8 : ValidUtf8 s
  /-- No NUL. -/
  noNul : 0 ∉ s

/-- Tokens whose strings are UTF-8, whatever follows them. -/
def TextTokens (t : Bytes) : Prop :=
  ∀ rest, (∀ s ∈ inlineStrings rest, ValidUtf8 s) → ∀ s ∈ inlineStrings (t ++ rest), ValidUtf8 s

theorem textTokens_nil : TextTokens [] := fun _ h => h

/-- Texts in two bodies are those in both. -/
theorem TextTokens.append {u : Bytes} (ht : TextTokens t) (hu : TextTokens u) :
    TextTokens (t ++ u) := by
  intro rest hrest
  rw [List.append_assoc]
  exact ht _ (hu rest hrest)

/-- A byte that is no string token. -/
theorem textTokens_singleton {b : UInt8} (hb : ¬ IsStringToken b) : TextTokens [b] := by
  intro rest hrest
  rw [List.singleton_append, inlineStrings, if_neg hb]
  exact hrest

theorem TextTokens.cons {b : UInt8} {t : Bytes} (hb : ¬ IsStringToken b) (ht : TextTokens t) :
    TextTokens (b :: t) := (textTokens_singleton hb).append ht

/-- A token with its string. -/
theorem textTokens_string {b : UInt8} (hb : IsStringToken b) (hs : Sendable s) :
    TextTokens (b :: s ++ [0]) := by
  intro rest hrest
  have hall : ∀ c ∈ s, decide (c ≠ 0) = true := by
    intro c hc
    simpa using fun h : c = 0 => hs.noNul (h ▸ hc)
  have hstr : (s ++ 0 :: rest).takeWhile (· ≠ 0) = s := by
    rw [List.takeWhile_append_of_pos hall]
    simp
  have hafter : afterByte 0 (s ++ 0 :: rest) = rest := by
    rw [afterByte, List.dropWhile_append_of_pos hall]
    simp
  have hshape : b :: s ++ [0] ++ rest = b :: (s ++ 0 :: rest) := by simp
  rw [hshape, inlineStrings, if_pos hb, hstr, hafter]
  exact List.forall_mem_cons.mpr ⟨hs.utf8, hrest⟩

/-! ## Strings with variables -/

theorem sendable_nil : Sendable [] := ⟨validUtf8_nil, List.not_mem_nil⟩

/-- ASCII can be sent. -/
theorem sendable_of_ascii (h : ∀ b ∈ s, isAscii b = true ∧ b ≠ 0) : Sendable s :=
  ⟨validUtf8_of_ascii fun b hb => (h b hb).1, fun h0 => (h 0 h0).2 rfl⟩

/-- Texts that can be sent, one behind the other. -/
theorem Sendable.append (hs : Sendable s) (ht : Sendable t) : Sendable (s ++ t) :=
  ⟨hs.utf8.append ht.utf8, fun h => (List.mem_append.mp h).elim hs.noNul ht.noNul⟩

/-- Literal text is written as valid text. -/
theorem textTokens_putLiteral (hs : Sendable s) : TextTokens (putLiteral s) := by
  rw [putLiteral]
  split_ifs
  · exact textTokens_nil
  · exact textTokens_string (Or.inl rfl) hs

/-- A variable is named in ASCII. -/
theorem isVarChar_class {c : UInt8} (h : isVarChar c = true) : isAscii c = true ∧ c ≠ 0 := by
  simp only [isVarChar, isAlnum, isAlpha, isUpper, isLower, isDigit, Bool.or_eq_true,
    Bool.and_eq_true, decide_eq_true_eq, beq_iff_eq] at h
  simp only [isAscii, decide_eq_true_eq]
  grind

/-- A reference to a variable: its name is ASCII, and a character starts behind it. -/
theorem sendable_varRef {r : VarRef} (hs : Sendable s) (h : varRef s = some r) :
    IsStringToken r.token ∧ Sendable r.name ∧ Sendable r.after := by
  have hname (t : Bytes) : Sendable (t.takeWhile isVarChar) :=
    sendable_of_ascii fun _ hb => isVarChar_class (List.mem_takeWhile_imp hb)
  have hdrop {t : Bytes} (ht : Sendable t) : Sendable (t.dropWhile isVarChar) :=
    ⟨ht.utf8.dropWhile fun _ hb => (isVarChar_class hb).1,
      fun h0 => ht.noNul ((List.dropWhile_suffix _).subset h0)⟩
  have hafter {t : Bytes} (ht : Sendable t) : Sendable (afterByte 41 t) :=
    ⟨ht.utf8.afterByte (by decide),
      fun h0 => ht.noNul ((List.dropWhile_suffix _).subset (List.mem_of_mem_drop h0))⟩
  have htoken (conv : Bytes) : IsStringToken (convToken conv) := by
    rw [convToken]
    split_ifs <;> decide
  unfold varRef at h
  split_ifs at h with hparen
  · obtain ⟨t, rfl⟩ := List.head?_eq_some_iff.mp hparen
    have ht : Sendable t :=
      ⟨(validUtf8_cons (by decide)).mp hs.utf8, fun h0 => hs.noNul (List.mem_cons_of_mem _ h0)⟩
    simp only [parenRef, List.drop_one, List.tail_cons] at h
    split_ifs at h
    · obtain rfl := Option.some.inj h
      exact ⟨htoken _, hname t, hafter (hdrop ht)⟩
    · obtain rfl := Option.some.inj h
      exact ⟨Or.inr (Or.inr (Or.inr rfl)), hname t, hafter (hdrop ht)⟩
  · unfold bareRef at h
    split_ifs at h
    obtain rfl := Option.some.inj h
    exact ⟨Or.inr (Or.inr (Or.inr rfl)), hname s, hdrop hs⟩

/-- The loop of `put_str` cuts at a `$`. -/
theorem textTokens_putStrFrom {run : Bytes} (h : Sendable (run ++ s)) :
    TextTokens (putStrFrom run s) := by
  -- what stands before a `$`, and what stands behind it
  have hcut {t u : Bytes} (htu : Sendable (t ++ 36 :: u)) : Sendable t ∧ Sendable u := by
    obtain ⟨h1, h2⟩ := (validUtf8_append_cons (by decide)).mp htu.utf8
    have h0 := htu.noNul
    rw [List.mem_append, List.mem_cons, not_or, not_or] at h0
    exact ⟨⟨h1, h0.1⟩, ⟨h2, h0.2.2⟩⟩
  fun_induction putStrFrom run s with
  | case1 run => exact textTokens_putLiteral (by simpa using h)
  | case2 run c s hc ih => exact ih (by simpa using h)
  | case3 run c s hc hdouble ih =>
    obtain rfl : c = 36 := by simpa using hc
    obtain ⟨t, rfl⟩ := List.head?_eq_some_iff.mp hdouble
    obtain ⟨hrun, ht⟩ := hcut h
    have ht' := (hcut (t := []) ht).2
    have hdollar : Sendable [36] := sendable_of_ascii (by decide)
    exact (textTokens_putLiteral (hrun.append hdollar)).append (ih ht')
  | case4 run c s hc hdouble hnone ih => exact ih (by simpa using h)
  | case5 run c s hc hdouble r hr ih =>
    obtain rfl : c = 36 := by simpa using hc
    obtain ⟨hrun, hs⟩ := hcut h
    obtain ⟨htoken, hname, hafter⟩ := sendable_varRef hs hr
    have hvar := textTokens_string htoken hname
    have hshape : r.token :: r.name ++ 0 :: putStrFrom [] r.after =
        (r.token :: r.name ++ [0]) ++ putStrFrom [] r.after := by simp
    rw [List.append_assoc, hshape]
    exact (textTokens_putLiteral hrun).append (hvar.append (ih hafter))

/-- A text with variables is written as valid text. -/
theorem textTokens_putStr (hs : Sendable s) : TextTokens (putStr s) := by
  rw [putStr]
  split_ifs
  · exact textTokens_string (Or.inl rfl) sendable_nil
  · exact textTokens_putStrFrom hs

/-! ## Elements and cards -/

section Compile

variable {base : Option Bytes} (hbase : ∀ b ∈ base, Sendable b)

include hbase

/-- So is an attribute, -/
theorem textTokens_compileAttr {a : Bytes × Bytes} (ha : Sendable a.2) :
    TextTokens (compileAttr base a) := by
  have hvalues : ∀ e ∈ valueAttrs, ¬ IsStringToken e.2 := by decide
  have hattrs : ∀ e ∈ attrCodes, ¬ IsStringToken e.2 := by decide
  rw [compileAttr]
  split
  · next code hcode =>
      obtain ⟨e, he, rfl⟩ := Option.map_eq_some_iff.mp hcode
      exact textTokens_singleton (hvalues e (List.mem_of_find?_eq_some he))
  · split
    · exact textTokens_nil
    · next code hcode =>
        have hcode' : ¬ IsStringToken code := by
          obtain ⟨e, he, rfl⟩ := Option.map_eq_some_iff.mp hcode
          exact hattrs e (List.mem_of_find?_eq_some he)
        refine TextTokens.cons hcode' (textTokens_putStr ?_)
        unfold withBase
        split
        · next b =>
            split_ifs
            · exact (hbase b rfl).append ha
            · exact ha
        · exact ha

omit hbase in
theorem textTokens_closed {t : Bytes} (ht : TextTokens t) : TextTokens (closed t) := by
  rw [closed]
  split_ifs
  · exact textTokens_nil
  · exact ht.append (textTokens_singleton (by decide))

omit hbase in
/-- and an element. -/
theorem textTokens_element {name : Bytes} {code : UInt8} {attrs content : Bytes}
    (hcode : elementCode name = some code) (hattrs : TextTokens attrs) (hcontent : TextTokens content) :
    TextTokens (element code attrs content) := by
  have htags : ∀ e ∈ elements, ∀ a ∈ [0, (0x80 : UInt8)], ∀ c ∈ [0, (0x40 : UInt8)],
      ¬ IsStringToken (e.2 ||| a ||| c) := by decide
  obtain ⟨e, he, rfl⟩ := Option.map_eq_some_iff.mp hcode
  have htag := htags e (List.mem_of_find?_eq_some he) (if attrs = [] then 0 else 0x80)
    (by split_ifs <;> simp) (if content = [] then 0 else 0x40) (by split_ifs <;> simp)
  exact (TextTokens.cons htag (textTokens_closed hattrs)).append (textTokens_closed hcontent)

omit hbase in
/-- Nodes are written one behind the other. -/
theorem textTokens_compileNodes_of {ns : List Node}
    (h : ∀ n ∈ ns, TextTokens (compileNode base n)) : TextTokens (compileNodes base ns) := by
  induction ns with
  | nil => exact textTokens_nil
  | cons n ns ih =>
    obtain ⟨hn, hns⟩ := List.forall_mem_cons.mp h
    exact hn.append (ih hns)

/-- **A node is written as valid text** where its texts can be sent. -/
theorem textTokens_compileNode (n : Node) (hn : n.All Sendable) :
    TextTokens (compileNode base n) := by
  induction n using Tree.induction with
  | text t => exact textTokens_putStr hn
  | elem name attrs kids ih =>
    simp only [Tree.All, Tree.allIn_iff] at hn
    have hkids := textTokens_compileNodes_of fun k hk => ih k hk (hn.2 k hk)
    have hattrs : TextTokens (attrs.flatMap (compileAttr base)) := by
      have hall := hn.1
      clear ih hn hkids
      induction attrs with
      | nil => exact textTokens_nil
      | cons a as ih =>
        obtain ⟨ha, has⟩ := List.forall_mem_cons.mp hall
        rw [List.flatMap_cons]
        exact (textTokens_compileAttr hbase ha).append (ih has)
    rw [compileNode]
    split
    · exact hkids
    · next code hcode => exact textTokens_element hcode hattrs hkids

/-- **The inline strings of a card are UTF-8** where its title, its blocks and its links are. -/
theorem validUtf8_compileCard {title : Bytes} {blocks nav : List Node} (htitle : Sendable title)
    (hblocks : ∀ n ∈ blocks, n.All Sendable) (hnav : ∀ n ∈ nav, n.All Sendable) :
    ∀ s ∈ inlineStrings (compileCard title blocks nav base), ValidUtf8 s := by
  have hnodes {ns : List Node} (hns : ∀ n ∈ ns, n.All Sendable) :
      TextTokens (compileNodes base ns) :=
    textTokens_compileNodes_of fun n hn => textTokens_compileNode hbase n (hns n hn)
  have hend : TextTokens [tokenEnd] := textTokens_singleton (by decide)
  have hid : Sendable (lit "p") := sendable_of_ascii (by decide)
  have hblank : Sendable (lit " ") := sendable_of_ascii (by decide)
  have hcontent : TextTokens (if compileNodes base blocks ++ compileNodes base nav = [] then
      putStr (lit " ") else compileNodes base blocks ++ compileNodes base nav) := by
    split_ifs
    · exact textTokens_putStr hblank
    · exact (hnodes hblocks).append (hnodes hnav)
  have hcard : TextTokens (compileCard title blocks nav base) := by
    have hhead : ∀ b ∈ [0x01, 0x04, 0x6A, 0x00, 0x3F ||| 0x40, (0x27 ||| 0x80 ||| 0x40 : UInt8)],
        ¬ IsStringToken b := by decide
    have hprolog : ∀ t : Bytes, (∀ b ∈ t, ¬ IsStringToken b) → TextTokens t := by
      intro t ht
      induction t with
      | nil => exact textTokens_nil
      | cons b t ih =>
        obtain ⟨hb, ht⟩ := List.forall_mem_cons.mp ht
        exact TextTokens.cons hb (ih ht)
    refine TextTokens.append ?_ (hend.append hend)
    refine TextTokens.append ?_ hcontent
    refine TextTokens.append ?_ hend
    refine TextTokens.append ?_ (TextTokens.cons (by decide) (textTokens_putStr htitle))
    exact (hprolog _ hhead).append (TextTokens.cons (by decide) (textTokens_putStr hid))
  have hall := hcard [] (by simp [inlineStrings])
  rwa [List.append_nil] at hall

end Compile

/-! ## Cuts -/

/-- A property of strings that both sides of a cut have is kept by splits. -/
theorem keptBySplits_all {P : Bytes → Prop}
    (hcut : ∀ t cut, cut = 0 ∨ WordBoundary t cut → P t →
      P (t.take cut) ∧ P (skipLeadingSeparators (t.drop cut))) :
    KeptBySplits fun n => n.All P := by
  intro room blk head rest hblk hsplit
  cases blk with
  | text t => simp [splitToFit_text] at hsplit
  | elem name attrs kids =>
    simp only [Tree.All, Tree.allIn_iff] at hblk
    obtain ⟨hattrs, hkids⟩ := hblk
    have hslice : ∀ kids' : List Node, (∀ k ∈ kids', k.All P) →
        (Tree.elem name attrs kids').All P := fun kids' hkids' =>
      ⟨hattrs, Tree.allIn_iff.mpr hkids'⟩
    have hkid {u : Bytes} (hu : P u) : ∀ k ∈ textKid u, k.All P := by
      intro k hk
      unfold textKid at hk
      split_ifs at hk
      · cases hk
      · obtain rfl := List.mem_singleton.mp hk
        exact hu
    rcases splitToFit_cases hsplit with ⟨pre, k, post, rfl, -, -, rfl, rfl⟩ |
      ⟨pre, t, cut, post, rfl, -, hc, rfl, rfl⟩
    · refine ⟨hslice _ fun l hl => hkids l (by simp [hl]), fun r hr => ?_⟩
      obtain rfl := Option.mem_some_iff.mp hr
      exact hslice _ fun l hl => hkids l (List.mem_append_right _ hl)
    · obtain ⟨htake, hskip⟩ := hcut t cut hc (hkids (.text t) (by simp))
      refine ⟨hslice _ (List.forall_mem_append.mpr
        ⟨fun l hl => hkids l (by simp [hl]), hkid htake⟩), fun r hr => ?_⟩
      unfold wrapRest at hr
      split_ifs at hr
      · cases hr
      · obtain rfl := Option.mem_some_iff.mp hr
        exact hslice _ (List.forall_mem_append.mpr
          ⟨hkid hskip, fun l hl => hkids l (by simp [hl])⟩)

/-- A valid part of what can be sent. -/
theorem Sendable.part (hs : Sendable s) (ht : ValidUtf8 t) (h : t <:+: s) : Sendable t :=
  ⟨ht, fun h0 => hs.noNul (h.subset h0)⟩

/-- Blanks and separators are ASCII. -/
theorem validUtf8_skipLeadingSeparators (h : ValidUtf8 t) :
    ValidUtf8 (skipLeadingSeparators t) := by
  have hblank (b : UInt8) (hb : (b == 32) = true) : isAscii b = true := by
    obtain rfl : b = 32 := by simpa using hb
    decide
  have hword (b : UInt8) (hb : decide (b ≠ 32) = false) : isAscii b = true := by
    obtain rfl : b = 32 := by simpa using hb
    decide
  fun_induction skipLeadingSeparators t with
  | case1 t t' w hw => exact h.dropWhile hblank
  | case2 t t' w hw ih =>
    refine ih ?_
    have hspan := ((h.dropWhile hblank).span hword).2
    rwa [← drop_length_takeWhile] at hspan

/-- A text is cut in front of a blank, or at its end. -/
theorem sendable_cut {cut : ℕ} (hcut : cut = 0 ∨ WordBoundary t cut) (ht : Sendable t) :
    Sendable (t.take cut) ∧ Sendable (skipLeadingSeparators (t.drop cut)) := by
  have hends : ∀ b ∈ (t.drop cut).head?, cut = 0 ∨ continues b = false := by
    intro b hb
    refine hcut.imp_right fun h => ?_
    rw [List.head?_drop] at hb
    rcases h.2 with hnone | hspace
    · rw [hnone] at hb
      cases hb
    · rw [hspace] at hb
      obtain rfl := Option.mem_some_iff.mp hb
      decide
  have hvalid : ValidUtf8 (t.take cut) ∧ ValidUtf8 (t.drop cut) := by
    by_cases h0 : cut = 0
    · rw [h0]
      exact ⟨validUtf8_nil, ht.utf8⟩
    · refine ValidUtf8.cut (by rw [List.take_append_drop]; exact ht.utf8) fun b hb => ?_
      exact (hends b hb).resolve_left h0
  refine ⟨ht.part hvalid.1 (List.take_prefix _ _).isInfix,
    ht.part (validUtf8_skipLeadingSeparators hvalid.2) ?_⟩
  exact ((skipLeadingSeparators_suffix _).trans (List.drop_suffix _ _)).isInfix

/-- It cuts in front of a byte that continues no character. -/
theorem continues_utf8Truncate_go (s : Bytes) (n : ℕ) :
    utf8Truncate.go s n = 0 ∨ ∀ b ∈ s[utf8Truncate.go s n]?, continues b = false := by
  induction n with
  | zero => exact Or.inl rfl
  | succ n ih =>
    rw [utf8Truncate.go]
    split_ifs with hcont
    · exact ih
    · refine Or.inr fun b hb => ?_
      rw [Option.mem_def.mp hb, Option.any_some, continues_eq_and] at hcont
      simpa using hcont

/-- A title cut at a character can be sent. -/
theorem sendable_utf8Truncate (hs : Sendable s) (max : ℕ) : Sendable (utf8Truncate s max) := by
  refine hs.part ?_ (List.take_prefix _ _).isInfix
  rw [utf8Truncate]
  rcases continues_utf8Truncate_go s (min s.length max) with h0 | hcut
  · rw [h0]
    exact validUtf8_nil
  · refine (ValidUtf8.cut (by rw [List.take_append_drop]; exact hs.utf8) fun b hb => ?_).1
    exact hcut b (by rwa [List.head?_drop] at hb)

/-! ## Titles and links -/

theorem isAscii_of_isDigit {b : UInt8} (h : isDigit b = true) : isAscii b = true ∧ b ≠ 0 := by
  simp only [isDigit, Bool.and_eq_true, decide_eq_true_eq] at h
  simp only [isAscii, decide_eq_true_eq]
  grind

/-- A number can be sent. -/
theorem sendable_decimal (n : ℕ) : Sendable (decimal n) :=
  sendable_of_ascii fun _ hb => isAscii_of_isDigit (isDigit_of_mem_decimal hb)

/-- The title of a card can be sent, -/
theorem sendable_baseTitleOf {card : Node} (h : card.All Sendable) : Sendable (baseTitleOf card) := by
  refine sendable_utf8Truncate ?_ 30
  cases card with
  | text t => exact sendable_nil
  | elem name attrs kids =>
    cases hfind : nodeAttr (.elem name attrs kids) (lit "title") with
    | none => exact sendable_nil
    | some v =>
      obtain ⟨a, ha, rfl⟩ := Option.map_eq_some_iff.mp hfind
      exact h.1 a (List.mem_of_find?_eq_some ha)

/-- also with the number of the page. -/
theorem sendable_pageTitleOf {title : Bytes} (h : Sendable title) (k pages : ℕ) :
    Sendable (pageTitleOf title k pages) := by
  have hopen : Sendable (lit " (") := sendable_of_ascii (by decide)
  have hslash : Sendable (lit "/") := sendable_of_ascii (by decide)
  have hclose : Sendable (lit ")") := sendable_of_ascii (by decide)
  rw [pageTitleOf]
  split_ifs
  · exact (((((h.append hopen).append (sendable_decimal _)).append hslash).append
      (sendable_decimal _)).append hclose)
  · exact h

/-- An address that is UTF-8, as far as the buffers of `paged_build` take it. -/
structure AddressUtf8 (uri : Bytes) : Prop where
  /-- `base[1024]` of `wbxml_set_page_param`. -/
  whole : ValidUtf8 (uri.take 1023)
  /-- `base[512]` of `paged_build`. -/
  base : ValidUtf8 (uriBase uri 512)
  /-- It ends at its first NUL. -/
  noNul : 0 ∉ uri

/-- A valid text without its last byte, an ASCII one. -/
theorem validUtf8_dropLast (h : ValidUtf8 s) {b : UInt8} (hb : isAscii b = true)
    (hlast : s.getLast? = some b) : ValidUtf8 s.dropLast := by
  obtain ⟨t, rfl⟩ := List.getLast?_eq_some_iff.mp hlast
  rw [List.dropLast_concat]
  exact ((validUtf8_append_cons hb).mp h).1

/-- A parameter is taken out between ASCII bytes. -/
theorem validUtf8_dropPageParam (h : ValidUtf8 s) : ValidUtf8 (dropPageParam s) := by
  have hlast {out : Bytes} (hout : ValidUtf8 out) : ValidUtf8
      (if out.getLast? = some 63 ∨ out.getLast? = some 38 then out.dropLast else out) := by
    split_ifs with hsep
    · rcases hsep with hsep | hsep
      · exact validUtf8_dropLast hout (by decide) hsep
      · exact validUtf8_dropLast hout (by decide) hsep
    · exact hout
  unfold dropPageParam
  split
  · exact h
  · next before rest hsplit =>
      obtain ⟨⟨heq, hboundary⟩, -⟩ := of_splitPageParam hsplit
      have hname : pageParamName = 95 :: lit "_page" ++ [61] := by decide
      have hshape : s = before ++ 95 :: (lit "_page" ++ 61 :: rest) := by rw [heq, hname]; simp
      obtain ⟨hbefore, htail⟩ := (validUtf8_append_cons (by decide)).mp (hshape ▸ h)
      have hrest := ((validUtf8_append_cons (by decide)).mp htail).2.dropWhile (p := isDigit)
        fun _ hb => (isAscii_of_isDigit hb).1
      refine hlast ?_
      split_ifs with hamp
      · obtain ⟨t, ht⟩ := List.head?_eq_some_iff.mp hamp
        rw [ht, validUtf8_cons (by decide)] at hrest
        rw [ht, List.drop_one, List.tail_cons]
        exact hbefore.append hrest
      · refine ValidUtf8.append ?_ hrest
        cases hend : before.getLast? with
        | none =>
          rw [List.getLast?_eq_none_iff.mp hend]
          exact validUtf8_nil
        | some c =>
          refine validUtf8_dropLast hbefore ?_ hend
          rcases hboundary c hend with rfl | rfl <;> decide

/-- An address with a page set can be sent. -/
theorem sendable_setPageParam (h : AddressUtf8 uri) (page : ℤ) :
    Sendable (setPageParam uri page 1100) := by
  have hlen := length_pagelessUri_le uri
  have hbase : Sendable (pagelessUri uri) := by
    refine ⟨validUtf8_dropPageParam (h.whole.span fun b hb => ?_).1, fun h0 => ?_⟩
    · obtain rfl : b = 35 := by simpa using hb
      decide
    · exact h.noNul (List.mem_of_mem_take
        ((List.takeWhile_prefix _).subset (dropPageParam_subset _ h0)))
  -- what is cut off is ASCII
  have htail : ∀ t : Bytes, (∀ b ∈ t, isAscii b = true ∧ b ≠ 0) →
      Sendable ((pagelessUri uri ++ t).take (1100 - 1)) := by
    intro t ht
    rw [List.take_append, List.take_of_length_le (by omega)]
    exact hbase.append (sendable_of_ascii fun b hb => ht b (List.mem_of_mem_take hb))
  have hname : ∀ b ∈ pageParamName, isAscii b = true ∧ b ≠ 0 := by decide
  have hsep : ∀ b ∈ (if 63 ∈ pagelessUri uri then lit "&" else lit "?"),
      isAscii b = true ∧ b ≠ 0 := by
    split_ifs <;> decide
  simp only [setPageParam]
  rw [← pagelessUri]
  by_cases h0 : page ≤ 0
  · rw [if_pos h0]
    simpa using htail [] (by simp)
  · rw [if_neg h0, List.append_assoc, List.append_assoc]
    exact htail _ (List.forall_mem_append.mpr ⟨hsep, List.forall_mem_append.mpr
      ⟨hname, fun _ hb => isAscii_of_isDigit (isDigit_of_mem_decimal hb)⟩⟩)

/-- The base of an address is of its bytes. -/
theorem uriBase_subset (uri : Bytes) (size : ℕ) : uriBase uri size ⊆ uri := by
  unfold uriBase
  split
  · exact List.nil_subset _
  · exact fun b hb => List.mem_of_mem_take (List.mem_of_mem_take hb)

/-- The navigation can be sent. -/
theorem sendable_navOf (h : AddressUtf8 uri) (k pages : ℕ) :
    ∀ n ∈ navOf uri k pages, n.All Sendable := by
  have hlink {label : Bytes} (hlabel : Sendable label) (page : ℤ) :
      (navLink label (setPageParam uri page 1100)).All Sendable := by
    simp only [navLink, Tree.All, Tree.AllIn, List.not_mem_nil, IsEmpty.forall_iff, implies_true,
      List.forall_mem_singleton, and_true, true_and]
    exact ⟨sendable_setPageParam h page, hlabel⟩
  have hprev : Sendable prevLabel := sendable_of_ascii (by decide)
  have hnext : Sendable nextLabel := sendable_of_ascii (by decide)
  refine List.forall_mem_append.mpr ⟨?_, ?_⟩
  · split_ifs
    · exact List.forall_mem_singleton.mpr (hlink hprev _)
    · simp
  · split_ifs
    · exact List.forall_mem_singleton.mpr (hlink hnext _)
    · simp

/-! ## Pages -/

/-- What `wbxml_compile_page` makes of a deck is UTF-8: the tree it reads, and whatever it sends for
an address, a page and a page size. -/
structure TextIsUtf8 (wml : Bytes) (latin1 : Bool) : Prop where
  /-- Every text and every attribute value of the tree. -/
  tree : (parseWml (cstr (deckSource wml latin1))).All ValidUtf8
  /-- Every inline string of a body. -/
  body : ∀ uri page pageBytes, AddressUtf8 uri →
    ∀ s ∈ inlineStrings (wbxmlCompilePage wml latin1 uri page pageBytes), ValidUtf8 s

/-- What two properties of every text give. -/
theorem all_of_and {P Q R : Bytes → Prop} (hR : ∀ s, P s → Q s → R s) (n : Node) (hP : n.All P)
    (hQ : n.All Q) : n.All R := by
  induction n using Tree.induction with
  | text t => exact hR t hP hQ
  | elem name attrs kids ih =>
    simp only [Tree.All, Tree.allIn_iff] at hP hQ ⊢
    exact ⟨fun a ha => hR _ (hP.1 a ha) (hQ.1 a ha),
      fun k hk => ih k hk (hP.2 k hk) (hQ.2 k hk)⟩

/-- **The strings of every page are UTF-8** where those of the tree are. -/
theorem validUtf8_wbxmlCompilePage {wml : Bytes} {latin1 : Bool}
    (htree : (parseWml (cstr (deckSource wml latin1))).All ValidUtf8) (huri : AddressUtf8 uri)
    (page : ℤ) (pageBytes : ℕ) :
    ∀ s ∈ inlineStrings (wbxmlCompilePage wml latin1 uri page pageBytes), ValidUtf8 s := by
  have hall : (parseWml (cstr (deckSource wml latin1))).All Sendable :=
    all_of_and (fun _ h h0 => ⟨h, h0⟩) _ htree (parseWml_clean (zero_notMem_cstr _))
  have hcard := cardOf_all hall
  have hpages := (keptBySplits_all fun _ _ => sendable_cut).pagesOf (uriBase uri 512) (uriPath uri)
    pageBytes (Tree.allIn_iff.mp (blocksOf_all hcard))
  simp only [wbxmlCompilePage, pagedBuild, if_true]
  refine validUtf8_compileCard ?_ (sendable_pageTitleOf (sendable_baseTitleOf hcard) _ _) ?_
    (sendable_navOf huri _ _)
  · intro b hb
    split_ifs at hb
    · cases hb
    · obtain rfl := Option.mem_some_iff.mp hb
      exact ⟨huri.base, fun h0 => huri.noNul (uriBase_subset uri 512 h0)⟩
  · intro n hn
    rw [List.getD_eq_getElem?_getD] at hn
    cases hget : (pagesOf (cardOf (parseWml (cstr (deckSource wml latin1)))) (uriBase uri 512)
      (uriPath uri) pageBytes)[clampPage page (pagesOf (cardOf (parseWml (cstr
        (deckSource wml latin1)))) (uriBase uri 512) (uriPath uri) pageBytes).length]? with
    | none =>
      rw [hget] at hn
      cases hn
    | some blocks =>
      rw [hget] at hn
      exact hpages blocks (List.mem_of_getElem? hget) n hn

/-- What the reader reads is UTF-8: a deck in Latin-1 is converted, any other is so already. -/
theorem validUtf8_deckSource {wml : Bytes} {latin1 : Bool} (h : latin1 = false → ValidUtf8 wml) :
    ValidUtf8 (cstr (deckSource wml latin1)) := by
  have hcstr {s : Bytes} (hs : ValidUtf8 s) : ValidUtf8 (cstr s) :=
    (hs.span fun b hb => by
      obtain rfl : b = 0 := by simpa using hb
      decide).1
  refine hcstr ?_
  unfold deckSource
  split_ifs with hlatin
  · exact validUtf8_latin1ToUtf8 wml
  · exact hcstr (h (by simpa using hlatin))

/-- **All text sent to phones is UTF-8 exactly when no text and no attribute value of the deck has a
reference to a surrogate**: `decode_entities` takes any code point up to U+10FFFF. -/
theorem textIsUtf8_iff (wml : Bytes) (latin1 : Bool) (hdeck : latin1 = false → ValidUtf8 wml) :
    TextIsUtf8 wml latin1 ↔
      ∀ run ∈ readRuns (cstr (deckSource wml latin1)), ¬ HasSurrogate run := by
  have htree := all_validUtf8_iff (validUtf8_deckSource hdeck)
  constructor
  · intro h
    exact htree.mp h.tree
  · intro h
    exact ⟨htree.mpr h, fun _ page pageBytes huri =>
      validUtf8_wbxmlCompilePage (htree.mpr h) huri page pageBytes⟩

/-- A deck in UTF-8 with references to the last code point below the surrogates and to one of four
bytes. -/
def referenceDeck : Bytes :=
  "<wml><card title='Caf\u00e9'><p>&#xD7FF;&#128512;</p></card></wml>".toList.flatMap String.utf8EncodeChar

theorem textIsUtf8_references : TextIsUtf8 referenceDeck false := by
  have hdeck : false = false → ValidUtf8 referenceDeck := fun _ => ⟨_, rfl⟩
  have hread : parseWml (cstr (deckSource referenceDeck false)) =
      .elem (lit "#root") [] [.elem (lit "wml") [] [
        .elem (lit "card") [(lit "title", lit "Caf" ++ utf8 0xE9)] [
          .elem (lit "p") [] [.text (utf8 0xD7FF ++ utf8 0x1F600)]]]] := by decide +kernel
  refine (textIsUtf8_iff referenceDeck false hdeck).mpr
    ((all_validUtf8_iff (validUtf8_deckSource hdeck)).mp ?_)
  have htitle : ValidUtf8 (lit "Caf" ++ utf8 0xE9) := ⟨"Caf\u00e9".toList, by decide⟩
  have htext : ValidUtf8 (utf8 0xD7FF ++ utf8 0x1F600) :=
    ⟨[Char.ofNat 0xD7FF, Char.ofNat 0x1F600], by decide⟩
  rw [hread]
  simp [Tree.All, Tree.AllIn, htitle, htext]

/-- A deck whose only text is a reference to U+D800. -/
def surrogateDeck : Bytes := lit "<wml><card><p>&#xD800;</p></card></wml>"

/-- A reference to a surrogate is decoded to no character. -/
theorem not_textIsUtf8_surrogate :
    ¬ ∀ wml latin1, (latin1 = false → ValidUtf8 wml) → TextIsUtf8 wml latin1 := by
  intro h
  have hdeck : ValidUtf8 surrogateDeck := validUtf8_of_ascii (by decide)
  have hread : parseWml (cstr (deckSource surrogateDeck false)) =
      .elem (lit "#root") [] [.elem (lit "wml") [] [.elem (lit "card") [] [
        .elem (lit "p") [] [.text [0xED, 0xA0, 0x80]]]]] := by decide +kernel
  have htree := (h surrogateDeck false fun _ => hdeck).tree
  rw [hread] at htree
  simp only [Tree.All, Tree.AllIn, and_true] at htree
  exact not_validUtf8_of_surrogate (le_refl 0xA0) [] [0x80] htree.2.2.2.2

end BoatRudder.Wbxml
