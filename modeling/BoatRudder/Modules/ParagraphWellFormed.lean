import BoatRudder.Modules.ParagraphWml

/-! # When a paragraph is well formed

The output is read mark by mark beside the input: a mark that has a fit place is read back as its
tags, the text between two marks as that text, and what cannot stand where it is makes the output
unreadable. -/

namespace BoatRudder.Modules

/-! ## Tags of the input -/

variable {t : Bytes} {item : HtmlItem} {size : ℕ}

/-- A tag ends at its first `>`, and a byte of text begins none. -/
def HtmlItem.Closed : HtmlItem → Prop
  | .byte b => b ≠ 60
  | .tag content => 62 ∉ content
  | _ => True

theorem closed_htmlItems {s : Bytes} (h : item ∈ htmlItems s) : item.Closed := by
  fun_induction htmlItems s with
  | case1 => cases h
  | case2 c s hc ih =>
    rcases List.mem_cons.mp h with rfl | h
    · exact hc
    · exact ih h
  | case3 c s _ _ ih =>
    rcases List.mem_cons.mp h with rfl | h
    · trivial
    · exact ih h
  | case4 c s _ _ _ ih =>
    rcases List.mem_cons.mp h with rfl | h
    · trivial
    · exact ih h
  | case5 c s _ _ _ ih =>
    rcases List.mem_cons.mp h with rfl | h
    · intro hmem
      simpa using List.mem_takeWhile_imp hmem
    · exact ih h

theorem attrValue_subset (attr : Bytes) (size : ℕ) (s : Bytes) : attrValue attr size s ⊆ s := by
  rw [attrValue]
  cases hs : s.drop (attr.length + 1) with
  | nil => exact List.nil_subset _
  | cons quote v =>
    have hv : v ⊆ s := fun b hb =>
      List.mem_of_mem_drop (hs ▸ List.mem_cons_of_mem quote hb : b ∈ s.drop (attr.length + 1))
    show (if quote ≠ 34 ∧ quote ≠ 39 then [] else _) ⊆ s
    split_ifs
    · exact List.nil_subset _
    · exact fun b hb => hv (List.takeWhile_subset _ hb)
    · exact List.nil_subset _

theorem length_attrValue_lt (attr : Bytes) (hsize : 0 < size) (s : Bytes) :
    (attrValue attr size s).length < size := by
  rw [attrValue]
  cases hs : s.drop (attr.length + 1) with
  | nil => exact hsize
  | cons quote v =>
    show (if quote ≠ 34 ∧ quote ≠ 39 then [] else _ : Bytes).length < size
    split_ifs with hquote hfits
    · exact hsize
    · exact hfits.2
    · exact hsize

/-- A value is part of the tag, and fits its buffer. -/
theorem tagAttrFrom_spec (attr : Bytes) (hsize : 0 < size) (prev : UInt8) (s : Bytes) :
    tagAttrFrom attr size prev s ⊆ s ∧ (tagAttrFrom attr size prev s).length < size := by
  induction s generalizing prev with
  | nil => exact ⟨List.nil_subset _, hsize⟩
  | cons c s ih =>
    rw [tagAttrFrom]
    split_ifs
    · exact ⟨attrValue_subset attr size _, length_attrValue_lt attr hsize _⟩
    · exact ⟨fun b hb => List.mem_cons_of_mem c ((ih c).1 hb), (ih c).2⟩

/-- An attribute is taken from the content, and fits its buffer. -/
theorem tagAttr_spec (content attr : Bytes) (hsize : 0 < size) :
    tagAttr content attr size ⊆ content ∧ (tagAttr content attr size).length < size :=
  tagAttrFrom_spec attr hsize 60 content

/-! ## How marks are written -/

/-- What stands between the angle brackets of a mark. -/
def Mark.body : Mark → Bytes
  | .br => lit "br/"
  | .open name => name
  | .close name => 47 :: name
  | .link href => lit "a" ++ [(lit "href", href)].flatMap rawAttr
  | .img src alt => lit "img" ++ [(lit "src", src), (lit "alt", alt)].flatMap rawAttr ++ [47]

/-- How what is kept is written. -/
def Kept.written : Kept → Bytes
  | .text t => doubled t
  | .mark m => 60 :: (m.body ++ [62])

/-- What is kept where a link is open, or where none is. -/
def Mark.Here (inLink : Bool) : Mark → Prop
  | .br => True
  | .open name => inLink = false ∧ name ∈ inlineTags
  | .close name => inLink = true ∧ name = lit "a" ∨ inLink = false ∧ name ∈ inlineTags
  | .link href => inLink = false ∧ 62 ∉ href
  | .img src alt => 62 ∉ src ∧ 62 ∉ alt

/-- Whether a link is open after a mark. -/
def Mark.linkAfter (inLink : Bool) : Mark → Bool
  | .link _ => true
  | .close name => if name = lit "a" then false else inLink
  | _ => inLink

theorem linkHref_spec (content : Bytes) :
    (62 ∉ content → 62 ∉ linkHref content) ∧ (linkHref content).length < 400 := by
  obtain ⟨hsub, hlen⟩ := tagAttr_spec content (lit "href") (by decide : 0 < 400)
  rw [linkHref]
  split_ifs
  · exact ⟨fun h hmem => h (hsub hmem), hlen⟩
  · exact ⟨fun _ => by decide, by decide⟩

/-- No link is cut by its buffer. -/
theorem linkTag_eq (content : Bytes) :
    linkTag content = (Kept.mark (.link (linkHref content))).written := by
  have hopen : lit "<a href=\"" = 60 :: (lit "a" ++ 32 :: (lit "href" ++ [61, 34])) := by decide
  have hclose : lit "\">" = [34, 62] := by decide
  have hlen : (lit "a").length = 1 ∧ (lit "href").length = 4 := by decide
  have hhref := (linkHref_spec content).2
  rw [linkTag, hopen, hclose, List.take_of_length_le]
  · simp [Kept.written, Mark.body, rawAttr]
  · simp only [List.length_append, List.length_cons, hlen, List.length_nil]
    omega

/-- No image is cut by its buffer. -/
theorem imgTag_eq (content : Bytes) (h : tagAttr content (lit "src") 300 ≠ []) :
    imgTag content = (Kept.mark (.img (tagAttr content (lit "src") 300)
      (tagAttr content (lit "alt") 150))).written := by
  have hopen : lit "<img src=\"" = 60 :: (lit "img" ++ 32 :: (lit "src" ++ [61, 34])) := by decide
  have hmiddle : lit "\" alt=\"" = 34 :: 32 :: (lit "alt" ++ [61, 34]) := by decide
  have hclose : lit "\"/>" = [34, 47, 62] := by decide
  have hlen : (lit "img").length = 3 ∧ (lit "src").length = 3 ∧ (lit "alt").length = 3 := by decide
  have hsrc := (tagAttr_spec content (lit "src") (by decide : 0 < 300)).2
  have halt := (tagAttr_spec content (lit "alt") (by decide : 0 < 150)).2
  rw [imgTag, if_pos h, hopen, hmiddle, hclose, List.take_of_length_le]
  · simp [Kept.written, Mark.body, rawAttr]
  · simp only [List.length_append, List.length_cons, hlen, List.length_nil]
    omega

theorem name_ne : lit "a" ∉ inlineTags ∧ lit "li" ≠ lit "br" ∧ lit "li" ∉ inlineTags ∧
    ∀ name ∈ blockTags, name ∉ inlineTags := by decide

/-- What a tag is written as, and what is open after it. -/
theorem rewriteTag_eq (out : Bytes) (inLink : Bool) (content : Bytes) :
    (rewriteTag out inLink content).2 = linkAfter inLink (.tag content) ∧
      ((rewriteTag out inLink content).1 = (keptTag inLink content).written ∨
        keptTag inLink content = .mark .br ∧ (rewriteTag out inLink content).1 = [] ∧
          lit "<br/>" <:+ out) := by
  have hbr : lit "<br/>" = (Kept.mark .br).written := by decide
  have hdash : lit "- " = (Kept.text (lit "- ")).written := by decide
  have hend : lit "</a>" = (Kept.mark (.close (lit "a"))).written := by decide
  have hlt : lit "<" = [60] ∧ lit "/" = [47] ∧ lit ">" = [62] := by decide
  rw [rewriteTag, keptTag, linkAfter]
  generalize hname : tagName content = name
  by_cases h1 : name = lit "br"
  · have ha : name ≠ lit "a" := h1 ▸ (by decide : lit "br" ≠ lit "a")
    rw [if_pos h1, if_pos h1, if_neg ha]
    exact ⟨rfl, Or.inl hbr⟩
  rw [if_neg h1, if_neg h1]
  by_cases h2 : name = lit "li" ∧ (!isClosing content) = true
  · have ha : name ≠ lit "a" := h2.1 ▸ (by decide : lit "li" ≠ lit "a")
    rw [if_pos h2, if_pos h2, if_neg ha]
    exact ⟨rfl, Or.inl hdash⟩
  rw [if_neg h2, if_neg h2]
  by_cases h3 : name = lit "a"
  · subst h3
    rw [if_pos rfl, if_pos rfl, if_pos rfl]
    refine ⟨rfl, Or.inl ?_⟩
    cases isClosing content <;> cases inLink
    · exact linkTag_eq content
    · rfl
    · rfl
    · exact hend
  rw [if_neg h3, if_neg h3, if_neg h3]
  by_cases h4 : name = lit "img"
  · rw [if_pos h4, if_pos h4]
    refine ⟨rfl, Or.inl ?_⟩
    by_cases hsrc : tagAttr content (lit "src") 300 ≠ []
    · rw [if_pos hsrc]
      exact imgTag_eq content hsrc
    · rw [if_neg hsrc, imgTag, if_neg hsrc]
      rfl
  rw [if_neg h4, if_neg h4]
  refine ⟨rfl, ?_⟩
  rw [elementTag, hname]
  by_cases hinline : (!inLink) = true ∧ name ∈ inlineTags
  · -- an inline element is no block
    have hblock : ¬ (isClosing content = true ∧ ¬ lit "<br/>" <:+ out ∧ name ∈ blockTags) :=
      fun h => name_ne.2.2.2 name h.2.2 hinline.2
    rw [if_pos hinline, if_pos hinline, if_neg hblock, hlt.1, hlt.2.1, hlt.2.2]
    refine Or.inl ?_
    cases isClosing content <;> rfl
  rw [if_neg hinline, if_neg hinline]
  by_cases hblock : isClosing content = true ∧ name ∈ blockTags
  · rw [if_pos hblock]
    by_cases hout : lit "<br/>" <:+ out
    · rw [if_neg fun h => h.2.1 hout]
      exact Or.inr ⟨rfl, rfl, hout⟩
    · rw [if_pos ⟨hblock.1, hout, hblock.2⟩]
      exact Or.inl hbr
  · rw [if_neg hblock, if_neg fun h => hblock ⟨h.1, h.2.2⟩]
    exact Or.inl rfl

/-- **What an item is written as**: what is kept of it, but for a break after a break. -/
theorem rewriteItem_eq (out : Bytes) (inLink : Bool) (item : HtmlItem) :
    (rewriteItem out inLink item).2 = linkAfter inLink item ∧
      ((rewriteItem out inLink item).1 = (keptItem inLink item).written ∨
        keptItem inLink item = .mark .br ∧ (rewriteItem out inLink item).1 = [] ∧
          lit "<br/>" <:+ out) := by
  cases item with
  | byte b =>
    refine ⟨rfl, Or.inl ?_⟩
    show (if b = 36 then [36, 36] else [b]) = doubled [b]
    rw [doubled_cons, doubled_nil, List.append_nil]
  | comment => exact ⟨rfl, Or.inl rfl⟩
  | lone =>
    have hno : 36 ∉ lit "&lt;" := by decide
    exact ⟨rfl, Or.inl (doubled_of_notMem hno).symm⟩
  | tag content => exact rewriteTag_eq out inLink content

/-- The text of what is kept is that of the item. -/
theorem text_of_keptItem (inLink : Bool) (item : HtmlItem) :
    (∀ t, keptItem inLink item = .text t → t = item.text) ∧
      ∀ m, keptItem inLink item = .mark m → item.text = [] := by
  cases item with
  | byte b => exact ⟨fun t h => (Kept.text.inj h).symm, nofun⟩
  | comment => exact ⟨fun t h => (Kept.text.inj h).symm, nofun⟩
  | lone => exact ⟨fun t h => (Kept.text.inj h).symm, nofun⟩
  | tag content =>
    show (∀ t, keptTag inLink content = .text t → t =
      if tagName content = lit "li" ∧ (!isClosing content) = true then lit "- " else []) ∧ _
    by_cases hli : tagName content = lit "li" ∧ (!isClosing content) = true
    · have hbr : tagName content ≠ lit "br" := hli.1 ▸ name_ne.2.1
      have hkept : keptTag inLink content = .text (lit "- ") := by
        rw [keptTag, if_neg hbr, if_pos hli]
      rw [if_pos hli]
      exact ⟨fun t h => (Kept.text.inj (hkept.symm.trans h)).symm, fun m h => nomatch hkept.symm.trans h⟩
    · rw [if_neg hli]
      refine ⟨fun t h => ?_, fun m h => if_neg hli⟩
      rw [keptTag] at h
      rw [if_neg (c := tagName content = lit "li" ∧ _) hli] at h
      split_ifs at h <;> exact (Kept.text.inj h).symm

/-- What is kept of a tag has its place in a link, or outside one. -/
theorem here_of_keptItem {inLink : Bool} (hitem : item.Closed) {m : Mark}
    (h : keptItem inLink item = .mark m) :
    m.Here inLink ∧ linkAfter inLink item = m.linkAfter inLink := by
  cases item with
  | byte b => cases h
  | comment => cases h
  | lone => cases h
  | tag content =>
    have hin : ∀ attr size, 0 < size → 62 ∉ tagAttr content attr size := fun attr size hsize hmem =>
      hitem ((tagAttr_spec content attr hsize).1 hmem)
    replace h : keptTag inLink content = .mark m := h
    rw [keptTag] at h
    rw [linkAfter]
    generalize tagName content = name at h ⊢
    have ha : lit "a" ∉ inlineTags := name_ne.1
    split_ifs at h with h1 h2 h3 h4 h5 h6 h7 h8 h9 h10
    · cases h
      have hne : name ≠ lit "a" := h1 ▸ (by decide : lit "br" ≠ lit "a")
      exact ⟨trivial, if_neg hne⟩
    · -- the end of a link
      cases h
      rw [Bool.and_eq_true] at h4
      subst h3
      rw [if_pos rfl, Mark.linkAfter, if_pos rfl, h4.1]
      exact ⟨Or.inl ⟨h4.2, rfl⟩, rfl⟩
    · -- a link
      cases h
      rw [Bool.and_eq_true] at h5
      rw [if_pos h3]
      exact ⟨⟨by simpa using h5.2, (linkHref_spec content).1 hitem⟩, h5.1⟩
    · cases h
      have hne : name ≠ lit "a" := h6 ▸ (by decide : lit "img" ≠ lit "a")
      exact ⟨⟨hin _ 300 (by decide), hin _ 150 (by decide)⟩, if_neg hne⟩
    · -- the end of an inline element
      cases h
      exact ⟨Or.inr ⟨by simpa using h8.1, h8.2⟩, (if_neg h3).trans (if_neg h3).symm⟩
    · -- an inline element
      cases h
      exact ⟨⟨by simpa using h8.1, h8.2⟩, if_neg h3⟩
    · cases h
      exact ⟨trivial, if_neg h3⟩

/-- Where nothing is kept but text, no link begins or ends. -/
theorem linkAfter_of_text {inLink : Bool}
    (h : keptItem inLink item = .text t) : linkAfter inLink item = inLink := by
  cases item with
  | byte b => rfl
  | comment => rfl
  | lone => rfl
  | tag content =>
    replace h : keptTag inLink content = .text t := h
    rw [keptTag] at h
    rw [linkAfter]
    by_cases ha : tagName content = lit "a"
    · have hbr : tagName content ≠ lit "br" := ha ▸ (by decide : lit "a" ≠ lit "br")
      have hli : ¬ (tagName content = lit "li" ∧ (!isClosing content) = true) := fun hli =>
        absurd (ha.symm.trans hli.1) (by decide)
      rw [if_neg hbr, if_neg hli, if_pos ha] at h
      rw [if_pos ha]
      cases hclosing : isClosing content <;> cases inLink <;> simp [hclosing] at h ⊢
    · exact if_neg ha

/-! ## Marks read back -/

/-- The elements that are open where a link is, or is not. -/
structure Open (inLink : Bool) (stack : List Bytes) : Prop where
  inside : inLink = true → ∃ rest, stack = lit "a" :: rest ∧ lit "a" ∉ rest
  outside : inLink = false → lit "a" ∉ stack
  names : ∀ name ∈ stack, name ≠ lit "br" ∧ name ≠ lit "img"

section

variable {inLink : Bool} {stack : List Bytes} {m : Mark}

theorem Open.head_ne (h : Open inLink stack) :
    (stack.head? != some (lit "br")) = true ∧ (stack.head? != some (lit "img")) = true := by
  cases stack with
  | nil => exact ⟨rfl, rfl⟩
  | cons top stack =>
    have hnames := h.names top List.mem_cons_self
    simp only [List.head?_cons, bne_iff_ne, ne_eq, Option.some.injEq]
    exact hnames

/-- A mark keeps the open elements in order. -/
theorem Open.step (h : Open inLink stack) (hhere : m.Here inLink) {stack' : List Bytes}
    (hstep : m.step stack = some stack') : Open (m.linkAfter inLink) stack' := by
  have hinline : ∀ name ∈ inlineTags, name ≠ lit "br" ∧ name ≠ lit "img" ∧ name ≠ lit "a" := by decide
  cases m with
  | br => cases hstep; exact h
  | img src alt => cases hstep; exact h
  | «open» name =>
    cases hstep
    obtain ⟨hno, hname⟩ := hhere
    refine ⟨fun hin => absurd (hno.symm.trans hin) (by decide), fun hout hmem => ?_, fun n hn => ?_⟩
    · rcases List.mem_cons.mp hmem with heq | hmem
      · exact (hinline name hname).2.2 heq.symm
      · exact h.outside hno hmem
    · rcases List.mem_cons.mp hn with rfl | hn
      · exact ⟨(hinline n hname).1, (hinline n hname).2.1⟩
      · exact h.names n hn
  | link href =>
    cases hstep
    refine ⟨fun _ => ⟨stack, rfl, h.outside hhere.1⟩, nofun, fun n hn => ?_⟩
    rcases List.mem_cons.mp hn with rfl | hn
    · decide
    · exact h.names n hn
  | close name =>
    rw [Mark.step] at hstep
    split_ifs at hstep with htop
    cases hstep
    have hnames : ∀ n ∈ stack.tail, n ≠ lit "br" ∧ n ≠ lit "img" := fun n hn =>
      h.names n (List.mem_of_mem_tail hn)
    rw [Mark.linkAfter]
    rcases hhere with ⟨hin, rfl⟩ | ⟨hno, hname⟩
    · obtain ⟨rest, rfl, hrest⟩ := h.inside hin
      rw [if_pos rfl]
      exact ⟨nofun, fun _ => hrest, hnames⟩
    · rw [if_neg (hinline name hname).2.2, hno]
      exact ⟨nofun, fun _ hmem => h.outside hno (List.mem_of_mem_tail hmem), hnames⟩

/-! What may stand where, under such elements. -/

theorem Open.element_br (h : Open inLink stack) : paragraphSchema.element stack (lit "br") [] = true := by
  obtain ⟨hbr, himg⟩ := h.head_ne
  show (_ && _ && if lit "br" = lit "br" then _ else _) = true
  rw [hbr, himg, if_pos rfl]
  rfl

theorem Open.element_img (h : Open inLink stack) (attrs : List (Bytes × Bytes)) :
    paragraphSchema.element stack (lit "img") attrs = (attrs.map Prod.fst == [lit "src", lit "alt"]) := by
  obtain ⟨hbr, himg⟩ := h.head_ne
  show (_ && _ && if lit "img" = lit "br" then _ else if lit "img" = lit "img" then _ else _) = _
  rw [hbr, himg, if_neg (by decide), if_pos rfl]
  rfl

theorem Open.element_link (h : Open false stack) (attrs : List (Bytes × Bytes)) :
    paragraphSchema.element stack (lit "a") attrs = (attrs.map Prod.fst == [lit "href"]) := by
  obtain ⟨hbr, himg⟩ := h.head_ne
  have hout : stack.contains (lit "a") = false := by simpa using h.outside rfl
  show (_ && _ && if lit "a" = lit "br" then _ else if lit "a" = lit "img" then _ else
    if lit "a" = lit "a" then _ else _) = _
  rw [hbr, himg, if_neg (by decide), if_neg (by decide), if_pos rfl, hout]
  rfl

theorem Open.element_inline (h : Open false stack) {name : Bytes} (hname : name ∈ inlineTags) :
    paragraphSchema.element stack name [] = true := by
  obtain ⟨hbr, himg⟩ := h.head_ne
  have hne : ∀ name ∈ inlineTags, name ≠ lit "br" ∧ name ≠ lit "img" ∧ name ≠ lit "a" := by decide
  have hout : stack.contains (lit "a") = false := by simpa using h.outside rfl
  show (_ && _ && if name = lit "br" then _ else if name = lit "img" then _ else
    if name = lit "a" then _ else _) = _
  rw [hbr, himg, if_neg (hne name hname).1, if_neg (hne name hname).2.1, if_neg (hne name hname).2.2, hout]
  simpa using hname

/-! The values of attributes. -/

theorem readChars_of_isValue {v : Bytes} (h : IsValue v) : ∃ u, readChars v = some u := by
  obtain ⟨-, -, hdata, u, rfl⟩ := h
  refine ⟨u, ?_⟩
  rw [readChars, if_pos hdata, undouble_doubled]

theorem isValue_of_readChars {v u : Bytes} (h : readChars v = some u) (h34 : 34 ∉ v)
    (h60 : 60 ∉ v) : IsValue v := by
  rw [readChars] at h
  split_ifs at h with hdata
  exact ⟨h34, h60, hdata, u, undouble_eq_some h⟩

theorem isName_attrs (href src alt : Bytes) :
    (∀ a ∈ [(lit "href", href)], isName a.1 = true) ∧
      ∀ a ∈ [(lit "src", src), (lit "alt", alt)], isName a.1 = true := by
  have hname : isName (lit "href") = true ∧ isName (lit "src") = true ∧ isName (lit "alt") = true := by
    decide
  simpa using hname

/-- The tag of a link is a start tag. -/
theorem readElement_link (href : Bytes) : readElement (Mark.link href).body =
    (readStart (lit "a" ++ [(lit "href", href)].flatMap rawAttr)).map fun t => [.openTag t.1 t.2] := by
  have hhead : (Mark.link href).body.head? = some 97 := rfl
  have hlast : (Mark.link href).body.getLast? = some 34 := by
    simp [Mark.body, rawAttr, List.getLast?_append, List.getLast?_cons]
  rw [readElement, hhead, hlast, if_neg (by decide), if_neg (by decide)]
  rfl

/-- The tag of an image is that of an empty element. -/
theorem readElement_img (src alt : Bytes) : readElement (Mark.img src alt).body =
    (readStart (lit "img" ++ [(lit "src", src), (lit "alt", alt)].flatMap rawAttr)).map fun t =>
      [.openTag t.1 t.2, .closeTag t.1] := by
  have hhead : (Mark.img src alt).body.head? = some 105 := rfl
  have hlast : (Mark.img src alt).body.getLast? = some 47 := by simp [Mark.body]
  rw [readElement, hhead, hlast, if_neg (by decide), if_pos rfl]
  simp [Mark.body]

/-- An empty element leaves the open elements as they are, where it may stand. -/
theorem run_empty (S : Schema) (stack : List Bytes) (name : Bytes) (attrs : List (Bytes × Bytes)) :
    S.run stack [.openTag name attrs, .closeTag name] =
      if S.element stack name attrs then some stack else none := by
  rw [Schema.run, Schema.step]
  split_ifs <;> simp [Schema.run, Schema.step]

theorem run_open (S : Schema) (stack : List Bytes) (name : Bytes) (attrs : List (Bytes × Bytes)) :
    S.run stack [.openTag name attrs] = if S.element stack name attrs then some (name :: stack) else none := by
  rw [Schema.run, Schema.step]
  split_ifs <;> rfl

/-- A mark whose values are clean reads as its tags, which have their place where it has. -/
theorem readElement_clean (hhere : m.Here inLink) (hclean : m.Clean) :
    ∃ ps, readElement m.body = some ps ∧ textOf ps = [] ∧
      ∀ stack, Open inLink stack → paragraphSchema.run stack ps = m.step stack := by
  cases m with
  | br =>
    refine ⟨[.openTag (lit "br") [], .closeTag (lit "br")], by decide, rfl, fun stack h => ?_⟩
    rw [run_empty, if_pos h.element_br]
    rfl
  | «open» name =>
    have hread : ∀ name ∈ inlineTags, readElement name = some [.openTag name []] := by decide
    obtain ⟨rfl, hname⟩ := hhere
    refine ⟨[.openTag name []], hread name hname, rfl, fun stack h => ?_⟩
    rw [run_open, if_pos (h.element_inline hname)]
    rfl
  | close name =>
    have hread : ∀ name ∈ lit "a" :: inlineTags, readElement (47 :: name) = some [.closeTag name] := by
      decide
    have hname : name ∈ lit "a" :: inlineTags := by
      rcases hhere with ⟨-, rfl⟩ | ⟨-, hname⟩
      · exact List.mem_cons_self
      · exact List.mem_cons_of_mem _ hname
    refine ⟨[.closeTag name], hread name hname, rfl, fun stack _ => ?_⟩
    cases stack with
    | nil => rfl
    | cons top stack =>
      show (if top = name then some stack else none).bind (paragraphSchema.run · []) =
        if some top = some name then some stack else none
      by_cases htop : top = name
      · rw [if_pos htop, if_pos (congrArg some htop)]
        rfl
      · rw [if_neg htop, if_neg fun heq => htop (Option.some.inj heq)]
        rfl
  | link href =>
    obtain ⟨u, hu⟩ := readChars_of_isValue hclean
    obtain ⟨rfl, -⟩ := hhere
    refine ⟨[.openTag (lit "a") [(lit "href", u)]], ?_, rfl, fun stack h => ?_⟩
    · rw [readElement_link, readStart_raw (by decide), readAttributes_raw (isName_attrs href [] []).1
        (by simpa using hclean.1)]
      simp [hu]
    · rw [run_open, h.element_link]
      rfl
  | img src alt =>
    obtain ⟨u, hu⟩ := readChars_of_isValue hclean.1
    obtain ⟨v, hv⟩ := readChars_of_isValue hclean.2
    refine ⟨[.openTag (lit "img") [(lit "src", u), (lit "alt", v)], .closeTag (lit "img")], ?_, rfl,
      fun stack h => ?_⟩
    · rw [readElement_img, readStart_raw (by decide), readAttributes_raw (isName_attrs [] src alt).2
        (by simpa using ⟨hclean.1.1, hclean.2.1⟩)]
      simp [hu, hv]
    · rw [run_empty, h.element_img]
      rfl

/-- A mark that is not clean has no place. -/
theorem readElement_not_clean (hhere : m.Here inLink) (hclean : ¬ m.Clean)
    (hbody : 60 ∉ m.body) {ps : List Piece} (h : readElement m.body = some ps)
    (hopen : Open inLink stack) : paragraphSchema.run stack ps = none := by
  cases m with
  | br => exact absurd trivial hclean
  | «open» name => exact absurd trivial hclean
  | close name => exact absurd trivial hclean
  | link href =>
    obtain ⟨rfl, -⟩ := hhere
    have h60 : 60 ∉ href := fun hmem => hbody (by simp [Mark.body, rawAttr, hmem])
    rw [readElement_link] at h
    obtain ⟨⟨n, as⟩, hstart, rfl⟩ := Option.map_eq_some_iff.mp h
    by_cases h34 : 34 ∈ href
    · obtain ⟨rfl, hlen⟩ := length_of_readStart_raw (by decide) hstart ⟨_, List.mem_cons_self, h34⟩
      rw [run_open, hopen.element_link, if_neg]
      intro heq
      have := congrArg List.length (by simpa using heq : as.map Prod.fst = [lit "href"])
      simp at this hlen
      omega
    · rw [readStart_raw (by decide), readAttributes_raw (isName_attrs href [] []).1
        (by simpa using h34)] at hstart
      cases hread : readChars href with
      | none => simp [hread] at hstart
      | some u => exact absurd (isValue_of_readChars hread h34 h60) hclean
  | img src alt =>
    have h60 : 60 ∉ src ∧ 60 ∉ alt :=
      ⟨fun hmem => hbody (by simp [Mark.body, rawAttr, hmem]),
        fun hmem => hbody (by simp [Mark.body, rawAttr, hmem])⟩
    rw [readElement_img] at h
    obtain ⟨⟨n, as⟩, hstart, rfl⟩ := Option.map_eq_some_iff.mp h
    by_cases h34 : 34 ∈ src ∨ 34 ∈ alt
    · have hquote : ∃ a ∈ [(lit "src", src), (lit "alt", alt)], 34 ∈ a.2 := by simpa using h34
      obtain ⟨rfl, hlen⟩ := length_of_readStart_raw (by decide) hstart hquote
      rw [run_empty, hopen.element_img, if_neg]
      intro heq
      have := congrArg List.length (by simpa using heq : as.map Prod.fst = [lit "src", lit "alt"])
      simp at this hlen
      omega
    · obtain ⟨hsrc, halt⟩ := not_or.mp h34
      rw [readStart_raw (by decide), readAttributes_raw (isName_attrs [] src alt).2
        (by simpa using ⟨hsrc, halt⟩)] at hstart
      cases hu : readChars src with
      | none => simp [hu] at hstart
      | some u =>
        cases hv : readChars alt with
        | none => simp [hu, hv] at hstart
        | some v =>
          exact absurd ⟨isValue_of_readChars hu hsrc h60.1, isValue_of_readChars hv halt h60.2⟩ hclean

theorem Mark.body_spec (hhere : m.Here inLink) :
    62 ∉ m.body ∧ (m.Clean → 60 ∉ m.body) := by
  have hinline : ∀ name ∈ lit "a" :: inlineTags, 62 ∉ name ∧ 60 ∉ name := by decide
  have hlit : ∀ name ∈ [lit "a", lit "img", lit "href", lit "src", lit "alt"],
      62 ∉ name ∧ 60 ∉ name := by decide
  simp only [List.forall_mem_cons] at hlit
  obtain ⟨ha, himg, hh, hs, halt, -⟩ := hlit
  cases m with
  | br => exact ⟨by decide, fun _ => by decide⟩
  | «open» name =>
    have hname := hinline name (List.mem_cons_of_mem _ hhere.2)
    exact ⟨hname.1, fun _ => hname.2⟩
  | close name =>
    have hmem : name ∈ lit "a" :: inlineTags := by
      rcases hhere with ⟨-, rfl⟩ | ⟨-, hname⟩
      · exact List.mem_cons_self
      · exact List.mem_cons_of_mem _ hname
    have hname := hinline name hmem
    exact ⟨by simpa [Mark.body] using hname.1, fun _ => by simpa [Mark.body] using hname.2⟩
  | link href =>
    refine ⟨by simpa [Mark.body, rawAttr, ha.1, hh.1] using hhere.2, fun hclean => ?_⟩
    simpa [Mark.body, rawAttr, ha.2, hh.2] using hclean.2.1
  | img src alt =>
    have hvalues : 62 ∉ src ∧ 62 ∉ alt := hhere
    refine ⟨by simpa [Mark.body, rawAttr, himg.1, hs.1, halt.1] using hvalues, fun hclean => ?_⟩
    simpa [Mark.body, rawAttr, himg.2, hs.2, halt.2] using ⟨hclean.1.2.1, hclean.2.2.1⟩

end

/-! ## The output beside the input -/

/-- What the rest of the items is written as, after this output. -/
def rewriteTail (out : Bytes) (inLink : Bool) : List HtmlItem → Bytes
  | [] => []
  | item :: items =>
    let r := rewriteItem out inLink item
    r.1 ++ rewriteTail (out ++ r.1) r.2 items

/-- What is written is put behind what has been. -/
theorem rewriteItems_eq (out : Bytes) (inLink : Bool) (items : List HtmlItem) :
    rewriteItems out inLink items = out ++ rewriteTail out inLink items := by
  induction items generalizing out inLink with
  | nil => exact (List.append_nil out).symm
  | cons item items ih => rw [rewriteItems, rewriteTail, ih, List.append_assoc]

/-- The condition on what is kept, read with the open elements and the text since the last mark. -/
def FitsFrom (stack : List Bytes) (t : Bytes) : List Kept → Prop
  | [] => isCharData t = true ∧ stack = []
  | .text t' :: ks => FitsFrom stack (t ++ t') ks
  | .mark m :: ks =>
    isCharData t = true ∧ m.Clean ∧ ∃ stack', m.step stack = some stack' ∧ FitsFrom stack' [] ks

theorem fitsFrom_iff (stack : List Bytes) (t : Bytes) (ks : List Kept) :
    FitsFrom stack t ks ↔ (marksOf ks).foldlM Mark.step stack = some [] ∧
      (∀ m ∈ marksOf ks, m.Clean) ∧ ∀ r ∈ (runsOf ks).modifyHead (t ++ ·), isCharData r = true := by
  induction ks generalizing stack t with
  | nil => simp [FitsFrom, marksOf, runsOf, and_comm]
  | cons k ks ih =>
    cases k with
    | text t' =>
      rw [FitsFrom, ih, runsOf, List.modifyHead_modifyHead]
      have hfun : ((t ++ ·) ∘ (t' ++ ·) : Bytes → Bytes) = (t ++ t' ++ ·) :=
        funext fun r => (List.append_assoc t t' r).symm
      rw [hfun]
      rfl
    | mark m =>
      have hmarks : marksOf (.mark m :: ks) = m :: marksOf ks := rfl
      have hnil : ∀ rs : List Bytes, rs.modifyHead ([] ++ ·) = rs := fun rs => by
        cases rs <;> rfl
      rw [FitsFrom, hmarks, runsOf, List.modifyHead_cons, List.foldlM_cons, List.forall_mem_cons,
        List.forall_mem_cons, List.append_nil]
      constructor
      · rintro ⟨ht, hm, stack', hstep, hrest⟩
        obtain ⟨hnest, hclean, htext⟩ := (ih stack' []).mp hrest
        rw [hnil] at htext
        refine ⟨?_, ⟨hm, hclean⟩, ht, htext⟩
        rw [hstep]
        exact hnest
      · rintro ⟨hnest, ⟨hm, hclean⟩, ht, htext⟩
        obtain ⟨stack', hstep, hnest⟩ := Option.bind_eq_some_iff.mp hnest
        exact ⟨ht, hm, stack', hstep, (ih stack' []).mpr ⟨hnest, hclean, (hnil _).symm ▸ htext⟩⟩

/-- What ends with a line break after its last mark has no text there. -/
theorem eq_nil_of_break {o : Bytes} (ho : o = [] ∨ o.getLast? = some 62) (ht : 60 ∉ t)
    (h : lit "<br/>" <:+ o ++ t) : t = [] := by
  have hbr : lit "<br/>" = [60, 98, 114, 47, 62] := by decide
  obtain ⟨x, hx⟩ := h
  rw [hbr] at hx
  rcases List.append_eq_append_iff.mp hx with ⟨c, hc, heq⟩ | ⟨c, -, heq⟩
  · -- the break begins before the text, which would end in the middle of it
    by_contra hne
    obtain ⟨t', d, rfl⟩ : ∃ t' d, t = t' ++ [d] := ⟨_, _, (List.dropLast_append_getLast hne).symm⟩
    have hbreak : c ++ t' = [60, 98, 114, 47] := by
      have := congrArg List.dropLast heq
      rw [← List.append_assoc, List.dropLast_concat] at this
      exact this.symm
    have hc0 : c ≠ [] := by
      rintro rfl
      exact ht (List.mem_append_left _ (by rw [List.nil_append] at hbreak; rw [hbreak]; decide))
    rcases ho with rfl | ho
    · exact hc0 (List.append_eq_nil_iff.mp hc.symm).2
    · rw [hc, List.getLast?_append_of_ne_nil _ hc0] at ho
      have hmem : (62 : UInt8) ∈ [60, 98, 114, 47] :=
        hbreak ▸ List.mem_append_left t' (List.mem_of_getLast? ho)
      revert hmem
      decide
  · exact absurd (heq ▸ List.mem_append_right c (by decide)) ht

/-- A text, then a mark, and what follows. -/
theorem readContent_mark {inLink : Bool} {m : Mark} (hhere : m.Here inLink)
    (ht : 60 ∉ t) (hbody : 60 ∉ m.body) (rest : Bytes) :
    readContent (doubled t ++ ((Kept.mark m).written ++ rest)) =
      (if isCharData t then some t else none).bind fun t => (readElement m.body).bind fun tag =>
        (readContent rest).map fun ps => t.map .char ++ (tag ++ ps) := by
  have happ : (Kept.mark m).written ++ rest = 60 :: (m.body ++ 62 :: rest) := by simp [Kept.written]
  rw [happ, readContent_tag (by simpa using ht) ⟨hbody, (Mark.body_spec hhere).1⟩, readChars_doubled]

/-- A mark with an angle bracket in a value is not read. -/
theorem readContent_mark_none {inLink : Bool} {m : Mark} (hhere : m.Here inLink)
    (ht : 60 ∉ t) (hbody : 60 ∈ m.body) (rest : Bytes) :
    readContent (doubled t ++ ((Kept.mark m).written ++ rest)) = none := by
  have h62 := (Mark.body_spec hhere).1
  have hsplit := takeWhile_afterByte hbody
  have happ : (Kept.mark m).written ++ rest = 60 :: (m.body.takeWhile (· ≠ 60) ++
      60 :: (afterByte 60 m.body ++ 62 :: rest)) := by
    show 60 :: (m.body ++ [62]) ++ rest = _
    conv_lhs => rw [← hsplit]
    simp
  rw [happ]
  refine readContent_open (by simpa using ht) ⟨fun hmem => ?_, fun hmem => ?_⟩ _
  · simpa using List.mem_takeWhile_imp hmem
  · exact h62 (List.takeWhile_subset _ hmem)

/-- Text may stand where no break or image is open. -/
theorem Open.run_text {inLink : Bool} {stack : List Bytes} (h : Open inLink stack) (t : Bytes)
    (ps : List Piece) : paragraphSchema.run stack (t.map .char ++ ps) = paragraphSchema.run stack ps := by
  refine Schema.run_append_of_run (Schema.run_chars fun b _ => ?_) ps
  show (stack.head? != some (lit "br") && stack.head? != some (lit "img")) = true
  rw [h.head_ne.1, h.head_ne.2]
  rfl

theorem HtmlItem.Closed.notMem_text (h : item.Closed) : 60 ∉ item.text := by
  have hdash : 60 ∉ lit "- " := by decide
  cases item with
  | byte b => simpa [HtmlItem.text] using Ne.symm h
  | comment => exact List.not_mem_nil
  | lone => exact (by decide : 60 ∉ lit "&lt;")
  | tag content =>
    rw [HtmlItem.text]
    split_ifs
    · exact hdash
    · exact List.not_mem_nil

/-- **A tag behind a text**: what is written of them and of the rest is read where the text may stand, the tag
is clean and has its place, and the rest is read from there. -/
theorem reads_mark_iff {m : Mark} {rest tail : Bytes} {fits : List Bytes → Prop}
    (hhere : m.Here inLink) (ht : 60 ∉ t) (hopen : Open inLink stack)
    (hrest : ∀ stack', m.step stack = some stack' → ((∃ ps, readContent rest = some ps ∧
      paragraphSchema.run stack' ps = some [] ∧ textOf ps = tail) ↔ fits stack')) :
    (∃ ps, readContent (doubled t ++ ((Kept.mark m).written ++ rest)) = some ps ∧
      paragraphSchema.run stack ps = some [] ∧ textOf ps = t ++ tail) ↔
        isCharData t = true ∧ m.Clean ∧ ∃ stack', m.step stack = some stack' ∧ fits stack' := by
  by_cases hclean : m.Clean
  · obtain ⟨tag, htag, htext, hrun⟩ := readElement_clean hhere hclean
    rw [readContent_mark hhere ht ((Mark.body_spec hhere).2 hclean), htag]
    by_cases hdata : isCharData t = true
    · rw [if_pos hdata]
      constructor
      · rintro ⟨ps, hread, hnest, hall⟩
        obtain ⟨ps', hps', rfl⟩ := Option.map_eq_some_iff.mp hread
        rw [hopen.run_text, Schema.run_append, hrun stack hopen] at hnest
        obtain ⟨stack', hstep, hnest⟩ := Option.bind_eq_some_iff.mp hnest
        rw [textOf_append, textOf_append, textOf_chars, htext] at hall
        exact ⟨hdata, hclean, stack', hstep,
          (hrest stack' hstep).mp ⟨ps', hps', hnest, List.append_cancel_left hall⟩⟩
      · rintro ⟨-, -, stack', hstep, hfits⟩
        obtain ⟨ps', hps', hnest, hall⟩ := (hrest stack' hstep).mpr hfits
        refine ⟨t.map .char ++ (tag ++ ps'), ?_, ?_, ?_⟩
        · rw [hps']
          rfl
        · rw [hopen.run_text, Schema.run_append, hrun stack hopen, hstep]
          exact hnest
        · rw [textOf_append, textOf_append, textOf_chars, htext, hall]
          rfl
    · rw [if_neg hdata]
      exact ⟨fun ⟨ps, hread, _⟩ => (nomatch hread), fun h => absurd h.1 hdata⟩
  · -- what is not clean is not read, or has no place
    refine ⟨fun ⟨ps, hread, hnest, _⟩ => ?_, fun h => absurd h.2.1 hclean⟩
    by_cases hbody : 60 ∈ m.body
    · rw [readContent_mark_none hhere ht hbody] at hread
      cases hread
    · rw [readContent_mark hhere ht hbody] at hread
      obtain ⟨t', -, hread⟩ := Option.bind_eq_some_iff.mp hread
      obtain ⟨tag, htag, hread⟩ := Option.bind_eq_some_iff.mp hread
      obtain ⟨ps', -, rfl⟩ := Option.map_eq_some_iff.mp hread
      rw [hopen.run_text, Schema.run_append,
        readElement_not_clean hhere hclean hbody htag hopen] at hnest
      cases hnest

/-- **The output reads as a well-nested paragraph if and only if what is kept of the input fits.** -/
theorem reads_iff {items : List HtmlItem} (hclosed : ∀ item ∈ items, item.Closed) {o : Bytes}
    {inLink : Bool} {stack : List Bytes} (ht : 60 ∉ t) (ho : o = [] ∨ o.getLast? = some 62)
    (hopen : Open inLink stack) :
    (∃ ps, readContent (doubled t ++ rewriteTail (o ++ doubled t) inLink items) = some ps ∧
      paragraphSchema.run stack ps = some [] ∧ textOf ps = t ++ items.flatMap HtmlItem.text) ↔
        FitsFrom stack t (keptItems inLink items) := by
  induction items generalizing o t inLink stack with
  | nil =>
    have hread : readContent (doubled t) = (if isCharData t then some t else none).map (·.map .char) := by
      rw [readContent_text (by simpa using ht), readChars_doubled]
    have hrun : paragraphSchema.run stack (t.map .char) = some stack := by
      have := hopen.run_text t []
      rwa [List.append_nil] at this
    rw [rewriteTail, List.append_nil, hread, keptItems, FitsFrom]
    by_cases hdata : isCharData t = true
    · simp [hdata, hrun]
    · simp [hdata]
  | cons item items ih =>
    obtain ⟨hitem, hclosed⟩ := List.forall_mem_cons.mp hclosed
    obtain ⟨hlink, hwritten⟩ := rewriteItem_eq (o ++ doubled t) inLink item
    rw [rewriteTail, keptItems, hlink, List.flatMap_cons]
    cases hkept : keptItem inLink item with
    | text t' =>
      obtain rfl : t' = item.text := (text_of_keptItem inLink item).1 t' hkept
      have htext : 60 ∉ item.text := hitem.notMem_text
      have hone : (rewriteItem (o ++ doubled t) inLink item).1 = doubled item.text := by
        rcases hwritten with h | ⟨h, -⟩
        · rw [h, hkept]
          rfl
        · rw [hkept] at h
          cases h
      have hmem : 60 ∉ t ++ item.text := fun h => (List.mem_append.mp h).elim ht htext
      have := ih hclosed hmem ho hopen
      rw [doubled_append, List.append_assoc, List.append_assoc, ← List.append_assoc o] at this
      rw [hone, linkAfter_of_text hkept, FitsFrom]
      exact this
    | mark m =>
      have hnil : item.text = [] := (text_of_keptItem inLink item).2 m hkept
      obtain ⟨hhere, hafter⟩ := here_of_keptItem hitem hkept
      rw [hnil, hafter, List.nil_append, FitsFrom]
      rcases hwritten with hone | ⟨hbr, hone, hbreak⟩
      · rw [hone, hkept]
        have hend : o ++ doubled t ++ (Kept.mark m).written = [] ∨
            (o ++ doubled t ++ (Kept.mark m).written).getLast? = some 62 :=
          Or.inr (by
            rw [Kept.written, ← List.cons_append, ← List.append_assoc, List.getLast?_concat])
        have hrest := fun stack' (hstep : m.step stack = some stack') =>
          ih hclosed List.not_mem_nil hend (hopen.step hhere hstep)
        simp only [doubled_nil, List.nil_append, List.append_nil] at hrest
        generalize rewriteTail (o ++ doubled t ++ (Kept.mark m).written) (m.linkAfter inLink) items =
          rest at hrest ⊢
        exact reads_mark_iff hhere ht hopen hrest
      · -- the break is already there
        rw [hkept] at hbr
        cases hbr
        obtain rfl : t = [] := doubled_eq_nil.mp (eq_nil_of_break ho (by simpa using ht) hbreak)
        have hrest := ih hclosed (List.not_mem_nil : (60 : UInt8) ∉ []) ho hopen
        have hsame : Mark.linkAfter inLink .br = inLink := rfl
        rw [hone, hsame, List.append_nil, List.nil_append, hrest]
        exact ⟨fun h => ⟨rfl, trivial, stack, rfl, h⟩, fun ⟨_, _, _, heq, h⟩ => Option.some.inj heq ▸ h⟩

/-! ## Line breaks at the end -/

/-- A break at the end is read as one. -/
theorem readContent_break (a : Bytes) : readContent (a ++ lit "<br/>") =
    (readContent a).map (· ++ [.openTag (lit "br") [], .closeTag (lit "br")]) := by
  obtain ⟨u, us, hs⟩ := splitOnP_eq_cons (· == 60) a
  have hbr : lit "<br/>" = 60 :: lit "br/>" := by decide
  have hrest : (lit "br/>").splitOnP (· == 60) = [lit "br/>"] := by decide
  have hchunk : readContentChunk (lit "br/>") = some [.openTag (lit "br") [], .closeTag (lit "br")] := by
    decide
  rw [hbr, readContent, readContent, List.splitOnP_append_cons _ _ (by rfl), hs, hrest]
  simp only [List.cons_append, List.mapM_append, List.mapM_cons, List.mapM_nil, hchunk]
  cases readChars u <;> cases us.mapM readContentChunk <;> simp

/-- A line break at the end makes no difference. -/
theorem wellFormed_append_break (text a : Bytes) :
    WellFormedParagraph text (a ++ lit "<br/>") ↔ WellFormedParagraph text a := by
  have htext : textOf [.openTag (lit "br") [], .closeTag (lit "br")] = [] := rfl
  have hnil : Open false [] := ⟨nofun, fun _ => List.not_mem_nil, nofun⟩
  constructor
  · rintro ⟨ps, hread, hnest, hall⟩
    rw [readContent_break] at hread
    obtain ⟨ps', hps', rfl⟩ := Option.map_eq_some_iff.mp hread
    rw [textOf_append, htext, List.append_nil] at hall
    refine ⟨ps', hps', ?_, hall⟩
    rw [Schema.WellNested, Schema.run_append] at hnest
    obtain ⟨stack, hstack, hnest⟩ := Option.bind_eq_some_iff.mp hnest
    rw [run_empty] at hnest
    split_ifs at hnest
    exact hstack.trans hnest
  · rintro ⟨ps, hread, hnest, hall⟩
    refine ⟨ps ++ [.openTag (lit "br") [], .closeTag (lit "br")], ?_, ?_, ?_⟩
    · rw [readContent_break, hread]
      rfl
    · rw [Schema.WellNested, Schema.run_append_of_run hnest, run_empty, if_pos hnil.element_br]
    · rw [textOf_append, htext, List.append_nil, hall]

/-- Nor do any breaks that are stripped. -/
theorem wellFormed_stripBreaks (text out : Bytes) :
    WellFormedParagraph text (stripBreaks out) ↔ WellFormedParagraph text out := by
  fun_induction stripBreaks out with
  | case1 out h ih =>
    rw [ih]
    have hlen : (lit "<br/>").length = 5 := by decide
    obtain ⟨a, rfl⟩ := h
    rw [List.length_append, hlen, Nat.add_sub_cancel, List.take_left]
    exact (wellFormed_append_break text a).symm
  | case2 => exact Iff.rfl

/-- **A paragraph is well-formed WML, with the text of its input, if and only if the elements that are
kept of the input nest, the values of their attributes can stand in quotes, and the text between them
can stand in a document.** -/
theorem wmlSafeParagraphText_wellFormed_iff (text : Bytes) :
    WellFormedParagraph text (wmlSafeParagraphText text) ↔ FitsWml (keptItems false (htmlItems text)) := by
  have hnil : Open false [] := ⟨nofun, fun _ => List.not_mem_nil, nofun⟩
  have hclosed : ∀ item ∈ htmlItems text, item.Closed := fun item => closed_htmlItems
  have hmain := reads_iff hclosed (List.not_mem_nil : (60 : UInt8) ∉ [])
    (Or.inl rfl : ([] : Bytes) = [] ∨ _) hnil
  have hhead : (runsOf (keptItems false (htmlItems text))).modifyHead ([] ++ ·) =
      runsOf (keptItems false (htmlItems text)) := by
    cases runsOf (keptItems false (htmlItems text)) <;> rfl
  rw [fitsFrom_iff, hhead] at hmain
  rw [wmlSafeParagraphText, wellFormed_stripBreaks, rewriteItems_eq]
  exact hmain.trans ⟨fun ⟨hnest, hclean, htext⟩ => ⟨hnest, hclean, htext⟩, fun h =>
    ⟨h.nested, h.clean, h.text⟩⟩

/-- Bold text that is not closed stays open. -/
theorem not_wellFormed_unclosed :
    ¬ WellFormedParagraph (lit "<b>x") (wmlSafeParagraphText (lit "<b>x")) := by
  rintro ⟨ps, hread, hnest, -⟩
  have hrun : (readContent (wmlSafeParagraphText (lit "<b>x"))).bind (paragraphSchema.run []) =
      some [lit "b"] := by decide +kernel
  rw [hread] at hrun
  exact absurd (hrun.symm.trans hnest) (by decide)

end BoatRudder.Modules
