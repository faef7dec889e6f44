import BoatRudder.Utils.MarkdownLite

/-! # Markdown is safe

What `markdown_to_html` returns is the escaped writing of well-nested markup: paragraphs, headings and
lists at the top, and inside them code, bold, emphasis and links, no link in another. -/

namespace BoatRudder.Utils

/-! ## What may stand where -/

variable {a : Bytes} {r : Renderer}

/-- An address that a link may lead to: one of HTTP, or one relative to `link_base`. -/
def isSafeHref (linkBase : Option Bytes) (href : Bytes) : Bool :=
  isHttp href || match linkBase with
    | some base => base.isPrefixOf href && isRelative (href.drop base.length)
    | none => false

/-- The attributes of a link. -/
def isLinkAttrs (linkBase : Option Bytes) : List (Bytes × Bytes) → Bool
  | [(k, href), (k', rel)] => k == lit "href" && isSafeHref linkBase href && k' == lit "rel" &&
      rel == lit "noopener noreferrer"
  | _ => false

/-- Whether text and inline elements may stand in the innermost open element: in any but a list. -/
def isInline : List Bytes → Bool
  | [] => false
  | top :: _ => top != lit "ul"

/-- What may stand where in the markup of a text: blocks at the top, items in a list and nowhere else,
and nothing but items in it (and the ends of lines), inline elements in the other blocks, a link not
in a link, and attributes on links only. -/
def markdownSchema (linkBase : Option Bytes) : Schema where
  element stack name attrs :=
    if name ∈ [lit "p", lit "ul", lit "h3", lit "h4", lit "h5", lit "h6"] then
      stack == [] && attrs == []
    else if name = lit "li" then stack == [lit "ul"] && attrs == []
    else if name ∈ [lit "strong", lit "em", lit "code"] then isInline stack && attrs == []
    else name == lit "a" && isInline stack && !stack.contains (lit "a") && isLinkAttrs linkBase attrs
  text stack b := isInline stack || b == 10

/-! ## Writing -/

/-- `buf_escaped` escapes. -/
theorem escaping_escapeByte : Escaping escapeByte := by
  intro b
  unfold escapeByte
  split
  · next h => exact Or.inr ⟨lit "amp;", by rw [h]; decide, rfl⟩
  split
  · next h => exact Or.inr ⟨lit "lt;", by rw [h]; decide, rfl⟩
  split
  · next h => exact Or.inr ⟨lit "gt;", by rw [h]; decide, rfl⟩
  split
  · next h => exact Or.inr ⟨lit "quot;", by rw [h]; decide, rfl⟩
  split
  · next h => exact Or.inr ⟨lit "#39;", by rw [h]; decide, rfl⟩
  · next h38 h60 h62 h34 h39 => exact Or.inl ⟨rfl, by simp [isSpecial, h38, h60, h62, h34]⟩

/-- An element as pieces. -/
def element (name : Bytes) (attrs : List (Bytes × Bytes)) (ps : List Piece) : List Piece :=
  .openTag name attrs :: (ps ++ [.closeTag name])

/-- How an element is written. -/
theorem write_element (name : Bytes) (attrs : List (Bytes × Bytes)) (ps : List Piece) :
    writeMarkup escapeByte (element name attrs ps) =
      writePiece escapeByte (.openTag name attrs) ++ writeMarkup escapeByte ps ++
        writePiece escapeByte (.closeTag name) := by
  simp [element]

/-- How a link is written. -/
theorem write_link (href : Bytes) :
    writePiece escapeByte (.openTag (lit "a") [(lit "href", href),
      (lit "rel", lit "noopener noreferrer")]) =
      lit "<a href=\"" ++ escaped href ++ lit "\" rel=\"noopener noreferrer\">" := by
  have hrel : writeAttr escapeByte (lit "rel", lit "noopener noreferrer") ++ [62] =
      lit " rel=\"noopener noreferrer\">" := by decide
  have hend : lit "\" rel=\"noopener noreferrer\">" = 34 :: lit " rel=\"noopener noreferrer\">" := by
    decide
  have hstart : lit "<a href=\"" = 60 :: (lit "a" ++ (32 :: (lit "href" ++ [61, 34]))) := by
    decide
  rw [hend, ← hrel, hstart]
  simp [writePiece, writeAttr, escaped]

/-! ## Inline markup -/

/-- Markup that a text is written as. -/
structure Renders (out : Bytes) (ps : List Piece) : Prop where
  /-- It is what was written. -/
  eq : out = writeMarkup escapeByte ps
  /-- Its names are names. -/
  valid : ∀ p ∈ ps, p.Valid

theorem Renders.append {b : Bytes} {ps qs : List Piece} (ha : Renders a ps) (hb : Renders b qs) :
    Renders (a ++ b) (ps ++ qs) :=
  ⟨by rw [ha.eq, hb.eq, writeMarkup_append],
    fun p hp => (List.mem_append.mp hp).elim (ha.valid p) (hb.valid p)⟩

/-- Escaped text. -/
theorem renders_escaped (s : Bytes) : Renders (escaped s) (s.map .char) :=
  ⟨(writeMarkup_chars escapeByte s).symm, by simp [Piece.Valid]⟩

/-- An element without attributes. -/
theorem Renders.element {ps : List Piece} (h : Renders a ps) {name : Bytes}
    (hname : isName name = true) :
    Renders (60 :: (name ++ [62]) ++ a ++ (60 :: 47 :: (name ++ [62]))) (element name [] ps) := by
  refine ⟨?_, ?_⟩
  · rw [write_element, h.eq]
    simp [writePiece]
  · intro p hp
    simp only [Utils.element, List.mem_cons, List.mem_append, List.not_mem_nil, or_false] at hp
    rcases hp with rfl | hp | rfl
    · exact ⟨hname, by simp⟩
    · exact h.valid p hp
    · exact hname

/-- A link. -/
theorem Renders.link {ps : List Piece} (h : Renders a ps) (href : Bytes) :
    Renders (lit "<a href=\"" ++ escaped href ++ lit "\" rel=\"noopener noreferrer\">" ++ a ++
      lit "</a>") (Utils.element (lit "a")
        [(lit "href", href), (lit "rel", lit "noopener noreferrer")] ps) := by
  refine ⟨?_, ?_⟩
  · rw [write_element, h.eq, write_link]
    rfl
  · intro p hp
    simp only [Utils.element, List.mem_cons, List.mem_append, List.not_mem_nil, or_false] at hp
    rcases hp with rfl | hp | rfl
    · refine ⟨by decide, ?_⟩
      simp only [List.forall_mem_cons]
      exact ⟨by decide, by decide, by simp⟩
    · exact h.valid p hp
    · exact (by decide : isName (lit "a") = true)

/-- Markup that may stand in a block, and in a link where `linkFree` holds. -/
def IsInlineMarkup (linkBase : Option Bytes) (linkFree : Prop) (ps : List Piece) : Prop :=
  ∀ stack, isInline stack = true → (lit "a" ∈ stack → linkFree) →
    (markdownSchema linkBase).run stack ps = some stack

section InlineMarkup

variable {linkBase : Option Bytes} {P Q : Prop} {ps qs : List Piece}

theorem IsInlineMarkup.mono (h : IsInlineMarkup linkBase P ps) (hPQ : Q → P) :
    IsInlineMarkup linkBase Q ps :=
  fun stack hstack ha => h stack hstack fun hmem => hPQ (ha hmem)

theorem IsInlineMarkup.append (hp : IsInlineMarkup linkBase P ps)
    (hq : IsInlineMarkup linkBase P qs) : IsInlineMarkup linkBase P (ps ++ qs) := by
  intro stack hstack ha
  rw [Schema.run_append_of_run (hp stack hstack ha)]
  exact hq stack hstack ha

/-- Text may stand in every block. -/
theorem isInlineMarkup_chars (s : Bytes) : IsInlineMarkup linkBase P (s.map .char) := by
  intro stack hstack _
  exact Schema.run_chars fun b _ => by simp [markdownSchema, hstack]

/-- So may code, bold and emphasis. -/
theorem IsInlineMarkup.element (h : IsInlineMarkup linkBase P ps) {name : Bytes}
    (hname : name ∈ [lit "strong", lit "em", lit "code"]) :
    IsInlineMarkup linkBase P (Utils.element name [] ps) := by
  have hkind : name ∉ [lit "p", lit "ul", lit "h3", lit "h4", lit "h5", lit "h6"] ∧
      name ≠ lit "li" ∧ name ≠ lit "a" ∧ name ≠ lit "ul" := by
    simp only [List.mem_cons, List.not_mem_nil, or_false] at hname
    rcases hname with rfl | rfl | rfl <;> decide
  intro stack hstack ha
  refine Schema.run_element ?_ (h (name :: stack) ?_ fun hmem => ha ?_)
  · simp only [markdownSchema, if_neg hkind.1, if_neg hkind.2.1, if_pos hname, hstack]
    rfl
  · simpa [isInline] using hkind.2.2.2
  · exact (List.mem_cons.mp hmem).resolve_left hkind.2.2.1.symm

/-- A link may stand in every block, outside other links. -/
theorem IsInlineMarkup.link (h : IsInlineMarkup linkBase True ps) (hP : ¬ P) {href : Bytes}
    (hhref : isSafeHref linkBase href = true) :
    IsInlineMarkup linkBase P (Utils.element (lit "a")
      [(lit "href", href), (lit "rel", lit "noopener noreferrer")] ps) := by
  have hkind : lit "a" ∉ [lit "p", lit "ul", lit "h3", lit "h4", lit "h5", lit "h6"] ∧
      lit "a" ≠ lit "li" ∧ lit "a" ∉ [lit "strong", lit "em", lit "code"] := by decide
  intro stack hstack ha
  have hout : lit "a" ∉ stack := fun hmem => hP (ha hmem)
  refine Schema.run_element ?_ (h (lit "a" :: stack) rfl fun _ => trivial)
  simp only [markdownSchema, if_neg hkind.1, if_neg hkind.2.1, if_neg hkind.2.2, hstack,
    isLinkAttrs, hhref]
  simp [hout]

end InlineMarkup

/-- Where a link leads is safe. -/
theorem isSafeHref_of_hrefOf {linkBase : Option Bytes} {url href : Bytes}
    (h : hrefOf linkBase url = some href) : isSafeHref linkBase href = true := by
  unfold hrefOf at h
  unfold isSafeHref
  split at h
  · next hhttp =>
      obtain rfl := Option.some.inj h
      simp [hhttp]
  · cases linkBase with
    | none => cases h
    | some base =>
      dsimp only at h
      split at h
      · next hrel =>
          obtain rfl := Option.some.inj h
          simp [hrel]
      · cases h

/-- What no link can start in, it cannot start in a part of. -/
theorem not_infix_of_infix {pat s t : Bytes} (h : ¬ pat <:+: s) (hts : t <:+: s) : ¬ pat <:+: t :=
  fun hpat => h (hpat.trans hts)

/-- **Inline markup is well nested**, and has no link in it where no link can start. -/
theorem inlineHtml_renders (linkBase : Option Bytes) (s : Bytes) :
    ∃ ps, Renders (inlineHtml linkBase s) ps ∧
      IsInlineMarkup linkBase (¬ lit "](" <:+: s) ps := by
  fun_induction inlineHtml linkBase s with
  | case1 => exact ⟨[], ⟨rfl, by simp⟩, isInlineMarkup_chars []⟩
  | case2 c t hat ih =>
    obtain ⟨ps, hps, hin⟩ := ih
    have hc := renders_escaped [c]
    rw [escaped, List.flatMap_singleton] at hc
    exact ⟨_, hc.append hps, (isInlineMarkup_chars [c]).append
      (hin.mono fun h => not_infix_of_infix h (List.suffix_cons c t).isInfix)⟩
  | case3 c t text rest hat ih =>
    obtain ⟨ps, hps, hin⟩ := ih
    have hparts := inlineAt_parts c t
    rw [hat, Inline.Parts] at hparts
    have hrest : rest <:+: c :: t := ⟨c :: (text ++ lit "\x60"), [], by rw [hparts]; simp⟩
    have hcode := (renders_escaped text).element (rfl : isName (lit "code") = true)
    exact ⟨_, hcode.append hps,
      ((isInlineMarkup_chars text).element (by simp)).append
        (hin.mono fun h => not_infix_of_infix h hrest)⟩
  | case4 c t inner rest hat ih1 ih2 =>
    obtain ⟨ps, hps, hin⟩ := ih1
    obtain ⟨qs, hqs, hin'⟩ := ih2
    have hparts := inlineAt_parts c t
    rw [hat, Inline.Parts] at hparts
    have hinner : inner <:+: c :: t := ⟨c :: lit "*", lit "**" ++ rest, by rw [hparts]; simp⟩
    have hrest : rest <:+: c :: t :=
      ⟨c :: (lit "*" ++ inner ++ lit "**"), [], by rw [hparts]; simp⟩
    have hstrong := hps.element (rfl : isName (lit "strong") = true)
    exact ⟨_, hstrong.append hqs, ((hin.mono fun h => not_infix_of_infix h hinner).element
      (by simp)).append (hin'.mono fun h => not_infix_of_infix h hrest)⟩
  | case5 c t inner rest hat ih1 ih2 =>
    obtain ⟨ps, hps, hin⟩ := ih1
    obtain ⟨qs, hqs, hin'⟩ := ih2
    have hparts := inlineAt_parts c t
    rw [hat, Inline.Parts] at hparts
    have hinner : inner <:+: c :: t := ⟨[c], lit "*" ++ rest, by rw [hparts]; simp⟩
    have hrest : rest <:+: c :: t := ⟨c :: (inner ++ lit "*"), [], by rw [hparts]; simp⟩
    have hem := hps.element (rfl : isName (lit "em") = true)
    exact ⟨_, hem.append hqs, ((hin.mono fun h => not_infix_of_infix h hinner).element
      (by simp)).append (hin'.mono fun h => not_infix_of_infix h hrest)⟩
  | case6 c t text url rest hat ih1 ih2 =>
    obtain ⟨ps, hps, hin⟩ := ih1
    obtain ⟨qs, hqs, hin'⟩ := ih2
    have hparts := inlineAt_parts c t
    rw [hat, Inline.Parts] at hparts
    obtain ⟨ht, hfree⟩ := hparts
    have hrest : rest <:+: c :: t :=
      ⟨c :: (text ++ lit "](" ++ url ++ lit ")"), [], by rw [ht]; simp⟩
    -- the link itself is where a link can start
    have hlink : ¬ ¬ lit "](" <:+: c :: t :=
      not_not.mpr ⟨c :: text, url ++ lit ")" ++ rest, by rw [ht]; simp⟩
    have hrest := hin'.mono fun h => not_infix_of_infix h hrest
    cases hhref : hrefOf linkBase url with
    | some href =>
      exact ⟨_, (hps.link href).append hqs, ((hin.mono fun _ => hfree).link hlink
        (isSafeHref_of_hrefOf hhref)).append hrest⟩
    | none =>
      exact ⟨_, hps.append hqs, (hin.mono fun _ => hfree).append hrest⟩

/-! ## Blocks -/

/-- What was written so far, `stack` being the elements that are open. -/
def Opens (linkBase : Option Bytes) (out : Bytes) (stack : List Bytes) : Prop :=
  ∃ ps, Renders out ps ∧ (markdownSchema linkBase).run [] ps = some stack

section Blocks

variable {linkBase : Option Bytes} {out : Bytes} {stack : List Bytes}

/-- The end of a line may stand anywhere. -/
theorem Opens.newline (h : Opens linkBase out stack) : Opens linkBase (out ++ lit "\n") stack := by
  obtain ⟨ps, hps, hrun⟩ := h
  have hline : Renders (lit "\n") [.char 10] := ⟨rfl, by simp [Piece.Valid]⟩
  refine ⟨ps ++ [.char 10], hps.append hline, ?_⟩
  rw [Schema.run_append_of_run hrun]
  simp [Schema.run, Schema.step, markdownSchema]

/-- A block with inline markup in it. -/
theorem Opens.block (h : Opens linkBase out stack) {name : Bytes} (hname : isName name = true)
    (helement : (markdownSchema linkBase).element stack name [] = true)
    (hinline : isInline (name :: stack) = true) (hlink : lit "a" ∉ name :: stack) (text : Bytes) :
    Opens linkBase (out ++ (60 :: (name ++ [62]) ++ inlineHtml linkBase text ++
      (60 :: 47 :: (name ++ [62])))) stack := by
  obtain ⟨ps, hps, hrun⟩ := h
  obtain ⟨qs, hqs, hin⟩ := inlineHtml_renders linkBase text
  refine ⟨ps ++ element name [] qs, hps.append (hqs.element hname), ?_⟩
  rw [Schema.run_append_of_run hrun]
  exact Schema.run_element helement (hin _ hinline fun hmem => absurd hmem hlink)

/-- A list is opened at the top. -/
theorem Opens.openList (h : Opens linkBase out []) :
    Opens linkBase (out ++ lit "<ul>\n") [lit "ul"] := by
  obtain ⟨ps, hps, hrun⟩ := h
  have hul : Renders (lit "<ul>") [.openTag (lit "ul") []] := by
    refine ⟨rfl, ?_⟩
    simp only [List.mem_singleton, forall_eq]
    exact ⟨rfl, by simp⟩
  have hopen : Opens linkBase (out ++ lit "<ul>") [lit "ul"] := by
    refine ⟨_, hps.append hul, ?_⟩
    rw [Schema.run_append_of_run hrun]
    rfl
  have := hopen.newline
  rwa [List.append_assoc] at this

/-- A list is closed again. -/
theorem Opens.closeList (h : Opens linkBase out [lit "ul"]) :
    Opens linkBase (out ++ lit "</ul>\n") [] := by
  obtain ⟨ps, hps, hrun⟩ := h
  have hul : Renders (lit "</ul>") [.closeTag (lit "ul")] := by
    refine ⟨rfl, ?_⟩
    simp only [List.mem_singleton, forall_eq]
    exact (rfl : isName (lit "ul") = true)
  have hclose : Opens linkBase (out ++ lit "</ul>") [] := by
    refine ⟨_, hps.append hul, ?_⟩
    rw [Schema.run_append_of_run hrun]
    rfl
  have := hclose.newline
  rwa [List.append_assoc] at this

end Blocks

/-- What holds of the renderer between two lines: the list is open if it says so, an item is being
collected only in a list and a paragraph only outside one. -/
structure Renderer.Inv (linkBase : Option Bytes) (r : Renderer) : Prop where
  opens : Opens linkBase r.out (if r.inList then [lit "ul"] else [])
  item : r.kind = .item → r.inList = true
  paragraph : r.kind = .paragraph → r.inList = false

/-- `flush_block` writes the block where it may stand. -/
theorem flushBlock_inv {linkBase : Option Bytes} (h : r.Inv linkBase) :
    (flushBlock linkBase r).Inv linkBase := by
  refine ⟨?_, by simp [flushBlock], by simp [flushBlock]⟩
  have hopens := h.opens
  cases hkind : r.kind with
  | none => simpa [flushBlock, hkind] using hopens
  | paragraph =>
    have hlist := h.paragraph hkind
    simp only [hlist, Bool.false_eq_true, if_false] at hopens
    have hblock := (hopens.block (rfl : isName (lit "p") = true) rfl rfl (by decide)
      r.text).newline
    simp only [flushBlock, hkind, hlist]
    simpa [lit] using hblock
  | item =>
    have hlist := h.item hkind
    simp only [hlist, if_true] at hopens
    have hblock := (hopens.block (rfl : isName (lit "li") = true) rfl rfl (by decide)
      r.text).newline
    simp only [flushBlock, hkind, hlist]
    simpa [lit] using hblock

/-- `close_list` leaves no list open, and nothing being collected. -/
theorem closeList_inv {linkBase : Option Bytes} (h : r.Inv linkBase) :
    (closeList linkBase r).Inv linkBase ∧ (closeList linkBase r).inList = false := by
  have hflush := flushBlock_inv h
  refine ⟨⟨?_, by simp [closeList, flushBlock], by simp [closeList]⟩, rfl⟩
  have hopens := hflush.opens
  simp only [closeList]
  by_cases hlist : (flushBlock linkBase r).inList = true
  · rw [if_pos hlist] at hopens
    simpa [hlist] using hopens.closeList
  · rw [if_neg hlist] at hopens
    simpa [hlist] using hopens

/-- The tag of a heading is one of four. -/
theorem headingTag_mem (hashes : ℕ) (h1 : 1 ≤ hashes) (h6 : hashes ≤ 6) :
    headingTag hashes ∈ [lit "h3", lit "h4", lit "h5", lit "h6"] := by
  have hall : ∀ k ∈ [1, 2, 3, 4, 5, 6], headingTag k ∈ [lit "h3", lit "h4", lit "h5", lit "h6"] := by
    decide
  refine hall hashes ?_
  simp only [List.mem_cons, List.not_mem_nil, or_false]
  omega

/-- Collecting writes nothing. -/
theorem collect_inv {linkBase : Option Bytes} (h : r.Inv linkBase) (s : Bytes) :
    (collect r s).Inv linkBase :=
  ⟨h.opens, h.item, h.paragraph⟩

/-- A heading is written at the top. -/
theorem putHeading_inv {linkBase : Option Bytes} (h : r.Inv linkBase) {hashes : ℕ}
    (h1 : 1 ≤ hashes) (h6 : hashes ≤ 6) (text : Bytes) :
    (putHeading linkBase r hashes text).Inv linkBase := by
  obtain ⟨hinv, hlist⟩ := closeList_inv h
  have hopens := hinv.opens
  rw [hlist, if_neg (by simp)] at hopens
  have htag : ∀ tag ∈ [lit "h3", lit "h4", lit "h5", lit "h6"], isName tag = true ∧
      (markdownSchema linkBase).element [] tag [] = true ∧ isInline [tag] = true ∧
      lit "a" ∉ [tag] := by
    simp only [List.forall_mem_cons, List.not_mem_nil, false_implies, implies_true, and_true]
    exact ⟨⟨rfl, rfl, rfl, by decide⟩, ⟨rfl, rfl, rfl, by decide⟩,
      ⟨rfl, rfl, rfl, by decide⟩, ⟨rfl, rfl, rfl, by decide⟩⟩
  obtain ⟨hname, helement, hinline, hlink⟩ := htag _ (headingTag_mem hashes h1 h6)
  have hblock := (hopens.block hname helement hinline hlink text).newline
  refine ⟨?_, hinv.item, hinv.paragraph⟩
  simp only [putHeading, hlist, Bool.false_eq_true, if_false]
  simpa [lit] using hblock

/-- A list is open once it is opened. -/
theorem openList_inv {linkBase : Option Bytes} (h : r.Inv linkBase) :
    Opens linkBase (openList r).out [lit "ul"] ∧ (openList r).inList = true := by
  have hopens := h.opens
  unfold openList
  split
  · next hlist =>
      rw [if_pos hlist] at hopens
      exact ⟨hopens, hlist⟩
  · next hlist =>
      rw [if_neg hlist] at hopens
      exact ⟨hopens.openList, rfl⟩

/-- An item is collected in a list. -/
theorem startItem_inv {linkBase : Option Bytes} (h : r.Inv linkBase)
    (text : Bytes) : (startItem linkBase r text).Inv linkBase := by
  obtain ⟨hopens, hlist⟩ := openList_inv (flushBlock_inv h)
  have hitem : Renderer.Inv linkBase { openList (flushBlock linkBase r) with kind := .item } := by
    refine ⟨?_, fun _ => hlist, nofun⟩
    rw [if_pos hlist]
    exact hopens
  exact collect_inv hitem text

/-- A paragraph is collected outside of lists. -/
theorem addToParagraph_inv {linkBase : Option Bytes} (h : r.Inv linkBase)
    (text : Bytes) : (addToParagraph linkBase r text).Inv linkBase := by
  have hout : (if r.inList then closeList linkBase r else r).Inv linkBase ∧
      (if r.inList then closeList linkBase r else r).inList = false := by
    split
    · exact closeList_inv h
    · next hlist => exact ⟨h, by simpa using hlist⟩
  have hparagraph : Renderer.Inv linkBase
      { (if r.inList then closeList linkBase r else r) with kind := .paragraph } :=
    ⟨hout.1.opens, nofun, fun _ => hout.2⟩
  exact collect_inv hparagraph text

/-- One line keeps the invariant. -/
theorem renderLine_inv {linkBase : Option Bytes} (h : r.Inv linkBase)
    (line : Bytes) : (renderLine linkBase r line).Inv linkBase := by
  unfold renderLine
  extract_lets line indent body hashes isHeading isItem
  split
  · exact flushBlock_inv h
  split
  · next hheading => exact putHeading_inv h hheading.2.1 hheading.2.2.1 _
  split
  · exact startItem_inv h _
  split
  · exact collect_inv h _
  · exact addToParagraph_inv h _

/-- All lines keep the invariant. -/
theorem renderLines_inv {linkBase : Option Bytes} (h : r.Inv linkBase)
    (s : Bytes) : (renderLines linkBase r s).Inv linkBase := by
  fun_induction renderLines linkBase r s with
  | case1 r => exact h
  | case2 r c s ih => exact ih (renderLine_inv h _)

/-! ## The whole text -/

/-- **Markdown output is always safe and well formed**: it is the escaped writing of markup that reads
back as it was, and that markup is balanced and follows the schema of blocks, lists and inline
elements. -/
theorem markdownToHtml_wellNested (md : Bytes) (linkBase : Option Bytes) :
    ∃ ps, markdownToHtml md linkBase = writeMarkup escapeByte ps ∧
      readMarkup (markdownToHtml md linkBase) = some ps ∧
      (markdownSchema linkBase).WellNested ps := by
  have hstart : Renderer.Inv linkBase ⟨[], [], .none, false⟩ :=
    ⟨⟨[], ⟨rfl, by simp⟩, rfl⟩, by simp, by simp⟩
  obtain ⟨hinv, hlist⟩ := closeList_inv (renderLines_inv hstart (cstr md))
  have hopens := hinv.opens
  rw [hlist, if_neg (by simp)] at hopens
  obtain ⟨ps, hps, hrun⟩ := hopens
  refine ⟨ps, hps.eq, ?_, hrun⟩
  rw [markdownToHtml, hps.eq]
  exact readMarkup_writeMarkup escaping_escapeByte hps.valid

end BoatRudder.Utils
