import BoatRudder.Formats.WmlContent

/-! # Paragraphs for WML

A paragraph is stored as the HTML of the rich-text editor. For a WAP browser it is written again with
what WML has: a few inline elements, links and images, each line break an empty element, every other
tag left out. -/

namespace BoatRudder.Modules

/-! ## Attributes -/

/-- The value at an attribute's name in a tag; nothing when it is not quoted, is not closed or does not
fit its buffer. -/
def attrValue (attr : Bytes) (size : ℕ) (s : Bytes) : Bytes :=
  match s.drop (attr.length + 1) with
  | [] => []
  | quote :: v =>
    if quote ≠ 34 ∧ quote ≠ 39 then []
    else if quote ∈ v ∧ (v.takeWhile (· ≠ quote)).length < size then v.takeWhile (· ≠ quote) else []

/-- The loop of `tag_attr`, `prev` being the byte before the one it looks at. -/
def tagAttrFrom (attr : Bytes) (size : ℕ) (prev : UInt8) : Bytes → Bytes
  | [] => []
  | c :: s =>
    if attr.length + 2 < (c :: s).length ∧ (prev = 32 ∨ prev = 9 ∨ prev = 10) ∧
        eqNoCase ((c :: s).take attr.length) attr ∧ (c :: s)[attr.length]? = some 61 then
      attrValue attr size (c :: s)
    else tagAttrFrom attr size c s

/-- `tag_attr`, on what stands between the angle brackets of a tag. -/
def tagAttr (content attr : Bytes) (size : ℕ) : Bytes := tagAttrFrom attr size 60 content

/-! ## The text in items -/

/-- What `wml_safe_paragraph_text` takes at a time: a byte, a comment, a `<` that ends nowhere, or a
tag, given by what stands between its angle brackets. -/
inductive HtmlItem where
  | byte (b : UInt8)
  | comment
  | lone
  | tag (content : Bytes)
deriving DecidableEq, Repr

/-- The text that a comment leaves, past its `!--`. -/
def pastComment (s : Bytes) : Bytes :=
  match findSub (lit "-->") (s.drop 3) with
  | some i => (s.drop 3).drop (i + 3)
  | none => []

theorem length_pastComment_le (s : Bytes) : (pastComment s).length ≤ s.length := by
  rw [pastComment]
  split
  · simp only [List.length_drop]
    omega
  · exact Nat.zero_le _

/-- The items of a text. -/
def htmlItems : Bytes → List HtmlItem
  | [] => []
  | c :: s =>
    if c ≠ 60 then .byte c :: htmlItems s
    else if (lit "!--").isPrefixOf s then .comment :: htmlItems (pastComment s)
    else if 62 ∉ s then .lone :: htmlItems s
    else .tag (s.takeWhile (· ≠ 62)) :: htmlItems (afterByte 62 s)
termination_by s => s.length
decreasing_by
  · exact Nat.lt_succ_self _
  · exact Nat.lt_succ_of_le (length_pastComment_le s)
  · exact Nat.lt_succ_self _
  · exact Nat.lt_succ_of_le (length_afterByte_le 62 s)

/-! ## Writing -/

/-- `inline_tags`. -/
def inlineTags : List Bytes :=
  [lit "b", lit "i", lit "u", lit "em", lit "strong", lit "big", lit "small"]

/-- `block_tags`. -/
def blockTags : List Bytes :=
  [lit "p", lit "div", lit "h1", lit "h2", lit "h3", lit "h4", lit "h5", lit "h6", lit "blockquote",
    lit "li"]

/-- Whether a tag closes an element. -/
def isClosing (content : Bytes) : Bool := content.head? = some 47

/-- The name of a tag, as much of it as its buffer takes, in lower case. -/
def tagName (content : Bytes) : Bytes :=
  (((content.drop (if isClosing content then 1 else 0)).take 15).takeWhile isAlnum).map (· ||| 32)

/-- The address of a link. -/
def linkHref (content : Bytes) : Bytes :=
  let href := tagAttr content (lit "href") 400
  if href ≠ [] then href else lit "/"

/-- What a tag of a link is written as. -/
def linkTag (content : Bytes) : Bytes := (lit "<a href=\"" ++ linkHref content ++ lit "\">").take 511

/-- What a tag of an image is written as. -/
def imgTag (content : Bytes) : Bytes :=
  let src := tagAttr content (lit "src") 300
  if src ≠ [] then
    (lit "<img src=\"" ++ src ++ lit "\" alt=\"" ++ tagAttr content (lit "alt") 150 ++ lit "\"/>").take 511
  else []

/-- What a tag of another element is written as, after this output. -/
def elementTag (out : Bytes) (inLink : Bool) (content : Bytes) : Bytes :=
  let name := tagName content
  let closing := isClosing content
  let inline :=
    if !inLink ∧ name ∈ inlineTags then
      lit "<" ++ (if closing then lit "/" else []) ++ name ++ lit ">"
    else []
  if closing ∧ ¬ lit "<br/>" <:+ out ∧ name ∈ blockTags then lit "<br/>" else inline

/-- What a tag is written as, and whether a link is open after it. -/
def rewriteTag (out : Bytes) (inLink : Bool) (content : Bytes) : Bytes × Bool :=
  let name := tagName content
  let closing := isClosing content
  if name = lit "br" then (lit "<br/>", inLink)
  else if name = lit "li" ∧ !closing then (lit "- ", inLink)
  else if name = lit "a" then
    (if closing && inLink then lit "</a>"
     else if !closing && !inLink then linkTag content
     else [], !closing)
  else if name = lit "img" then (imgTag content, inLink)
  else (elementTag out inLink content, inLink)

/-- What an item is written as, and whether a link is open after it. -/
def rewriteItem (out : Bytes) (inLink : Bool) : HtmlItem → Bytes × Bool
  | .byte b => (if b = 36 then [36, 36] else [b], inLink)
  | .comment => ([], inLink)
  | .lone => (lit "&lt;", inLink)
  | .tag content => rewriteTag out inLink content

/-- The loop of `wml_safe_paragraph_text`. -/
def rewriteItems (out : Bytes) (inLink : Bool) : List HtmlItem → Bytes
  | [] => out
  | item :: items =>
    let r := rewriteItem out inLink item
    rewriteItems (out ++ r.1) r.2 items

/-- The line breaks at the end of the output taken off. -/
def stripBreaks (out : Bytes) : Bytes :=
  if lit "<br/>" <:+ out then stripBreaks (out.take (out.length - 5)) else out
termination_by out.length
decreasing_by
  have hlen : (lit "<br/>").length ≤ out.length := (‹lit "<br/>" <:+ out› : _).length_le
  have hfive : (lit "<br/>").length = 5 := by decide
  simp only [List.length_take]
  omega

/-- `wml_safe_paragraph_text`. -/
def wmlSafeParagraphText (text : Bytes) : Bytes := stripBreaks (rewriteItems [] false (htmlItems text))

/-! ## What a paragraph is to be -/

/-- What may stand where in a paragraph: line breaks and images anywhere, links and inline elements
outside a link. -/
def paragraphSchema : Schema where
  element stack name attrs :=
    stack.head? != some (lit "br") && stack.head? != some (lit "img") &&
      if name = lit "br" then attrs == []
      else if name = lit "img" then attrs.map Prod.fst == [lit "src", lit "alt"]
      else if name = lit "a" then
        !stack.contains (lit "a") && attrs.map Prod.fst == [lit "href"]
      else !stack.contains (lit "a") && name ∈ inlineTags && attrs == []
  text stack _ := stack.head? != some (lit "br") && stack.head? != some (lit "img")

/-- The text of an item: a tag has none, but for the dash before a list item, and a `<` that is no tag
is written as a reference. -/
def HtmlItem.text : HtmlItem → Bytes
  | .byte b => [b]
  | .comment => []
  | .lone => lit "&lt;"
  | .tag content => if tagName content = lit "li" ∧ !isClosing content then lit "- " else []

/-- The text outside tags and comments. -/
def paragraphText (text : Bytes) : Bytes := (htmlItems text).flatMap HtmlItem.text

/-- The output reads as well-nested content of a paragraph, with the text of the input. -/
def WellFormedParagraph (text out : Bytes) : Prop :=
  ∃ ps, readContent out = some ps ∧ paragraphSchema.WellNested ps ∧ textOf ps = paragraphText text

/-! ## What the input has -/

/-- A tag of the input that WML has something for. -/
inductive Mark where
  | br
  | open (name : Bytes)
  | close (name : Bytes)
  | link (href : Bytes)
  | img (src alt : Bytes)
deriving DecidableEq, Repr

/-- A piece of the input, what has no place in WML left out. -/
inductive Kept where
  | text (t : Bytes)
  | mark (m : Mark)
deriving DecidableEq, Repr

/-- What is kept of a tag. -/
def keptTag (inLink : Bool) (content : Bytes) : Kept :=
  let name := tagName content
  let closing := isClosing content
  if name = lit "br" then .mark .br
  else if name = lit "li" ∧ !closing then .text (lit "- ")
  else if name = lit "a" then
    if closing && inLink then .mark (.close name)
    else if !closing && !inLink then .mark (.link (linkHref content))
    else .text []
  else if name = lit "img" then
    if tagAttr content (lit "src") 300 ≠ [] then
      .mark (.img (tagAttr content (lit "src") 300) (tagAttr content (lit "alt") 150))
    else .text []
  else if !inLink ∧ name ∈ inlineTags then .mark (if closing then .close name else .open name)
  else if closing ∧ name ∈ blockTags then .mark .br
  else .text []

/-- Whether a link is open after an item. -/
def linkAfter (inLink : Bool) : HtmlItem → Bool
  | .tag content => if tagName content = lit "a" then !isClosing content else inLink
  | _ => inLink

/-- What is kept of an item. -/
def keptItem (inLink : Bool) : HtmlItem → Kept
  | .tag content => keptTag inLink content
  | item => .text item.text

/-- What is kept of the items. -/
def keptItems (inLink : Bool) : List HtmlItem → List Kept
  | [] => []
  | item :: items => keptItem inLink item :: keptItems (linkAfter inLink item) items

/-- The open elements after a mark, the innermost first; nothing when it closes another. -/
def Mark.step (stack : List Bytes) : Mark → Option (List Bytes)
  | .br => some stack
  | .img _ _ => some stack
  | .open name => some (name :: stack)
  | .link _ => some (lit "a" :: stack)
  | .close name => if stack.head? = some name then some stack.tail else none

/-- The value of an attribute can stand between double quotes: it has no `<`, no quote and no control
character, its ampersands begin references, and its dollar signs are doubled. -/
def IsValue (v : Bytes) : Prop := 34 ∉ v ∧ 60 ∉ v ∧ isCharData v = true ∧ ∃ u, v = doubled u

/-- The values of a mark's attributes are fit to be written. -/
def Mark.Clean : Mark → Prop
  | .link href => IsValue href
  | .img src alt => IsValue src ∧ IsValue alt
  | _ => True

/-- The marks among what is kept. -/
def marksOf (ks : List Kept) : List Mark :=
  ks.filterMap fun
    | .mark m => some m
    | .text _ => none

/-- The runs of text between the marks. -/
def runsOf : List Kept → List Bytes
  | [] => [[]]
  | .text t :: ks => (runsOf ks).modifyHead (t ++ ·)
  | .mark _ :: ks => [] :: runsOf ks

/-- What the pieces of an input have to be like: the elements nest, the addresses and descriptions can
stand in quotes, and the text between two marks has no control character, no `]]>`, and no ampersand
that begins no reference. -/
structure FitsWml (ks : List Kept) : Prop where
  nested : (marksOf ks).foldlM Mark.step [] = some []
  clean : ∀ m ∈ marksOf ks, m.Clean
  text : ∀ t ∈ runsOf ks, isCharData t = true

end BoatRudder.Modules
