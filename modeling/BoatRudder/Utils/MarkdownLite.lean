import BoatRudder.Formats.Markup
import Mathlib.Data.List.DropRight

/-! # Markdown

`markdown_to_html`: the blocks of a text line by line, and in a block code, bold, emphasis and links,
with everything else escaped. -/

namespace BoatRudder.Utils

/-! ## Inline markup -/

/-- What `buf_escaped` appends for a byte. -/
def escapeByte (b : UInt8) : Bytes :=
  if b = 38 then lit "&amp;"
  else if b = 60 then lit "&lt;"
  else if b = 62 then lit "&gt;"
  else if b = 34 then lit "&quot;"
  else if b = 39 then lit "&#39;"
  else [b]

/-- `buf_escaped`. -/
def escaped (s : Bytes) : Bytes := s.flatMap escapeByte

/-- `is_http`. -/
def isHttp (url : Bytes) : Bool :=
  ((lit "http://").isPrefixOf url && 7 < url.length) ||
    ((lit "https://").isPrefixOf url && 8 < url.length)

/-- Whether a URL is relative to the directory of `link_base`. -/
def isRelative (url : Bytes) : Bool :=
  58 ∉ url && url ≠ [] && url.head? ≠ some 47 && url.head? ≠ some 35

/-- What starts at a byte of a text, and what follows it. -/
inductive Inline where
  /-- The byte itself. -/
  | literal
  | code (text rest : Bytes)
  | strong (inner rest : Bytes)
  | em (inner rest : Bytes)
  | link (text url rest : Bytes)
  deriving DecidableEq

/-- The brackets of `link_at`, after the opening one: the text, the URL and what follows. -/
def linkAt (t : Bytes) : Option (Bytes × Bytes × Bytes) :=
  match findSub (lit "](") t with
  | none => none
  | some close =>
    let after := t.drop (close + 2)
    if 10 ∈ t.take close then none
    else
      match findSub (lit ")") after with
      | none => none
      | some stop => some (t.take close, after.take stop, after.drop (stop + 1))

/-- What starts at `c`, `t` being what follows it. -/
def inlineAt (c : UInt8) (t : Bytes) : Inline :=
  if c = 96 then
    match findSub (lit "\x60") t with
    | some k => if 0 < k then .code (t.take k) (t.drop (k + 1)) else .literal
    | none => .literal
  else if c = 42 ∧ t.head? = some 42 then
    match findSub (lit "**") (t.drop 1) with
    | some k => if 0 < k then .strong ((t.drop 1).take k) ((t.drop 1).drop (k + 2)) else .literal
    | none => .literal
  else if c = 42 ∧ t ≠ [] ∧ t.head? ≠ some 32 then
    match findSub (lit "*") t with
    | some k =>
      if 0 < k ∧ (t.take k).getLast? ≠ some 32 then .em (t.take k) (t.drop (k + 1)) else .literal
    | none => .literal
  else if c = 91 then
    match linkAt t with
    | some (text, url, rest) => .link text url rest
    | none => .literal
  else .literal

/-- What a construct is made of: `t` is its parts, with the delimiters between and behind them. -/
def Inline.Parts (t : Bytes) : Inline → Prop
  | .literal => True
  | .code text rest => t = text ++ lit "\x60" ++ rest
  | .strong inner rest => t = lit "*" ++ inner ++ lit "**" ++ rest
  | .em inner rest => t = inner ++ lit "*" ++ rest
  | .link text url rest => t = text ++ lit "](" ++ url ++ lit ")" ++ rest ∧ ¬ lit "](" <:+: text

/-- The parts of a link. -/
theorem linkAt_parts {t text url rest : Bytes} (h : linkAt t = some (text, url, rest)) :
    (Inline.link text url rest).Parts t := by
  unfold linkAt at h
  split at h
  · cases h
  · next close hclose =>
      dsimp only at h
      split at h
      · cases h
      · split at h
        · cases h
        · next stop hstop =>
            simp only [Option.some.injEq, Prod.mk.injEq] at h
            obtain ⟨rfl, rfl, rfl⟩ := h
            refine ⟨?_, not_infix_take_of_findSub (by decide) hclose⟩
            have ht := findSub_split hclose
            have hafter := findSub_split hstop
            have h2 : (lit "](").length = 2 := rfl
            have h1 : (lit ")").length = 1 := rfl
            rw [h2] at ht
            rw [h1] at hafter
            conv_lhs => rw [ht, hafter]
            simp

/-- The parts of what starts at a byte. -/
theorem inlineAt_parts (c : UInt8) (t : Bytes) : (inlineAt c t).Parts t := by
  unfold inlineAt
  split
  · split
    · next k hk =>
        split
        · have hlen : (lit "\x60").length = 1 := rfl
          have hsplit := findSub_split hk
          rw [hlen] at hsplit
          simpa [Inline.Parts] using hsplit
        · trivial
    · trivial
  · split
    · next hstar =>
        split
        · next k hk =>
            split
            · have hinner := findSub_split hk
              have h2 : (lit "**").length = 2 := rfl
              rw [h2] at hinner
              cases t with
              | nil => simp at hstar
              | cons b t =>
                obtain rfl : b = 42 := by simpa using hstar.2
                simp only [List.drop_one, List.tail_cons] at hinner
                simpa [Inline.Parts, lit] using hinner
            · trivial
        · trivial
    · split
      · split
        · next k hk =>
            split
            · have hlen : (lit "*").length = 1 := rfl
              have hsplit := findSub_split hk
              rw [hlen] at hsplit
              simpa [Inline.Parts] using hsplit
            · trivial
        · trivial
      · split
        · split
          · next text url rest hlink => exact linkAt_parts hlink
          · trivial
        · trivial

/-- No part of a construct is longer than what it was taken from. -/
def Inline.Within (n : ℕ) : Inline → Prop
  | .literal => True
  | .code _ rest => rest.length ≤ n
  | .strong inner rest => inner.length ≤ n ∧ rest.length ≤ n
  | .em inner rest => inner.length ≤ n ∧ rest.length ≤ n
  | .link text _ rest => text.length ≤ n ∧ rest.length ≤ n

theorem inlineAt_within (c : UInt8) (t : Bytes) : (inlineAt c t).Within t.length := by
  have hparts := inlineAt_parts c t
  cases hat : inlineAt c t with
  | literal => trivial
  | code text rest =>
    rw [hat, Inline.Parts] at hparts
    rw [hparts, Inline.Within]
    simp only [List.length_append]
    omega
  | strong inner rest =>
    rw [hat, Inline.Parts] at hparts
    rw [hparts, Inline.Within]
    simp only [List.length_append]
    omega
  | em inner rest =>
    rw [hat, Inline.Parts] at hparts
    rw [hparts, Inline.Within]
    simp only [List.length_append]
    omega
  | link text url rest =>
    rw [hat, Inline.Parts] at hparts
    rw [hparts.1, Inline.Within]
    simp only [List.length_append]
    omega

/-- Where a link leads to, when it is one. -/
def hrefOf (linkBase : Option Bytes) (url : Bytes) : Option Bytes :=
  if isHttp url then some url
  else
    match linkBase with
    | some base => if isRelative url then some (base ++ url) else none
    | none => none

/-- `inline_html`. -/
def inlineHtml (linkBase : Option Bytes) : Bytes → Bytes
  | [] => []
  | c :: t =>
    match _h : inlineAt c t with
    | .literal => escapeByte c ++ inlineHtml linkBase t
    | .code text rest =>
      lit "<code>" ++ escaped text ++ lit "</code>" ++ inlineHtml linkBase rest
    | .strong inner rest =>
      lit "<strong>" ++ inlineHtml linkBase inner ++ lit "</strong>" ++ inlineHtml linkBase rest
    | .em inner rest =>
      lit "<em>" ++ inlineHtml linkBase inner ++ lit "</em>" ++ inlineHtml linkBase rest
    | .link text url rest =>
      (match hrefOf linkBase url with
        | some href =>
          lit "<a href=\"" ++ escaped href ++ lit "\" rel=\"noopener noreferrer\">" ++
            inlineHtml linkBase text ++ lit "</a>"
        | none => inlineHtml linkBase text) ++ inlineHtml linkBase rest
termination_by s => s.length
decreasing_by
  all_goals
    have hwithin := inlineAt_within c t
    rw [_h] at hwithin
    simp only [Inline.Within] at hwithin
    simp only [List.length_cons]
    omega

/-! ## Blocks -/

/-- `BlockKind`. -/
inductive BlockKind where
  | none
  | paragraph
  | item
  deriving DecidableEq

/-- `Renderer`. -/
structure Renderer where
  out : Bytes
  /-- The paragraph or item being collected. -/
  text : Bytes
  kind : BlockKind
  inList : Bool
  deriving DecidableEq

/-- `flush_block`. -/
def flushBlock (linkBase : Option Bytes) (r : Renderer) : Renderer :=
  let out := match r.kind with
    | .none => r.out
    | .paragraph => r.out ++ lit "<p>" ++ inlineHtml linkBase r.text ++ lit "</p>\n"
    | .item => r.out ++ lit "<li>" ++ inlineHtml linkBase r.text ++ lit "</li>\n"
  { r with out := out, text := [], kind := .none }

/-- `close_list`. -/
def closeList (linkBase : Option Bytes) (r : Renderer) : Renderer :=
  let r := flushBlock linkBase r
  { r with out := if r.inList then r.out ++ lit "</ul>\n" else r.out, inList := false }

/-- `collect`. -/
def collect (r : Renderer) (s : Bytes) : Renderer :=
  { r with text := if r.text = [] then s else r.text ++ 32 :: s }

/-- The tag of a heading with `hashes` marks. -/
def headingTag (hashes : ℕ) : Bytes :=
  [104, UInt8.ofNat (48 + if 6 < hashes + 2 then 6 else hashes + 2)]

/-- A heading of `markdown_to_html`. -/
def putHeading (linkBase : Option Bytes) (r : Renderer) (hashes : ℕ) (text : Bytes) : Renderer :=
  let r := closeList linkBase r
  { r with
    out := r.out ++ lit "<" ++ headingTag hashes ++ lit ">" ++ inlineHtml linkBase text ++
      lit "</" ++ headingTag hashes ++ lit ">\n" }

/-- The list of an item is opened unless it is open. -/
def openList (r : Renderer) : Renderer :=
  if r.inList then r else { r with out := r.out ++ lit "<ul>\n", inList := true }

/-- An item of `markdown_to_html`. -/
def startItem (linkBase : Option Bytes) (r : Renderer) (text : Bytes) : Renderer :=
  collect { openList (flushBlock linkBase r) with kind := .item } text

/-- A line of a paragraph. -/
def addToParagraph (linkBase : Option Bytes) (r : Renderer) (text : Bytes) : Renderer :=
  collect { (if r.inList then closeList linkBase r else r) with kind := .paragraph } text

/-- One line of `markdown_to_html`. -/
def renderLine (linkBase : Option Bytes) (r : Renderer) (line : Bytes) : Renderer :=
  let line := line.rdropWhile fun b => b == 13 || b == 32 || b == 9
  let indent := (line.takeWhile (· == 32)).length
  let body := line.drop indent
  let hashes := (body.takeWhile (· == 35)).length
  let isHeading := indent = 0 ∧ 1 ≤ hashes ∧ hashes ≤ 6 ∧ body[hashes]? = some 32
  let isItem := indent ≤ 1 ∧ (body.head? = some 45 ∨ body.head? = some 42 ∨ body.head? = some 43) ∧
    body[1]? = some 32
  if body = [] then flushBlock linkBase r
  else if isHeading then putHeading linkBase r hashes (body.drop (hashes + 1))
  else if isItem then startItem linkBase r (body.drop 2)
  else if 0 < indent ∧ r.kind = .item then collect r body
  else addToParagraph linkBase r body

/-- The lines of `markdown_to_html`. -/
def renderLines (linkBase : Option Bytes) (r : Renderer) : Bytes → Renderer
  | [] => r
  | c :: s =>
    renderLines linkBase (renderLine linkBase r ((c :: s).takeWhile (· ≠ 10))) (afterByte 10 (c :: s))
termination_by s => s.length
decreasing_by
  have hle := length_dropWhile_le (· ≠ 10) (c :: s)
  simp only [afterByte, List.length_drop, List.length_cons] at hle ⊢
  omega

/-- `markdown_to_html`. -/
def markdownToHtml (md : Bytes) (linkBase : Option Bytes) : Bytes :=
  (closeList linkBase (renderLines linkBase ⟨[], [], .none, false⟩ (cstr md))).out

end BoatRudder.Utils
