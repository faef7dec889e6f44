import BoatRudder.WapGateway.PageParam
import BoatRudder.WapGateway.SplitToFit

/-! # Packing a deck into pages

`paged_build` and its two callers: the first card's blocks are packed into pages of at most
`page_bytes` compiled bytes, each with its Prev and Next links, and the requested page goes out as
WBXML (`wbxml_compile_page`, for the gateway) or as WML text (`wml_paginate`, for HTTP). -/

namespace BoatRudder.Wbxml

open Wml

/-! ## The deck -/

mutual

/-- `find_card`: the first card of a tree, in document order. -/
def findCard : Node → Option Node
  | .text _ => none
  | .elem name attrs kids =>
    if eqNoCase name (lit "card") then some (.elem name attrs kids) else findCardIn kids

/-- `find_card` over a list of siblings. -/
def findCardIn : List Node → Option Node
  | [] => none
  | n :: ns => (findCard n).or (findCardIn ns)

end

/-- The card `paged_build` packs: the first one, or the root of a deck without any. -/
def cardOf (root : Node) : Node := (findCard root).getD root

/-- The blocks of a card: its element children. -/
def blocksOf (card : Node) : List Node := card.kids.filter Tree.isElem

/-- `utf8_truncate`: at most `max` bytes of `s`, never splitting a character. -/
def utf8Truncate (s : Bytes) (max : ℕ) : Bytes :=
  s.take (go (min s.length max))
where
  /-- The largest cut at most `n` that does not stand before a continuation byte. -/
  go : ℕ → ℕ
    | 0 => 0
    | n + 1 => if s[n + 1]?.any (fun c => c &&& 0xC0 == 0x80) then go n else n + 1

/-! ## Navigation -/

/-- `nav_link`. -/
def navLink (label href : Bytes) : Node :=
  .elem (lit "p") [] [.elem (lit "a") [(lit "href", href)] [.text label]]

/-- The label of the link to the page before. -/
def prevLabel : Bytes := lit "<< Prev"

/-- The label of the link to the page after. -/
def nextLabel : Bytes := lit "Next >>"

/-- `reference_base`: the `scheme://host` every site-relative link is measured with. -/
def referenceBase : Bytes := lit "http://000.000.000.000:00"

/-- `basep`: the real base where that is longer than the reference one. -/
def measureBase (base : Bytes) : Bytes :=
  if referenceBase.length < base.length then base else referenceBase

/-- The suffix of the longest title a page is measured with. -/
def titleSuffix : Bytes := lit " (99/99)"

/-- `nav_cost`: what Prev and Next links to `path` add to a page with content. -/
def navCost (title path basep : Bytes) : ℕ :=
  let probe := [navLink prevLabel (setPageParam path 98 1100),
    navLink nextLabel (setPageParam path 99 1100)]
  cardSize title [] probe basep - cardSize title [] [] basep + 3

/-- `limit`: what a page's blocks may take of `page_bytes`. -/
def pageLimit (pageBytes navCost : ℕ) : ℕ :=
  if navCost + 128 < pageBytes then pageBytes - navCost else 128

/-! ## Packing -/

/-- `MIN_SPLIT_HEAD_BYTES`. -/
def minSplitHeadBytes : ℕ := 24

/-- A `size_t` difference. -/
def sizeSub (a b : ℕ) : ℕ := (a + (2 ^ 64 - b % 2 ^ 64)) % 2 ^ 64

/-- The split of `blk` at the end of the page being filled: none for so little that it would leave
a dangling word or two on a page that has blocks already. -/
def splitOff (room : Room) (blk : Node) : Option (Node × Option Node) :=
  match splitToFit room blk with
  | none => none
  | some (head, rest) =>
    if room.cur ≠ [] ∧
        sizeSub (pageSizeWith room.title room.cur head room.base)
          (cardSize room.title room.cur [] room.base) < minSplitHeadBytes then
      none
    else some (head, rest)

/-- A split at a page's end is a split. -/
theorem splitToFit_of_splitOff {room : Room} {blk : Node} {r : Node × Option Node}
    (h : splitOff room blk = some r) : splitToFit room blk = some r := by
  unfold splitOff at h
  split at h
  · cases h
  · next head rest hsplit =>
      split_ifs at h
      rw [hsplit, h]

/-- What is left to place of a list of blocks. -/
def queueWeight (q : List Node) : ℕ := (q.map blockWeight).sum

/-- Every block weighs something. -/
theorem blockWeight_pos (n : Node) : 0 < blockWeight n := by simp [blockWeight]

/-- The packing loop of `paged_build`: `queue` is what is left to place, `cur` the page being
filled. Each turn places a block, or closes the page, with a slice of the block where it can be
split there, and with the whole of it where the page is empty. -/
def pack (title : Bytes) (limit : ℕ) (base : Bytes) : List Node → List Node → List (List Node)
  | [], cur => if cur = [] then [] else [cur]
  | blk :: queue, cur =>
    if pageSizeWith title cur blk base ≤ limit then pack title limit base queue (cur ++ [blk])
    else
      match _h : splitOff ⟨cur, title, limit, base⟩ blk with
      | some (head, some rest) => (cur ++ [head]) :: pack title limit base (rest :: queue) []
      | some (head, none) => (cur ++ [head]) :: pack title limit base queue []
      | none =>
        if cur = [] then [blk] :: pack title limit base queue []
        else cur :: pack title limit base (blk :: queue) []
termination_by queue cur => 2 * queueWeight queue + (if cur = [] then 0 else 1)
decreasing_by
  all_goals have hpos := blockWeight_pos blk
  all_goals simp only [queueWeight, List.map_cons, List.sum_cons, reduceIte]
  · split_ifs <;> omega
  · have := splitToFit_rest_lt (splitToFit_of_splitOff _h)
    split_ifs <;> omega
  · split_ifs <;> omega
  · split_ifs
    omega
  · next hcur =>
      rw [if_neg hcur]
      omega

/-! ## The pages -/

/-- What `paged_build` prepares. -/
structure Paged where
  /-- `base`: the `scheme://host` put before site-relative links, empty for none. -/
  base : Bytes
  /-- `base_title`. -/
  baseTitle : Bytes
  /-- `pagev`: the blocks of each page. -/
  pages : List (List Node)
  /-- `page`: the requested page, clamped. -/
  page : ℕ
  /-- `nav`: the Prev and Next links of that page. -/
  nav : List Node
  /-- `page_title`. -/
  pageTitle : Bytes

/-- The title of a card as far as pages carry it. -/
def baseTitleOf (card : Node) : Bytes := utf8Truncate ((nodeAttr card (lit "title")).getD []) 30

/-- The pages of a card: its blocks on one page when they fit without navigation, else packed. -/
def pagesOf (card : Node) (base path : Bytes) (pageBytes : ℕ) : List (List Node) :=
  let basep := measureBase base
  let title := baseTitleOf card ++ titleSuffix
  let limit := pageLimit pageBytes (navCost title path basep)
  let blocks := blocksOf card
  if cardSize (baseTitleOf card) blocks [] basep ≤ pageBytes then [blocks]
  else
    let pages := pack title limit basep blocks []
    if pages = [] then [[]] else pages

/-- `pg->page`: the requested page, clamped. -/
def clampPage (page : ℤ) (pages : ℕ) : ℕ := min page.toNat (pages - 1)

/-- The links of page `k` of `pages`, built from `uri`. -/
def navOf (uri : Bytes) (k pages : ℕ) : List Node :=
  (if 0 < k then [navLink prevLabel (setPageParam uri (k - 1) 1100)] else []) ++
    (if k < pages - 1 then [navLink nextLabel (setPageParam uri (k + 1) 1100)] else [])

/-- The title of page `k` of `pages`. -/
def pageTitleOf (baseTitle : Bytes) (k pages : ℕ) : Bytes :=
  if 1 < pages then
    baseTitle ++ lit " (" ++ decimal (k + 1) ++ lit "/" ++ decimal pages ++ lit ")"
  else baseTitle

/-- `paged_build`. -/
def pagedBuild (src uri : Bytes) (absoluteLinks : Bool) (page : ℤ) (pageBytes : ℕ) : Paged :=
  let base := if absoluteLinks then uriBase uri 512 else []
  let card := cardOf (parseWml (cstr src))
  let pages := pagesOf card base (uriPath uri) pageBytes
  let k := clampPage page pages.length
  { base, baseTitle := baseTitleOf card, pages, page := k, nav := navOf uri k pages.length,
    pageTitle := pageTitleOf (baseTitleOf card) k pages.length }

/-- The source as `paged_build` gets it: UTF-8, cut at its first NUL. -/
def deckSource (wml : Bytes) (latin1 : Bool) : Bytes := if latin1 then latin1ToUtf8 wml else cstr wml

/-- `wbxml_compile_page`. -/
def wbxmlCompilePage (wml : Bytes) (latin1 : Bool) (uri : Bytes) (page : ℤ) (pageBytes : ℕ) :
    Bytes :=
  let pg := pagedBuild (deckSource wml latin1) uri true page pageBytes
  compileCard pg.pageTitle (pg.pages.getD pg.page []) pg.nav
    (if pg.base = [] then none else some pg.base)

/-! ## Pages as WML text

`wml_paginate`: the requested page of a deck written out as WML for a phone that reads it over HTTP,
with its site-relative links as they are. -/

/-- `ser_escape`: a quote is escaped in an attribute only. -/
def serEscape (attr : Bool) (s : Bytes) : Bytes :=
  s.flatMap fun c =>
    if c = 38 then lit "&amp;"
    else if c = 60 then lit "&lt;"
    else if c = 62 then lit "&gt;"
    else if c = 34 ∧ attr then lit "&quot;"
    else [c]

/-- `ser_attr`. -/
def serAttr (a : Bytes × Bytes) : Bytes :=
  lit " " ++ a.1 ++ lit "=\"" ++ serEscape true a.2 ++ lit "\""

mutual

/-- `ser_node`: an element without children closes itself. -/
def serNode : Node → Bytes
  | .text t => serEscape false t
  | .elem name attrs kids =>
    lit "<" ++ name ++ attrs.flatMap serAttr ++
      (if kids = [] then lit "/>" else lit ">" ++ serNodes kids ++ lit "</" ++ name ++ lit ">")

/-- `ser_node` over a list of siblings. -/
def serNodes : List Node → Bytes
  | [] => []
  | n :: ns => serNode n ++ serNodes ns

end

/-- A node on a line of its own. -/
def serLine (n : Node) : Bytes := serNode n ++ lit "\n"

/-- What stands before the title of a page. -/
def wmlHead (xmlEncoding : Bytes) : Bytes :=
  lit "<?xml version=\"1.0\" encoding=\"" ++ xmlEncoding ++ lit "\"?>\n" ++
    lit "<!DOCTYPE wml PUBLIC \"-//WAPFORUM//DTD WML 1.1//EN\" " ++
    lit "\"http://www.wapforum.org/DTD/wml_1.1.xml\">\n<wml>\n<card id=\"p\""

/-- `wml_paginate`: nothing for a deck that is one page. -/
def wmlPaginate (wml : Bytes) (latin1 : Bool) (uri : Bytes) (page : ℤ) (pageBytes : ℕ)
    (xmlEncoding : Bytes) : Option Bytes :=
  let pg := pagedBuild (deckSource wml latin1) uri false page pageBytes
  if pg.pages.length ≤ 1 then none
  else
    some (wmlHead xmlEncoding ++ serAttr (lit "title", pg.pageTitle) ++ lit ">\n" ++
      (pg.pages.getD pg.page []).flatMap serLine ++ pg.nav.flatMap serLine ++
      lit "</card>\n</wml>\n")

end BoatRudder.Wbxml
