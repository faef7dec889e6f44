import BoatRudder.Db.BsonLang
import BoatRudder.Db.SearchText
import Mathlib.Data.Int.Order.Basic

/-! # The search

`cms_search_entries` lets MongoDB pre-select entries by what is stored of them, reads each the way
its reader does, and keeps those that contain the query. The matching of a regular expression is a
parameter. -/

namespace BoatRudder.Db

/-! ## Entries -/

/-- A block of an entry. -/
structure ContentBlock where
  type : Bytes
  text : LangMap
  order : ℤ

/-- An entry as it is stored, with what the search reads of it. -/
structure StoredEntry where
  link : Bytes
  type : Bytes
  enabled : Bool
  date : Option ℤ
  title : LangMap
  summary : LangMap
  content : List ContentBlock

/-- `cms_get_entry_by_link`, without drafts. -/
def getEntryByLink (db : List StoredEntry) (link : Bytes) : Option StoredEntry :=
  db.find? fun e => e.link == link && e.enabled

/-- The blocks of an entry in their order. -/
def StoredEntry.blocks (e : StoredEntry) : List ContentBlock :=
  e.content.mergeSort fun a b => a.order ≤ b.order

/-- `SEARCHED_BLOCKS`. -/
def searchedBlocks : List Bytes := ["title", "tittle", "paragraph", "list"].map lit

/-- The texts `check_entry` looks at: the title, the summary, and the blocks that are prose, unless
they are empty. -/
def StoredEntry.texts (e : StoredEntry) (lang : Bytes) : List Bytes :=
  (resolveLangMap e.title lang :: resolveLangMap e.summary lang ::
    (e.blocks.filter (·.type ∈ searchedBlocks)).map (resolveLangMap ·.text lang)).filter (· ≠ [])

/-! ## Excerpts -/

/-- `SNIPPET_BEFORE`. -/
def snippetBefore : ℕ := 70

/-- `SNIPPET_AFTER`. -/
def snippetAfter : ℕ := 110

/-- A byte within a character of UTF-8. -/
def isContinuation (b : UInt8) : Bool := 0x80 ≤ b && b < 0xC0

/-- `utf8_boundary`, forward. -/
def boundaryForward (s : Bytes) (i : ℕ) : ℕ :=
  if 0 < i then i + ((s.drop i).takeWhile isContinuation).length else i

/-- `utf8_boundary`, backward. -/
def boundaryBack (s : Bytes) : ℕ → ℕ
  | 0 => 0
  | i + 1 => if ((s.drop (i + 1)).head?.any isContinuation) then boundaryBack s i else i + 1

/-- The last blank from `i` down to, but not at, `stop`. -/
def blankBack (s : Bytes) (stop : ℕ) : ℕ → ℕ
  | 0 => 0
  | i + 1 =>
    if i + 1 ≤ stop then i + 1
    else if (s.drop (i + 1)).head? = some 32 then i + 1 else blankBack s stop i

/-- What stands around a match. -/
structure Excerpt where
  before : Bytes
  found : Bytes
  after : Bytes
  deriving DecidableEq

/-- `excerpt`: what stands around the first occurrence of a folded query. -/
def excerpt (text needle : Bytes) : Option Excerpt :=
  match findSub needle (foldCase text) with
  | none => none
  | some at_ =>
    let stop := at_ + needle.length
    let start := boundaryForward text (if snippetBefore < at_ then at_ - snippetBefore else 0)
    let end_ := boundaryBack text
      (if stop + snippetAfter < text.length then stop + snippetAfter else text.length)
    let start :=
      if 0 < start then
        match findSub [32] ((text.drop start).take (at_ - start)) with
        | some blank => start + blank + 1
        | none => start
      else start
    let end_ :=
      if end_ < text.length ∧ stop < blankBack text stop end_ then blankBack text stop end_ else end_
    some
      { before := (if 0 < start then lit "..." else []) ++ (text.drop start).take (at_ - start)
        found := (text.drop at_).take needle.length
        after := (text.drop stop).take (end_ - stop) ++
          if end_ < text.length then lit "..." else [] }

/-! ## The exact check -/

/-- A result of a search. -/
structure SearchResult where
  link : Bytes
  type : Bytes
  title : Bytes
  excerpt : Excerpt
  deriving DecidableEq

/-- Whether an entry is of a type that is searched. -/
def isSearchedType (type : Bytes) : Bool := type == lit "blog" || type == lit "page"

/-- The title of a result: that of the entry, or of its first title block, or else its link. -/
def StoredEntry.shownTitle (e : StoredEntry) (lang link : Bytes) : Bytes :=
  let titles := resolveLangMap e.title lang ::
    (e.blocks.filter (fun b => b.type == lit "title" || b.type == lit "tittle")).map
      (resolveLangMap ·.text lang)
  plainText ((titles.find? (· ≠ [])).getD link)

/-- `check_entry`. -/
def checkEntry (db : List StoredEntry) (link lang needle : Bytes) : Option SearchResult :=
  match getEntryByLink db link with
  | none => none
  | some e =>
    if isSearchedType e.type then
      ((e.texts lang).findSome? fun raw => excerpt (plainText raw) needle).map fun found =>
        ⟨link, e.type, e.shownTitle lang link, found⟩
    else none

/-! ## The pre-selection -/

section

variable (regex : Bytes → Bytes → Bool)

/-- Whether a stored text matches, if there is one. -/
def fieldMatches (re : Bytes) (map : LangMap) (lang : Bytes) : Bool :=
  (map.lookup lang).any (regex re)

/-- The clauses `append_lang_clauses` adds for a language. -/
def langClauses (re : Bytes) (e : StoredEntry) (lang : Bytes) : Bool :=
  fieldMatches regex re e.title lang || fieldMatches regex re e.summary lang ||
    e.content.any fun b => b.type ∈ searchedBlocks && fieldMatches regex re b.text lang

/-- Whether MongoDB pre-selects an entry. -/
def preselected (re : Bytes) (lang : Bytes) (e : StoredEntry) : Bool :=
  e.enabled && isSearchedType e.type &&
    (langClauses regex re e lang || (lang != lit "en" && langClauses regex re e (lit "en")))

/-! ## The search -/

/-- `SEARCH_CANDIDATES_MAX`. -/
def searchCandidatesMax : ℕ := 200

/-- `SEARCH_RESULTS_LIMIT`. -/
def searchResultsLimit : ℕ := 30

/-- `valid_lang`, and English for what is none. -/
def searchLang (lang : Bytes) : Bytes :=
  if 2 ≤ lang.length ∧ lang.length ≤ 3 ∧ lang.all isLower then lang else lit "en"

/-- The order of the candidates: the newest first, and those without a date last. -/
def newerFirst (a b : StoredEntry) : Bool :=
  match a.date, b.date with
  | _, none => true
  | none, some _ => false
  | some x, some y => y ≤ x

/-- The links of the candidates. -/
def candidateLinks (db : List StoredEntry) (query lang : Bytes) : List Bytes :=
  (((db.filter (preselected regex (regexLiteral query) lang)).mergeSort newerFirst).take
    searchCandidatesMax).map StoredEntry.link

/-- The loop over the candidates, with room for `room` results. -/
def searchLoop (check : Bytes → Option SearchResult) : ℕ → List Bytes → List SearchResult
  | 0, _ => []
  | _, [] => []
  | room + 1, link :: links =>
    match check link with
    | some result => result :: searchLoop check room links
    | none => searchLoop check (room + 1) links

/-- `cms_search_entries`. -/
def searchEntries (db : List StoredEntry) (query lang : Bytes) : List SearchResult :=
  searchLoop (fun link => checkEntry db link (searchLang lang) (foldCase query)) searchResultsLimit
    (candidateLinks regex db query (searchLang lang))

end

end BoatRudder.Db
