import BoatRudder.Db.CmsSearch
import Mathlib.Data.List.Perm.Subperm

/-! # What the pre-selection lets through

The pre-selection sees what is stored, the exact check what a reader sees. An entry that the check
accepts for an occurrence that is stored as it is read is pre-selected, and is among the results
unless there are as many as are returned. -/

namespace BoatRudder.Db

/-- A string occurs in a stored text, but for its case. -/
def Occurs (q text : Bytes) : Prop := ∃ a b c, text = a ++ (b ++ c) ∧ foldCase b = foldCase q

/-- What is assumed of the matching: a regular expression that spells out a string is found where
that string occurs, whatever its case. -/
def FindsLiterals (regex : Bytes → Bytes → Bool) : Prop :=
  ∀ p q text, Spells p q → Occurs q text → regex p text = true

/-! ## The exact check -/

/-- An excerpt is made of an occurrence. -/
theorem infix_of_excerpt {text needle : Bytes} (h : (excerpt text needle).isSome = true) :
    needle <:+: foldCase text := by
  by_contra hno
  rw [excerpt, findSub_eq_none_iff.mpr hno] at h
  cases h

/-- The entry that is checked, with the text that the query is found in. -/
theorem exists_text_of_checkEntry {db : List StoredEntry} {link lang needle : Bytes}
    {e : StoredEntry} (he : getEntryByLink db link = some e)
    (h : (checkEntry db link lang needle).isSome = true) :
    isSearchedType e.type = true ∧
      ∃ raw ∈ e.texts lang, needle <:+: foldCase (plainText raw) := by
  simp only [checkEntry, he] at h
  split at h
  · next htype =>
      refine ⟨htype, ?_⟩
      rw [Option.isSome_map] at h
      obtain ⟨found, hfound⟩ := Option.isSome_iff_exists.mp h
      obtain ⟨raw, hraw, hexcerpt⟩ := List.exists_of_findSome?_eq_some hfound
      exact ⟨raw, hraw, infix_of_excerpt (Option.isSome_of_eq_some hexcerpt)⟩
  · cases h

/-- The link of a result is the one that was checked. -/
theorem link_of_checkEntry {db : List StoredEntry} {link lang needle : Bytes} {r : SearchResult}
    (h : checkEntry db link lang needle = some r) : r.link = link := by
  unfold checkEntry at h
  split at h
  · cases h
  · split at h
    · obtain ⟨found, -, rfl⟩ := Option.map_eq_some_iff.mp h
      rfl
    · cases h

/-! ## The pre-selection -/

section

variable {regex : Bytes → Bytes → Bool} {re lang : Bytes}

/-- A text that is read is stored in the language or in English. -/
theorem fieldMatches_of_resolveLangMap {map : LangMap} (hne : resolveLangMap map lang ≠ [])
    (h : regex re (resolveLangMap map lang) = true) :
    fieldMatches regex re map lang = true ∨
      lang ≠ lit "en" ∧ fieldMatches regex re map (lit "en") = true := by
  unfold resolveLangMap at hne h
  cases hlang : map.lookup lang with
  | some text =>
    rw [hlang] at h
    exact Or.inl (by simpa [fieldMatches, hlang] using h)
  | none =>
    rw [hlang] at hne h
    cases hen : map.lookup (lit "en") with
    | none => exact absurd (by simp [hen]) hne
    | some text =>
      refine Or.inr ⟨?_, by simpa [fieldMatches, hen] using h⟩
      rintro rfl
      rw [hlang] at hen
      cases hen

/-- A match in a field counts for its clause. -/
theorem langClauses_of_texts {e : StoredEntry} {raw : Bytes} (hraw : raw ∈ e.texts lang)
    (h : regex re raw = true) : langClauses regex re e lang = true ∨
      lang ≠ lit "en" ∧ langClauses regex re e (lit "en") = true := by
  obtain ⟨hmem, hne⟩ := List.mem_filter.mp hraw
  have hne : raw ≠ [] := by simpa using hne
  simp only [List.mem_cons, List.mem_map, List.mem_filter] at hmem
  rcases hmem with rfl | rfl | ⟨b, ⟨hb, htype⟩, rfl⟩
  · exact (fieldMatches_of_resolveLangMap hne h).imp (fun h => by simp [langClauses, h])
      (And.imp_right fun h => by simp [langClauses, h])
  · exact (fieldMatches_of_resolveLangMap hne h).imp (fun h => by simp [langClauses, h])
      (And.imp_right fun h => by simp [langClauses, h])
  · have hstored : b ∈ e.content := List.mem_mergeSort.mp hb
    have hclause : ∀ {l : Bytes}, fieldMatches regex re b.text l = true →
        langClauses regex re e l = true := by
      intro l hl
      have hany : e.content.any (fun b => b.type ∈ searchedBlocks &&
          fieldMatches regex re b.text l) = true :=
        List.any_eq_true.mpr ⟨b, hstored, by rw [Bool.and_eq_true]; exact ⟨htype, hl⟩⟩
      rw [langClauses, hany, Bool.or_true]
    exact (fieldMatches_of_resolveLangMap hne h).imp hclause (And.imp_right hclause)

/-- **An entry with a text that matches is pre-selected.** -/
theorem preselected_of_texts {e : StoredEntry} {raw : Bytes} (henabled : e.enabled = true)
    (htype : isSearchedType e.type = true) (hraw : raw ∈ e.texts lang)
    (h : regex re raw = true) : preselected regex re lang e = true := by
  rw [preselected, henabled, htype]
  rcases langClauses_of_texts hraw h with hlang | ⟨hne, hen⟩
  · simp [hlang]
  · simp [hen, hne]

end

/-! ## The results -/

/-- A candidate that the check accepts is among the results, or they are as many as there is room
for. -/
theorem searchLoop_finds {check : Bytes → Option SearchResult} {link : Bytes}
    (hlink : ∀ r, check link = some r → r.link = link) (hcheck : (check link).isSome = true)
    (room : ℕ) {links : List Bytes} (hmem : link ∈ links) :
    (∃ r ∈ searchLoop check room links, r.link = link) ∨
      (searchLoop check room links).length = room := by
  fun_induction searchLoop check room links with
  | case1 => exact Or.inr rfl
  | case2 => cases hmem
  | case3 room l links result hresult ih =>
    by_cases hl : l = link
    · subst hl
      exact Or.inl ⟨result, by simp, hlink _ hresult⟩
    · rcases ih ((List.mem_cons.mp hmem).resolve_left (Ne.symm hl)) with ⟨r, hr, heq⟩ | hfull
      · exact Or.inl ⟨r, List.mem_cons_of_mem _ hr, heq⟩
      · exact Or.inr (by rw [List.length_cons, hfull])
  | case4 room l links hnone ih =>
    refine ih ((List.mem_cons.mp hmem).resolve_left ?_)
    rintro rfl
    rw [hnone] at hcheck
    cases hcheck

/-- **No result that is stored as it is read is lost.** An entry that the exact check accepts is
pre-selected, and returned unless as many others are as there is room for: for every query without
blanks and without characters of entities, and for every other one that occurs in a text of the entry
as it is stored there. -/
theorem search_lossless (regex : Bytes → Bytes → Bool) (hregex : FindsLiterals regex)
    (query lang : Bytes) (hquery : StartsLetter query) (db : List StoredEntry)
    (hfew : (db.filter (preselected regex (regexLiteral query) (searchLang lang))).length ≤
      searchCandidatesMax) (link : Bytes) (e : StoredEntry)
    (he : getEntryByLink db link = some e)
    (haccept : (checkEntry db link (searchLang lang) (foldCase query)).isSome = true)
    (hstored : (∀ b ∈ query, b ∉ storedBytes) ∨
      ∃ raw ∈ e.texts (searchLang lang), ReadAsStored query raw) :
    preselected regex (regexLiteral query) (searchLang lang) e = true ∧
      ((∃ r ∈ searchEntries regex db query lang, r.link = link) ∨
        (searchEntries regex db query lang).length = searchResultsLimit) := by
  obtain ⟨htype, raw, hraw, hin⟩ := exists_text_of_checkEntry he haccept
  have hmem : e ∈ db := List.mem_of_find?_eq_some he
  have henabled : e.link = link ∧ e.enabled = true := by
    rw [getEntryByLink] at he
    simpa using List.find?_some he
  have hoccurs : ∃ raw ∈ e.texts (searchLang lang), Occurs query raw := by
    rcases hstored with hplain | ⟨raw, hraw, hread⟩
    · exact ⟨raw, hraw, (readAsStored_of_occurs hquery hplain hin).occurs⟩
    · exact ⟨raw, hraw, hread.occurs⟩
  obtain ⟨text, htext, hocc⟩ := hoccurs
  have hpre := preselected_of_texts henabled.2 htype htext
    (hregex _ _ _ (spells_regexLiteral query) hocc)
  refine ⟨hpre, @searchLoop_finds
    (fun link => checkEntry db link (searchLang lang) (foldCase query)) link
    (fun r hr => link_of_checkEntry hr) haccept _ _ ?_⟩
  rw [candidateLinks, List.take_of_length_le (by rwa [List.length_mergeSort])]
  exact List.mem_map.mpr
    ⟨e, List.mem_mergeSort.mpr (List.mem_filter.mpr ⟨hmem, hpre⟩), henabled.1⟩

/-! ## An engine of literals -/

/-- The string a regular expression of escapes spells out. -/
def unescape : Bytes → Bytes
  | [] => []
  | [b] => [b]
  | b :: c :: p => if b = 92 then c :: unescape p else b :: unescape (c :: p)

/-- An engine that finds a string that is spelled out, whatever its case. -/
def literalRegex (p text : Bytes) : Bool :=
  text.tails.any fun t => foldCase (t.take (unescape p).length) = foldCase (unescape p)

/-- What is spelled out is read back. -/
theorem unescape_of_spells {p q : Bytes} (h : Spells p q) : unescape p = q := by
  induction h with
  | nil => rfl
  | @plain b p q hb h ih =>
    have hslash : b ≠ 92 := by
      rintro rfl
      exact absurd hb (by decide)
    cases p with
    | nil => cases h; rfl
    | cons c p => rw [unescape, if_neg hslash, ih]
  | @escaped b p q hb h ih => rw [unescape, if_pos rfl, ih]

theorem findsLiterals_literalRegex : FindsLiterals literalRegex := by
  rintro p q text hspells ⟨a, b, c, rfl, hfold⟩
  have hlen : b.length = q.length := by
    simpa using congrArg List.length hfold
  rw [literalRegex, unescape_of_spells hspells, List.any_eq_true]
  refine ⟨b ++ c, (List.mem_tails _ _).mpr (List.suffix_append a _), ?_⟩
  rw [← hlen, List.take_left, hfold]
  simp

/-- A blog entry with a paragraph in English. -/
def paragraphEntry (text : Bytes) : StoredEntry where
  link := lit "cats"
  type := lit "blog"
  enabled := true
  date := none
  title := []
  summary := []
  content := [⟨lit "paragraph", [(lit "en", text)], 0⟩]

/-- A reader in Spanish finds a word of an English paragraph. -/
theorem search_lossless_word :
    ∃ r ∈ searchEntries literalRegex [paragraphEntry (lit "<p>The <b>Jerry</b></p>")] (lit "jerry")
      (lit "es"), r.link = lit "cats" := by
  have hall : ∀ b ∈ lit "jerry", b ∉ storedBytes := by decide
  have h := (search_lossless literalRegex findsLiterals_literalRegex (lit "jerry") (lit "es")
    (by decide +kernel) [paragraphEntry (lit "<p>The <b>Jerry</b></p>")] (by decide)
    (lit "cats") (paragraphEntry (lit "<p>The <b>Jerry</b></p>")) rfl (by decide +kernel)
    (Or.inl hall)).2
  refine h.resolve_right ?_
  decide +kernel

/-- A search returns no more results than there is room for. -/
theorem length_searchLoop_le (check : Bytes → Option SearchResult) (room : ℕ) (links : List Bytes) :
    (searchLoop check room links).length ≤ room := by
  fun_induction searchLoop check room links with
  | case1 => exact Nat.zero_le _
  | case2 => exact Nat.zero_le _
  | case3 room link links result hresult ih => exact Nat.succ_le_succ ih
  | case4 room link links hnone ih => exact ih

/-- One entry more than are returned, all of which name the same cat. -/
def manyEntries : List StoredEntry :=
  (List.range 31).map fun i => { paragraphEntry (lit "Tom &amp; Jerry") with
    link := [UInt8.ofNat (i + 65)] }

/-- A paragraph with an entity in it, which a reader finds and the pre-selection does not; and more
entries that a reader finds than are returned. -/
theorem search_not_lossless :
    ((checkEntry [paragraphEntry (lit "Tom &amp; Jerry")] (lit "cats") (lit "en")
        (foldCase (lit "Tom & Jerry"))).isSome = true ∧
      preselected literalRegex (regexLiteral (lit "Tom & Jerry")) (lit "en")
        (paragraphEntry (lit "Tom &amp; Jerry")) = false ∧
      searchEntries literalRegex [paragraphEntry (lit "Tom &amp; Jerry")] (lit "Tom & Jerry")
        (lit "en") = []) ∧
      (manyEntries.filter (preselected literalRegex (regexLiteral (lit "jerry")) (lit "en"))).length ≤
        searchCandidatesMax ∧
      (∀ e ∈ manyEntries, (checkEntry manyEntries e.link (lit "en")
        (foldCase (lit "jerry"))).isSome = true) ∧
      ∃ e ∈ manyEntries, ∀ r ∈ searchEntries literalRegex manyEntries (lit "jerry") (lit "en"),
        r.link ≠ e.link := by
  refine ⟨by decide +kernel, by decide +kernel, by decide +kernel, ?_⟩
  by_contra hall
  push Not at hall
  -- else there would be as many results as there are entries
  have hsub : manyEntries.map StoredEntry.link ⊆
      (searchEntries literalRegex manyEntries (lit "jerry") (lit "en")).map SearchResult.link := by
    intro link hlink
    obtain ⟨e, he, rfl⟩ := List.mem_map.mp hlink
    obtain ⟨r, hr, heq⟩ := hall e he
    exact List.mem_map.mpr ⟨r, hr, heq⟩
  have hnodup : (manyEntries.map StoredEntry.link).Nodup := by decide
  have hlong : (manyEntries.map StoredEntry.link).length = 31 := by decide
  have hle := (hnodup.subperm hsub).length_le
  rw [hlong, List.length_map] at hle
  have hroom := length_searchLoop_le
    (fun link => checkEntry manyEntries link (searchLang (lit "en")) (foldCase (lit "jerry")))
    searchResultsLimit
    (candidateLinks literalRegex manyEntries (lit "jerry") (searchLang (lit "en")))
  exact absurd (hle.trans hroom) (by decide)

end BoatRudder.Db
