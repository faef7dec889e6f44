import BoatRudder.Utils.TaggedLinks
import BoatRudder.Utils.Latin1
import BoatRudder.WapGateway.SameCuts
import BoatRudder.WapGateway.WmlShape

/-! # The page HTTP sends and the page the gateway sends

`retrofit_body_for_epoch` cuts a WML body into pages for a phone that reads it over HTTP, and hands
the whole deck to the gateway, which cuts it itself. What is sent over HTTP reads back as the page the
gateway compiles, with the links to the pages around it. -/

namespace BoatRudder.Utils

open Wml Wbxml

/-! ## What is left of a written page -/

/-- A block that goes out as it was written. -/
structure SentBlock (lang : Bytes) (b : Node) : Prop extends TagKept lang b where
  /-- It is nested no deeper than the reader goes. -/
  depth_le : b.depth ≤ 61
  /-- No list is in it. -/
  listless : b.Every Listless
  /-- Its texts are in Latin-1. -/
  latin1 : b.Every Latin1Node

/-- Slices of such a block are such blocks. -/
theorem keptBySplits_sentBlock (lang : Bytes) : KeptBySplits (SentBlock lang) := by
  have hsettled : ∀ marker, KeptBySplits (Tree.Every (Settled marker langParam lang)) := fun _ =>
    keptBySplits_every (fun _ _ _ _ _ h => h) fun _ _ hsub h w hw => h w (hsub hw)
  have hlistless : KeptBySplits (Tree.Every Listless) :=
    keptBySplits_every (fun _ _ _ _ hne h _ => h hne) fun _ _ _ h => h
  have hlatin1 : KeptBySplits (Tree.Every Latin1Node) :=
    keptBySplits_every (fun _ _ _ _ _ h => h) fun _ _ hsub h w hw => h w (hsub hw)
  intro room blk head rest h hsplit
  obtain ⟨helem, helem'⟩ := keptBySplits_isElem room blk head rest h.isElem hsplit
  obtain ⟨hread, hread'⟩ := keptBySplits_readsBack room blk head rest h.readsBack hsplit
  obtain ⟨hdepth, hdepth'⟩ := keptBySplits_depth 61 room blk head rest h.depth_le hsplit
  obtain ⟨hlist, hlist'⟩ := hlistless room blk head rest h.listless hsplit
  obtain ⟨hl1, hl1'⟩ := hlatin1 room blk head rest h.latin1 hsplit
  have hset := fun marker hmarker => hsettled marker room blk head rest (h.settled marker hmarker) hsplit
  exact ⟨⟨⟨helem, hread, fun m hm => (hset m hm).1⟩, hdepth, hlist, hl1⟩, fun r hr =>
    ⟨⟨helem' r hr, hread' r hr, fun m hm => (hset m hm).2 r hr⟩, hdepth' r hr, hlist' r hr,
      hl1' r hr⟩⟩

/-- A string longer than a tag's body is not equal to it. -/
theorem eqNoCase_of_length_lt {a b : Bytes} (h : a.length < b.length) : eqNoCase a b = false := by
  by_contra hsame
  have := congrArg List.length (eqNoCase_iff.mp (by simpa using hsame))
  simp only [lower, List.length_map] at this
  omega

/-- A pass over the tags of a table copies a deck of blocks without them. -/
theorem rewrite_wmlDeck_table {eq : Bytes → Bytes → Bool} {table : List (Bytes × Bytes)}
    (heq : ∀ a b, eq a b = true → eqNoCase a b = true) (htable : PlainTable table)
    (hshort : ∀ r ∈ table, (tagBody r.1).length ≤ 3 ∧ eqNoCase (tagBody r.1) (lit "wml") = false)
    {title : Bytes} {blocks : List Node} (hblocks : ∀ b ∈ blocks, b.isElem = true ∧ ReadsBack b ∧
      b.Every (Kept (replaceRule eq table))) :
    rewrite (replaceRule eq table) (wmlDeck latin1Name title blocks) =
      wmlDeck latin1Name title blocks := by
  have hends : ∀ r ∈ table, r.1 = 60 :: (tagBody r.1 ++ [62]) ∧ 62 ∉ tagBody r.1 :=
    fun r hr => ⟨(htable r hr).1, (htable r hr).2.1⟩
  have hfeed : Copies (replaceRule eq table) (fun _ => True) (lit "\n") :=
    copies_untagged heq hends (by decide)
  -- a tag on a line of its own
  have hline : ∀ body : Bytes, (∀ c ∈ body, c ≠ 60 ∧ c ≠ 62) →
      (3 < body.length ∨ body = lit "wml") → Copies (replaceRule eq table) (fun _ => True)
        (60 :: (body ++ [62]) ++ lit "\n") := by
    intro body hbody hcase
    refine (copies_tag heq hends (fun h => (hbody 60 h).1 rfl) (fun h => (hbody 62 h).2 rfl)
      fun r hr => ?_).append hfeed fun _ _ => trivial
    rcases hcase with hlong | rfl
    · exact eqNoCase_of_length_lt ((hshort r hr).1.trans_lt hlong)
    · exact (hshort r hr).2
  have hlines := copies_serLines hfeed hblocks
  set prolog := lit "?xml version=\"1.0\" encoding=\"" ++ latin1Name ++ lit "\"?" with hprolog
  set doctype := lit "!DOCTYPE wml PUBLIC \"-//WAPFORUM//DTD WML 1.1//EN\" " ++
    lit "\"http://www.wapforum.org/DTD/wml_1.1.xml\"" with hdoctype
  set card := lit "card id=\"p\"" ++ [(lit "title", title)].flatMap serAttr with hcard
  have hdeck : wmlDeck latin1Name title blocks = (60 :: (prolog ++ [62]) ++ lit "\n") ++
      ((60 :: (doctype ++ [62]) ++ lit "\n") ++ ((60 :: (lit "wml" ++ [62]) ++ lit "\n") ++
        ((60 :: (card ++ [62]) ++ lit "\n") ++ (blocks.flatMap serLine ++
          ((60 :: (lit "/card" ++ [62]) ++ lit "\n") ++
            (60 :: (lit "/wml" ++ [62]) ++ lit "\n")))))) := by
    have h1 : lit "<?xml version=\"1.0\" encoding=\"" =
        60 :: lit "?xml version=\"1.0\" encoding=\"" := by decide
    have h2 : lit "\"?>\n" = lit "\"?" ++ ([62] ++ lit "\n") := by decide
    have h3 : lit "<!DOCTYPE wml PUBLIC \"-//WAPFORUM//DTD WML 1.1//EN\" " =
        60 :: lit "!DOCTYPE wml PUBLIC \"-//WAPFORUM//DTD WML 1.1//EN\" " := by decide
    have h4 : lit "\"http://www.wapforum.org/DTD/wml_1.1.xml\">\n<wml>\n<card id=\"p\"" =
        lit "\"http://www.wapforum.org/DTD/wml_1.1.xml\"" ++ ([62] ++ (lit "\n" ++
          (60 :: (lit "wml" ++ ([62] ++ (lit "\n" ++ (60 :: lit "card id=\"p\""))))))) := by decide
    have h5 : lit ">\n" = [62] ++ lit "\n" := by decide
    have h6 : lit "</card>\n</wml>\n" = 60 :: (lit "/card" ++ ([62] ++ (lit "\n" ++
        (60 :: (lit "/wml" ++ ([62] ++ lit "\n")))))) := by decide
    simp only [wmlDeck, wmlHead, h1, h2, h3, h4, h5, h6, hprolog, hdoctype, hcard,
      List.flatMap_cons, List.flatMap_nil, List.append_nil, List.append_assoc, List.cons_append]
  have hcardPlain : ∀ c ∈ card, c ≠ 60 ∧ c ≠ 62 := by
    have hname : isWmlName (lit "title") = true := by decide
    exact List.forall_mem_append.mpr ⟨by decide, fun c hc =>
      ne_of_mem_serAttrs (by simpa using hname) hc⟩
  have hcardLong : 3 < card.length := by
    have : (lit "card id=\"p\"").length = 11 := by decide
    rw [hcard, List.length_append]
    omega
  have hplain {body : Bytes} (h : body.all (fun c => c != 60 && c != 62) = true) :
      ∀ c ∈ body, c ≠ 60 ∧ c ≠ 62 := fun c hc => by simpa using List.all_eq_true.mp h c hc
  rw [hdeck]
  exact ((hline prolog (hplain (by decide)) (Or.inl (by decide))).append
    ((hline doctype (hplain (by decide)) (Or.inl (by decide))).append
      ((hline (lit "wml") (hplain (by decide)) (Or.inr rfl)).append
        ((hline card hcardPlain (Or.inl hcardLong)).append
          (hlines.append ((hline (lit "/card") (hplain (by decide)) (Or.inl (by decide))).append
            (hline (lit "/wml") (hplain (by decide)) (Or.inl (by decide))) fun _ _ => trivial)
            fun _ _ => trivial) fun _ _ => trivial) fun _ _ => trivial) fun _ _ => trivial)
    fun _ _ => trivial).rewrite_eq trivial

theorem latin1_of_all {s : Bytes} (h : s.all (fun c => c != 0 && decide (c < 128)) = true) : Latin1 s :=
  latin1_of_ascii fun c hc => by simpa using List.all_eq_true.mp h c hc

/-- **A deck of blocks without lists, in Latin-1, is sent as it was written.** -/
theorem sentDeck_wmlDeck {title : Bytes} {blocks : List Node} (htitle : Latin1 title)
    (hblocks : ∀ b ∈ blocks, b.isElem = true ∧ ReadsBack b ∧ b.Every Listless ∧
      b.Every Latin1Node) :
    latin1ToUtf8 (sentDeck (wmlDeck latin1Name title blocks)) = wmlDeck latin1Name title blocks := by
  have hkept : ∀ b ∈ blocks, b.Every (Kept (replaceRule (· == ·) breakTable)) ∧
      b.Every (Kept (replaceRule eqNoCase listTable)) := by
    intro b hb
    obtain ⟨-, hread, hlist, -⟩ := hblocks b hb
    have hboth := (hread.and hlist).imp fun n hn => kept_of_listless hn.1.1 hn.2
    exact ⟨hboth.imp fun _ h => h.1, hboth.imp fun _ h => h.2⟩
  have hbreaks : wmlCloseBr (wmlDeck latin1Name title blocks) = wmlDeck latin1Name title blocks := by
    refine rewrite_wmlDeck_table (fun a b h => ?_) (by decide) (by decide) fun b hb =>
      ⟨(hblocks b hb).1, (hblocks b hb).2.1, (hkept b hb).1⟩
    rw [eq_of_beq h]
    exact eqNoCase_refl b
  have hlists : wmlStripLists (wmlDeck latin1Name title blocks) = wmlDeck latin1Name title blocks :=
    rewrite_wmlDeck_table (fun _ _ h => h) (by decide) (by decide) fun b hb =>
      ⟨(hblocks b hb).1, (hblocks b hb).2.1, (hkept b hb).2⟩
  have hlines : Latin1 (blocks.flatMap serLine) := by
    refine latin1_flatMap fun b hb => ?_
    obtain ⟨-, hread, -, hl1⟩ := hblocks b hb
    exact (latin1_serNode (hread.imp fun _ h => h.1) hl1).append
      (latin1_of_all (by decide))
  have hdeck : Latin1 (wmlDeck latin1Name title blocks) :=
    ((((latin1_of_all (by decide)).append
      (latin1_serAttr (show isWmlName (lit "title") = true by decide) htitle)).append
      (latin1_of_all (by decide))).append hlines).append
        (latin1_of_all (by decide))
  rw [sentDeck, hbreaks, hlists]
  exact hdeck

/-! ## The links to other pages -/

/-- A target whose links survive the tagging: ASCII without an apostrophe, that does not end like the
attribute of a form. -/
structure PageTarget (path : Bytes) : Prop where
  /-- Its bytes. -/
  ascii : ∀ c ∈ path, c ≠ 0 ∧ c < 128 ∧ c ≠ 39
  /-- Its end. -/
  action : ¬ lit "action=" <:+ pagelessUri path

section Links

variable {scheme host path lang : Bytes}

/-- The page parameter, byte by byte. -/
theorem pageSuffix_bytes (uri : Bytes) (k : ℕ) :
    ∀ c ∈ pageSuffix uri k, c ≠ 0 ∧ c < 128 ∧ c ≠ 35 ∧ c ≠ 39 := by
  have hplain : ∀ c ∈ lit "&" ++ lit "?" ++ pageParamName, c ≠ 0 ∧ c < 128 ∧ c ≠ 35 ∧ c ≠ 39 := by
    decide
  have hdigit : ∀ c, isDigit c = true → c ≠ 0 ∧ c < 128 ∧ c ≠ 35 ∧ c ≠ 39 := by decide +kernel
  have hdecimal : ∀ c ∈ decimal k, c ≠ 0 ∧ c < 128 ∧ c ≠ 35 ∧ c ≠ 39 := fun c hc =>
    hdigit c (isDigit_of_mem_decimal hc)
  intro c hc
  unfold pageSuffix at hc
  split_ifs at hc
  · cases hc
  · simp only [List.mem_append] at hc
    rcases hc with (hc | hc) | hc
    · exact hplain c (by simp [hc])
    · exact hplain c (by simp [hc])
    · exact hdecimal c hc
  · simp only [List.mem_append] at hc
    rcases hc with (hc | hc) | hc
    · exact hplain c (by simp [hc])
    · exact hplain c (by simp [hc])
    · exact hdecimal c hc

/-- **The links between pages are links that are tagged as a whole.** -/
theorem plainLink_setPageParam (huri : SiteUri scheme host path) (hpath : PageTarget path) {k : ℕ}
    (hk : k < 100) : PlainLink (setPageParam path k 1100) := by
  have hlen : (decimal k).length ≤ 64 := (decimal_small k hk).1.trans (by decide)
  obtain ⟨t, ht⟩ : ∃ t, pagelessUri path = 47 :: t := by
    cases hp : pagelessUri path with
    | nil => simpa [hp] using huri.pageless_head
    | cons c t => exact ⟨t, by simpa [hp] using huri.pageless_head⟩
  have hbytes : ∀ c ∈ pagelessUri path, c ≠ 0 ∧ c < 128 ∧ c ≠ 35 ∧ c ≠ 39 := by
    intro c hc
    have hmem : c ∈ withoutFragment path := dropPageParam_subset _ hc
    have h35 : c ≠ 35 := by simpa using List.mem_takeWhile_imp hmem
    have hpathMem : c ∈ path :=
      List.mem_of_mem_take ((List.takeWhile_prefix _).subset hmem)
    obtain ⟨h0, h128, h39⟩ := hpath.ascii c hpathMem
    exact ⟨h0, h128, h35, h39⟩
  rw [setPageParam_eq path hlen]
  refine ⟨by rw [ht]; rfl, ?_, List.forall_mem_append.mpr ⟨hbytes, pageSuffix_bytes path k⟩, ?_⟩
  · -- behind the first slash
    have hnext := huri.pageless_next
    rw [ht] at hnext ⊢
    cases t with
    | cons c t => simpa using hnext
    | nil =>
      have hamp : lit "&" = [38] := by decide
      have hmark : lit "?" = [63] := by decide
      simp only [List.cons_append, List.nil_append, List.drop_succ_cons, List.drop_zero, pageSuffix,
        hamp, hmark]
      split_ifs <;> simp
  · -- its end is that of the target, or a digit
    by_cases h0 : k = 0
    · simpa [pageSuffix, h0] using hpath.action
    · rintro ⟨r, hr⟩
      have hlast := congrArg List.getLast? hr
      have haction : lit "action=" = lit "action" ++ [61] := by decide
      have hne : decimal k ≠ [] := by
        have hsmall : ∀ n < 100, decimal n ≠ [] := by decide
        exact hsmall k hk
      have hend : (pagelessUri path ++ pageSuffix path k).getLast? = (decimal k).getLast? := by
        rw [pageSuffix, if_neg h0, ← List.append_assoc, List.getLast?_append_of_ne_nil _ hne]
      rw [hend, haction, ← List.append_assoc, List.getLast?_concat] at hlast
      have := isDigit_of_mem_decimal (List.mem_of_getLast? hlast.symm)
      revert this
      decide

/-- **A tagged link takes no more than the one it was measured with**: the language takes less than
the origin the measure has in front. -/
theorem length_tagged_link_le (huri : SiteUri scheme host path) (hpath : PageTarget path)
    (hlang : LangTag lang) {k : ℕ} (hk : k < 100) {j : ℕ} (hj : j = 98 ∨ j = 99) :
    (putStr (tagLink langParam lang (setPageParam path k 1100))).length ≤
      (putStr (withBase (some referenceBase) attrHref (setPageParam path j 1100))).length := by
  have hlen : (decimal k).length ≤ 64 := (decimal_small k hk).1.trans (by decide)
  have hlink := plainLink_setPageParam huri hpath hk
  have hj0 : j ≠ 0 := by omega
  have hbase : 36 ∉ referenceBase ∧ referenceBase ≠ [] ∧ referenceBase.length = 25 := by
    decide
  rw [huri.withBase_setPageParam referenceBase hj, putStr_append hbase.1 hbase.2.1,
    hlink.tagLink_eq, setPageParam_eq path hlen]
  set suffix := langSuffix lang (pagelessUri path ++ pageSuffix path k) with hsuffix
  obtain ⟨hbreak, h36, h41⟩ := pageSuffix_plain path hk
  obtain ⟨hbreak', h36', h41'⟩ := @pageSuffix_plain path j (by omega)
  have hsuffixPlain : (36 ∉ suffix ∧ 41 ∉ suffix) ∧ suffix.length ≤ 25 ∧
      Breaks suffix := by
    rcases langSuffix_cases lang (pagelessUri path ++ pageSuffix path k) with hnil | ⟨sep, hsep, heq⟩
    · rw [hsuffix, hnil]
      simp [Breaks]
    · have hname : (36 ∉ langParam ++ lit "=" ∧ 41 ∉ langParam ++ lit "=") ∧
          (langParam ++ lit "=").length = 5 := by decide
      have hno : 36 ∉ lang ∧ 41 ∉ lang :=
        ⟨fun h => (hlang.bytes 36 h).2 (by decide), fun h => (hlang.bytes 41 h).2 (by decide)⟩
      have hsepPlain : sep ≠ 36 ∧ sep ≠ 41 ∧ IsBreak sep := by rcases hsep with rfl | rfl <;> decide
      have hle := hlang.length_le
      rw [hsuffix, heq]
      refine ⟨⟨?_, ?_⟩, ?_, fun c hc => ?_⟩
      · simp only [List.mem_cons, List.mem_append (t := lang), hname.1.1, hno.1, hsepPlain.1.symm,
          or_self, not_false_eq_true]
      · simp only [List.mem_cons, List.mem_append (t := lang), hname.1.2, hno.2,
          hsepPlain.2.1.symm, or_self, not_false_eq_true]
      · have := hname.2
        simp only [List.length_cons, List.length_append] at this ⊢
        omega
      · obtain rfl := Option.some.inj hc
        exact hsepPlain.2.2
  obtain ⟨⟨hs36, hs41⟩, hsle, hsbreak⟩ := hsuffixPlain
  -- the language is no longer than the padding, and that no longer than the origin
  set pad : Bytes := List.replicate 25 120 with hpad
  have hpadPlain : 36 ∉ pad ∧ 41 ∉ pad ∧ pad.length = 25 := by decide
  have hne : pageSuffix path j ≠ [] := by
    have hname : pageParamName ≠ [] := by decide
    simp [pageSuffix, hj0, hname]
  have hshorter : Shorter (pageSuffix path k ++ suffix) (pageSuffix path j ++ pad) := by
    refine Shorter.literal (fun c hc => ?_) (fun c hc => ?_) (by simp [h36, hs36])
      (by simp [h36', hpadPlain.1]) ?_
    · by_cases hnil : pageSuffix path k = []
      · rw [hnil] at hc
        exact hsbreak c hc
      · rw [List.head?_append_of_ne_nil _ hnil] at hc
        exact hbreak c hc
    · rw [List.head?_append_of_ne_nil _ hne] at hc
      exact hbreak' c hc
    · have := length_pageSuffix_le path hk hj
      simp only [List.length_append, hpadPlain.2.2]
      omega
  have hnil : pagelessUri path ++ (pageSuffix path k ++ suffix) ≠ [] := by
    intro h
    have := huri.pageless_head
    rw [(List.append_eq_nil_iff.mp h).1] at this
    cases this
  have hlink := length_putStrFrom_append_le hshorter (s := pagelessUri path)
    (Or.inr (Or.inl ⟨by simp [h41, hs41], by simp [h41', hpadPlain.2.1]⟩)) []
  have hliteral := length_putStrFrom_append_literal hne hbreak' (u := pad)
    (by simp [h36', hpadPlain.1]) (by simp [h41', hpadPlain.2.1]) (pagelessUri path) []
  have horigin := @length_putStrFrom_add_le [] referenceBase (by simp)
    (pagelessUri path ++ pageSuffix path j)
  rw [List.append_assoc, putStr_of_ne_nil hnil]
  simp only [List.length_nil, hpadPlain.2.2, hbase.2.2] at hlink hliteral horigin
  omega

/-- The tagged links of a page take no more than is kept for its navigation. -/
theorem length_taggedNav_le (huri : SiteUri scheme host path) (hpath : PageTarget path)
    (hlang : LangTag lang) (title : Bytes) {k pages : ℕ} (hk : k < pages) (hpages : pages < 100) :
    (compileNodes none (taggedNav langParam lang path k pages)).length ≤
      navCost title path referenceBase := by
  obtain ⟨hprev, hnext⟩ := exists_neighbour hk
  have hprevLe : (compileNodes none (if 0 < k then
      [navLink prevLabel (tagLink langParam lang (setPageParam path (k - 1) 1100))] else [])).length ≤
      (compileNode (some referenceBase) (navLink prevLabel (setPageParam path 98 1100))).length := by
    split_ifs with h0
    · obtain ⟨i, hi, heq⟩ := hprev h0
      have := length_tagged_link_le huri hpath hlang (show i < 100 by omega) (Or.inl rfl)
      simpa [compileNodes, length_compileNode_navLink, withBase, heq] using this
    · simp [compileNodes]
  have hnextLe : (compileNodes none (if k < pages - 1 then
      [navLink nextLabel (tagLink langParam lang (setPageParam path (k + 1) 1100))] else [])).length ≤
      (compileNode (some referenceBase) (navLink nextLabel (setPageParam path 99 1100))).length := by
    split_ifs with hlast
    · obtain ⟨i, hi, heq⟩ := hnext hlast
      have := length_tagged_link_le huri hpath hlang (show i < 100 by omega) (Or.inr rfl)
      simpa [compileNodes, length_compileNode_navLink, withBase, heq] using this
    · simp [compileNodes]
  rw [taggedNav, compileNodes_append, List.length_append, navCost_eq]
  omega

end Links

/-! ## The cards of both ways -/

/-- The card a deck in Latin-1 is read as. -/
def cardOfDeck (deck : Bytes) : Node := cardOf (parseWml (cstr (deckSource deck true)))

/-- The first card among siblings is one of their nodes. -/
theorem every_findCard {P : Node → Prop} (n : Node) (hn : n.Every P) :
    ∀ card, findCard n = some card → card.Every P := by
  induction n using Tree.induction with
  | text t => exact fun card hcard => by cases hcard
  | elem name attrs kids ih =>
    intro card hcard
    rw [findCard] at hcard
    split_ifs at hcard
    · obtain rfl := Option.some.inj hcard
      exact hn
    · have hkids := fun k hk => ih k hk ((Tree.every_elem.mp hn).2 k hk)
      clear ih hn
      induction kids with
      | nil => cases hcard
      | cons k ks ihks =>
        rw [findCardIn, Option.or_eq_some_iff] at hcard
        rcases hcard with hcard | ⟨-, hcard⟩
        · exact hkids k (by simp) card hcard
        · exact ihks hcard fun l hl => hkids l (by simp [hl])

/-- What holds of every node below the root holds of every node of the blocks of the card. -/
theorem every_blocksOf {P : Node → Prop} {root : Node} (h : ∀ k ∈ root.kids, k.Every P) :
    ∀ b ∈ blocksOf (cardOf root), b.Every P := by
  have hall : root.Every fun n => ∀ k ∈ n.kids, k.Every P := by
    have hsub : ∀ n : Node, n.Every P → n.Every fun n => ∀ k ∈ n.kids, k.Every P := by
      intro n
      induction n using Tree.induction with
      | text t => exact fun _ k hk => by cases hk
      | elem name attrs kids ih =>
        intro hn
        have hkids := (Tree.every_elem.mp hn).2
        exact Tree.every_elem.mpr ⟨hkids, fun k hk => ih k hk (hkids k hk)⟩
    cases root with
    | text t => exact h
    | elem name attrs kids => exact Tree.every_elem.mpr ⟨h, fun k hk => hsub k (h k hk)⟩
  have hcard : ∀ k ∈ (cardOf root).kids, k.Every P := by
    unfold cardOf
    cases hfind : findCard root with
    | none => exact h
    | some card => exact (every_findCard root hall card hfind).root
  exact fun b hb => hcard b (List.mem_filter.mp hb).1

variable (req : EpochRequest) (body : Bytes)

/-- The deck the gateway is given. -/
def gatewayDeck : Bytes := sentDeck (tagLang req body)

/-- The card the gateway packs. -/
def gatewayCard : Node := cardOfDeck (gatewayDeck req body)

/-- The card HTTP packs: that of the deck before its breaks are closed and its lists are gone. -/
def httpCard : Node := cardOfDeck (utf8ToLatin1 (tagLang req body))

/-- What the gateway prepares of the page the request asks for. -/
def gatewayPage (origin : Bytes) : Paged :=
  pagedBuild (deckSource (gatewayDeck req body) true) (origin ++ req.wmlTarget) true
    (pageParam req.wmlTarget) wapPageBytes

/-- Closing breaks and stripping lists leaves the blocks and the title of the deck as they are. -/
def SameCard : Prop :=
  blocksOf (httpCard req body) = blocksOf (gatewayCard req body) ∧
    baseTitleOf (httpCard req body) = baseTitleOf (gatewayCard req body)

/-- What is kept for the navigation of a page. -/
def navRoom : ℕ :=
  navCost (baseTitleOf (gatewayCard req body) ++ titleSuffix) req.wmlTarget referenceBase

/-- A block of a deck that can be cut into pages, written, tagged and sent without a change. -/
structure SendableBlock (lang : Bytes) (b : Node) : Prop where
  /-- No text of it is interrupted by something that is not kept. -/
  uninterrupted : b.Every fun n => Uninterrupted n.kids
  /-- It is nested no deeper than the reader goes. -/
  depth_le : b.depth ≤ 61
  /-- Its links are settled. -/
  settled : ∀ marker ∈ linkMarkers, b.Every (Settled marker langParam lang)
  /-- No list is in it. -/
  listless : b.Every Listless
  /-- Its texts are in Latin-1. -/
  latin1 : b.Every Latin1Node
  /-- Its texts can be cut between words. -/
  trimmable : Trimmable b

/-- A deck that can be cut into pages, written, tagged and sent without a change to its blocks. -/
structure CutDeck : Prop where
  /-- The language. -/
  lang : LangTag req.lang
  /-- The target. -/
  target : PageTarget req.wmlTarget
  /-- The navigation leaves room for a page. -/
  room : navRoom req body + 128 ≤ wapPageBytes
  /-- The title is in Latin-1. -/
  title_latin1 : Latin1 (baseTitleOf (gatewayCard req body))
  /-- No link is in the title. -/
  title_quiet : findSub (lit "location.href='") (serEscape true (baseTitleOf (gatewayCard req body))) =
    none
  /-- The blocks. -/
  blocks : ∀ b ∈ blocksOf (gatewayCard req body), SendableBlock req.lang b

variable {req body}

/-- The blocks of such a deck go out as they were written. -/
theorem CutDeck.sentBlock (h : CutDeck req body) :
    ∀ b ∈ blocksOf (gatewayCard req body), SentBlock req.lang b := by
  intro b hb
  have hblock := h.blocks b hb
  have hshaped := every_blocksOf (parseWml_shaped _) b hb
  exact ⟨⟨(List.mem_filter.mp hb).2, hshaped.and hblock.uninterrupted, hblock.settled⟩,
    hblock.depth_le, hblock.listless, hblock.latin1⟩

/-- The title of a page, with its number in it. -/
theorem pageTitleOf_eq (baseTitle : Bytes) (k : ℕ) {pages : ℕ} (h1 : 1 < pages) :
    pageTitleOf baseTitle k pages =
      baseTitle ++ 32 :: (lit "(" ++ decimal (k + 1) ++ lit "/" ++ decimal pages ++ lit ")") := by
  have hopen : lit " (" = 32 :: lit "(" := by decide
  simp [pageTitleOf, h1, hopen]

/-- The number in a title is ASCII that is not escaped, and no part of a marker. -/
theorem titleNumber_bytes (k pages : ℕ) :
    ∀ c ∈ lit "(" ++ decimal (k + 1) ++ lit "/" ++ decimal pages ++ lit ")",
      (c ≠ 0 ∧ c < 128) ∧ (c ≠ 38 ∧ c ≠ 60 ∧ c ≠ 62 ∧ c ≠ 34) ∧ c ≠ 39 := by
  have hdigit : ∀ c, isDigit c = true →
      (c ≠ 0 ∧ c < 128) ∧ (c ≠ 38 ∧ c ≠ 60 ∧ c ≠ 62 ∧ c ≠ 34) ∧ c ≠ 39 := by decide +kernel
  have hdecimal : ∀ n : ℕ, ∀ c ∈ decimal n,
      (c ≠ 0 ∧ c < 128) ∧ (c ≠ 38 ∧ c ≠ 60 ∧ c ≠ 62 ∧ c ≠ 34) ∧ c ≠ 39 := fun n c hc =>
    hdigit c (isDigit_of_mem_decimal hc)
  have hmarks : ∀ c ∈ lit "(" ++ lit "/" ++ lit ")",
      (c ≠ 0 ∧ c < 128) ∧ (c ≠ 38 ∧ c ≠ 60 ∧ c ≠ 62 ∧ c ≠ 34) ∧ c ≠ 39 := by decide
  intro c hc
  simp only [List.mem_append] at hc
  rcases hc with (((hc | hc) | hc) | hc) | hc
  · exact hmarks c (by simp [hc])
  · exact hdecimal _ c hc
  · exact hmarks c (by simp [hc])
  · exact hdecimal _ c hc
  · exact hmarks c (by simp [hc])

/-- The title of a page of such a deck: it is in Latin-1, and no link is in it. -/
theorem CutDeck.pageTitle (h : CutDeck req body) (k : ℕ) {pages : ℕ} (h1 : 1 < pages) :
    Latin1 (pageTitleOf (baseTitleOf (gatewayCard req body)) k pages) ∧
      ∀ marker ∈ linkMarkers, Quiet marker langParam req.lang
        (serAttr (lit "title", pageTitleOf (baseTitleOf (gatewayCard req body)) k pages)) := by
  set base := baseTitleOf (gatewayCard req body) with hbase
  have hbytes := titleNumber_bytes k pages
  set number := lit "(" ++ decimal (k + 1) ++ lit "/" ++ decimal pages ++ lit ")" with hnumber
  have htitle : pageTitleOf base k pages = base ++ ([32] ++ number) := pageTitleOf_eq base k h1
  have hescape : serEscape true (base ++ ([32] ++ number)) = serEscape true base ++ 32 :: number := by
    have hplain : serEscape true ([32] ++ number) = [32] ++ number :=
      serEscape_unescaped true
        (List.forall_mem_append.mpr ⟨by decide, fun c hc => (hbytes c hc).2.1⟩)
    rw [serEscape_append, hplain]
    rfl
  rw [htitle]
  refine ⟨h.title_latin1.append (latin1_of_ascii (List.forall_mem_append.mpr
    ⟨by decide, fun c hc => (hbytes c hc).1⟩)), fun marker hmarker => quiet_of_findSub ?_⟩
  have hstem : ∀ stem : Bytes, stem.getLast? = some 61 → 34 ∉ stem →
      ¬ stem <:+ lit " " ++ lit "title" ++ lit "=" →
      findSub (stem ++ [34]) (serAttr (lit "title", base ++ ([32] ++ number))) = none := by
    intro stem hlast h34 hname
    refine findSub_serAttr h34 ⟨by decide, hname⟩ ?_
    -- the title ends in a bracket
    rw [hescape]
    rintro ⟨r, hr⟩
    have hend := congrArg List.getLast? hr
    have hclose : (serEscape true base ++ 32 :: number).getLast? = some 41 := by
      have hbracket : lit ")" = [41] := by decide
      have hsplit : serEscape true base ++ 32 :: number = (serEscape true base ++
          32 :: (lit "(" ++ decimal (k + 1) ++ lit "/" ++ decimal pages)) ++ [41] := by
        simp [hnumber, hbracket]
      rw [hsplit, List.getLast?_concat]
    have hne : stem ≠ [] := by
      rintro rfl
      cases hlast
    rw [hclose, List.getLast?_append_of_ne_nil _ hne, hlast] at hend
    revert hend
    decide
  have hcases : marker = lit "href=" ++ [34] ∨ marker = lit "action=" ++ [34] ∨
      marker = lit "location.href='" := by
    revert marker
    decide
  rcases hcases with rfl | rfl | rfl
  · exact hstem _ (by decide) (by decide) (by decide)
  · exact hstem _ (by decide) (by decide) (by decide)
  · rw [findSub_eq_none_iff]
    intro hinside
    have hquote : lit "=\"" = lit "=" ++ [34] ∧ lit "\"" = [34] := by decide
    have hsplit : serAttr (lit "title", base ++ ([32] ++ number)) =
        (lit " " ++ lit "title" ++ lit "=") ++ 34 :: ((serEscape true base ++ 32 :: number) ++
          34 :: []) := by
      rw [← hescape]
      simp [serAttr, hquote.1, hquote.2]
    rw [hsplit, infix_append_cons_iff (by decide), infix_append_cons_iff (by decide),
      infix_append_cons_iff (by decide)] at hinside
    rcases hinside with hinside | (hinside | hinside) | hinside
    · revert hinside
      decide
    · exact findSub_eq_none_iff.mp h.title_quiet hinside
    · exact (hbytes 39 (hinside.subset (by decide))).2.2 rfl
    · revert hinside
      decide

/-! ## The same page -/

section SamePage

variable {scheme host : Bytes}

/-- What the gateway prepares, with the measures of HTTP. -/
theorem gatewayPage_eq (huri : SiteUri scheme host req.wmlTarget)
    (hcuts : CutsAgree scheme host req.wmlTarget) :
    let pages := pagesOf (gatewayCard req body) [] req.wmlTarget wapPageBytes
    let k := clampPage (pageParam req.wmlTarget) pages.length
    let pg := gatewayPage req body (originOf scheme host)
    pg.pages = pages ∧ pg.page = k ∧ pg.baseTitle = baseTitleOf (gatewayCard req body) ∧
      pg.pageTitle = pageTitleOf (baseTitleOf (gatewayCard req body)) k pages.length := by
  have hpages := hcuts.pagesOf_eq huri.colon_notMem huri.slash_notMem huri.path_head
    (gatewayCard req body) wapPageBytes
  refine ⟨hpages, ?_, rfl, ?_⟩
  · exact congrArg (fun ps : List (List Node) => clampPage (pageParam req.wmlTarget) ps.length) hpages
  · exact congrArg (fun ps : List (List Node) => pageTitleOf (baseTitleOf (gatewayCard req body))
      (clampPage (pageParam req.wmlTarget) ps.length) ps.length) hpages

/-- The page of a cut deck, as `wml_paginate` writes it. -/
theorem wmlPaginate_eq (hcuts : CutsAgree scheme host req.wmlTarget) (hsame : SameCard req body) :
    let pages := pagesOf (gatewayCard req body) [] req.wmlTarget wapPageBytes
    let k := clampPage (pageParam req.wmlTarget) pages.length
    wmlPaginate (utf8ToLatin1 (tagLang req body)) true req.wmlTarget (pageParam req.wmlTarget)
        wapPageBytes latin1Name =
      if pages.length ≤ 1 then none
      else some (wmlDeck latin1Name
        (pageTitleOf (baseTitleOf (gatewayCard req body)) k pages.length)
        (pages.getD k [] ++ navOf req.wmlTarget k pages.length)) := by
  intro pages k
  have hpages : pagesOf (httpCard req body) [] req.wmlTarget wapPageBytes = pages := by
    simp only [pages, pagesOf, hsame.1, hsame.2]
  have hbuild : pagedBuild (deckSource (utf8ToLatin1 (tagLang req body)) true) req.wmlTarget false
      (pageParam req.wmlTarget) wapPageBytes =
      ⟨[], baseTitleOf (gatewayCard req body), pages, k, navOf req.wmlTarget k pages.length,
        pageTitleOf (baseTitleOf (gatewayCard req body)) k pages.length⟩ := by
    have hcard : cardOf (parseWml (cstr (deckSource (utf8ToLatin1 (tagLang req body)) true))) =
        httpCard req body := rfl
    simp only [pagedBuild, hcard, Bool.false_eq_true, if_false, (uriPath_relative hcuts.2).1, hpages,
      hsame.2]
    rfl
  simp only [wmlPaginate, hbuild]
  split_ifs with hone
  · rfl
  · simp only [wmlDeck, List.flatMap_append, List.append_assoc]

/-- A deck that fits one page is sent whole. -/
theorem pageDeck_whole (hcuts : CutsAgree scheme host req.wmlTarget) (hsame : SameCard req body)
    (hone : (pagesOf (gatewayCard req body) [] req.wmlTarget wapPageBytes).length ≤ 1) :
    pageDeck req (tagLang req body) = tagLang req body := by
  have hhttp := (wmlPaginate_eq hcuts hsame).trans (if_pos hone)
  rw [latin1Name] at hhttp
  rw [pageDeck, hhttp]
  split_ifs <;> rfl

/-- The card of a page that is sent. -/
theorem cardOfDeck_wmlDeck {title : Bytes} {blocks : List Node} (htitle : Latin1 title)
    (hblocks : ∀ b ∈ blocks, b.isElem = true ∧ ReadsBack b ∧ b.Every Listless ∧
      b.Every Latin1Node ∧ b.depth ≤ 61) :
    blocksOf (cardOfDeck (sentDeck (wmlDeck latin1Name title blocks))) = blocks ∧
      nodeAttr (cardOfDeck (sentDeck (wmlDeck latin1Name title blocks))) (lit "title") =
        some title := by
  have hsent := sentDeck_wmlDeck htitle fun b hb =>
    ⟨(hblocks b hb).1, (hblocks b hb).2.1, (hblocks b hb).2.2.1, (hblocks b hb).2.2.2.1⟩
  have hzero : 0 ∉ wmlDeck latin1Name title blocks := by
    rw [← hsent]
    exact zero_notMem_latin1ToUtf8 (zero_notMem_cstr _)
  have hcard : cardOfDeck (sentDeck (wmlDeck latin1Name title blocks)) =
      .elem (lit "card") [(lit "id", lit "p"), (lit "title", title)] blocks := by
    rw [cardOfDeck, deckSource, if_pos rfl, hsent, cstr_eq_self hzero, parseWml_wmlDeck (by decide)
      fun b hb => ⟨(hblocks b hb).1, (hblocks b hb).2.1, (hblocks b hb).2.2.2.2⟩]
    rfl
  rw [hcard]
  refine ⟨?_, rfl⟩
  rw [blocksOf, Tree.kids, List.filter_eq_self]
  exact fun b hb => (hblocks b hb).1

/-- The navigation goes out as it was written. -/
theorem sentBlock_taggedNav {lang uri : Bytes} {k pages : ℕ} (hlang : LangTag lang)
    (hlinks : ∀ i : ℕ, i < pages → PlainLink (setPageParam uri i 1100)) (hk : k < pages) {b : Node}
    (hb : b ∈ taggedNav langParam lang uri k pages) :
    b.isElem = true ∧ ReadsBack b ∧ b.Every Listless ∧ b.Every Latin1Node ∧ b.depth ≤ 61 := by
  obtain ⟨label, hlabel, i, hi, rfl⟩ := mem_taggedNav hk hb
  have hplain := (hlinks i hi).tagged hlang
  have hlatin1 : (navLink label (tagLink langParam lang (setPageParam uri i 1100))).Every Latin1Node := by
    have hlabelL1 : ∀ w ∈ words label, ∀ c ∈ w, c ≠ 0 ∧ c < 128 := by
      rcases hlabel with rfl | rfl <;> decide
    refine every_navLink.mpr ⟨by simp [navLink, Latin1Node], ?_,
      fun w hw => latin1_of_ascii (hlabelL1 w hw)⟩
    simpa [Latin1Node] using latin1_of_ascii fun c hc =>
      ⟨(hplain.ascii c hc).1, (hplain.ascii c hc).2.1⟩
  refine ⟨rfl, readsBack_navLink hlabel _, listless_navLink _ _, hlatin1, ?_⟩
  rw [depth_navLink]
  decide

/-- **A page of a cut deck fits**: its content within its limit, the title and the links within what is kept
for them. -/
theorem length_compileCard_cut {blocks : List Node} {k pages : ℕ}
    (huri : SiteUri scheme host req.wmlTarget) (hcut : CutDeck req body) (hk : k < pages) (h1 : 1 < pages)
    (h100 : pages < 100)
    (hfits : contentSize (baseTitleOf (gatewayCard req body) ++ titleSuffix) referenceBase blocks ≤
      pageLimit wapPageBytes (navRoom req body)) :
    (compileCard (pageTitleOf (baseTitleOf (gatewayCard req body)) k pages)
      (blocks ++ taggedNav langParam req.lang req.wmlTarget k pages) [] none).length ≤ wapPageBytes := by
  have hbase : BaseLe none (some referenceBase) := baseLe_none (by decide)
  have hcontent := length_compileNodes_le hbase blocks
  have hnav := length_taggedNav_le huri hcut.target hcut.lang
    (baseTitleOf (gatewayCard req body) ++ titleSuffix) hk h100
  have htitle := length_putStr_pageTitle_le (baseTitleOf (gatewayCard req body)) hk h1 h100
  have hroom := hcut.room
  have hcost : 12 ≤ navRoom req body := by
    have hprev := length_compileNode_navLink (some referenceBase) prevLabel
      (setPageParam req.wmlTarget 98 1100)
    have hnext := length_compileNode_navLink (some referenceBase) nextLabel
      (setPageParam req.wmlTarget 99 1100)
    rw [navRoom, navCost_eq]
    omega
  have hlimit := pageLimit_add_le wapPageBytes (navRoom req body)
  rw [sizeBound, max_eq_left hroom] at hlimit
  rw [length_compileCard, compileNodes_append, List.length_append]
  simp only [contentSize, compileNodes, List.append_nil, List.length_nil] at hfits ⊢
  change (putStr (pageTitleOf (baseTitleOf (gatewayCard req body)) k pages)).length ≤ _ at htitle
  change _ ≤ navRoom req body at hnav
  split_ifs <;> omega

/-- **The page of a cut deck** that is sent over HTTP. -/
theorem sentPage_cut (hpaged : req.wmlUnpaged = false) (huri : SiteUri scheme host req.wmlTarget)
    (hcuts : CutsAgree scheme host req.wmlTarget) (hsame : SameCard req body)
    {pages : List (List Node)} {k : ℕ}
    (hpages : pages = pagesOf (gatewayCard req body) [] req.wmlTarget wapPageBytes)
    (hk : k = clampPage (pageParam req.wmlTarget) pages.length) (h1 : 1 < pages.length)
    (h100 : pages.length < 100) (hcut : CutDeck req body) :
    let sent := cardOfDeck (sentDeck (pageDeck req (tagLang req body)))
    let title := pageTitleOf (baseTitleOf (gatewayCard req body)) k pages.length
    blocksOf sent = pages.getD k [] ++ taggedNav langParam req.lang req.wmlTarget k pages.length ∧
      nodeAttr sent (lit "title") = some title ∧
      ((compileCard title (blocksOf sent) [] none).length ≤ wapPageBytes ∨
        ∃ blk, pages.getD k [] = [blk] ∧ Uncuttable ⟨[], baseTitleOf (gatewayCard req body) ++
          titleSuffix, pageLimit wapPageBytes (navRoom req body), referenceBase⟩ blk) := by
  have hklt : k < pages.length := by
    rw [hk, clampPage]
    omega
  obtain ⟨hlatin1, hquiet⟩ := hcut.pageTitle k h1
  have hlinks : ∀ i : ℕ, i < pages.length → PlainLink (setPageParam req.wmlTarget i 1100) :=
    fun i hi => plainLink_setPageParam huri hcut.target (by omega)
  -- the blocks of the page go out as they were written
  have hmem : pages.getD k [] ∈ pages := by
    rw [List.getD_eq_getElem?_getD, List.getElem?_eq_getElem hklt, Option.getD_some]
    exact List.getElem_mem hklt
  have hblocks : ∀ b ∈ pages.getD k [], SentBlock req.lang b :=
    (keptBySplits_sentBlock req.lang).pagesOf [] req.wmlTarget wapPageBytes hcut.sentBlock _
      (hpages ▸ hmem)
  have hwritten : wmlPaginate (utf8ToLatin1 (tagLang req body)) true req.wmlTarget
      (pageParam req.wmlTarget) wapPageBytes latin1Name = some (wmlDeck latin1Name
        (pageTitleOf (baseTitleOf (gatewayCard req body)) k pages.length)
        (pages.getD k [] ++ navOf req.wmlTarget k pages.length)) := by
    have := wmlPaginate_eq hcuts hsame
    simp only [← hpages, ← hk] at this
    rwa [if_neg (by omega)] at this
  have hdeck : pageDeck req (tagLang req body) = wmlDeck latin1Name
      (pageTitleOf (baseTitleOf (gatewayCard req body)) k pages.length)
      (pages.getD k [] ++ taggedNav langParam req.lang req.wmlTarget k pages.length) := by
    have htagged := tagLinks_wmlDeck hcut.lang hquiet (fun b hb => (hblocks b hb).toTagKept) hklt hlinks
    rw [latin1Name] at hwritten
    simp only [pageDeck, hpaged, Bool.false_eq_true, if_false, hwritten]
    exact htagged
  intro sent title
  obtain ⟨hsentBlocks, hsentTitle⟩ := @cardOfDeck_wmlDeck _
    (pages.getD k [] ++ taggedNav langParam req.lang req.wmlTarget k pages.length) hlatin1 (by
      refine List.forall_mem_append.mpr ⟨fun b hb => ?_, fun b hb => ?_⟩
      · have h := hblocks b hb
        exact ⟨h.isElem, h.readsBack, h.listless, h.latin1, h.depth_le⟩
      · exact sentBlock_taggedNav hcut.lang hlinks hklt hb)
  rw [← hdeck] at hsentBlocks hsentTitle
  refine ⟨hsentBlocks, hsentTitle, ?_⟩
  -- the size: the content within its limit, the title and the links within what is kept for them
  have hpack := pagesOf_eq_pack (hpages ▸ h1)
  have hreference : measureBase [] = referenceBase := by decide
  rw [← hpages, hreference] at hpack
  have hbound := pack_bounded (fun b hb => (hcut.blocks b hb).trimmable) (Or.inl rfl)
    (pages.getD k []) ((congrArg (fun l => pages.getD k [] ∈ l) hpack).mp hmem)
  refine hbound.imp_left fun hfits => ?_
  rw [hsentBlocks]
  exact length_compileCard_cut huri hcut hklt h1 h100 hfits

/-- **The page HTTP sends is the page the gateway sends**: for a deck that fits one page, or one that
can be cut, the same blocks, followed over HTTP by the links the gateway adds itself, in no more
bytes than a page has, unless the page is a single block that cannot be cut. -/
theorem sentPage_eq_gatewayPage (hsite : req.site = none) (hpaged : req.wmlUnpaged = false)
    (huri : SiteUri scheme host req.wmlTarget) (hcuts : CutsAgree scheme host req.wmlTarget)
    (hsame : SameCard req body)
    (hdeck : cardSize (baseTitleOf (gatewayCard req body)) (blocksOf (gatewayCard req body)) []
        referenceBase ≤ wapPageBytes ∨
      1 < (gatewayPage req body (originOf scheme host)).pages.length ∧
        (gatewayPage req body (originOf scheme host)).pages.length < 100 ∧ CutDeck req body) :
    ∃ deck, retrofitBodyForEpoch req body epochWml = some deck ∧
      let pg := gatewayPage req body (originOf scheme host)
      let page := pg.pages.getD pg.page []
      let sent := cardOfDeck deck
      blocksOf sent = page ++ taggedNav langParam req.lang req.wmlTarget pg.page pg.pages.length ∧
      (nodeAttr sent (lit "title") = some pg.pageTitle ∨ baseTitleOf sent = pg.pageTitle) ∧
      ((compileCard pg.pageTitle (blocksOf sent) [] none).length ≤ wapPageBytes ∨
        ∃ blk, page = [blk] ∧ Uncuttable ⟨[], pg.baseTitle ++ titleSuffix,
          pageLimit wapPageBytes (navRoom req body), referenceBase⟩ blk) := by
  obtain ⟨hpages, hpage, hbaseTitle, htitle⟩ := @gatewayPage_eq req body scheme host huri hcuts
  have hreference : measureBase [] = referenceBase := by decide
  refine ⟨_, retrofitBodyForEpoch_wml req hsite body, ?_⟩
  intro pg page sent
  rcases hdeck with hwhole | ⟨h1, h100, hcut⟩
  · -- one page: the deck itself
    have hone : pagesOf (gatewayCard req body) [] req.wmlTarget wapPageBytes =
        [blocksOf (gatewayCard req body)] := by
      simp only [pagesOf, hreference, if_pos hwhole]
    have hsent : sent = gatewayCard req body := by
      simp only [sent, pageDeck_whole hcuts hsame (by rw [hone]; simp)]
      rfl
    have hk : clampPage (pageParam req.wmlTarget) 1 = 0 := by simp [clampPage]
    simp only [hone, List.length_cons, List.length_nil, Nat.zero_add, hk] at hpages hpage htitle
    have hpageEq : page = blocksOf (gatewayCard req body) := by
      simp only [page, pg, hpages, hpage]
      rfl
    have htitleEq : pg.pageTitle = baseTitleOf (gatewayCard req body) := htitle
    refine ⟨?_, Or.inr ?_, Or.inl ?_⟩
    · rw [hsent, hpageEq]
      simp [pg, hpage, hpages, taggedNav]
    · rw [hsent, htitleEq]
    · rw [hsent, htitleEq]
      exact (length_compileCard_le (baseLe_none (by decide)) _ _ _).trans hwhole
  · rw [hpages] at h1 h100
    obtain ⟨hblocks, hsentTitle, hsize⟩ := sentPage_cut hpaged huri hcuts hsame rfl rfl h1 h100 hcut
    have hpg : pg.pages = _ := hpages
    have hpgPage : pg.page = _ := hpage
    have hpgTitle : pg.pageTitle = _ := htitle
    have hpgBase : pg.baseTitle = _ := hbaseTitle
    simp only [page, hpg, hpgPage, hpgTitle, hpgBase]
    exact ⟨hblocks, Or.inl hsentTitle, hsize⟩

end SamePage

/-! ## Decks of two pages -/

/-- The request of a phone for the first page. -/
def phoneRequest : EpochRequest := ⟨none, lit "en", [], lit "/x", false, false⟩

/-- A block of one word. -/
def wordBlock : Node := .elem (lit "p") [] [.text (List.replicate 95 97)]

/-- A deck of nine blocks of one word each. -/
def nineDeck : Bytes := lit "<card>" ++ (List.replicate 9 (serNode wordBlock)).flatten ++ lit "</card>"

/-- A deck that no fixup changes. -/
structure UnchangedDeck (req : EpochRequest) where
  deck : Bytes
  tagged : tagLang req deck = deck
  closed : wmlCloseBr deck = deck
  stripped : wmlStripLists deck = deck
  folded : utf8ToLatin1 deck = deck

/-- The nine blocks are such a deck. -/
def nineBlocks : UnchangedDeck phoneRequest :=
  ⟨nineDeck, by decide +kernel, by decide +kernel, by decide +kernel, by decide +kernel⟩

theorem siteUri_phoneRequest : SiteUri (lit "http") (lit "h") phoneRequest.wmlTarget :=
  ⟨by decide, by decide, by decide, by decide, by decide,
    by decide, by decide⟩

theorem cutsAgree_phoneRequest : CutsAgree (lit "http") (lit "h") phoneRequest.wmlTarget := by
  unfold CutsAgree
  decide

/-- Such a deck has one card, for HTTP and for the gateway. -/
theorem UnchangedDeck.cards {req : EpochRequest} (d : UnchangedDeck req) :
    gatewayCard req d.deck = cardOfDeck d.deck ∧ httpCard req d.deck = cardOfDeck d.deck := by
  constructor
  · rw [gatewayCard, gatewayDeck, sentDeck, d.tagged, d.closed, d.stripped, d.folded]
  · rw [httpCard, d.tagged, d.folded]

/-- The card of the nine blocks. -/
theorem nineDeck_cards :
    gatewayCard phoneRequest nineDeck = .elem (lit "card") [] (List.replicate 9 wordBlock) ∧
      httpCard phoneRequest nineDeck = .elem (lit "card") [] (List.replicate 9 wordBlock) := by
  have hcard : cardOfDeck nineDeck = .elem (lit "card") [] (List.replicate 9 wordBlock) := by
    decide +kernel
  rw [← hcard]
  exact nineBlocks.cards

/-- The first page of the nine blocks, over HTTP and through the gateway. -/
theorem nineDeck_samePage :
    ∃ deck, retrofitBodyForEpoch phoneRequest nineDeck epochWml = some deck ∧
      let pg := gatewayPage phoneRequest nineDeck (originOf (lit "http") (lit "h"))
      let page := pg.pages.getD pg.page []
      let sent := cardOfDeck deck
      blocksOf sent = page ++
        taggedNav langParam phoneRequest.lang phoneRequest.wmlTarget pg.page pg.pages.length ∧
      (nodeAttr sent (lit "title") = some pg.pageTitle ∨ baseTitleOf sent = pg.pageTitle) ∧
      ((compileCard pg.pageTitle (blocksOf sent) [] none).length ≤ wapPageBytes ∨
        ∃ blk, page = [blk] ∧ Uncuttable ⟨[], pg.baseTitle ++ titleSuffix,
          pageLimit wapPageBytes (navRoom phoneRequest nineDeck), referenceBase⟩ blk) := by
  have huri := siteUri_phoneRequest
  have hcuts := cutsAgree_phoneRequest
  obtain ⟨hcard, hhttp⟩ := nineDeck_cards
  have hblock : (wordBlock.Every fun n => Uninterrupted n.kids) ∧ wordBlock.depth ≤ 61 ∧
      (∀ marker ∈ linkMarkers, wordBlock.Every (Settled marker langParam phoneRequest.lang)) ∧
      wordBlock.Every Listless ∧ wordBlock.Every Latin1Node := by decide +kernel
  have hcut : CutDeck phoneRequest nineDeck :=
    { lang := ⟨by decide, by decide, by decide⟩
      target := ⟨by decide, by decide⟩
      room := by
        rw [navRoom, hcard]
        decide +kernel
      title_latin1 := by
        rw [hcard]
        decide +kernel
      title_quiet := by
        rw [hcard]
        decide
      blocks := fun b hb => by
        obtain ⟨h1, h2, h3, h4, h5⟩ := hblock
        rw [hcard] at hb
        obtain rfl := List.eq_of_mem_replicate (List.mem_filter.mp hb).1
        exact ⟨h1, h2, h3, h4, h5, trimmable_of_plain (by decide)⟩ }
  have hpages : 1 < (gatewayPage phoneRequest nineDeck (originOf (lit "http") (lit "h"))).pages.length ∧
      (gatewayPage phoneRequest nineDeck (originOf (lit "http") (lit "h"))).pages.length < 100 := by
    rw [(@gatewayPage_eq phoneRequest nineDeck _ _ huri hcuts).1, hcard]
    decide +kernel
  exact sentPage_eq_gatewayPage rfl rfl huri hcuts (by rw [SameCard, hcard, hhttp]; exact ⟨rfl, rfl⟩)
    (Or.inr ⟨hpages.1, hpages.2, hcut⟩)

/-- The nine blocks behind one that holds a character Latin-1 lacks. -/
def euroDeck : Bytes :=
  lit "<card><p>&#8364;</p>" ++ (List.replicate 9 (serNode wordBlock)).flatten ++ lit "</card>"

/-- The block that holds that character. -/
def euroBlock : Node := .elem (lit "p") [] [.text [226, 130, 172]]

/-- No fixup changes it either. -/
def tenBlocks : UnchangedDeck phoneRequest :=
  ⟨euroDeck, by decide +kernel, by decide +kernel, by decide +kernel, by decide +kernel⟩

theorem tagLang_euroDeck : tagLang phoneRequest euroDeck = euroDeck := tenBlocks.tagged

theorem euroDeck_cards :
    gatewayCard phoneRequest euroDeck =
        .elem (lit "card") [] (euroBlock :: List.replicate 9 wordBlock) ∧
      httpCard phoneRequest euroDeck =
        .elem (lit "card") [] (euroBlock :: List.replicate 9 wordBlock) := by
  have hcard : cardOfDeck euroDeck =
      .elem (lit "card") [] (euroBlock :: List.replicate 9 wordBlock) := by decide +kernel
  rw [← hcard]
  exact tenBlocks.cards

/-- Its pages. -/
theorem euroDeck_pages :
    pagesOf (gatewayCard phoneRequest euroDeck) [] phoneRequest.wmlTarget wapPageBytes =
      [euroBlock :: List.replicate 7 wordBlock, List.replicate 2 wordBlock] := by
  rw [euroDeck_cards.1]
  decide +kernel

/-- The first of them as it is written for HTTP. -/
def euroPage : Bytes :=
  wmlDeck latin1Name (lit " (1/2)") (euroBlock :: List.replicate 7 wordBlock ++
    taggedNav langParam phoneRequest.lang phoneRequest.wmlTarget 0 2)

theorem pageDeck_euroDeck : pageDeck phoneRequest euroDeck = euroPage := by
  have hsame : SameCard phoneRequest euroDeck := by
    rw [SameCard, euroDeck_cards.1, euroDeck_cards.2]
    exact ⟨rfl, rfl⟩
  have hwritten := wmlPaginate_eq cutsAgree_phoneRequest hsame
  have hk : clampPage (pageParam phoneRequest.wmlTarget) 2 = 0 := by decide
  have hbase : baseTitleOf (gatewayCard phoneRequest euroDeck) = [] := by
    rw [euroDeck_cards.1]
    decide
  rw [euroDeck_pages] at hwritten
  simp only [List.length_cons, List.length_nil, zero_add, Nat.reduceAdd, Nat.reduceLeDiff, if_false,
    hk, hbase, tagLang_euroDeck, latin1Name] at hwritten
  rw [pageDeck, if_neg (by decide), hwritten]
  unfold euroPage
  decide +kernel

/-- The first block of that page, over HTTP. -/
theorem euroDeck_http :
    (blocksOf (cardOfDeck (sentDeck (pageDeck phoneRequest euroDeck)))).head? ≠ some euroBlock := by
  have hbr : wmlCloseBr euroPage = euroPage := by decide +kernel
  have hlists : wmlStripLists euroPage = euroPage := by decide +kernel
  rw [pageDeck_euroDeck, sentDeck, hbr, hlists]
  decide +kernel

/-- And through the gateway. -/
theorem euroDeck_gateway :
    ((gatewayPage phoneRequest euroDeck (originOf (lit "http") (lit "h"))).pages.getD 0 []).head? =
      some euroBlock := by
  rw [(@gatewayPage_eq phoneRequest euroDeck _ _ siteUri_phoneRequest cutsAgree_phoneRequest).1,
    euroDeck_pages]
  rfl

/-- The page is not the same for every deck: a character Latin-1 lacks is another one over HTTP. -/
theorem euroDeck_not_samePage :
    ¬ (gatewayPage phoneRequest euroDeck (originOf (lit "http") (lit "h"))).pages.getD 0 [] <+:
      blocksOf (cardOfDeck ((retrofitBodyForEpoch phoneRequest euroDeck epochWml).getD [])) := by
  rw [retrofitBodyForEpoch_wml phoneRequest rfl, Option.getD_some, tagLang_euroDeck]
  rintro ⟨rest, hrest⟩
  have hhead := congrArg List.head? hrest
  rw [List.head?_append, euroDeck_gateway] at hhead
  exact euroDeck_http hhead.symm

end BoatRudder.Utils
