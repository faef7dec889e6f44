import BoatRudder.WapGateway.PageBound

/-! # The same cuts for HTTP and for the gateway

`wml_paginate` packs a deck with its address relative, `wbxml_compile_page` with the absolute one.
They cut every deck at the same places as long as the origin is no longer than the reference one and
no `://` stands in the path and query; otherwise some deck is cut differently. -/

namespace BoatRudder.Wbxml

open Wml

variable {host path scheme : Bytes} {j : ℕ}

/-- Every deck is cut into the same pages whether it is asked for as `path` over HTTP or as
`scheme://host` and `path` through the gateway. -/
def SameCuts (scheme host path : Bytes) : Prop :=
  ∀ (wml : Bytes) (latin1 : Bool) (page : ℤ) (pageBytes : ℕ),
    (pagedBuild (deckSource wml latin1) (originOf scheme host ++ path) true page pageBytes).pages =
      (pagedBuild (deckSource wml latin1) path false page pageBytes).pages

/-- The origin is measured as the reference one is, and the relative address is its own path. -/
def CutsAgree (scheme host path : Bytes) : Prop :=
  (originOf scheme host).length ≤ referenceBase.length ∧ findSub (lit "://") path = none

/-- Under that condition every card is cut at the same places. -/
theorem CutsAgree.pagesOf_eq (h : CutsAgree scheme host path)
    (hscheme : 58 ∉ scheme) (hhost : 47 ∉ host)
    (hpath : path.head? = some 47) (card : Node) (pageBytes : ℕ) :
    pagesOf card (uriBase (originOf scheme host ++ path) 512)
      (uriPath (originOf scheme host ++ path)) pageBytes = pagesOf card [] path pageBytes := by
  have hlen : referenceBase.length = 25 := by decide
  have horigin := h.1
  have hbase : uriBase (originOf scheme host ++ path) 512 = originOf scheme host := by
    rw [uriBase_origin hscheme hhost hpath, List.take_of_length_le (by omega)]
  have hmeasure : measureBase (originOf scheme host) = measureBase [] := by
    rw [measureBase, measureBase, if_neg (by omega), if_neg (by simp)]
  rw [hbase, uriPath_origin hscheme hhost hpath]
  simp only [pagesOf, hmeasure]

/-- **Under that condition every deck is cut at the same places.** -/
theorem CutsAgree.sameCuts (h : CutsAgree scheme host path)
    (hscheme : 58 ∉ scheme) (hhost : 47 ∉ host)
    (hpath : path.head? = some 47) : SameCuts scheme host path := by
  intro wml latin1 page pageBytes
  simp only [pagedBuild, (uriPath_relative h.2).1, if_true, Bool.false_eq_true, if_false,
    h.pagesOf_eq hscheme hhost hpath]

/-! ## A long origin -/

/-- A deck of four links. -/
def linkDeck : Bytes := (List.replicate 4 (lit "<a href=\"/\"/>")).flatten

/-- One of its links. -/
def rootLink : Node := .elem (lit "a") [(lit "href", lit "/")] []

/-- What the deck is packed from. -/
theorem linkDeck_card : let card := cardOf (parseWml (cstr (deckSource linkDeck false)))
    blocksOf card = List.replicate 4 rootLink ∧ baseTitleOf card = [] := by
  decide +kernel

/-- The size of a link to the root. -/
theorem length_compileNode_rootLink {base : Bytes} (h : 36 ∉ base) :
    (compileNode (some base) rootLink).length = base.length + 6 := by
  have hcode : elementCode (lit "a") = some 0x1C := by decide
  have hvalue : valueAttrCode (lit "href") (lit "/") = none := by decide
  have hattr : attrCode (lit "href") = some attrHref := by decide
  have hput : (putStr (withBase (some base) attrHref (lit "/"))).length = base.length + 3 := by
    have hslash : lit "/" = [47] := by decide
    have := length_putStr_plain (s := base ++ [47]) (by simp [h])
    simpa [withBase, hslash] using this
  simp only [rootLink, compileNode, compileNodes, hcode, compileAttr, hvalue, hattr,
    List.flatMap_cons, List.flatMap_nil, List.append_nil, element, closed, if_true,
    List.cons_ne_nil, if_false, List.length_cons, List.length_append, List.length_nil, hput]

/-- The size of the whole deck. -/
theorem length_compileNodes_linkDeck (base : Bytes) (h : 36 ∉ base) :
    (compileNodes (some base) (List.replicate 4 rootLink)).length = 4 * (base.length + 6) := by
  have := length_compileNode_rootLink h
  simp only [List.replicate, compileNodes, List.length_append, List.length_nil, this]
  omega

/-- **Behind an origin longer than the reference one a deck can be cut elsewhere**: four links that
just fit one page with the reference origin do not with the real one. -/
theorem not_sameCuts_of_long (hsite : SiteUri scheme host path)
    (hlong : referenceBase.length < (originOf scheme host).length) :
    ¬ SameCuts scheme host path := by
  intro hsame
  obtain ⟨hblocks, htitle⟩ := linkDeck_card
  have hlen : referenceBase.length = 25 := by decide
  have hplain : 36 ∉ originOf scheme host := fun hmem =>
    (hsite.origin_clean 36 hmem).2.2.2 rfl
  have hpages := hsame linkDeck false 0 140
  have hbase : uriBase (originOf scheme host ++ path) 512 = originOf scheme host := by
    rw [uriBase_origin hsite.colon_notMem hsite.slash_notMem hsite.path_head,
      List.take_of_length_le hsite.origin_le]
  have hmeasure : measureBase (originOf scheme host) = originOf scheme host := if_pos hlong
  have hempty : (putStr []).length = 2 := rfl
  -- over HTTP the deck is one page
  have hhttp : (pagedBuild (deckSource linkDeck false) path false 0 140).pages =
      [List.replicate 4 rootLink] := by
    have hreference : measureBase [] = referenceBase := by decide
    have hsize := length_compileNodes_linkDeck referenceBase (by decide)
    simp only [pagedBuild, pagesOf, hblocks, htitle, cardSize, length_compileCard, Bool.false_eq_true,
      if_false, hreference, compileNodes, List.append_nil, hempty, List.length_nil, Nat.add_zero,
      hsize, hlen]
    rw [if_pos]
    split_ifs <;> omega
  rw [hhttp] at hpages
  -- through the gateway it is packed, and no page of more than one block exceeds the limit
  have hsize := length_compileNodes_linkDeck _ hplain
  have hbig : ¬ cardSize [] (List.replicate 4 rootLink) [] (originOf scheme host) ≤ 140 := by
    have := contentSize_le_cardSize [] (originOf scheme host) (List.replicate 4 rootLink)
    rw [contentSize, hsize, hempty] at this
    omega
  simp only [pagedBuild, pagesOf, hblocks, htitle, hbase, hmeasure, if_true, if_neg hbig] at hpages
  split_ifs at hpages with hnone
  · simp at hpages
  · have htrim : ∀ blk ∈ List.replicate 4 rootLink, Trimmable blk := by
      intro blk hblk
      obtain rfl := List.eq_of_mem_replicate hblk
      simp [Trimmable, rootLink, Tree.kids]
    have hbound := pack_bounded htrim (Or.inl rfl) (List.replicate 4 rootLink)
      (hpages ▸ List.mem_singleton_self _)
    rcases hbound with hfits | ⟨blk, hone, -⟩
    · have hlimit : ∀ cost, pageLimit 140 cost ≤ 140 := by
        intro cost
        unfold pageLimit
        split_ifs <;> omega
      have := hfits.trans (hlimit _)
      rw [contentSize, hsize] at this
      omega
    · simp [List.replicate] at hone

/-! ## An address in the address -/

/-- A line break. -/
def brNode : Node := .elem (lit "br") [] []

/-- A deck of `n` line breaks. -/
def brDeck (n : ℕ) : Bytes := (List.replicate n (lit "<br/>")).flatten

/-- One turn of the reader takes in a line break. -/
theorem parseStep_br (s : Bytes) (st : Stack) :
    parseStep (lit "<br/>" ++ s) st = (s, st.add brNode) := by
  have hlit : lit "<br/>" = [60, 98, 114, 47, 62] := by decide
  have hbr : lit "br" = [98, 114] := by decide
  have hname : isNameChar 98 = true ∧ isNameChar 114 = true ∧ isNameChar 47 = false := by decide
  have hcomment : lit "<!--" = [60, 33, 45, 45] := by decide
  simp [hlit, hbr, parseStep, hcomment, hname, readOpenTag, parseAttrs_slash, parseAttrs_gt, tagName,
    brNode]

/-- The deck is its line breaks, straight in the root. -/
theorem parseWml_brDeck (n : ℕ) :
    parseWml (brDeck n) = .elem (lit "#root") [] (List.replicate n brNode) := by
  have hloop : ∀ (n : ℕ) (done : List Node), parseLoop (brDeck n) ⟨⟨lit "#root", [], done⟩, []⟩ =
      .elem (lit "#root") [] (done ++ List.replicate n brNode) := by
    intro n
    induction n with
    | zero =>
      intro done
      rw [brDeck, parseLoop]
      simp [closeAll, Frame.close]
    | succ n ih =>
      intro done
      have hcons : brDeck (n + 1) = lit "<br/>" ++ brDeck n := by
        simp [brDeck, List.replicate_succ]
      have hne : lit "<br/>" ++ brDeck n ≠ [] := by
        have hlit : lit "<br/>" ≠ [] := by decide
        simp [hlit]
      rw [hcons, parseLoop, dif_neg hne, parseStep_br]
      simp only [Stack.add, Frame.add]
      rw [ih, List.replicate_succ, List.append_assoc, List.singleton_append]
  exact hloop n []

/-- What the deck is packed from. -/
theorem brDeck_card (n : ℕ) : let card := cardOf (parseWml (cstr (deckSource (brDeck n) false)))
    blocksOf card = List.replicate n brNode ∧ baseTitleOf card = [] := by
  have hclean : 0 ∉ brDeck n := by
    have hlit : 0 ∉ lit "<br/>" := by decide
    intro h
    obtain ⟨s, hs, h0⟩ := List.mem_flatten.mp h
    exact hlit (List.eq_of_mem_replicate hs ▸ h0)
  have hcard : cardOf (.elem (lit "#root") [] (List.replicate n brNode)) =
      .elem (lit "#root") [] (List.replicate n brNode) := by
    have hin : ∀ n, findCardIn (List.replicate n brNode) = none := by
      intro n
      induction n with
      | zero => rfl
      | succ n ih =>
        have hbr : findCard brNode = none := by decide
        rw [List.replicate_succ, findCardIn, hbr, ih]
        rfl
    have hroot : eqNoCase (lit "#root") (lit "card") = false := by decide
    rw [cardOf, findCard, hroot, hin]
    rfl
  intro card
  have heq : card = .elem (lit "#root") [] (List.replicate n brNode) := by
    simp only [card, deckSource, Bool.false_eq_true, if_false, cstr_eq_self hclean,
      parseWml_brDeck, hcard]
  rw [heq]
  exact ⟨by simp [blocksOf, Tree.kids, brNode, Tree.isElem], rfl⟩

/-- A line break takes one byte. -/
theorem length_compileNodes_br (base : Option Bytes) (n : ℕ) :
    (compileNodes base (List.replicate n brNode)).length = n := by
  have hbr : compileNode base brNode = [0x26] := by
    have hcode : elementCode (lit "br") = some 0x26 := by decide
    simp [brNode, compileNode, compileNodes, hcode, element, closed]
  induction n with
  | zero => rfl
  | succ n ih =>
    rw [List.replicate_succ, compileNodes, hbr, List.length_append, ih, List.length_singleton]
    omega

/-- The size of a card of line breaks. -/
theorem cardSize_br (title base : Bytes) {n : ℕ} (hn : 0 < n) :
    cardSize title (List.replicate n brNode) [] base = 14 + (putStr title).length + n := by
  have hlen := length_compileNodes_br (some base) n
  rw [cardSize, length_compileCard, if_neg, hlen]
  · simp [compileNodes]
  · intro h
    have := congrArg List.length (List.append_eq_nil_iff.mp h).1
    rw [hlen, List.length_nil] at this
    omega

/-- **The first page is filled to the limit.** -/
theorem pack_br_head {title : Bytes} (base : Bytes) {limit : ℕ} (n : ℕ)
    (hlimit : 14 + (putStr title).length < limit) (hj : 14 + (putStr title).length + j ≤ limit)
    (hn : limit ≤ 14 + (putStr title).length + j + n) :
    (pack title limit base (List.replicate n brNode) (List.replicate j brNode)).head? =
      some (List.replicate (limit - (14 + (putStr title).length)) brNode) := by
  induction n generalizing j with
  | zero =>
    have hj' : j = limit - (14 + (putStr title).length) := by omega
    rw [List.replicate_zero, pack, if_neg, List.head?_cons, hj']
    intro h
    have := congrArg List.length h
    rw [List.length_replicate, List.length_nil] at this
    omega
  | succ n ih =>
    have hsnoc : List.replicate j brNode ++ [brNode] = List.replicate (j + 1) brNode :=
      List.replicate_succ'.symm
    have hsize := cardSize_br title base (n := j + 1) (by omega)
    rw [List.replicate_succ, pack]
    by_cases hfits : pageSizeWith title (List.replicate j brNode) brNode base ≤ limit
    · rw [if_pos hfits, hsnoc]
      rw [pageSizeWith, hsnoc, hsize] at hfits
      exact ih (by omega) (by omega)
    · rw [if_neg hfits]
      rw [pageSizeWith, hsnoc, hsize] at hfits
      have hj' : j = limit - (14 + (putStr title).length) := by omega
      have hne : List.replicate j brNode ≠ [] := by
        intro h
        have := congrArg List.length h
        rw [List.length_replicate, List.length_nil] at this
        omega
      split
      · next h => cases splitToFit_of_splitOff h
      · next h => cases splitToFit_of_splitOff h
      · rw [if_neg hne, List.head?_cons, hj']

/-- The first of the pages the deck is packed into. -/
theorem pagesOf_brDeck_head {card : Node} {n : ℕ} (base path : Bytes) {pageBytes : ℕ}
    (hcard : blocksOf card = List.replicate n brNode ∧ baseTitleOf card = [])
    (hn : pageBytes ≤ n) (hcost : navCost titleSuffix path (measureBase base) + 128 < pageBytes) :
    (pagesOf card base path pageBytes).head? = some (List.replicate
      (pageBytes - navCost titleSuffix path (measureBase base) - 24) brNode) := by
  have htitle : 14 + (putStr titleSuffix).length = 24 := by decide +kernel
  have hempty : (putStr []).length = 2 := rfl
  have hbig : ¬ cardSize [] (List.replicate n brNode) [] (measureBase base) ≤ pageBytes := by
    rw [cardSize_br _ _ (by omega), hempty]
    omega
  have hlimit : pageLimit pageBytes (navCost titleSuffix path (measureBase base)) =
      pageBytes - navCost titleSuffix path (measureBase base) := if_pos hcost
  have hhead : (pack titleSuffix (pageBytes - navCost titleSuffix path (measureBase base))
      (measureBase base) (List.replicate n brNode) []).head? = some (List.replicate
        (pageBytes - navCost titleSuffix path (measureBase base) -
          (14 + (putStr titleSuffix).length)) brNode) :=
    pack_br_head (measureBase base) n (j := 0) (by omega) (by omega) (by omega)
  rw [htitle] at hhead
  simp only [pagesOf, hcard.1, hcard.2, List.nil_append, if_neg hbig, hlimit]
  split_ifs with hnone
  · rw [hnone] at hhead
    cases hhead
  · exact hhead

/-- A path the necessity of the condition is shown for: without fragment, page parameter and
variables. -/
structure PlainPath (path : Bytes) : Prop where
  /-- No `$`. -/
  dollar : 36 ∉ path
  /-- No `#`. -/
  hash : 35 ∉ path
  /-- No `__page=`. -/
  param : splitPageParam [] path = none

/-- What the parameter of a link to page 98 or 99 takes. -/
theorem length_pageSuffix (uri : Bytes) (hj : j = 98 ∨ j = 99) :
    (pageSuffix uri j).length = 10 := by
  have hname : pageParamName.length = 7 := by decide
  have hamp : (lit "&").length = 1 := by decide
  have hmark : (lit "?").length = 1 := by decide
  have hlen : (decimal j).length = 2 := by rcases hj with rfl | rfl <;> decide
  rw [pageSuffix, if_neg (by omega)]
  split_ifs <;> simp [hname, hamp, hmark, hlen]

/-- A shorter path without variables takes less in a link. -/
theorem length_link_lt {p : Bytes} (hsite : SiteUri scheme host path)
    (hplain : PlainPath path) (hsub : p ⊆ path) (hlen : p.length < path.length)
    (hj : j = 98 ∨ j = 99) :
    (putStr (withBase (some referenceBase) attrHref (setPageParam p j 1100))).length <
      (putStr (withBase (some referenceBase) attrHref (setPageParam path j 1100))).length := by
  have hj64 : (decimal j).length ≤ 64 := by rcases hj with rfl | rfl <;> decide
  have href : 36 ∉ referenceBase := by decide
  have hsuffix : ∀ uri, 36 ∉ pageSuffix uri j := fun uri =>
    (pageSuffix_plain uri (by omega)).2.1
  have hpageless : pagelessUri path = path := by
    have htotal := hsite.length_le
    rw [List.length_append] at htotal
    have hfragment : withoutFragment path = path := by
      rw [withoutFragment, List.take_of_length_le (by omega), List.takeWhile_eq_self_iff]
      intro b hb
      simpa using fun h35 : b = 35 => hplain.hash (h35 ▸ hb)
    rw [pagelessUri, hfragment, dropPageParam, hplain.param]
  -- the shorter one: its own bytes and at most the reference origin
  have hshort : (putStr (withBase (some referenceBase) attrHref (setPageParam p j 1100))).length ≤
      referenceBase.length + p.length + 12 := by
    have hp : pagelessUri p ⊆ path := fun b hb =>
      hsub ((List.take_prefix _ _).subset ((List.takeWhile_prefix _).subset
        (dropPageParam_subset _ hb)))
    have hp36 : 36 ∉ pagelessUri p := fun h => hplain.dollar (hp h)
    have hple : (pagelessUri p).length ≤ p.length := by
      refine (length_dropPageParam_le _).trans ((List.takeWhile_prefix _).length_le.trans ?_)
      exact (List.take_prefix _ _).length_le
    have hsuf := length_pageSuffix p hj
    rw [setPageParam_eq _ hj64]
    simp only [withBase]
    split_ifs
    · rw [length_putStr_plain (by simp [hp36, hsuffix, href])]
      simp only [List.length_append]
      omega
    · rw [length_putStr_plain (by simp [hp36, hsuffix])]
      simp only [List.length_append]
      omega
  have hfull : (putStr (withBase (some referenceBase) attrHref (setPageParam path j 1100))).length =
      referenceBase.length + path.length + 12 := by
    have hsuf := length_pageSuffix path hj
    rw [hsite.withBase_setPageParam _ hj, hpageless,
      length_putStr_plain (by simp [hplain.dollar, hsuffix, href])]
    simp only [List.length_append]
    omega
  omega

/-- Past an address in its query, a path is shorter and has no other bytes. -/
theorem uriPath_shorter (hpath : path.head? = some 47) (h : findSub (lit "://") path ≠ none) :
    uriPath path ⊆ path ∧ (uriPath path).length < path.length := by
  obtain ⟨i, hi⟩ := Option.ne_none_iff_exists'.mp h
  have hmem : 47 ∈ path := List.mem_of_mem_head? hpath
  have hlen : (lit "://").length = 3 := by decide
  have hle : i + 3 ≤ path.length := by
    rcases findSub_add_le hi with hle | hnil
    · rwa [hlen] at hle
    · simp [hnil] at hlen
  have hsuf : (path.drop (i + 3)).dropWhile (· ≠ 47) <:+ path :=
    (List.dropWhile_suffix _).trans (List.drop_suffix _ _)
  have hshort : ((path.drop (i + 3)).dropWhile (· ≠ 47)).length ≤ path.length - (i + 3) := by
    have := length_dropWhile_le (· ≠ 47) (path.drop (i + 3))
    rwa [List.length_drop] at this
  rw [uriPath, hi]
  simp only
  split_ifs with hnil
  · have hslash : lit "/" = [47] := by decide
    rw [hslash]
    exact ⟨by simpa using hmem, by simp only [List.length_singleton]; omega⟩
  · exact ⟨hsuf.subset, by omega⟩

/-- **With an address in the path a deck can be cut elsewhere**: over HTTP the part of the path
before that address is not measured. -/
theorem not_sameCuts_of_nested (hsite : SiteUri scheme host path)
    (hplain : PlainPath path) (hshort : (originOf scheme host).length ≤ referenceBase.length)
    (hnested : findSub (lit "://") path ≠ none) : ¬ SameCuts scheme host path := by
  intro hsame
  obtain ⟨hsub, hlen⟩ := uriPath_shorter hsite.path_head hnested
  have hbase : uriBase (originOf scheme host ++ path) 512 = originOf scheme host := by
    rw [uriBase_origin hsite.colon_notMem hsite.slash_notMem hsite.path_head,
      List.take_of_length_le hsite.origin_le]
  have hmeasure : measureBase (originOf scheme host) = referenceBase := if_neg (by omega)
  have hreference : measureBase [] = referenceBase := by decide
  have hcost : navCost titleSuffix (uriPath path) referenceBase <
      navCost titleSuffix path referenceBase := by
    have h98 := length_link_lt hsite hplain hsub hlen (Or.inl rfl)
    have h99 := length_link_lt hsite hplain hsub hlen (Or.inr rfl)
    have hcast : ((98 : ℕ) : ℤ) = 98 ∧ ((99 : ℕ) : ℤ) = 99 := ⟨rfl, rfl⟩
    rw [hcast.1] at h98
    rw [hcast.2] at h99
    rw [navCost_eq, navCost_eq]
    simp only [length_compileNode_navLink]
    omega
  -- a deck of as many line breaks as a page may have bytes, just past the floor of the limit
  set n := navCost titleSuffix path referenceBase + 129 with hn
  have hpages := hsame (brDeck n) false 0 n
  have hcard := brDeck_card n
  have hgateway := pagesOf_brDeck_head (originOf scheme host) path hcard (le_refl n)
    (by rw [hmeasure]; omega)
  have hhttp := pagesOf_brDeck_head [] (uriPath path) hcard (le_refl n)
    (by rw [hreference]; omega)
  simp only [pagedBuild, hbase, uriPath_origin hsite.colon_notMem hsite.slash_notMem
    hsite.path_head, if_true, Bool.false_eq_true, if_false] at hpages
  rw [hpages, hhttp, hmeasure, hreference] at hgateway
  have := congrArg List.length (Option.some.inj hgateway)
  simp only [List.length_replicate] at this
  omega

/-! ## The condition -/

/-- **HTTP and the gateway cut every deck at the same places exactly when the origin is no longer
than the reference one and no `://` stands in the path and query.** That it is enough holds for all
addresses; that it is needed, for those within the buffers whose path is plain. -/
theorem sameCuts_iff (scheme host path : Bytes) (hscheme : 58 ∉ scheme)
    (hhost : 47 ∉ host) (hpath : path.head? = some 47) :
    (CutsAgree scheme host path → SameCuts scheme host path) ∧
      (SiteUri scheme host path → PlainPath path →
        (SameCuts scheme host path ↔ CutsAgree scheme host path)) := by
  refine ⟨fun h => h.sameCuts hscheme hhost hpath, fun hsite hplain => ?_⟩
  constructor
  · intro hsame
    have hshort : (originOf scheme host).length ≤ referenceBase.length := by
      by_contra hlong
      exact not_sameCuts_of_long hsite (not_le.mp hlong) hsame
    refine ⟨hshort, ?_⟩
    by_contra hnested
    exact not_sameCuts_of_nested hsite hplain hshort hnested hsame
  · exact fun h => h.sameCuts hscheme hhost hpath

/-- A short host: every deck is cut at the same places, and the condition says so. -/
theorem sameCuts_shortHost :
    SameCuts (lit "http") (lit "h") (lit "/x?y=1") ∧
      (SameCuts (lit "http") (lit "h") (lit "/x?y=1") ↔
        CutsAgree (lit "http") (lit "h") (lit "/x?y=1")) := by
  have hagree : CutsAgree (lit "http") (lit "h") (lit "/x?y=1") := ⟨by decide, by decide⟩
  have hsite : SiteUri (lit "http") (lit "h") (lit "/x?y=1") :=
    ⟨by decide, by decide, by decide, by decide, by decide,
      by decide, by decide⟩
  have hplain : PlainPath (lit "/x?y=1") := ⟨by decide, by decide, by decide⟩
  have hiff := sameCuts_iff (lit "http") (lit "h") (lit "/x?y=1") (by decide) (by decide) (by decide)
  exact ⟨hiff.1 hagree, hiff.2 hsite hplain⟩

/-- Behind a host name of twenty-one bytes the deck of four links is cut in two by the gateway and
not over HTTP, at 140 bytes a page. -/
theorem longHost_not_sameCuts :
    ((pagedBuild (deckSource linkDeck false) (lit "http://wap.example-site.info/x") true 0
        140).pages.length, (pagedBuild (deckSource linkDeck false) (lit "/x") false 0
        140).pages.length) = (2, 1) := by
  decide +kernel

end BoatRudder.Wbxml
