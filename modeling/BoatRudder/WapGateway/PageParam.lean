import BoatRudder.Text.Bytes

/-! # The page parameter of an address

`wbxml_page_param` and `wbxml_set_page_param`: the `__page=N` query parameter that Prev and Next
links carry, and the parts of an address the paginator reads. -/

namespace BoatRudder.Wbxml

/-- The name of the page parameter, with its `=`. -/
def pageParamName : Bytes := lit "__page="

/-- The first `__page=` of `s` at its start or after a `?` or `&`: what stands before it and what
follows it. `before` is what was passed already. -/
def splitPageParam (before : Bytes) : Bytes → Option (Bytes × Bytes)
  | [] => none
  | c :: s =>
    if pageParamName.isPrefixOf (c :: s) ∧
        (before = [] ∨ before.getLast? = some 63 ∨ before.getLast? = some 38) then
      some (before, (c :: s).drop pageParamName.length)
    else splitPageParam (before ++ [c]) s

/-- What `atoi` reads: the value of a run of digits after blanks and a sign, as it is where it is no `int`. -/
def pageNumber (s : Bytes) : ℤ :=
  let t := s.dropWhile isSpace
  let negative := t.head? == some 45
  let t := if negative || t.head? == some 43 then t.drop 1 else t
  let v : ℤ := digitsValue 10 0 (t.takeWhile isDigit)
  if negative then -v else v

/-- The digits after the blanks are read. -/
theorem pageNumber_of_digits {blanks digits rest : Bytes} (hblanks : ∀ b ∈ blanks, isSpace b = true)
    (hne : digits ≠ []) (hdigits : ∀ b ∈ digits, isDigit b = true)
    (hrest : ∀ b ∈ rest.head?, isDigit b = false) :
    pageNumber (blanks ++ (digits ++ rest)) = digitsValue 10 0 digits := by
  obtain ⟨d, ds, rfl⟩ := List.exists_cons_of_ne_nil hne
  have hd : isSpace d = false ∧ d ≠ 45 ∧ d ≠ 43 := by
    have := hdigits d (by simp)
    simp only [isDigit, isSpace, Bool.and_eq_true, decide_eq_true_eq] at this ⊢
    grind
  have hstart : (blanks ++ (d :: ds ++ rest)).dropWhile isSpace = d :: ds ++ rest := by
    rw [List.dropWhile_append_of_pos hblanks, List.cons_append,
      List.dropWhile_cons_of_neg (by simp [hd.1])]
  have hrun : (d :: ds ++ rest).takeWhile isDigit = d :: ds := by
    rw [List.takeWhile_append_of_pos hdigits]
    cases rest with
    | nil => simp
    | cons c rest => rw [List.takeWhile_cons_of_neg (by simp [hrest c rfl]), List.append_nil]
  have h45 : ((d :: ds ++ rest).head? == some 45) = false := by simp [hd.2.1]
  have h43 : ((d :: ds ++ rest).head? == some 43) = false := by simp [hd.2.2]
  simp only [pageNumber, hstart, h45, h43, Bool.or_self, Bool.false_eq_true, if_false, hrun]

/-- `wbxml_page_param`. -/
def pageParam (uri : Bytes) : ℤ :=
  match splitPageParam [] uri with
  | some (_, s) => pageNumber s
  | none => 0

/-- What `wbxml_set_page_param` works on: the address cut to its buffer, without its fragment. -/
def withoutFragment (uri : Bytes) : Bytes := (uri.take 1023).takeWhile (· ≠ 35)

/-- The address less its page parameter and one of the separators around it. A parameter at the
very start has no byte before it (C reads the one in front of its array there). -/
def dropPageParam (base : Bytes) : Bytes :=
  match splitPageParam [] base with
  | none => base
  | some (before, s) =>
    let rest := s.dropWhile isDigit
    let out :=
      if rest.head? = some 38 then before ++ rest.drop 1
      else before.dropLast ++ rest
    if out.getLast? = some 63 ∨ out.getLast? = some 38 then out.dropLast else out

/-- `wbxml_set_page_param`, into a buffer of `size` bytes. -/
def setPageParam (uri : Bytes) (page : ℤ) (size : ℕ) : Bytes :=
  let base := dropPageParam (withoutFragment uri)
  let out :=
    if page ≤ 0 then base
    else base ++ (if 63 ∈ base then lit "&" else lit "?") ++ pageParamName ++ decimal page.toNat
  out.take (size - 1)

/-- `uri_base`: `scheme://host[:port]` of `uri`, or nothing when it is not absolute. -/
def uriBase (uri : Bytes) (size : ℕ) : Bytes :=
  match findSub (lit "://") uri with
  | none => []
  | some i =>
    let host := (uri.drop (i + 3)).takeWhile (· ≠ 47)
    (uri.take (i + 3 + host.length)).take (size - 1)

/-- The path `paged_build` measures its navigation with: `uri` from the first slash after its
host, `/` when there is none. -/
def uriPath (uri : Bytes) : Bytes :=
  match findSub (lit "://") uri with
  | none => uri
  | some i =>
    let path := (uri.drop (i + 3)).dropWhile (· ≠ 47)
    if path = [] then lit "/" else path

/-! ## Addresses with an origin -/

/-- What `wbxml_set_page_param` puts a new parameter behind. -/
def pagelessUri (uri : Bytes) : Bytes := dropPageParam (withoutFragment uri)

/-- A parameter is found at or after where the search stands. -/
theorem prefix_of_splitPageParam {before s b r : Bytes}
    (h : splitPageParam before s = some (b, r)) :
    before <+: b ∧ b.length + r.length < before.length + s.length := by
  induction s generalizing before with
  | nil => cases h
  | cons c s ih =>
    simp only [splitPageParam] at h
    split_ifs at h with hc
    · simp only [Option.some.injEq, Prod.mk.injEq] at h
      obtain ⟨rfl, rfl⟩ := h
      refine ⟨List.prefix_rfl, ?_⟩
      have : 0 < pageParamName.length := by decide
      simp only [List.length_drop, List.length_cons]
      omega
    · obtain ⟨hpre, hlen⟩ := ih h
      refine ⟨(List.prefix_append _ _).trans hpre, ?_⟩
      simp only [List.length_append, List.length_cons, List.length_nil] at hlen ⊢
      omega

/-- The search takes nothing out of the address but the parameter's name. -/
theorem splitPageParam_eq {before s b r : Bytes} (h : splitPageParam before s = some (b, r)) :
    before ++ s = b ++ (pageParamName ++ r) := by
  induction s generalizing before with
  | nil => cases h
  | cons c s ih =>
    simp only [splitPageParam] at h
    split_ifs at h with hc
    · simp only [Option.some.injEq, Prod.mk.injEq] at h
      obtain ⟨rfl, rfl⟩ := h
      obtain ⟨t, ht⟩ := List.isPrefixOf_iff_prefix.mp hc.1
      rw [← ht, List.drop_left]
    · rw [← ih h, List.append_assoc, List.singleton_append]

/-- Dropping the page parameter adds no byte. -/
theorem dropPageParam_subset (uri : Bytes) : dropPageParam uri ⊆ uri := by
  unfold dropPageParam
  split
  · exact List.Subset.refl _
  · next before s hsplit =>
      have heq := splitPageParam_eq hsplit
      have hbefore : before ⊆ uri := by
        rw [List.nil_append] at heq
        exact heq ▸ List.subset_append_left _ _
      have hs : s ⊆ uri := by
        rw [List.nil_append] at heq
        exact heq ▸ fun b hb => by simp [hb]
      have hrest : s.dropWhile isDigit ⊆ uri := fun b hb =>
        hs ((List.dropWhile_suffix _).subset hb)
      have hout : (if (s.dropWhile isDigit).head? = some 38 then
          before ++ (s.dropWhile isDigit).drop 1
          else before.dropLast ++ s.dropWhile isDigit) ⊆ uri := by
        split_ifs
        · exact List.append_subset.mpr ⟨hbefore, fun b hb => hrest (List.mem_of_mem_drop hb)⟩
        · exact List.append_subset.mpr ⟨fun b hb => hbefore (List.mem_of_mem_dropLast hb), hrest⟩
      have hlast : ∀ out : Bytes, out ⊆ uri →
          (if out.getLast? = some 63 ∨ out.getLast? = some 38 then out.dropLast else out) ⊆ uri := by
        intro out hout
        split_ifs
        · exact fun b hb => hout (List.mem_of_mem_dropLast hb)
        · exact hout
      exact hlast _ hout

/-- Past its start, the search does not see what was passed long ago. -/
theorem splitPageParam_append {o before : Bytes} (hne : before ≠ []) (s : Bytes) :
    splitPageParam (o ++ before) s = (splitPageParam before s).map (fun x => (o ++ x.1, x.2)) := by
  induction s generalizing before with
  | nil => rfl
  | cons c s ih =>
    have hlast : (o ++ before).getLast? = before.getLast? := by
      rw [List.getLast?_append_of_ne_nil _ hne]
    simp only [splitPageParam, hlast, hne, List.append_eq_nil_iff, and_false, false_or]
    split_ifs
    · rfl
    · rw [List.append_assoc, ih (by simp)]

/-- A string the search runs through: no parameter can start in it or right after it. -/
theorem splitPageParam_skip (o before : Bytes) (ho : ∀ c ∈ o, c ≠ 63 ∧ c ≠ 38)
    (hlast : ∀ c ∈ before.getLast?, c ≠ 63 ∧ c ≠ 38) (hstart : before = [] → o.head? ≠ some 95)
    (s : Bytes) : splitPageParam before (o ++ s) = splitPageParam (before ++ o) s := by
  induction o generalizing before with
  | nil => simp
  | cons c o ih =>
    simp only [List.mem_cons, forall_eq_or_imp] at ho
    have hno : ¬ (pageParamName.isPrefixOf (c :: (o ++ s)) ∧
        (before = [] ∨ before.getLast? = some 63 ∨ before.getLast? = some 38)) := by
      rintro ⟨hpre, hb | hb | hb⟩
      · have hc : c ≠ 95 := by simpa using hstart hb
        obtain ⟨t, ht⟩ := List.isPrefixOf_iff_prefix.mp hpre
        have h95 : some (95 : UInt8) = some c := congrArg List.head? ht
        exact hc (Option.some.inj h95).symm
      · exact (hlast 63 hb).1 rfl
      · exact (hlast 38 hb).2 rfl
    rw [List.cons_append, splitPageParam, if_neg hno,
      ih _ ho.2 (by simpa using ho.1) (by simp), List.append_assoc, List.singleton_append]

/-- An origin: it holds no byte that ends it or separates parameters, and does not start like the
page parameter. -/
structure IsOrigin (o : Bytes) : Prop where
  /-- No `?`, `&` or `#`. -/
  clean : ∀ c ∈ o, c ≠ 63 ∧ c ≠ 38 ∧ c ≠ 35
  /-- No `_` at the start. -/
  start : o.head? ≠ some 95

/-- The page parameter is looked for past an origin. -/
theorem splitPageParam_origin {o path : Bytes} (ho : IsOrigin o) (hpath : path.head? = some 47) :
    splitPageParam [] (o ++ path) = (splitPageParam [] path).map (fun x => (o ++ x.1, x.2)) := by
  obtain ⟨s, rfl⟩ : ∃ s, path = 47 :: s := by
    cases path with
    | nil => simp at hpath
    | cons c s => exact ⟨s, by simpa using hpath⟩
  have hsep : ∀ c ∈ o, c ≠ 63 ∧ c ≠ 38 := fun c hc => ⟨(ho.clean c hc).1, (ho.clean c hc).2.1⟩
  have hstart : (o ++ [47]).head? ≠ some 95 := by
    cases o with
    | nil => simp
    | cons c o => simpa using ho.start
  -- neither the origin nor the slash after it starts the parameter
  have h1 := splitPageParam_skip (o ++ [47]) []
    (List.forall_mem_append.mpr ⟨hsep, by simp⟩) (by simp) (fun _ => hstart) s
  have h2 := splitPageParam_skip [47] [] (by simp) (by simp) (by simp) s
  rw [List.append_assoc, List.singleton_append, List.nil_append] at h1
  rw [h1, splitPageParam_append (by simp)]
  rw [List.singleton_append, List.nil_append] at h2
  rw [h2]

/-- A separator at the end is dropped from an address, whatever its origin. -/
theorem dropSeparator_origin {o : Bytes} (ho : IsOrigin o) (out : Bytes) :
    (if (o ++ out).getLast? = some 63 ∨ (o ++ out).getLast? = some 38 then (o ++ out).dropLast
      else o ++ out) =
    o ++ (if out.getLast? = some 63 ∨ out.getLast? = some 38 then out.dropLast else out) := by
  by_cases hout : out = []
  · have hno : ¬ (o.getLast? = some 63 ∨ o.getLast? = some 38) := by
      rintro (h | h)
      · exact (ho.clean 63 (List.mem_of_getLast? h)).1 rfl
      · exact (ho.clean 38 (List.mem_of_getLast? h)).2.1 rfl
    simp [hout, hno]
  · rw [List.getLast?_append_of_ne_nil _ hout, List.dropLast_append_of_ne_nil hout]
    split_ifs <;> rfl

/-- An address keeps its origin when its page parameter is dropped. -/
theorem dropPageParam_origin {o path : Bytes} (ho : IsOrigin o) (hpath : path.head? = some 47) :
    dropPageParam (o ++ path) = o ++ dropPageParam path := by
  rw [dropPageParam, dropPageParam, splitPageParam_origin ho hpath]
  cases hsplit : splitPageParam [] path with
  | none => rfl
  | some x =>
    obtain ⟨before, s⟩ := x
    have hne : before ≠ [] := by
      obtain ⟨t, rfl⟩ := List.head?_eq_some_iff.mp hpath
      have hskip := splitPageParam_skip [47] [] (by simp) (by simp) (by simp) t
      rw [List.singleton_append, List.nil_append, hsplit] at hskip
      rintro rfl
      simpa using (prefix_of_splitPageParam hskip.symm).1
    have hout : (if (s.dropWhile isDigit).head? = some 38 then
          (o ++ before) ++ (s.dropWhile isDigit).drop 1
        else (o ++ before).dropLast ++ s.dropWhile isDigit) =
        o ++ (if (s.dropWhile isDigit).head? = some 38 then
            before ++ (s.dropWhile isDigit).drop 1
          else before.dropLast ++ s.dropWhile isDigit) := by
      rw [List.dropLast_append_of_ne_nil hne]
      split_ifs <;> rw [List.append_assoc]
    simp only [Option.map_some, hout]
    exact dropSeparator_origin ho _

/-- Dropping the page parameter leaves no more than there was. -/
theorem length_dropPageParam_le (uri : Bytes) : (dropPageParam uri).length ≤ uri.length := by
  unfold dropPageParam
  split
  · exact le_rfl
  · next before s hsplit =>
      have hlen := (prefix_of_splitPageParam hsplit).2
      have hrest := length_dropWhile_le isDigit s
      simp only [List.length_nil] at hlen
      simp only
      split_ifs <;> simp only [List.length_dropLast, List.length_append, List.length_drop] <;> omega

theorem length_pagelessUri_le (uri : Bytes) : (pagelessUri uri).length ≤ 1023 := by
  refine (length_dropPageParam_le _).trans ?_
  refine (List.takeWhile_prefix _).length_le.trans ?_
  rw [List.length_take]
  exact min_le_left _ _

/-- An address keeps its origin when its page parameter and fragment are dropped. -/
theorem pagelessUri_origin {o path : Bytes} (ho : IsOrigin o) (hpath : path.head? = some 47)
    (hlen : (o ++ path).length ≤ 1023) : pagelessUri (o ++ path) = o ++ pagelessUri path := by
  obtain ⟨t, rfl⟩ := List.head?_eq_some_iff.mp hpath
  have hlen' : (47 :: t).length ≤ 1023 := by
    rw [List.length_append] at hlen
    omega
  have hfragment : withoutFragment (o ++ 47 :: t) = o ++ withoutFragment (47 :: t) := by
    rw [withoutFragment, withoutFragment, List.take_of_length_le hlen, List.take_of_length_le hlen',
      List.takeWhile_append_of_pos (by simpa using fun c hc => (ho.clean c hc).2.2)]
  have hslash : (withoutFragment (47 :: t)).head? = some 47 := by
    rw [withoutFragment, List.take_of_length_le hlen']
    simp
  rw [pagelessUri, hfragment, dropPageParam_origin ho hslash, pagelessUri]

/-- What `wbxml_set_page_param` adds to an address for page `k`. -/
def pageSuffix (uri : Bytes) (k : ℕ) : Bytes :=
  if k = 0 then []
  else (if 63 ∈ pagelessUri uri then lit "&" else lit "?") ++ pageParamName ++ decimal k

/-- The buffers `paged_build` uses for its links hold every address. -/
theorem setPageParam_eq (uri : Bytes) {k : ℕ} (hk : (decimal k).length ≤ 64) :
    setPageParam uri k 1100 = pagelessUri uri ++ pageSuffix uri k := by
  have hlen := length_pagelessUri_le uri
  have hname : pageParamName.length = 7 := by decide
  have hamp : (lit "&").length = 1 := by decide
  have hmark : (lit "?").length = 1 := by decide
  simp only [setPageParam, pageSuffix]
  rw [← pagelessUri]
  by_cases h0 : k = 0
  · rw [if_pos (by omega), if_pos h0, List.append_nil, List.take_of_length_le (by omega)]
  · rw [if_neg (by omega), if_neg h0, List.take_of_length_le]
    · simp
    · simp only [Int.toNat_natCast, List.length_append, hname]
      split_ifs <;> omega

/-- The origin `scheme://host`. -/
def originOf (scheme host : Bytes) : Bytes := scheme ++ lit "://" ++ host

/-- `://` is found after the scheme. -/
theorem findSub_scheme {scheme : Bytes} (h : 58 ∉ scheme) (s : Bytes) :
    findSub (lit "://") (scheme ++ (lit "://" ++ s)) = some scheme.length := by
  induction scheme with
  | nil =>
    have hlit : lit "://" = [58, 47, 47] := by decide
    simp [hlit, findSub]
  | cons c scheme ih =>
    simp only [List.mem_cons, not_or] at h
    have hno : ¬ (lit "://").isPrefixOf (c :: (scheme ++ (lit "://" ++ s))) = true := by
      intro hpre
      obtain ⟨t, ht⟩ := List.isPrefixOf_iff_prefix.mp hpre
      have h58 : some (58 : UInt8) = some c := congrArg List.head? ht
      exact h.1 (Option.some.inj h58)
    rw [List.cons_append, findSub, if_neg hno, ih h.2]
    rfl

section Origin

variable {scheme host path : Bytes}

/-- Past `scheme://` of an absolute address. -/
theorem drop_scheme (s : Bytes) : (scheme ++ (lit "://" ++ s)).drop (scheme.length + 3) = s := by
  rw [← List.append_assoc]
  exact List.drop_left' (by rw [List.length_append]; rfl)

/-- `uri_base` of an absolute address is its origin, cut to its buffer. -/
theorem uriBase_origin (hscheme : 58 ∉ scheme) (hhost : 47 ∉ host)
    (hpath : path.head? = some 47) :
    uriBase (originOf scheme host ++ path) 512 = (originOf scheme host).take 511 := by
  obtain ⟨t, rfl⟩ := List.head?_eq_some_iff.mp hpath
  have hlen : (lit "://").length = 3 := by decide
  have huri : originOf scheme host ++ 47 :: t = scheme ++ (lit "://" ++ (host ++ 47 :: t)) := by
    simp [originOf]
  have hsplit : scheme ++ (lit "://" ++ (host ++ 47 :: t)) = originOf scheme host ++ 47 :: t :=
    huri.symm
  rw [huri, uriBase, findSub_scheme hscheme]
  simp only
  rw [drop_scheme, takeWhile_ne_append hhost, hsplit, List.take_left' (by simp only [originOf, List.length_append, hlen])]

/-- The path of an absolute address. -/
theorem uriPath_origin (hscheme : 58 ∉ scheme) (hhost : 47 ∉ host)
    (hpath : path.head? = some 47) : uriPath (originOf scheme host ++ path) = path := by
  obtain ⟨t, rfl⟩ := List.head?_eq_some_iff.mp hpath
  have huri : originOf scheme host ++ 47 :: t = scheme ++ (lit "://" ++ (host ++ 47 :: t)) := by
    simp [originOf]
  rw [huri, uriPath, findSub_scheme hscheme]
  simp only
  rw [drop_scheme, dropWhile_ne_append hhost, if_neg (by simp)]

/-- An address without `://` is its own path, and has no base. -/
theorem uriPath_relative (h : findSub (lit "://") path = none) :
    uriPath path = path ∧ uriBase path 512 = [] := by
  rw [uriPath, uriBase, h]
  exact ⟨rfl, rfl⟩

end Origin

end BoatRudder.Wbxml
