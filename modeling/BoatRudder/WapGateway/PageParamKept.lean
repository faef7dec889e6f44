import BoatRudder.Text.Numbers
import BoatRudder.WapGateway.PageParam

/-! # The page parameter, set and read back

`wbxml_set_page_param` takes the first `__page=` at a boundary for the parameter, wherever it
stands, removes its digits and one separator, and one more separator that is left at the end. What
it writes is read back, and replaced by the next page, exactly when the address holds the parameter
at most once, in its query and with a number for its value, and ends with no separator without it. -/

namespace BoatRudder.Wbxml

/-! ## Where the parameter is found -/

variable {s : Bytes} {c : UInt8}

/-- A place where the parameter is looked for: the start, or behind a `?` or a `&`. -/
def AtBoundary (before : Bytes) : Prop := ∀ c ∈ before.getLast?, c = 63 ∨ c = 38

/-- `__page=` stands at a boundary behind `before`. -/
def FoundAt (s before rest : Bytes) : Prop :=
  s = before ++ (pageParamName ++ rest) ∧ AtBoundary before

/-- `__page=` stands at a boundary. -/
def HasPageParam (s : Bytes) : Prop := ∃ before rest, FoundAt s before rest

theorem atBoundary_iff {before : Bytes} :
    AtBoundary before ↔ before = [] ∨ before.getLast? = some 63 ∨ before.getLast? = some 38 := by
  rw [AtBoundary]
  cases hlast : before.getLast? with
  | none => simp [List.getLast?_eq_none_iff.mp hlast]
  | some c =>
    have hne : before ≠ [] := by
      rintro rfl
      cases hlast
    simp [hne]

theorem sep_notMem_pageParamName (hc : c = 63 ∨ c = 38) : c ∉ pageParamName := by
  rcases hc with rfl | rfl
  · decide
  · decide

/-- **The search finds the first place**, behind what it passed already. -/
theorem splitPageParam_spec (passed s : Bytes) :
    match splitPageParam passed s with
    | none => ∀ x y, s = x ++ (pageParamName ++ y) → ¬ AtBoundary (passed ++ x)
    | some (before, rest) => ∃ x, before = passed ++ x ∧ s = x ++ (pageParamName ++ rest) ∧
        AtBoundary before ∧ ∀ x' y', s = x' ++ (pageParamName ++ y') →
          AtBoundary (passed ++ x') → x.length ≤ x'.length := by
  induction s generalizing passed with
  | nil =>
    intro x y hs
    have hlen := congrArg List.length hs
    have hname : 0 < pageParamName.length := by decide
    rw [List.length_append, List.length_append, List.length_nil] at hlen
    omega
  | cons c s ih =>
    -- a place in the string is its start, or one in the rest
    have hplace {x y : Bytes} (hs : c :: s = x ++ (pageParamName ++ y)) :
        x = [] ∧ pageParamName.isPrefixOf (c :: s) = true ∨
          ∃ x', x = c :: x' ∧ s = x' ++ (pageParamName ++ y) := by
      cases x with
      | nil =>
        refine Or.inl ⟨rfl, List.isPrefixOf_iff_prefix.mpr ?_⟩
        rw [hs]
        exact List.prefix_append _ _
      | cons d x =>
        rw [List.cons_append, List.cons.injEq] at hs
        obtain ⟨rfl, hs⟩ := hs
        exact Or.inr ⟨x, rfl, hs⟩
    rw [splitPageParam]
    by_cases hhere : pageParamName.isPrefixOf (c :: s) = true ∧
        (passed = [] ∨ passed.getLast? = some 63 ∨ passed.getLast? = some 38)
    · rw [if_pos hhere]
      obtain ⟨t, ht⟩ := List.isPrefixOf_iff_prefix.mp hhere.1
      refine ⟨[], by simp, ?_, atBoundary_iff.mpr hhere.2, fun _ _ _ _ => Nat.zero_le _⟩
      rw [← ht, List.drop_left, List.nil_append]
    · rw [if_neg hhere]
      have hrest := ih (passed ++ [c])
      cases hsplit : splitPageParam (passed ++ [c]) s with
      | none =>
        rw [hsplit] at hrest
        intro x y hs hboundary
        rcases hplace hs with ⟨rfl, hpre⟩ | ⟨x', rfl, hs'⟩
        · rw [List.append_nil] at hboundary
          exact hhere ⟨hpre, atBoundary_iff.mp hboundary⟩
        · refine hrest x' y hs' ?_
          rwa [List.append_assoc, List.singleton_append]
      | some found =>
        obtain ⟨before, rest⟩ := found
        rw [hsplit] at hrest
        obtain ⟨x, rfl, rfl, hboundary, hmin⟩ := hrest
        refine ⟨c :: x, by simp, rfl, hboundary, ?_⟩
        intro x' y' hs hboundary'
        rcases hplace hs with ⟨rfl, hpre⟩ | ⟨x'', rfl, hs'⟩
        · rw [List.append_nil] at hboundary'
          exact absurd ⟨hpre, atBoundary_iff.mp hboundary'⟩ hhere
        · refine Nat.succ_le_succ (hmin x'' y' hs' ?_)
          rwa [List.append_assoc, List.singleton_append]

/-- The page parameter is found wherever there is one. -/
theorem splitPageParam_eq_none_iff : splitPageParam [] s = none ↔ ¬ HasPageParam s := by
  have hspec := splitPageParam_spec [] s
  cases hsplit : splitPageParam [] s with
  | none =>
    rw [hsplit] at hspec
    exact iff_of_true rfl fun ⟨x, y, hs, hboundary⟩ => hspec x y hs hboundary
  | some found =>
    rw [hsplit] at hspec
    obtain ⟨x, hbefore, hs, hboundary, -⟩ := hspec
    rw [List.nil_append] at hbefore
    refine iff_of_false (by simp) (not_not.mpr ⟨x, found.2, hs, hbefore ▸ hboundary⟩)

/-- The parameter that is found, and that none stands before it. -/
theorem of_splitPageParam {before rest : Bytes} (h : splitPageParam [] s = some (before, rest)) :
    FoundAt s before rest ∧ ∀ x y, FoundAt s x y → before.length ≤ x.length := by
  have hspec := splitPageParam_spec [] s
  rw [h] at hspec
  obtain ⟨x, hbefore, hs, hboundary, hmin⟩ := hspec
  rw [List.nil_append] at hbefore
  subst hbefore
  exact ⟨⟨hs, hboundary⟩, fun x y hfound => hmin x y hfound.1 hfound.2⟩

/-- The first place is the one that is found. -/
theorem splitPageParam_of_first {before rest : Bytes} (h : FoundAt s before rest)
    (hmin : ∀ x y, FoundAt s x y → before.length ≤ x.length) :
    splitPageParam [] s = some (before, rest) := by
  cases hsplit : splitPageParam [] s with
  | none => exact absurd ⟨before, rest, h⟩ (splitPageParam_eq_none_iff.mp hsplit)
  | some found =>
    obtain ⟨before', rest'⟩ := found
    obtain ⟨hfound, hmin'⟩ := of_splitPageParam hsplit
    have hlen := le_antisymm (hmin' _ _ h) (hmin _ _ hfound)
    obtain ⟨rfl, hname⟩ := List.append_inj (hfound.1.symm.trans h.1) hlen
    rw [List.append_cancel_left hname]

/-! ## Separators -/

/-- A place lies in front of a separator, or behind it. -/
theorem found_before_sep {b t x y : Bytes} (hc : c = 63 ∨ c = 38)
    (h : b ++ c :: t = x ++ (pageParamName ++ y)) :
    (∃ y', b = x ++ (pageParamName ++ y') ∧ y = y' ++ c :: t) ∨
      ∃ x', x = b ++ c :: x' ∧ t = x' ++ (pageParamName ++ y) := by
  rcases List.append_eq_append_iff.mp h with ⟨z, hx, hz⟩ | ⟨z, hb, hz⟩
  · -- the place is at the separator or behind it
    cases z with
    | nil =>
      rw [List.nil_append] at hz
      have hmem : c ∈ pageParamName := by
        have hhead := congrArg List.head? hz
        have hname : (pageParamName ++ y).head? = pageParamName.head? :=
          List.head?_append_of_ne_nil _ (by decide)
        rw [hname, List.head?_cons] at hhead
        exact List.mem_of_head? hhead.symm
      exact absurd hmem (sep_notMem_pageParamName hc)
    | cons d z =>
      rw [List.cons_append, List.cons.injEq] at hz
      obtain ⟨rfl, hz⟩ := hz
      exact Or.inr ⟨z, hx, hz⟩
  · -- the name would hold the separator unless it ends before it
    rcases List.append_eq_append_iff.mp hz with ⟨w, hz', hw⟩ | ⟨w, hname, hw⟩
    · refine Or.inl ⟨w, by rw [hb, hz'], hw⟩
    · cases w with
      | nil =>
        refine Or.inl ⟨[], by rw [hb, ← List.append_nil z, ← hname, List.append_nil], ?_⟩
        simpa using hw.symm
      | cons d w =>
        rw [List.cons_append, List.cons.injEq] at hw
        refine absurd ?_ (sep_notMem_pageParamName hc)
        rw [hname, ← hw.1]
        simp

/-- A page parameter stays one with more behind it. -/
theorem HasPageParam.append (h : HasPageParam s) (t : Bytes) : HasPageParam (s ++ t) := by
  obtain ⟨x, y, rfl, hx⟩ := h
  exact ⟨x, y ++ t, by simp, hx⟩

/-- A separator at the end is part of no place. -/
theorem hasPageParam_append_sep (hc : c = 63 ∨ c = 38) :
    HasPageParam (s ++ [c]) ↔ HasPageParam s := by
  constructor
  · rintro ⟨x, y, heq, hx⟩
    rcases found_before_sep hc heq with ⟨y', hs, -⟩ | ⟨x', -, hnil⟩
    · exact ⟨x, y', hs, hx⟩
    · have hname : 0 < pageParamName.length := by decide
      have hlen := congrArg List.length hnil
      rw [List.length_append, List.length_append, List.length_nil] at hlen
      omega
  · exact fun h => h.append _

/-- The address ends with a separator. -/
def EndsInSep (s : Bytes) : Prop := s.getLast? = some 63 ∨ s.getLast? = some 38

theorem endsInSep_append {t : Bytes} (ht : t ≠ []) : EndsInSep (s ++ t) ↔ EndsInSep t := by
  rw [EndsInSep, EndsInSep, List.getLast?_append_of_ne_nil _ ht]

theorem exists_of_endsInSep (h : EndsInSep s) : ∃ r c, s = r ++ [c] ∧ (c = 63 ∨ c = 38) := by
  have hne : s ≠ [] := by
    rintro rfl
    simp [EndsInSep] at h
  refine ⟨s.dropLast, s.getLast hne, (List.dropLast_append_getLast hne).symm, ?_⟩
  simpa [EndsInSep, List.getLast?_eq_some_getLast hne] using h

theorem endsInSep_concat : EndsInSep (s ++ [c]) ↔ c = 63 ∨ c = 38 := by
  simp [EndsInSep]

/-! ## The pieces of a query -/

theorem intercalate_append (sep : Bytes) {as bs : List Bytes} (ha : as ≠ []) (hb : bs ≠ []) :
    sep.intercalate (as ++ bs) = sep.intercalate as ++ (sep ++ sep.intercalate bs) := by
  induction as with
  | nil => exact absurd rfl ha
  | cons a as ih =>
    by_cases has : as = []
    · rw [has, List.singleton_append, List.intercalate_cons_of_ne_nil hb,
        List.intercalate_singleton, List.append_assoc]
    · rw [List.cons_append, List.intercalate_cons_of_ne_nil (by simp [has]), ih has,
        List.intercalate_cons_of_ne_nil has]
      simp only [List.append_assoc]

/-- A piece of the query that is a page parameter. -/
def isPageParam (piece : Bytes) : Bool := pageParamName.isPrefixOf piece

/-- A piece stands at the start of the query or behind a `&`. -/
theorem exists_of_mem_splitOn {q piece : Bytes} (h : piece ∈ q.splitOn 38) :
    ∃ a c, q = a ++ (piece ++ c) ∧ (a = [] ∨ ∃ a', a = a' ++ [38]) := by
  obtain ⟨ps, rs, hsplit⟩ := List.append_of_mem h
  have hjoin : [38].intercalate (q.splitOn 38) = q := List.intercalate_splitOn 38
  have htail : ∃ c, [38].intercalate (piece :: rs) = piece ++ c := by
    by_cases hrs : rs = []
    · exact ⟨[], by rw [hrs, List.intercalate_singleton, List.append_nil]⟩
    · exact ⟨_, by rw [List.intercalate_cons_of_ne_nil hrs, List.append_assoc]⟩
  obtain ⟨c, hc⟩ := htail
  rw [hsplit] at hjoin
  by_cases hps : ps = []
  · rw [hps, List.nil_append, hc] at hjoin
    exact ⟨[], c, hjoin.symm, Or.inl rfl⟩
  · rw [intercalate_append _ hps (List.cons_ne_nil _ _), hc, ← List.append_assoc] at hjoin
    exact ⟨_, c, hjoin.symm, Or.inr ⟨_, rfl⟩⟩

/-- A page parameter among the pieces behind a separator is found. -/
theorem found_of_piece {o q piece : Bytes} (ho : EndsInSep o) (hmem : piece ∈ q.splitOn 38)
    (hpage : isPageParam piece = true) :
    ∃ a y, q = a ++ (pageParamName ++ y) ∧ FoundAt (o ++ q) (o ++ a) y ∧
      (a = [] ∨ ∃ a', a = a' ++ [38]) := by
  obtain ⟨a, c, rfl, ha⟩ := exists_of_mem_splitOn hmem
  obtain ⟨y, rfl⟩ := List.isPrefixOf_iff_prefix.mp hpage
  refine ⟨a, y ++ c, by simp, ⟨by simp, ?_⟩, ha⟩
  rcases ha with rfl | ⟨a', rfl⟩
  · rw [List.append_nil]
    exact atBoundary_iff.mpr (Or.inr ho)
  · refine atBoundary_iff.mpr (Or.inr (Or.inr ?_))
    rw [← List.append_assoc, List.getLast?_concat]

/-- The pieces of a query that are no page parameter. -/
def otherParams (query : Bytes) : List Bytes := (query.splitOn 38).filter (fun p => !isPageParam p)

/-- An address without the page parameters of its query. -/
def withoutPage (uri : Bytes) : Bytes :=
  let path := uri.takeWhile (· ≠ 63)
  let others := otherParams ((uri.dropWhile (· ≠ 63)).drop 1)
  if 63 ∉ uri then uri
  else if others = [] then path
  else path ++ 63 :: [38].intercalate others

theorem withoutPage_of_notMem {uri : Bytes} (h : 63 ∉ uri) : withoutPage uri = uri :=
  if_pos h

theorem withoutPage_query {path : Bytes} (hpath : 63 ∉ path) (query : Bytes) :
    withoutPage (path ++ 63 :: query) =
      if otherParams query = [] then path
      else path ++ 63 :: [38].intercalate (otherParams query) := by
  have hall : ∀ c ∈ path, decide (c ≠ 63) = true := by
    intro c hc
    simpa using fun h : c = 63 => hpath (h ▸ hc)
  have hhead : (path ++ 63 :: query).takeWhile (· ≠ 63) = path := by
    rw [List.takeWhile_append_of_pos hall]
    simp
  have htail : ((path ++ 63 :: query).dropWhile (· ≠ 63)).drop 1 = query := by
    rw [List.dropWhile_append_of_pos hall]
    simp
  simp only [withoutPage]
  rw [if_neg (by simp), hhead, htail]

/-- Nothing is taken out of a query that has no page parameter. -/
theorem otherParams_of_forall {query : Bytes}
    (h : ∀ piece ∈ query.splitOn 38, isPageParam piece = false) :
    otherParams query = query.splitOn 38 :=
  List.filter_eq_self.mpr fun piece hpiece => by rw [h piece hpiece, Bool.not_false]

theorem otherParams_append (q r : Bytes) :
    otherParams (q ++ 38 :: r) = otherParams q ++ otherParams r := by
  rw [otherParams, List.splitOn_append_cons_self, List.filter_append]
  rfl

/-- The page parameter as one piece. -/
theorem otherParams_page {w : Bytes} (hw : 38 ∉ w) :
    otherParams (pageParamName ++ w) = [] := by
  have hone : 38 ∉ pageParamName ++ w := by
    rw [List.mem_append, not_or]
    exact ⟨sep_notMem_pageParamName (Or.inr rfl), hw⟩
  have hpage : isPageParam (pageParamName ++ w) = true :=
    List.isPrefixOf_iff_prefix.mpr (List.prefix_append _ _)
  rw [otherParams, List.splitOn_eq_singleton hone, List.filter_cons_of_neg (by rw [hpage]; decide),
    List.filter_nil]

/-! ## The parameter in its query -/

/-- What stands before a parameter of the query: the path with its `?`, or more with a `&`. -/
def InQuery (before : Bytes) : Prop :=
  (∃ path, 63 ∉ path ∧ before = path ++ [63]) ∨ ∃ q, 63 ∈ q ∧ before = q ++ [38]

/-- No piece of the query that follows a `?` is a page parameter. -/
def NoPagePiece (query : Bytes) : Prop := ∀ piece ∈ query.splitOn 38, isPageParam piece = false

theorem InQuery.endsInSep {before : Bytes} (h : InQuery before) : EndsInSep before := by
  rcases h with ⟨path, -, rfl⟩ | ⟨q, -, rfl⟩
  · exact endsInSep_concat.mpr (Or.inl rfl)
  · exact endsInSep_concat.mpr (Or.inr rfl)

/-- **Taking one page parameter out** of a query that has no other takes a separator with it. -/
theorem withoutPage_one {before w : Bytes} (hbefore : InQuery before)
    (hnone : ¬ HasPageParam before.dropLast) (hw : 38 ∉ w) :
    withoutPage (before ++ (pageParamName ++ w)) = before.dropLast ∧
      ∀ t, NoPagePiece t →
        withoutPage (before ++ (pageParamName ++ (w ++ 38 :: t))) = before ++ t := by
  have hcut (t : Bytes) : pageParamName ++ (w ++ 38 :: t) = (pageParamName ++ w) ++ 38 :: t := by
    rw [List.append_assoc]
  have hothers (t : Bytes) (ht : NoPagePiece t) :
      otherParams (pageParamName ++ (w ++ 38 :: t)) = t.splitOn 38 := by
    rw [hcut, otherParams_append, otherParams_page hw, List.nil_append, otherParams_of_forall ht]
  rcases hbefore with ⟨path, hpath, rfl⟩ | ⟨q, hq, rfl⟩
  · constructor
    · rw [List.append_assoc, List.singleton_append, withoutPage_query hpath, otherParams_page hw,
        if_pos rfl, List.dropLast_concat]
    · intro t ht
      rw [List.append_assoc, List.singleton_append, withoutPage_query hpath, hothers t ht,
        if_neg (List.splitOn_ne_nil _ _), List.intercalate_splitOn, List.append_assoc,
        List.singleton_append]
  · obtain ⟨path, first, rfl, hpath⟩ := List.eq_append_cons_of_mem hq
    rw [List.dropLast_concat] at hnone
    have hfirst : NoPagePiece first := by
      intro piece hpiece
      by_contra hpage
      rw [Bool.not_eq_false] at hpage
      obtain ⟨a, y, -, hfound, -⟩ :=
        found_of_piece (endsInSep_concat (s := path).mpr (Or.inl rfl)) hpiece hpage
      rw [List.append_assoc, List.singleton_append] at hfound
      exact hnone ⟨_, _, hfound⟩
    have hshape (r : Bytes) :
        (path ++ 63 :: first) ++ [38] ++ r = path ++ 63 :: (first ++ 38 :: r) := by
      simp
    constructor
    · rw [hshape, withoutPage_query hpath, otherParams_append, otherParams_page hw, List.append_nil,
        otherParams_of_forall hfirst, if_neg (List.splitOn_ne_nil _ _), List.intercalate_splitOn,
        List.dropLast_concat]
    · intro t ht
      rw [hshape, hshape, withoutPage_query hpath, otherParams_append, hothers t ht,
        otherParams_of_forall hfirst, if_neg (by simp),
        intercalate_append _ (List.splitOn_ne_nil _ _) (List.splitOn_ne_nil _ _),
        List.intercalate_splitOn, List.intercalate_splitOn, List.singleton_append]

/-- An address whose query has no page parameter stays as it is. -/
theorem withoutPage_of_not_found {uri : Bytes}
    (h : ∀ before rest, FoundAt uri before rest → ¬ InQuery before) : withoutPage uri = uri := by
  by_cases hmark : 63 ∈ uri
  · obtain ⟨path, query, rfl, hpath⟩ := List.eq_append_cons_of_mem hmark
    have hnone : NoPagePiece query := by
      intro piece hpiece
      by_contra hpage
      rw [Bool.not_eq_false] at hpage
      obtain ⟨a, y, -, hfound, ha⟩ :=
        found_of_piece (endsInSep_concat (s := path).mpr (Or.inl rfl)) hpiece hpage
      rw [List.append_assoc, List.singleton_append] at hfound
      refine h _ _ hfound ?_
      rcases ha with rfl | ⟨a', rfl⟩
      · exact Or.inl ⟨path, hpath, List.append_nil _⟩
      · exact Or.inr ⟨path ++ [63] ++ a', by simp, by simp⟩
    rw [withoutPage_query hpath, otherParams_of_forall hnone, if_neg (List.splitOn_ne_nil _ _),
      List.intercalate_splitOn]
  · exact withoutPage_of_notMem hmark

/-! ## What is left of the address -/

/-- An address, and the same with an empty parameter or an empty query at its end. -/
def SameAddress (r s : Bytes) : Prop := s = r ∨ s = r ++ [38] ∨ s = r ++ [63] ∧ 63 ∉ r

theorem SameAddress.length_le {r : Bytes} (h : SameAddress r s) :
    r.length ≤ s.length ∧ s.length ≤ r.length + 1 := by
  rcases h with rfl | rfl | ⟨rfl, -⟩
  · exact ⟨le_rfl, Nat.le_succ _⟩
  · simp
  · simp

theorem SameAddress.eq_of_length {r : Bytes} (h : SameAddress r s) (hlen : s.length ≤ r.length) :
    s = r := by
  rcases h with rfl | rfl | ⟨rfl, -⟩
  · rfl
  · exact absurd hlen (by simp)
  · exact absurd hlen (by simp)

/-- An address and the same with a separator at its end have the same page parameters. -/
theorem SameAddress.hasPageParam_iff {r : Bytes} (h : SameAddress r s) :
    HasPageParam s ↔ HasPageParam r := by
  rcases h with rfl | rfl | ⟨rfl, -⟩
  · exact Iff.rfl
  · exact hasPageParam_append_sep (Or.inr rfl)
  · exact hasPageParam_append_sep (Or.inl rfl)

/-- A separator that is left at the end goes too. -/
def dropSep (s : Bytes) : Bytes :=
  if s.getLast? = some 63 ∨ s.getLast? = some 38 then s.dropLast else s

theorem dropSep_of_not (h : ¬ EndsInSep s) : dropSep s = s := if_neg h

theorem dropSep_concat (hc : c = 63 ∨ c = 38) : dropSep (s ++ [c]) = s :=
  (if_pos (endsInSep_concat.mpr hc)).trans List.dropLast_concat

/-- The separator at the end is part of no page parameter. -/
theorem hasPageParam_dropSep : HasPageParam (dropSep s) ↔ HasPageParam s := by
  by_cases h : EndsInSep s
  · obtain ⟨r, c, rfl, hc⟩ := exists_of_endsInSep h
    rw [dropSep_concat hc, hasPageParam_append_sep hc]
  · rw [dropSep_of_not h]

theorem dropSep_of_same {r : Bytes} (h : SameAddress r s) (hr : ¬ EndsInSep r) : dropSep s = r := by
  rcases h with rfl | rfl | ⟨rfl, -⟩
  · exact dropSep_of_not hr
  · exact dropSep_concat (Or.inr rfl)
  · exact dropSep_concat (Or.inl rfl)

theorem length_dropSep (s : Bytes) :
    (dropSep s).length ≤ s.length ∧ s.length ≤ (dropSep s).length + 1 := by
  by_cases h : EndsInSep s
  · obtain ⟨r, c, rfl, hc⟩ := exists_of_endsInSep h
    rw [dropSep_concat hc]
    simp
  · rw [dropSep_of_not h]
    exact ⟨le_rfl, Nat.le_succ _⟩

/-- What stands before the parameter and behind its digits, less one separator between them. -/
def joined (before tail : Bytes) : Bytes :=
  if tail.head? = some 38 then before ++ tail.drop 1 else before.dropLast ++ tail

theorem joined_amp (before t : Bytes) : joined before (38 :: t) = before ++ t := if_pos rfl

theorem joined_of_not {before tail : Bytes} (h : tail.head? ≠ some 38) :
    joined before tail = before.dropLast ++ tail := if_neg h

section Found

variable {rest : Bytes}
variable {uri before digits tail : Bytes}

/-- What is left when the parameter is dropped. -/
theorem dropPageParam_eq (hfound : FoundAt uri before (digits ++ tail))
    (hmin : ∀ x y, FoundAt uri x y → before.length ≤ x.length)
    (hdigits : ∀ d ∈ digits, isDigit d = true) (htail : ∀ c ∈ tail.head?, isDigit c = false) :
    dropPageParam uri = dropSep (joined before tail) := by
  have hrest : (digits ++ tail).dropWhile isDigit = tail := by
    rw [List.dropWhile_append_of_pos hdigits]
    cases tail with
    | nil => rfl
    | cons c tail => exact List.dropWhile_cons_of_neg (by rw [htail c rfl]; decide)
  rw [dropPageParam, splitPageParam_of_first hfound hmin]
  simp only [hrest]
  rfl

/-- **Another place stays**: only one is taken out. -/
theorem eq_of_found (hfound : FoundAt uri before (digits ++ tail))
    (hdigits : ∀ d ∈ digits, isDigit d = true) (hnone : ¬ HasPageParam (joined before tail))
    {x y : Bytes} (hother : FoundAt uri x y) (hlen : before.length ≤ x.length) : x = before := by
  by_contra hne
  have hlt : before.length < x.length := by
    refine lt_of_le_of_ne hlen fun hlen' => hne ?_
    exact (List.append_inj (hfound.1.symm.trans hother.1) hlen').1.symm
  obtain ⟨x₀, c, rfl, hc⟩ : ∃ r c, x = r ++ [c] ∧ (c = 63 ∨ c = 38) := by
    refine exists_of_endsInSep ?_
    rcases atBoundary_iff.mp hother.2 with rfl | hends
    · simp at hlt
    · exact hends
  have heq : x₀ ++ c :: (pageParamName ++ y) = before ++ (pageParamName ++ (digits ++ tail)) := by
    rw [← hfound.1, hother.1, List.append_assoc, List.singleton_append]
  -- the other place stands behind the digits
  have hbehind : ∃ w, tail = w ++ c :: (pageParamName ++ y) := by
    rcases found_before_sep hc heq with ⟨y', -, hy'⟩ | ⟨x', rfl, -⟩
    · rcases List.append_eq_append_iff.mp hy' with ⟨w, -, hw⟩ | ⟨z, hz, hcz⟩
      · exact ⟨w, hw⟩
      · cases z with
        | nil => exact ⟨[], by simpa using hcz.symm⟩
        | cons d z =>
          rw [List.cons_append, List.cons.injEq] at hcz
          have hdigit := hdigits d (by rw [hz]; simp)
          rw [← hcz.1] at hdigit
          rcases hc with rfl | rfl
          · exact absurd hdigit (by decide)
          · exact absurd hdigit (by decide)
    · simp at hlt
  obtain ⟨w, rfl⟩ := hbehind
  have hplace (o : Bytes) : HasPageParam (o ++ c :: (pageParamName ++ y)) := by
    refine ⟨o ++ [c], y, by simp, atBoundary_iff.mpr (Or.inr (endsInSep_concat.mpr hc))⟩
  refine hnone ?_
  cases w with
  | nil =>
    rw [List.nil_append]
    by_cases hamp : c = 38
    · rw [hamp, joined_amp]
      exact ⟨before, y, rfl, hfound.2⟩
    · rw [joined_of_not (by simpa using hamp)]
      exact hplace _
  | cons d w =>
    rw [List.cons_append]
    by_cases hamp : d = 38
    · rw [hamp, joined_amp, ← List.append_assoc]
      exact hplace _
    · rw [joined_of_not (by simpa using hamp), ← List.cons_append, ← List.append_assoc]
      exact hplace _

theorem FoundAt.length_eq (h : FoundAt uri before rest) :
    uri.length = before.length + (7 + rest.length) := by
  have hname : pageParamName.length = 7 := by decide
  rw [h.1, List.length_append, List.length_append, hname]

/-- What is left is no longer than its parts. -/
theorem length_joined_le (before tail : Bytes) :
    (joined before tail).length ≤ before.length + tail.length := by
  rw [joined]
  split_ifs
  · rw [List.length_append, List.length_drop]
    omega
  · rw [List.length_append, List.length_dropLast]
    omega

/-- A parameter that stands before the one that is found first is none. -/
theorem not_hasPageParam_dropLast (hfound : FoundAt uri before rest)
    (hmin : ∀ x y, FoundAt uri x y → before.length ≤ x.length) :
    ¬ HasPageParam before.dropLast := by
  rintro ⟨x, y, heq, hx⟩
  have hbefore : before = x ++ (pageParamName ++ (y ++ before.drop (before.length - 1))) := by
    calc before = before.dropLast ++ before.drop (before.length - 1) := by
          rw [List.dropLast_eq_take, List.take_append_drop]
      _ = _ := by rw [heq, List.append_assoc, List.append_assoc]
  have hlen := hmin x (y ++ before.drop (before.length - 1) ++ (pageParamName ++ rest)) ⟨by
    rw [hfound.1]
    nth_rewrite 1 [hbefore]
    simp only [List.append_assoc], hx⟩
  have hname : pageParamName.length = 7 := by decide
  have hlen' := congrArg List.length hbefore
  rw [List.length_append, List.length_append, hname] at hlen'
  omega

/-- Conversely, the one behind an address without one is the first. -/
theorem first_of_not_hasPageParam (hfound : FoundAt uri before rest)
    (hends : EndsInSep before) (hnone : ¬ HasPageParam before.dropLast) (x y : Bytes)
    (hother : FoundAt uri x y) : before.length ≤ x.length := by
  obtain ⟨b, c, rfl, hc⟩ := exists_of_endsInSep hends
  rw [List.dropLast_concat] at hnone
  have heq : b ++ c :: (pageParamName ++ rest) = x ++ (pageParamName ++ y) := by
    rw [← hother.1, hfound.1, List.append_assoc, List.singleton_append]
  rcases found_before_sep hc heq with ⟨y', hb, -⟩ | ⟨x', rfl, -⟩
  · exact absurd ⟨x, y', hb, hother.2⟩ hnone
  · simp

end Found

/-! ## The addresses that are read back -/

/-- An address without a page that does not end with a separator. -/
structure Plain (r : Bytes) : Prop where
  /-- No parameter is found. -/
  noPage : ¬ HasPageParam r
  /-- No separator is left at the end. -/
  noSep : ¬ EndsInSep r

/-- What is left of an address whose parameter has the digits, then `tail`: nothing, another
parameter, or a `?` that is taken for an empty query. -/
def LeftOver (before tail r : Bytes) : Prop :=
  tail = [] ∧ SameAddress r before.dropLast ∨
    (∃ t, tail = 38 :: t ∧ SameAddress r (before ++ t)) ∨
    tail = [63] ∧ r = before.dropLast

/-- The address has one page parameter, with digits for its value, in its query; what is left
without it is plain. -/
def OnePageParam (uri : Bytes) : Prop :=
  ∃ before digits tail r, FoundAt uri before (digits ++ tail) ∧ (∀ d ∈ digits, isDigit d = true) ∧
    InQuery before ∧ LeftOver before tail r ∧ Plain r

theorem LeftOver.hasPageParam {before tail r : Bytes} (h : LeftOver before tail r)
    (hends : EndsInSep before) (hpage : HasPageParam before.dropLast) : HasPageParam r := by
  rcases h with ⟨-, hsame⟩ | ⟨t, -, hsame⟩ | ⟨-, rfl⟩
  · exact hsame.hasPageParam_iff.mp hpage
  · obtain ⟨b, c, rfl, -⟩ := exists_of_endsInSep hends
    rw [List.dropLast_concat] at hpage
    exact hsame.hasPageParam_iff.mp ((hpage.append _).append _)
  · exact hpage

theorem LeftOver.head_tail {before tail r : Bytes} (h : LeftOver before tail r) :
    ∀ c ∈ tail.head?, isDigit c = false := by
  rcases h with ⟨rfl, -⟩ | ⟨t, rfl, -⟩ | ⟨rfl, -⟩
  · simp
  · rintro c hc
    obtain rfl := Option.some.inj hc
    decide
  · rintro c hc
    obtain rfl := Option.some.inj hc
    decide

theorem LeftOver.dropSep_joined {before tail r : Bytes} (h : LeftOver before tail r)
    (hr : ¬ EndsInSep r) : dropSep (joined before tail) = r := by
  rcases h with ⟨rfl, hsame⟩ | ⟨t, rfl, hsame⟩ | ⟨rfl, rfl⟩
  · rw [joined_of_not (by simp), List.append_nil, dropSep_of_same hsame hr]
  · rw [joined_amp, dropSep_of_same hsame hr]
  · rw [joined_of_not (by decide), dropSep_concat (Or.inl rfl)]

theorem amp_notMem_of_digits {digits : Bytes} (h : ∀ d ∈ digits, isDigit d = true) :
    38 ∉ digits := fun hmem => absurd (h 38 hmem) (by decide)

/-- One page parameter is dropped, and nothing else. -/
theorem OnePageParam.kept {uri : Bytes} (h : OnePageParam uri) :
    Plain (dropPageParam uri) ∧ SameAddress (dropPageParam uri) (withoutPage uri) := by
  obtain ⟨before, digits, tail, r, hfound, hdigits, hquery, hleft, hplain⟩ := h
  have hnone : ¬ HasPageParam before.dropLast :=
    fun hpage => hplain.noPage (hleft.hasPageParam hquery.endsInSep hpage)
  have hmin := first_of_not_hasPageParam hfound hquery.endsInSep hnone
  rw [dropPageParam_eq hfound hmin hdigits hleft.head_tail, hleft.dropSep_joined hplain.noSep]
  refine ⟨hplain, ?_⟩
  have hamp := amp_notMem_of_digits hdigits
  rcases hleft with ⟨rfl, hsame⟩ | ⟨t, rfl, hsame⟩ | ⟨rfl, rfl⟩
  · rw [hfound.1, List.append_nil, (withoutPage_one hquery hnone hamp).1]
    exact hsame
  · have hpieces : NoPagePiece t := by
      intro piece hpiece
      by_contra hpage
      rw [Bool.not_eq_false] at hpage
      obtain ⟨a, y, -, hplace, -⟩ := found_of_piece hquery.endsInSep hpiece hpage
      exact hplain.noPage (hsame.hasPageParam_iff.mp ⟨_, _, hplace⟩)
    rw [hfound.1, (withoutPage_one hquery hnone hamp).2 t hpieces]
    exact hsame
  · rw [hfound.1, (withoutPage_one hquery hnone (by simp [hamp])).1]
    exact Or.inl rfl

section Kept

variable {uri before digits tail : Bytes}

/-- The parameter that is taken out of an address stood in its query. -/
theorem inQuery_of_kept (hfound : FoundAt uri before (digits ++ tail))
    (hunique : ∀ x y, FoundAt uri x y → x = before)
    (hsame : SameAddress (dropSep (joined before tail)) (withoutPage uri)) : InQuery before := by
  by_contra hquery
  have hkeep : withoutPage uri = uri :=
    withoutPage_of_not_found fun x y hplace => hunique x y hplace ▸ hquery
  rw [hkeep] at hsame
  -- at least the name is gone
  have h1 := hsame.length_le.2
  have h2 := (length_dropSep (joined before tail)).1
  have h3 := length_joined_le before tail
  have h4 := hfound.length_eq
  rw [List.length_append] at h4
  omega

/-- Behind the digits of a parameter that another follows, nothing of its value is left. -/
theorem value_eq_nil_of_kept {b w t : Bytes} {c : UInt8} (hc : c = 63 ∨ c = 38)
    (hw : 38 ∉ w) (hnoSep : ¬ EndsInSep (dropSep (joined (b ++ [c]) (w ++ 38 :: t))))
    (hsame : SameAddress (dropSep (joined (b ++ [c]) (w ++ 38 :: t))) (b ++ [c] ++ t)) :
    w = [] := by
  cases w with
  | nil => rfl
  | cons d w =>
    exfalso
    have hd : d ≠ 38 := fun h => hw (h ▸ List.mem_cons_self)
    have hjoin : joined (b ++ [c]) (d :: w ++ 38 :: t) = b ++ (d :: w ++ 38 :: t) := by
      rw [joined_of_not (by simpa using hd), List.dropLast_concat]
    rw [hjoin] at hsame hnoSep
    -- the value is a byte, and a separator went at the end in its place
    have hlen := (length_dropSep (b ++ (d :: w ++ 38 :: t))).2
    have hle := hsame.length_le.1
    have heq := hsame.eq_of_length (by
      simp only [List.length_append, List.length_cons, List.length_nil] at hlen ⊢
      omega)
    by_cases hends : EndsInSep (b ++ (d :: w ++ 38 :: t))
    · obtain ⟨r, e, hr, he⟩ := exists_of_endsInSep hends
      rw [hr, dropSep_concat he] at heq hnoSep hle
      have hcount := congrArg List.length hr
      simp only [List.length_append, List.length_cons, List.length_nil] at hcount hle
      obtain rfl : w = [] := List.eq_nil_of_length_eq_zero (by omega)
      -- so `&` and what follows it is what follows it and that separator
      rw [← heq, List.append_assoc, List.append_assoc, List.append_cancel_left_eq,
        List.singleton_append, List.singleton_append, List.cons.injEq] at hr
      rw [← heq, List.append_assoc, endsInSep_append (by simp)] at hnoSep
      rcases List.eq_nil_or_concat t with rfl | ⟨t', e', rfl⟩
      · exact hnoSep (endsInSep_concat (s := []).mpr hc)
      · have hlast := congrArg List.getLast? hr.2
        rw [List.concat_eq_append] at hlast hnoSep
        rw [← List.cons_append, List.getLast?_concat, List.getLast?_concat] at hlast
        obtain rfl := Option.some.inj hlast
        rw [← List.append_assoc] at hnoSep
        exact hnoSep (endsInSep_concat.mpr he)
    · rw [dropSep_of_not hends] at hle
      simp only [List.length_append, List.length_cons, List.length_nil] at hle
      omega

/-- Behind the digits of a last parameter stands nothing, or a `?`. -/
theorem tail_of_kept {b tail : Bytes} {c : UInt8} (htail : 38 ∉ tail)
    (hsame : SameAddress (dropSep (joined (b ++ [c]) tail)) b) : tail = [] ∨ tail = [63] := by
  have hjoin : joined (b ++ [c]) tail = b ++ tail := by
    rw [joined_of_not fun h => htail (List.mem_of_head? h), List.dropLast_concat]
  rw [hjoin] at hsame
  have hle := hsame.length_le.1
  by_cases hends : EndsInSep (b ++ tail)
  · have hlen := (length_dropSep (b ++ tail)).2
    rw [List.length_append] at hlen
    have hone : tail.length ≤ 1 := by omega
    match tail, hone with
    | [], _ => exact Or.inl rfl
    | [d], _ =>
      rcases endsInSep_concat.mp hends with rfl | rfl
      · exact Or.inr rfl
      · exact absurd List.mem_cons_self htail
  · rw [dropSep_of_not hends, List.length_append] at hle
    exact Or.inl (List.eq_nil_of_length_eq_zero (by omega))

/-- What is left when a parameter alone is taken out of its query. -/
theorem leftOver_of_kept (hfound : FoundAt uri before (digits ++ tail))
    (hunique : ∀ x y, FoundAt uri x y → x = before) (hdigits : ∀ d ∈ digits, isDigit d = true)
    (hquery : InQuery before) (hnone : ¬ HasPageParam before.dropLast)
    (hnoSep : ¬ EndsInSep (dropSep (joined before tail)))
    (hsame : SameAddress (dropSep (joined before tail)) (withoutPage uri)) :
    LeftOver before tail (dropSep (joined before tail)) := by
  have hamp := amp_notMem_of_digits hdigits
  obtain ⟨b, c, rfl, hc⟩ := exists_of_endsInSep hquery.endsInSep
  by_cases hmore : 38 ∈ tail
  · obtain ⟨w, t, rfl, hw⟩ := List.eq_append_cons_of_mem hmore
    -- a page parameter behind would be another place
    have hpieces : NoPagePiece t := by
      intro piece hpiece
      by_contra hpage
      rw [Bool.not_eq_false] at hpage
      have ho : EndsInSep (b ++ [c] ++ (pageParamName ++ (digits ++ w)) ++ [38]) :=
        endsInSep_concat.mpr (Or.inr rfl)
      obtain ⟨a, y, -, hplace, -⟩ := found_of_piece ho hpiece hpage
      have huri : uri = b ++ [c] ++ (pageParamName ++ (digits ++ w)) ++ [38] ++ t := by
        rw [hfound.1]
        simp
      have hlen := congrArg List.length (hunique _ _ (huri ▸ hplace))
      have hname : pageParamName.length = 7 := by decide
      simp only [List.length_append, List.length_singleton, hname] at hlen
      omega
    have hkeep : withoutPage uri = b ++ [c] ++ t := by
      rw [hfound.1, ← List.append_assoc digits]
      exact (withoutPage_one hquery hnone (by simp [hamp, hw])).2 t hpieces
    rw [hkeep] at hsame
    obtain rfl := value_eq_nil_of_kept hc hw hnoSep hsame
    exact Or.inr (Or.inl ⟨t, rfl, hsame⟩)
  · have hkeep : withoutPage uri = b := by
      rw [hfound.1, (withoutPage_one hquery hnone (by simp [hamp, hmore])).1, List.dropLast_concat]
    rw [hkeep] at hsame
    rcases tail_of_kept hmore hsame with rfl | rfl
    · exact Or.inl ⟨rfl, by rwa [List.dropLast_concat]⟩
    · refine Or.inr (Or.inr ⟨rfl, ?_⟩)
      rw [joined_of_not (by decide), dropSep_concat (Or.inl rfl)]

end Kept

/-- **What is dropped is the page parameter alone**, and leaves a plain address, exactly for an
address that is plain or holds one page parameter. -/
theorem plain_dropPageParam_iff (uri : Bytes) :
    Plain (dropPageParam uri) ∧ SameAddress (dropPageParam uri) (withoutPage uri) ↔
      Plain uri ∨ OnePageParam uri := by
  by_cases hpage : HasPageParam uri
  · constructor
    · rintro ⟨hplain, hsame⟩
      right
      obtain ⟨⟨before, rest⟩, hsplit⟩ := Option.ne_none_iff_exists'.mp
        (mt splitPageParam_eq_none_iff.mp (not_not.mpr hpage))
      obtain ⟨hfound, hmin⟩ := of_splitPageParam hsplit
      have hdigits : ∀ d ∈ rest.takeWhile isDigit, isDigit d = true := fun d hd =>
        List.mem_takeWhile_imp hd
      have htail : ∀ c ∈ (rest.dropWhile isDigit).head?, isDigit c = false := by
        intro c hc
        have := List.head?_dropWhile_not isDigit rest
        rw [Option.mem_def.mp hc] at this
        simpa using this
      rw [← List.takeWhile_append_dropWhile (p := isDigit) (l := rest)] at hfound
      have hdrop := dropPageParam_eq hfound hmin hdigits htail
      rw [hdrop] at hplain hsame
      have hunique (x y) (h : FoundAt uri x y) : x = before :=
        eq_of_found hfound hdigits (mt hasPageParam_dropSep.mpr hplain.noPage) h (hmin x y h)
      have hquery := inQuery_of_kept hfound hunique hsame
      exact ⟨before, _, _, _, hfound, hdigits, hquery,
        leftOver_of_kept hfound hunique hdigits hquery (not_hasPageParam_dropLast hfound hmin)
          hplain.noSep hsame, hplain⟩
    · rintro (hplain | hone)
      · exact absurd hpage hplain.noPage
      · exact hone.kept
  · have hdrop : dropPageParam uri = uri := by
      rw [dropPageParam, splitPageParam_eq_none_iff.mpr hpage]
    have hkeep : withoutPage uri = uri :=
      withoutPage_of_not_found fun before rest hfound => absurd ⟨before, rest, hfound⟩ hpage
    rw [hdrop, hkeep]
    constructor
    · exact fun h => Or.inl h.1
    · rintro (hplain | ⟨before, digits, tail, r, hfound, -⟩)
      · exact ⟨hplain, Or.inl rfl⟩
      · exact absurd ⟨before, _, hfound⟩ hpage

/-! ## A page that is set -/

/-- A separator ends the number of a page. -/
theorem pageNumber_append_sep (hc : c = 63 ∨ c = 38) (a b : Bytes) : pageNumber (a ++ c :: b) = pageNumber a := by
  have hplain : isSpace c = false ∧ isDigit c = false ∧ c ≠ 45 ∧ c ≠ 43 := by
    rcases hc with rfl | rfl
    · decide
    · decide
  have hdrop : (a ++ c :: b).dropWhile isSpace = a.dropWhile isSpace ++ c :: b := by
    induction a with
    | nil => simp [hplain.1]
    | cons d a ih => by_cases hd : isSpace d = true <;> simp [hd, ih]
  have htake (t : Bytes) : (t ++ c :: b).takeWhile isDigit = t.takeWhile isDigit := by
    induction t with
    | nil => simp [hplain.2.1]
    | cons d t ih => by_cases hd : isDigit d = true <;> simp [hd, ih]
  simp only [pageNumber, hdrop]
  cases a.dropWhile isSpace with
  | nil => simp [hplain]
  | cons d t =>
    simp only [List.cons_append, List.head?_cons, List.drop_succ_cons, List.drop_zero]
    by_cases hsign : (some d == some 45 || some d == some 43) = true
    · rw [if_pos hsign, if_pos hsign, htake]
    · rw [if_neg hsign, if_neg hsign, ← List.cons_append, htake]

/-- The number of a page is read back. -/
theorem pageNumber_decimal (k : ℕ) : pageNumber (decimal k) = k := by
  have h : pageNumber ([] ++ (decimal k ++ [])) = digitsValue 10 0 (decimal k) :=
    pageNumber_of_digits (by simp) (decimal_ne_nil k) (fun b hb => isDigit_of_mem_decimal hb) (by simp)
  rw [List.nil_append, List.append_nil] at h
  rw [h, digitsValue_decimal]

/-- The separator a page parameter is put behind. -/
def pageSep (r : Bytes) : UInt8 := if 63 ∈ r then 38 else 63

theorem pageSep_eq (r : Bytes) : pageSep r = 63 ∨ pageSep r = 38 := by
  rw [pageSep]
  split_ifs
  · exact Or.inr rfl
  · exact Or.inl rfl

/-- An address with a page set. -/
def withPage (r : Bytes) (k : ℕ) : Bytes := r ++ [pageSep r] ++ (pageParamName ++ decimal k)

theorem foundAt_withPage (r : Bytes) (k : ℕ) :
    FoundAt (withPage r k) (r ++ [pageSep r]) (decimal k ++ []) :=
  ⟨by rw [List.append_nil]; rfl, atBoundary_iff.mpr (Or.inr (endsInSep_concat.mpr (pageSep_eq r)))⟩

theorem inQuery_withPage (r : Bytes) : InQuery (r ++ [pageSep r]) := by
  by_cases h : 63 ∈ r
  · exact Or.inr ⟨r, h, by rw [pageSep, if_pos h]⟩
  · exact Or.inl ⟨r, h, by rw [pageSep, if_neg h]⟩

section WithPage

variable {r : Bytes}

/-- The page is what is found in an address that had none. -/
theorem pageParam_withPage (hr : ¬ HasPageParam r) (k : ℕ) : pageParam (withPage r k) = k := by
  have hmin := first_of_not_hasPageParam (foundAt_withPage r k)
    (endsInSep_concat.mpr (pageSep_eq r)) (by rwa [List.dropLast_concat])
  rw [pageParam, splitPageParam_of_first (foundAt_withPage r k) hmin]
  simp only [List.append_nil]
  exact pageNumber_decimal k

/-- It is dropped again, with a separator in front of it. -/
theorem dropPageParam_withPage (hr : ¬ HasPageParam r) (k : ℕ) :
    dropPageParam (withPage r k) = dropSep r := by
  have hmin := first_of_not_hasPageParam (foundAt_withPage r k)
    (endsInSep_concat.mpr (pageSep_eq r)) (by rwa [List.dropLast_concat])
  have hdigits (d : UInt8) (hd : d ∈ decimal k) : isDigit d = true := isDigit_of_mem_decimal hd
  rw [dropPageParam_eq (foundAt_withPage r k) hmin hdigits (by simp), joined_of_not (by simp),
    List.dropLast_concat, List.append_nil]

/-- Taking the page away undoes putting it in. -/
theorem withoutPage_withPage (hr : ¬ HasPageParam r) (k : ℕ) : withoutPage (withPage r k) = r := by
  have hamp := amp_notMem_of_digits fun d (hd : d ∈ decimal k) => isDigit_of_mem_decimal hd
  rw [withPage, (withoutPage_one (inQuery_withPage r) (by rwa [List.dropLast_concat]) hamp).1,
    List.dropLast_concat]

/-- Where the address has a page already, that one is read, whichever is set. -/
theorem pageParam_withPage_of_found (hr : HasPageParam r) (k k' : ℕ) :
    pageParam (withPage r k) = pageParam (withPage r k') := by
  obtain ⟨⟨x, y⟩, hsplit⟩ := Option.ne_none_iff_exists'.mp
    (mt splitPageParam_eq_none_iff.mp (not_not.mpr hr))
  obtain ⟨hfound, hmin⟩ := of_splitPageParam hsplit
  suffices h : ∀ k, pageParam (withPage r k) = pageNumber y by rw [h, h]
  intro k
  have hfound' : FoundAt (withPage r k) x (y ++ pageSep r :: (pageParamName ++ decimal k)) := by
    refine ⟨?_, hfound.2⟩
    rw [withPage]
    nth_rewrite 1 [hfound.1]
    simp
  have hmin' (x' y' : Bytes) (hplace : FoundAt (withPage r k) x' y') : x.length ≤ x'.length := by
    have heq : r ++ pageSep r :: (pageParamName ++ decimal k) = x' ++ (pageParamName ++ y') := by
      rw [← hplace.1, withPage, List.append_assoc, List.singleton_append]
    rcases found_before_sep (pageSep_eq r) heq with ⟨z, hz, -⟩ | ⟨z, rfl, -⟩
    · exact hmin x' z ⟨hz, hplace.2⟩
    · have := hfound.length_eq
      rw [List.length_append]
      omega
  rw [pageParam, splitPageParam_of_first hfound' hmin']
  exact pageNumber_append_sep (pageSep_eq r) y _

end WithPage

/-! ## The page parameter of an address -/

/-- The address with the page set fits the buffer of the address, and one of `size` bytes. -/
def FitsPage (uri : Bytes) (page : ℤ) (size : ℕ) : Prop :=
  uri.length ≤ 1023 ∧ (pagelessUri uri ++ pageSuffix uri page.toNat).length < min 1024 size

/-- **The page parameter is read back as written**: as the page; replaced by another as in the
address itself; and with the rest of the address as it was, also when the page is removed. -/
structure PageKept (uri : Bytes) (size : ℕ) : Prop where
  /-- The page that is set is read. -/
  readBack : ∀ k : ℤ, 0 < k → k < 2 ^ 31 → FitsPage uri k size →
    pageParam (setPageParam uri k size) = k
  /-- The next page replaces it. -/
  setAgain : ∀ k j : ℤ, 0 < k → k < 2 ^ 31 → FitsPage uri k size →
    setPageParam (setPageParam uri k size) j size = setPageParam uri j size
  /-- Page 0 leaves the address without its fragment and its page parameters. -/
  removed : SameAddress (setPageParam uri 0 size) (withoutPage (withoutFragment uri))
  /-- The other parameters stay. -/
  othersKept : ∀ k : ℤ, 0 < k → k < 2 ^ 31 → FitsPage uri k size →
    SameAddress (withoutPage (setPageParam uri k size)) (withoutPage (withoutFragment uri))

theorem setPageParam_of_fits {uri : Bytes} {page : ℤ} {size : ℕ} (h : FitsPage uri page size) :
    setPageParam uri page size = pagelessUri uri ++ pageSuffix uri page.toNat := by
  have hlen := lt_of_lt_of_le h.2 (min_le_right _ _)
  have heq : setPageParam uri page size =
      (pagelessUri uri ++ pageSuffix uri page.toNat).take (size - 1) := by
    simp only [setPageParam, pageSuffix]
    rw [← pagelessUri]
    by_cases h0 : page ≤ 0
    · rw [if_pos h0, if_pos (Int.toNat_of_nonpos h0), List.append_nil]
    · have hne : page.toNat ≠ 0 := by omega
      rw [if_neg h0, if_neg hne]
      simp only [List.append_assoc]
  rw [heq, List.take_of_length_le (by omega)]

theorem append_pageSuffix (uri : Bytes) {k : ℕ} (hk : k ≠ 0) :
    pagelessUri uri ++ pageSuffix uri k = withPage (pagelessUri uri) k := by
  have hamp : lit "&" = [38] := by decide
  have hmark : lit "?" = [63] := by decide
  rw [pageSuffix, if_neg hk, withPage, pageSep, hamp, hmark]
  split_ifs
  · simp
  · simp

/-- No fragment is left. -/
theorem hash_notMem_pagelessUri (uri : Bytes) : 35 ∉ pagelessUri uri := by
  intro h
  have hmem := dropPageParam_subset _ h
  simpa using List.mem_takeWhile_imp hmem

/-- An address with a page set has no fragment. -/
theorem withoutFragment_withPage {r : Bytes} (hr : 35 ∉ r) {k : ℕ}
    (hlen : (withPage r k).length ≤ 1023) : withoutFragment (withPage r k) = withPage r k := by
  rw [withoutFragment, List.take_of_length_le hlen]
  refine List.takeWhile_eq_self_iff.mpr fun c hc => ?_
  have hne : c ≠ 35 := by
    rintro rfl
    rw [withPage, List.mem_append, List.mem_append, List.mem_append, List.mem_singleton] at hc
    rcases hc with (hc | hc) | hc | hc
    · exact hr hc
    · rcases pageSep_eq r with h | h
      · exact absurd (hc.trans h) (by decide)
      · exact absurd (hc.trans h) (by decide)
    · exact absurd hc (by decide)
    · exact absurd (isDigit_of_mem_decimal hc) (by decide)
  simpa using hne

section SetPage

variable {k : ℤ}
variable {uri : Bytes} {size : ℕ}

/-- What is set on an address is a page on what is left without its own. -/
theorem setPageParam_eq_withPage (hk : 0 < k) (h : FitsPage uri k size) :
    setPageParam uri k size = withPage (pagelessUri uri) k.toNat ∧
      withoutFragment (setPageParam uri k size) = setPageParam uri k size := by
  have hne : k.toNat ≠ 0 := by omega
  have heq : setPageParam uri k size = withPage (pagelessUri uri) k.toNat := by
    rw [setPageParam_of_fits h, append_pageSuffix uri hne]
  refine ⟨heq, ?_⟩
  have hlen := lt_of_lt_of_le h.2 (min_le_left _ _)
  rw [append_pageSuffix uri hne] at hlen
  rw [heq]
  exact withoutFragment_withPage (hash_notMem_pagelessUri uri) (Nat.le_of_lt_succ hlen)

theorem pagelessUri_setPageParam (hk : 0 < k) (h : FitsPage uri k size)
    (hnone : ¬ HasPageParam (pagelessUri uri)) :
    pagelessUri (setPageParam uri k size) = dropSep (pagelessUri uri) := by
  obtain ⟨heq, hfragment⟩ := setPageParam_eq_withPage hk h
  rw [pagelessUri, hfragment, heq, dropPageParam_withPage hnone]

theorem FitsPage.zero (h : FitsPage uri k size) : FitsPage uri 0 size := by
  refine ⟨h.1, lt_of_le_of_lt ?_ h.2⟩
  rw [List.length_append, List.length_append]
  exact Nat.add_le_add_left (Nat.zero_le _) _

/-- The first two pages are as long. -/
theorem FitsPage.two (h : FitsPage uri 1 size) : FitsPage uri 2 size := by
  refine ⟨h.1, ?_⟩
  have h1 : (1 : ℤ).toNat ≠ 0 := by decide
  have h2 : (2 : ℤ).toNat ≠ 0 := by decide
  have hlen : (decimal (2 : ℤ).toNat).length = (decimal (1 : ℤ).toNat).length := by decide
  have hfit := h.2
  rw [append_pageSuffix uri h1, withPage, List.length_append, List.length_append,
    List.length_append] at hfit
  rw [append_pageSuffix uri h2, withPage, List.length_append, List.length_append,
    List.length_append, hlen]
  exact hfit

/-- The page that is set comes back when what is left without one is plain, and only then. -/
theorem pageKept_iff_plain (hfit : FitsPage uri 1 size) :
    PageKept uri size ↔ Plain (pagelessUri uri) ∧
      SameAddress (pagelessUri uri) (withoutPage (withoutFragment uri)) := by
  have hzero : setPageParam uri 0 size = pagelessUri uri := by
    rw [setPageParam_of_fits hfit.zero]
    exact List.append_nil _
  constructor
  · intro h
    have hnone : ¬ HasPageParam (pagelessUri uri) := by
      intro hpage
      have h1 := h.readBack 1 (by decide) (by decide) hfit
      have h2 := h.readBack 2 (by decide) (by decide) hfit.two
      rw [(setPageParam_eq_withPage (by decide) hfit).1] at h1
      rw [(setPageParam_eq_withPage (by decide) hfit.two).1] at h2
      rw [pageParam_withPage_of_found hpage _ (2 : ℤ).toNat, h2] at h1
      exact absurd h1 (by decide)
    refine ⟨⟨hnone, fun hends => ?_⟩, hzero ▸ h.removed⟩
    -- the second page would take the separator
    have hagain := h.setAgain 1 0 (by decide) (by decide) hfit
    have hdrop := pagelessUri_setPageParam (by decide) hfit hnone
    rw [pagelessUri] at hdrop
    rw [hzero, setPageParam, hdrop, if_pos le_rfl] at hagain
    obtain ⟨r, c, hr, hc⟩ := exists_of_endsInSep hends
    have hlen := congrArg List.length hagain
    rw [hr, dropSep_concat hc, List.length_take, List.length_append, List.length_singleton] at hlen
    omega
  · rintro ⟨hplain, hsame⟩
    refine ⟨fun k hk hmax h => ?_, fun k j hk hmax h => ?_, hzero.symm ▸ hsame,
      fun k hk hmax h => ?_⟩
    · rw [(setPageParam_eq_withPage hk h).1, pageParam_withPage hplain.noPage]
      exact Int.toNat_of_nonneg (le_of_lt hk)
    · have hdrop := pagelessUri_setPageParam hk h hplain.noPage
      rw [dropSep_of_not hplain.noSep, pagelessUri] at hdrop
      rw [setPageParam, hdrop]
      rfl
    · rw [(setPageParam_eq_withPage hk h).1, withoutPage_withPage hplain.noPage]
      exact hsame

/-- **The page parameter is read back as written** exactly when the address, without its fragment,
has none and ends with no separator, or has one: a parameter of its query whose value is digits,
with a plain address around it. -/
theorem pageKept_iff (hfit : FitsPage uri 1 size) :
    PageKept uri size ↔ Plain (withoutFragment uri) ∨ OnePageParam (withoutFragment uri) := by
  rw [pageKept_iff_plain hfit]
  exact plain_dropPageParam_iff _

end SetPage

/-- A second page of a list keeps its parameter. -/
theorem pageKept_secondPage : PageKept (lit "/list?a=1&__page=2&b=2") 1100 := by
  refine (pageKept_iff ⟨by decide, by decide⟩).mpr (Or.inr ?_)
  refine ⟨lit "/list?a=1&", lit "2", lit "&b=2", lit "/list?a=1&b=2", ⟨by decide, ?_⟩,
    by decide, Or.inr ⟨lit "/list?a=1", by decide, by decide⟩,
    Or.inr (Or.inl ⟨lit "b=2", by decide, Or.inl (by decide)⟩),
    splitPageParam_eq_none_iff.mp (by decide), ?_⟩
  · exact atBoundary_iff.mpr (by decide)
  · rw [EndsInSep]
    decide

/-- Of an address with the parameter twice, one stays and is read for every page. -/
theorem not_pageKept_repeated : ¬ PageKept (lit "/list?__page=2&__page=3") 1100 := by
  intro h
  have h1 := h.readBack 1 (by decide) (by decide) ⟨by decide, by decide⟩
  exact absurd h1 (by decide)

end BoatRudder.Wbxml
