import BoatRudder.Formats.FormUrlencoded
import BoatRudder.Utils.EpochResponse

/-! # The links of a page

A page in pieces: the addresses of the site that a marker opens, and the bytes in between. The three
passes of `inject_query_param_into_links`, one for each marker, tag them one kind after the other
(`injectQueryParamIntoLinks_eq`), as long as each pass reads the addresses of its kind and no others. -/

namespace BoatRudder.Utils

/-! ## Markers -/

/-- The quote a marker ends with, which also closes the address. -/
def quoteOf (marker : Bytes) : UInt8 := marker.getLastD 0

/-- No marker overlaps another. -/
theorem eq_of_overlap : ∀ m ∈ linkMarkers, ∀ m' ∈ linkMarkers, ∀ r ∈ m'.tails, r ≠ [] →
    (m <+: r ∨ r <+: m) → r = m' ∧ m' = m := by decide

/-- A marker has its quote at its end, and no quote before. -/
theorem marker_eq : ∀ m ∈ linkMarkers, m = m.dropLast ++ [quoteOf m] ∧ 6 ≤ m.length ∧
    quoteOf m ≠ 47 ∧ ∀ m' ∈ linkMarkers, quoteOf m' ∉ m.dropLast := by decide

theorem not_nil_mem_linkMarkers {m : Bytes} (hm : m ∈ linkMarkers) : m ≠ [] := by
  rintro rfl
  exact absurd (marker_eq [] hm).2.1 (by decide)

/-- What is common to a marker's end and to what begins with another marker. -/
theorem eq_of_prefix_append {m m' r s : Bytes} (hm : m ∈ linkMarkers) (hm' : m' ∈ linkMarkers)
    (hr : r <:+ m') (hne : r ≠ []) {t : Bytes} (h : m ++ s = r ++ t) : r = m' ∧ m' = m := by
  refine eq_of_overlap m hm m' hm' r ((List.mem_tails _ _).mpr hr) hne ?_
  exact List.prefix_or_prefix_of_prefix (List.prefix_append m s) (h ▸ List.prefix_append r t)

/-! ## Pieces -/

/-- An address within the site. -/
def SiteRelative (v : Bytes) : Prop := v.head? = some 47 ∧ (v.drop 1).head? ≠ some 47

instance (v : Bytes) : Decidable (SiteRelative v) := inferInstanceAs (Decidable (_ ∧ _))

/-- A marker that stands in front of an address and its quote. -/
def OpensAddress (marker s : Bytes) : Prop := marker <+: s ∧ quoteOf marker ∈ s.drop marker.length

instance (marker s : Bytes) : Decidable (OpensAddress marker s) := inferInstanceAs (Decidable (_ ∧ _))

/-- The address that a marker opens. -/
def addressOf (marker s : Bytes) : Bytes := (s.drop marker.length).takeWhile (· ≠ quoteOf marker)

/-- A piece of a page. -/
inductive PagePiece
  | byte (c : UInt8)
  /-- A marker in front of an address elsewhere. -/
  | other (marker : Bytes)
  /-- An address within the site. -/
  | link (marker value : Bytes)
deriving DecidableEq

namespace PagePiece

/-- How a piece stands in the page. -/
def text : PagePiece → Bytes
  | byte c => [c]
  | other m => m
  | link m v => m ++ v ++ [quoteOf m]

/-- The markers whose address elsewhere goes on behind a piece: a marker of the same kind opens
nothing within it. -/
def stillOpen (skip : List Bytes) (p : PagePiece) : List Bytes :=
  let rest := skip.filter fun m => quoteOf m ∉ p.text
  match p with
  | other m => m :: rest
  | _ => rest

/-- The piece that `c :: s` begins with. -/
def next (skip : List Bytes) (c : UInt8) (s : Bytes) : PagePiece :=
  match linkMarkers.find? fun m => m ∉ skip ∧ OpensAddress m (c :: s) with
  | none => byte c
  | some m =>
    if SiteRelative (addressOf m (c :: s)) then link m (addressOf m (c :: s)) else other m

/-- Another address for a link. -/
def mapLink (g : Bytes → Bytes → Bytes) : PagePiece → PagePiece
  | link m v => link m (g m v)
  | p => p

end PagePiece

open PagePiece

/-- The text of some pieces. -/
def pageText (ps : List PagePiece) : Bytes := ps.flatMap text

@[simp] theorem pageText_nil : pageText [] = [] := rfl

@[simp] theorem pageText_cons (p : PagePiece) (ps : List PagePiece) :
    pageText (p :: ps) = p.text ++ pageText ps := rfl

/-- The pieces of a page, where the addresses behind the markers `skip` go on. -/
def pieces (skip : List Bytes) : Bytes → List PagePiece
  | [] => []
  | c :: s =>
    let p := next skip c s
    p :: pieces (p.stillOpen skip) (s.drop (p.text.length - 1))
termination_by s => s.length
decreasing_by
  simp only [List.length_cons, List.length_drop]
  omega

/-- A piece that may stand in front of `t`. -/
def Starts (skip : List Bytes) : PagePiece → Bytes → Prop
  | .byte c, t => ∀ m ∈ linkMarkers, m ∉ skip → ¬ OpensAddress m (c :: t)
  | .other m, t => m ∈ linkMarkers ∧ m ∉ skip ∧ quoteOf m ∈ t ∧
      ¬ SiteRelative (t.takeWhile (· ≠ quoteOf m))
  | .link m v, _ => m ∈ linkMarkers ∧ m ∉ skip ∧ SiteRelative v ∧ quoteOf m ∉ v

/-- Pieces that are those of their text. -/
def Reads : List Bytes → List PagePiece → Prop
  | _, [] => True
  | skip, p :: ps => Starts skip p (pageText ps) ∧ Reads (p.stillOpen skip) ps

variable {skip : List Bytes} {p : PagePiece} {ps : List PagePiece}

theorem Starts.text_ne_nil {t : Bytes} (h : Starts skip p t) : p.text ≠ [] := by
  cases p with
  | byte c => exact List.cons_ne_nil _ _
  | other m => exact not_nil_mem_linkMarkers h.1
  | link m v => simp [text]

/-- The next piece. -/
theorem next_spec (skip : List Bytes) (c : UInt8) (s : Bytes) :
    (next skip c s).text ++ s.drop ((next skip c s).text.length - 1) = c :: s ∧
      Starts skip (next skip c s) (s.drop ((next skip c s).text.length - 1)) := by
  rw [next]
  split
  · next hnone =>
      refine ⟨rfl, fun m hm hskip hopens => ?_⟩
      have hnot := List.find?_eq_none.mp hnone m hm
      exact hnot (decide_eq_true ⟨hskip, hopens⟩)
  · next m hsome =>
      have hm := List.mem_of_find?_eq_some hsome
      obtain ⟨hskip, ⟨rest, hrest⟩, hquote⟩ : m ∉ skip ∧ OpensAddress m (c :: s) := by
        simpa using List.find?_some hsome
      obtain ⟨-, hlen, -⟩ := marker_eq m hm
      have hdrop : (c :: s).drop m.length = rest := by rw [← hrest, List.drop_left]
      have hbehind : s.drop (m.length - 1) = rest := by
        rw [← hdrop, ← Nat.sub_add_cancel (show 1 ≤ m.length by omega), List.drop_succ_cons,
          Nat.add_sub_cancel]
      rw [hdrop] at hquote
      rw [addressOf, hdrop]
      split_ifs with hsite
      · have hsplit := takeWhile_afterByte hquote
        have hafter : s.drop ((link m (rest.takeWhile (· ≠ quoteOf m))).text.length - 1) =
            afterByte (quoteOf m) rest := by
          have htext : (link m (rest.takeWhile (· ≠ quoteOf m))).text.length - 1 =
              m.length - 1 + (rest.takeWhile (· ≠ quoteOf m) ++ [quoteOf m]).length := by
            simp only [text, List.length_append]
            omega
          rw [htext, ← List.drop_drop, hbehind]
          rw [List.append_cons] at hsplit
          exact (congrArg (List.drop _) hsplit).symm.trans List.drop_left
        refine ⟨?_, hm, hskip, hsite, notMem_takeWhile_ne _ _⟩
        rw [hafter, text, List.append_assoc, List.append_assoc, List.singleton_append, hsplit, hrest]
      · rw [text, hbehind]
        exact ⟨hrest, hm, hskip, hquote, hsite⟩

/-- A piece that may stand there is the next one. -/
theorem Starts.next_eq {t : Bytes} (h : Starts skip p t) {c : UInt8} {s : Bytes}
    (htext : p.text ++ t = c :: s) : next skip c s = p := by
  have hone : ∀ {m m' r : Bytes}, m ∈ linkMarkers → m' ∈ linkMarkers → m ++ r = c :: s → OpensAddress m' (c :: s) →
      m' = m := by
    rintro m m' r hm hm' hr ⟨⟨r', hr'⟩, -⟩
    exact (eq_of_prefix_append hm hm' List.suffix_rfl (not_nil_mem_linkMarkers hm') (hr.trans hr'.symm)).2
  have hfind : ∀ {m r : Bytes}, m ∈ linkMarkers → m ∉ skip → m ++ r = c :: s → quoteOf m ∈ r →
      (linkMarkers.find? fun m => m ∉ skip ∧ OpensAddress m (c :: s)) = some m ∧
        addressOf m (c :: s) = r.takeWhile (· ≠ quoteOf m) := by
    intro m r hm hskip hr hquote
    have hdrop : (c :: s).drop m.length = r := by rw [← hr, List.drop_left]
    have hopens : OpensAddress m (c :: s) := ⟨⟨r, hr⟩, hdrop ▸ hquote⟩
    refine ⟨?_, by rw [addressOf, hdrop]⟩
    cases hsome : linkMarkers.find? fun m => m ∉ skip ∧ OpensAddress m (c :: s) with
    | none => exact absurd (decide_eq_true ⟨hskip, hopens⟩) (List.find?_eq_none.mp hsome m hm)
    | some m' =>
      have hm' := List.mem_of_find?_eq_some hsome
      obtain ⟨-, hopens'⟩ : m' ∉ skip ∧ OpensAddress m' (c :: s) := by simpa using List.find?_some hsome
      rw [hone hm hm' hr hopens']
  cases p with
  | byte b =>
    have htext : b :: t = c :: s := htext
    have hnone : (linkMarkers.find? fun m => m ∉ skip ∧ OpensAddress m (c :: s)) = none := by
      rw [List.find?_eq_none]
      intro m hm hopens
      obtain ⟨hskip, hopens⟩ := of_decide_eq_true hopens
      exact h m hm hskip (htext ▸ hopens)
    rw [next, hnone, (List.cons.inj htext).1]
  | other m =>
    obtain ⟨hm, hskip, hquote, hsite⟩ := h
    obtain ⟨hsome, haddress⟩ := hfind hm hskip htext hquote
    rw [next, hsome]
    simp only [haddress, if_neg hsite]
  | link m v =>
    obtain ⟨hm, hskip, hsite, hquote⟩ := h
    rw [text, List.append_assoc, List.append_assoc, List.singleton_append] at htext
    obtain ⟨hsome, haddress⟩ := hfind hm hskip htext (by simp)
    rw [takeWhile_ne_append hquote] at haddress
    rw [next, hsome]
    simp only [haddress, if_pos hsite]

/-- A page is the text of its pieces. -/
theorem pageText_pieces (skip : List Bytes) (s : Bytes) :
    pageText (pieces skip s) = s ∧ Reads skip (pieces skip s) := by
  induction skip, s using pieces.induct with
  | case1 skip =>
    rw [pieces]
    exact ⟨rfl, trivial⟩
  | case2 skip c s p ih =>
    obtain ⟨htext, hstarts⟩ := next_spec skip c s
    rw [pieces]
    obtain ⟨ihtext, ihreads⟩ := ih
    refine ⟨?_, ?_, ihreads⟩
    · rw [pageText_cons, ihtext, htext]
    · rwa [ihtext]

/-- Pieces are read from their text. -/
theorem Reads.pieces_eq (h : Reads skip ps) : pieces skip (pageText ps) = ps := by
  induction ps generalizing skip with
  | nil => rw [pageText_nil, pieces]
  | cons p ps ih =>
    obtain ⟨hstarts, hreads⟩ := h
    obtain ⟨c, s, hcons⟩ := List.exists_cons_of_ne_nil hstarts.text_ne_nil
    have htext : p.text ++ pageText ps = c :: (s ++ pageText ps) := by rw [hcons]; rfl
    have hdrop : (s ++ pageText ps).drop (p.text.length - 1) = pageText ps := by
      rw [hcons, List.length_cons, Nat.add_sub_cancel, List.drop_left]
    rw [pageText_cons, htext, pieces, hstarts.next_eq htext]
    simp only [hdrop, ih hreads]

/-! ## A pass -/

variable {m param value : Bytes}

theorem tagValue_of_not {v : Bytes} (h : ¬ SiteRelative v) : tagValue param value v = v := by
  rw [tagValue]
  exact if_neg fun hsite => h hsite.1

theorem mem_stillOpen_iff (hm : ∀ m', p = .other m' → m ≠ m') :
    m ∈ p.stillOpen skip ↔ m ∈ skip ∧ quoteOf m ∉ p.text := by
  cases p with
  | other m' =>
    rw [stillOpen, List.mem_cons, List.mem_filter, decide_eq_true_eq]
    exact or_iff_right (hm m' rfl)
  | byte c => exact List.mem_filter.trans (and_congr_right fun _ => decide_eq_true_iff)
  | link m' v => exact List.mem_filter.trans (and_congr_right fun _ => decide_eq_true_iff)

/-- What a single pass reads: the addresses of the site that its marker opens, and the bytes in
between. Behind a marker whose address nothing closes it reads no more. -/
def attrPieces (m : Bytes) : Bytes → List PagePiece
  | [] => []
  | c :: s =>
    if m <+: c :: s then
      let rest := (c :: s).drop m.length
      if _h : quoteOf m ∈ rest then
        let v := rest.takeWhile (· ≠ quoteOf m)
        (if SiteRelative v then [link m v] else (m ++ v ++ [quoteOf m]).map byte) ++
          attrPieces m (afterByte (quoteOf m) rest)
      else (c :: s).map byte
    else byte c :: attrPieces m s
termination_by s => s.length
decreasing_by
  · have hsplit := congrArg List.length (takeWhile_afterByte _h)
    have hrest : rest.length ≤ (c :: s).length := (List.drop_suffix m.length (c :: s)).length_le
    simp only [List.length_append, List.length_cons] at hsplit hrest
    exact Nat.lt_of_lt_of_le (show (afterByte (quoteOf m) rest).length < rest.length by omega) hrest
  · exact Nat.lt_succ_self _

theorem pageText_map_byte (s : Bytes) : pageText (s.map byte) = s := by
  rw [pageText, List.flatMap_map]
  exact List.flatMap_singleton' s

theorem map_mapLink_byte (g : Bytes → Bytes → Bytes) (s : Bytes) :
    (s.map byte).map (mapLink g) = s.map byte := by
  rw [List.map_map]
  rfl

/-- The pieces of a page are written one after the other. -/
theorem pageText_append (ps qs : List PagePiece) : pageText (ps ++ qs) = pageText ps ++ pageText qs :=
  List.flatMap_append

/-- **A pass tags the addresses it reads.** -/
theorem injectQueryParamIntoAttr_eq (s : Bytes) : injectQueryParamIntoAttr s m param value =
    pageText ((attrPieces m s).map (mapLink fun _ => tagValue param value)) := by
  rw [injectQueryParamIntoAttr]
  fun_induction attrPieces m s with
  | case1 => exact rewrite_nil
  | case2 c s hpre rest hquote v ih =>
    obtain ⟨t, ht⟩ := hpre
    have hrest : rest = t := by
      show (c :: s).drop m.length = t
      rw [← ht, List.drop_left]
    have hrule : tagRule m param value (c :: s) =
        some (m ++ tagValue param value v ++ [quoteOf m], afterByte (quoteOf m) rest) := by
      simp only [tagRule, List.isPrefixOf_iff_prefix.mpr ⟨t, ht⟩, if_true]
      exact if_pos hquote
    have hlt : (afterByte (quoteOf m) rest).length ≤ s.length := by
      have hsplit := congrArg List.length (takeWhile_afterByte hquote)
      have hlen := congrArg List.length ht
      rw [hrest] at hsplit ⊢
      simp only [List.length_append, List.length_cons] at hsplit hlen
      omega
    rw [rewrite_of_rule hrule hlt, ih, List.map_append, pageText_append]
    congr 1
    split_ifs with hsite
    · simp [mapLink, text]
    · rw [map_mapLink_byte, pageText_map_byte, tagValue_of_not hsite]
  | case3 c s hpre rest hquote =>
    have hrule : tagRule m param value (c :: s) = some (c :: s, []) := by
      simp only [tagRule, List.isPrefixOf_iff_prefix.mpr hpre, if_true]
      exact if_neg hquote
    rw [rewrite_of_rule hrule (Nat.zero_le _), rewrite_nil, List.append_nil, map_mapLink_byte,
      pageText_map_byte]
  | case4 c s hpre ih =>
    have hrule : tagRule m param value (c :: s) = none :=
      if_neg fun h => hpre (List.isPrefixOf_iff_prefix.mp h)
    rw [rewrite_cons hrule, ih]
    rfl

/-- The text of what a pass reads. -/
theorem pageText_attrPieces (m s : Bytes) : pageText (attrPieces m s) = s := by
  fun_induction attrPieces m s with
  | case1 => rfl
  | case2 c s hpre rest hquote v ih =>
    obtain ⟨t, ht⟩ := hpre
    have hrest : rest = t := by
      show (c :: s).drop m.length = t
      rw [← ht, List.drop_left]
    have hpiece : pageText (if SiteRelative v then [link m v] else (m ++ v ++ [quoteOf m]).map byte) =
        m ++ v ++ [quoteOf m] := by
      split_ifs
      · simp [text]
      · exact pageText_map_byte _
    rw [pageText_append, hpiece, ih, List.append_assoc, List.append_assoc, List.singleton_append,
      takeWhile_afterByte hquote, hrest, ht]
  | case3 c s hpre rest hquote => exact pageText_map_byte _
  | case4 c s hpre ih => rw [pageText_cons, ih]; rfl

/-! ## Passes that keep apart -/

/-- A piece in single bytes, unless it is a link of this kind. -/
def ofKind (m : Bytes) : PagePiece → List PagePiece
  | byte c => [byte c]
  | other m' => m'.map byte
  | link m' v => if m' = m then [link m' v] else (link m' v).text.map byte

/-- A pass reads in a page the links of its kind, and no other addresses of the site. -/
def ReadsOwn (m s : Bytes) : Prop := attrPieces m s = (pieces [] s).flatMap (ofKind m)

instance (m s : Bytes) : Decidable (ReadsOwn m s) := inferInstanceAs (Decidable (_ = _))

/-- Other addresses for the links of some kinds. -/
def ofKinds (ms : List Bytes) (g : Bytes → Bytes) (m v : Bytes) : Bytes := if m ∈ ms then g v else v

/-- Other addresses for the links of one kind are the same in the page cut at them only. -/
theorem pageText_flatMap_ofKind (m : Bytes) (g : Bytes → Bytes) (ps : List PagePiece) :
    pageText ((ps.flatMap (ofKind m)).map (mapLink fun _ => g)) =
      pageText (ps.map (mapLink (ofKinds [m] g))) := by
  induction ps with
  | nil => rfl
  | cons p ps ih =>
    rw [List.flatMap_cons, List.map_append, pageText_append, ih, List.map_cons, pageText_cons]
    congr 1
    cases p with
    | byte c => rfl
    | other m' => rw [ofKind, map_mapLink_byte, pageText_map_byte]; rfl
    | link m' v =>
      rw [ofKind, mapLink, ofKinds]
      by_cases hkind : m' = m
      · simp [hkind, mapLink, text]
      · rw [if_neg hkind, map_mapLink_byte, pageText_map_byte, if_neg (by simpa using hkind)]

/-- The page with the addresses of some kinds tagged. -/
def taggedPage (ms : List Bytes) (param value html : Bytes) : Bytes :=
  pageText ((pieces [] html).map (mapLink (ofKinds ms (tagValue param value))))

/-- **Each pass reads the links of its kind**, in the page as the passes before it should leave it and
in the page as all of them should. -/
structure PassesApart (html param value : Bytes) : Prop where
  passes : ∀ m ∈ linkMarkers, ReadsOwn m (taggedPage (linkMarkers.takeWhile (· ≠ m)) param value html)
  again : ∀ m ∈ linkMarkers, ReadsOwn m (taggedPage linkMarkers param value html)

instance (html param value : Bytes) : Decidable (PassesApart html param value) :=
  decidable_of_iff
    ((∀ m ∈ linkMarkers, ReadsOwn m (taggedPage (linkMarkers.takeWhile (· ≠ m)) param value html)) ∧
      ∀ m ∈ linkMarkers, ReadsOwn m (taggedPage linkMarkers param value html))
    ⟨fun h => ⟨h.1, h.2⟩, fun h => ⟨h.passes, h.again⟩⟩

/-! ## Other addresses -/

/-- Two bytes tell whether an address is site-relative. -/
theorem siteRelative_take (s : Bytes) : SiteRelative (s.take 2) ↔ SiteRelative s := by
  match s with
  | [] => rfl
  | [_] => rfl
  | _ :: _ :: _ => simp [SiteRelative]

/-- An address is within the site or not by what stands behind its marker. -/
theorem siteRelative_takeWhile {q : UInt8} (hq : q ≠ 47) (s : Bytes) :
    SiteRelative (s.takeWhile (· ≠ q)) ↔ SiteRelative s := by
  have hslash : decide ((47 : UInt8) ≠ q) = true := decide_eq_true hq.symm
  have hhead : ∀ t : Bytes, (t.takeWhile (· ≠ q)).head? = some 47 ↔ t.head? = some 47 := by
    intro t
    cases t with
    | nil => rfl
    | cons c t =>
      rw [List.takeWhile_cons]
      split_ifs with hc
      · rfl
      · have hne : c ≠ 47 := fun h => hc (h ▸ hslash)
        simp [hne]
  cases s with
  | nil => rfl
  | cons c t =>
    rw [SiteRelative, SiteRelative, hhead]
    refine and_congr_right fun hc => not_congr ?_
    obtain rfl : c = 47 := by simpa using hc
    have htake : (47 :: t).takeWhile (· ≠ q) = 47 :: t.takeWhile (· ≠ q) :=
      List.takeWhile_cons_of_pos hslash
    rw [htake]
    exact hhead t

/-- An address that may stand for another: the pieces of the page stay the same. -/
structure Harmless (g : Bytes → Bytes → Bytes) (m v : Bytes) : Prop where
  site : SiteRelative v → SiteRelative (g m v)
  count : ∀ m' ∈ linkMarkers, (g m v).count (quoteOf m') = v.count (quoteOf m')

variable {g : Bytes → Bytes → Bytes}

theorem count_mapLink (hg : ∀ m v, Harmless g m v) (hm : m ∈ linkMarkers) (p : PagePiece) :
    (p.mapLink g).text.count (quoteOf m) = p.text.count (quoteOf m) := by
  cases p with
  | link m' v =>
    simp only [mapLink, text, List.count_append, (hg m' v).count m hm]
  | byte c => rfl
  | other m' => rfl

theorem count_pageText (hg : ∀ m v, Harmless g m v) (hm : m ∈ linkMarkers) (ps : List PagePiece) :
    (pageText (ps.map (mapLink g))).count (quoteOf m) = (pageText ps).count (quoteOf m) := by
  induction ps with
  | nil => rfl
  | cons p ps ih =>
    rw [List.map_cons, pageText_cons, pageText_cons, List.count_append, List.count_append, ih,
      count_mapLink hg hm]

/-- A piece is a byte, or it begins with a marker. -/
theorem Starts.cases {t : Bytes} (h : Starts skip p t) : (∃ c, p = .byte c) ∨
    ∃ m' ∈ linkMarkers, (∃ x, p.text = m' ++ x) ∧ ∃ x, (p.mapLink g).text = m' ++ x := by
  cases p with
  | byte c => exact Or.inl ⟨c, rfl⟩
  | other m' => exact Or.inr ⟨m', h.1, ⟨[], by simp [text]⟩, [], by simp [mapLink, text]⟩
  | link m' v =>
    exact Or.inr ⟨m', h.1, ⟨v ++ [quoteOf m'], by simp [text]⟩, g m' v ++ [quoteOf m'],
      by simp [mapLink, text]⟩

/-- What begins with the end of a marker does so with other addresses too. -/
theorem prefix_pageText_iff (h : Reads skip ps) (hm : m ∈ linkMarkers) {r : Bytes} (hr : r <:+ m) :
    r <+: pageText (ps.map (mapLink g)) ↔ r <+: pageText ps := by
  induction ps generalizing skip r with
  | nil => rfl
  | cons p ps ih =>
    obtain ⟨hstarts, hreads⟩ := h
    rw [List.map_cons, pageText_cons, pageText_cons]
    cases r with
    | nil => exact iff_of_true List.nil_prefix List.nil_prefix
    | cons d r =>
      rcases @Starts.cases skip p g _ hstarts with ⟨c, rfl⟩ | ⟨m', hm', ⟨x, hx⟩, y, hy⟩
      · simp only [PagePiece.mapLink, text, List.singleton_append]
        rw [List.cons_prefix_cons, List.cons_prefix_cons, ih hreads ((List.suffix_cons d r).trans hr)]
      · -- it is that marker
        have honly : ∀ s, d :: r <+: m' ++ s ↔ d :: r = m' := by
          refine fun s => ⟨fun ⟨t, ht⟩ => ?_, fun heq => heq ▸ List.prefix_append m' s⟩
          obtain ⟨heq, hsame⟩ := eq_of_prefix_append hm' hm hr (List.cons_ne_nil d r) ht.symm
          exact heq.trans hsame
        rw [hx, hy, List.append_assoc, List.append_assoc, honly, honly]

theorem take_pageText (h : Reads skip ps) {k : ℕ} (hk : k ≤ 6) :
    (pageText (ps.map (mapLink g))).take k = (pageText ps).take k := by
  induction ps generalizing skip k with
  | nil => rfl
  | cons p ps ih =>
    obtain ⟨hstarts, hreads⟩ := h
    rw [List.map_cons, pageText_cons, pageText_cons]
    rcases @Starts.cases skip p g _ hstarts with ⟨c, rfl⟩ | ⟨m', hm', ⟨x, hx⟩, y, hy⟩
    · cases k with
      | zero => rfl
      | succ k =>
        simp only [PagePiece.mapLink, text, List.singleton_append]
        rw [List.take_succ_cons, List.take_succ_cons, ih hreads (by omega)]
    · have hlen := (marker_eq m' hm').2.1
      rw [hx, hy, List.append_assoc, List.append_assoc, List.take_append_of_le_length (by omega),
        List.take_append_of_le_length (by omega)]

theorem opens_mapLink (hg : ∀ m v, Harmless g m v) (h : Reads skip ps) (hm : m ∈ linkMarkers) {c : UInt8}
    (hopens : OpensAddress m (c :: pageText (ps.map (mapLink g)))) : OpensAddress m (c :: pageText ps) := by
  obtain ⟨d, r, hcons⟩ := List.exists_cons_of_ne_nil (not_nil_mem_linkMarkers hm)
  obtain ⟨hpre, hquote⟩ := hopens
  have hpre' : m <+: c :: pageText ps := by
    rw [hcons, List.cons_prefix_cons] at hpre ⊢
    exact ⟨hpre.1, (prefix_pageText_iff h hm (hcons ▸ List.suffix_cons d r)).mp hpre.2⟩
  refine ⟨hpre', ?_⟩
  obtain ⟨t, ht⟩ := hpre
  obtain ⟨t', ht'⟩ := hpre'
  rw [← ht, List.drop_left] at hquote
  rw [← ht', List.drop_left]
  -- as many quotes stand behind the marker as before
  have hcount := count_pageText hg hm ps
  have hall := congrArg (List.count (quoteOf m)) ht
  have hall' := congrArg (List.count (quoteOf m)) ht'
  rw [List.count_append, List.count_cons] at hall hall'
  have hpos := List.count_pos_iff.mpr hquote
  exact List.count_pos_iff.mp (by omega)

theorem Starts.mapLink (hg : ∀ m v, Harmless g m v) (h : Reads skip ps)
    {skip' : List Bytes} (hstarts : Starts skip' p (pageText ps)) :
    Starts skip' (p.mapLink g) (pageText (ps.map (PagePiece.mapLink g))) := by
  cases p with
  | byte c => exact fun m hm hskip hopens => hstarts m hm hskip (opens_mapLink hg h hm hopens)
  | other m =>
    obtain ⟨hm, hskip, hquote, hsite⟩ := hstarts
    refine ⟨hm, hskip, ?_, ?_⟩
    · rw [← List.count_pos_iff, count_pageText hg hm]
      exact List.count_pos_iff.mpr hquote
    · have hne := (marker_eq m hm).2.2.1
      rw [siteRelative_takeWhile hne, ← siteRelative_take, take_pageText h (by decide),
        siteRelative_take, ← siteRelative_takeWhile hne]
      exact hsite
  | link m v =>
    obtain ⟨hm, hskip, hsite, hquote⟩ := hstarts
    refine ⟨hm, hskip, (hg m v).site hsite, ?_⟩
    rwa [← List.count_eq_zero, (hg m v).count m hm, List.count_eq_zero]

/-- A changed link leaves the same addresses open. -/
theorem stillOpen_mapLink (hg : ∀ m v, Harmless g m v) (hskip : ∀ m ∈ skip, m ∈ linkMarkers)
    (p : PagePiece) : (p.mapLink g).stillOpen skip = p.stillOpen skip := by
  have hsame : (skip.filter fun m => quoteOf m ∉ (p.mapLink g).text) =
      skip.filter fun m => quoteOf m ∉ p.text := by
    refine List.filter_congr fun m hm => decide_eq_decide.mpr (not_congr ?_)
    rw [← List.count_pos_iff, count_mapLink hg (hskip m hm), List.count_pos_iff]
  cases p with
  | byte c => rfl
  | other m => rfl
  | link m v => exact hsame

/-- **The pieces of a page with other addresses** are those of the page. -/
theorem Reads.mapLink (hg : ∀ m v, Harmless g m v) (hskip : ∀ m ∈ skip, m ∈ linkMarkers)
    (h : Reads skip ps) : Reads skip (ps.map (PagePiece.mapLink g)) := by
  induction ps generalizing skip with
  | nil => trivial
  | cons p ps ih =>
    obtain ⟨hstarts, hreads⟩ := h
    have hopen : ∀ m ∈ p.stillOpen skip, m ∈ linkMarkers := by
      intro m hm
      by_cases hother : p = .other m
      · subst hother
        exact hstarts.1
      · exact hskip m ((mem_stillOpen_iff fun m' h heq => hother (by rw [h, heq])).mp hm).1
    rw [List.map_cons]
    refine ⟨hstarts.mapLink hg hreads, ?_⟩
    rw [stillOpen_mapLink hg hskip]
    exact ih hopen hreads

theorem map_mapLink {g g' : Bytes → Bytes → Bytes} (ps : List PagePiece) :
    (ps.map (PagePiece.mapLink g)).map (PagePiece.mapLink g') =
      ps.map (PagePiece.mapLink fun m v => g' m (g m v)) := by
  rw [List.map_map]
  refine List.map_congr_left fun p _ => ?_
  cases p <;> rfl

theorem Reads.marker_mem (h : Reads skip ps) {v : Bytes} (hlink : PagePiece.link m v ∈ ps) :
    m ∈ linkMarkers ∧ SiteRelative v := by
  induction ps generalizing skip with
  | nil => cases hlink
  | cons p ps ih =>
    obtain ⟨hstarts, hreads⟩ := h
    rcases List.mem_cons.mp hlink with rfl | hlink
    · exact ⟨hstarts.1, hstarts.2.2.1⟩
    · exact ih hreads hlink

/-! ## Pass after pass -/

theorem harmless_ofKinds (htag : ∀ m v, Harmless (fun _ => tagValue param value) m v) (ms : List Bytes)
    (m v : Bytes) : Harmless (ofKinds ms (tagValue param value)) m v := by
  have hcases : ofKinds ms (tagValue param value) m v = tagValue param value v ∨
      ofKinds ms (tagValue param value) m v = v := ite_eq_or_eq _ _ _
  rcases hcases with hsame | hsame
  · obtain ⟨hsite, hcount⟩ := htag m v
    exact ⟨hsame ▸ hsite, hsame ▸ hcount⟩
  · exact ⟨fun h => by rwa [hsame], fun _ _ => by rw [hsame]⟩

section Passes

variable {html : Bytes} (htag : ∀ m v, Harmless (fun _ => tagValue param value) m v)

include htag in
/-- The pieces of a page with tagged addresses. -/
theorem pieces_taggedPage (ms : List Bytes) : pieces [] (taggedPage ms param value html) =
    (pieces [] html).map (PagePiece.mapLink (ofKinds ms (tagValue param value))) :=
  ((pageText_pieces [] html).2.mapLink (harmless_ofKinds htag ms) (List.forall_mem_nil _)).pieces_eq

theorem injectQueryParamIntoAttr_of_readsOwn {s : Bytes} (h : ReadsOwn m s) :
    injectQueryParamIntoAttr s m param value =
      pageText ((pieces [] s).map (PagePiece.mapLink (ofKinds [m] (tagValue param value)))) := by
  rw [injectQueryParamIntoAttr_eq, h, pageText_flatMap_ofKind]

include htag in
/-- A pass tags one kind more. -/
theorem pass_taggedPage {ms : List Bytes} (hm : m ∉ ms)
    (h : ReadsOwn m (taggedPage ms param value html)) :
    injectQueryParamIntoAttr (taggedPage ms param value html) m param value =
      taggedPage (ms ++ [m]) param value html := by
  rw [injectQueryParamIntoAttr_of_readsOwn h, pieces_taggedPage htag, map_mapLink, taggedPage]
  congr 1
  refine List.map_congr_left fun p _ => ?_
  cases p with
  | byte c => rfl
  | other m' => rfl
  | link m' v =>
    simp only [PagePiece.mapLink, ofKinds, List.mem_append, List.mem_singleton]
    by_cases hkind : m' = m
    · subst hkind
      simp [hm]
    · simp [hkind]

include htag in
/-- **The three passes tag every address of the site.** -/
theorem injectQueryParamIntoLinks_eq (h : PassesApart html param value) :
    injectQueryParamIntoLinks html param value = taggedPage linkMarkers param value html := by
  have hnone : taggedPage [] param value html = html := by
    have hid : (pieces [] html).map (PagePiece.mapLink (ofKinds [] (tagValue param value))) =
        pieces [] html := by
      refine (List.map_congr_left fun p _ => ?_).trans (List.map_id _)
      cases p <;> rfl
    rw [taggedPage, hid, (pageText_pieces [] html).1]
  obtain ⟨a, b, c, hmarkers⟩ : ∃ a b c, linkMarkers = [a, b, c] := ⟨_, _, _, rfl⟩
  have hnodup : linkMarkers.Nodup := by decide
  rw [hmarkers] at hnodup
  simp only [List.nodup_cons, List.mem_cons, List.not_mem_nil, or_false, not_or] at hnodup
  obtain ⟨⟨hab, hac⟩, hbc, -⟩ := hnodup
  have ha : ReadsOwn a (taggedPage [] param value html) := by
    simpa [hmarkers] using h.passes a (by simp [hmarkers])
  have hb : ReadsOwn b (taggedPage [a] param value html) := by
    simpa [hmarkers, hab] using h.passes b (by simp [hmarkers])
  have hc : ReadsOwn c (taggedPage [a, b] param value html) := by
    simpa [hmarkers, hac, hbc] using h.passes c (by simp [hmarkers])
  rw [injectQueryParamIntoLinks, hmarkers]
  simp only [List.foldl_cons, List.foldl_nil]
  conv_lhs => rw [← hnone]
  rw [pass_taggedPage htag (by simp) ha, List.nil_append,
    pass_taggedPage htag (by simpa using Ne.symm hab) hb, List.singleton_append,
    pass_taggedPage htag (by simp [Ne.symm hac, Ne.symm hbc]) hc]
  rfl

end Passes

end BoatRudder.Utils
