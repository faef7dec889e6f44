import BoatRudder.Utils.WrittenDeck

/-! # Tagged links of a written deck

The language a page's links are tagged with after `wml_paginate` wrote it: links that carry it already
stay as they are, the links to the pages before and after get it. -/

namespace BoatRudder.Utils

open Wml Wbxml

/-! ## Tagging -/

variable {href label s v : Bytes}

/-- The bytes that end a name, a value or a word in a written deck; none stands in a marker. -/
def markerEnds : Bytes := [10, 32, 47, 60, 62]

/-- What starts with such a byte, or is empty. -/
def Stops (s : Bytes) : Prop := ∀ c ∈ s.head?, c ∈ markerEnds

theorem linkMarkers_ends : ∀ marker ∈ linkMarkers, marker ≠ [] ∧
    (marker.getLastD 0 = 34 ∨ marker.getLastD 0 = 39) ∧ ∀ c ∈ markerEnds, c ∉ marker := by
  decide

/-- A string in which the tagging changes nothing: every value that a marker opens closes there, and
is no link to tag. -/
def Quiet (marker param value s : Bytes) : Prop :=
  ∀ u ∈ s.tails, marker <+: u → marker.getLastD 0 ∈ u.drop marker.length ∧
    tagValue param value ((u.drop marker.length).takeWhile (· ≠ marker.getLastD 0)) =
      (u.drop marker.length).takeWhile (· ≠ marker.getLastD 0)

instance (marker param value s : Bytes) : Decidable (Quiet marker param value s) :=
  inferInstanceAs (Decidable (∀ _ ∈ _, _))

section Tagging

variable {a s : Bytes}
variable {marker param value : Bytes}

theorem Quiet.suffix (h : Quiet marker param value s) (ha : a <:+ s) :
    Quiet marker param value a := fun u hu =>
  h u ((List.mem_tails _ _).mpr (((List.mem_tails _ _).mp hu).trans ha))

/-- Where its quote does not stand there is no marker. -/
theorem quiet_of_notMem_quote (hmarker : marker ∈ linkMarkers)
    (h : marker.getLastD 0 ∉ s) : Quiet marker param value s := by
  intro u hu hpre
  obtain ⟨hne, -⟩ := linkMarkers_ends marker hmarker
  refine absurd ((List.mem_tails _ _).mp hu |>.subset (hpre.subset ?_)) h
  rw [List.getLastD_eq_getLast?, List.getLast?_eq_some_getLast hne]
  exact List.getLast_mem hne

/-- Where no quote stands there is no marker. -/
theorem quiet_of_notMem (hmarker : marker ∈ linkMarkers) (h34 : 34 ∉ s)
    (h39 : 39 ∉ s) : Quiet marker param value s := by
  refine quiet_of_notMem_quote hmarker ?_
  rcases (linkMarkers_ends marker hmarker).2.1 with hq | hq <;> rw [hq]
  · exact h34
  · exact h39

/-- A marker does not reach over the end of a string that is followed by none of its bytes. -/
theorem prefix_of_stops (hmarker : marker ∈ linkMarkers) {t : Bytes} (ht : Stops t)
    (h : marker <+: a ++ t) : marker <+: a := by
  cases t with
  | nil => simpa using h
  | cons d t =>
    exact prefix_of_prefix_append_cons
      ((linkMarkers_ends marker hmarker).2.2 d (ht d rfl)) h

/-- **The tagging copies what is quiet**, when no marker can reach over its end. -/
theorem copies_of_quiet (hmarker : marker ∈ linkMarkers)
    (ha : Quiet marker param value a) : Copies (tagRule marker param value) Stops a := by
  -- a link is skipped whole, so the induction is on the length
  induction hn : a.length using Nat.strong_induction_on generalizing a with
  | _ n ih =>
    intro t ht
    cases a with
    | nil => rfl
    | cons c s =>
      by_cases hpre : marker <+: c :: s
      · obtain ⟨hquote, hsame⟩ := ha (c :: s) ((List.mem_tails _ _).mpr List.suffix_rfl) hpre
        obtain ⟨hne, -⟩ := linkMarkers_ends marker hmarker
        set rest := (c :: s).drop marker.length with hrest
        have hsplit : c :: s = marker ++ rest := by
          obtain ⟨r, hr⟩ := hpre
          rw [hrest, ← hr, List.drop_left]
        have hlt : (afterByte (marker.getLastD 0) rest).length < (c :: s).length := by
          have h1 := length_afterByte_le (marker.getLastD 0) rest
          have h2 : 0 < marker.length := List.length_pos_iff.mpr hne
          rw [hsplit, List.length_append]
          omega
        have hsuffix : afterByte (marker.getLastD 0) rest <:+ c :: s :=
          (List.drop_suffix _ _).trans ((List.dropWhile_suffix _).trans (List.drop_suffix _ _))
        have hrule : tagRule marker param value (c :: (s ++ t)) =
            some (marker ++ rest.takeWhile (· ≠ marker.getLastD 0) ++ [marker.getLastD 0],
              afterByte (marker.getLastD 0) rest ++ t) := by
          have hdrop : (c :: (s ++ t)).drop marker.length = rest ++ t := by
            rw [← List.cons_append, hsplit, List.append_assoc, List.drop_left]
          have hpre' : marker.isPrefixOf (c :: (s ++ t)) = true :=
            List.isPrefixOf_iff_prefix.mpr (hpre.trans (List.prefix_append _ t))
          simp only [tagRule, hpre', if_true, hdrop, List.mem_append, hquote, true_or,
            takeWhile_ne_append_of_mem hquote, afterByte_append_of_mem hquote, hsame]
        rw [List.cons_append, rewrite_of_rule hrule (by
          rw [List.length_append, List.length_append]
          simp only [List.length_cons] at hlt
          omega),
          ih _ (by rw [← hn]; exact hlt) (ha.suffix hsuffix) rfl t ht]
        rw [hsplit]
        conv_rhs => rw [← takeWhile_afterByte hquote]
        simp
      · have hnone : tagRule marker param value (c :: (s ++ t)) = none := by
          have hno : ¬ marker.isPrefixOf (c :: (s ++ t)) = true := fun h =>
            hpre (prefix_of_stops hmarker ht (List.isPrefixOf_iff_prefix.mp h))
          simp only [tagRule, if_neg hno]
        rw [List.cons_append, rewrite_cons hnone,
          ih s.length (by rw [← hn]; exact Nat.lt_succ_self _)
            (ha.suffix (List.suffix_cons c s)) rfl t ht]
        rfl

/-- A byte that stands in no marker is copied. -/
theorem copies_markerEnd (hmarker : marker ∈ linkMarkers) {c : UInt8} (hc : c ∈ markerEnds) :
    Copies (tagRule marker param value) (fun _ => True) [c] := by
  intro t _
  have hno : ¬ marker.isPrefixOf (c :: t) = true := by
    intro h
    obtain ⟨hne, -, hends⟩ := linkMarkers_ends marker hmarker
    obtain ⟨r, hr⟩ := List.isPrefixOf_iff_prefix.mp h
    obtain ⟨d, m, rfl⟩ := List.exists_cons_of_ne_nil hne
    rw [List.cons_append] at hr
    obtain ⟨rfl, -⟩ := List.cons.inj hr
    exact hends d hc (by simp)
  rw [List.singleton_append, rewrite_cons (by simp only [tagRule, if_neg hno])]
  rfl

/-- What is copied in front of such a byte is copied with it. -/
theorem copies_snoc_markerEnd (hmarker : marker ∈ linkMarkers) {c : UInt8}
    (hc : c ∈ markerEnds) (ha : Copies (tagRule marker param value) Stops a) :
    Copies (tagRule marker param value) (fun _ => True) (a ++ [c]) :=
  ha.append (copies_markerEnd hmarker hc) fun _ _ => by simpa [Stops] using hc

/-- A text is copied, when its words are quiet. -/
theorem copies_text (hmarker : marker ∈ linkMarkers) {t : Bytes}
    (ht : ∀ w ∈ words t, Quiet marker param value (serEscape false w)) :
    Copies (tagRule marker param value) Stops (serEscape false t) := by
  refine @of_words (fun t => Copies (tagRule marker param value) Stops (serEscape false t))
    copies_nil (fun a b ha hb => ?_) t fun w hw => copies_of_quiet hmarker (ht w hw)
  have hescape : serEscape false (a ++ 32 :: b) =
      serEscape false a ++ ([32] ++ serEscape false b) := serEscape_append false a (32 :: b)
  rw [hescape]
  exact ha.append ((copies_markerEnd hmarker (by decide)).append hb fun _ _ => trivial)
    fun _ _ => by simp [Stops, markerEnds]

variable (marker param value) in
/-- A node without links to tag: neither in an attribute nor in a word of a text. -/
def Settled : Node → Prop
  | .text t => ∀ w ∈ words t, Quiet marker param value (serEscape false w)
  | .elem _ attrs _ => ∀ a ∈ attrs, Quiet marker param value (serAttr a)

instance : DecidablePred (Settled marker param value)
  | .text _ => inferInstanceAs (Decidable (∀ _ ∈ _, _))
  | .elem _ _ _ => inferInstanceAs (Decidable (∀ _ ∈ _, _))

/-- Nodes without links to tag are kept by the tagging. -/
theorem kept_of_settled (hmarker : marker ∈ linkMarkers) {n : Node} (hshaped : Shaped n)
    (hn : Settled marker param value n) : Kept (tagRule marker param value) n := by
  have hlt : lit "<" = [60] := by decide
  have hgt : lit ">" = [62] := by decide
  have hclose : lit "</" = [60, 47] := by decide
  have hempty : lit "/>" = [47] ++ [62] := by decide
  have hblank : lit " " = [32] := by decide
  cases n with
  | text t =>
    refine (copies_text hmarker hn).mono fun s hs c hc => ?_
    rw [hs c hc]
    decide
  | elem name attrs kids =>
    have hname : ∀ c ∈ name, c ∉ ([34, 39, 47, 60, 62] : Bytes) := notMem_of_isWmlName hshaped.1
    have hplain : ∀ a : Bytes, (∀ c ∈ a, c = 34 ∨ c = 39 → c ∈ name) →
        Copies (tagRule marker param value) Stops a := fun a ha =>
      copies_of_quiet hmarker (quiet_of_notMem hmarker
        (fun h => hname 34 (ha 34 h (by simp)) (by simp))
        fun h => hname 39 (ha 39 h (by simp)) (by simp))
    have hattrs : Copies (tagRule marker param value) Stops (attrs.flatMap serAttr) := by
      refine copies_flatMap (fun a ha => copies_of_quiet hmarker (hn a ha)) fun a _ t => ?_
      simp [serAttr, Stops, hblank, markerEnds]
    have hopen : Copies (tagRule marker param value) Stops
        (lit "<" ++ name ++ attrs.flatMap serAttr) := by
      refine (hplain (lit "<" ++ name) fun c hc hq => ?_).append hattrs fun t ht => ?_
      · rcases hq with rfl | rfl <;> simpa [hlt] using hc
      · cases attrs with
        | nil => exact ht
        | cons a attrs => simp [serAttr, Stops, hblank, markerEnds]
    refine ⟨?_, fun _ => ?_⟩
    · split_ifs
      · rw [hempty, ← List.append_assoc]
        exact (copies_snoc_markerEnd hmarker (by decide) hopen).append
          (copies_markerEnd hmarker (by decide)) fun _ _ => trivial
      · rw [hgt]
        exact copies_snoc_markerEnd hmarker (by decide) hopen
    · rw [hgt]
      exact copies_snoc_markerEnd hmarker (by decide) (hplain (lit "</" ++ name) fun c hc hq => by
        rcases hq with rfl | rfl <;> simpa [hclose] using hc)

end Tagging

/-! ## Links to other pages -/

/-- An address of a page of the site with `param=value` in its query, unless it carries the parameter
already. -/
def tagLink (param value href : Bytes) : Bytes :=
  if (findSub (tagOf param) ((serEscape true href).take 2047)).isSome then href
  else
    let base := href.takeWhile (· ≠ 35)
    base ++ ((if 63 ∈ base then lit "&" else lit "?") ++ param ++ lit "=" ++ value) ++
      href.dropWhile (· ≠ 35)

/-- The bytes `ser_escape` writes as they are. -/
def Unescaped (s : Bytes) : Prop := ∀ c ∈ s, c ≠ 38 ∧ c ≠ 60 ∧ c ≠ 62 ∧ c ≠ 34

/-- A byte is written as itself or as an entity, which holds none of the bytes that divide an
address. -/
theorem serEscape_singleton (attr : Bool) (c : UInt8) :
    (serEscape attr [c] = [c] ∧ c ≠ 38 ∧ c ≠ 60 ∧ c ≠ 62) ∨
      c ≠ 35 ∧ c ≠ 47 ∧ c ≠ 63 ∧
        ∃ e ∈ [lit "&amp;", lit "&lt;", lit "&gt;", lit "&quot;"], serEscape attr [c] = e := by
  have hone : serEscape attr [c] = if c = 38 then lit "&amp;" else if c = 60 then lit "&lt;"
      else if c = 62 then lit "&gt;" else if c = 34 ∧ attr then lit "&quot;" else [c] :=
    List.flatMap_singleton _ c
  rw [hone]
  split_ifs with h1 h2 h3 h4
  · exact Or.inr ⟨by simp [h1], by simp [h1], by simp [h1], _, by simp, rfl⟩
  · exact Or.inr ⟨by simp [h2], by simp [h2], by simp [h2], _, by simp, rfl⟩
  · exact Or.inr ⟨by simp [h3], by simp [h3], by simp [h3], _, by simp, rfl⟩
  · exact Or.inr ⟨by simp [h4.1], by simp [h4.1], by simp [h4.1], _, by simp, rfl⟩
  · exact Or.inl ⟨rfl, h1, h2, h3⟩

theorem serEscape_cons (attr : Bool) (c : UInt8) (s : Bytes) :
    serEscape attr (c :: s) = serEscape attr [c] ++ serEscape attr s :=
  serEscape_append attr [c] s

theorem serEscape_unescaped (attr : Bool) (h : Unescaped s) : serEscape attr s = s := by
  induction s with
  | nil => rfl
  | cons c s ih =>
    rw [serEscape_cons, ih fun d hd => h d (List.mem_cons_of_mem c hd)]
    obtain ⟨h1, h2, h3, h4⟩ := h c (by simp)
    simp [serEscape, h1, h2, h3, h4]

/-- An address is divided at the same place before and after it is escaped. -/
theorem serEscape_fragment (s : Bytes) :
    (serEscape true s).takeWhile (· ≠ 35) = serEscape true (s.takeWhile (· ≠ 35)) ∧
      (serEscape true s).dropWhile (· ≠ 35) = serEscape true (s.dropWhile (· ≠ 35)) := by
  induction s with
  | nil => exact ⟨rfl, rfl⟩
  | cons c s ih =>
    have hentities : ∀ e ∈ [lit "&amp;", lit "&lt;", lit "&gt;", lit "&quot;"],
        ∀ b ∈ e, decide (b ≠ 35) = true := by decide
    rw [serEscape_cons]
    by_cases h35 : c = 35
    · subst h35
      have hone : serEscape true [35] = [35] := by decide
      simp [hone, serEscape_cons true 35]
      rfl
    · have hpiece : ∀ b ∈ serEscape true [c], decide (b ≠ 35) = true := by
        rcases serEscape_singleton true c with ⟨hone, -⟩ | ⟨-, -, -, e, he, hone⟩ <;> rw [hone]
        · simpa using h35
        · exact hentities e he
      rw [List.takeWhile_append_of_pos hpiece, List.dropWhile_append_of_pos hpiece, ih.1, ih.2,
        List.takeWhile_cons_of_pos (by simpa using h35),
        List.dropWhile_cons_of_pos (by simpa using h35)]
      exact ⟨(serEscape_cons true c _).symm, rfl⟩

/-- A byte that is not escaped, and stands in no entity. -/
theorem mem_serEscape_iff {attr : Bool} {c : UInt8}
    (hc : c ∉ lit "&amp;&lt;&gt;&quot;" ++ [60, 62, 34]) : c ∈ serEscape attr s ↔ c ∈ s := by
  have hentities : ∀ e ∈ [lit "&amp;", lit "&lt;", lit "&gt;", lit "&quot;"],
      e ⊆ lit "&amp;&lt;&gt;&quot;" ++ [60, 62, 34] := by decide
  induction s with
  | nil => rfl
  | cons d s ih =>
    rw [serEscape_cons, List.mem_append, List.mem_cons]
    refine or_congr ?_ ih
    rcases serEscape_singleton attr d with ⟨hone, -⟩ | ⟨-, -, -, e, he, hone⟩
    · rw [hone, List.mem_singleton]
    · constructor
      · intro h
        rw [hone] at h
        exact absurd (hentities e he h) hc
      · rintro rfl
        have hplain : serEscape attr [c] = [c] := by
          refine serEscape_unescaped attr fun b hb => ?_
          obtain rfl := List.mem_singleton.mp hb
          refine ⟨?_, ?_, ?_, ?_⟩ <;> (rintro rfl; exact hc (by decide))
        rw [hplain]
        exact List.mem_singleton_self c

theorem head?_serEscape_slash (s : Bytes) : (serEscape true s).head? = some 47 ↔ s.head? = some 47 := by
  have hentities : ∀ e ∈ [lit "&amp;", lit "&lt;", lit "&gt;", lit "&quot;"],
      e ≠ [] ∧ e.head? ≠ some 47 := by decide
  cases s with
  | nil => rfl
  | cons c s =>
    rw [serEscape_cons]
    rcases serEscape_singleton true c with ⟨hone, -⟩ | ⟨-, h47, -, e, he, hone⟩ <;> rw [hone]
    · simp
    · obtain ⟨hne, hhead⟩ := hentities e he
      rw [List.head?_append_of_ne_nil _ hne]
      exact ⟨fun h => absurd h hhead, fun h => absurd (by simpa using h) h47⟩

/-- **A link of the site is tagged** the same way before and after it is escaped. -/
theorem tagValue_serEscape {param value : Bytes} (hparam : Unescaped param)
    (hvalue : Unescaped value) (hhead : href.head? = some 47) (hnext : (href.drop 1).head? ≠ some 47) :
    tagValue param value (serEscape true href) = serEscape true (tagLink param value href) := by
  obtain ⟨t, rfl⟩ : ∃ t, href = 47 :: t := by
    cases href with
    | nil => cases hhead
    | cons c t => exact ⟨t, by simpa using hhead⟩
  have hslash : serEscape true [47] = [47] := by decide
  have hsite : (serEscape true (47 :: t)).head? = some 47 ∧
      ((serEscape true (47 :: t)).drop 1).head? ≠ some 47 := by
    refine ⟨(head?_serEscape_slash _).mpr rfl, ?_⟩
    rw [serEscape_cons, hslash]
    exact fun h => hnext ((head?_serEscape_slash t).mp h)
  simp only [tagValue, tagLink]
  by_cases htagged : (findSub (tagOf param) ((serEscape true (47 :: t)).take 2047)).isSome = true
  · rw [if_neg (by simp [htagged]), if_pos htagged]
  · rw [if_pos ⟨hsite, htagged⟩, if_neg htagged]
    have hsep : ∀ base : Bytes, serEscape true (if 63 ∈ base then lit "&" else lit "?") =
        if 63 ∈ serEscape true base then lit "&amp;" else lit "?" := by
      intro base
      simp only [mem_serEscape_iff (show 63 ∉ lit "&amp;&lt;&gt;&quot;" ++ [60, 62, 34] by decide)]
      split_ifs <;> decide
    simp only [serEscape_append, hsep, (serEscape_fragment _).1, (serEscape_fragment _).2,
      serEscape_unescaped true hparam, serEscape_unescaped true hvalue]
    rfl

/-- What opens the address of an `href`. -/
def hrefMarker : Bytes := lit "href=\""

/-- A link to another page, as it is written. -/
theorem serLine_navLink (label href : Bytes) : serLine (navLink label href) =
    lit "<p><a" ++ [32] ++ (hrefMarker ++ serEscape true href ++ [34] ++
      (lit ">" ++ serEscape false label ++ lit "</a></p>" ++ [10])) := by
  have h1 : lit "<p><a" = lit "<" ++ (lit "p" ++ (lit ">" ++ (lit "<" ++ lit "a"))) := by decide
  have h2 : hrefMarker = lit "href" ++ lit "=\"" := by decide
  have h3 : lit "</a></p>" = lit "</" ++ (lit "a" ++ (lit ">" ++ (lit "</" ++ (lit "p" ++ lit ">")))) := by
    decide
  have h4 : lit " " = [32] ∧ lit "\"" = [34] ∧ lit "\n" = [10] := by decide
  simp [serLine, navLink, serNode, serNodes, serAttr, h1, h2, h3, h4]

/-- What ends the line of such a link is copied. -/
theorem copies_navTail {marker param value label : Bytes} (hmarker : marker ∈ linkMarkers)
    (hlabel : label = prevLabel ∨ label = nextLabel) : Copies (tagRule marker param value)
      (fun _ => True) (lit ">" ++ serEscape false label ++ lit "</a></p>" ++ [10]) := by
  refine copies_snoc_markerEnd hmarker (by decide) (copies_of_quiet hmarker ?_)
  rcases hlabel with rfl | rfl <;> exact quiet_of_notMem hmarker (by decide) (by decide)

/-- **A link to another page is tagged.** -/
theorem rewrite_navLink {param value : Bytes} (hparam : Unescaped param)
    (hvalue : Unescaped value) (hlabel : label = prevLabel ∨ label = nextLabel)
    (hhead : href.head? = some 47) (hnext : (href.drop 1).head? ≠ some 47) (t : Bytes) :
    rewrite (tagRule hrefMarker param value) (serLine (navLink label href) ++ t) =
      serLine (navLink label (tagLink param value href)) ++
        rewrite (tagRule hrefMarker param value) t := by
  have hmarker : hrefMarker ∈ linkMarkers := by decide
  have hstart : Copies (tagRule hrefMarker param value) (fun _ => True) (lit "<p><a" ++ [32]) :=
    copies_snoc_markerEnd hmarker (by decide)
      (copies_of_quiet hmarker (quiet_of_notMem hmarker (by decide) (by decide)))
  have htail := @copies_navTail _ param value _ hmarker hlabel
  have hquote : 34 ∉ serEscape true href := fun h => (ne_of_mem_serEscape h).2.2 rfl rfl
  rw [serLine_navLink, serLine_navLink]
  set tail := lit ">" ++ serEscape false label ++ lit "</a></p>" ++ [10]
  -- the rule applies where the address starts
  have hrule : tagRule hrefMarker param value (hrefMarker ++ (serEscape true href ++ 34 :: (tail ++ t))) =
      some (hrefMarker ++ serEscape true (tagLink param value href) ++ [34], tail ++ t) := by
    have hpre : hrefMarker.isPrefixOf (hrefMarker ++ (serEscape true href ++ 34 :: (tail ++ t))) =
        true := List.isPrefixOf_iff_prefix.mpr (List.prefix_append _ _)
    have hlast : hrefMarker.getLastD 0 = 34 := by decide
    simp only [tagRule, hpre, if_true, hlast, List.drop_left, List.mem_append, List.mem_cons,
      true_or, or_true, takeWhile_ne_append hquote, afterByte_append hquote,
      tagValue_serEscape hparam hvalue hhead hnext]
  have hcons : hrefMarker = 104 :: lit "ref=\"" := by decide
  have happly : rewrite (tagRule hrefMarker param value)
      (hrefMarker ++ (serEscape true href ++ 34 :: (tail ++ t))) =
      hrefMarker ++ serEscape true (tagLink param value href) ++ [34] ++
        rewrite (tagRule hrefMarker param value) (tail ++ t) := by
    conv_lhs => rw [hcons, List.cons_append]
    refine rewrite_of_rule ?_ ?_
    · rw [← List.cons_append, ← hcons]
      exact hrule
    · simp only [List.length_append, List.length_cons]
      omega
  have := hstart (hrefMarker ++ (serEscape true href ++ 34 :: (tail ++ t))) trivial
  rw [happly, htail t trivial] at this
  simpa using this

/-! ## Tagged pages -/

/-- A string in which a marker is not found is quiet. -/
theorem quiet_of_findSub {marker param value : Bytes} (h : findSub marker s = none) :
    Quiet marker param value s := fun _ hu hpre =>
  absurd (hpre.isInfix.trans ((List.mem_tails _ _).mp hu).isInfix) (findSub_eq_none_iff.mp h)

/-- An attribute whose name and value do not end like one a marker is for. -/
theorem findSub_serAttr {stem name : Bytes} (hstem : 34 ∉ stem)
    (hname : 34 ∉ name ∧ ¬ stem <:+ lit " " ++ name ++ lit "=")
    (hv : ¬ stem <:+ serEscape true v) : findSub (stem ++ [34]) (serAttr (name, v)) = none := by
  have heq : lit "=\"" = lit "=" ++ [34] := by decide
  have hquote : lit "\"" = [34] := by decide
  have hmarks : 34 ∉ lit " " ∧ 34 ∉ lit "=" := by decide
  have hsplit : serAttr (name, v) =
      (lit " " ++ name ++ lit "=") ++ 34 :: (serEscape true v ++ 34 :: []) := by
    simp [serAttr, heq, hquote]
  rw [hsplit, findSub_append_singleton hstem (by simp [hmarks, hname.1]), if_neg hname.2,
    findSub_append_singleton hstem (fun h => (ne_of_mem_serEscape h).2.2 rfl rfl), if_neg hv]
  simp [findSub]

/-- What an escaped string ends in without a semicolon, the string itself ends in. -/
theorem suffix_of_suffix_serEscape {attr : Bool} {stem : Bytes} (hstem : 59 ∉ stem)
    (h : stem <:+ serEscape attr v) : stem <:+ v := by
  induction v using List.reverseRecOn generalizing stem with
  | nil => exact h
  | append_singleton v c ih =>
    rcases List.eq_nil_or_concat stem with rfl | ⟨stem', d, rfl⟩
    · exact List.nil_suffix
    · simp only [List.concat_eq_append] at hstem h ⊢
      rw [serEscape_append] at h
      rcases serEscape_singleton attr c with ⟨hone, -⟩ | ⟨-, -, -, e, he, hone⟩ <;> rw [hone] at h
      · obtain ⟨rfl, hstem'⟩ : d = c ∧ stem' <:+ serEscape attr v := by
          simpa [List.suffix_concat_iff] using h
        have := ih (fun h59 => hstem (List.mem_append_left _ h59)) hstem'
        simpa [List.suffix_concat_iff] using this
      · -- an entity ends in a semicolon
        have hentities : ∀ e ∈ [lit "&amp;", lit "&lt;", lit "&gt;", lit "&quot;"],
            ∃ e', e = e' ++ [59] := by
          intro e he
          refine ⟨e.dropLast, ?_⟩
          revert e
          decide
        obtain ⟨e', rfl⟩ := hentities e he
        obtain ⟨r, hr⟩ := h
        have hd : d = 59 := by
          have := congrArg List.getLast? hr
          rw [← List.append_assoc, ← List.append_assoc] at this
          simpa using this
        exact absurd (by simp [hd]) hstem

/-- An address of a page of the site that is tagged as a whole: it holds no apostrophe, no fragment
and nothing but ASCII, and does not end like the attribute of a form. -/
structure PlainLink (v : Bytes) : Prop where
  /-- It starts with a slash. -/
  head : v.head? = some 47
  /-- There is no second slash. -/
  next : (v.drop 1).head? ≠ some 47
  /-- Its bytes. -/
  ascii : ∀ c ∈ v, c ≠ 0 ∧ c < 128 ∧ c ≠ 35 ∧ c ≠ 39
  /-- Its end. -/
  action : ¬ lit "action=" <:+ v

/-- A language tag: letters, digits and hyphens, at most 19 of them. -/
structure LangTag (lang : Bytes) : Prop where
  /-- There is something of it. -/
  ne_nil : lang ≠ []
  /-- Its bytes. -/
  plain : ∀ c ∈ lang, isAlnum c = true ∨ c = 45
  /-- It is short. -/
  length_le : lang.length ≤ 19

/-- The bytes of a language tag. -/
theorem LangTag.bytes {lang : Bytes} (h : LangTag lang) : ∀ c ∈ lang, c < 128 ∧
    c ∉ ([0, 34, 35, 36, 38, 39, 41, 60, 61, 62] : Bytes) := by
  have hclass : ∀ c, (isAlnum c = true ∨ c = 45) →
      c < 128 ∧ c ∉ ([0, 34, 35, 36, 38, 39, 41, 60, 61, 62] : Bytes) := by decide +kernel
  intro c hc
  exact hclass c (h.plain c hc)

/-- A language tag is written as it is. -/
theorem LangTag.unescaped {lang : Bytes} (h : LangTag lang) : Unescaped lang := by
  intro c hc
  have := (h.bytes c hc).2
  simp only [List.mem_cons, not_or] at this
  tauto

/-- The parameter the language goes out in. -/
def langParam : Bytes := lit "lang"

/-- What a link is tagged with. -/
def langSuffix (lang v : Bytes) : Bytes :=
  if (findSub (langParam ++ lit "=") ((serEscape true v).take 2047)).isSome then []
  else (if 63 ∈ v then lit "&" else lit "?") ++ langParam ++ lit "=" ++ lang

/-- A link is tagged at its end. -/
theorem PlainLink.tagLink_eq (h : PlainLink v) (lang : Bytes) :
    tagLink langParam lang v = v ++ langSuffix lang v := by
  have h35 : ∀ c ∈ v, decide (c ≠ 35) = true := fun c hc => by simpa using (h.ascii c hc).2.2.1
  have htake : v.takeWhile (· ≠ 35) = v := List.takeWhile_eq_self_iff.mpr h35
  have hdrop : v.dropWhile (· ≠ 35) = [] := List.dropWhile_eq_nil_iff.mpr h35
  simp only [tagLink, langSuffix, htake, hdrop, show tagOf langParam = langParam ++ lit "=" by decide]
  split_ifs <;> simp

/-- What a link is tagged with: a separator, the name of the parameter and the language. -/
theorem langSuffix_cases (lang v : Bytes) : langSuffix lang v = [] ∨
    ∃ sep, (sep = 38 ∨ sep = 63) ∧ langSuffix lang v = sep :: (langParam ++ lit "=" ++ lang) := by
  have hamp : lit "&" = [38] := by decide
  have hmark : lit "?" = [63] := by decide
  unfold langSuffix
  split_ifs
  · exact Or.inl rfl
  · exact Or.inr ⟨38, Or.inl rfl, by simp [hamp]⟩
  · exact Or.inr ⟨63, Or.inr rfl, by simp [hmark]⟩

/-- **A tagged link is a link of the same kind.** -/
theorem PlainLink.tagged {lang : Bytes} (h : PlainLink v) (hlang : LangTag lang) :
    PlainLink (tagLink langParam lang v) := by
  rw [h.tagLink_eq]
  obtain hnil | ⟨sep, hsep, hsuffix⟩ := langSuffix_cases lang v
  · rwa [hnil, List.append_nil]
  obtain ⟨t, rfl⟩ : ∃ t, v = 47 :: t := by
    cases v with
    | nil => cases h.head
    | cons c t => exact ⟨t, by simpa using h.head⟩
  rw [hsuffix]
  refine ⟨rfl, ?_, List.forall_mem_append.mpr ⟨h.ascii, ?_⟩, ?_⟩
  · cases t with
    | nil => rcases hsep with rfl | rfl <;> simp
    | cons c t => simpa using h.next
  · have hname : ∀ c ∈ langParam ++ lit "=", c ≠ 0 ∧ c < 128 ∧ c ≠ 35 ∧ c ≠ 39 := by decide
    refine List.forall_mem_cons.mpr ⟨?_, List.forall_mem_append.mpr ⟨hname, fun c hc => ?_⟩⟩
    · rcases hsep with rfl | rfl <;> decide
    · obtain ⟨hlt, hnot⟩ := hlang.bytes c hc
      exact ⟨fun h => hnot (by simp [h]), hlt, fun h => hnot (by simp [h]), fun h => hnot (by simp [h])⟩
  · -- it ends in a byte of the language
    rintro ⟨r, hr⟩
    have hlast := congrArg List.getLast? hr
    have haction : lit "action=" = lit "action" ++ [61] := by decide
    have hend : (47 :: t ++ sep :: (langParam ++ lit "=" ++ lang)).getLast? = lang.getLast? := by
      have hsplit : 47 :: t ++ sep :: (langParam ++ lit "=" ++ lang) =
          (47 :: t ++ sep :: (langParam ++ lit "=")) ++ lang := by simp
      rw [hsplit, List.getLast?_append_of_ne_nil _ hlang.ne_nil]
    rw [hend, haction, ← List.append_assoc, List.getLast?_concat] at hlast
    obtain ⟨-, hnot⟩ := hlang.bytes 61 (List.mem_of_getLast? hlast.symm)
    exact hnot (by decide)

/-- The names and texts of a link to another page. -/
theorem every_navLink {P : Node → Prop} : (navLink label href).Every P ↔ P (navLink label href) ∧
      P (.elem (lit "a") [(lit "href", href)] [.text label]) ∧ P (.text label) := by
  simp [navLink, Tree.Every, Tree.EveryIn]

/-- A link to another page reads back. -/
theorem readsBack_navLink (hlabel : label = prevLabel ∨ label = nextLabel)
    (href : Bytes) : ReadsBack (navLink label href) := by
  have hnone : ∀ name : Bytes, ShapedKids name [] := fun name p t q h => by simp at h
  have hcollapsed : Collapsed label := by
    unfold Collapsed
    rcases hlabel with rfl | rfl <;> decide
  have hp : isWmlName (lit "p") = true ∧ isVoidTag (lit "p") = false := by decide
  have ha : isWmlName (lit "a") = true ∧ isVoidTag (lit "a") = false ∧
      isWmlName (lit "href") = true := by decide
  refine every_navLink.mpr ⟨⟨⟨hp.1, by simp, by simp [hp.2], ?_⟩, ?_⟩,
    ⟨⟨ha.1, by simp [ha.2.2], by simp [ha.2.1], (hnone _).snoc hcollapsed⟩, ?_⟩, trivial, ?_⟩
  · intro p t q h
    rcases List.append_eq_cons_iff.mp h.symm with ⟨-, h⟩ | ⟨p', -, h⟩
    · cases h
    · simp at h
  · refine ⟨List.isChain_singleton _, fun k hk => ?_⟩
    obtain rfl := Option.some.inj hk
    rfl
  · refine ⟨List.isChain_singleton _, fun k hk => ?_⟩
    obtain rfl := Option.some.inj hk
    exact hcollapsed.1
  · exact ⟨List.isChain_nil, by simp [Tree.kids]⟩

theorem depth_navLink (label href : Bytes) : (navLink label href).depth = 2 := rfl

/-- Such a link is no list. -/
theorem listless_navLink (label href : Bytes) : (navLink label href).Every Listless := by
  have hnames : isListName (lit "p") = false ∧ isListName (lit "a") = false := by decide
  exact every_navLink.mpr ⟨fun _ => hnames.1, fun _ => hnames.2, trivial⟩

/-- **The other markers find no link in a link to another page.** -/
theorem settled_navLink {marker : Bytes} (value : Bytes)
    (hmarker : marker = lit "location.href='" ∨ marker = lit "action=\"")
    (hlabel : label = prevLabel ∨ label = nextLabel) (hv : PlainLink v) :
    (navLink label v).Every (Settled marker langParam value) := by
  have hmem : marker ∈ linkMarkers := by rcases hmarker with rfl | rfl <;> decide
  have haddress : Quiet marker langParam value (serAttr (lit "href", v)) := by
    refine quiet_of_findSub ?_
    rcases hmarker with rfl | rfl
    · -- no apostrophe stands in the link
      refine findSub_eq_none_iff.mpr fun hinside => ?_
      have h39 : 39 ∈ serAttr (lit "href", v) := hinside.subset (by decide)
      have hmarks : 39 ∉ lit " " ∧ 39 ∉ lit "href" ∧ 39 ∉ lit "=\"" ∧
          39 ∉ lit "\"" := by decide
      simp only [serAttr, List.mem_append, hmarks, false_or, or_false] at h39
      exact (hv.ascii 39 ((mem_serEscape_iff (by decide)).mp h39)).2.2.2 rfl
    · have haction : lit "action=\"" = lit "action=" ++ [34] := by decide
      rw [haction]
      exact findSub_serAttr (by decide) (by decide) fun h =>
        hv.action (suffix_of_suffix_serEscape (by decide) h)
  have hwords : ∀ w ∈ words label, 34 ∉ serEscape false w ∧
      39 ∉ serEscape false w := by
    rcases hlabel with rfl | rfl <;> decide
  exact every_navLink.mpr ⟨by simp [navLink, Settled], by simpa [Settled] using haddress,
    fun w hw => quiet_of_notMem hmem (hwords w hw).1 (hwords w hw).2⟩

/-! ## A tagged deck -/

/-- The Prev and Next links of page `k` of `pages`, tagged. -/
def taggedNav (param value uri : Bytes) (k pages : ℕ) : List Node :=
  (if 0 < k then [navLink prevLabel (tagLink param value (setPageParam uri (k - 1) 1100))] else []) ++
    (if k < pages - 1 then [navLink nextLabel (tagLink param value (setPageParam uri (k + 1) 1100))]
      else [])

/-- The encoding a deck is sent in. -/
def latin1Name : Bytes := lit "ISO-8859-1"

/-- What stands in front of a deck's title has no links in it. -/
theorem findSub_wmlHead : ∀ marker ∈ linkMarkers, findSub marker (wmlHead latin1Name) = none := by
  decide +kernel

/-- The nodes of a block as the tagging of links leaves them. -/
structure TagKept (lang : Bytes) (b : Node) : Prop where
  /-- Blocks are elements. -/
  isElem : b.isElem = true
  /-- They read back when they are written. -/
  readsBack : ReadsBack b
  /-- Their links are settled. -/
  settled : ∀ marker ∈ linkMarkers, b.Every (Settled marker langParam lang)

section Deck

variable {uri : Bytes} {k pages : ℕ}
variable {marker lang title : Bytes}

/-- A pass over a deck, from its head to its foot. -/
theorem rewrite_wmlDeck (hmarker : marker ∈ linkMarkers)
    (htitle : Quiet marker langParam lang (serAttr (lit "title", title))) {blocks blocks' : List Node}
    (hblocks : ∀ t, rewrite (tagRule marker langParam lang) (blocks.flatMap serLine ++ t) =
      blocks'.flatMap serLine ++ rewrite (tagRule marker langParam lang) t) :
    injectQueryParamIntoAttr (wmlDeck latin1Name title blocks) marker langParam lang =
      wmlDeck latin1Name title blocks' := by
  have hends : lit ">\n" = [62] ++ [10] ∧ lit "</card>\n</wml>\n" = lit "</card>\n</wml>" ++ [10] ∧
      lit " " = [32] := by decide
  have hhead : Copies (tagRule marker langParam lang) Stops (wmlHead latin1Name) :=
    copies_of_quiet hmarker (quiet_of_findSub (findSub_wmlHead marker hmarker))
  have hopen : Copies (tagRule marker langParam lang) (fun _ => True)
      (wmlHead latin1Name ++ serAttr (lit "title", title) ++ ([62] ++ [10])) := by
    have h1 := hhead.append (copies_of_quiet hmarker htitle) fun t _ => by
      simp [serAttr, Stops, hends.2.2, markerEnds]
    rw [← List.append_assoc]
    exact (copies_snoc_markerEnd hmarker (by decide) h1).append
      (copies_markerEnd hmarker (by decide)) fun _ _ => trivial
  have hfoot : Copies (tagRule marker langParam lang) (fun _ => True)
      (lit "</card>\n</wml>" ++ [10]) :=
    copies_snoc_markerEnd hmarker (by decide)
      (copies_of_quiet hmarker (quiet_of_notMem hmarker (by decide) (by decide)))
  rw [injectQueryParamIntoAttr, wmlDeck, wmlDeck, hends.1, hends.2.1, List.append_assoc, hopen _ trivial,
    hblocks, hfoot.rewrite_eq trivial, ← List.append_assoc]

/-- Blocks whose links are settled are copied. -/
theorem copies_settled (hmarker : marker ∈ linkMarkers) {blocks : List Node}
    (hblocks : ∀ b ∈ blocks, b.isElem = true ∧ ReadsBack b ∧ b.Every (Settled marker langParam lang)) :
    Copies (tagRule marker langParam lang) (fun _ => True) (blocks.flatMap serLine) := by
  refine copies_serLines (copies_markerEnd hmarker (by decide)) fun b hb => ?_
  obtain ⟨helem, hread, hsettled⟩ := hblocks b hb
  exact ⟨helem, hread, (hread.and hsettled).imp fun n hn => kept_of_settled hmarker hn.1.1 hn.2⟩

/-- The pages before and after page `k` of `pages`. -/
theorem exists_neighbour (hk : k < pages) : (0 < k → ∃ i : ℕ, i < pages ∧ (k : ℤ) - 1 = i) ∧
      (k < pages - 1 → ∃ i : ℕ, i < pages ∧ (k : ℤ) + 1 = i) :=
  ⟨fun h0 => ⟨k - 1, by omega, by omega⟩, fun hlast => ⟨k + 1, by omega, by omega⟩⟩

/-- Each of the tagged links is one. -/
theorem mem_taggedNav {param value : Bytes} (hk : k < pages) {b : Node}
    (hb : b ∈ taggedNav param value uri k pages) : ∃ label, (label = prevLabel ∨ label = nextLabel) ∧
      ∃ i : ℕ, i < pages ∧ b = navLink label (tagLink param value (setPageParam uri i 1100)) := by
  obtain ⟨hprev, hnext⟩ := exists_neighbour hk
  unfold taggedNav at hb
  rcases List.mem_append.mp hb with hb | hb <;> split_ifs at hb with h
  · obtain ⟨i, hi, heq⟩ := hprev h
    exact ⟨_, Or.inl rfl, i, hi, by rw [List.mem_singleton.mp hb, heq]⟩
  · cases hb
  · obtain ⟨i, hi, heq⟩ := hnext h
    exact ⟨_, Or.inr rfl, i, hi, by rw [List.mem_singleton.mp hb, heq]⟩
  · cases hb

/-- The lines of the links are tagged. -/
theorem rewrite_navOf (hlang : LangTag lang) (hk : k < pages)
    (hlink : ∀ i : ℕ, i < pages → PlainLink (setPageParam uri i 1100)) (t : Bytes) :
    rewrite (tagRule hrefMarker langParam lang) ((navOf uri k pages).flatMap serLine ++ t) =
      (taggedNav langParam lang uri k pages).flatMap serLine ++
        rewrite (tagRule hrefMarker langParam lang) t := by
  have hparam : Unescaped langParam := by unfold Unescaped; decide
  have hline : ∀ label : Bytes, (label = prevLabel ∨ label = nextLabel) → ∀ j : ℤ,
      (∃ i : ℕ, i < pages ∧ j = i) → ∀ t, rewrite (tagRule hrefMarker langParam lang)
        (serLine (navLink label (setPageParam uri j 1100)) ++ t) =
          serLine (navLink label (tagLink langParam lang (setPageParam uri j 1100))) ++
            rewrite (tagRule hrefMarker langParam lang) t := by
    rintro label hlabel _ ⟨i, hi, rfl⟩ t
    exact rewrite_navLink hparam hlang.unescaped hlabel (hlink i hi).head (hlink i hi).next t
  obtain ⟨hprev, hnext⟩ := exists_neighbour hk
  unfold navOf taggedNav
  split_ifs with h0 hlast hlast
  · simp only [List.singleton_append, List.flatMap_cons, List.flatMap_nil, List.append_nil,
      List.append_assoc, hline _ (Or.inl rfl) _ (hprev h0), hline _ (Or.inr rfl) _ (hnext hlast)]
  · simp only [List.append_nil, List.flatMap_cons, List.flatMap_nil,
      hline _ (Or.inl rfl) _ (hprev h0)]
  · simp only [List.nil_append, List.flatMap_cons, List.flatMap_nil, List.append_nil,
      hline _ (Or.inr rfl) _ (hnext hlast)]
  · rfl

/-- **Tagging a page tags the links to the pages around it**, and nothing else. -/
theorem tagLinks_wmlDeck {blocks : List Node} (hlang : LangTag lang)
    (htitle : ∀ marker ∈ linkMarkers, Quiet marker langParam lang (serAttr (lit "title", title)))
    (hblocks : ∀ b ∈ blocks, TagKept lang b) (hk : k < pages)
    (hlink : ∀ i : ℕ, i < pages → PlainLink (setPageParam uri i 1100)) :
    injectQueryParamIntoLinks (wmlDeck latin1Name title (blocks ++ navOf uri k pages)) langParam lang =
      wmlDeck latin1Name title (blocks ++ taggedNav langParam lang uri k pages) := by
  have hkept : ∀ marker ∈ linkMarkers, Copies (tagRule marker langParam lang) (fun _ => True)
      (blocks.flatMap serLine) := fun marker hmarker => copies_settled hmarker fun b hb =>
    ⟨(hblocks b hb).isElem, (hblocks b hb).readsBack, (hblocks b hb).settled marker hmarker⟩
  -- the first pass tags the links, the others find none
  have hfirst := @rewrite_wmlDeck hrefMarker lang title (by decide) (htitle hrefMarker (by decide))
    (blocks ++ navOf uri k pages) (blocks ++ taggedNav langParam lang uri k pages) fun t => by
      rw [List.flatMap_append, List.append_assoc, hkept _ (by decide) _ trivial,
        rewrite_navOf hlang hk hlink, List.flatMap_append, List.append_assoc]
  have hother : ∀ marker, marker = lit "location.href='" ∨ marker = lit "action=\"" →
      injectQueryParamIntoAttr (wmlDeck latin1Name title
        (blocks ++ taggedNav langParam lang uri k pages)) marker langParam lang =
      wmlDeck latin1Name title (blocks ++ taggedNav langParam lang uri k pages) := by
    intro marker hcase
    have hmarker : marker ∈ linkMarkers := by rcases hcase with rfl | rfl <;> decide
    have hnav : Copies (tagRule marker langParam lang) (fun _ => True)
        ((taggedNav langParam lang uri k pages).flatMap serLine) := by
      refine copies_settled hmarker fun b hb => ?_
      obtain ⟨label, hlabel, i, hi, rfl⟩ := mem_taggedNav hk hb
      exact ⟨rfl, readsBack_navLink hlabel _,
        settled_navLink lang hcase hlabel ((hlink i hi).tagged hlang)⟩
    refine rewrite_wmlDeck hmarker (htitle marker hmarker) fun t => ?_
    rw [List.flatMap_append, List.append_assoc, hkept marker hmarker _ trivial, hnav t trivial,
      List.append_assoc]
  have hmarkers : linkMarkers = [hrefMarker, lit "location.href='", lit "action=\""] := rfl
  rw [injectQueryParamIntoLinks, hmarkers, List.foldl_cons, List.foldl_cons, List.foldl_cons,
    List.foldl_nil, hfirst, hother _ (Or.inl rfl), hother _ (Or.inr rfl)]

end Deck

end BoatRudder.Utils
