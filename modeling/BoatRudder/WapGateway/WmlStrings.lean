import BoatRudder.WapGateway.Wml

/-! # The strings of a parsed tree

What `parse_wml` puts into the tree are C strings: no text and no attribute value holds a NUL, when
the source holds none. -/

namespace BoatRudder.Wml

/-! ## Entities -/

variable {s : Bytes} {st : Stack}

/-- A byte with its high bits set by `mask` is not NUL. -/
theorem ofNat_or_ne_zero {mask x : ℕ} (hmask : 0 < mask) (hm : mask < 256) (hx : x < 256) :
    UInt8.ofNat (mask ||| x) ≠ 0 := by
  have hlt : mask ||| x < 2 ^ 8 := Nat.or_lt_two_pow hm hx
  have hle : mask ≤ mask ||| x := Nat.left_le_or
  intro h
  have := congrArg UInt8.toNat h
  rw [UInt8.toNat_ofNat'] at this
  simp only [UInt8.toNat_zero] at this
  omega

/-- The UTF-8 bytes of a code point other than NUL hold no NUL. -/
theorem zero_notMem_utf8 {cp : ℕ} (h0 : 0 < cp) (hmax : cp ≤ 0x10FFFF) :
    0 ∉ utf8 cp := by
  have hlow : ∀ n : ℕ, UInt8.ofNat (0x80 ||| n &&& 0x3F) ≠ 0 := fun n =>
    ofNat_or_ne_zero (by decide) (by decide)
      (lt_of_le_of_lt Nat.and_le_right (by decide))
  have hshift : ∀ k : ℕ, cp >>> k = cp / 2 ^ k := fun k => Nat.shiftRight_eq_div_pow cp k
  unfold utf8
  split_ifs with h1 h2 h3
  · have : UInt8.ofNat cp ≠ 0 := by
      intro h
      have := congrArg UInt8.toNat h
      rw [UInt8.toNat_ofNat', UInt8.toNat_zero] at this
      omega
    simpa using this.symm
  all_goals
    simp only [List.mem_cons, List.not_mem_nil, or_false, not_or]
  · exact ⟨(ofNat_or_ne_zero (by decide) (by decide) (by rw [hshift]; omega)).symm,
      (hlow _).symm⟩
  · exact ⟨(ofNat_or_ne_zero (by decide) (by decide) (by rw [hshift]; omega)).symm,
      (hlow _).symm, (hlow _).symm⟩
  · exact ⟨(ofNat_or_ne_zero (by decide) (by decide) (by rw [hshift]; omega)).symm,
      (hlow _).symm, (hlow _).symm, (hlow _).symm⟩

/-- An entity stands for a code point of Unicode's range, never for NUL. -/
theorem entityCode_range {e : Bytes} {cp : ℕ} (h : entityCode e = some cp) :
    0 < cp ∧ cp ≤ 0x10FFFF := by
  have hnamed : ∀ x ∈ namedEntities, 0 < x.2 ∧ x.2 ≤ 0x10FFFF := by decide
  unfold entityCode at h
  split at h
  · next x cp' hfind =>
      obtain rfl := Option.some.inj h
      exact hnamed _ (List.mem_of_find?_eq_some hfind)
  · split_ifs at h
    simp only [numericEntity] at h
    split_ifs at h <;> (obtain rfl := Option.some.inj h; omega)

/-- Decoding entities makes no NUL. -/
theorem zero_notMem_decodeEntities (h : 0 ∉ s) : 0 ∉ decodeEntities s := by
  fun_induction decodeEntities s with
  | case1 => simp
  | case2 c s hc ih =>
    simp only [List.mem_cons, not_or] at h ⊢
    exact ⟨h.1, ih h.2⟩
  | case3 c s hc hk ih =>
    simp only [List.mem_cons, not_or] at h ⊢
    exact ⟨by decide, ih h.2⟩
  | case4 c s hc k hk hcp ih =>
    simp only [List.mem_cons, not_or] at h ⊢
    exact ⟨by decide, ih h.2⟩
  | case5 c s hc k hk cp hcp ih =>
    simp only [List.mem_cons, not_or] at h
    simp only [List.mem_append, not_or]
    exact ⟨zero_notMem_utf8 (entityCode_range hcp).1 (entityCode_range hcp).2,
      ih fun hmem => h.2 (List.mem_of_mem_drop hmem)⟩

/-- Collapsing blanks makes no NUL. -/
theorem zero_notMem_collapseBlanks (h : 0 ∉ s) (space any : Bool) :
    0 ∉ collapseBlanks space any s := by
  induction s generalizing space any with
  | nil => cases space <;> cases any <;> simp [collapseBlanks]
  | cons c s ih =>
    simp only [List.mem_cons, not_or] at h
    simp only [collapseBlanks]
    split_ifs <;> simp [ih h.2, h.1]

/-- A text of the tree holds no NUL. -/
theorem zero_notMem_makeText {t : Bytes} (h : 0 ∉ s) (ht : makeText s = some t) :
    0 ∉ t := by
  simp only [makeText] at ht
  split_ifs at ht
  obtain rfl := Option.some.inj ht
  exact zero_notMem_collapseBlanks (zero_notMem_decodeEntities h) _ _

/-! ## Tags -/

/-- A byte of a name is not NUL. -/
theorem zero_notMem_takeWhile_isNameChar (s : Bytes) : 0 ∉ s.takeWhile isNameChar :=
  fun h => absurd (List.mem_takeWhile_imp h) (by decide)

/-- What is read of an attribute's value, and what is left, are parts of the source. -/
theorem attrValue_subset (s : Bytes) : (attrValue s).1 ⊆ s ∧ (attrValue s).2 <:+ s := by
  have hsuf := List.dropWhile_suffix (l := s) isSpace
  unfold attrValue
  split
  · simp
  · next q s' heq =>
      rw [heq] at hsuf
      split
      · refine ⟨fun b hb => hsuf.subset (List.mem_cons_of_mem _ ((List.takeWhile_prefix _).subset hb)),
          ?_⟩
        exact ((List.drop_suffix _ _).trans (List.dropWhile_suffix _)).trans
          ((List.suffix_cons q s').trans hsuf)
      · simp only
        exact ⟨fun b hb => hsuf.subset ((List.takeWhile_prefix _).subset hb),
          (List.dropWhile_suffix _).trans hsuf⟩

/-- What follows the first byte past a run is the end of the source. -/
theorem suffix_of_dropWhile_eq {p : UInt8 → Bool} {t : Bytes} {c : UInt8}
    (h : s.dropWhile p = c :: t) : t <:+ s :=
  (List.suffix_cons c t).trans (h ▸ List.dropWhile_suffix p)

/-- One more attribute without a NUL. -/
theorem forall_mem_snoc {attrs : List (Bytes × Bytes)} {a : Bytes × Bytes}
    (hattrs : ∀ b ∈ attrs, 0 ∉ b.2) (ha : 0 ∉ a.2) :
    ∀ b ∈ attrs ++ [a], 0 ∉ b.2 := by
  intro b hb
  rcases List.mem_append.mp hb with hb | hb
  · exact hattrs b hb
  · obtain rfl := List.mem_singleton.mp hb
    exact ha

/-- The attributes of an open tag hold no NUL, and what follows the tag is the end of the source. -/
theorem parseAttrs_clean {attrs : List (Bytes × Bytes)} {selfClose : Bool}
    (hattrs : ∀ a ∈ attrs, 0 ∉ a.2) (h : 0 ∉ s) :
    (∀ a ∈ (parseAttrs attrs selfClose s).1, 0 ∉ a.2) ∧
      (parseAttrs attrs selfClose s).2.2 <:+ s := by
  fun_induction parseAttrs attrs selfClose s with
  | case1 attrs selfClose s hs => exact ⟨hattrs, List.nil_suffix⟩
  | case2 attrs selfClose s c t hs hc => exact ⟨hattrs, suffix_of_dropWhile_eq hs⟩
  | case3 attrs selfClose s c t hs hc hc' ih =>
    have hsuf := suffix_of_dropWhile_eq hs
    obtain ⟨h1, h2⟩ := ih hattrs fun hm => h (hsuf.subset hm)
    exact ⟨h1, h2.trans hsuf⟩
  | case4 attrs selfClose s c t hs hc hc' hn ih =>
    have hsuf := suffix_of_dropWhile_eq hs
    obtain ⟨h1, h2⟩ := ih hattrs fun hm => h (hsuf.subset hm)
    exact ⟨h1, h2.trans hsuf⟩
  | case5 attrs selfClose s c t hs hc hc' hn name hr =>
    have hname : 0 ∉ name := fun hm =>
      zero_notMem_takeWhile_isNameChar _ (List.mem_of_mem_take hm)
    exact ⟨forall_mem_snoc hattrs hname, List.nil_suffix⟩
  | case6 attrs selfClose s c t hs hc hc' hn name e r hr he ih =>
    have hsuf := (suffix_of_dropWhile_eq hr).trans
      ((List.dropWhile_suffix _).trans (suffix_of_dropWhile_eq hs))
    have hr0 : 0 ∉ r := fun hm => h (hsuf.subset hm)
    obtain ⟨hval, hrest⟩ := attrValue_subset r
    have hclean := zero_notMem_decodeEntities fun hm => hr0 (hval hm)
    obtain ⟨h1, h2⟩ := ih (forall_mem_snoc hattrs hclean)
      fun hm => hr0 (hrest.subset hm)
    exact ⟨h1, h2.trans (hrest.trans hsuf)⟩
  | case7 attrs selfClose s c t hs hc hc' hn name e r hr he ih =>
    have hname : 0 ∉ name := fun hm =>
      zero_notMem_takeWhile_isNameChar _ (List.mem_of_mem_take hm)
    have hsuf : e :: r <:+ s := by
      rw [← hr]
      exact (List.dropWhile_suffix _).trans
        ((List.dropWhile_suffix _).trans (suffix_of_dropWhile_eq hs))
    obtain ⟨h1, h2⟩ := ih (forall_mem_snoc hattrs hname)
      fun hm => h (hsuf.subset hm)
    exact ⟨h1, h2.trans hsuf⟩

/-! ## The stack -/

/-- An open element without NULs in its attributes and children. -/
def Frame.Clean (f : Frame) : Prop := f.close.All (0 ∉ ·)

/-- A stack of such elements. -/
def Stack.Clean (st : Stack) : Prop := st.top.Clean ∧ ∀ f ∈ st.below, f.Clean

theorem Frame.Clean.add {f : Frame} {n : Node} (h : f.Clean) (hn : n.All (0 ∉ ·)) :
    (f.add n).Clean := by
  simp only [Frame.Clean, Frame.close, Frame.add, Tree.All] at h ⊢
  exact ⟨h.1, Tree.allIn_append.mpr ⟨h.2, hn, trivial⟩⟩

theorem Stack.Clean.add {n : Node} (h : st.Clean) (hn : n.All (0 ∉ ·)) :
    (st.add n).Clean := ⟨h.1.add hn, h.2⟩

/-- Popping keeps a stack clean. -/
theorem popTo_clean {name : Bytes} {top : Frame} {below : List Frame}
    (htop : top.Clean) (hbelow : ∀ f ∈ below, f.Clean) (h : popTo name top below = some st) :
    st.Clean := by
  induction below generalizing top with
  | nil => cases h
  | cons parent below ih =>
    simp only [List.mem_cons, forall_eq_or_imp] at hbelow
    simp only [popTo] at h
    split_ifs at h
    · obtain rfl := Option.some.inj h
      exact ⟨hbelow.1.add htop, hbelow.2⟩
    · exact ih (hbelow.1.add htop) hbelow.2 h

/-- Closing every open element of a clean stack gives a clean tree. -/
theorem closeAll_clean {top : Frame} {below : List Frame} (htop : top.Clean)
    (hbelow : ∀ f ∈ below, f.Clean) : (closeAll top below).All (0 ∉ ·) := by
  induction below generalizing top with
  | nil => exact htop
  | cons parent below ih =>
    simp only [List.mem_cons, forall_eq_or_imp] at hbelow
    exact ih (hbelow.1.add htop) hbelow.2

/-! ## The reader -/

/-- A run of text keeps the stack clean. -/
theorem readText_clean (h : 0 ∉ s) (hst : st.Clean) : (readText s st).Clean := by
  unfold readText
  split
  · next t ht =>
      exact hst.add (zero_notMem_makeText (fun hm => h ((List.takeWhile_prefix _).subset hm)) ht)
  · split_ifs
    · exact hst.add (by simp only [Tree.All]; decide)
    · exact hst

/-- One turn of the loop keeps the stack clean, and leaves the end of the source. -/
theorem parseStep_clean (h : 0 ∉ s) (hst : st.Clean) :
    (parseStep s st).2.Clean ∧ (parseStep s st).1 <:+ s := by
  unfold parseStep
  split_ifs with h1 h2 h3 h4 h5
  · exact ⟨readText_clean h hst, List.dropWhile_suffix _⟩
  · refine ⟨hst, ?_⟩
    unfold skipComment
    split
    · exact List.drop_suffix _ _
    · exact List.nil_suffix
  · exact ⟨hst, (List.drop_suffix _ _).trans (List.dropWhile_suffix _)⟩
  · refine ⟨?_, ?_⟩
    · cases hpop : popTo (tagName (s.drop 2)) st.top st.below with
      | none => exact hst
      | some st' => exact popTo_clean hst.1 hst.2 hpop
    · exact ((List.drop_suffix _ _).trans (List.dropWhile_suffix _)).trans
        ((List.dropWhile_suffix _).trans (List.drop_suffix _ _))
  · exact ⟨hst, List.drop_suffix _ _⟩
  · have hsuf := (List.dropWhile_suffix (l := s.drop 1) isNameChar).trans (List.drop_suffix 1 s)
    have htag : (∀ a ∈ (parseAttrs [] false ((s.drop 1).dropWhile isNameChar)).1, 0 ∉ a.2) ∧
        (parseAttrs [] false ((s.drop 1).dropWhile isNameChar)).2.2 <:+
          (s.drop 1).dropWhile isNameChar :=
      parseAttrs_clean (by simp) fun hm => h (hsuf.subset hm)
    refine ⟨?_, htag.2.trans hsuf⟩
    simp only [readOpenTag]
    split_ifs
    · exact ⟨⟨htag.1, trivial⟩, by simpa using ⟨hst.1, hst.2⟩⟩
    · exact hst.add ⟨htag.1, trivial⟩

/-- **No text and no attribute value of a parsed tree holds a NUL.** -/
theorem parseWml_clean (h : 0 ∉ s) : (parseWml s).All (0 ∉ ·) := by
  have hloop : ∀ st : Stack, st.Clean → (parseLoop s st).All (0 ∉ ·) := by
    intro st hst
    fun_induction parseLoop s st with
    | case1 st => exact closeAll_clean hst.1 hst.2
    | case2 s st hs ih =>
      obtain ⟨hclean, hsuf⟩ := parseStep_clean h hst
      exact ih (fun hm => h (hsuf.subset hm)) hclean
  exact hloop _ ⟨⟨by simp [Stack.start], trivial⟩, by simp [Stack.start]⟩

end BoatRudder.Wml
