import BoatRudder.Utils.EpochResponse
import BoatRudder.WapGateway.PageBlocks

/-! # Fixups of a written deck

A page of a deck still goes through passes over its text after `wml_paginate` wrote it. What such a
pass copies, node by node; closing breaks and stripping lists changes nothing in what a parsed deck
is written to, as long as no list is in it. -/

namespace BoatRudder.Utils

open Wml Wbxml

/-! ## Passes over a tree -/

/-- A written node that a pass copies: an element whatever follows it, a text in front of a tag. -/
def Kept (rule : RewriteRule) : Node → Prop
  | .text t => Copies rule AtTag (serEscape false t)
  | .elem name attrs kids =>
    Copies rule (fun _ => True)
        (lit "<" ++ name ++ attrs.flatMap serAttr ++ (if kids = [] then lit "/>" else lit ">")) ∧
      (kids ≠ [] → Copies rule (fun _ => True) (lit "</" ++ name ++ lit ">"))

section Passes

variable {rule : RewriteRule}

/-- The children of an element are copied, when each of them is. -/
theorem copies_serNodes {ks : List Node}
    (hchain : ks.IsChain fun a b => a.isElem = true ∨ b.isElem = true)
    (helem : ∀ k ∈ ks, k.isElem = true → Copies rule (fun _ => True) (serNode k))
    (htext : ∀ t, .text t ∈ ks → Copies rule AtTag (serEscape false t)) :
    Copies rule AtTag (serNodes ks) := by
  induction ks with
  | nil => exact copies_nil
  | cons k ks ih =>
    have ih := ih hchain.tail (fun l hl => helem l (List.mem_cons_of_mem k hl))
      fun t ht => htext t (List.mem_cons_of_mem k ht)
    rw [serNodes]
    cases k with
    | elem name attrs kids => exact (helem _ (by simp) rfl).append ih fun _ _ => trivial
    | text t => exact (htext t (by simp)).append ih fun s hs => atTag_serNodes hchain hs

/-- **A pass copies a written element, when it copies its tags and texts.** -/
theorem copies_serNode {n : Node} (hkept : n.Every (Kept rule)) (hread : ReadsBack n)
    (helem : n.isElem = true) : Copies rule (fun _ => True) (serNode n) := by
  induction n using Tree.induction with
  | text t => cases helem
  | elem name attrs kids ih =>
    obtain ⟨⟨hopen, hclose⟩, hkidsKept⟩ := Tree.every_elem.mp hkept
    obtain ⟨⟨-, hclean⟩, hkidsRead⟩ := Tree.every_elem.mp hread
    rw [serNode]
    by_cases hnil : kids = []
    · simpa [hnil] using hopen
    · rw [if_neg hnil] at hopen ⊢
      have hclean : Uninterrupted kids := hclean
      have hkids := copies_serNodes hclean.1
        (fun k hk hkelem => ih k hk (hkidsKept k hk) (hkidsRead k hk) hkelem)
        (fun t ht => (hkidsKept _ ht : Tree.Every (Kept rule) (.text t)).root)
      have hafter := hkids.append (hclose hnil) (fun s _ => by
        have : lit "</" = [60, 47] := by decide
        simp [AtTag, this])
      have hall := hopen.append hafter fun _ _ => trivial
      simpa only [List.append_assoc] using hall

/-- The blocks of a page, each on its line. -/
theorem copies_serLines {blocks : List Node} (hfeed : Copies rule (fun _ => True) (lit "\n"))
    (hblocks : ∀ b ∈ blocks, b.isElem = true ∧ ReadsBack b ∧ b.Every (Kept rule)) :
    Copies rule (fun _ => True) (blocks.flatMap serLine) := by
  refine copies_flatMap (fun b hb => ?_) fun _ _ _ => trivial
  obtain ⟨helem, hread, hkept⟩ := hblocks b hb
  exact (copies_serNode hkept hread helem).append hfeed fun _ _ => trivial

end Passes

/-! ## Breaks and lists -/

/-- A name has neither quotes nor angle brackets in it. -/
theorem notMem_of_isWmlName {name : Bytes} (h : isWmlName name = true) :
    ∀ c ∈ name, c ∉ ([34, 39, 47, 60, 62] : Bytes) := by
  have hclass : ∀ c ∈ ([34, 39, 47, 60, 62] : Bytes), isNameChar c = false := by decide
  simp only [isWmlName, Bool.and_eq_true, List.all_eq_true] at h
  intro c hc hmem
  have hchar := h.2 c hc
  rw [hclass c hmem] at hchar
  cases hchar

/-- What stands between the angle brackets of a tag. -/
def tagBody (tag : Bytes) : Bytes := (tag.drop 1).dropLast

/-- What is equal without case to a tag has the same body without case. -/
theorem eqNoCase_tagBody {y body t : Bytes} (hy : 62 ∉ y) (hbody : 62 ∉ body)
    (h : eqNoCase (60 :: (y ++ [62])) ((60 :: (body ++ 62 :: t)).take (y.length + 2)) = true) :
    eqNoCase y body = true := by
  rw [eqNoCase_iff] at h ⊢
  have hlower : ∀ s : Bytes, 62 ∉ s → 62 ∉ lower s := by
    intro s hs hmem
    obtain ⟨c, hc, hc62⟩ := List.mem_map.mp hmem
    exact hs (eq_of_toLower_eq hc62 (by decide) ▸ hc)
  have h62 : toLower 62 = 62 := by decide
  have hprefix : lower y ++ [62] <+: lower body ++ 62 :: lower t := by
    have htake : lower ((60 :: (body ++ 62 :: t)).take (y.length + 2)) <+:
        lower (60 :: (body ++ 62 :: t)) := (List.take_prefix _ _).map _
    rw [← h] at htake
    simpa [lower, h62] using htake
  obtain ⟨r, hr⟩ := hprefix
  rw [List.append_assoc, List.singleton_append] at hr
  have := congrArg (List.takeWhile (· ≠ 62)) hr
  rwa [takeWhile_ne_append (hlower y hy), takeWhile_ne_append (hlower body hbody)] at this

section Replacing

variable {eq : Bytes → Bytes → Bool} {table : List (Bytes × Bytes)}

/-- Where no tag starts nothing is replaced. -/
theorem replaceRule_none (heq : ∀ a b, eq a b = true → eqNoCase a b = true)
    (htable : ∀ r ∈ table, r.1 = 60 :: (tagBody r.1 ++ [62]) ∧ 62 ∉ tagBody r.1)
    {c : UInt8} (hc : c ≠ 60) (s : Bytes) : replaceRule eq table (c :: s) = none := by
  rw [replaceRule, Option.map_eq_none_iff, List.find?_eq_none]
  intro r hr hmatch
  have hlower := eqNoCase_iff.mp (heq _ _ hmatch)
  rw [(htable r hr).1] at hlower
  simp only [List.length_cons, List.take_succ_cons, lower, List.map_cons, List.cons.injEq] at hlower
  exact hc (eq_of_toLower_eq (hlower.1.symm.trans (by decide)) (by decide))

/-- A string without tags is copied. -/
theorem copies_untagged (heq : ∀ a b, eq a b = true → eqNoCase a b = true)
    (htable : ∀ r ∈ table, r.1 = 60 :: (tagBody r.1 ++ [62]) ∧ 62 ∉ tagBody r.1)
    {a : Bytes} (ha : 60 ∉ a) : Copies (replaceRule eq table) (fun _ => True) a :=
  copies_of_none fun c s hs t _ => by
    rw [replaceRule_none heq htable]
    rintro rfl
    exact ha (hs.subset (by simp))

/-- A tag that is none of the table is copied. -/
theorem copies_tag (heq : ∀ a b, eq a b = true → eqNoCase a b = true)
    (htable : ∀ r ∈ table, r.1 = 60 :: (tagBody r.1 ++ [62]) ∧ 62 ∉ tagBody r.1)
    {body : Bytes} (h60 : 60 ∉ body) (h62 : 62 ∉ body)
    (hno : ∀ r ∈ table, eqNoCase (tagBody r.1) body = false) :
    Copies (replaceRule eq table) (fun _ => True) (60 :: (body ++ [62])) := by
  intro t _
  have hnone : replaceRule eq table (60 :: (body ++ [62] ++ t)) = none := by
    rw [replaceRule, Option.map_eq_none_iff, List.find?_eq_none]
    intro r hr hmatch
    obtain ⟨hkey, hy⟩ := htable r hr
    have hsame := heq _ _ hmatch
    rw [hkey] at hsame
    simp only [List.length_cons, List.length_append, List.length_nil, Nat.zero_add,
      List.append_assoc, List.singleton_append] at hsame
    have := eqNoCase_tagBody hy h62 hsame
    rw [hno r hr] at this
    cases this
  have hrest : Copies (replaceRule eq table) (fun _ => True) (body ++ [62]) :=
    copies_untagged heq htable (by simpa using h60)
  rw [List.cons_append, rewrite_cons hnone, hrest t trivial]
  rfl

/-- Whether an element is a list, or an item of one. -/
def isListName (name : Bytes) : Bool := [lit "ul", lit "ol", lit "li"].any (eqNoCase name)

/-- A node that is no list, unless it is empty. -/
def Listless : Node → Prop
  | .text _ => True
  | .elem name _ kids => kids ≠ [] → isListName name = false

instance : DecidablePred Listless
  | .text _ => inferInstanceAs (Decidable True)
  | .elem _ _ _ => inferInstanceAs (Decidable (_ → _))

/-- The tags of a table: none holds a bracket inside, has attributes or closes itself. -/
def PlainTable (table : List (Bytes × Bytes)) : Prop :=
  ∀ r ∈ table, r.1 = 60 :: (tagBody r.1 ++ [62]) ∧ 62 ∉ tagBody r.1 ∧
    32 ∉ tagBody r.1 ∧ (tagBody r.1).getLast? ≠ some 47

instance : Decidable (PlainTable table) := inferInstanceAs (Decidable (∀ _ ∈ _, _))

/-- No angle bracket stands in what is written of attributes. -/
theorem ne_of_mem_serAttrs {attrs : List (Bytes × Bytes)}
    (hattrs : ∀ a ∈ attrs, isWmlName a.1 = true) {c : UInt8} (hc : c ∈ attrs.flatMap serAttr) :
    c ≠ 60 ∧ c ≠ 62 := by
  have hmarks : ∀ c ∈ lit " " ++ lit "=\"" ++ lit "\"", c ≠ 60 ∧ c ≠ 62 := by decide
  obtain ⟨a, ha, hc⟩ := List.mem_flatMap.mp hc
  simp only [serAttr, List.mem_append] at hc hmarks
  rcases hc with (((hc | hc) | hc) | hc) | hc
  · exact hmarks c (by simp [hc])
  · have := notMem_of_isWmlName (hattrs a ha) c hc
    simp only [List.mem_cons, List.not_mem_nil, or_false, not_or] at this
    exact ⟨this.2.2.2.1, this.2.2.2.2⟩
  · exact hmarks c (by simp [hc])
  · exact ⟨(ne_of_mem_serEscape hc).1, (ne_of_mem_serEscape hc).2.1⟩
  · exact hmarks c (by simp [hc])

/-- Attributes, or the slash of an element that closes itself, tell a tag from those of a table. -/
theorem eqNoCase_tagBody_open (htable : PlainTable table) {r : Bytes × Bytes} (hr : r ∈ table)
    {name tail : Bytes} {attrs : List (Bytes × Bytes)} (htail : tail = [] ∨ tail = [47])
    (h : eqNoCase (tagBody r.1) (name ++ attrs.flatMap serAttr ++ tail) = true) :
    eqNoCase (tagBody r.1) name = true ∧ tail = [] := by
  obtain ⟨-, -, h32, h47⟩ := htable r hr
  have hlower := eqNoCase_iff.mp h
  have hattrs : attrs = [] := by
    cases attrs with
    | nil => rfl
    | cons a attrs =>
      have hmem : 32 ∈ lower (tagBody r.1) := by
        rw [hlower]
        refine List.mem_map.mpr ⟨32, ?_, by decide⟩
        have : lit " " = [32] := by decide
        simp [serAttr, this]
      obtain ⟨c, hc, hc32⟩ := List.mem_map.mp hmem
      exact absurd (eq_of_toLower_eq hc32 (by decide) ▸ hc) h32
  subst hattrs
  rcases htail with rfl | rfl
  · exact ⟨by simpa using h, rfl⟩
  · have hlast : (lower (tagBody r.1)).getLast? = some 47 := by
      have h47 : toLower 47 = 47 := by decide
      rw [hlower]
      simp [lower, h47]
    rw [lower, List.getLast?_map, Option.map_eq_some_iff] at hlast
    obtain ⟨c, hc, hc47⟩ := hlast
    exact absurd (eq_of_toLower_eq hc47 (by decide) ▸ hc) h47

/-- Elements whose tags are none of the table are kept. -/
theorem kept_of_untabled (heq : ∀ a b, eq a b = true → eqNoCase a b = true)
    (htable : PlainTable table) {n : Node} (hshaped : Shaped n)
    (hno : ∀ name attrs kids, n = .elem name attrs kids → kids ≠ [] → ∀ r ∈ table,
      eqNoCase (tagBody r.1) name = false ∧ eqNoCase (tagBody r.1) (47 :: name) = false) :
    Kept (replaceRule eq table) n := by
  have hlt : lit "<" = [60] := by decide
  have hgt : lit ">" = [62] := by decide
  have hclose : lit "</" = [60, 47] := by decide
  have hempty : lit "/>" = [47, 62] := by decide
  have hends : ∀ r ∈ table, r.1 = 60 :: (tagBody r.1 ++ [62]) ∧ 62 ∉ tagBody r.1 :=
    fun r hr => ⟨(htable r hr).1, (htable r hr).2.1⟩
  cases n with
  | text t =>
    refine (copies_untagged heq hends fun h => ?_).mono fun _ _ => trivial
    exact (ne_of_mem_serEscape h).1 rfl
  | elem name attrs kids =>
    obtain ⟨hname, hattrs, -⟩ := hshaped
    have hname := notMem_of_isWmlName hname
    have hno := hno name attrs kids rfl
    have hopen : ∀ tail : Bytes, tail = [] ∨ tail = [47] → (tail = [] → kids ≠ []) →
        Copies (replaceRule eq table) (fun _ => True)
          (lit "<" ++ name ++ attrs.flatMap serAttr ++ (tail ++ [62])) := by
      intro tail htail hkids
      have hbody : ∀ c : UInt8, c = 60 ∨ c = 62 → c ∉ name ++ attrs.flatMap serAttr ++ tail := by
        intro c hc hmem
        simp only [List.mem_append] at hmem
        rcases hmem with (hmem | hmem) | hmem
        · refine hname c hmem ?_
          rcases hc with rfl | rfl <;> decide
        · have := ne_of_mem_serAttrs hattrs hmem
          exact hc.elim this.1 this.2
        · rcases htail with rfl | rfl
          · cases hmem
          · obtain rfl := List.mem_singleton.mp hmem
            revert hc
            decide
      have := copies_tag heq hends (hbody 60 (Or.inl rfl)) (hbody 62 (Or.inr rfl)) fun r hr => by
        by_contra h
        obtain ⟨hsame, hnil⟩ := eqNoCase_tagBody_open htable hr htail (by simpa using h)
        rw [(hno (hkids hnil) r hr).1] at hsame
        cases hsame
      simpa [hlt] using this
    refine ⟨?_, fun hkids => ?_⟩
    · split_ifs with hnil
      · rw [hempty]
        exact hopen [47] (Or.inr rfl) (by simp)
      · rw [hgt]
        exact hopen [] (Or.inl rfl) fun _ => hnil
    · have := copies_tag heq hends (fun h => ?_) (fun h => ?_) fun r hr => (hno hkids r hr).2
      · rw [hclose, hgt]
        simpa using this
      · exact hname 60 ((List.mem_cons.mp h).resolve_left (by decide)) (by decide)
      · exact hname 62 ((List.mem_cons.mp h).resolve_left (by decide)) (by decide)

end Replacing

/-- **Closing breaks and stripping lists changes nothing** in a node of a parsed deck that is no
list. -/
theorem kept_of_listless {n : Node} (hshaped : Shaped n) (hlist : Listless n) :
    Kept (replaceRule (· == ·) breakTable) n ∧ Kept (replaceRule eqNoCase listTable) n := by
  -- a name is that of no tag of the tables, and starts with no slash
  have hname : ∀ name attrs kids, n = .elem name attrs kids → kids ≠ [] →
      (∀ tag ∈ [lit "br", lit "ul", lit "ol", lit "li"], eqNoCase tag name = false) ∧
        ∀ tag, eqNoCase (47 :: tag) name = false := by
    rintro name attrs kids rfl hkids
    obtain ⟨c, t, rfl, hc⟩ := exists_cons_of_isWmlName hshaped.1
    have hlist := hlist hkids
    have hvoid : isVoidTag (c :: t) = false := by
      by_contra h
      exact hkids (hshaped.2.2.1 (by simpa using h))
    refine ⟨?_, fun tag => ?_⟩
    · simp only [isListName, isVoidTag, List.any_cons, List.any_nil, Bool.or_eq_false_iff] at hlist hvoid
      simp only [List.forall_mem_cons, eqNoCase_comm _ (c :: t)]
      exact ⟨hvoid.1, hlist.1, hlist.2.1, hlist.2.2.1, by simp⟩
    · by_contra h
      have hslash := (eqNoCase_cons_iff.mp (by simpa using h)).1
      have : c = 47 := eq_of_toLower_eq (hslash.symm.trans (by decide)) (by decide)
      rw [this] at hc
      revert hc
      decide
  -- nor is a closing tag one that opens
  have hopen : ∀ name : Bytes, ∀ tag ∈ [lit "br", lit "ul", lit "ol", lit "li"],
      eqNoCase tag (47 :: name) = false := by
    have hletter : ∀ tag ∈ [lit "br", lit "ul", lit "ol", lit "li"],
        ∃ c t, tag = c :: t ∧ toLower c ≠ toLower 47 := by
      simp only [List.forall_mem_cons]
      exact ⟨⟨_, _, rfl, by decide⟩, ⟨_, _, rfl, by decide⟩, ⟨_, _, rfl, by decide⟩,
        ⟨_, _, rfl, by decide⟩, by simp⟩
    intro name tag htag
    obtain ⟨c, t, rfl, hne⟩ := hletter tag htag
    by_contra h
    exact hne (eqNoCase_cons_iff.mp (by simpa using h)).1
  have hclosing : ∀ tag name : Bytes, eqNoCase tag name = false →
      eqNoCase (47 :: tag) (47 :: name) = false := by
    intro tag name hne
    by_contra h
    have := (eqNoCase_cons_iff.mp (by simpa using h)).2
    rw [hne] at this
    cases this
  have hbreaks : ∀ r ∈ breakTable, tagBody r.1 = lit "br" := by decide
  have hlists : ∀ r ∈ listTable, ∃ tag ∈ [lit "br", lit "ul", lit "ol", lit "li"],
      tagBody r.1 = tag ∨ tagBody r.1 = 47 :: tag := by decide
  refine ⟨kept_of_untabled (fun a b h => ?_) (by decide) hshaped ?_,
    kept_of_untabled (fun _ _ h => h) (by decide) hshaped ?_⟩
  · rw [eq_of_beq h]
    exact eqNoCase_refl b
  · intro name attrs kids hn hkids r hr
    rw [hbreaks r hr]
    exact ⟨(hname name attrs kids hn hkids).1 _ (by simp), hopen name _ (by simp)⟩
  · intro name attrs kids hn hkids r hr
    obtain ⟨htags, hslash⟩ := hname name attrs kids hn hkids
    obtain ⟨tag, htag, hbody | hbody⟩ := hlists r hr <;> rw [hbody]
    · exact ⟨htags tag htag, hopen name tag htag⟩
    · exact ⟨hslash tag, hclosing tag name (htags tag htag)⟩

end BoatRudder.Utils
