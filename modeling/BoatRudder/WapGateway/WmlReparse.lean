import BoatRudder.WapGateway.WmlShape

/-! # A parsed deck, written and parsed again

`parse_wml` reads what `ser_node` writes of its own tree. Two texts with a comment or a stray tag
between them are written next to each other and read back as one, in which the blanks at the seam
collapse like any others; a blank that was kept between two siblings is dropped when it has become
the last thing before a close tag. Elements, attributes and the depth to which the reader nests them
come back as they were. -/

namespace BoatRudder.Wml

open Wbxml

/-! ## Texts joined -/

mutual

/-- A tree in which the texts next to each other are joined: `inner` makes the siblings of a joined
text before an element, `last` those at the end of the children. -/
def joinWith (inner last : Bytes → List Node) : Node → Node
  | .text t => .text t
  | .elem name attrs kids => .elem name attrs (joinKids inner last kids [])
termination_by structural n => n

/-- The children of an element with their texts joined, behind the text `u`. -/
def joinKids (inner last : Bytes → List Node) : List Node → Bytes → List Node
  | [], u => last u
  | k :: ks, u =>
    match k with
    | .text t => joinKids inner last ks (u ++ t)
    | .elem _ _ _ => inner u ++ joinWith inner last k :: joinKids inner last ks []
termination_by structural ks => ks

end

/-- A text as it is, unless it is empty. -/
def plainText (u : Bytes) : List Node := if u = [] then [] else [.text u]

/-- A text before an element as it is read: with its blanks collapsed. -/
def innerText (u : Bytes) : List Node :=
  if u = [] then [] else if u.all isBlank then [.text (lit " ")]
  else [.text (collapseBlanks false false u)]

/-- A text before a close tag as it is read: nothing of a blank. -/
def lastText (u : Bytes) : List Node :=
  if u.all isBlank then [] else [.text (collapseBlanks false false u)]

/-- The tree with the texts next to each other joined into one. -/
def joinTexts (n : Node) : Node := joinWith plainText plainText n

/-- The tree with such texts joined, their blanks collapsed, and without blanks before close tags. -/
def rejoin (n : Node) : Node := joinWith innerText lastText n

/-! ## A text read -/

/-- The text that is read where `u` was written. -/
theorem makeText_serEscape (u : Bytes) : makeText (serEscape false u) =
    if u.all isBlank then none else some (collapseBlanks false false u) := by
  rw [makeText, decodeEntities_serEscape]

/-- A written text is read in one turn. -/
theorem parseLoop_serEscape {u s : Bytes} (hne : u ≠ []) (hs : AtTag s) (st : Stack) :
    parseLoop (serEscape false u ++ s) st = parseLoop s
      (if u.all isBlank = true then
        if s ≠ [] ∧ (s.drop 1).head? ≠ some 47 ∧ inlineGap st.top then st.add (.text (lit " ")) else st
      else st.add (.text (collapseBlanks false false u))) := by
  have hno : 60 ∉ serEscape false u := fun h => (ne_of_mem_serEscape h).1 rfl
  rw [parseLoop_run (serEscape_ne_nil hne) hno hs, readText, (takeWhile_text hno hs).1,
    (takeWhile_text hno hs).2, makeText_serEscape]
  by_cases hblank : u.all isBlank = true
  · simp only [if_pos hblank]
  · simp only [if_neg hblank]

variable {name : Bytes} {attrs : List (Bytes × Bytes)} {below : List Frame}

/-- A text before an open tag; one that is a blank is in a gap. -/
theorem parseLoop_innerText {u s : Bytes} {c : UInt8} (hc : c ≠ 47) {done : List Node}
    (hgap : u ≠ [] → u.all isBlank = true → inlineGap ⟨name, [], done⟩ = true) :
    parseLoop (serEscape false u ++ 60 :: c :: s) ⟨⟨name, attrs, done⟩, below⟩ =
      parseLoop (60 :: c :: s) ⟨⟨name, attrs, done ++ innerText u⟩, below⟩ := by
  by_cases hne : u = []
  · subst hne
    simp [serEscape, innerText]
  · rw [parseLoop_serEscape hne (by simp [AtTag]), innerText, if_neg hne]
    by_cases hblank : u.all isBlank = true
    · have hkept : (60 :: c :: s : Bytes) ≠ [] ∧ ((60 :: c :: s).drop 1).head? ≠ some 47 ∧
          inlineGap ⟨name, attrs, done⟩ = true := ⟨by simp, by simpa using hc, hgap hne hblank⟩
      rw [if_pos hblank, if_pos hblank, if_pos hkept]
      rfl
    · rw [if_neg hblank, if_neg hblank]
      rfl

/-- A text before a close tag, or at the end of the source. -/
theorem parseLoop_lastText {u s : Bytes} (hs : s = [] ∨ ∃ t, s = 60 :: 47 :: t) {done : List Node} :
    parseLoop (serEscape false u ++ s) ⟨⟨name, attrs, done⟩, below⟩ =
      parseLoop s ⟨⟨name, attrs, done ++ lastText u⟩, below⟩ := by
  have htag : AtTag s := by
    rcases hs with rfl | ⟨t, rfl⟩ <;> simp [AtTag]
  have hend : ¬ (s ≠ [] ∧ (s.drop 1).head? ≠ some 47 ∧ inlineGap ⟨name, attrs, done⟩ = true) := by
    rcases hs with rfl | ⟨t, rfl⟩ <;> simp
  by_cases hne : u = []
  · subst hne
    simp [serEscape, lastText]
  · rw [parseLoop_serEscape hne htag, lastText]
    by_cases hblank : u.all isBlank = true
    · rw [if_pos hblank, if_pos hblank, if_neg hend, List.append_nil]
    · rw [if_neg hblank, if_neg hblank]
      rfl

/-! ## The children of an element -/

/-- Where the second reading of an element's children stands: behind the children `pre` of the tree,
with the text `u` still to be read and the children `done` made. -/
structure Rereading (name : Bytes) (pre : List Node) (u : Bytes) (done : List Node) : Prop where
  /-- Behind an element there is a gap, if there was one. -/
  gap : u = [] → inlineGap ⟨name, [], pre⟩ = true → inlineGap ⟨name, [], done⟩ = true
  /-- Behind a text there was none. -/
  text : u ≠ [] → inlineGap ⟨name, [], pre⟩ = false
  /-- A text that is a blank is in a gap. -/
  blank : u ≠ [] → u.all isBlank = true → inlineGap ⟨name, [], done⟩ = true

theorem inlineGap_text (pre : List Node) (t : Bytes) :
    inlineGap ⟨name, [], pre ++ [.text t]⟩ = false := by
  simp [inlineGap]

/-- The gap behind an element depends on its name only. -/
theorem inlineGap_elem (pre done : List Node) (kname : Bytes) (kattrs kattrs' : List (Bytes × Bytes))
    (kids kids' : List Node) : inlineGap ⟨name, [], pre ++ [.elem kname kattrs kids]⟩ =
      inlineGap ⟨name, [], done ++ [.elem kname kattrs' kids']⟩ := by
  simp [inlineGap]

theorem rereading_nil (name : Bytes) : Rereading name [] [] [] :=
  ⟨fun _ h => h, fun h => absurd rfl h, fun h => absurd rfl h⟩

namespace Rereading

variable {pre done : List Node} {u : Bytes}

/-- One more text. -/
theorem snoc_text (h : Rereading name pre u done) {t : Bytes}
    (ht : Collapsed t ∨ (t = lit " " ∧ inlineGap ⟨name, [], pre⟩ = true)) :
    Rereading name (pre ++ [.text t]) (u ++ t) done := by
  have hne : t ≠ [] := by
    rcases ht with ht | ⟨rfl, -⟩
    · exact ht.ne_nil
    · decide
  refine ⟨fun hnil => absurd (List.append_eq_nil_iff.mp hnil).2 hne, fun _ => inlineGap_text pre t, ?_⟩
  intro _ hblank
  rw [List.all_append, Bool.and_eq_true] at hblank
  rcases ht with ht | ⟨-, hgap⟩
  · rw [ht.1] at hblank
    exact absurd hblank.2 (by decide)
  · -- the blank is the first text behind an element
    by_cases hu : u = []
    · exact h.gap hu hgap
    · rw [h.text hu] at hgap
      cases hgap

end Rereading

/-- Behind an element nothing is pending. -/
theorem rereading_elem (name : Bytes) (pre done : List Node) (kname : Bytes)
    (kattrs : List (Bytes × Bytes)) (kids kids' : List Node) :
    Rereading name (pre ++ [.elem kname kattrs kids]) [] (done ++ [.elem kname kattrs kids']) :=
  ⟨fun _ hgap => (inlineGap_elem pre done kname kattrs kattrs kids kids').symm.trans hgap,
    fun hne => absurd rfl hne, fun hne => absurd rfl hne⟩

/-- The children of an element read back joined, when each of them does. The induction is on the
children still to be read, with the text pending before them. -/
theorem parseLoop_joinKids {s : Bytes} (hs : s = [] ∨ ∃ t, s = 60 :: 47 :: t) {ks : List Node}
    (hread : ∀ k ∈ ks, k.isElem = true → ∀ done t,
      parseLoop (serNode k ++ t) ⟨⟨name, attrs, done⟩, below⟩ =
        parseLoop t ⟨⟨name, attrs, done ++ [rejoin k]⟩, below⟩)
    (hnames : ∀ k ∈ ks, k.Every Shaped) {pre done : List Node} {u : Bytes}
    (hshaped : ShapedKids name (pre ++ ks)) (hat : Rereading name pre u done) :
    parseLoop (serEscape false u ++ (serNodes ks ++ s)) ⟨⟨name, attrs, done⟩, below⟩ =
      parseLoop s ⟨⟨name, attrs, done ++ joinKids innerText lastText ks u⟩, below⟩ := by
  induction ks generalizing pre done u with
  | nil =>
    rw [serNodes, List.nil_append, joinKids]
    exact parseLoop_lastText hs
  | cons k ks ih =>
    have ih' := fun pre' done' u' => @ih (fun l hl => hread l (List.mem_cons_of_mem k hl))
      (fun l hl => hnames l (List.mem_cons_of_mem k hl)) pre' done' u'
    have hrest : ShapedKids name (pre ++ [k] ++ ks) := by simpa using hshaped
    cases k with
    | text t =>
      have hwritten : serEscape false u ++ (serNodes (.text t :: ks) ++ s) =
          serEscape false (u ++ t) ++ (serNodes ks ++ s) := by
        simp [serNodes, serNode, serEscape_append]
      rw [hwritten, joinKids]
      exact ih' _ _ _ hrest (hat.snoc_text (hshaped pre t ks rfl))
    | elem kname kattrs kids =>
      have hlt : lit "<" = [60] := by decide
      obtain ⟨c, v, rfl, hc⟩ := exists_cons_of_isWmlName (hnames _ (List.mem_cons_self ..)).root.1
      have hne : c ≠ 47 := by
        rintro rfl
        exact absurd hc (by decide)
      obtain ⟨w, hw⟩ : ∃ w, serNodes (.elem (c :: v) kattrs kids :: ks) ++ s = 60 :: c :: w := by
        simp [serNodes, serNode, hlt]
      rw [hw, parseLoop_innerText hne hat.blank, ← hw, serNodes, List.append_assoc,
        hread _ (List.mem_cons_self ..) rfl]
      have hnext := ih' _ (done ++ innerText u ++ [rejoin (.elem (c :: v) kattrs kids)]) [] hrest
        (rereading_elem name pre _ _ _ _ _)
      rw [show serEscape false [] = [] from rfl, List.nil_append] at hnext
      rw [hnext, joinKids]
      simp [rejoin]

/-- **A shaped element that is written reads back joined.** The induction is on the node, over every
stack that leaves room for the elements in it that have children. -/
theorem parseLoop_rejoin {n : Node} (hshaped : n.Every Shaped) (helem : n.isElem = true) {st : Stack}
    (hroom : st.below.length + n.nest ≤ 63) (s : Bytes) :
    parseLoop (serNode n ++ s) st = parseLoop s (st.add (rejoin n)) := by
  induction n using Tree.induction generalizing st s with
  | text t => cases helem
  | elem name attrs kids ih =>
    obtain ⟨⟨hname, hattrs, hvoid, htexts⟩, hkids⟩ := Tree.every_elem.mp hshaped
    by_cases hnil : kids = []
    · subst hnil
      rw [serNode_empty, parseLoop_selfClose hname hattrs]
      rfl
    · have hvoid' : isVoidTag name = false := by
        by_contra h
        exact hnil (hvoid (by simpa using h))
      obtain ⟨k, ks, rfl⟩ := List.exists_cons_of_ne_nil hnil
      rw [Tree.nest] at hroom
      have hfirst : k.nest < Tree.nestIn (k :: ks) := Tree.nestIn_le_iff.mp le_rfl k (by simp)
      have hopen : st.below.length < 63 := by omega
      rw [serNode_elem hnil, parseLoop_open hname hattrs hvoid' hopen]
      have hinner := @parseLoop_joinKids name attrs (st.top :: st.below)
        (60 :: 47 :: (name ++ 62 :: s)) (Or.inr ⟨_, rfl⟩) (k :: ks)
        (fun l hl hlelem done t => ih l hl (hkids l hl) hlelem (by
          have := Tree.nestIn_le_iff.mp le_rfl l hl
          simp only [List.length_cons]
          omega) t)
        hkids [] [] [] htexts (rereading_nil name)
      rw [show serEscape false [] = [] from rfl, List.nil_append, List.nil_append] at hinner
      rw [hinner]
      exact parseLoop_close hname s

/-! ## The depth of a parsed tree -/

/-- A stack with room in it for every element with children. -/
def DeepStack : Frame → List Frame → Prop
  | top, [] => ∀ k ∈ top.kids, k.nest ≤ 63
  | top, parent :: below =>
    below.length < 63 ∧ (∀ k ∈ top.kids, below.length + 1 + k.nest ≤ 63) ∧ DeepStack parent below

/-- One more child, of an element that has room for it. -/
theorem DeepStack.add {top : Frame} {below : List Frame} (h : DeepStack top below) {n : Node}
    (hn : below.length + n.nest ≤ 63) : DeepStack (top.add n) below := by
  cases below with
  | nil =>
    intro k hk
    rcases List.mem_append.mp hk with hk | hk
    · exact h k hk
    · obtain rfl := List.mem_singleton.mp hk
      simpa using hn
  | cons parent below =>
    refine ⟨h.1, fun k hk => ?_, h.2.2⟩
    rcases List.mem_append.mp hk with hk | hk
    · exact h.2.1 k hk
    · obtain rfl := List.mem_singleton.mp hk
      exact hn

theorem DeepStack.length_le {top : Frame} {below : List Frame} (h : DeepStack top below) :
    below.length ≤ 63 := by
  cases below with
  | nil => exact Nat.zero_le _
  | cons parent below => exact h.1

theorem stackInvariant_deep : StackInvariant DeepStack where
  text := by
    intro top below t h _
    exact h.add (by simpa [Tree.nest] using h.length_le)
  leaf := by
    intro top below name attrs h _ _
    exact h.add (by simpa [Tree.nest, Tree.nestIn] using h.length_le)
  opened := by
    intro top below name attrs h _ _ _ hroom
    exact ⟨hroom, by simp, h⟩
  closed := by
    intro top parent below h
    refine h.2.2.add ?_
    have hkids : Tree.nestIn top.kids ≤ 63 - below.length :=
      Tree.nestIn_le_iff.mpr fun k hk => by
        have := h.2.1 k hk
        omega
    have := h.1
    simp only [Frame.close, Tree.nest]
    omega

/-- No more elements with children are nested in a child of the root than the reader has room for. -/
theorem parseWml_nest (s : Bytes) : ∀ k ∈ (parseWml s).kids, k.nest ≤ 63 := by
  have hstart : DeepStack Stack.start.top [] := by simp [DeepStack, Stack.start]
  obtain ⟨root, hroot, heq⟩ := stackInvariant_deep.parseWml hstart s
  rw [heq]
  exact hroot

/-! ## The deck -/

/-- **A parsed deck that is written and parsed again is the same deck**: the same elements, attributes
and order, and the same texts once those next to each other are joined. -/
theorem parseWml_serNodes (d : Bytes) :
    parseWml (serNodes (parseWml d).kids) = rejoin (parseWml d) := by
  have hroot := parseWml_root_shaped d
  have hloop := @parseLoop_joinKids (lit "#root") [] [] [] (Or.inl rfl) (parseWml d).kids
    (fun k hk hkelem done t => parseLoop_rejoin (hroot.kids k hk) hkelem (by
      have := parseWml_nest d k hk
      simpa using this) t)
    hroot.kids [] [] [] hroot.texts (rereading_nil _)
  rw [show serEscape false [] = [] from rfl, List.nil_append, List.nil_append, List.append_nil,
    parseLoop_nil] at hloop
  rw [parseWml, Stack.start, hloop, parseWml_eq d]
  rfl

/-- A blank before a comment that ends a paragraph does not come back. -/
theorem gapDeck_not_joinTexts :
    let deck := parseWml (lit "<p><b>x</b> <!-- y --></p>")
    joinTexts (parseWml (serNodes deck.kids)) ≠ joinTexts deck := by
  decide +kernel

end BoatRudder.Wml
