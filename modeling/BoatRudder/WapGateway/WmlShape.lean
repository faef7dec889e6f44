import BoatRudder.WapGateway.WmlReadBack

/-! # The shape of a parsed tree

The elements `parse_wml` puts into the tree have names, and texts with their blanks collapsed; an
element that is empty by its name has no children. -/

namespace BoatRudder.Wml

open Wbxml

/-! ## Texts -/

/-- Collapsing the blanks of a text leaves none to collapse. -/
theorem collapseBlanks_collapseBlanks (s : Bytes) :
    collapseBlanks false true (collapseBlanks false true s) = collapseBlanks false true s ∧
      collapseBlanks false true (collapseBlanks true true s) = collapseBlanks true true s ∧
      ∀ space, collapseBlanks false false (collapseBlanks space false s) =
        collapseBlanks space false s := by
  have h32 : isBlank 32 = true := by decide
  induction s with
  | nil => simp [collapseBlanks, h32]
  | cons c s ih =>
    obtain ⟨ihafter, ihspace, ihstart⟩ := ih
    by_cases hc : isBlank c = true
    · simp [collapseBlanks, hc, ihspace, ihstart]
    · have hc : isBlank c = false := by simpa using hc
      refine ⟨by simp [collapseBlanks, hc, ihafter], by simp [collapseBlanks, hc, h32, ihafter], ?_⟩
      intro space
      cases space <;> simp [collapseBlanks, hc, h32, ihafter]

/-- A text with more than blanks in it keeps that. -/
theorem all_isBlank_collapseBlanks {s : Bytes} (h : s.all isBlank = false) (space any : Bool) :
    (collapseBlanks space any s).all isBlank = false := by
  induction s generalizing space any with
  | nil => cases h
  | cons c s ih =>
    by_cases hc : isBlank c = true
    · rw [collapseBlanks, if_pos hc]
      exact ih (by simpa [hc] using h) true any
    · rw [collapseBlanks, if_neg hc]
      simp [hc]

/-- A text of the tree has its blanks collapsed. -/
theorem collapsed_of_makeText {s t : Bytes} (h : makeText s = some t) : Collapsed t := by
  simp only [makeText] at h
  split_ifs at h with hblank
  obtain rfl := Option.some.inj h
  exact ⟨all_isBlank_collapseBlanks (by simpa using hblank) false false,
    (collapseBlanks_collapseBlanks _).2.2 false⟩

/-! ## Names -/

/-- A run of name bytes, cut to its buffer, is a name. -/
theorem isWmlName_take {s : Bytes} (h : s.takeWhile isNameChar ≠ []) :
    isWmlName ((s.takeWhile isNameChar).take 31) = true := by
  simp only [isWmlName, Bool.and_eq_true, decide_eq_true_eq, List.all_eq_true]
  refine ⟨⟨?_, by rw [List.length_take]; exact min_le_left _ _⟩, ?_⟩
  · simpa using h
  · exact fun c hc => List.mem_takeWhile_imp (List.mem_of_mem_take hc)

/-- The attributes of an open tag have names. -/
theorem parseAttrs_names {attrs : List (Bytes × Bytes)} {selfClose : Bool} {s : Bytes}
    (hattrs : ∀ a ∈ attrs, isWmlName a.1 = true) :
    ∀ a ∈ (parseAttrs attrs selfClose s).1, isWmlName a.1 = true := by
  have hsnoc : ∀ {attrs : List (Bytes × Bytes)} {c : UInt8} {t value : Bytes},
      (∀ a ∈ attrs, isWmlName a.1 = true) → ¬ (!isNameChar c) = true →
        ∀ a ∈ attrs ++ [(((c :: t).takeWhile isNameChar).take 31, value)],
          isWmlName a.1 = true := by
    intro attrs c t value hattrs hc a ha
    rcases List.mem_append.mp ha with ha | ha
    · exact hattrs a ha
    · rw [List.mem_singleton.mp ha]
      exact isWmlName_take (by simpa using hc)
  fun_induction parseAttrs attrs selfClose s with
  | case1 attrs selfClose s hs => exact hattrs
  | case2 attrs selfClose s c t hs hc => exact hattrs
  | case3 attrs selfClose s c t hs hc hc' ih => exact ih hattrs
  | case4 attrs selfClose s c t hs hc hc' hn ih => exact ih hattrs
  | case5 attrs selfClose s c t hs hc hc' hn name hr => exact hsnoc hattrs hn
  | case6 attrs selfClose s c t hs hc hc' hn name e r hr he ih => exact ih (hsnoc hattrs hn)
  | case7 attrs selfClose s c t hs hc hc' hn name e r hr he ih => exact ih (hsnoc hattrs hn)

/-! ## Invariants of the stack -/

/-- What every turn of the loop keeps of the stack: it reads a text, an element without children, the
open tag of one, or closes the innermost. -/
structure StackInvariant (I : Frame → List Frame → Prop) : Prop where
  /-- A text, or a blank behind an inline element. -/
  text : ∀ {top below t}, I top below → Collapsed t ∨ (t = lit " " ∧ inlineGap top = true) →
    I (top.add (.text t)) below
  /-- An element that stays without children. -/
  leaf : ∀ {top below name attrs}, I top below → isWmlName name = true →
    (∀ a ∈ attrs, isWmlName a.1 = true) → I (top.add (.elem name attrs [])) below
  /-- The open tag of an element. -/
  opened : ∀ {top below name attrs}, I top below → isWmlName name = true →
    (∀ a ∈ attrs, isWmlName a.1 = true) → isVoidTag name = false → below.length < 63 →
    I ⟨name, attrs, []⟩ (top :: below)
  /-- The end of the innermost element. -/
  closed : ∀ {top parent below}, I top (parent :: below) → I (parent.add top.close) below

namespace StackInvariant

variable {I : Frame → List Frame → Prop} (h : StackInvariant I)

include h

theorem popTo {name : Bytes} {top : Frame} {below : List Frame} {st : Stack}
    (hI : I top below) (hpop : Wml.popTo name top below = some st) : I st.top st.below := by
  induction below generalizing top with
  | nil => cases hpop
  | cons parent below ih =>
    simp only [Wml.popTo] at hpop
    split_ifs at hpop
    · obtain rfl := Option.some.inj hpop
      exact h.closed hI
    · exact ih (h.closed hI) hpop

theorem closeAll {top : Frame} {below : List Frame} (hI : I top below) :
    ∃ root, I root [] ∧ Wml.closeAll top below = root.close := by
  induction below generalizing top with
  | nil => exact ⟨top, hI, rfl⟩
  | cons parent below ih => exact ih (h.closed hI)

theorem readText {s : Bytes} {st : Stack} (hI : I st.top st.below) :
    I (Wml.readText s st).top (Wml.readText s st).below := by
  unfold Wml.readText
  split
  · next t ht => exact h.text hI (Or.inl (collapsed_of_makeText ht))
  · split_ifs with hgap
    · exact h.text hI (Or.inr ⟨rfl, hgap.2.2⟩)
    · exact hI

/-- One turn of the loop. -/
theorem parseStep {s : Bytes} {st : Stack} (hI : I st.top st.below) :
    I (Wml.parseStep s st).2.top (Wml.parseStep s st).2.below := by
  unfold Wml.parseStep
  split_ifs with h1 h2 h3 h4 h5
  · exact h.readText hI
  · exact hI
  · exact hI
  · cases hpop : Wml.popTo (tagName (s.drop 2)) st.top st.below with
    | none => exact hI
    | some st' => exact h.popTo hI hpop
  · exact hI
  · have hname : isWmlName (tagName (s.drop 1)) = true := isWmlName_take h5
    have hattrs := @parseAttrs_names [] false ((s.drop 1).dropWhile isNameChar) (by simp)
    simp only [readOpenTag]
    split_ifs with hopen
    · simp only [Bool.and_eq_true, Bool.not_eq_true', decide_eq_true_eq] at hopen
      exact h.opened hI hname hattrs hopen.1.2 hopen.2
    · exact h.leaf hI hname hattrs

/-- **What every turn of the loop keeps holds of the root of the tree**, if it holds at the start. -/
theorem parseWml (hstart : I Stack.start.top []) (s : Bytes) :
    ∃ root, I root [] ∧ Wml.parseWml s = root.close := by
  have hloop : ∀ st : Stack, I st.top st.below → ∃ root, I root [] ∧ parseLoop s st = root.close := by
    intro st hst
    fun_induction parseLoop s st with
    | case1 st => exact h.closeAll hst
    | case2 s st hs ih => exact ih (h.parseStep hst)
  exact hloop _ hstart

end StackInvariant

/-- The root has the name it starts with, and no attributes. -/
theorem stackInvariant_root :
    StackInvariant fun top below => ∀ f ∈ (top :: below).getLast?, f.name = lit "#root" ∧ f.attrs = [] where
  text := by
    intro top below t hI _
    cases below with
    | nil => simpa [Frame.add] using hI
    | cons parent below => simpa using hI
  leaf := by
    intro top below name attrs hI _ _
    cases below with
    | nil => simpa [Frame.add] using hI
    | cons parent below => simpa using hI
  opened := by
    intro top below name attrs hI _ _ _ _
    simpa using hI
  closed := by
    intro top parent below hI
    cases below with
    | nil => simpa [Frame.add] using hI
    | cons parent' below => simpa using hI

/-- The tree of a source is the root over its children. -/
theorem parseWml_eq (s : Bytes) : parseWml s = .elem (lit "#root") [] (parseWml s).kids := by
  obtain ⟨root, hroot, heq⟩ := stackInvariant_root.parseWml (by simp [Stack.start]) s
  obtain ⟨hname, hattrs⟩ := hroot root rfl
  rw [heq, Frame.close, hname, hattrs]
  rfl

/-! ## Shape -/

/-- An open element the children of which are as they are to be. -/
structure Frame.Shaped (f : Frame) : Prop where
  attrs : ∀ a ∈ f.attrs, isWmlName a.1 = true
  kids : ∀ k ∈ f.kids, k.Every Wml.Shaped
  texts : ShapedKids f.name f.kids

/-- An open element other than the root has a name, and not one that makes it empty. -/
def Frame.Named (f : Frame) : Prop := isWmlName f.name = true ∧ isVoidTag f.name = false

/-- A stack of such elements, the root at its bottom. -/
def ShapedStack : Frame → List Frame → Prop
  | top, [] => top.Shaped
  | top, parent :: below => top.Shaped ∧ top.Named ∧ ShapedStack parent below

/-- One more child that is no text out of place. -/
theorem Frame.Shaped.add {f : Frame} {n : Node} (h : f.Shaped) (hn : n.Every Wml.Shaped)
    (htext : ∀ t, n = .text t → Collapsed t ∨ (t = lit " " ∧ inlineGap f = true)) :
    (f.add n).Shaped where
  attrs := h.attrs
  kids := by
    intro k hk
    rcases List.mem_append.mp hk with hk | hk
    · exact h.kids k hk
    · rwa [List.mem_singleton.mp hk]
  texts := by
    intro pre t post heq
    rcases List.eq_nil_or_concat post with rfl | ⟨post, k, rfl⟩
    · -- the new child
      obtain ⟨rfl, hlast⟩ := List.append_inj' heq rfl
      exact htext t (List.singleton_inj.mp hlast)
    · rw [List.concat_eq_append, ← List.cons_append, ← List.append_assoc] at heq
      exact h.texts pre t post (List.append_inj' heq rfl).1

/-- One more child of the innermost open element. -/
theorem ShapedStack.add {top : Frame} {below : List Frame} {n : Node}
    (h : ShapedStack top below) (hn : n.Every Wml.Shaped)
    (htext : ∀ t, n = .text t → Collapsed t ∨ (t = lit " " ∧ inlineGap top = true)) :
    ShapedStack (top.add n) below := by
  cases below with
  | nil => exact Frame.Shaped.add h hn htext
  | cons parent below => exact ⟨h.1.add hn htext, h.2.1, h.2.2⟩

/-- A finished element other than the root. -/
theorem Frame.Shaped.close {f : Frame} (h : f.Shaped) (hname : f.Named) :
    f.close.Every Wml.Shaped := by
  have hvoid : isVoidTag f.name = true → f.kids = [] := by
    rw [hname.2]
    exact fun h => by cases h
  exact Tree.every_elem.mpr ⟨⟨hname.1, h.attrs, hvoid, h.texts⟩, h.kids⟩

theorem stackInvariant_shaped : StackInvariant ShapedStack where
  text := by
    intro top below t h ht
    exact h.add trivial fun u hu => by
      obtain rfl : t = u := by simpa using hu
      exact ht
  leaf := by
    intro top below name attrs h hname hattrs
    refine h.add (Tree.every_elem.mpr ⟨⟨hname, hattrs, fun _ => rfl, ?_⟩, by simp⟩)
      fun t ht => by cases ht
    exact fun pre t post heq => by simp at heq
  opened := by
    intro top below name attrs h hname hattrs hvoid _
    exact ⟨⟨hattrs, by simp, fun pre t post heq => by simp at heq⟩, ⟨hname, hvoid⟩, h⟩
  closed := by
    intro top parent below h
    exact h.2.2.add (h.1.close h.2.1) fun t ht => by cases ht

/-- The root of a parsed tree is shaped, up to its name. -/
theorem parseWml_root_shaped (s : Bytes) : (⟨lit "#root", [], (parseWml s).kids⟩ : Frame).Shaped := by
  have hstart : ShapedStack Stack.start.top [] :=
    ⟨by simp [Stack.start], by simp [Stack.start], fun pre t post heq => by simp [Stack.start] at heq⟩
  obtain ⟨root, hroot, heq⟩ := stackInvariant_shaped.parseWml hstart s
  have hclose := parseWml_eq s
  rw [heq, Frame.close] at hclose
  obtain ⟨hname, -, -⟩ := Tree.elem.inj hclose
  rw [heq, ← hname]
  exact ⟨by simp, hroot.kids, hroot.texts⟩

/-- **The elements of a parsed tree have names, and texts with their blanks collapsed.** -/
theorem parseWml_shaped (s : Bytes) : ∀ k ∈ (parseWml s).kids, k.Every Shaped :=
  (parseWml_root_shaped s).kids

end BoatRudder.Wml
