import BoatRudder.Text.Bytes

/-! # Replacing in place, one occurrence at a time

A text in which the first occurrence of a needle is replaced, turn after turn, until it holds none.
Every turn searches what the turns before it wrote, so the text it comes to (`Settles`) need not be the
one with each occurrence replaced once (`joined`, with the replacement for the needle), and it need not
come to one at all.

It does come to that text where no needle is met before its turn: neither in the text aimed at, nor in
front of an occurrence, over a seam (`SeamFree`). It comes to it only there (`settles_iff_seamFree`),
unless the replacement is a beginning of the needle and the needle overlaps itself. -/

namespace BoatRudder

variable {α : Type*} {needle repl text text' out before after : List α}

/-! ## The turns -/

/-- The first occurrence of `needle` in `text` stands between `before` and `after`. -/
structure FirstCut (needle text before after : List α) : Prop where
  eq : text = before ++ needle ++ after
  first : ¬ needle <:+: (before ++ needle).dropLast

/-- One turn: the first occurrence is replaced. -/
def ReplaceTurn (needle repl text text' : List α) : Prop :=
  ∃ before after, FirstCut needle text before after ∧ text' = before ++ repl ++ after

/-- Turn after turn, until the needle does not occur. -/
inductive Settles (needle repl : List α) : List α → List α → Prop
  | done {text : List α} (h : ¬ needle <:+: text) : Settles needle repl text text
  | turn {text text' out : List α} (h : ReplaceTurn needle repl text text')
      (hrest : Settles needle repl text' out) : Settles needle repl text out

/-- An occurrence before the end, in other words. -/
theorem infix_dropLast_iff (hne : needle ≠ []) : needle <:+: (before ++ needle).dropLast ↔
    ∃ x y, y ≠ [] ∧ before ++ needle = x ++ needle ++ y := by
  have hend : before ++ needle ≠ [] := by simp [hne]
  constructor
  · rintro ⟨x, y, h⟩
    refine ⟨x, y ++ [(before ++ needle).getLast hend], by simp, ?_⟩
    rw [← List.append_assoc, h, List.dropLast_append_getLast]
  · rintro ⟨x, y, hy, h⟩
    refine ⟨x, y.dropLast, ?_⟩
    rw [h, List.dropLast_append_of_ne_nil hy]

/-- An earlier occurrence begins earlier. -/
theorem length_lt_of_append_eq {x y : List α} (hy : y ≠ [])
    (h : before ++ needle = x ++ needle ++ y) : x.length < before.length := by
  have hlen := congrArg List.length h
  have hpos := List.length_pos_iff.mpr hy
  simp only [List.length_append] at hlen
  omega

/-- Where there is an occurrence there is a first one, not after it. -/
theorem exists_firstCut (hne : needle ≠ []) (h : text = before ++ needle ++ after) :
    ∃ p z, FirstCut needle text p z ∧ p.length ≤ before.length := by
  -- by induction on what stands before the occurrence
  induction hn : before.length using Nat.strong_induction_on generalizing before after with
  | _ n ih =>
    by_cases hfirst : needle <:+: (before ++ needle).dropLast
    · obtain ⟨x, y, hy, heq⟩ := (infix_dropLast_iff hne).mp hfirst
      have hlt := length_lt_of_append_eq hy heq
      obtain ⟨p, z, hcut, hle⟩ := ih x.length (hn ▸ hlt)
        (by rw [h, heq, List.append_assoc _ y after]) rfl
      exact ⟨p, z, hcut, by omega⟩
    · exact ⟨before, after, ⟨h, hfirst⟩, hn.le⟩

/-- The first occurrence is not after any other. -/
theorem FirstCut.length_le (hne : needle ≠ []) (h : FirstCut needle text before after)
    {x y : List α} (hxy : text = x ++ needle ++ y) : before.length ≤ x.length := by
  by_contra hlt
  apply h.first
  -- what stands up to the end of the other one is a beginning of what stands up to the end of this
  have hother : x ++ needle <+: text := ⟨y, hxy.symm⟩
  have hthis : (before ++ needle).dropLast <+: text :=
    (List.dropLast_prefix _).trans ⟨after, h.eq.symm⟩
  have hshort : x ++ needle <+: (before ++ needle).dropLast := by
    refine List.prefix_of_prefix_length_le hother hthis ?_
    have := List.length_pos_iff.mpr hne
    simp only [List.length_append, List.length_dropLast]
    omega
  exact (List.suffix_append x needle).isInfix.trans hshort.isInfix

/-- There is one first occurrence. -/
theorem FirstCut.unique (hne : needle ≠ []) (h : FirstCut needle text before after)
    {p z : List α} (h' : FirstCut needle text p z) : p = before ∧ z = after := by
  have hlen : p.length = before.length :=
    Nat.le_antisymm (h'.length_le hne h.eq) (h.length_le hne h'.eq)
  have heq := h'.eq.symm.trans h.eq
  rw [List.append_assoc, List.append_assoc] at heq
  obtain ⟨hp, hrest⟩ := List.append_inj heq hlen
  exact ⟨hp, List.append_cancel_left hrest⟩

/-- What the turns come to does not hold the needle. -/
theorem Settles.not_infix (h : Settles needle repl text out) : ¬ needle <:+: out := by
  induction h with
  | done h => exact h
  | turn _ _ ih => exact ih

/-- The first turn of a text in which the needle occurs. -/
theorem Settles.of_firstCut (hne : needle ≠ []) (h : Settles needle repl text out)
    (hcut : FirstCut needle text before after) :
    Settles needle repl (before ++ repl ++ after) out := by
  cases h with
  | done h => exact absurd ⟨before, after, hcut.eq.symm⟩ h
  | turn hturn hrest =>
    obtain ⟨p, z, hcut', rfl⟩ := hturn
    obtain ⟨rfl, rfl⟩ := hcut.unique hne hcut'
    exact hrest

/-- **A replacement that holds the needle is replaced for ever.** -/
theorem not_settles_of_infix (hrepl : needle <:+: repl) (htext : needle <:+: text) :
    ¬ Settles needle repl text out := by
  intro h
  induction h with
  | done h => exact h htext
  | turn hturn _ ih =>
    obtain ⟨p, z, -, rfl⟩ := hturn
    exact ih (hrepl.trans ⟨p, z, rfl⟩)

/-! ## Texts that part -/

/-- Lists neither of which begins with the other part somewhere. -/
theorem exists_parting (h : ¬ needle <+: repl) (h' : ¬ repl <+: needle) :
    ∃ c n r, n ≠ r ∧ c ++ [n] <+: needle ∧ c ++ [r] <+: repl := by
  induction needle generalizing repl with
  | nil => exact absurd List.nil_prefix h
  | cons n needle ih =>
    cases repl with
    | nil => exact absurd List.nil_prefix h'
    | cons r repl =>
      by_cases heq : n = r
      · subst heq
        rw [List.prefix_cons_inj] at h h'
        obtain ⟨c, n', r', hne, hn, hr⟩ := ih h h'
        exact ⟨n :: c, n', r', hne, (List.prefix_cons_inj n).mpr hn,
          (List.prefix_cons_inj n).mpr hr⟩
      · exact ⟨[], n, r, heq, ⟨needle, rfl⟩, ⟨repl, rfl⟩⟩

/-- A beginning of what stands in a text. -/
theorem append_prefix_append {a b c : List α} (h : c <+: b) (z : List α) :
    a ++ c <+: a ++ b ++ z := by
  rw [List.append_assoc, List.prefix_append_right_inj]
  exact h.trans (List.prefix_append b z)

/-- A text has a part `c` followed by `r` where another one has it followed by `n`. -/
def Parted (c : List α) (n r : α) (text out : List α) : Prop :=
  ∃ x, x ++ c ++ [r] <+: text ∧ x ++ c ++ [n] <+: out

variable {c : List α} {n r : α}

theorem Parted.ne (hne : n ≠ r) (h : Parted c n r text out) : text ≠ out := by
  rintro rfl
  obtain ⟨x, hr, hn⟩ := h
  have heq := List.IsPrefix.eq_of_length_le
    (List.prefix_of_prefix_length_le hr hn (by simp)) (by simp)
  have hlast := List.append_cancel_left heq
  exact hne (List.cons.inj hlast).1.symm

/-- A turn in front of what two texts have in common parts them there, if the needle parts from the
replacement so. -/
theorem parted_of_lt {x p z : List α} (hn : c ++ [n] <+: needle) (hr : c ++ [r] <+: repl)
    (htext : x ++ c <+: p ++ needle ++ z) (hout : x ++ c <+: out) (hlt : p.length < x.length) :
    Parted c n r (p ++ repl ++ z) out := by
  refine ⟨p, ?_, ?_⟩
  · rw [List.append_assoc p c]
    exact append_prefix_append hr z
  · refine List.IsPrefix.trans ?_ hout
    have hocc : p ++ c ++ [n] <+: p ++ needle ++ z := by
      rw [List.append_assoc p c]
      exact append_prefix_append hn z
    exact List.prefix_of_prefix_length_le hocc htext
      (by simp only [List.length_append, List.length_singleton]; omega)

/-- **Texts that have parted stay parted**, whichever turn is taken. -/
theorem Parted.turn (hne : n ≠ r) (hn : c ++ [n] <+: needle) (hr : c ++ [r] <+: repl)
    (h : Parted c n r text out) (hturn : ReplaceTurn needle repl text text') :
    Parted c n r text' out := by
  obtain ⟨x, htext, hout⟩ := h
  obtain ⟨p, z, hcut, rfl⟩ := hturn
  rw [hcut.eq] at htext
  rcases Nat.lt_trichotomy p.length x.length with hlt | heq | hgt
  · exact parted_of_lt hn hr ((List.prefix_append _ [r]).trans htext)
      ((List.prefix_append _ [n]).trans hout) hlt
  · -- the needle does not stand where the text has parted from it
    have hocc : p ++ c ++ [n] <+: p ++ needle ++ z := by
      rw [List.append_assoc p c]
      exact append_prefix_append hn z
    have hsame := List.IsPrefix.eq_of_length_le
      (List.prefix_of_prefix_length_le hocc htext (by simp [heq])) (by simp [heq])
    rw [List.append_assoc, List.append_assoc] at hsame
    have hlast := List.append_cancel_left (List.append_inj hsame heq).2
    exact absurd (List.cons.inj hlast).1 hne
  · refine ⟨x, ?_, hout⟩
    -- what has parted ends in the part the needle and the replacement have in common, or before it
    have hkept : x ++ c ++ [r] <+: p ++ c := by
      refine List.prefix_of_prefix_length_le htext
        (append_prefix_append ((List.prefix_append c [n]).trans hn) z) ?_
      simp only [List.length_append, List.length_singleton]
      omega
    exact hkept.trans (append_prefix_append ((List.prefix_append c [r]).trans hr) z)

/-- They never become one text. -/
theorem Parted.not_settles (hne : n ≠ r) (hn : c ++ [n] <+: needle) (hr : c ++ [r] <+: repl)
    (h : Parted c n r text out) : ¬ Settles needle repl text out := by
  intro hsettles
  induction hsettles with
  | done _ => exact h.ne hne rfl
  | turn hturn _ ih => exact ih (h.turn hne hn hr hturn)

/-! ## Each occurrence once -/

/-- Parts of a text, each of them but the last followed by `sep`. -/
def joined (sep : List α) (parts : List (List α)) (last : List α) : List α :=
  parts.flatMap (· ++ sep) ++ last

@[simp] theorem joined_nil (sep last : List α) : joined sep [] last = last := rfl

@[simp] theorem joined_cons (sep part : List α) (parts : List (List α)) (last : List α) :
    joined sep (part :: parts) last = part ++ sep ++ joined sep parts last := by
  simp [joined]

/-- The needle stands neither in the text aimed at, nor, over a seam, in front of the place where an
occurrence is replaced. What has been written before all of it is `done`. -/
structure SeamFree (needle repl done : List α) (parts : List (List α)) (last : List α) : Prop where
  aim : ¬ needle <:+: done ++ joined repl parts last
  seam : ∀ front part rest, parts = front ++ part :: rest →
    ¬ needle <:+: (done ++ joined repl front part ++ needle).dropLast

variable {done part last : List α} {parts : List (List α)}

/-- One part after the other. -/
theorem seamFree_cons : SeamFree needle repl done (part :: parts) last ↔
    ¬ needle <:+: (done ++ part ++ needle).dropLast ∧
      SeamFree needle repl (done ++ part ++ repl) parts last := by
  constructor
  · rintro ⟨haim, hseam⟩
    refine ⟨hseam [] part parts rfl, ⟨by simpa using haim, ?_⟩⟩
    rintro front p rest rfl
    simpa using hseam (part :: front) p rest rfl
  · rintro ⟨hfirst, haim, hseam⟩
    refine ⟨by simpa using haim, ?_⟩
    intro front p rest heq
    cases front with
    | nil =>
      obtain ⟨rfl, -⟩ := List.cons.inj heq
      exact hfirst
    | cons q front =>
      obtain ⟨rfl, rfl⟩ := List.cons.inj heq
      simpa using hseam front p rest rfl

/-- **Without a seam each occurrence is replaced once**, and that is the end. -/
theorem SeamFree.settles (h : SeamFree needle repl done parts last) :
    Settles needle repl (done ++ joined needle parts last) (done ++ joined repl parts last) := by
  induction parts generalizing done with
  | nil => exact .done h.aim
  | cons part parts ih =>
    obtain ⟨hfirst, hrest⟩ := seamFree_cons.mp h
    have hcut : FirstCut needle (done ++ joined needle (part :: parts) last) (done ++ part)
        (joined needle parts last) := ⟨by simp, hfirst⟩
    refine .turn ⟨_, _, hcut, rfl⟩ ?_
    have := ih hrest
    simpa using this

/-- Only without one, where the replacement parts from the needle. -/
theorem Settles.seamFree (hne : needle ≠ []) (hpre : ¬ repl <+: needle)
    (h : Settles needle repl (done ++ joined needle parts last) (done ++ joined repl parts last)) :
    SeamFree needle repl done parts last := by
  induction parts generalizing done with
  | nil => exact ⟨h.not_infix, by simp⟩
  | cons part parts ih =>
    have hrepl : repl <:+: done ++ joined repl (part :: parts) last :=
      ⟨done ++ part, joined repl parts last, by simp⟩
    -- the text aimed at holds the replacement, so that does not hold the needle
    have hneedle : ¬ needle <+: repl := fun hp => h.not_infix (hp.isInfix.trans hrepl)
    obtain ⟨c, n, r, hnr, hn, hr⟩ := exists_parting hneedle hpre
    have htext : done ++ joined needle (part :: parts) last =
        (done ++ part) ++ needle ++ joined needle parts last := by simp
    obtain ⟨p, z, hcut, hle⟩ := exists_firstCut hne htext
    rcases hle.lt_or_eq with hlt | heq
    · -- the first occurrence is one over a seam: the texts part
      refine absurd (h.of_firstCut hne hcut) (Parted.not_settles hnr hn hr ?_)
      refine parted_of_lt hn hr ?_ ?_ hlt
      · rw [← hcut.eq, htext]
        exact append_prefix_append ((List.prefix_append c [n]).trans hn) _
      · rw [joined_cons, List.append_assoc part, ← List.append_assoc done, ← List.append_assoc]
        exact append_prefix_append ((List.prefix_append c [r]).trans hr) _
    · have hsame := hcut.eq.symm.trans htext
      rw [List.append_assoc, List.append_assoc] at hsame
      obtain ⟨rfl, hrest⟩ := List.append_inj hsame heq
      obtain rfl := List.append_cancel_left hrest
      refine seamFree_cons.mpr ⟨hcut.first, ih ?_⟩
      have := h.of_firstCut hne hcut
      simpa using this

/-! ## Needles that do not overlap themselves -/

/-- No beginning of the needle is an end of it, but the empty one and all of it. -/
def Unbordered (needle : List α) : Prop :=
  ∀ b, b <+: needle → b <:+ needle → b = [] ∨ b = needle

instance [DecidableEq α] : DecidablePred (@Unbordered α) := fun needle =>
  decidable_of_iff (∀ b ∈ needle.inits, b <:+ needle → b = [] ∨ b = needle)
    (forall_congr' fun _ => by rw [List.mem_inits])

/-- A needle that stands over the front of another one stands in what is before that, or it overlaps
itself. -/
theorem Unbordered.not_infix_dropLast (hun : Unbordered needle) (hne : needle ≠ [])
    (hbefore : ¬ needle <:+: before) : ¬ needle <:+: (before ++ needle).dropLast := by
  rw [infix_dropLast_iff hne]
  rintro ⟨x, y, hy, h⟩
  have hlt := length_lt_of_append_eq hy h
  rw [List.append_assoc] at h
  rcases List.append_eq_append_iff.mp h with ⟨w, rfl, -⟩ | ⟨w, rfl, hw⟩
  · rw [List.length_append] at hlt
    omega
  · -- `w` is what is between the beginnings
    rcases List.append_eq_append_iff.mp hw with ⟨v, hwv, -⟩ | ⟨v, hnv, hvy⟩
    · exact hbefore ⟨x, v, by rw [hwv, List.append_assoc]⟩
    · rcases hun v ⟨y, hvy.symm⟩ ⟨w, hnv.symm⟩ with rfl | rfl
      · exact hbefore ⟨x, [], by simp [hnv]⟩
      · exact hy (List.append_right_eq_self.mp hvy.symm)

/-- **A needle that does not overlap itself** is met over a seam only where it stands in the text
aimed at. -/
theorem Unbordered.seamFree_iff (hun : Unbordered needle) (hne : needle ≠ []) :
    SeamFree needle repl done parts last ↔ ¬ needle <:+: done ++ joined repl parts last := by
  refine ⟨fun h => h.aim, fun h => ⟨h, ?_⟩⟩
  rintro front part rest rfl
  apply hun.not_infix_dropLast hne
  intro hsub
  exact h (hsub.trans ⟨[], repl ++ joined repl rest last, by simp [joined]⟩)

/-- **Each occurrence is replaced once** exactly where the needle stands over no seam: for a needle
that does not overlap itself, and for every needle the replacement is no shorter beginning of. -/
theorem settles_iff_seamFree (hne : needle ≠ [])
    (h : repl <+: needle → repl = needle ∨ Unbordered needle) :
    Settles needle repl (joined needle parts last) (joined repl parts last) ↔
      SeamFree needle repl [] parts last := by
  refine ⟨fun hsettles => ?_, fun hfree => hfree.settles⟩
  by_cases hpre : repl <+: needle
  · rcases h hpre with rfl | hun
    · -- the text is the one aimed at, and there is no occurrence in it
      cases parts with
      | nil => exact ⟨hsettles.not_infix, by simp⟩
      | cons part parts =>
        exact absurd ⟨part, joined repl parts last, by simp⟩ hsettles.not_infix
    · exact (hun.seamFree_iff hne).mpr hsettles.not_infix
  · exact @Settles.seamFree _ needle repl [] last parts hne hpre hsettles

/-! ## Byte strings -/

/-- `strstr` finds the first occurrence. -/
theorem firstCut_of_findSub {needle src : Bytes} (hne : needle ≠ []) {pos : ℕ}
    (h : findSub needle src = some pos) :
    FirstCut needle src (src.take pos) (src.drop (pos + needle.length)) := by
  have hsplit := findSub_split h
  refine ⟨by rw [List.append_assoc]; exact hsplit, ?_⟩
  rw [infix_dropLast_iff hne]
  rintro ⟨x, y, hy, heq⟩
  -- an occurrence in front of it would have been found
  have hlt := length_lt_of_append_eq hy heq
  rw [List.length_take] at hlt
  refine (findSub_eq_some h).2 x.length (by omega) ?_
  rw [hsplit, ← List.append_assoc, heq, List.append_assoc, List.append_assoc, List.drop_left]
  exact List.prefix_append needle _

/-- What it finds is told by what stands before it. -/
theorem FirstCut.findSub_eq {needle src before after : Bytes} (hne : needle ≠ [])
    (h : FirstCut needle src before after) : findSub needle src = some before.length := by
  cases hfind : findSub needle src with
  | none => exact absurd ⟨before, after, h.eq.symm⟩ (findSub_eq_none_iff.mp hfind)
  | some pos =>
    obtain ⟨hbefore, -⟩ := (firstCut_of_findSub hne hfind).unique hne h
    have hle := (findSub_add_le hfind).resolve_right hne
    rw [hbefore, List.length_take, Nat.min_eq_left (by omega)]

end BoatRudder
