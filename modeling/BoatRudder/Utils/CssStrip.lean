import BoatRudder.Formats.Stylesheet
import BoatRudder.Text.Replacing
import BoatRudder.Utils.CssCompat

/-! # What `strip` leaves of a stylesheet

`strip` goes over a comment, a string or a `url(...)` to where it takes the end to be, and leaves a
blank for it. It takes the end of comments and strings where CSS does; that of a `url(...)` it takes at
the first closing parenthesis, quoted or behind a backslash as that may be. Where no such parenthesis
stands in the contents, and where names hold no marks behind a backslash, a blank is left for each of
these tokens and the rest in lower case (`strip_renderSheet`). -/

namespace BoatRudder.Utils

open Css

/-! ## Step by step -/

variable {content s : Bytes}

@[simp] theorem strip_nil : strip [] = [] := by rw [strip]

theorem strip_comment (s : Bytes) : strip (47 :: 42 :: s) = 32 :: strip (afterComment s) := by
  rw [strip]
  rfl

theorem strip_quote {q : UInt8} (hq : isQuote q = true) (s : Bytes) :
    strip (q :: s) = 32 :: strip (afterString q s) := by
  have hor : q = 34 ∨ q = 39 := by simpa [isQuote] using hq
  rw [strip, if_neg, if_pos hor]
  rintro ⟨rfl, -⟩
  revert hor
  decide

theorem strip_url {c : UInt8} (h : eqNoCase ((c :: s).take 4) (lit "url(") = true) :
    strip (c :: s) = 32 :: strip (afterParen s) := by
  have hc : toLower c = 117 := by
    rw [eqNoCase_iff] at h
    exact (List.cons.inj h).1
  rw [strip, if_neg, if_neg, if_pos h]
  · rintro (rfl | rfl) <;> revert hc <;> decide
  · rintro ⟨rfl, -⟩
    revert hc
    decide

theorem strip_copy {c : UInt8} (hcomment : ¬ (c = 47 ∧ s.head? = some 42))
    (hquote : isQuote c = false) (hurl : eqNoCase ((c :: s).take 4) (lit "url(") = false) :
    strip (c :: s) = toLower c :: strip s := by
  have hor : ¬ (c = 34 ∨ c = 39) := by simpa [isQuote] using hquote
  rw [strip, if_neg hcomment, if_neg hor, if_neg (by rw [hurl]; decide)]

/-! ## Token by token -/

/-- A comment ends where CSS ends it. -/
theorem afterComment_append (h : ¬ [42, 47] <:+: content) (s : Bytes) :
    afterComment (content ++ [42, 47] ++ s) = s := by
  have hcut : FirstCut [42, 47] (content ++ [42, 47] ++ s) content s :=
    ⟨rfl, Unbordered.not_infix_dropLast (by decide) (by decide) h⟩
  rw [afterComment, hcut.findSub_eq (by decide), List.append_assoc]
  dsimp only
  rw [← List.drop_drop, List.drop_left]
  rfl

/-- A string too. -/
theorem afterString_append {q : UInt8} (hq : isQuote q = true)
    (h : stringContent q content = true) (s : Bytes) : afterString q (content ++ q :: s) = s := by
  have hback : q ≠ 92 := by
    rintro rfl
    cases hq
  fun_induction stringContent q content with
  | case1 =>
    cases s with
    | nil => rfl
    | cons d s => rw [List.nil_append, afterString, if_pos rfl]
  | case2 c =>
    simp only [Bool.and_eq_true, bne_iff_ne, ne_eq, Bool.not_eq_true'] at h
    rw [List.singleton_append, afterString, if_neg h.1.1, if_neg h.1.2]
    cases s with
    | nil => rfl
    | cons d s => rw [afterString, if_pos rfl]
  | case3 d content ih =>
    rw [List.cons_append, List.cons_append, afterString, if_neg (Ne.symm hback), if_pos rfl]
    exact ih h
  | case4 c d content hc ih =>
    simp only [Bool.and_eq_true, bne_iff_ne, ne_eq, Bool.not_eq_true'] at h
    rw [List.cons_append, List.cons_append, afterString, if_neg h.1.1, if_neg hc]
    exact ih h.2

/-- A `url(...)` ends at the first closing parenthesis. -/
theorem afterParen_append (h : 41 ∉ content) (s : Bytes) :
    afterParen (content ++ 41 :: s) = s := by
  rw [afterParen, List.dropWhile_append_of_pos]
  · rfl
  · intro b hb
    simpa using fun heq : b = 41 => h (heq ▸ hb)

/-- The name of a `url(...)` and its parenthesis. -/
theorem exists_of_lower_eq_url {name : Bytes} (h : lower name = lit "url") :
    ∃ c d e, name = [c, d, e] ∧ eqNoCase [c, d, e, 40] (lit "url(") = true ∧
      41 ∉ [d, e, 40] := by
  match name with
  | [c, d, e] =>
    obtain ⟨hc, hd, he⟩ : toLower c = 117 ∧ toLower d = 114 ∧ toLower e = 108 := by
      have hlist : [toLower c, toLower d, toLower e] = [117, 114, 108] := h
      simpa using hlist
    refine ⟨c, d, e, rfl, ?_, ?_⟩
    · rw [eqNoCase_iff]
      simp only [lower, List.map_cons, List.map_nil, hc, hd, he]
      rfl
    · simp only [List.mem_cons, List.not_mem_nil, or_false, not_or]
      refine ⟨?_, ?_, by decide⟩
      · rintro rfl
        revert hd
        decide
      · rintro rfl
        revert he
        decide
  | [] => cases h
  | [c] => cases (List.cons.inj h).2
  | [c, d] => cases (List.cons.inj (List.cons.inj h).2).2
  | c :: d :: e :: f :: s => cases (List.cons.inj (List.cons.inj (List.cons.inj h).2).2).2

theorem strip_url_append {name : Bytes} (hname : lower name = lit "url")
    (h : 41 ∉ content) (s : Bytes) :
    strip (name ++ 40 :: (content ++ 41 :: s)) = 32 :: strip s := by
  obtain ⟨c, d, e, rfl, hurl, hparen⟩ := exists_of_lower_eq_url hname
  rw [List.cons_append, strip_url (by simpa using hurl)]
  have hrest : [d, e] ++ 40 :: (content ++ 41 :: s) = ([d, e, 40] ++ content) ++ 41 :: s := by simp
  rw [hrest, afterParen_append]
  simp only [List.mem_append, not_or]
  exact ⟨hparen, h⟩

/-! ## Plain stylesheets -/

/-- A run in which nothing looks like the beginning of another token, as a quotation mark behind a
backslash does, or a function's name that ends in `url`. -/
structure PlainRun (run : Bytes) : Prop where
  quotes : ∀ b ∈ run, isQuote b = false
  comments : ¬ [47, 42] <:+: run
  urls : ¬ lit "url(" <:+: lower run

/-- The tokens `strip` reads as CSS does: there is no closing parenthesis in the contents of a
`url(...)`, and the runs are plain. -/
def PlainToken : CssToken → Prop
  | .url _ content => 41 ∉ content
  | .code run => PlainRun run
  | _ => True

/-- What `strip` leaves of such a token. -/
def tokenText : CssToken → Bytes
  | .code run => lower run
  | _ => [32]

/-- What it leaves of a stylesheet of them. -/
def sheetText (sheet : List CssToken) : Bytes := sheet.flatMap tokenText

@[simp] theorem sheetText_nil : sheetText [] = [] := rfl

@[simp] theorem sheetText_cons (t : CssToken) (sheet : List CssToken) :
    sheetText (t :: sheet) = tokenText t ++ sheetText sheet := List.flatMap_cons

@[simp] theorem sheetText_append (sheet sheet' : List CssToken) :
    sheetText (sheet ++ sheet') = sheetText sheet ++ sheetText sheet' := List.flatMap_append

/-- What may follow a run, that it is not gone on with: the end, or a token that is not one. -/
def EndsRun (s : Bytes) : Prop :=
  s = [] ∨ ∃ c rest, s = c :: rest ∧ (isQuote c = true ∨ c = 47 ∨ toLower c = 117)

theorem endsRun_render {t : CssToken} (ht : t.Valid) (hcode : ∀ run, t ≠ .code run) (s : Bytes) :
    EndsRun (t.render ++ s) := by
  cases t with
  | comment content => exact Or.inr ⟨_, _, rfl, Or.inr (Or.inl rfl)⟩
  | string q content => exact Or.inr ⟨_, _, rfl, Or.inl ht.1⟩
  | url name content =>
    obtain ⟨c, d, e, rfl, hurl, -⟩ := exists_of_lower_eq_url ht.1
    refine Or.inr ⟨_, _, rfl, Or.inr (Or.inr ?_)⟩
    exact (List.cons.inj (eqNoCase_iff.mp hurl)).1
  | code run => exact absurd rfl (hcode run)

/-- **A plain run is left in lower case**, up to the token behind it. -/
theorem strip_run {run : Bytes} (h : PlainRun run) (hs : EndsRun s) :
    strip (run ++ s) = lower run ++ strip s := by
  induction run with
  | nil => rfl
  | cons c run ih =>
    have hrest : PlainRun run :=
      ⟨fun b hb => h.quotes b (List.mem_cons_of_mem c hb),
        fun hin => h.comments (hin.trans (List.suffix_cons c run).isInfix),
        fun hin => h.urls (hin.trans (List.suffix_cons (toLower c) (lower run)).isInfix)⟩
    rw [List.cons_append, strip_copy, ih hrest]
    · rfl
    · rintro ⟨rfl, hstar⟩
      cases run with
      | nil =>
        rcases hs with rfl | ⟨d, rest, rfl, hd⟩
        · cases hstar
        · obtain rfl : d = 42 := by simpa using hstar
          revert hd
          decide
      | cons d run =>
        obtain rfl : d = 42 := by simpa using hstar
        exact h.comments ⟨[], run, rfl⟩
    · exact h.quotes c (List.mem_cons_self ..)
    · rw [Bool.eq_false_iff]
      intro hurl
      rw [eqNoCase_iff] at hurl
      by_cases hlen : 4 ≤ (c :: run).length
      · -- all of it is in the run
        rw [← List.cons_append, List.take_append_of_le_length hlen] at hurl
        apply h.urls
        rw [← show lower ((c :: run).take 4) = lit "url(" from hurl]
        rw [lower, List.map_take]
        exact (List.take_prefix 4 _).isInfix
      · -- the byte behind the run would be in it
        rcases hs with rfl | ⟨d, rest, rfl, hd⟩
        · have hfour := congrArg List.length hurl
          simp [lower, lit] at hfour
          simp at hlen
          omega
        · have hd' : toLower d ≠ 114 ∧ toLower d ≠ 108 ∧ toLower d ≠ 40 := by
            rcases hd with hquote | rfl | hu
            · have hor : d = 34 ∨ d = 39 := by simpa [isQuote] using hquote
              rcases hor with rfl | rfl <;> decide
            · decide
            · rw [hu]
              decide
          rcases run with _ | ⟨e, _ | ⟨f, _ | ⟨g, run⟩⟩⟩
          · have heq := (List.cons.inj hurl).2
            exact hd'.1 (List.cons.inj heq).1
          · have heq := (List.cons.inj (List.cons.inj hurl).2).2
            exact hd'.2.1 (List.cons.inj heq).1
          · have heq := (List.cons.inj (List.cons.inj (List.cons.inj hurl).2).2).2
            exact hd'.2.2 (List.cons.inj heq).1
          · simp at hlen

/-- **What `strip` leaves of a plain stylesheet**, whatever follows that is not a part of its last
run. -/
theorem strip_renderSheet_append {sheet : List CssToken} (h : IsSheet sheet)
    (hplain : ∀ t ∈ sheet, PlainToken t) (hs : EndsRun s) :
    strip (renderSheet sheet ++ s) = sheetText sheet ++ strip s := by
  induction sheet with
  | nil => rfl
  | cons t sheet ih =>
    have ih := ih h.tail fun u hu => hplain u (List.mem_cons_of_mem t hu)
    have hvalid := h.valid t (List.mem_cons_self ..)
    have ht := hplain t (List.mem_cons_self ..)
    rw [renderSheet_cons, sheetText_cons, List.append_assoc, List.append_assoc, ← ih]
    cases t with
    | comment content =>
      have hassoc : CssToken.render (.comment content) ++ (renderSheet sheet ++ s) =
          47 :: 42 :: (content ++ [42, 47] ++ (renderSheet sheet ++ s)) := by
        simp [CssToken.render]
      rw [hassoc, strip_comment, afterComment_append hvalid]
      rfl
    | string q content =>
      have hassoc : CssToken.render (.string q content) ++ (renderSheet sheet ++ s) =
          q :: (content ++ q :: (renderSheet sheet ++ s)) := by
        simp [CssToken.render]
      rw [hassoc, strip_quote hvalid.1, afterString_append hvalid.1 hvalid.2]
      rfl
    | url name content =>
      have hassoc : CssToken.render (.url name content) ++ (renderSheet sheet ++ s) =
          name ++ 40 :: (content ++ 41 :: (renderSheet sheet ++ s)) := by
        simp [CssToken.render]
      rw [hassoc, strip_url_append hvalid.1 ht]
      rfl
    | code run =>
      refine strip_run ht ?_
      cases sheet with
      | nil => exact hs
      | cons u sheet =>
        have hfollows := (List.isChain_cons_cons.mp h.follows).1
        rw [renderSheet_cons, List.append_assoc]
        apply endsRun_render (h.valid u (by simp))
        rintro run' rfl
        exact hfollows

/-- **What `strip` leaves of a plain stylesheet.** -/
theorem strip_renderSheet {sheet : List CssToken} (h : IsSheet sheet)
    (hplain : ∀ t ∈ sheet, PlainToken t) : strip (renderSheet sheet) = sheetText sheet := by
  have := strip_renderSheet_append h hplain (Or.inl rfl)
  rwa [List.append_nil, strip_nil, List.append_nil] at this

end BoatRudder.Utils
