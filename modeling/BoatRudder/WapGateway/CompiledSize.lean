import BoatRudder.WapGateway.Wbxml

/-! # The size of compiled strings and nodes

How the number of bytes `put_str` and `compile_node` produce depends on what they are given: longer
literals take more, a string cut before a byte that ends a name takes no more than the whole, unless
the cut goes through a `$(name:conversion)`, and a longer link prefix never takes less. -/

namespace BoatRudder.Wbxml

open Wml

/-! ## The turns of `put_str` -/

variable {b s w w1 w2 : Bytes} {b1 b2 : Option Bytes} {r : VarRef}

theorem putStrFrom_cons {c : UInt8} (hc : c ≠ 36) (run s : Bytes) :
    putStrFrom run (c :: s) = putStrFrom (run ++ [c]) s := by
  rw [putStrFrom, if_pos hc]

theorem putStrFrom_dollar_dollar (run s : Bytes) :
    putStrFrom run (36 :: 36 :: s) = putLiteral (run ++ [36]) ++ putStrFrom [] s := by
  rw [putStrFrom, if_neg (by simp), if_pos (by simp)]
  rfl

theorem putStrFrom_dollar_none (h36 : s.head? ≠ some 36) (h : varRef s = none)
    (run : Bytes) : putStrFrom run (36 :: s) = putStrFrom (run ++ [36]) s := by
  rw [putStrFrom, if_neg (by simp), if_neg h36]
  split
  · rfl
  · next hr => rw [h] at hr; cases hr

theorem putStrFrom_dollar_some (h36 : s.head? ≠ some 36) (h : varRef s = some r) (run : Bytes) :
    putStrFrom run (36 :: s) = putLiteral run ++ r.token :: r.name ++ 0 :: putStrFrom [] r.after := by
  rw [putStrFrom, if_neg (by simp), if_neg h36]
  split
  · next hr => rw [h] at hr; cases hr
  · next r' hr =>
      rw [h] at hr
      obtain rfl := Option.some.inj hr
      rfl

/-- A string without a `$` is one literal. -/
theorem putStrFrom_append_of_notMem (h : 36 ∉ s) (run t : Bytes) :
    putStrFrom run (s ++ t) = putStrFrom (run ++ s) t := by
  induction s generalizing run with
  | nil => simp
  | cons c s ih =>
    simp only [List.mem_cons, not_or] at h
    rw [List.cons_append, putStrFrom_cons (Ne.symm h.1), ih h.2]
    simp

/-! ## Longer literals -/

/-- A literal's length grows with it. -/
theorem length_putLiteral_le {a : Bytes} (h : a.length ≤ b.length) :
    (putLiteral a).length ≤ (putLiteral b).length := by
  by_cases ha : a = []
  · simp [putLiteral, ha]
  · have hb : b ≠ [] := by
      rintro rfl
      exact ha (List.eq_nil_of_length_eq_zero (Nat.le_zero.mp h))
    simpa [putLiteral, ha, hb] using h

/-- Bytes more in a literal are bytes more of it. -/
theorem length_putLiteral_add_le {a b : Bytes} (h : a.length ≤ b.length) :
    (putLiteral a).length + (b.length - a.length) ≤ (putLiteral b).length := by
  by_cases hb : b = []
  · have ha : a = [] := List.eq_nil_of_length_eq_zero (by simpa [hb] using h)
    simp [ha, hb]
  · by_cases ha : a = [] <;> simp [putLiteral, ha, hb] <;> omega

/-- A longer run of literal bytes before a string makes it longer by as much at least. -/
theorem length_putStrFrom_add_le {r1 r2 : Bytes} (h : r1.length ≤ r2.length) (s : Bytes) :
    (putStrFrom r1 s).length + (r2.length - r1.length) ≤ (putStrFrom r2 s).length := by
  fun_induction putStrFrom r1 s generalizing r2 with
  | case1 r1 =>
    rw [putStrFrom]
    exact length_putLiteral_add_le h
  | case2 r1 c s hc ih =>
    rw [putStrFrom_cons hc]
    have := @ih (r2 ++ [c]) (by simpa using h)
    simp only [List.length_append, List.length_cons, List.length_nil] at this
    omega
  | case3 r1 c s hc h36 ih =>
    obtain rfl : c = 36 := by simpa using hc
    have hlit := @length_putLiteral_add_le (r1 ++ [36]) (r2 ++ [36]) (by simpa using h)
    conv_rhs => rw [putStrFrom, if_neg hc, if_pos h36]
    simp only [List.length_append, List.length_cons, List.length_nil] at hlit ⊢
    omega
  | case4 r1 c s hc h36 hr ih =>
    obtain rfl : c = 36 := by simpa using hc
    rw [putStrFrom_dollar_none h36 hr]
    have := @ih (r2 ++ [36]) (by simpa using h)
    simp only [List.length_append, List.length_cons, List.length_nil] at this
    omega
  | case5 r1 c s hc h36 r hr ih =>
    obtain rfl : c = 36 := by simpa using hc
    have hlit := length_putLiteral_add_le h
    rw [putStrFrom_dollar_some h36 hr]
    simp only [List.length_append, List.length_cons] at hlit ⊢
    omega

/-- A longer run of literal bytes before a string never makes it shorter. -/
theorem length_putStrFrom_le {r1 r2 : Bytes} (h : r1.length ≤ r2.length) (s : Bytes) :
    (putStrFrom r1 s).length ≤ (putStrFrom r2 s).length :=
  (Nat.le_add_right _ _).trans (length_putStrFrom_add_le h s)

/-- The literal bytes collected so far go out, whatever follows. -/
theorem length_putLiteral_le_putStrFrom (run s : Bytes) :
    (putLiteral run).length ≤ (putStrFrom run s).length := by
  fun_induction putStrFrom run s with
  | case1 run => exact le_rfl
  | case2 run c s hc ih => exact (length_putLiteral_le (by simp)).trans ih
  | case3 run c s hc h36 ih =>
    have hlit := length_putLiteral_le (a := run) (b := run ++ [c]) (by simp)
    rw [List.length_append]
    omega
  | case4 run c s hc h36 hr ih => exact (length_putLiteral_le (by simp)).trans ih
  | case5 run c s hc h36 r hr ih =>
    simp only [List.length_append]
    omega

/-! ## Cut strings -/

/-- A byte that ends a name, and opens and closes nothing in the `$`-syntax. -/
def IsBreak (c : UInt8) : Prop := isVarChar c = false ∧ c ≠ 36 ∧ c ≠ 40 ∧ c ≠ 41 ∧ c ≠ 58

instance (c : UInt8) : Decidable (IsBreak c) := inferInstanceAs (Decidable (_ ∧ _))

/-- A string that is empty or starts with such a byte. -/
def Breaks (w : Bytes) : Prop := ∀ c ∈ w.head?, IsBreak c

/-- Whether `s`, what follows a `$`, is a reference with a conversion that is still open at the end
of `s`: `(name:` and then no `)`. -/
def opensRef (s : Bytes) : Prop :=
  s.head? = some 40 ∧ startsName (s.drop 1) = true ∧
    ((s.drop 1).dropWhile isVarChar).head? = some 58 ∧ 41 ∉ (s.drop 1).dropWhile isVarChar

theorem takeWhile_isVarChar_append (hw : Breaks w) (s : Bytes) :
    (s ++ w).takeWhile isVarChar = s.takeWhile isVarChar := by
  induction s with
  | nil =>
    cases w with
    | nil => rfl
    | cons c w => simp [(hw c (by simp)).1]
  | cons c s ih =>
    by_cases hc : isVarChar c <;> simp [hc, ih]

theorem dropWhile_isVarChar_append (hw : Breaks w) (s : Bytes) :
    (s ++ w).dropWhile isVarChar = s.dropWhile isVarChar ++ w := by
  induction s with
  | nil =>
    cases w with
    | nil => rfl
    | cons c w => simp [(hw c (by simp)).1]
  | cons c s ih =>
    by_cases hc : isVarChar c <;> simp [hc, ih]

theorem startsName_append (hw : Breaks w) (s : Bytes) : startsName (s ++ w) = startsName s := by
  cases s with
  | nil =>
    cases w with
    | nil => rfl
    | cons c w =>
      have hc := (hw c (by simp)).1
      simp only [isVarChar, isAlnum, Bool.or_eq_false_iff] at hc
      simp [startsName, hc.1.1, hc.2]
  | cons c s => rfl

/-- A reference inside a string is there whatever follows the string. -/
theorem varRef_append_some (hw : Breaks w) (h : varRef s = some r) :
    varRef (s ++ w) = some ⟨r.token, r.name, r.after ++ w⟩ := by
  unfold varRef at h ⊢
  split_ifs at h with hp
  · obtain ⟨t, rfl⟩ := List.head?_eq_some_iff.mp hp
    simp only [parenRef, List.drop_succ_cons, List.drop_zero, List.cons_append, List.head?_cons,
      if_true, startsName_append hw, takeWhile_isVarChar_append hw,
      dropWhile_isVarChar_append hw] at h ⊢
    generalize t.dropWhile isVarChar = tail at h ⊢
    cases tail with
    | nil => simp at h
    | cons c u =>
      simp only [List.head?_cons, List.cons_append, Option.some.injEq, List.drop_succ_cons,
        List.drop_zero] at h ⊢
      split_ifs at h with hclose h58 h41
      · have hu : 41 ∈ u := (List.mem_cons.mp hclose.2).resolve_left (by simp [h58])
        have htake := takeWhile_ne_append_of_mem hu w
        have hafter := afterByte_append_of_mem hclose.2 w
        obtain rfl := Option.some.inj h
        rw [if_pos ⟨hclose.1, by simp [hu]⟩, if_pos h58, htake, ← List.cons_append, hafter]
      · have hafter := afterByte_append_of_mem hclose.2 w
        obtain rfl := Option.some.inj h
        rw [if_pos ⟨hclose.1, by simp [h41]⟩, if_neg h58, if_pos h41, ← List.cons_append, hafter]
  · have hp' : (s ++ w).head? ≠ some 40 := by
      cases s with
      | nil =>
        cases w with
        | nil => simp
        | cons c w => simpa using (hw c (by simp)).2.2.1
      | cons c s => simpa using hp
    simp only [if_neg hp', bareRef, startsName_append hw, takeWhile_isVarChar_append hw,
      dropWhile_isVarChar_append hw] at h ⊢
    split_ifs at h with hn
    obtain rfl := Option.some.inj h
    rw [if_pos hn]

/-- Where a string starts no reference it starts none together with what follows, unless it is one
still open that ends there. -/
theorem varRef_append_none (hw : Breaks w) (h : varRef s = none)
    (hopen : ¬ opensRef s ∨ 41 ∉ w) : varRef (s ++ w) = none := by
  unfold varRef at h ⊢
  split_ifs at h with hp
  · obtain ⟨t, rfl⟩ := List.head?_eq_some_iff.mp hp
    simp only [opensRef, parenRef, List.drop_succ_cons, List.drop_zero, List.cons_append,
      List.head?_cons, if_true, startsName_append hw, takeWhile_isVarChar_append hw,
      dropWhile_isVarChar_append hw] at h hopen ⊢
    generalize t.dropWhile isVarChar = tail at h hopen ⊢
    cases tail with
    | nil =>
      cases w with
      | nil => simp
      | cons c w =>
        have hc := hw c (by simp)
        simp [hc.2.2.2.1, hc.2.2.2.2]
    | cons c u =>
      simp only [List.head?_cons, List.cons_append, Option.some.injEq, List.drop_succ_cons,
        List.drop_zero, true_and] at h hopen ⊢
      by_cases hn : startsName t = true
      swap
      · simp [hn]
      by_cases hmem : 41 ∈ c :: u
      · -- closed already, so it is none for what stands before its `)`
        rw [if_pos ⟨hn, hmem⟩] at h
        rw [if_pos ⟨hn, by simpa [or_assoc] using Or.inl (List.mem_cons.mp hmem)⟩]
        split_ifs at h with h58 h41
        rw [if_neg h58, if_neg h41]
      · rcases hopen with hopen | hopen
        · have h58 : c ≠ 58 := fun h58 => hopen ⟨hn, h58, hmem⟩
          have h41 : c ≠ 41 := fun h41 => hmem (by simp [h41])
          simp [h58, h41]
        · rw [if_neg]
          simp only [List.mem_cons, List.mem_append, not_or] at hmem ⊢
          exact fun h0 => h0.2.elim hmem.1 fun h0 => h0.elim hmem.2 hopen
  · have hp' : (s ++ w).head? ≠ some 40 := by
      cases s with
      | nil =>
        cases w with
        | nil => simp
        | cons c w => simpa using (hw c (by simp)).2.2.1
      | cons c s => simpa using hp
    simp only [if_neg hp', bareRef, startsName_append hw] at h ⊢
    split_ifs at h with hn
    rw [if_neg hn]

/-- A reference still open ends at the first `)` that follows. -/
theorem varRef_append_open (hw : Breaks w) (hopen : opensRef s) (hmem : 41 ∈ w) :
    ∃ token, varRef (s ++ w) = some ⟨token, (s.drop 1).takeWhile isVarChar, afterByte 41 w⟩ := by
  obtain ⟨h40, hn, h58, hclose⟩ := hopen
  obtain ⟨t, rfl⟩ := List.head?_eq_some_iff.mp h40
  simp only [varRef, parenRef, List.drop_succ_cons, List.drop_zero, List.cons_append,
    List.head?_cons, if_true, startsName_append hw, takeWhile_isVarChar_append hw,
    dropWhile_isVarChar_append hw] at hn h58 hclose ⊢
  have hhead : (t.dropWhile isVarChar ++ w).head? = some 58 := by
    rw [List.head?_append, h58]
    rfl
  rw [if_pos ⟨hn, by simp [hmem]⟩, if_pos hhead, afterByte_append_of_notMem hclose]
  exact ⟨_, rfl⟩

/-- What follows a reference is the end of the string. -/
theorem varRef_after_suffix (h : varRef s = some r) : r.after <:+ s := by
  have hafter : ∀ t : Bytes, afterByte 41 t <:+ t := fun t =>
    (List.drop_suffix _ _).trans (List.dropWhile_suffix _)
  unfold varRef at h
  split_ifs at h with hp
  · simp only [parenRef] at h
    split_ifs at h <;> obtain rfl := Option.some.inj h
    all_goals
      exact (hafter _).trans ((List.dropWhile_suffix _).trans (List.drop_suffix _ _))
  · unfold bareRef at h
    split_ifs at h
    obtain rfl := Option.some.inj h
    exact List.dropWhile_suffix _

theorem head?_append_ne (hw : Breaks w) (h : s.head? ≠ some 36) : (s ++ w).head? ≠ some 36 := by
  cases s with
  | nil =>
    cases w with
    | nil => simp
    | cons c w => simpa using (hw c (by simp)).2.1
  | cons c s => simpa using h

/-- What may end a string in place of `w2` without making it longer. -/
structure Shorter (w1 w2 : Bytes) : Prop where
  /-- The first string is empty or ends a name. -/
  left : Breaks w1
  /-- The second string is empty or ends a name. -/
  right : Breaks w2
  /-- The first string takes no more bytes. -/
  le : ∀ run, (putStrFrom run w1).length ≤ (putStrFrom run w2).length

/-- **A string that ends shorter is no longer**, unless a reference it leaves open is closed by one
end only. -/
theorem length_putStrFrom_append_le (hw : Shorter w1 w2)
    (hopen : (∀ t, 36 :: t <:+ s → ¬ opensRef t) ∨ (41 ∉ w1 ∧ 41 ∉ w2) ∨
      ((41 ∈ w1 ∧ afterByte 41 w1 = []) ∧ 41 ∈ w2 ∧ afterByte 41 w2 = [])) (run : Bytes) :
    (putStrFrom run (s ++ w1)).length ≤ (putStrFrom run (s ++ w2)).length := by
  fun_induction putStrFrom run s with
  | case1 run => simpa using hw.le run
  | case2 run c s hc ih =>
    rw [List.cons_append, List.cons_append, putStrFrom_cons hc, putStrFrom_cons hc]
    exact ih (hopen.imp_left fun h t ht => h t (ht.trans (List.suffix_cons c s)))
  | case3 run c s hc h36 ih =>
    obtain rfl : c = 36 := by simpa using hc
    obtain ⟨t, rfl⟩ := List.head?_eq_some_iff.mp h36
    have hsuf : t <:+ 36 :: 36 :: t := (List.suffix_cons _ _).trans (List.suffix_cons _ _)
    have := ih (hopen.imp_left fun h u hu => h u (hu.trans hsuf))
    simp only [List.drop_succ_cons, List.drop_zero, List.cons_append, putStrFrom_dollar_dollar,
      List.length_append] at this ⊢
    omega
  | case4 run c s hc h36 hr ih =>
    obtain rfl : c = 36 := by simpa using hc
    have h1 := head?_append_ne hw.left h36
    have h2 := head?_append_ne hw.right h36
    have hrec := ih (hopen.imp_left fun h t ht => h t (ht.trans (List.suffix_cons _ s)))
    have hnone : (¬ opensRef s ∨ 41 ∉ w1 ∧ 41 ∉ w2) →
        (putStrFrom run (36 :: s ++ w1)).length ≤ (putStrFrom run (36 :: s ++ w2)).length := by
      intro h
      rw [List.cons_append, List.cons_append,
        putStrFrom_dollar_none h1 (varRef_append_none hw.left hr (h.imp_right And.left)),
        putStrFrom_dollar_none h2 (varRef_append_none hw.right hr (h.imp_right And.right))]
      exact hrec
    rcases hopen with h | h | ⟨⟨hm1, ha1⟩, hm2, ha2⟩
    · exact hnone (Or.inl (h s List.suffix_rfl))
    · exact hnone (Or.inr h)
    · by_cases hs : opensRef s
      · -- both ends close it, and end there
        obtain ⟨tok1, href1⟩ := varRef_append_open hw.left hs hm1
        obtain ⟨tok2, href2⟩ := varRef_append_open hw.right hs hm2
        rw [List.cons_append, List.cons_append, putStrFrom_dollar_some h1 href1,
          putStrFrom_dollar_some h2 href2, ha1, ha2]
        simp
      · exact hnone (Or.inl hs)
  | case5 run c s hc h36 r hr ih =>
    obtain rfl : c = 36 := by simpa using hc
    have hsuf : r.after <:+ 36 :: s := (varRef_after_suffix hr).trans (List.suffix_cons _ s)
    have := ih (hopen.imp_left fun h t ht => h t (ht.trans hsuf))
    rw [List.cons_append, List.cons_append,
      putStrFrom_dollar_some (head?_append_ne hw.left h36) (varRef_append_some hw.left hr),
      putStrFrom_dollar_some (head?_append_ne hw.right h36) (varRef_append_some hw.right hr)]
    simp only [List.length_append, List.length_cons] at this ⊢
    omega

/-- An end cut off whole. -/
theorem Shorter.nil (hw : Breaks w) : Shorter [] w :=
  ⟨by simp [Breaks], hw, fun run => by
    simpa [putStrFrom] using length_putLiteral_le_putStrFrom run w⟩

/-- A literal end in place of one at least as long. -/
theorem Shorter.literal (h1 : Breaks w1) (h2 : Breaks w2) (hd1 : 36 ∉ w1)
    (hd2 : 36 ∉ w2) (hle : w1.length ≤ w2.length) : Shorter w1 w2 where
  left := h1
  right := h2
  le run := by
    have e1 := putStrFrom_append_of_notMem hd1 run []
    have e2 := putStrFrom_append_of_notMem hd2 run []
    rw [List.append_nil, putStrFrom] at e1 e2
    rw [e1, e2]
    exact length_putLiteral_le (by simpa using hle)

/-- Literal bytes at the end of a string that ends in literal bytes already. -/
theorem length_putStrFrom_append_literal {u : Bytes} (hw : w ≠ []) (hbreak : Breaks w)
    (h36 : 36 ∉ w ++ u) (h41 : 41 ∉ w ++ u) (s run : Bytes) :
    (putStrFrom run (s ++ (w ++ u))).length ≤ (putStrFrom run (s ++ w)).length + u.length := by
  have hbreak' : Breaks (w ++ u) := fun c hc => by
    rw [List.head?_append_of_ne_nil _ hw] at hc
    exact hbreak c hc
  have h41w : 41 ∉ w := fun h => h41 (List.mem_append_left u h)
  have h36w : 36 ∉ w := fun h => h36 (List.mem_append_left u h)
  fun_induction putStrFrom run s with
  | case1 run =>
    have e1 := putStrFrom_append_of_notMem h36 run []
    have e2 := putStrFrom_append_of_notMem h36w run []
    rw [List.append_nil, putStrFrom] at e1 e2
    rw [List.nil_append, List.nil_append, e1, e2]
    simp [putLiteral, hw]
    omega
  | case2 run c s hc ih =>
    rw [List.cons_append, List.cons_append, putStrFrom_cons hc, putStrFrom_cons hc]
    exact ih
  | case3 run c s hc hnext ih =>
    obtain rfl : c = 36 := by simpa using hc
    obtain ⟨t, rfl⟩ := List.head?_eq_some_iff.mp hnext
    simp only [List.drop_succ_cons, List.drop_zero, List.cons_append, putStrFrom_dollar_dollar,
      List.length_append] at ih ⊢
    omega
  | case4 run c s hc hnext hr ih =>
    obtain rfl : c = 36 := by simpa using hc
    rw [List.cons_append, List.cons_append,
      putStrFrom_dollar_none (head?_append_ne hbreak' hnext)
        (varRef_append_none hbreak' hr (Or.inr h41)),
      putStrFrom_dollar_none (head?_append_ne hbreak hnext)
        (varRef_append_none hbreak hr (Or.inr h41w))]
    exact ih
  | case5 run c s hc hnext r hr ih =>
    obtain rfl : c = 36 := by simpa using hc
    rw [List.cons_append, List.cons_append,
      putStrFrom_dollar_some (head?_append_ne hbreak' hnext) (varRef_append_some hbreak' hr),
      putStrFrom_dollar_some (head?_append_ne hbreak hnext) (varRef_append_some hbreak hr)]
    simp only [List.length_append, List.length_cons] at ih ⊢
    omega

/-! ## Whole strings -/

theorem putStr_of_ne_nil (h : s ≠ []) : putStr s = putStrFrom [] s := if_neg h

/-- A string with something literal in it takes what the loop over it takes. -/
theorem putStr_append {r : Bytes} (hr : 36 ∉ r) (hne : r ≠ []) (s : Bytes) :
    putStr (r ++ s) = putStrFrom r s := by
  rw [putStr, if_neg (by simp [hne]), putStrFrom_append_of_notMem hr, List.nil_append]

/-- A string without a `$` takes its bytes, a token and a NUL. -/
theorem length_putStr_plain (h : 36 ∉ s) : (putStr s).length = s.length + 2 := by
  by_cases hs : s = []
  · simp [putStr, hs]
  · have := putStr_append h hs []
    rw [List.append_nil, putStrFrom, putLiteral, if_neg hs] at this
    simp [this]

/-- A string takes at least two bytes. -/
theorem two_le_length_putStr (s : Bytes) : 2 ≤ (putStr s).length := by
  cases s with
  | nil => simp [putStr]
  | cons c s =>
    have hlit : ∀ t, 2 ≤ (putStrFrom [c] t).length := fun t =>
      (by simp [putLiteral] : 2 ≤ (putLiteral [c]).length).trans
        (length_putLiteral_le_putStrFrom [c] t)
    rw [putStr_of_ne_nil (by simp)]
    by_cases hc : c = 36
    · subst hc
      by_cases h36 : s.head? = some 36
      · rw [putStrFrom, if_neg (by simp), if_pos h36]
        simp [putLiteral]
      · cases hr : varRef s with
        | none =>
          rw [putStrFrom_dollar_none h36 hr]
          exact hlit s
        | some r =>
          rw [putStrFrom_dollar_some h36 hr]
          simp only [List.length_append, List.length_cons]
          omega
    · rw [putStrFrom_cons hc]
      exact hlit s

theorem putStr_ne_nil (s : Bytes) : putStr s ≠ [] := by
  intro h
  have := two_le_length_putStr s
  rw [h] at this
  simp at this

/-- A string that ends shorter is no longer, whatever is literal in front of it. -/
theorem length_putStrFrom_append_le_of_le (hw : Shorter w1 w2)
    (hclose : 41 ∉ w1 ∧ 41 ∉ w2) {r1 r2 : Bytes} (hle : r1.length ≤ r2.length) (s : Bytes) :
    (putStrFrom r1 (s ++ w1)).length ≤ (putStrFrom r2 (s ++ w2)).length :=
  (length_putStrFrom_append_le hw (Or.inr (Or.inl hclose)) r1).trans (length_putStrFrom_le hle _)

/-- A string after a literal takes no less than without it. -/
theorem length_putStr_le_append {r : Bytes} (hr : 36 ∉ r) (hne : r ≠ []) (s : Bytes) :
    (putStr s).length ≤ (putStr (r ++ s)).length := by
  rw [putStr_append hr hne, putStr]
  split_ifs with hs
  · have := length_putLiteral_le_putStrFrom r s
    simp only [putLiteral, if_neg hne, List.length_cons, List.length_append] at this
    simp only [List.length_cons, List.length_nil]
    omega
  · exact length_putStrFrom_le (by simp) s

/-- A text cut at a blank takes no more than the whole text, unless the cut goes through a reference
with a conversion. -/
theorem length_putStr_take_le {i : ℕ} (hpos : 0 < i) (hi : s[i]? = some 32)
    (hopen : (∀ t, 36 :: t <:+ s.take i → ¬ opensRef t) ∨ 41 ∉ s.drop i) :
    (putStr (s.take i)).length ≤ (putStr s).length := by
  obtain ⟨hlt, hget⟩ := List.getElem?_eq_some_iff.mp hi
  have hbreak : Breaks (s.drop i) := by
    intro c hc
    rw [List.drop_eq_getElem_cons hlt, hget, List.head?_cons] at hc
    obtain rfl := Option.mem_some_iff.mp hc
    decide
  have htake : s.take i ≠ [] := by
    have hlen : (s.take i).length = i := List.length_take_of_le hlt.le
    intro h
    rw [h, List.length_nil] at hlen
    omega
  have hs : s ≠ [] := by
    rintro rfl
    simp at hlt
  have := length_putStrFrom_append_le (Shorter.nil hbreak) (s := s.take i)
    (hopen.imp_right fun h => Or.inl ⟨by simp, h⟩) []
  rwa [List.append_nil, List.take_append_drop, ← putStr_of_ne_nil htake, ← putStr_of_ne_nil hs]
    at this

/-! ## Nodes -/

/-- More tokens, closed, are no fewer. -/
theorem length_closed_le {a : Bytes} (h : a.length ≤ b.length) :
    (closed a).length ≤ (closed b).length := by
  by_cases ha : a = []
  · simp [closed, ha]
  · have hb : b ≠ [] := by
      rintro rfl
      exact ha (List.eq_nil_of_length_eq_zero (Nat.le_zero.mp h))
    simpa [closed, ha, hb] using h

/-- An element with more in it takes no less. -/
theorem length_element_le {code : UInt8} {a1 a2 c1 c2 : Bytes} (ha : a1.length ≤ a2.length)
    (hc : c1.length ≤ c2.length) : (element code a1 c1).length ≤ (element code a2 c2).length := by
  have h1 := length_closed_le ha
  have h2 := length_closed_le hc
  simp only [element, List.length_append, List.length_cons]
  omega

/-- A link prefix that never makes a value longer than another does. -/
def BaseLe (b1 b2 : Option Bytes) : Prop :=
  ∀ code v, (putStr (withBase b1 code v)).length ≤ (putStr (withBase b2 code v)).length

/-- A prefix in place of one at least as long. -/
theorem baseLe_of_length_le {b1 b2 : Bytes} (h1 : 36 ∉ b1) (h2 : 36 ∉ b2)
    (hle : b1.length ≤ b2.length) : BaseLe (some b1) (some b2) := by
  intro code v
  simp only [withBase]
  split_ifs
  · by_cases hb1 : b1 = []
    · by_cases hb2 : b2 = []
      · rw [hb1, hb2]
      · rw [hb1, List.nil_append]
        exact length_putStr_le_append h2 hb2 v
    · have hb2 : b2 ≠ [] := by
        rintro rfl
        exact hb1 (List.eq_nil_of_length_eq_zero (Nat.le_zero.mp hle))
      rw [putStr_append h1 hb1, putStr_append h2 hb2]
      exact length_putStrFrom_le hle v
  · exact le_rfl

/-- No prefix in place of one. -/
theorem baseLe_none (h : 36 ∉ b) : BaseLe none (some b) := by
  intro code v
  simp only [withBase]
  split_ifs
  · by_cases hb : b = []
    · rw [hb, List.nil_append]
    · exact length_putStr_le_append h hb v
  · exact le_rfl

/-- An attribute with a shorter link prefix. -/
theorem length_compileAttr_le (h : BaseLe b1 b2) (a : Bytes × Bytes) :
    (compileAttr b1 a).length ≤ (compileAttr b2 a).length := by
  unfold compileAttr
  split
  · exact le_rfl
  · split
    · exact le_rfl
    · simpa using h _ _

/-- A node with a shorter link prefix. -/
theorem length_compileNode_le (h : BaseLe b1 b2) (n : Node) :
    (compileNode b1 n).length ≤ (compileNode b2 n).length := by
  induction n using Tree.induction with
  | text t => exact le_rfl
  | elem name attrs kids ih =>
    have hattrs : (attrs.flatMap (compileAttr b1)).length ≤
        (attrs.flatMap (compileAttr b2)).length := by
      clear ih
      induction attrs with
      | nil => exact le_rfl
      | cons a as ihas =>
        have ha := length_compileAttr_le h a
        simp only [List.flatMap_cons, List.length_append]
        omega
    have hkids : (compileNodes b1 kids).length ≤ (compileNodes b2 kids).length := by
      clear hattrs
      induction kids with
      | nil => exact le_rfl
      | cons k ks ihks =>
        have hk := ih k (by simp)
        have hks := ihks fun n hn => ih n (by simp [hn])
        simp only [compileNodes, List.length_append]
        omega
    rw [compileNode, compileNode]
    split
    · exact hkids
    · exact length_element_le hattrs hkids

/-- Siblings with a shorter link prefix. -/
theorem length_compileNodes_le (h : BaseLe b1 b2) (ns : List Node) :
    (compileNodes b1 ns).length ≤ (compileNodes b2 ns).length := by
  induction ns with
  | nil => exact le_rfl
  | cons n ns ih =>
    have := length_compileNode_le h n
    simp only [compileNodes, List.length_append]
    omega

/-- The size of a card: what frames it, its title, and its content or the blank in its place. -/
theorem length_compileCard (title : Bytes) (blocks nav : List Node) (base : Option Bytes) :
    (compileCard title blocks nav base).length = 14 + (putStr title).length +
      (if compileNodes base blocks ++ compileNodes base nav = [] then 3
        else (compileNodes base blocks).length + (compileNodes base nav).length) := by
  have hp : (putStr (lit "p")).length = 3 := by decide +kernel
  have hblank : (putStr (lit " ")).length = 3 := by decide +kernel
  simp only [compileCard, List.length_append, List.length_cons, List.length_nil, hp]
  split_ifs
  · rw [hblank]
    omega
  · rw [List.length_append]
    omega

/-- Whether nodes compile to anything does not depend on the link prefix. -/
theorem compileNodes_eq_nil (b1 b2 : Option Bytes) {ns : List Node} (h : compileNodes b1 ns = []) :
    compileNodes b2 ns = [] := by
  have hnode : ∀ n : Node, compileNode b1 n = [] → compileNode b2 n = [] := by
    intro n
    induction n using Tree.induction with
    | text t => exact fun h => absurd h (putStr_ne_nil t)
    | elem name attrs kids ih =>
      simp only [compileNode]
      split
      · intro h
        induction kids with
        | nil => rfl
        | cons k kids ihk =>
          obtain ⟨hk, hkids⟩ := List.append_eq_nil_iff.mp h
          exact List.append_eq_nil_iff.mpr ⟨ih k (by simp) hk,
            ihk (fun l hl => ih l (by simp [hl])) hkids⟩
      · simp [element]
  induction ns with
  | nil => rfl
  | cons n ns ih =>
    obtain ⟨hn, hns⟩ := List.append_eq_nil_iff.mp h
    exact List.append_eq_nil_iff.mpr ⟨hnode n hn, ih hns⟩

/-- A card takes no more with a shorter link prefix. -/
theorem length_compileCard_le (h : BaseLe b1 b2) (title : Bytes) (blocks nav : List Node) :
    (compileCard title blocks nav b1).length ≤ (compileCard title blocks nav b2).length := by
  have hblocks := length_compileNodes_le h blocks
  have hnav := length_compileNodes_le h nav
  rw [length_compileCard, length_compileCard]
  by_cases hnil : compileNodes b1 blocks ++ compileNodes b1 nav = []
  · obtain ⟨h1, h2⟩ := List.append_eq_nil_iff.mp hnil
    rw [if_pos hnil, if_pos (by rw [compileNodes_eq_nil b1 b2 h1, compileNodes_eq_nil b1 b2 h2]; rfl)]
  · have hnil' : compileNodes b2 blocks ++ compileNodes b2 nav ≠ [] := fun h0 => hnil (by
      obtain ⟨h1, h2⟩ := List.append_eq_nil_iff.mp h0
      rw [compileNodes_eq_nil b2 b1 h1, compileNodes_eq_nil b2 b1 h2]
      rfl)
    rw [if_neg hnil, if_neg hnil']
    omega

end BoatRudder.Wbxml
