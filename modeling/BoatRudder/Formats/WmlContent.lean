import BoatRudder.Formats.Markup
import BoatRudder.Formats.MessageHead

/-! # Content of a WML element

What may stand in an element of a WML deck, read as strictly as a browser of its time does: a tag
has its attributes in quotes and each element is closed, an ampersand begins a reference, and a
dollar sign, which begins a variable, stands for itself only when it is doubled. References stay as
they are written. -/

namespace BoatRudder

/-! ## Characters -/

/-- A byte that a character of a document may have. -/
def isXmlByte (b : UInt8) : Bool := b == 9 || b == 10 || b == 13 || 32 ≤ b

/-- The number of a character, decimal or hexadecimal. -/
def isCharNumber (s : Bytes) : Bool :=
  if s.head? = some 120 then s.drop 1 ≠ [] && (s.drop 1).all isXDigit else s ≠ [] && s.all isDigit

/-- What may stand between the ampersand and the semicolon of a reference: the name of an entity, or
the number of a character. -/
def isReferenceBody (s : Bytes) : Bool :=
  if s.head? = some 35 then isCharNumber (s.drop 1)
  else (s.head?.any isAlpha) && s.all fun b => isAlnum b || b == 45 || b == 46 || b == 95

/-- Whether what follows an ampersand is the rest of a reference. -/
def beginsReference (s : Bytes) : Bool := 59 ∈ s && isReferenceBody (s.takeWhile (· ≠ 59))

/-- Whether a text may stand in a document: no control characters, every ampersand begins a reference,
and no `]]>`. -/
def isCharData : Bytes → Bool
  | [] => true
  | b :: s =>
    isXmlByte b && (b != 38 || beginsReference s) && !(lit "]]>").isPrefixOf (b :: s) && isCharData s

/-- A text with its dollar signs doubled. -/
def doubled (s : Bytes) : Bytes := s.flatMap fun b => if b = 36 then [36, 36] else [b]

/-- A text with its doubled dollar signs undone; nothing when a single one is left. -/
def undouble : Bytes → Option Bytes
  | [] => some []
  | [b] => if b = 36 then none else some [b]
  | b :: c :: s =>
    if b = 36 then if c = 36 then (undouble s).map (36 :: ·) else none
    else (undouble (c :: s)).map (b :: ·)

/-- A text, or the value of an attribute. -/
def readChars (s : Bytes) : Option Bytes := if isCharData s then undouble s else none

/-! ## Tags -/

/-- The attributes of a tag, its body cut at the quotes. -/
def readAttributes : List Bytes → Option (List (Bytes × Bytes))
  | [[]] => some []
  | key :: value :: rest =>
    let name := (key.drop 1).dropLast
    if key = 32 :: (name ++ [61]) ∧ isName name = true then do
      let v ← readChars value
      let attrs ← readAttributes rest
      some ((name, v) :: attrs)
    else none
  | _ => none

/-- The name and the attributes of a start tag. -/
def readStart (body : Bytes) : Option (Bytes × List (Bytes × Bytes)) :=
  let name := body.takeWhile (· ≠ 32)
  if isName name then
    (readAttributes ((body.dropWhile (· ≠ 32)).splitOnP (· == 34))).map fun attrs => (name, attrs)
  else none

/-- A tag, from what stands between its angle brackets; the tag of an empty element is both of its
tags. -/
def readElement (body : Bytes) : Option (List Piece) :=
  if body.head? = some 47 then
    if isName (body.drop 1) then some [.closeTag (body.drop 1)] else none
  else if body.getLast? = some 47 then
    (readStart body.dropLast).map fun t => [.openTag t.1 t.2, .closeTag t.1]
  else (readStart body).map fun t => [.openTag t.1 t.2]

/-- A tag and the text after it, the angle bracket before them gone. -/
def readContentChunk (s : Bytes) : Option (List Piece) :=
  if 62 ∈ s then do
    let tag ← readElement (s.takeWhile (· ≠ 62))
    let text ← readChars (afterByte 62 s)
    some (tag ++ text.map .char)
  else none

/-- Content read strictly. -/
def readContent (s : Bytes) : Option (List Piece) :=
  match s.splitOnP (· == 60) with
  | [] => none
  | text :: chunks => do
    let t ← readChars text
    let cs ← chunks.mapM readContentChunk
    some (t.map .char ++ cs.flatten)

/-! ## Doubled dollar signs -/

@[simp] theorem doubled_nil : doubled [] = [] := rfl

theorem doubled_cons (b : UInt8) (s : Bytes) :
    doubled (b :: s) = (if b = 36 then [36, 36] else [b]) ++ doubled s := by
  rw [doubled, List.flatMap_cons]
  rfl

@[simp] theorem doubled_append (a b : Bytes) : doubled (a ++ b) = doubled a ++ doubled b :=
  List.flatMap_append

/-- Doubling brings no other bytes. -/
@[simp] theorem mem_doubled {b : UInt8} {s : Bytes} : b ∈ doubled s ↔ b ∈ s := by
  induction s with
  | nil => simp
  | cons c s ih =>
    rw [doubled_cons, List.mem_append, List.mem_cons, ih]
    split_ifs with hc <;> simp [hc]

@[simp] theorem doubled_eq_nil {s : Bytes} : doubled s = [] ↔ s = [] := by
  cases s with
  | nil => simp
  | cons c s =>
    rw [doubled_cons]
    split_ifs <;> simp

/-- A text without a dollar sign is left alone. -/
theorem doubled_of_notMem {s : Bytes} (h : 36 ∉ s) : doubled s = s := by
  induction s with
  | nil => rfl
  | cons c s ih =>
    obtain ⟨hc, hs⟩ := not_or.mp (fun hmem => h (List.mem_cons.mpr hmem))
    rw [doubled_cons, if_neg (Ne.symm hc), ih hs]
    rfl

/-- What is doubled is read back. -/
@[simp] theorem undouble_doubled (s : Bytes) : undouble (doubled s) = some s := by
  induction s with
  | nil => rfl
  | cons c s ih =>
    rw [doubled_cons]
    split_ifs with hc
    · subst hc
      show (if (36 : UInt8) = 36 then if (36 : UInt8) = 36 then (undouble (doubled s)).map (36 :: ·)
        else none else _) = _
      rw [if_pos rfl, if_pos rfl, ih]
      rfl
    · cases hs : doubled s with
      | nil =>
        obtain rfl := doubled_eq_nil.mp hs
        simp [undouble, hc]
      | cons d t =>
        show (if c = 36 then _ else (undouble (d :: t)).map (c :: ·)) = _
        rw [if_neg hc, ← hs, ih]
        rfl

/-- Nothing but a text with its dollar signs doubled is undone. -/
theorem undouble_eq_some {s u : Bytes} (h : undouble s = some u) : s = doubled u := by
  fun_induction undouble s generalizing u with
  | case1 => cases h; rfl
  | case2 => cases h
  | case3 b hb =>
    cases h
    rw [doubled_cons, if_neg hb]
    rfl
  | case4 s ih =>
    obtain ⟨v, hv, rfl⟩ := Option.map_eq_some_iff.mp h
    rw [doubled_cons, if_pos rfl, ih hv]
    rfl
  | case5 => cases h
  | case6 b c s hb ih =>
    obtain ⟨v, hv, rfl⟩ := Option.map_eq_some_iff.mp h
    rw [doubled_cons, if_neg hb, ← ih hv]
    rfl

/-- What holds no dollar sign begins a text with its dollar signs doubled if it begins the text. -/
theorem prefix_doubled_iff {p : Bytes} (hp : 36 ∉ p) (s : Bytes) :
    p <+: doubled s ↔ p <+: s := by
  induction p generalizing s with
  | nil => simp
  | cons d p ih =>
    obtain ⟨hd, hp⟩ := not_or.mp (fun hmem => hp (List.mem_cons.mpr hmem))
    cases s with
    | nil => simp
    | cons c s =>
      rw [doubled_cons]
      split_ifs with hc
      · subst hc
        simp [Ne.symm hd]
      · rw [List.singleton_append, List.cons_prefix_cons, List.cons_prefix_cons, ih hp]

/-- What stands in front of a semicolon is doubled by itself. -/
theorem takeWhile_doubled (s : Bytes) :
    (doubled s).takeWhile (· ≠ 59) = doubled (s.takeWhile (· ≠ 59)) := by
  induction s with
  | nil => rfl
  | cons c s ih =>
    by_cases h59 : c = 59
    · subst h59
      simp [doubled_cons]
    · rw [List.takeWhile_cons_of_pos (by simpa using h59), doubled_cons, doubled_cons]
      split_ifs with hc
      · simpa using ih
      · simpa [h59] using ih

/-- A reference holds no dollar sign. -/
theorem notMem_of_isReferenceBody {s : Bytes} (h : isReferenceBody s = true) : 36 ∉ s := by
  have hno : isDigit 36 = false ∧ isXDigit 36 = false ∧ isAlnum 36 = false := by decide
  -- a first byte that is none leaves the others
  have htail : ∀ {c : UInt8} {t : Bytes}, t.head? = some c → c ≠ 36 → 36 ∉ t.drop 1 → 36 ∉ t := by
    intro c t hc hne hnot
    cases t with
    | nil => cases hc
    | cons d t =>
      obtain rfl : d = c := by simpa using hc
      simpa [Ne.symm hne] using hnot
  rw [isReferenceBody] at h
  split_ifs at h with hnumber
  · refine htail hnumber (by decide) ?_
    rw [isCharNumber] at h
    split_ifs at h with hhex
    · refine htail hhex (by decide) fun hmem => ?_
      simp only [Bool.and_eq_true, List.all_eq_true] at h
      simpa [hno] using h.2 _ hmem
    · intro hmem
      simp only [Bool.and_eq_true, List.all_eq_true] at h
      simpa [hno] using h.2 _ hmem
  · intro hmem
    simp only [Bool.and_eq_true, List.all_eq_true] at h
    simpa [hno] using h.2 _ hmem

/-- Doubling makes no reference and breaks none. -/
@[simp] theorem isReferenceBody_doubled (s : Bytes) : isReferenceBody (doubled s) = isReferenceBody s := by
  by_cases hs : 36 ∈ s
  · have hfalse : ∀ t : Bytes, 36 ∈ t → isReferenceBody t = false := fun t ht => by
      by_contra h
      exact notMem_of_isReferenceBody (by simpa using h) ht
    rw [hfalse s hs, hfalse _ (mem_doubled.mpr hs)]
  · rw [doubled_of_notMem hs]

@[simp] theorem beginsReference_doubled (s : Bytes) : beginsReference (doubled s) = beginsReference s := by
  rw [beginsReference, beginsReference, takeWhile_doubled, isReferenceBody_doubled]
  simp

@[simp] theorem isCharData_doubled (s : Bytes) : isCharData (doubled s) = isCharData s := by
  have hprefix : ∀ t : Bytes, (lit "]]>").isPrefixOf (doubled t) = (lit "]]>").isPrefixOf t := fun t => by
    rw [Bool.eq_iff_iff, List.isPrefixOf_iff_prefix, List.isPrefixOf_iff_prefix]
    exact prefix_doubled_iff (by decide) t
  induction s with
  | nil => rfl
  | cons c s ih =>
    by_cases hc : c = 36
    · subst hc
      have hdollar : doubled (36 :: s) = 36 :: 36 :: doubled s := rfl
      have hno : ∀ t : Bytes, (lit "]]>").isPrefixOf (36 :: t) = false := fun t => rfl
      rw [hdollar, isCharData, isCharData, isCharData, hno, hno, hno, ih]
      simp [isXmlByte]
    · have hkept : doubled (c :: s) = c :: doubled s := by
        rw [doubled_cons, if_neg hc]
        rfl
      rw [hkept, isCharData, isCharData, ih, beginsReference_doubled, ← hkept, hprefix]

/-- A text that is written with its dollar signs doubled. -/
theorem readChars_doubled (s : Bytes) :
    readChars (doubled s) = if isCharData s then some s else none := by
  rw [readChars, isCharData_doubled, undouble_doubled]

/-! ## Tags with raw attributes -/

/-- An attribute written with its value as it stands. -/
def rawAttr (a : Bytes × Bytes) : Bytes := 32 :: (a.1 ++ (61 :: 34 :: (a.2 ++ [34])))

/-- The pieces between the quotes give one attribute for two. -/
theorem length_of_readAttributes : ∀ {parts : List Bytes} {attrs : List (Bytes × Bytes)},
    readAttributes parts = some attrs → parts.length = 2 * attrs.length + 1
  | [], _, h => by cases h
  | [[]], _, h => by cases h; rfl
  | [_ :: _], _, h => by cases h
  | key :: value :: rest, attrs, h => by
      rw [readAttributes] at h
      split_ifs at h
      simp only [Option.bind_eq_bind, Option.bind_eq_some_iff] at h
      obtain ⟨v, -, attrs', hattrs, heq⟩ := h
      cases heq
      have := length_of_readAttributes hattrs
      simp only [List.length_cons]
      omega

/-- Attributes that are written as they are are read one by one. -/
theorem readAttributes_raw {attrs : List (Bytes × Bytes)} (hname : ∀ a ∈ attrs, isName a.1 = true)
    (hvalue : ∀ a ∈ attrs, 34 ∉ a.2) :
    readAttributes ((attrs.flatMap rawAttr).splitOnP (· == 34)) =
      attrs.mapM fun a => (readChars a.2).map fun v => (a.1, v) := by
  induction attrs with
  | nil => rfl
  | cons a attrs ih =>
    obtain ⟨key, value⟩ := a
    have hkey : isName key = true := hname (key, value) List.mem_cons_self
    have hkey34 : ∀ c ∈ 32 :: (key ++ [61]), (c == 34) = false := by
      intro c hc
      simp only [List.mem_cons, List.mem_append, List.not_mem_nil, or_false] at hc
      rcases hc with rfl | hc | rfl
      · rfl
      · simpa using (ne_of_mem_name hkey hc).2.1
      · rfl
    have hvalue34 : ∀ c ∈ value, (c == 34) = false := fun c hc => by
      simpa using ne_of_mem_of_not_mem hc (hvalue (key, value) List.mem_cons_self)
    -- the key up to the first quote, the value up to the second
    have hraw : rawAttr (key, value) ++ attrs.flatMap rawAttr =
        (32 :: (key ++ [61])) ++ 34 :: (value ++ 34 :: attrs.flatMap rawAttr) := by
      simp [rawAttr]
    rw [List.flatMap_cons, hraw, List.splitOnP_append_cons _ _ (by rfl),
      List.splitOnP_append_cons _ _ (by rfl), List.splitOnP_eq_singleton hkey34,
      List.splitOnP_eq_singleton hvalue34, List.singleton_append, List.singleton_append, readAttributes,
      if_pos ⟨by simp, by simpa using hkey⟩,
      ih (fun a ha => hname a (List.mem_cons_of_mem _ ha)) fun a ha => hvalue a (List.mem_cons_of_mem _ ha),
      List.mapM_cons]
    cases readChars value <;> simp

/-- The start of a tag that is written as it is is read back. -/
theorem readStart_raw {name : Bytes} (h : isName name = true) (attrs : List (Bytes × Bytes)) :
    readStart (name ++ attrs.flatMap rawAttr) =
      (readAttributes ((attrs.flatMap rawAttr).splitOnP (· == 34))).map fun as => (name, as) := by
  have hall : ∀ b ∈ name, (decide (b ≠ 32)) = true := fun b hb => by simpa using (ne_of_mem_name h hb).1
  have htail : (attrs.flatMap rawAttr).takeWhile (· ≠ 32) = [] ∧
      (attrs.flatMap rawAttr).dropWhile (· ≠ 32) = attrs.flatMap rawAttr := by
    cases attrs with
    | nil => exact ⟨rfl, rfl⟩
    | cons a attrs => simp [rawAttr]
  rw [readStart, List.takeWhile_append_of_pos hall, List.dropWhile_append_of_pos hall, htail.1, htail.2,
    List.append_nil, if_pos h]

/-- A quote in a value makes attributes of what follows it. -/
theorem length_of_readStart_raw {name : Bytes} (h : isName name = true) {attrs as : List (Bytes × Bytes)}
    {n : Bytes} (hread : readStart (name ++ attrs.flatMap rawAttr) = some (n, as))
    (hvalue : ∃ a ∈ attrs, 34 ∈ a.2) : n = name ∧ attrs.length < as.length := by
  rw [readStart_raw h] at hread
  obtain ⟨as', has, heq⟩ := Option.map_eq_some_iff.mp hread
  cases heq
  refine ⟨rfl, ?_⟩
  have hlen := length_of_readAttributes has
  rw [length_splitOnP] at hlen
  -- every attribute brings two quotes, and one of them a third
  have hcount : ∀ bs : List (Bytes × Bytes), 2 * bs.length ≤ (bs.flatMap rawAttr).countP (· == 34) ∧
      ((∃ a ∈ bs, 34 ∈ a.2) → 2 * bs.length < (bs.flatMap rawAttr).countP (· == 34)) := by
    intro bs
    induction bs with
    | nil => simp
    | cons b bs ih =>
      have hb : (rawAttr b).countP (· == 34) = b.1.countP (· == 34) + (b.2.countP (· == 34) + 2) := by
        simp [rawAttr, List.countP_append]
      rw [List.flatMap_cons, List.countP_append, hb, List.length_cons]
      refine ⟨by omega, ?_⟩
      rintro ⟨a, ha, hquote⟩
      rcases List.mem_cons.mp ha with rfl | ha
      · have hpos : 0 < a.2.countP (· == 34) := List.countP_pos_iff.mpr ⟨34, hquote, rfl⟩
        omega
      · have := ih.2 ⟨a, ha, hquote⟩
        omega
  have := (hcount attrs).2 hvalue
  omega

/-! ## Content piece by piece -/

/-- Content without a tag is its characters. -/
theorem readContent_text {t : Bytes} (ht : 60 ∉ t) :
    readContent t = (readChars t).map (·.map .char) := by
  have hno : ∀ c ∈ t, (c == 60) = false := fun c hc => by simpa using ne_of_mem_of_not_mem hc ht
  rw [readContent, List.splitOnP_eq_singleton hno]
  cases h : readChars t with
  | none => simp [h]
  | some u => simp [h]

/-- A text, a tag, and what follows. -/
theorem readContent_tag {t body : Bytes} (ht : 60 ∉ t)
    (hbody : 60 ∉ body ∧ 62 ∉ body) (s : Bytes) :
    readContent (t ++ 60 :: (body ++ 62 :: s)) = (readChars t).bind fun t =>
      (readElement body).bind fun tag => (readContent s).map fun rest => t.map .char ++ (tag ++ rest) := by
  obtain ⟨u, us, hs⟩ := splitOnP_eq_cons (· == 60) s
  have hno : ∀ c ∈ t, (c == 60) = false := fun c hc => by simpa using ne_of_mem_of_not_mem hc ht
  have hno' : ∀ c ∈ body ++ [62], (c == 60) = false := by
    intro c hc
    rcases List.mem_append.mp hc with hc | hc
    · simpa using ne_of_mem_of_not_mem hc hbody.1
    · rw [List.mem_singleton.mp hc]
      rfl
  have hsplit : (t ++ 60 :: (body ++ 62 :: s)).splitOnP (· == 60) = t :: (body ++ 62 :: u) :: us := by
    have happ : body ++ 62 :: s = (body ++ [62]) ++ s := by simp
    rw [List.splitOnP_append_cons t _ (by rfl), List.splitOnP_eq_singleton hno, happ,
      splitOnP_append_of_forall hno', hs]
    simp
  have hchunk : readContentChunk (body ++ 62 :: u) =
      (readElement body).bind fun tag => (readChars u).map fun text => tag ++ text.map .char := by
    rw [readContentChunk, if_pos (by simp), takeWhile_ne_append hbody.2, afterByte_append hbody.2]
    cases readElement body <;> cases readChars u <;> rfl
  rw [readContent, readContent, hsplit, hs]
  simp only [List.mapM_cons, hchunk]
  cases readChars t <;> cases readElement body <;> cases readChars u <;>
    cases us.mapM readContentChunk <;> simp

/-- An angle bracket in a tag is not read. -/
theorem readContent_open {t body : Bytes} (ht : 60 ∉ t)
    (hbody : 60 ∉ body ∧ 62 ∉ body) (s : Bytes) :
    readContent (t ++ 60 :: (body ++ 60 :: s)) = none := by
  have hno : ∀ u : Bytes, 60 ∉ u → ∀ c ∈ u, (c == 60) = false := fun u hu c hc => by
    simpa using ne_of_mem_of_not_mem hc hu
  have hchunk : readContentChunk body = none := if_neg hbody.2
  rw [readContent, List.splitOnP_append_cons t _ (by rfl), List.splitOnP_append_cons body _ (by rfl),
    List.splitOnP_eq_singleton (hno t ht), List.splitOnP_eq_singleton (hno body hbody.1)]
  simp only [List.singleton_append, List.mapM_cons, hchunk]
  cases readChars t <;> rfl

end BoatRudder
