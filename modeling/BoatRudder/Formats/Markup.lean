import BoatRudder.Text.Bytes

/-! # Markup

Text with tags as a list of pieces, how it is written and a strict reader of it. What an escaping
writer wrote reads back piece by piece, so nothing in a text or an attribute can become a tag or end
the attribute. -/

namespace BoatRudder

variable {e name : Bytes} {attrs : List (Bytes × Bytes)} {stack : List Bytes} {b c : UInt8}

/-- A piece of markup. -/
inductive Piece where
  | char (b : UInt8)
  | openTag (name : Bytes) (attrs : List (Bytes × Bytes))
  | closeTag (name : Bytes)
  deriving DecidableEq

/-! ## Splitting -/

/-- Bytes that separate nothing go to the first part. -/
theorem splitOnP_append_of_forall {α : Type} {p : α → Bool} {a : List α}
    (h : ∀ x ∈ a, p x = false) (s : List α) :
    (a ++ s).splitOnP p = (s.splitOnP p).modifyHead (a ++ ·) := by
  induction a with
  | nil =>
    rw [List.nil_append]
    cases s.splitOnP p <;> rfl
  | cons c a ih =>
    rw [List.cons_append, List.splitOnP_cons_eq_if_modifyHead, if_neg (by simp [h c]),
      ih fun x hx => h x (List.mem_cons_of_mem c hx), List.modifyHead_modifyHead]
    rfl

/-- A string has a first part. -/
theorem splitOnP_eq_cons {α : Type} (p : α → Bool) (s : List α) :
    ∃ t ts, s.splitOnP p = t :: ts :=
  List.exists_cons_of_ne_nil (List.splitOnP_ne_nil p s)

/-! ## Escaping -/

/-- The entities, without their ampersand. -/
def entities : List (Bytes × UInt8) :=
  [(lit "amp;", 38), (lit "lt;", 60), (lit "gt;", 62), (lit "quot;", 34), (lit "#39;", 39)]

/-- What follows an ampersand, its entity read. -/
def readEntity (s : Bytes) : Option Bytes :=
  entities.findSome? fun e => if e.1.isPrefixOf s then some (e.2 :: s.drop e.1.length) else none

/-- A string with its entities undone. -/
def unescape (s : Bytes) : Option Bytes :=
  match s.splitOnP (· == 38) with
  | [] => none
  | first :: rest => (rest.mapM readEntity).map fun l => first ++ l.flatten

/-- Whether a byte has to be escaped. -/
def isSpecial (b : UInt8) : Bool := b == 38 || b == 60 || b == 62 || b == 34

/-- A way of escaping: a byte is written as it stands, or as its entity. -/
def Escaping (esc : UInt8 → Bytes) : Prop :=
  ∀ b, (esc b = [b] ∧ isSpecial b = false) ∨ ∃ e, (e, b) ∈ entities ∧ esc b = 38 :: e

/-- An entity is read where it stands. -/
theorem readEntity_append (h : (e, b) ∈ entities) (s : Bytes) :
    readEntity (e ++ s) = some (b :: s) := by
  simp only [entities, List.mem_cons, Prod.mk.injEq, List.not_mem_nil, or_false] at h
  rcases h with ⟨rfl, rfl⟩ | ⟨rfl, rfl⟩ | ⟨rfl, rfl⟩ | ⟨rfl, rfl⟩ | ⟨rfl, rfl⟩ <;> rfl

/-- An entity holds nothing that has to be escaped. -/
theorem not_isSpecial_of_mem_entities (h : (e, b) ∈ entities)
    (hc : c ∈ e) : isSpecial c = false := by
  have hall : ∀ e ∈ entities, ∀ c ∈ e.1, isSpecial c = false := by decide
  exact hall (e, b) h c hc

/-- A byte that is no ampersand stands for itself. -/
theorem unescape_cons (h : b ≠ 38) (s : Bytes) : unescape (b :: s) = (unescape s).map (b :: ·) := by
  obtain ⟨t, ts, hs⟩ := splitOnP_eq_cons (· == 38) s
  have hsplit : (b :: s).splitOnP (· == 38) = (b :: t) :: ts := by
    rw [List.splitOnP_cons_eq_if_modifyHead, if_neg (by simpa using h), hs]
    rfl
  rw [unescape, unescape, hsplit, hs]
  simp only [Option.map_map]
  rfl

/-- An entity stands for its byte. -/
theorem unescape_entity (h : (e, b) ∈ entities) (s : Bytes) :
    unescape (38 :: (e ++ s)) = (unescape s).map (b :: ·) := by
  obtain ⟨t, ts, hs⟩ := splitOnP_eq_cons (· == 38) s
  have hno : ∀ c ∈ e, (c == 38) = false := by
    intro c hc
    have := not_isSpecial_of_mem_entities h hc
    simp only [isSpecial, Bool.or_eq_false_iff] at this
    exact this.1.1.1
  have hsplit : (38 :: (e ++ s)).splitOnP (· == 38) = [] :: (e ++ t) :: ts := by
    rw [List.splitOnP_cons_eq_if_modifyHead, splitOnP_append_of_forall hno, hs]
    rfl
  rw [unescape, unescape, hsplit, hs]
  simp only [List.mapM_cons, readEntity_append h]
  cases ts.mapM readEntity <;> rfl

/-- An escaped byte is read as that byte. -/
theorem unescape_esc {esc : UInt8 → Bytes} (hesc : Escaping esc) (b : UInt8) (s : Bytes) :
    unescape (esc b ++ s) = (unescape s).map (b :: ·) := by
  rcases hesc b with ⟨heq, hb⟩ | ⟨e, he, heq⟩
  · rw [heq]
    refine unescape_cons ?_ s
    rintro rfl
    cases hb
  · rw [heq]
    exact unescape_entity he s

/-- **An escaped string reads as the string.** -/
theorem unescape_flatMap {esc : UInt8 → Bytes} (hesc : Escaping esc) (s : Bytes) :
    unescape (s.flatMap esc) = some s := by
  induction s with
  | nil => rfl
  | cons b s ih => rw [List.flatMap_cons, unescape_esc hesc, ih]; rfl

/-- What is escaped has no angle bracket and no quote. -/
theorem ne_of_mem_esc {esc : UInt8 → Bytes} (hesc : Escaping esc) (h : c ∈ esc b) :
    c ≠ 60 ∧ c ≠ 62 ∧ c ≠ 34 := by
  rcases hesc b with ⟨heq, hb⟩ | ⟨e, he, heq⟩
  · rw [heq, List.mem_singleton] at h
    subst h
    simp only [isSpecial, Bool.or_eq_false_iff, beq_eq_false_iff_ne] at hb
    exact ⟨hb.1.1.2, hb.1.2, hb.2⟩
  · rw [heq] at h
    rcases List.mem_cons.mp h with rfl | hc
    · decide
    · have hspecial := not_isSpecial_of_mem_entities he hc
      simp only [isSpecial, Bool.or_eq_false_iff, beq_eq_false_iff_ne] at hspecial
      exact ⟨hspecial.1.1.2, hspecial.1.2, hspecial.2⟩

/-! ## Writing -/

variable (esc : UInt8 → Bytes)

/-- An attribute, with the blank before it. -/
def writeAttr (attr : Bytes × Bytes) : Bytes :=
  32 :: (attr.1 ++ (61 :: 34 :: (attr.2.flatMap esc ++ [34])))

/-- What a piece is written as. -/
def writePiece : Piece → Bytes
  | .char b => esc b
  | .openTag name attrs => 60 :: (name ++ attrs.flatMap (writeAttr esc) ++ [62])
  | .closeTag name => 60 :: (47 :: name ++ [62])

/-- Markup as text. -/
def writeMarkup (ps : List Piece) : Bytes := ps.flatMap (writePiece esc)

@[simp] theorem writeMarkup_nil : writeMarkup esc [] = [] := rfl

@[simp] theorem writeMarkup_cons (p : Piece) (ps : List Piece) :
    writeMarkup esc (p :: ps) = writePiece esc p ++ writeMarkup esc ps := by
  simp [writeMarkup]

@[simp] theorem writeMarkup_append (a b : List Piece) :
    writeMarkup esc (a ++ b) = writeMarkup esc a ++ writeMarkup esc b :=
  List.flatMap_append

/-- A text as pieces. -/
theorem writeMarkup_chars (s : Bytes) : writeMarkup esc (s.map .char) = s.flatMap esc := by
  simp [writeMarkup, List.flatMap_map, writePiece]

/-! ## Reading -/

/-- Whether `s` can name a tag or an attribute: letters, digits and dashes. -/
def isName (s : Bytes) : Bool := s ≠ [] && s.all fun b => isAlnum b || b == 45

/-- A text between tags. -/
def readText (s : Bytes) : Option (List Piece) :=
  if 62 ∈ s then none else (unescape s).map (List.map .char)

/-- The attributes of a tag, its body cut at the quotes. -/
def readAttrs : List Bytes → Option (List (Bytes × Bytes))
  | [[]] => some []
  | key :: value :: rest =>
    let name := (key.drop 1).dropLast
    if key = 32 :: (name ++ [61]) ∧ isName name = true then do
      let v ← unescape value
      let attrs ← readAttrs rest
      some ((name, v) :: attrs)
    else none
  | _ => none

/-- A tag, from what stands between its angle brackets. -/
def readTag (body : Bytes) : Option Piece :=
  if body.head? = some 47 then
    if isName (body.drop 1) then some (.closeTag (body.drop 1)) else none
  else
    let name := body.takeWhile (· ≠ 32)
    if isName name then
      (readAttrs ((body.dropWhile (· ≠ 32)).splitOnP (· == 34))).map (.openTag name)
    else none

/-- A tag and the text after it, the angle bracket before them gone. -/
def readChunk (s : Bytes) : Option (List Piece) :=
  if 62 ∈ s then do
    let tag ← readTag (s.takeWhile (· ≠ 62))
    let text ← readText (afterByte 62 s)
    some (tag :: text)
  else none

/-- Markup read strictly: every angle bracket belongs to a tag, every ampersand to an entity, and every
attribute has its value in quotes. -/
def readMarkup (s : Bytes) : Option (List Piece) :=
  match s.splitOnP (· == 60) with
  | [] => none
  | text :: chunks => do
    let t ← readText text
    let cs ← chunks.mapM readChunk
    some (t ++ cs.flatten)

/-! ## What is written reads back -/

/-- A piece whose names are names. -/
def Piece.Valid : Piece → Prop
  | .char _ => True
  | .openTag name attrs => isName name = true ∧ ∀ a ∈ attrs, isName a.1 = true
  | .closeTag name => isName name = true

variable {esc}

/-- What may stand in a name. -/
theorem ne_of_mem_name (h : isName name = true) (hc : c ∈ name) :
    c ≠ 32 ∧ c ≠ 34 ∧ c ≠ 47 ∧ c ≠ 60 ∧ c ≠ 62 := by
  simp only [isName, Bool.and_eq_true, List.all_eq_true] at h
  have hbyte := h.2 c hc
  unfold isAlnum isAlpha isUpper isLower isDigit at hbyte
  grind

/-- A name is not empty. -/
theorem ne_nil_of_isName (h : isName name = true) : name ≠ [] := by
  simp only [isName, Bool.and_eq_true, decide_eq_true_eq] at h
  exact h.1

/-- The body of a tag goes up to its closing bracket. -/
theorem bodyByte_ne (hesc : Escaping esc) (hname : isName name = true)
    (hattrs : ∀ a ∈ attrs, isName a.1 = true)
    (hc : c ∈ name ++ attrs.flatMap (writeAttr esc)) : c ≠ 60 ∧ c ≠ 62 := by
  rcases List.mem_append.mp hc with hc | hc
  · exact (ne_of_mem_name hname hc).2.2.2
  · obtain ⟨a, ha, hc⟩ := List.mem_flatMap.mp hc
    simp only [writeAttr, List.mem_cons, List.mem_append, List.not_mem_nil, or_false] at hc
    rcases hc with rfl | hc | rfl | rfl | hc | rfl
    · decide
    · exact (ne_of_mem_name (hattrs a ha) hc).2.2.2
    · decide
    · decide
    · obtain ⟨b, -, hc⟩ := List.mem_flatMap.mp hc
      exact ⟨(ne_of_mem_esc hesc hc).1, (ne_of_mem_esc hesc hc).2.1⟩
    · decide

/-- Attributes read back. -/
theorem readAttrs_write (hesc : Escaping esc) (attrs : List (Bytes × Bytes))
    (hattrs : ∀ a ∈ attrs, isName a.1 = true) :
    readAttrs ((attrs.flatMap (writeAttr esc)).splitOnP (· == 34)) = some attrs := by
  induction attrs with
  | nil => rfl
  | cons a attrs ih =>
    obtain ⟨name, value⟩ := a
    have hname : isName name = true := hattrs (name, value) (by simp)
    have hkey : ∀ c ∈ 32 :: (name ++ [61]), (c == 34) = false := by
      intro c hc
      simp only [List.mem_cons, List.mem_append, List.not_mem_nil, or_false] at hc
      rcases hc with rfl | hc | rfl
      · rfl
      · simpa using (ne_of_mem_name hname hc).2.1
      · rfl
    have hvalue : ∀ c ∈ value.flatMap esc, (c == 34) = false := by
      intro c hc
      obtain ⟨b, -, hc⟩ := List.mem_flatMap.mp hc
      simpa using (ne_of_mem_esc hesc hc).2.2
    -- the key up to the first quote, the value up to the second
    have hwrite : writeAttr esc (name, value) ++ attrs.flatMap (writeAttr esc) =
        (32 :: (name ++ [61])) ++ 34 :: (value.flatMap esc ++
          34 :: attrs.flatMap (writeAttr esc)) := by
      simp [writeAttr]
    rw [List.flatMap_cons, hwrite, List.splitOnP_append_cons _ _ (by rfl),
      List.splitOnP_append_cons _ _ (by rfl), List.splitOnP_eq_singleton hkey,
      List.splitOnP_eq_singleton hvalue, List.singleton_append, List.singleton_append, readAttrs,
      if_pos ⟨by simp, by simpa using hname⟩, unescape_flatMap hesc,
      ih fun a ha => hattrs a (List.mem_cons_of_mem _ ha)]
    simp

/-- A tag reads back. -/
theorem readTag_openTag (hesc : Escaping esc)
    (hname : isName name = true) (hattrs : ∀ a ∈ attrs, isName a.1 = true) :
    readTag (name ++ attrs.flatMap (writeAttr esc)) = some (.openTag name attrs) := by
  obtain ⟨c, rest, rfl⟩ := List.exists_cons_of_ne_nil (ne_nil_of_isName hname)
  have hslash : c ≠ 47 := (ne_of_mem_name hname (by simp)).2.2.1
  have hall : ∀ b ∈ c :: rest, (decide (b ≠ 32)) = true := by
    intro b hb
    simpa using (ne_of_mem_name hname hb).1
  have htail : (attrs.flatMap (writeAttr esc)).takeWhile (· ≠ 32) = [] ∧
      (attrs.flatMap (writeAttr esc)).dropWhile (· ≠ 32) = attrs.flatMap (writeAttr esc) := by
    cases attrs with
    | nil => exact ⟨rfl, rfl⟩
    | cons a attrs => simp [writeAttr]
  rw [readTag, if_neg (by simpa using hslash), List.takeWhile_append_of_pos hall,
    List.dropWhile_append_of_pos hall, htail.1, htail.2, List.append_nil, if_pos hname,
    readAttrs_write hesc attrs hattrs]
  rfl

theorem readTag_closeTag (hname : isName name = true) :
    readTag (47 :: name) = some (.closeTag name) := by
  simp [readTag, hname]

/-- A text starts with what is written of a byte. -/
theorem readText_esc (hesc : Escaping esc) (b : UInt8) (s : Bytes) :
    readText (esc b ++ s) = (readText s).map (.char b :: ·) := by
  have hno : 62 ∉ esc b := fun h => (ne_of_mem_esc hesc h).2.1 rfl
  have hiff : 62 ∈ esc b ++ s ↔ 62 ∈ s := by simp [hno]
  rw [readText, readText]
  by_cases h : 62 ∈ s
  · rw [if_pos h, if_pos (hiff.mpr h)]
    rfl
  · rw [if_neg h, if_neg fun h' => h (hiff.mp h'), unescape_esc hesc]
    simp only [Option.map_map]
    rfl

/-- A byte reads back. -/
theorem readMarkup_esc (hesc : Escaping esc) (b : UInt8) (s : Bytes) :
    readMarkup (esc b ++ s) = (readMarkup s).map (.char b :: ·) := by
  obtain ⟨t, ts, hs⟩ := splitOnP_eq_cons (· == 60) s
  have hno : ∀ c ∈ esc b, (c == 60) = false := fun c hc => by
    simpa using (ne_of_mem_esc hesc hc).1
  rw [readMarkup, readMarkup, splitOnP_append_of_forall hno, hs]
  simp only [List.modifyHead_cons, readText_esc hesc]
  cases readText t <;> cases ts.mapM readChunk <;> rfl

/-- A tag reads back, from its body. -/
theorem readMarkup_tag {body : Bytes} {tag : Piece} (hbody : ∀ c ∈ body, c ≠ 60 ∧ c ≠ 62)
    (htag : readTag body = some tag) (s : Bytes) :
    readMarkup (60 :: (body ++ 62 :: s)) = (readMarkup s).map (tag :: ·) := by
  obtain ⟨t, ts, hs⟩ := splitOnP_eq_cons (· == 60) s
  have hno : ∀ c ∈ body ++ [62], (c == 60) = false := by
    intro c hc
    rcases List.mem_append.mp hc with hc | hc
    · simpa using (hbody c hc).1
    · rw [List.mem_singleton.mp hc]
      rfl
  have hsplit : (60 :: (body ++ 62 :: s)).splitOnP (· == 60) = [] :: (body ++ 62 :: t) :: ts := by
    have happ : body ++ 62 :: s = (body ++ [62]) ++ s := by simp
    rw [List.splitOnP_cons_eq_if_modifyHead, happ, splitOnP_append_of_forall hno, hs]
    simp
  have h62 : 62 ∉ body := fun h => (hbody 62 h).2 rfl
  have hchunk : readChunk (body ++ 62 :: t) = (readText t).map (tag :: ·) := by
    rw [readChunk, if_pos (by simp), takeWhile_ne_append h62, afterByte_append h62, htag]
    cases readText t <;> rfl
  have hnil : readText [] = some [] := rfl
  rw [readMarkup, readMarkup, hsplit, hs]
  simp only [List.mapM_cons, hchunk, hnil]
  cases readText t <;> cases ts.mapM readChunk <;> rfl

/-- **What an escaping writer wrote reads back**, piece by piece. -/
theorem readMarkup_writeMarkup (hesc : Escaping esc) {ps : List Piece} (h : ∀ p ∈ ps, p.Valid) :
    readMarkup (writeMarkup esc ps) = some ps := by
  induction ps with
  | nil => rfl
  | cons p ps ih =>
    have ih := ih fun q hq => h q (List.mem_cons_of_mem p hq)
    have hp : p.Valid := h p (by simp)
    rw [writeMarkup_cons]
    cases p with
    | char b => rw [writePiece, readMarkup_esc hesc, ih]; rfl
    | openTag name attrs =>
      have hwrite : writePiece esc (.openTag name attrs) ++ writeMarkup esc ps =
          60 :: ((name ++ attrs.flatMap (writeAttr esc)) ++ 62 :: writeMarkup esc ps) := by
        simp [writePiece]
      rw [hwrite, readMarkup_tag (fun c hc => bodyByte_ne hesc hp.1 hp.2 hc)
        (readTag_openTag hesc hp.1 hp.2), ih]
      rfl
    | closeTag name =>
      have hbody : ∀ c ∈ 47 :: name, c ≠ 60 ∧ c ≠ 62 := by
        intro c hc
        rcases List.mem_cons.mp hc with rfl | hc
        · decide
        · exact (ne_of_mem_name hp hc).2.2.2
      have hwrite : writePiece esc (.closeTag name) ++ writeMarkup esc ps =
          60 :: ((47 :: name) ++ 62 :: writeMarkup esc ps) := by
        simp [writePiece]
      rw [hwrite, readMarkup_tag hbody (readTag_closeTag hp), ih]
      rfl

/-! ## Nesting -/

/-- Which elements and which text may stand where, the open elements being given from the innermost
outwards. -/
structure Schema where
  element : List Bytes → Bytes → List (Bytes × Bytes) → Bool
  text : List Bytes → UInt8 → Bool

/-- The open elements after a piece; nothing where it may not stand. -/
def Schema.step (S : Schema) (stack : List Bytes) : Piece → Option (List Bytes)
  | .char b => if S.text stack b then some stack else none
  | .openTag name attrs => if S.element stack name attrs then some (name :: stack) else none
  | .closeTag name =>
    match stack with
    | [] => none
    | top :: stack => if top = name then some stack else none

/-- The open elements after a list of pieces. -/
def Schema.run (S : Schema) (stack : List Bytes) : List Piece → Option (List Bytes)
  | [] => some stack
  | p :: ps => (S.step stack p).bind fun stack => S.run stack ps

/-- Pieces one after the other. -/
theorem Schema.run_append (S : Schema) (stack : List Bytes) (a b : List Piece) :
    S.run stack (a ++ b) = (S.run stack a).bind fun stack => S.run stack b := by
  induction a generalizing stack with
  | nil => rfl
  | cons p a ih =>
    rw [List.cons_append, Schema.run, Schema.run]
    cases S.step stack p with
    | none => rfl
    | some stack => exact ih stack

variable {S : Schema}

/-- Pieces that leave the open elements as they are, and others after them. -/
theorem Schema.run_append_of_run {stack' : List Bytes} {a : List Piece}
    (h : S.run stack a = some stack') (b : List Piece) : S.run stack (a ++ b) = S.run stack' b := by
  rw [Schema.run_append, h]
  rfl

/-- A text leaves the open elements as they are. -/
theorem Schema.run_chars {s : Bytes}
    (h : ∀ b ∈ s, S.text stack b = true) : S.run stack (s.map .char) = some stack := by
  induction s with
  | nil => rfl
  | cons b s ih =>
    rw [List.map_cons, Schema.run, Schema.step, if_pos (h b (by simp))]
    exact ih fun c hc => h c (List.mem_cons_of_mem b hc)

/-- An element leaves the open elements as they are when what is in it does. -/
theorem Schema.run_element {ps : List Piece} (h : S.element stack name attrs = true)
    (hps : S.run (name :: stack) ps = some (name :: stack)) :
    S.run stack (.openTag name attrs :: (ps ++ [.closeTag name])) = some stack := by
  rw [Schema.run, Schema.step, if_pos h, Option.bind_some, Schema.run_append_of_run hps]
  simp [Schema.run, Schema.step]

/-- Balanced markup that follows a schema. -/
def Schema.WellNested (S : Schema) (ps : List Piece) : Prop := S.run [] ps = some []

instance (S : Schema) (ps : List Piece) : Decidable (S.WellNested ps) :=
  inferInstanceAs (Decidable (_ = _))

/-- The text of markup, its tags stripped. -/
def textOf (ps : List Piece) : Bytes :=
  ps.filterMap fun
    | .char b => some b
    | _ => none

@[simp] theorem textOf_append (a b : List Piece) : textOf (a ++ b) = textOf a ++ textOf b :=
  List.filterMap_append

@[simp] theorem textOf_chars (s : Bytes) : textOf (s.map .char) = s := by
  induction s with
  | nil => rfl
  | cons b s ih =>
    rw [List.map_cons, textOf, List.filterMap_cons]
    exact congrArg _ ih

end BoatRudder
