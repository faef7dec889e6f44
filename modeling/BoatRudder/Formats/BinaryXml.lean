import BoatRudder.Formats.Tree

/-! # Reading WBXML

A reader of WBXML 1.1 bodies over any application's token tables: elements whose tag says by two
bits whether attributes and content follow, attribute start tokens with value prefixes, inline
strings and the three extension tokens that carry the name of a variable. Adjacent strings are read
as one. The lemmas say what the reader does at each kind of token, whatever follows it. -/

namespace BoatRudder.BinaryXml

/-! ## Strings with variables -/

/-- How a variable's value is to be converted: `EXT_I_0`, `EXT_I_1` and `EXT_I_2`. -/
inductive Conversion where
  | escape
  | unesc
  | noesc
  deriving DecidableEq

/-- A piece of a string: literal bytes, or a reference to a variable. -/
inductive Piece where
  | lit (s : Bytes)
  | var (conv : Conversion) (name : Bytes)
  deriving DecidableEq

/-- One more piece of a string: adjacent literals are one, an empty one is none. -/
def snocPiece (ps : List Piece) : Piece → List Piece
  | .lit s =>
    match ps.getLast? with
    | some (.lit r) => ps.dropLast ++ [.lit (r ++ s)]
    | _ => if s = [] then ps else ps ++ [.lit s]
  | .var conv name => ps ++ [.var conv name]

/-- A string read piece by piece. -/
def joinPieces (ps : List Piece) : List Piece := ps.foldl snocPiece []

@[simp] theorem snocPiece_lit_nil (ps : List Piece) : snocPiece ps (.lit []) = ps := by
  rcases List.eq_nil_or_concat ps with rfl | ⟨init, p, rfl⟩
  · simp [snocPiece]
  · cases p <;> simp [snocPiece]

/-- Two literals in a row are their concatenation. -/
theorem snocPiece_lit_lit (ps : List Piece) (a b : Bytes) :
    snocPiece (snocPiece ps (.lit a)) (.lit b) = snocPiece ps (.lit (a ++ b)) := by
  rcases List.eq_nil_or_concat ps with rfl | ⟨init, p, rfl⟩
  · by_cases ha : a = []
    · simp [ha]
    · simp [snocPiece, ha]
  · cases p with
    | lit s => simp [snocPiece]
    | var conv name =>
      by_cases ha : a = []
      · simp [ha]
      · simp [snocPiece, ha]

/-! ## Content -/

/-- What a body decodes to: texts are strings with variables. -/
abbrev Decoded := Tree (List Piece)

/-- One more piece of text at the end of a list of siblings. -/
def snocText (acc : List Decoded) (p : Piece) : List Decoded :=
  match acc.getLast? with
  | some (.text ps) => acc.dropLast ++ [.text (snocPiece ps p)]
  | _ => if p = .lit [] then acc else acc ++ [.text (snocPiece [] p)]

@[simp] theorem snocText_lit_nil (acc : List Decoded) : snocText acc (.lit []) = acc := by
  rcases List.eq_nil_or_concat acc with rfl | ⟨init, n, rfl⟩
  · simp [snocText]
  · cases n <;> simp [snocText]

/-- Two literals in a row are their concatenation. -/
theorem snocText_lit_lit (acc : List Decoded) (a b : Bytes) :
    snocText (snocText acc (.lit a)) (.lit b) = snocText acc (.lit (a ++ b)) := by
  by_cases ha : a = []
  · simp [ha]
  · rcases List.eq_nil_or_concat acc with rfl | ⟨init, n, rfl⟩
    · simp [snocText, ha, snocPiece_lit_lit]
    · cases n <;> simp [snocText, ha, snocPiece_lit_lit]

/-- The token tables of an application: the name of an element code, and the name and value prefix
of an attribute start code. -/
structure Tables where
  /-- The element a tag's low six bits name. -/
  tag : UInt8 → Option Bytes
  /-- The attribute a start code names, and what it already says of its value. -/
  attr : UInt8 → Option (Bytes × Bytes)

/-- A string token: `STR_I` or an extension token, with its inline string. -/
def readPiece : Bytes → Option (Piece × Bytes)
  | [] => none
  | b :: s =>
    if 0 ∉ s then none
    else
      let str := s.takeWhile (· ≠ 0)
      let rest := afterByte 0 s
      if b = 0x03 then some (.lit str, rest)
      else if b = 0x40 then some (.var .escape str, rest)
      else if b = 0x41 then some (.var .unesc str, rest)
      else if b = 0x42 then some (.var .noesc str, rest)
      else none

/-- A string token takes up at least its own byte. -/
theorem length_readPiece_lt {s rest : Bytes} {p : Piece} (h : readPiece s = some (p, rest)) :
    rest.length < s.length := by
  cases s with
  | nil => simp [readPiece] at h
  | cons b s =>
    have hle := length_afterByte_le 0 s
    simp only [readPiece] at h
    split_ifs at h <;> simp only [Option.some.injEq, Prod.mk.injEq] at h <;>
      simp only [← h.2, List.length_cons] <;> omega

/-- The attributes up to their `END`, after those read already. -/
def readAttrs (T : Tables) (attrs : List (Bytes × List Piece)) (s : Bytes) :
    Option (List (Bytes × List Piece) × Bytes) :=
  match s with
  | [] => none
  | b :: s =>
    if b = 0x01 then some (attrs, s)
    else
      match _h : readPiece (b :: s) with
      | some (p, rest) =>
        match attrs.getLast? with
        | some (k, v) => readAttrs T (attrs.dropLast ++ [(k, snocPiece v p)]) rest
        | none => none
      | none =>
        match T.attr b with
        | some (k, v) => readAttrs T (attrs ++ [(k, snocPiece [] (.lit v))]) s
        | none => none
termination_by s.length
decreasing_by
  · exact length_readPiece_lt _h
  · simp

/-- Reading attributes leaves less than there was. -/
theorem length_readAttrs_lt {T : Tables} {attrs as : List (Bytes × List Piece)} {s rest : Bytes}
    (h : readAttrs T attrs s = some (as, rest)) : rest.length < s.length := by
  fun_induction readAttrs T attrs s with
  | case1 => cases h
  | case2 attrs s =>
    simp only [Option.some.injEq, Prod.mk.injEq] at h
    simp [h.2]
  | case3 attrs b s hb p r hp k v hlast ih => exact (ih h).trans (length_readPiece_lt hp)
  | case4 => cases h
  | case5 attrs b s hb hp k v hattr ih =>
    have := ih h
    rw [List.length_cons]
    omega
  | case6 => cases h

/-- An element whose content is being read: its siblings before it, its name and attributes. -/
structure Open where
  /-- The siblings before the element. -/
  before : List Decoded
  /-- The element's name. -/
  name : Bytes
  /-- The element's attributes. -/
  attrs : List (Bytes × List Piece)

/-- What follows a tag: its attributes, if its high bit announces any. -/
def readTagAttrs (T : Tables) (b : UInt8) (s : Bytes) :
    Option (List (Bytes × List Piece) × Bytes) :=
  if b &&& 0x80 = 0 then some ([], s) else readAttrs T [] s

theorem length_readTagAttrs_le {T : Tables} {b : UInt8} {as : List (Bytes × List Piece)}
    {s rest : Bytes} (h : readTagAttrs T b s = some (as, rest)) : rest.length ≤ s.length := by
  unfold readTagAttrs at h
  split_ifs at h
  · simp only [Option.some.injEq, Prod.mk.injEq] at h
    simp [h.2]
  · exact (length_readAttrs_lt h).le

/-- The content of the innermost element of `stack`, `acc` being what was read of it, to the end of
the body. Every `END` closes the innermost element, and none may be left open. -/
def readContent (T : Tables) (stack : List Open) (acc : List Decoded) (s : Bytes) :
    Option (List Decoded) :=
  match s with
  | [] => if stack.isEmpty then some acc else none
  | b :: s =>
    if b = 0x01 then
      match stack with
      | [] => none
      | o :: stack => readContent T stack (o.before ++ [.elem o.name o.attrs acc]) s
    else
      match _h : readPiece (b :: s) with
      | some (p, rest) => readContent T stack (snocText acc p) rest
      | none =>
        match T.tag (b &&& 0x3F) with
        | none => none
        | some name =>
          match _h : readTagAttrs T b s with
          | none => none
          | some (attrs, rest) =>
            if b &&& 0x40 = 0 then readContent T stack (acc ++ [.elem name attrs []]) rest
            else readContent T (⟨acc, name, attrs⟩ :: stack) [] rest
termination_by s.length
decreasing_by
  · simp
  · exact length_readPiece_lt _h
  · have := length_readTagAttrs_le _h
    rw [List.length_cons]; omega
  · have := length_readTagAttrs_le _h
    rw [List.length_cons]; omega

/-- A body: all its bytes, every element closed. -/
def decodeBody (T : Tables) (s : Bytes) : Option (List Decoded) := readContent T [] [] s

/-- A document: version 1.1, the public id of WML 1.1, UTF-8, no string table, then the body. -/
def decodeDocument (T : Tables) : Bytes → Option (List Decoded)
  | 0x01 :: 0x04 :: 0x6A :: 0x00 :: body => decodeBody T body
  | _ => none

/-! ## What the reader does at a token -/

/-- The extension token of a conversion. -/
def Conversion.token : Conversion → UInt8
  | .escape => 0x40
  | .unesc => 0x41
  | .noesc => 0x42

/-- The tokens of a piece: its string inline, after the token that says what it is. -/
def Piece.tokens : Piece → Bytes
  | .lit s => 0x03 :: (s ++ [0])
  | .var conv name => conv.token :: (name ++ [0])

/-- A piece that can stand inline: its string holds no NUL. -/
def Piece.Clean : Piece → Prop
  | .lit s => 0 ∉ s
  | .var _ name => 0 ∉ name

/-- The tokens that are no tag and no attribute start: `END`, `STR_I` and the extension tokens. -/
def isGlobal (b : UInt8) : Bool := [0x01, 0x03, 0x40, 0x41, 0x42].contains b

/-- A piece is read back from its tokens, whatever follows. -/
theorem readPiece_tokens {p : Piece} (h : p.Clean) (rest : Bytes) :
    readPiece (p.tokens ++ rest) = some (p, rest) := by
  cases p with
  | lit s =>
    have h1 : (s ++ 0 :: rest).takeWhile (fun c => !decide (c = 0)) = s := by
      simpa using takeWhile_ne_append h rest
    have h2 := afterByte_append h rest
    simp [Piece.tokens, readPiece, h1, h2]
  | var conv name =>
    have h1 : (name ++ 0 :: rest).takeWhile (fun c => !decide (c = 0)) = name := by
      simpa using takeWhile_ne_append h rest
    have h2 := afterByte_append h rest
    cases conv <;> simp [Piece.tokens, Conversion.token, readPiece, h1, h2]

/-- A piece's tokens do not start with `END`. -/
theorem Piece.tokens_eq (p : Piece) : ∃ b s, p.tokens = b :: s ∧ b ≠ 0x01 := by
  cases p with
  | lit s => exact ⟨_, _, rfl, by decide⟩
  | var conv name => exact ⟨_, _, rfl, by cases conv <;> decide⟩

/-- Nothing but a string token reads as one. -/
theorem readPiece_eq_none {b : UInt8} (h : isGlobal b = false) (s : Bytes) :
    readPiece (b :: s) = none := by
  simp only [isGlobal, List.contains_cons, List.contains_nil, Bool.or_false, Bool.or_eq_false_iff,
    beq_eq_false_iff_ne] at h
  simp only [readPiece, h.2.1, h.2.2.1, h.2.2.2.1, h.2.2.2.2, if_false, ite_self]

section Rules

variable {T : Tables} {stack : List Open} {acc : List Decoded} {attrs : List (Bytes × List Piece)}

/-- `END` after attributes. -/
theorem readAttrs_end (rest : Bytes) : readAttrs T attrs (0x01 :: rest) = some (attrs, rest) := by
  rw [readAttrs, if_pos rfl]

/-- An attribute start. -/
theorem readAttrs_start {b : UInt8} {k v : Bytes} (hb : isGlobal b = false)
    (hT : T.attr b = some (k, v)) (rest : Bytes) :
    readAttrs T attrs (b :: rest) = readAttrs T (attrs ++ [(k, snocPiece [] (.lit v))]) rest := by
  have hend : b ≠ 0x01 := by rintro rfl; simp [isGlobal] at hb
  rw [readAttrs, if_neg hend]
  split
  · next h => rw [readPiece_eq_none hb] at h; cases h
  · rw [hT]

/-- A piece of an attribute's value. -/
theorem readAttrs_piece {p : Piece} (hp : p.Clean) (k : Bytes) (v : List Piece) (rest : Bytes) :
    readAttrs T (attrs ++ [(k, v)]) (p.tokens ++ rest) =
      readAttrs T (attrs ++ [(k, snocPiece v p)]) rest := by
  have hread := readPiece_tokens hp rest
  obtain ⟨b, s, heq, hb⟩ := p.tokens_eq
  rw [heq, List.cons_append] at hread ⊢
  conv_lhs => rw [readAttrs]
  rw [if_neg hb]
  split
  · next p' rest' h =>
      rw [hread] at h
      obtain ⟨rfl, rfl⟩ : p = p' ∧ rest = rest' := by simpa using h
      simp
  · next h => rw [hread] at h; cases h

/-- The pieces of an attribute's value. -/
theorem readAttrs_pieces {ps : List Piece} (hps : ∀ p ∈ ps, p.Clean) (k : Bytes) (v : List Piece)
    (rest : Bytes) :
    readAttrs T (attrs ++ [(k, v)]) (ps.flatMap Piece.tokens ++ rest) =
      readAttrs T (attrs ++ [(k, ps.foldl snocPiece v)]) rest := by
  induction ps generalizing v with
  | nil => rfl
  | cons p ps ih =>
    rw [List.flatMap_cons, List.append_assoc, readAttrs_piece (hps p (by simp)),
      ih (fun q hq => hps q (by simp [hq])), List.foldl_cons]

/-- A body that ends with every element closed. -/
theorem readContent_nil : readContent T [] acc [] = some acc := by
  rw [readContent]; rfl

/-- `END` closes the innermost element. -/
theorem readContent_end (o : Open) (rest : Bytes) :
    readContent T (o :: stack) acc (0x01 :: rest) =
      readContent T stack (o.before ++ [.elem o.name o.attrs acc]) rest := by
  rw [readContent, if_pos rfl]

/-- A piece of text. -/
theorem readContent_piece {p : Piece} (hp : p.Clean) (rest : Bytes) :
    readContent T stack acc (p.tokens ++ rest) = readContent T stack (snocText acc p) rest := by
  have hread := readPiece_tokens hp rest
  obtain ⟨b, s, heq, hb⟩ := p.tokens_eq
  rw [heq, List.cons_append] at hread ⊢
  conv_lhs => rw [readContent.eq_def]
  simp only
  rw [if_neg hb]
  split
  · next p' rest' h =>
      rw [hread] at h
      obtain ⟨rfl, rfl⟩ : p = p' ∧ rest = rest' := by simpa using h
      rfl
  · next h => rw [hread] at h; cases h

/-- The pieces of a text. -/
theorem readContent_pieces {ps : List Piece} (hps : ∀ p ∈ ps, p.Clean) (rest : Bytes) :
    readContent T stack acc (ps.flatMap Piece.tokens ++ rest) =
      readContent T stack (ps.foldl snocText acc) rest := by
  induction ps generalizing acc with
  | nil => rfl
  | cons p ps ih =>
    rw [List.flatMap_cons, List.append_assoc, readContent_piece (hps p (by simp)),
      ih (fun q hq => hps q (by simp [hq])), List.foldl_cons]

/-- A tag: its attributes are read, and its content where it has any. -/
theorem readContent_tag {b : UInt8} {name : Bytes} {as : List (Bytes × List Piece)}
    {s rest : Bytes} (hb : isGlobal b = false) (hT : T.tag (b &&& 0x3F) = some name)
    (hattrs : readTagAttrs T b s = some (as, rest)) :
    readContent T stack acc (b :: s) =
      if b &&& 0x40 = 0 then readContent T stack (acc ++ [.elem name as []]) rest
      else readContent T (⟨acc, name, as⟩ :: stack) [] rest := by
  have hend : b ≠ 0x01 := by rintro rfl; simp [isGlobal] at hb
  conv_lhs => rw [readContent.eq_def]
  simp only
  rw [if_neg hend]
  split
  · next h => rw [readPiece_eq_none hb] at h; cases h
  · rw [hT]
    simp only
    split
    · next h => rw [hattrs] at h; cases h
    · next as' rest' h =>
        rw [hattrs] at h
        obtain ⟨rfl, rfl⟩ : as = as' ∧ rest = rest' := by simpa using h
        rfl

end Rules

/-! ## Folding pieces -/

/-- A way of taking in pieces one by one that does not see where a literal is cut. -/
structure MergesLiterals {σ : Type} (f : σ → Piece → σ) : Prop where
  /-- An empty literal is nothing. -/
  lit_nil : ∀ a, f a (.lit []) = a
  /-- Two literals in a row are their concatenation. -/
  lit_lit : ∀ a s t, f (f a (.lit s)) (.lit t) = f a (.lit (s ++ t))

theorem mergesLiterals_snocPiece : MergesLiterals snocPiece :=
  ⟨snocPiece_lit_nil, snocPiece_lit_lit⟩

theorem mergesLiterals_snocText : MergesLiterals snocText := ⟨snocText_lit_nil, snocText_lit_lit⟩

end BoatRudder.BinaryXml
