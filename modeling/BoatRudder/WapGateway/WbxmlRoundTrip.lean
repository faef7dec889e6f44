import BoatRudder.Formats.BinaryXml
import BoatRudder.WapGateway.PagedBuild
import BoatRudder.WapGateway.WmlStrings
import Mathlib.Tactic.Tauto

/-! # What the compiled tokens read back as

The tokens of a tree, read with the token tables of WML 1.1, are the tree again: unknown elements
give way to their children, unknown attributes are dropped, names are in the tables' lower case, the
`$`-syntax of a string is variables, and adjacent texts are one. -/

namespace BoatRudder.Wbxml

open Wml BinaryXml

/-! ## The token tables of WML 1.1 -/

variable {name rest s : Bytes} {P : Bytes → Prop} {conv : Conversion}

/-- The element codes. -/
def wmlTags : List (UInt8 × Bytes) :=
  [(0x1C, lit "a"), (0x1D, lit "td"), (0x1E, lit "tr"), (0x1F, lit "table"), (0x20, lit "p"),
    (0x21, lit "postfield"), (0x22, lit "anchor"), (0x23, lit "access"), (0x24, lit "b"),
    (0x25, lit "big"), (0x26, lit "br"), (0x27, lit "card"), (0x28, lit "do"), (0x29, lit "em"),
    (0x2A, lit "fieldset"), (0x2B, lit "go"), (0x2C, lit "head"), (0x2D, lit "i"),
    (0x2E, lit "img"), (0x2F, lit "input"), (0x30, lit "meta"), (0x31, lit "noop"),
    (0x32, lit "prev"), (0x33, lit "onevent"), (0x34, lit "optgroup"), (0x35, lit "option"),
    (0x36, lit "refresh"), (0x37, lit "select"), (0x38, lit "small"), (0x39, lit "strong"),
    (0x3B, lit "template"), (0x3C, lit "timer"), (0x3D, lit "u"), (0x3E, lit "setvar"),
    (0x3F, lit "wml")]

/-- The attribute start codes: the attribute's name, and the start of its value. -/
def wmlAttrs : List (UInt8 × Bytes × Bytes) :=
  [(0x05, lit "accept-charset", []), (0x06, lit "align", lit "bottom"),
    (0x07, lit "align", lit "center"), (0x08, lit "align", lit "left"),
    (0x09, lit "align", lit "middle"), (0x0A, lit "align", lit "right"),
    (0x0B, lit "align", lit "top"), (0x0C, lit "alt", []), (0x0D, lit "content", []),
    (0x0F, lit "domain", []), (0x10, lit "emptyok", lit "false"), (0x11, lit "emptyok", lit "true"),
    (0x12, lit "format", []), (0x13, lit "height", []), (0x14, lit "hspace", []),
    (0x15, lit "ivalue", []), (0x16, lit "iname", []), (0x18, lit "label", []),
    (0x19, lit "localsrc", []), (0x1A, lit "maxlength", []), (0x1B, lit "method", lit "get"),
    (0x1C, lit "method", lit "post"), (0x1D, lit "mode", lit "nowrap"),
    (0x1E, lit "mode", lit "wrap"), (0x1F, lit "multiple", lit "false"),
    (0x20, lit "multiple", lit "true"), (0x21, lit "name", []),
    (0x22, lit "newcontext", lit "false"), (0x23, lit "newcontext", lit "true"),
    (0x24, lit "onpick", []), (0x25, lit "onenterbackward", []), (0x26, lit "onenterforward", []),
    (0x27, lit "ontimer", []), (0x28, lit "optional", lit "false"),
    (0x29, lit "optional", lit "true"), (0x2A, lit "path", []), (0x2E, lit "scheme", []),
    (0x2F, lit "sendreferer", lit "false"), (0x30, lit "sendreferer", lit "true"),
    (0x31, lit "size", []), (0x32, lit "src", []), (0x33, lit "ordered", lit "true"),
    (0x34, lit "ordered", lit "false"), (0x35, lit "tabindex", []), (0x36, lit "title", []),
    (0x37, lit "type", []), (0x38, lit "type", lit "accept"), (0x39, lit "type", lit "delete"),
    (0x3A, lit "type", lit "help"), (0x3B, lit "type", lit "password"),
    (0x3C, lit "type", lit "onpick"), (0x3D, lit "type", lit "onenterbackward"),
    (0x3E, lit "type", lit "onenterforward"), (0x3F, lit "type", lit "ontimer"),
    (0x45, lit "type", lit "options"), (0x46, lit "type", lit "prev"),
    (0x47, lit "type", lit "reset"), (0x48, lit "type", lit "text"), (0x49, lit "type", lit "vnd."),
    (0x4A, lit "href", []), (0x4B, lit "href", lit "http://"), (0x4C, lit "href", lit "https://"),
    (0x4D, lit "value", []), (0x4E, lit "vspace", []), (0x4F, lit "width", []),
    (0x50, lit "xml:lang", []), (0x52, lit "align", []), (0x53, lit "columns", []),
    (0x54, lit "class", []), (0x55, lit "id", []), (0x56, lit "forua", lit "false"),
    (0x57, lit "forua", lit "true"), (0x58, lit "src", lit "http://"),
    (0x59, lit "src", lit "https://"), (0x5A, lit "http-equiv", []),
    (0x5B, lit "http-equiv", lit "Content-Type"),
    (0x5C, lit "content", lit "application/vnd.wap.wmlc;charset="),
    (0x5D, lit "http-equiv", lit "Expires"), (0x5E, lit "accesskey", []), (0x5F, lit "enctype", []),
    (0x60, lit "enctype", lit "application/x-www-form-urlencoded"),
    (0x61, lit "enctype", lit "multipart/form-data")]

/-- The tables a phone reads WML 1.1 with. -/
def wmlTables : Tables where
  tag code := (wmlTags.find? (·.1 = code)).map (·.2)
  attr code := (wmlAttrs.find? (·.1 = code)).map (·.2)

/-! ## What a tree reads back as -/

/-- The conversion a reference `$(name:conv)` asks for; one that is not known asks for none. -/
def conversionOf (conv : Bytes) : Conversion :=
  if conv = lit "e" ∨ conv = lit "escape" then .escape
  else if conv = lit "u" ∨ conv = lit "unesc" then .unesc
  else .noesc

/-- The reference to a variable that `s`, what follows a `$`, starts with, and what follows it:
`name`, `(name)` or `(name:conv)`. -/
def reference (s : Bytes) : Option (Conversion × Bytes × Bytes) :=
  match s with
  | 40 :: t =>
    match t.dropWhile isVarChar with
    | 41 :: rest => if startsName t then some (.noesc, t.takeWhile isVarChar, rest) else none
    | 58 :: u =>
      if startsName t ∧ 41 ∈ u then
        some (conversionOf (u.takeWhile (· ≠ 41)), t.takeWhile isVarChar, afterByte 41 u)
      else none
    | _ => none
  | s =>
    if startsName s then some (.noesc, s.takeWhile isVarChar, s.dropWhile isVarChar) else none

/-- `put_str` sees the references that are there, with their extension tokens. -/
theorem varRef_eq (s : Bytes) :
    varRef s = (reference s).map (fun r => ⟨r.1.token, r.2.1, r.2.2⟩) := by
  have hconv : ∀ conv, convToken conv = (conversionOf conv).token := by
    intro conv
    simp only [convToken, conversionOf]
    split_ifs <;> rfl
  unfold reference
  split
  · next t =>
      simp only [varRef, parenRef, List.head?_cons, if_true, List.drop_succ_cons, List.drop_zero]
      generalize t.dropWhile isVarChar = tail
      cases tail with
      | nil => simp
      | cons c u =>
        by_cases h41 : c = 41
        · by_cases hn : startsName t <;> simp [h41, hn, afterByte, Conversion.token]
        · by_cases h58 : c = 58
          · by_cases hn : startsName t <;> by_cases hu : 41 ∈ u <;>
              simp [h58, hn, hu, afterByte, hconv]
          · simp [h41, h58]
  · next h =>
      have h40 : s.head? ≠ some 40 := by
        cases s with
        | nil => simp
        | cons c s => simpa using fun hc : c = 40 => h s (by rw [hc])
      simp only [varRef, if_neg h40, bareRef]
      split <;> rfl

/-- A reference takes up at least one byte. -/
theorem length_reference_lt (h : reference s = some (conv, name, rest)) : rest.length < s.length :=
  length_varRef_lt (by rw [varRef_eq, h]; rfl)

/-- The parts of a reference are parts of the string. -/
theorem reference_subset (h : reference s = some (conv, name, rest)) : name ⊆ s ∧ rest <:+ s := by
  have hbare : ∀ t : Bytes, t.takeWhile isVarChar ⊆ t ∧ t.dropWhile isVarChar <:+ t := fun t =>
    ⟨(List.takeWhile_prefix _).subset, List.dropWhile_suffix _⟩
  unfold reference at h
  split at h
  · next t =>
      have hsuf := List.suffix_cons 40 t
      split at h
      · next u heq =>
          split_ifs at h
          obtain ⟨-, rfl, rfl⟩ : _ ∧ _ ∧ _ := by simpa using h
          exact ⟨fun b hb => hsuf.subset ((hbare t).1 hb),
            ((List.suffix_cons 41 u).trans (heq ▸ (hbare t).2)).trans hsuf⟩
      · next u heq =>
          split_ifs at h
          simp only [Option.some.injEq, Prod.mk.injEq] at h
          obtain ⟨-, rfl, rfl⟩ := h
          have hafter : afterByte 41 u <:+ u := (List.drop_suffix _ _).trans (List.dropWhile_suffix _)
          exact ⟨fun b hb => hsuf.subset ((hbare t).1 hb),
            (hafter.trans ((List.suffix_cons 58 u).trans (heq ▸ (hbare t).2))).trans hsuf⟩
      · cases h
  · split_ifs at h
    simp only [Option.some.injEq, Prod.mk.injEq] at h
    obtain ⟨-, rfl, rfl⟩ := h
    exact hbare s

/-- The pieces of a string, byte by byte: `$$` is a dollar sign, and so is a `$` that starts no
reference. -/
def pieces (s : Bytes) : List BinaryXml.Piece :=
  match s with
  | [] => []
  | c :: s =>
    if c ≠ 36 then .lit [c] :: pieces s
    else if s.head? = some 36 then .lit [36] :: pieces (s.drop 1)
    else
      match _h : reference s with
      | none => .lit [36] :: pieces s
      | some (conv, name, rest) => .var conv name :: pieces rest
termination_by s.length
decreasing_by
  · simp
  · simp only [List.length_drop, List.length_cons]; omega
  · simp
  · have := length_reference_lt _h
    simp only [List.length_cons]; omega

/-- A `$` that starts no reference. -/
theorem pieces_dollar (h36 : s.head? ≠ some 36) (href : reference s = none) :
    pieces (36 :: s) = .lit [36] :: pieces s := by
  rw [pieces.eq_def]
  simp only
  rw [if_neg (by simp), if_neg h36]
  split
  · rfl
  · next h => rw [href] at h; cases h

/-- A reference. -/
theorem pieces_var (h36 : s.head? ≠ some 36) (href : reference s = some (conv, name, rest)) :
    pieces (36 :: s) = .var conv name :: pieces rest := by
  rw [pieces.eq_def]
  simp only
  rw [if_neg (by simp), if_neg h36]
  split
  · next h => rw [href] at h; cases h
  · next h =>
      rw [href] at h
      simp only [Option.some.injEq, Prod.mk.injEq] at h
      obtain ⟨rfl, rfl, rfl⟩ := h
      rfl

/-- A value as it is to be read: a site-relative `href` or `src` has `base` in front. -/
def linkedValue (base : Option Bytes) (name v : Bytes) : Bytes :=
  if (lower name = lit "href" ∨ lower name = lit "src") ∧ v.head? = some 47 ∧
      (v.drop 1).head? ≠ some 47 then
    base.getD [] ++ v
  else v

/-- An attribute as it is read back: nothing if it is unknown. -/
def readAttr (base : Option Bytes) (a : Bytes × Bytes) : Option (Bytes × List BinaryXml.Piece) :=
  if (valueAttrCode a.1 a.2).isSome then some (lower a.1, [.lit (lower a.2)])
  else if (attrCode a.1).isSome then
    some (lower a.1, joinPieces (pieces (linkedValue base a.1 a.2)))
  else none

mutual

/-- What a node adds to the siblings before it when it is read back. -/
def readInto (base : Option Bytes) (acc : List Decoded) : Node → List Decoded
  | .text t => (pieces t).foldl snocText acc
  | .elem name attrs kids =>
    if (elementCode name).isSome then
      acc ++ [.elem (lower name) (attrs.filterMap (readAttr base)) (readAllInto base [] kids)]
    else readAllInto base acc kids

/-- What a list of siblings adds to those before it. -/
def readAllInto (base : Option Bytes) (acc : List Decoded) : List Node → List Decoded
  | [] => acc
  | n :: ns => readAllInto base (readInto base acc n) ns

end

/-! ## Strings -/

/-- The tokens of a string are those of pieces that, taken in one after another, come to the
literal bytes collected so far and then the pieces of the string. -/
theorem putStrFrom_pieces (run : Bytes) (hrun : 0 ∉ run) (hs : 0 ∉ s) :
    ∃ ps : List BinaryXml.Piece, putStrFrom run s = ps.flatMap BinaryXml.Piece.tokens ∧
      (∀ p ∈ ps, p.Clean) ∧ ∀ {σ : Type} {f : σ → BinaryXml.Piece → σ}, MergesLiterals f → ∀ a,
        ps.foldl f a = (pieces s).foldl f (f a (.lit run)) := by
  fun_induction putStrFrom run s with
  | case1 run =>
    by_cases h : run = []
    · exact ⟨[], by simp [putLiteral, h], by simp, fun hf a => by
        simp [pieces, h, hf.lit_nil]⟩
    · exact ⟨[.lit run], by simp [putLiteral, h, BinaryXml.Piece.tokens, tokenStrI],
        by simpa [BinaryXml.Piece.Clean],
        fun hf a => by simp [pieces]⟩
  | case2 run c s hc ih =>
    simp only [List.mem_cons, not_or] at hs
    obtain ⟨ps, heq, hclean, hfold⟩ := ih (by simp [hrun, hs.1]) hs.2
    refine ⟨ps, heq, hclean, fun hf a => ?_⟩
    rw [hfold hf, pieces, if_pos hc, List.foldl_cons, hf.lit_lit]
  | case3 run c s hc h36 ih =>
    obtain rfl : c = 36 := by simpa using hc
    have hdrop : 0 ∉ s.drop 1 := fun hm =>
      hs (List.mem_cons_of_mem _ (List.mem_of_mem_drop hm))
    obtain ⟨ps, heq, hclean, hfold⟩ := ih (by simp) hdrop
    refine ⟨.lit (run ++ [36]) :: ps, ?_, ?_, fun hf a => ?_⟩
    · rw [heq]
      simp [putLiteral, BinaryXml.Piece.tokens, tokenStrI]
    · simpa [BinaryXml.Piece.Clean, hrun] using hclean
    · rw [List.foldl_cons, hfold hf, hf.lit_nil, pieces, if_neg (by simp), if_pos h36,
        List.foldl_cons, hf.lit_lit]
  | case4 run c s hc h36 hr ih =>
    obtain rfl : c = 36 := by simpa using hc
    have href : reference s = none := by simpa [varRef_eq] using hr
    simp only [List.mem_cons, not_or] at hs
    obtain ⟨ps, heq, hclean, hfold⟩ := ih (by simp [hrun]) hs.2
    refine ⟨ps, heq, hclean, fun hf a => ?_⟩
    rw [hfold hf, pieces_dollar h36 href, List.foldl_cons, hf.lit_lit]
  | case5 run c s hc h36 r hr ih =>
    obtain rfl : c = 36 := by simpa using hc
    rw [varRef_eq] at hr
    obtain ⟨⟨conv, name, rest⟩, href, rfl⟩ := Option.map_eq_some_iff.mp hr
    simp only [List.mem_cons, not_or] at hs
    obtain ⟨hname, hrest⟩ := reference_subset href
    obtain ⟨ps, heq, hclean, hfold⟩ := ih (by simp) fun hm => hs.2 (hrest.subset hm)
    have hvar : (BinaryXml.Piece.var conv name).Clean := fun hm => hs.2 (hname hm)
    have hpieces := pieces_var h36 href
    by_cases h : run = []
    · refine ⟨.var conv name :: ps, ?_, ?_, fun hf a => ?_⟩
      · simp [heq, putLiteral, h, BinaryXml.Piece.tokens]
      · simpa [hvar] using hclean
      · rw [List.foldl_cons, hfold hf, hf.lit_nil, hpieces, List.foldl_cons, h, hf.lit_nil]
    · refine ⟨.lit run :: .var conv name :: ps, ?_, ?_, fun hf a => ?_⟩
      · simp [heq, putLiteral, h, BinaryXml.Piece.tokens, tokenStrI]
      · exact List.forall_mem_cons.mpr ⟨hrun, List.forall_mem_cons.mpr ⟨hvar, hclean⟩⟩
      · rw [List.foldl_cons, List.foldl_cons, hfold hf, hf.lit_nil, hpieces, List.foldl_cons]

/-- The tokens of a string, an empty one included. -/
theorem putStr_pieces (hs : 0 ∉ s) :
    ∃ ps : List BinaryXml.Piece, putStr s = ps.flatMap BinaryXml.Piece.tokens ∧
      (∀ p ∈ ps, p.Clean) ∧ ∀ {σ : Type} {f : σ → BinaryXml.Piece → σ}, MergesLiterals f → ∀ a,
        ps.foldl f a = (pieces s).foldl f a := by
  by_cases h : s = []
  · exact ⟨[.lit []], by simp [putStr, h, BinaryXml.Piece.tokens, tokenStrI],
      by simp [BinaryXml.Piece.Clean],
      fun hf a => by simp [h, pieces, hf.lit_nil]⟩
  · obtain ⟨ps, heq, hclean, hfold⟩ := putStrFrom_pieces [] (by simp) hs
    exact ⟨ps, by rw [putStr, if_neg h, heq], hclean, fun hf a => by rw [hfold hf, hf.lit_nil]⟩

section Reading

variable {name s : Bytes} {as : List (Bytes × Bytes)} {code : UInt8}
variable {base : Option Bytes} {stack : List Open} {acc : List Decoded}

/-- A string is read back as text. -/
theorem readContent_putStr (hs : 0 ∉ s) (rest : Bytes) :
    BinaryXml.readContent wmlTables stack acc (putStr s ++ rest) =
      BinaryXml.readContent wmlTables stack ((pieces s).foldl snocText acc) rest := by
  obtain ⟨ps, heq, hclean, hfold⟩ := putStr_pieces hs
  rw [heq, BinaryXml.readContent_pieces hclean, hfold mergesLiterals_snocText]

/-- A string is read back as the rest of an attribute's value. -/
theorem readAttrs_putStr (hs : 0 ∉ s) (attrs : List (Bytes × List BinaryXml.Piece))
    (k : Bytes) (rest : Bytes) :
    BinaryXml.readAttrs wmlTables (attrs ++ [(k, [])]) (putStr s ++ rest) =
      BinaryXml.readAttrs wmlTables (attrs ++ [(k, joinPieces (pieces s))]) rest := by
  obtain ⟨ps, heq, hclean, hfold⟩ := putStr_pieces hs
  rw [heq, readAttrs_pieces hclean, hfold mergesLiterals_snocPiece, joinPieces]

/-- An attribute with its value is read back. -/
theorem readAttrs_attr {k : Bytes} (hglobal : isGlobal code = false)
    (hattr : wmlTables.attr code = some (k, [])) (hs : 0 ∉ s)
    (attrs : List (Bytes × List BinaryXml.Piece)) (rest : Bytes) :
    BinaryXml.readAttrs wmlTables attrs (code :: (putStr s ++ rest)) =
      BinaryXml.readAttrs wmlTables (attrs ++ [(k, joinPieces (pieces s))]) rest := by
  rw [readAttrs_start hglobal hattr, snocPiece_lit_nil, readAttrs_putStr hs]

/-! ## Attributes -/

/-- The tables of the compiler are part of those of WML 1.1, with names in lower case; the flags of
a tag are read apart from its code. -/
theorem elements_tables : ∀ e ∈ elements, lower e.1 = e.1 ∧ ∀ noAttrs empty : Bool,
    let b := e.2 ||| (if noAttrs then 0 else 0x80) ||| (if empty then 0 else 0x40)
    isGlobal b = false ∧ wmlTables.tag (b &&& 0x3F) = some e.1 ∧ (b &&& 0x80 = 0 ↔ noAttrs) ∧
      (b &&& 0x40 = 0 ↔ empty) := by
  decide

theorem attrCodes_tables : ∀ e ∈ attrCodes, lower e.1 = e.1 ∧ isGlobal e.2 = false ∧
    wmlTables.attr e.2 = some (e.1, []) ∧
    ((e.2 = attrHref ∨ e.2 = attrSrc) ↔ (e.1 = lit "href" ∨ e.1 = lit "src")) := by
  decide

theorem valueAttrs_tables : ∀ e ∈ valueAttrs, lower e.1.1 = e.1.1 ∧ lower e.1.2 = e.1.2 ∧
    e.1.2 ≠ [] ∧ isGlobal e.2 = false ∧ wmlTables.attr e.2 = some e.1 := by
  decide

/-- A code the element table gives. -/
theorem elementCode_eq_some (h : elementCode name = some code)
    (noAttrs empty : Prop) [Decidable noAttrs] [Decidable empty] :
    let b := code ||| (if noAttrs then 0 else 0x80) ||| (if empty then 0 else 0x40)
    isGlobal b = false ∧ wmlTables.tag (b &&& 0x3F) = some (lower name) ∧
      (b &&& 0x80 = 0 ↔ noAttrs) ∧ (b &&& 0x40 = 0 ↔ empty) := by
  obtain ⟨e, hfind, rfl⟩ := Option.map_eq_some_iff.mp h
  obtain ⟨hlower, hflags⟩ := elements_tables e (List.mem_of_find?_eq_some hfind)
  have heq : eqNoCase e.1 name = true := by simpa using List.find?_some hfind
  rw [← eqNoCase_iff.mp heq, hlower]
  simpa only [decide_eq_true_eq] using hflags (decide noAttrs) (decide empty)

/-- A code the attribute table gives. -/
theorem attrCode_eq_some (h : attrCode name = some code) :
    isGlobal code = false ∧ wmlTables.attr code = some (lower name, []) ∧
      ((code = attrHref ∨ code = attrSrc) ↔ (lower name = lit "href" ∨ lower name = lit "src")) := by
  obtain ⟨e, hfind, rfl⟩ := Option.map_eq_some_iff.mp h
  obtain ⟨hlower, htables⟩ := attrCodes_tables e (List.mem_of_find?_eq_some hfind)
  have heq : eqNoCase e.1 name = true := by simpa using List.find?_some hfind
  rw [← eqNoCase_iff.mp heq, hlower]
  exact htables

/-- A code the table of attributes with values gives. -/
theorem valueAttrCode_eq_some {value : Bytes} (h : valueAttrCode name value = some code) :
    lower value ≠ [] ∧ isGlobal code = false ∧
      wmlTables.attr code = some (lower name, lower value) := by
  obtain ⟨e, hfind, rfl⟩ := Option.map_eq_some_iff.mp h
  obtain ⟨hname, hvalue, htables⟩ := valueAttrs_tables e (List.mem_of_find?_eq_some hfind)
  have heq : eqNoCase e.1.1 name = true ∧ eqNoCase e.1.2 value = true := by
    simpa using List.find?_some hfind
  rw [← eqNoCase_iff.mp heq.1, ← eqNoCase_iff.mp heq.2, hname, hvalue]
  exact htables

/-- A value of an attribute is linked as it is to be read. -/
theorem withBase_eq {v : Bytes} (h : attrCode name = some code) :
    withBase base code v = linkedValue base name v := by
  obtain ⟨-, -, hlink⟩ := attrCode_eq_some h
  cases base with
  | none => simp [withBase, linkedValue]
  | some b => simp only [withBase, linkedValue, hlink, Option.getD_some]

/-- One attribute is read back. -/
theorem readAttrs_compileAttr {a : Bytes × Bytes} (hbase : ∀ b ∈ base, 0 ∉ b)
    (ha : 0 ∉ a.2) (attrs : List (Bytes × List BinaryXml.Piece)) (rest : Bytes) :
    BinaryXml.readAttrs wmlTables attrs (compileAttr base a ++ rest) =
      BinaryXml.readAttrs wmlTables (attrs ++ (readAttr base a).toList) rest := by
  unfold compileAttr readAttr
  cases hv : valueAttrCode a.1 a.2 with
  | some code =>
    obtain ⟨hne, hglobal, hattr⟩ := valueAttrCode_eq_some hv
    rw [List.singleton_append, readAttrs_start hglobal hattr]
    simp [snocPiece, hne]
  | none =>
    cases hc : attrCode a.1 with
    | none => simp
    | some code =>
      obtain ⟨hglobal, hattr, -⟩ := attrCode_eq_some hc
      have hclean : 0 ∉ linkedValue base a.1 a.2 := by
        unfold linkedValue
        split_ifs
        · cases base with
          | none => simpa using ha
          | some b => simpa [ha] using hbase b rfl
        · exact ha
      simp only [List.cons_append]
      rw [withBase_eq hc, readAttrs_attr hglobal hattr hclean]
      simp

/-- The attributes of an element are read back. -/
theorem readAttrs_compileAttrs (hbase : ∀ b ∈ base, 0 ∉ b)
    (has : ∀ a ∈ as, 0 ∉ a.2) (attrs : List (Bytes × List BinaryXml.Piece))
    (rest : Bytes) : BinaryXml.readAttrs wmlTables attrs (as.flatMap (compileAttr base) ++ rest) =
      BinaryXml.readAttrs wmlTables (attrs ++ as.filterMap (readAttr base)) rest := by
  induction as generalizing attrs with
  | nil => simp
  | cons a as ih =>
    rw [List.flatMap_cons, List.append_assoc,
      readAttrs_compileAttr hbase (has a (by simp)), ih fun b hb => has b (by simp [hb])]
    cases h : readAttr base a <;> simp [h]

/-! ## Nodes -/

/-- The attribute list of an element is read back, an empty one without its `END`. -/
theorem readTagAttrs_closed {b : UInt8}
    (hbase : ∀ b ∈ base, 0 ∉ b) (has : ∀ a ∈ as, 0 ∉ a.2)
    (hb : b &&& 0x80 = 0 ↔ as.flatMap (compileAttr base) = []) (rest : Bytes) :
    readTagAttrs wmlTables b (closed (as.flatMap (compileAttr base)) ++ rest) =
      some (as.filterMap (readAttr base), rest) := by
  have hread := readAttrs_compileAttrs hbase has []
  unfold readTagAttrs closed
  split_ifs with h1 h2 h2
  · have hnil : as.filterMap (readAttr base) = [] := by
      have := hread [0x01]
      rw [h2, List.nil_append, List.nil_append, readAttrs_end, readAttrs_end] at this
      simpa using this.symm
    rw [hnil, List.nil_append]
  · exact absurd (hb.mp h1) h2
  · exact absurd (hb.mpr h2) h1
  · rw [List.append_assoc, hread, List.nil_append, List.singleton_append, tokenEnd, readAttrs_end]

/-- An element is read back, given that its content is. -/
theorem readContent_element {content : Bytes} {inner : List Decoded}
    (hcode : elementCode name = some code)
    (hbase : ∀ b ∈ base, 0 ∉ b) (has : ∀ a ∈ as, 0 ∉ a.2)
    (hcontent : ∀ st rest, BinaryXml.readContent wmlTables st [] (content ++ rest) =
      BinaryXml.readContent wmlTables st inner rest) (rest : Bytes) :
    BinaryXml.readContent wmlTables stack acc (element code (as.flatMap (compileAttr base)) content ++ rest) =
      BinaryXml.readContent wmlTables stack
        (acc ++ [.elem (lower name) (as.filterMap (readAttr base)) inner]) rest := by
  obtain ⟨hglobal, htag, hattrs, hempty⟩ :=
    elementCode_eq_some hcode (as.flatMap (compileAttr base) = []) (content = [])
  have hread := readTagAttrs_closed hbase has hattrs (closed content ++ rest)
  rw [element, List.cons_append, List.cons_append, List.append_assoc,
    BinaryXml.readContent_tag hglobal htag hread]
  by_cases hc : content = []
  · -- an empty content leaves nothing between the tag and what follows
    have hinner : inner = [] := by
      have := hcontent [] []
      rw [hc, List.nil_append, BinaryXml.readContent_nil, BinaryXml.readContent_nil] at this
      simpa using this.symm
    rw [if_pos (hempty.mpr hc), hinner, closed, if_pos hc, List.nil_append]
  · rw [if_neg (fun h => hc (hempty.mp h)), closed, if_neg hc, List.append_assoc, hcontent,
      List.singleton_append, tokenEnd, BinaryXml.readContent_end]

/-- Siblings are read back, given that each of them is. -/
theorem readContent_compileNodes_of {ns : List Node}
    (h : ∀ n ∈ ns, ∀ stack acc rest, BinaryXml.readContent wmlTables stack acc (compileNode base n ++ rest) =
      BinaryXml.readContent wmlTables stack (readInto base acc n) rest) (rest : Bytes) :
    BinaryXml.readContent wmlTables stack acc (compileNodes base ns ++ rest) =
      BinaryXml.readContent wmlTables stack (readAllInto base acc ns) rest := by
  induction ns generalizing acc with
  | nil => rfl
  | cons n ns ih =>
    rw [compileNodes, readAllInto, List.append_assoc, h n (by simp),
      ih fun k hk => h k (by simp [hk])]

/-- A node is read back, whatever is open around it and whatever follows. -/
theorem readContent_compileNode (hbase : ∀ b ∈ base, 0 ∉ b) (n : Node) :
    n.All (0 ∉ ·) → ∀ stack acc rest,
      BinaryXml.readContent wmlTables stack acc (compileNode base n ++ rest) =
        BinaryXml.readContent wmlTables stack (readInto base acc n) rest := by
  induction n using Tree.induction with
  | text t =>
    intro hclean stack acc rest
    rw [compileNode, readInto]
    exact readContent_putStr (by simpa only [Tree.All] using hclean) rest
  | elem name attrs kids ih =>
    intro hclean stack acc rest
    simp only [Tree.All, Tree.allIn_iff] at hclean
    have hkids := fun n hn => ih n hn (hclean.2 n hn)
    rw [compileNode, readInto]
    cases hcode : elementCode name with
    | none => exact readContent_compileNodes_of hkids rest
    | some code =>
      exact readContent_element hcode hbase hclean.1
        (fun st r => readContent_compileNodes_of hkids r) rest

/-- Siblings are read back. -/
theorem readContent_compileNodes (hbase : ∀ b ∈ base, 0 ∉ b) {ns : List Node}
    (hns : Tree.AllIn (0 ∉ ·) ns) (rest : Bytes) :
    BinaryXml.readContent wmlTables stack acc (compileNodes base ns ++ rest) =
      BinaryXml.readContent wmlTables stack (readAllInto base acc ns) rest :=
  readContent_compileNodes_of
    (fun n hn => readContent_compileNode hbase n (Tree.allIn_iff.mp hns n hn)) rest

end Reading

/-! ## Cards and decks -/

/-- What the document of a card reads back as. -/
def readCard (base : Option Bytes) (title : Bytes) (blocks nav : List Node) : List Decoded :=
  [.elem (lit "wml") []
    [.elem (lit "card") [(lit "id", [.lit (lit "p")]), (lit "title", joinPieces (pieces title))]
      (if compileNodes base blocks ++ compileNodes base nav = [] then [.text [.lit (lit " ")]]
        else readAllInto base (readAllInto base [] blocks) nav)]]

/-- A document is read back: its header, the one card, and everything on it. -/
theorem decodeDocument_compileCard {base : Option Bytes} {title : Bytes} {blocks nav : List Node}
    (hbase : ∀ b ∈ base, 0 ∉ b) (htitle : 0 ∉ title)
    (hblocks : Tree.AllIn (0 ∉ ·) blocks) (hnav : Tree.AllIn (0 ∉ ·) nav) :
    decodeDocument wmlTables (compileCard title blocks nav base) =
      some (readCard base title blocks nav) := by
  have hid : joinPieces (pieces (lit "p")) = [.lit (lit "p")] := by decide +kernel
  have hwml : wmlTables.tag (0x7F &&& 0x3F) = some (lit "wml") := by decide
  have hcard : wmlTables.tag (0xE7 &&& 0x3F) = some (lit "card") := by decide
  have hblank : (pieces (lit " ")).foldl snocText [] = [.text [.lit (lit " ")]] := by decide +kernel
  have hcontent : ∀ stack rest, BinaryXml.readContent wmlTables stack []
      ((if compileNodes base blocks ++ compileNodes base nav = [] then putStr (lit " ")
        else compileNodes base blocks ++ compileNodes base nav) ++ rest) =
      BinaryXml.readContent wmlTables stack
        (if compileNodes base blocks ++ compileNodes base nav = [] then [.text [.lit (lit " ")]]
          else readAllInto base (readAllInto base [] blocks) nav) rest := by
    intro stack rest
    split_ifs
    · rw [readContent_putStr (by decide), hblank]
    · rw [List.append_assoc, readContent_compileNodes hbase hblocks,
        readContent_compileNodes hbase hnav]
  have hattrs : ∀ rest, readTagAttrs wmlTables 0xE7
      (0x55 :: (putStr (lit "p") ++ 0x36 :: (putStr title ++ 0x01 :: rest))) =
        some ([(lit "id", [.lit (lit "p")]), (lit "title", joinPieces (pieces title))], rest) := by
    intro rest
    rw [readTagAttrs, if_neg (by decide),
      readAttrs_attr (k := lit "id") (by decide) (by decide) (by decide),
      readAttrs_attr (k := lit "title") (by decide) (by decide) htitle, readAttrs_end, hid]
    rfl
  have hbytes : compileCard title blocks nav base = 0x01 :: 0x04 :: 0x6A :: 0x00 :: 0x7F :: 0xE7 ::
      0x55 :: (putStr (lit "p") ++ 0x36 :: (putStr title ++ 0x01 ::
        ((if compileNodes base blocks ++ compileNodes base nav = [] then putStr (lit " ")
          else compileNodes base blocks ++ compileNodes base nav) ++ [0x01, 0x01]))) := by
    simp only [compileCard, List.append_assoc, List.cons_append, List.nil_append]
    rfl
  rw [hbytes, decodeDocument, decodeBody,
    BinaryXml.readContent_tag (by decide) hwml rfl, if_neg (by decide),
    BinaryXml.readContent_tag (by decide) hcard (hattrs _),
    if_neg (by decide), hcontent, BinaryXml.readContent_end, BinaryXml.readContent_end, BinaryXml.readContent_nil]
  rfl

/-- The first card of a tree is part of it. -/
theorem findCard_all (n : Node) : n.All P → ∀ card, findCard n = some card → card.All P := by
  induction n using Tree.induction with
  | text t =>
    intro _ card h
    cases h
  | elem name attrs kids ih =>
    intro hall card h
    rw [findCard] at h
    split_ifs at h
    · obtain rfl := Option.some.inj h
      exact hall
    · simp only [Tree.All, Tree.allIn_iff] at hall
      have hkids := fun k hk => ih k hk (hall.2 k hk)
      clear ih hall
      induction kids with
      | nil => cases h
      | cons k ks ihks =>
        rw [findCardIn, Option.or_eq_some_iff] at h
        rcases h with h | ⟨-, h⟩
        · exact hkids k (by simp) card h
        · exact ihks h fun k' hk' => hkids k' (by simp [hk'])

/-- What every string of a deck is, every string of its card is. -/
theorem cardOf_all {root : Node} (h : root.All P) : (cardOf root).All P := by
  unfold cardOf
  cases hfind : findCard root with
  | none => exact h
  | some card => exact findCard_all root h card hfind

/-- And so are those of its blocks. -/
theorem blocksOf_all {card : Node} (h : card.All P) : Tree.AllIn P (blocksOf card) := by
  rw [Tree.allIn_iff]
  intro n hn
  have hmem := (List.mem_filter.mp hn).1
  cases card with
  | text t => cases hmem
  | elem name attrs kids =>
    simp only [Tree.All, Tree.allIn_iff] at h
    exact h.2 n hmem

/-- The blocks of a parsed deck's card hold no NUL. -/
theorem blocksOf_cardOf_clean {root : Node} (h : root.All (0 ∉ ·)) :
    Tree.AllIn (0 ∉ ·) (blocksOf (cardOf root)) := blocksOf_all (cardOf_all h)

/-- **The tokens of every tree the parser builds read back as that tree**, and so does the document
of its first card: all the bytes are read, and every element is closed where it should be. -/
theorem compileNode_roundTrip (src title : Bytes) (base : Option Bytes) :
    decodeBody wmlTables (compileNode (base.map cstr) (parseWml (cstr src))) =
      some (readInto (base.map cstr) [] (parseWml (cstr src))) ∧
    decodeDocument wmlTables (compileCard (cstr title) (blocksOf (cardOf (parseWml (cstr src)))) []
      (base.map cstr)) =
      some (readCard (base.map cstr) (cstr title) (blocksOf (cardOf (parseWml (cstr src)))) []) := by
  have hbase : ∀ b ∈ base.map cstr, 0 ∉ b := by
    intro b hb
    obtain ⟨b', -, rfl⟩ := Option.map_eq_some_iff.mp hb
    exact zero_notMem_cstr b'
  have hclean := parseWml_clean (zero_notMem_cstr src)
  refine ⟨?_, decodeDocument_compileCard hbase (zero_notMem_cstr title)
    (blocksOf_cardOf_clean hclean) trivial⟩
  have := readContent_compileNode hbase _ hclean [] [] []
  rw [List.append_nil, BinaryXml.readContent_nil] at this
  exact this

/-- A conversion that is not known is read as none, and its name does not come back; neither do the
case of a tag and the seam between two texts. -/
theorem unknownConversion_read :
    decodeBody wmlTables (compileNode none (parseWml (lit "<p>$(v:when) tea</p>"))) =
      some [.elem (lit "p") [] [.text [.var .noesc (lit "v"), .lit (lit " tea")]]] ∧
    decodeBody wmlTables (compileNode none (parseWml (lit "<p>$(v:when) tea</p>"))) ≠
      some [.elem (lit "p") [] [.text [.lit (lit "$(v:when) tea")]]] ∧
    decodeBody wmlTables (compileNode none (parseWml (lit "<P>a<!-- -->b</P>"))) =
      some [.elem (lit "p") [] [.text [.lit (lit "ab")]]] := by
  decide +kernel

end BoatRudder.Wbxml
