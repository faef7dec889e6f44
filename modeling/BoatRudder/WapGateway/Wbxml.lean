import BoatRudder.WapGateway.Wml

/-! # The WBXML compiler

`compile_node` and `compile_card`: a tree to the tokens of WBXML 1.1 with the WML 1.1 tables, every
string inline. C appends to a byte buffer; here each function returns what it appends. -/

namespace BoatRudder.Wbxml

open Wml

/-! ## Tokens -/

/-- `TOKEN_END`. -/
def tokenEnd : UInt8 := 0x01

/-- `TOKEN_STR_I`. -/
def tokenStrI : UInt8 := 0x03

/-- `ATTR_HREF`. -/
def attrHref : UInt8 := 0x4A

/-- `ATTR_SRC`. -/
def attrSrc : UInt8 := 0x32

/-- `ELEMENTS`. -/
def elements : List (Bytes × UInt8) :=
  [(lit "wml", 0x3F), (lit "card", 0x27), (lit "do", 0x28), (lit "onevent", 0x33),
    (lit "head", 0x2C), (lit "template", 0x3B), (lit "access", 0x23), (lit "meta", 0x30),
    (lit "go", 0x2B), (lit "prev", 0x32), (lit "refresh", 0x36), (lit "noop", 0x31),
    (lit "postfield", 0x21), (lit "setvar", 0x3E), (lit "select", 0x37), (lit "optgroup", 0x34),
    (lit "option", 0x35), (lit "input", 0x2F), (lit "fieldset", 0x2A), (lit "timer", 0x3C),
    (lit "img", 0x2E), (lit "anchor", 0x22), (lit "a", 0x1C), (lit "table", 0x1F),
    (lit "tr", 0x1E), (lit "td", 0x1D), (lit "em", 0x29), (lit "strong", 0x39), (lit "b", 0x24),
    (lit "i", 0x2D), (lit "u", 0x3D), (lit "big", 0x25), (lit "small", 0x38), (lit "p", 0x20),
    (lit "br", 0x26)]

/-- `VALUE_ATTRS`: the attributes whose start token carries the value too. -/
def valueAttrs : List ((Bytes × Bytes) × UInt8) :=
  [((lit "method", lit "get"), 0x1B), ((lit "method", lit "post"), 0x1C)]

/-- `ATTRS`. -/
def attrCodes : List (Bytes × UInt8) :=
  [(lit "accept-charset", 0x05), (lit "accesskey", 0x5E), (lit "align", 0x52), (lit "alt", 0x0C),
    (lit "class", 0x54), (lit "columns", 0x53), (lit "content", 0x0D), (lit "domain", 0x0F),
    (lit "enctype", 0x5F), (lit "format", 0x12), (lit "height", 0x13), (lit "href", attrHref),
    (lit "hspace", 0x14), (lit "http-equiv", 0x5A), (lit "id", 0x55), (lit "ivalue", 0x15),
    (lit "iname", 0x16), (lit "label", 0x18), (lit "localsrc", 0x19), (lit "maxlength", 0x1A),
    (lit "name", 0x21), (lit "onenterbackward", 0x25), (lit "onenterforward", 0x26),
    (lit "onpick", 0x24), (lit "ontimer", 0x27), (lit "path", 0x2A), (lit "scheme", 0x2E),
    (lit "size", 0x31), (lit "src", attrSrc), (lit "tabindex", 0x35), (lit "title", 0x36),
    (lit "type", 0x37), (lit "value", 0x4D), (lit "vspace", 0x4E), (lit "width", 0x4F),
    (lit "xml:lang", 0x50)]

/-- `element_code`. -/
def elementCode (name : Bytes) : Option UInt8 :=
  (elements.find? (fun e => eqNoCase e.1 name)).map (·.2)

/-- `value_attr_code`. -/
def valueAttrCode (name value : Bytes) : Option UInt8 :=
  (valueAttrs.find? (fun e => eqNoCase e.1.1 name && eqNoCase e.1.2 value)).map (·.2)

/-- `attr_code`. -/
def attrCode (name : Bytes) : Option UInt8 :=
  (attrCodes.find? (fun e => eqNoCase e.1 name)).map (·.2)

/-! ## Strings -/

/-- `put_literal`. -/
def putLiteral (s : Bytes) : Bytes := if s = [] then [] else tokenStrI :: s ++ [0]

/-- A byte of a variable's name after its first. -/
def isVarChar (c : UInt8) : Bool := isAlnum c || c == 95

/-- A reference to a WML variable, as `put_str` reads it after a `$`. -/
structure VarRef where
  /-- The extension token: `EXT_I_0` to `EXT_I_2`. -/
  token : UInt8
  /-- The variable's name. -/
  name : Bytes
  /-- What follows the reference. -/
  after : Bytes

/-- The token of the conversion named in `$(name:conv)`: `EXT_I_0` escapes, `EXT_I_1` unescapes,
anything else is `EXT_I_2`. -/
def convToken (conv : Bytes) : UInt8 :=
  if conv = lit "e" ∨ conv = lit "escape" then 0x40
  else if conv = lit "u" ∨ conv = lit "unesc" then 0x41
  else 0x42

/-- Whether a variable's name starts `s`. -/
def startsName (s : Bytes) : Bool := s.head?.any (fun c => isAlpha c || c == 95)

/-- The reference `$name`, `s` being what follows the `$`. -/
def bareRef (s : Bytes) : Option VarRef :=
  if startsName s then some ⟨0x42, s.takeWhile isVarChar, s.dropWhile isVarChar⟩ else none

/-- The references `$(name)` and `$(name:conv)`, `s` being what follows the `$(`. -/
def parenRef (s : Bytes) : Option VarRef :=
  let name := s.takeWhile isVarChar
  let tail := s.dropWhile isVarChar
  if startsName s ∧ 41 ∈ tail then
    if tail.head? = some 58 then
      some ⟨convToken ((tail.drop 1).takeWhile (· ≠ 41)), name, afterByte 41 tail⟩
    else if tail.head? = some 41 then some ⟨0x42, name, afterByte 41 tail⟩
    else none
  else none

/-- The reference at `s`, what follows a `$`. -/
def varRef (s : Bytes) : Option VarRef :=
  if s.head? = some 40 then parenRef (s.drop 1) else bareRef s

/-- Past a name there is less to read. -/
theorem length_dropWhile_isVarChar_lt {s : Bytes} (h : startsName s = true) :
    (s.dropWhile isVarChar).length < s.length := by
  cases s with
  | nil => simp [startsName] at h
  | cons c s =>
    have hc : isVarChar c = true := by
      simp only [startsName, List.head?_cons, Option.any_some, Bool.or_eq_true] at h
      simp only [isVarChar, isAlnum, Bool.or_eq_true]
      tauto
    have hle := length_dropWhile_le isVarChar s
    simp only [List.dropWhile_cons, hc, if_true, List.length_cons]
    omega

/-- A reference takes up at least its first byte. -/
theorem length_varRef_lt {s : Bytes} {r : VarRef} (h : varRef s = some r) :
    r.after.length < s.length := by
  unfold varRef at h
  split_ifs at h with hp
  · have hlt : (s.drop 1).length < s.length := by
      cases s with
      | nil => simp at hp
      | cons c s => simp
    have h1 := length_dropWhile_le isVarChar (s.drop 1)
    have h2 := length_afterByte_le 41 ((s.drop 1).dropWhile isVarChar)
    simp only [parenRef] at h
    split_ifs at h <;> obtain rfl := Option.some.inj h <;> simp only <;> omega
  · unfold bareRef at h
    split_ifs at h with hn
    obtain rfl := Option.some.inj h
    exact length_dropWhile_isVarChar_lt hn

/-- The loop of `put_str` at `s`, with `run` the literal bytes since the last token. -/
def putStrFrom (run : Bytes) : Bytes → Bytes
  | [] => putLiteral run
  | c :: s =>
    if c ≠ 36 then putStrFrom (run ++ [c]) s
    else if s.head? = some 36 then putLiteral (run ++ [c]) ++ putStrFrom [] (s.drop 1)
    else
      match _h : varRef s with
      | none => putStrFrom (run ++ [c]) s
      | some r => putLiteral run ++ r.token :: r.name ++ 0 :: putStrFrom [] r.after
termination_by s => s.length
decreasing_by
  · simp
  · simp only [List.length_drop, List.length_cons]; omega
  · simp
  · have := length_varRef_lt _h
    simp only [List.length_cons]; omega

/-- `put_str`: literal runs inline, `$`-references as extension tokens; an empty string stays an
empty inline string. -/
def putStr (s : Bytes) : Bytes := if s = [] then [tokenStrI, 0] else putStrFrom [] s

/-! ## Elements and cards -/

/-- A value as it goes out: a site-relative `href` or `src` gets `base` in front. -/
def withBase (base : Option Bytes) (code : UInt8) (v : Bytes) : Bytes :=
  match base with
  | some b =>
    if (code = attrHref ∨ code = attrSrc) ∧ v.head? = some 47 ∧ (v.drop 1).head? ≠ some 47 then
      b ++ v
    else v
  | none => v

/-- What one attribute adds to an element's tokens. -/
def compileAttr (base : Option Bytes) (a : Bytes × Bytes) : Bytes :=
  match valueAttrCode a.1 a.2 with
  | some code => [code]
  | none =>
    match attrCode a.1 with
    | none => []
    | some code => code :: putStr (withBase base code a.2)

/-- A list of tokens closed by `TOKEN_END`; nothing for an empty one. -/
def closed (tokens : Bytes) : Bytes := if tokens = [] then [] else tokens ++ [tokenEnd]

/-- An element's tag with its attribute and content flags, then its attributes and content. -/
def element (code : UInt8) (attrs content : Bytes) : Bytes :=
  (code ||| (if attrs = [] then 0 else 0x80) ||| (if content = [] then 0 else 0x40)) ::
    closed attrs ++ closed content

mutual

/-- `compile_node`: an element the code table does not know is replaced by its children. -/
def compileNode (base : Option Bytes) : Node → Bytes
  | .text t => putStr t
  | .elem name attrs kids =>
    match elementCode name with
    | none => compileNodes base kids
    | some code => element code (attrs.flatMap (compileAttr base)) (compileNodes base kids)

/-- `compile_node` over a list of siblings. -/
def compileNodes (base : Option Bytes) : List Node → Bytes
  | [] => []
  | n :: ns => compileNode base n ++ compileNodes base ns

end

/-- `compile_card`: header, `<wml><card id="p" title=...>`, the blocks and the navigation. Version
1.1, public id WML 1.1, UTF-8. A card without content gets a blank. -/
def compileCard (title : Bytes) (blocks nav : List Node) (base : Option Bytes) : Bytes :=
  let content := compileNodes base blocks ++ compileNodes base nav
  [0x01, 0x04, 0x6A, 0x00, 0x3F ||| 0x40, 0x27 ||| 0x80 ||| 0x40] ++ 0x55 :: putStr (lit "p") ++
    0x36 :: putStr title ++ [tokenEnd] ++ (if content = [] then putStr (lit " ") else content) ++ [tokenEnd, tokenEnd]

/-- `card_size`. -/
def cardSize (title : Bytes) (blocks nav : List Node) (base : Bytes) : ℕ :=
  (compileCard title blocks nav (some base)).length

theorem compileNodes_append (base : Option Bytes) (ms ns : List Node) :
    compileNodes base (ms ++ ns) = compileNodes base ms ++ compileNodes base ns := by
  induction ms with
  | nil => rfl
  | cons m ms ih => simp only [List.cons_append, compileNodes, ih, List.append_assoc]

end BoatRudder.Wbxml
