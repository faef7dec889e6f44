import BoatRudder.Text.Bytes

/-! # The tokens of a stylesheet

A stylesheet as CSS reads it, as far as what stands in comments, in quoted strings and in `url(...)`
tokens is told from the rest. The rest, names, numbers, punctuation and white space, is kept in runs. A
backslash takes the byte after it for a part of a name, in a string for a part of the string; the names
of functions are written without. -/

namespace BoatRudder.Css

/-! ## Bytes -/

/-- The ends of lines. -/
def isNewline (b : UInt8) : Bool := b == 10 || b == 12 || b == 13

/-- White space: blank, tab and the ends of lines. -/
def isWhite (b : UInt8) : Bool := b == 32 || b == 9 || isNewline b

/-- The quotation marks. -/
def isQuote (b : UInt8) : Bool := b == 34 || b == 39

/-- A byte of a name. -/
def isNameByte (b : UInt8) : Bool := isAlnum b || b == 45 || b == 95 || 128 ≤ b

/-- A byte an unquoted URL may hold without a backslash. -/
def isUrlByte (b : UInt8) : Bool :=
  32 < b && b != 127 && !isQuote b && b != 40 && b != 41 && b != 92

/-! ## Contents -/

/-- What may stand between two marks `q`. -/
def stringContent (q : UInt8) : Bytes → Bool
  | [] => true
  | [c] => c != q && c != 92 && !isNewline c
  | c :: d :: s =>
    if c = 92 then stringContent q s else c != q && !isNewline c && stringContent q (d :: s)

/-- An unquoted URL. -/
def unquotedContent : Bytes → Bool
  | [] => true
  | [c] => isUrlByte c
  | c :: d :: s =>
    if c = 92 then !isNewline d && unquotedContent s else isUrlByte c && unquotedContent (d :: s)

/-- What may stand between the parentheses of a `url(...)`: a URL, quoted or not, with white space
around it. -/
inductive UrlContent : Bytes → Prop
  | unquoted {before content after : Bytes} (hbefore : ∀ b ∈ before, isWhite b = true)
      (hafter : ∀ b ∈ after, isWhite b = true) (hcontent : unquotedContent content = true) :
      UrlContent (before ++ content ++ after)
  | quoted {before content after : Bytes} {q : UInt8} (hbefore : ∀ b ∈ before, isWhite b = true)
      (hafter : ∀ b ∈ after, isWhite b = true) (hq : isQuote q = true)
      (hcontent : stringContent q content = true) :
      UrlContent (before ++ q :: (content ++ q :: after))

/-- Where in a name a run has come to: outside, in one, or in one that a backslash is in. -/
inductive NameState where
  | outside
  | plain
  | escaped
deriving DecidableEq

/-- Where a byte takes it. -/
def NameState.next (st : NameState) (c : UInt8) : NameState :=
  if isNameByte c then (if st = .escaped then .escaped else .plain)
  -- a name follows these
  else if c = 35 || c = 64 then .plain
  -- white space may belong to the backslash
  else if isWhite c && st = .escaped then .escaped
  else .outside

/-- A run read: nothing where a comment, a string or a `url(...)` begins in it, or where it ends behind
a backslash. -/
def readCode (st : NameState) : Bytes → Option NameState
  | [] => some st
  | [c] =>
    if c = 92 || isQuote c || (c = 40 && st = .escaped) then none else some (st.next c)
  | c :: d :: s =>
    if c = 92 then (if isNewline d then none else readCode .escaped s)
    else if isQuote c || (c = 47 && d = 42) || (c = 40 && st = .escaped) then none
    else if st = .outside && eqNoCase ((c :: d :: s).take 4) (lit "url(") then none
    else readCode (st.next c) (d :: s)

/-! ## Tokens -/

/-- The tokens. -/
inductive CssToken where
  | comment (content : Bytes)
  | string (quote : UInt8) (content : Bytes)
  /-- `name` is `url`, in whatever case. -/
  | url (name content : Bytes)
  /-- A run of all the rest. -/
  | code (run : Bytes)
deriving DecidableEq

namespace CssToken

/-- A token as it is written. -/
def render : CssToken → Bytes
  | comment content => 47 :: 42 :: (content ++ [42, 47])
  | string quote content => quote :: (content ++ [quote])
  | url name content => name ++ 40 :: (content ++ [41])
  | code run => run

/-- A token CSS reads back. -/
def Valid : CssToken → Prop
  | comment content => ¬ [42, 47] <:+: content
  | string quote content => isQuote quote = true ∧ stringContent quote content = true
  | url name content => lower name = lit "url" ∧ UrlContent content
  | code run => run ≠ [] ∧ readCode .outside run ≠ none

/-- One token may follow another: runs are not parted, and a `url(...)` does not begin inside a name. -/
def Follows : CssToken → CssToken → Prop
  | code _, code _ => False
  | code run, url _ _ => readCode .outside run = some .outside
  | _, _ => True

/-- Tokens that differ in their contents only. -/
def SameCode : CssToken → CssToken → Prop
  | comment _, comment _ => True
  | string _ _, string _ _ => True
  | url _ _, url _ _ => True
  | code run, code run' => run = run'
  | _, _ => False

end CssToken

/-- A stylesheet as it is written. -/
def renderSheet (sheet : List CssToken) : Bytes := sheet.flatMap CssToken.render

@[simp] theorem renderSheet_nil : renderSheet [] = [] := rfl

@[simp] theorem renderSheet_cons (t : CssToken) (sheet : List CssToken) :
    renderSheet (t :: sheet) = t.render ++ renderSheet sheet := List.flatMap_cons

/-- The pieces of a sheet are written one after the other. -/
@[simp] theorem renderSheet_append (sheet sheet' : List CssToken) :
    renderSheet (sheet ++ sheet') = renderSheet sheet ++ renderSheet sheet' := List.flatMap_append

/-- Tokens that make a stylesheet. -/
structure IsSheet (sheet : List CssToken) : Prop where
  valid : ∀ t ∈ sheet, t.Valid
  follows : sheet.IsChain CssToken.Follows

/-- What follows the first token of a sheet is a sheet. -/
theorem IsSheet.tail {t : CssToken} {sheet : List CssToken} (h : IsSheet (t :: sheet)) :
    IsSheet sheet := by
  refine ⟨fun u hu => h.valid u (List.mem_cons_of_mem t hu), ?_⟩
  cases sheet with
  | nil => exact .nil
  | cons u sheet => exact (List.isChain_cons_cons.mp h.follows).2

end BoatRudder.Css
