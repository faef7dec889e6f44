import BoatRudder.Formats.Tree

/-! # The WML tree and its reader

The tree `parse_wml` builds from a WML deck: entities decoded, runs of blanks collapsed, prolog and
comments skipped, a stray close tag popping back to its match. C's node stack is the innermost open
element together with those around it; a node enters its parent when it is closed rather than when
it is opened, which puts the same children in the same order. Allocation never fails here. -/

namespace BoatRudder.Wml

/-- A node of the WML tree (`Node`). -/
abbrev Node := Tree Bytes

/-- `node_attr`: the value of attribute `k`, whatever its case. -/
def nodeAttr (n : Node) (k : Bytes) : Option Bytes :=
  match n with
  | .text _ => none
  | .elem _ attrs _ => (attrs.find? (fun a => eqNoCase a.1 k)).map (·.2)

/-! ## Entities and text -/

/-- `b_utf8`: the UTF-8 bytes of a code point. -/
def utf8 (cp : ℕ) : Bytes :=
  if cp < 0x80 then [UInt8.ofNat cp]
  else if cp < 0x800 then [UInt8.ofNat (0xC0 ||| cp >>> 6), UInt8.ofNat (0x80 ||| cp &&& 0x3F)]
  else if cp < 0x10000 then
    [UInt8.ofNat (0xE0 ||| cp >>> 12), UInt8.ofNat (0x80 ||| (cp >>> 6) &&& 0x3F),
      UInt8.ofNat (0x80 ||| cp &&& 0x3F)]
  else
    [UInt8.ofNat (0xF0 ||| cp >>> 18), UInt8.ofNat (0x80 ||| (cp >>> 12) &&& 0x3F),
      UInt8.ofNat (0x80 ||| (cp >>> 6) &&& 0x3F), UInt8.ofNat (0x80 ||| cp &&& 0x3F)]

/-- The entities known by name. -/
def namedEntities : List (Bytes × ℕ) :=
  [(lit "amp", 38), (lit "lt", 60), (lit "gt", 62), (lit "quot", 34), (lit "apos", 39),
    (lit "nbsp", 0xA0)]

/-- The code point a numeric entity gives, `num` being what stands between `#` and `;`. -/
def numericEntity (num : Bytes) : Option ℕ :=
  let hex := num.head? == some 120 || num.head? == some 88
  let r := if hex then strtoul 16 (num.drop 1) else strtoul 10 num
  if r.2 ≠ [] ∨ r.1 = 0 ∨ 0x10FFFF < r.1 then none else some r.1

/-- The code point of the entity named `e` (what stands between `&` and `;`). -/
def entityCode (e : Bytes) : Option ℕ :=
  match namedEntities.find? (·.1 = e) with
  | some (_, cp) => some cp
  | none =>
    if 1 < e.length ∧ e.head? = some 35 then numericEntity ((e.drop 1).take 11) else none

/-- `decode_entities`: an entity is at most twelve bytes long, an unknown one is kept verbatim. -/
def decodeEntities : Bytes → Bytes
  | [] => []
  | c :: s =>
    if c ≠ 38 then c :: decodeEntities s
    else
      match (s.take 11).findIdx? (· == 59) with
      | none => 38 :: decodeEntities s
      | some k =>
        match entityCode (s.take k) with
        | none => 38 :: decodeEntities s
        | some cp => utf8 cp ++ decodeEntities (s.drop (k + 1))
termination_by s => s.length
decreasing_by all_goals simp only [List.length_cons, List.length_drop]; omega

/-- The blanks `make_text` collapses. -/
def isBlank (c : UInt8) : Bool := c == 32 || c == 9 || c == 13 || c == 10

/-- The collapsing loop of `make_text`: `space` after a run of blanks, `any` after the first other
byte. -/
def collapseBlanks (space any : Bool) : Bytes → Bytes
  | [] => if space && any then [32] else []
  | c :: s =>
    if isBlank c then collapseBlanks true any s
    else (if space then [32] else []) ++ c :: collapseBlanks false true s

/-- `make_text`: the text of a run of source bytes, nothing if it is all blank. -/
def makeText (s : Bytes) : Option Bytes :=
  let raw := decodeEntities s
  if raw.all isBlank then none else some (collapseBlanks false false raw)

/-- `is_name_char`. -/
def isNameChar (c : UInt8) : Bool := isAlnum c || c == 58 || c == 95 || c == 45 || c == 46

/-- `is_void_tag`. -/
def isVoidTag (name : Bytes) : Bool :=
  [lit "br", lit "img", lit "input", lit "meta"].any (eqNoCase name)

/-! ## The stack of open elements -/

/-- An element whose close tag has not been read. -/
structure Frame where
  /-- The tag. -/
  name : Bytes
  /-- The attributes, in source order. -/
  attrs : List (Bytes × Bytes)
  /-- The children read so far. -/
  kids : List Node

/-- `node_add`: one more child. -/
def Frame.add (f : Frame) (n : Node) : Frame := { f with kids := f.kids ++ [n] }

/-- The finished element. -/
def Frame.close (f : Frame) : Node := .elem f.name f.attrs f.kids

/-- The elements whose children can be inline text. -/
def textParents : List Bytes :=
  [lit "p", lit "a", lit "anchor", lit "b", lit "i", lit "u", lit "em", lit "strong", lit "big",
    lit "small", lit "td"]

/-- `inline_gap`: the open element holds text and its last child is an element other than `br`. -/
def inlineGap (parent : Frame) : Bool :=
  match parent.kids.getLast? with
  | some (.elem name _ _) => !eqNoCase name (lit "br") && textParents.any (eqNoCase parent.name)
  | _ => false

/-- The innermost open element, and those around it (the root last). -/
structure Stack where
  /-- `stack[sp]`. -/
  top : Frame
  /-- `stack[sp - 1]` down to `stack[0]`, the root. -/
  below : List Frame

/-- The stack `parse_wml` starts from: the root alone. -/
def Stack.start : Stack := ⟨⟨lit "#root", [], []⟩, []⟩

/-- One more child of the innermost open element. -/
def Stack.add (st : Stack) (n : Node) : Stack := { st with top := st.top.add n }

/-- A close tag: pops through the innermost open element of that name; nothing without one. The
root is never closed. -/
def popTo (name : Bytes) (top : Frame) : List Frame → Option Stack
  | [] => none
  | parent :: below =>
    if eqNoCase top.name name then some ⟨parent.add top.close, below⟩
    else popTo name (parent.add top.close) below

/-- The root, once every element still open is closed. -/
def closeAll (top : Frame) : List Frame → Node
  | [] => top.close
  | parent :: below => closeAll (parent.add top.close) below

/-! ## Tags -/

/-- An attribute's value, and what follows it: quoted, or up to a blank or `>`. -/
def attrValue (s : Bytes) : Bytes × Bytes :=
  match s.dropWhile isSpace with
  | [] => ([], [])
  | q :: s =>
    if q == 34 || q == 39 then (s.takeWhile (· ≠ q), afterByte q s)
    else
      let bare := fun c : UInt8 => !isSpace c && c != 62
      ((q :: s).takeWhile bare, (q :: s).dropWhile bare)

/-- What stands behind a name and the blanks after it. -/
theorem length_behindName_le (t : Bytes) : ((t.dropWhile isNameChar).dropWhile isSpace).length ≤ t.length :=
  (length_dropWhile_le isSpace _).trans (length_dropWhile_le isNameChar t)

theorem length_attrValue_le (s : Bytes) : (attrValue s).2.length ≤ s.length := by
  have hs := length_dropWhile_le isSpace s
  unfold attrValue
  split
  · simp
  · next q s' heq =>
      rw [heq, List.length_cons] at hs
      split
      · have := length_afterByte_le q s'
        simp only
        omega
      · have := length_dropWhile_le (fun c => !isSpace c && c != 62) (q :: s')
        rw [List.length_cons] at this
        simp only
        omega

/-- The inside of an open tag after its name: the attributes, whether it closes itself, and what
follows the tag. -/
def parseAttrs (attrs : List (Bytes × Bytes)) (selfClose : Bool) (s : Bytes) :
    List (Bytes × Bytes) × Bool × Bytes :=
  match _hs : s.dropWhile isSpace with
  | [] => (attrs, selfClose, [])
  | c :: t =>
    if c == 62 then (attrs, selfClose, t)
    else if c == 47 then parseAttrs attrs true t
    else if !isNameChar c then parseAttrs attrs selfClose t
    else
      let name := ((c :: t).takeWhile isNameChar).take 31
      match _hr : (t.dropWhile isNameChar).dropWhile isSpace with
      | [] => (attrs ++ [(name, name)], selfClose, [])
      | e :: r =>
        if e == 61 then
          parseAttrs (attrs ++ [(name, decodeEntities (attrValue r).1)]) selfClose (attrValue r).2
        else parseAttrs (attrs ++ [(name, name)]) selfClose (e :: r)
termination_by s.length
decreasing_by
  all_goals
    have h1 := length_dropWhile_le isSpace s
    rw [_hs, List.length_cons] at h1
  · omega
  · omega
  · have h2 := length_behindName_le t
    have h3 := length_attrValue_le r
    rw [_hr, List.length_cons] at h2
    omega
  · have h2 := length_behindName_le t
    rw [_hr] at h2
    omega

/-- What `parse_wml` leaves after an open tag is no longer than what followed the tag's name. -/
theorem length_parseAttrs_le (attrs : List (Bytes × Bytes)) (selfClose : Bool) (s : Bytes) :
    (parseAttrs attrs selfClose s).2.2.length ≤ s.length := by
  fun_induction parseAttrs attrs selfClose s with
  | case1 attrs selfClose s hs => simp
  | case2 attrs selfClose s c t hs hc =>
    have h1 := length_dropWhile_le isSpace s
    rw [hs, List.length_cons] at h1
    exact Nat.le_of_succ_le h1
  | case3 attrs selfClose s c t hs hc hc' ih =>
    have h1 := length_dropWhile_le isSpace s
    rw [hs, List.length_cons] at h1
    omega
  | case4 attrs selfClose s c t hs hc hc' hn ih =>
    have h1 := length_dropWhile_le isSpace s
    rw [hs, List.length_cons] at h1
    omega
  | case5 attrs selfClose s c t hs hc hc' hn name hr => simp
  | case6 attrs selfClose s c t hs hc hc' hn name e r hr he ih =>
    have h1 := length_dropWhile_le isSpace s
    have h2 := length_behindName_le t
    have h3 := length_attrValue_le r
    rw [hs, List.length_cons] at h1
    rw [hr, List.length_cons] at h2
    omega
  | case7 attrs selfClose s c t hs hc hc' hn name e r hr he ih =>
    have h1 := length_dropWhile_le isSpace s
    have h2 := length_behindName_le t
    rw [hs, List.length_cons] at h1
    rw [hr] at h2
    omega

/-- The end of a tag. -/
theorem parseAttrs_gt (attrs : List (Bytes × Bytes)) (selfClose : Bool) (s : Bytes) :
    parseAttrs attrs selfClose (62 :: s) = (attrs, selfClose, s) := by
  have hspace : isSpace 62 = false := by decide
  rw [parseAttrs.eq_def]
  split
  · next h => simp [hspace] at h
  · next c t h =>
      obtain ⟨rfl, rfl⟩ : 62 = c ∧ s = t := by simpa [hspace] using h
      rfl

/-- A slash in a tag. -/
theorem parseAttrs_slash (attrs : List (Bytes × Bytes)) (selfClose : Bool) (s : Bytes) :
    parseAttrs attrs selfClose (47 :: s) = parseAttrs attrs true s := by
  have hspace : isSpace 47 = false := by decide
  rw [parseAttrs.eq_def]
  split
  · next h => simp [hspace] at h
  · next c t h =>
      obtain ⟨rfl, rfl⟩ : 47 = c ∧ s = t := by simpa [hspace] using h
      rfl

/-! ## The reader -/

/-- A run of text up to the next `<`: the stack after it. A blank run between two inline siblings
is a word gap the reader sees and is kept as one space. -/
def readText (s : Bytes) (st : Stack) : Stack :=
  match makeText (s.takeWhile (· ≠ 60)) with
  | some t => st.add (.text t)
  | none =>
    if s.dropWhile (· ≠ 60) ≠ [] ∧ ((s.dropWhile (· ≠ 60)).drop 1).head? ≠ some 47 ∧
        inlineGap st.top then
      st.add (.text (lit " "))
    else st

/-- What a comment leaves to read, `s` being at its `<!--`. -/
def skipComment (s : Bytes) : Bytes :=
  match findSub (lit "-->") (s.drop 4) with
  | some i => s.drop (4 + i + 3)
  | none => []

/-- A tag's name at the start of `s`, cut to what fits `name[32]`. -/
def tagName (s : Bytes) : Bytes := (s.takeWhile isNameChar).take 31

/-- An open tag, `s` being what follows its `<`: the stack after it, and what is left to read. -/
def readOpenTag (s : Bytes) (st : Stack) : Bytes × Stack :=
  let tag := parseAttrs [] false (s.dropWhile isNameChar)
  (tag.2.2,
    if !tag.2.1 && !isVoidTag (tagName s) && st.below.length < 63 then
      ⟨⟨tagName s, tag.1, []⟩, st.top :: st.below⟩
    else st.add (.elem (tagName s) tag.1 []))

/-- One turn of `parse_wml`'s loop at a nonempty rest: what it leaves to read, and the stack. -/
def parseStep (s : Bytes) (st : Stack) : Bytes × Stack :=
  if s.head? ≠ some 60 then (s.dropWhile (· ≠ 60), readText s st)
  else if (lit "<!--").isPrefixOf s then (skipComment s, st)
  else if (s.drop 1).head? = some 63 ∨ (s.drop 1).head? = some 33 then (afterByte 62 s, st)
  else if (s.drop 1).head? = some 47 then
    (afterByte 62 ((s.drop 2).dropWhile isNameChar),
      (popTo (tagName (s.drop 2)) st.top st.below).getD st)
  else if (s.drop 1).takeWhile isNameChar = [] then (s.drop 1, st)
  else readOpenTag (s.drop 1) st

/-- Every turn of the loop reads at least one byte. -/
theorem length_parseStep_lt {s : Bytes} (hs : s ≠ []) (st : Stack) :
    (parseStep s st).1.length < s.length := by
  obtain ⟨c, t, rfl⟩ := List.exists_cons_of_ne_nil hs
  unfold parseStep
  split_ifs with h1 h2 h3 h4 h5
  · -- a run of text: its first byte is not `<`
    have hc : c ≠ 60 := by simpa using h1
    have hle := length_dropWhile_le (· ≠ 60) t
    simp only [List.dropWhile_cons, hc, ne_eq, not_false_eq_true, decide_true, if_true,
      List.length_cons] at hle ⊢
    omega
  · simp only [skipComment]
    split
    · simp only [List.length_drop, List.length_cons]; omega
    · simp
  · have h0 : c = 60 := by simpa using h1
    have hle := length_afterByte_le 62 t
    have heq : afterByte 62 (c :: t) = afterByte 62 t := by simp [afterByte, h0]
    simp only [heq, List.length_cons]
    omega
  · have h6 := length_afterByte_le 62 (((c :: t).drop 2).dropWhile isNameChar)
    have h7 := length_dropWhile_le isNameChar ((c :: t).drop 2)
    simp only [List.length_drop, List.length_cons] at h6 h7 ⊢
    omega
  · simp
  · have h6 := length_parseAttrs_le [] false (t.dropWhile isNameChar)
    have h7 := length_dropWhile_le isNameChar t
    simp only [readOpenTag, List.drop_one, List.tail_cons, List.length_cons]
    omega

/-- The loop of `parse_wml`, to the end of the source. -/
def parseLoop (s : Bytes) (st : Stack) : Node :=
  if _h : s = [] then closeAll st.top st.below
  else parseLoop (parseStep s st).1 (parseStep s st).2
termination_by s.length
decreasing_by exact length_parseStep_lt _h st

/-- `parse_wml`. -/
def parseWml (s : Bytes) : Node := parseLoop s Stack.start

/-- `latin1_to_utf8`. -/
def latin1ToUtf8 (s : Bytes) : Bytes := s.flatMap (fun c => utf8 c.toNat)

end BoatRudder.Wml
