import BoatRudder.WebServer.FormFields

/-! # A form is read as it was sent

The body of a form with all its pieces, those without an equals sign included, and what
`parse_urlencoded_field` and `parse_urlencoded_multi` read out of it: the values that were sent under
the name, in their order (`readsAsSent`). -/

namespace BoatRudder.WebServer

/-- A piece of a body, between two ampersands. -/
inductive FormPiece where
  /-- A field: its name, its value and the value as it is spelled in the body. -/
  | field (key value raw : Bytes)
  /-- Bytes without an equals sign. -/
  | bare (text : Bytes)

namespace FormPiece

/-- A piece as it stands in the body. -/
def text : FormPiece → Bytes
  | field key _ raw => key ++ 61 :: raw
  | bare text => text

/-- A name of unreserved characters with a value without a NUL in URL encoding, or bytes that are
neither an ampersand nor an equals sign. -/
def WellFormed : FormPiece → Prop
  | field key value raw => (∀ c ∈ key, unreserved c = true) ∧ 0 ∉ value ∧ FormSpells raw value
  | bare text => 38 ∉ text ∧ 61 ∉ text

/-- The name and the spelling of a field. -/
def pair : FormPiece → Option (Bytes × Bytes)
  | field key _ raw => some (key, raw)
  | bare _ => none

/-- The value that is sent under a name. -/
def valueOf (name : Bytes) : FormPiece → Option Bytes
  | field key value _ => if key = name then some value else none
  | bare _ => none

end FormPiece

/-- A body: its pieces with ampersands between them. -/
def serialisePieces : List FormPiece → Bytes
  | [] => []
  | [p] => p.text
  | p :: pieces => p.text ++ 38 :: serialisePieces pieces

/-- The values that are sent under a name. -/
def valuesOf (pieces : List FormPiece) (name : Bytes) : List Bytes :=
  pieces.filterMap (FormPiece.valueOf name)

theorem separator_notMem_of_unreserved {key : Bytes} (h : ∀ c ∈ key, unreserved c = true) :
    38 ∉ key ∧ 61 ∉ key := by
  constructor <;> intro hmem <;> cases h _ hmem

/-- One piece, read alone. -/
theorem formFields_text {p : FormPiece} (hp : p.WellFormed) : formFields p.text = p.pair.toList := by
  cases p with
  | field key value raw =>
    obtain ⟨hkey, -, hraw⟩ := hp
    obtain ⟨h38, h61⟩ := separator_notMem_of_unreserved hkey
    have hamp : 38 ∉ key ++ 61 :: raw := by
      rw [List.mem_append, List.mem_cons, not_or, not_or]
      exact ⟨h38, by decide, hraw.amp_notMem⟩
    rw [FormPiece.text, formFields_single hamp, if_pos (by simp), takeWhile_ne_append h61,
      afterByte_append h61]
    rfl
  | bare text =>
    rw [FormPiece.text, formFields_of_notMem hp.2]
    rfl

/-- The fields of a body are those of its pieces. -/
theorem formFields_serialisePieces {pieces : List FormPiece} (h : ∀ p ∈ pieces, p.WellFormed) :
    formFields (serialisePieces pieces) = pieces.filterMap FormPiece.pair := by
  induction pieces with
  | nil => rfl
  | cons p pieces ih =>
    have hp := formFields_text (h p List.mem_cons_self)
    have hrest := ih fun q hq => h q (List.mem_cons_of_mem p hq)
    have hcons : (p :: pieces).filterMap FormPiece.pair =
        p.pair.toList ++ pieces.filterMap FormPiece.pair := by
      rw [List.filterMap_cons]
      cases p.pair <;> rfl
    rw [hcons, ← hp, ← hrest]
    cases pieces with
    | nil => exact (List.append_nil _).symm
    | cons q pieces => exact formFields_append _ _

/-- A value is decoded out of its spelling, and holds no NUL that would end it. -/
theorem cstr_urlDecode {raw v : Bytes} (hraw : FormSpells raw v) (hzero : 0 ∉ v) :
    cstr (urlDecode (cstr raw)) = v := by
  have hdecode := hraw.formDecode_eq
  have hcut : cstr raw = raw := cstr_eq_self fun hmem =>
    hzero (hdecode ▸ zero_mem_formDecode hmem)
  rw [hcut, urlDecode_eq, hdecode, cstr_eq_self hzero]

/-- What the fields of one name decode to. -/
theorem map_decode_filter {pieces : List FormPiece} (h : ∀ p ∈ pieces, p.WellFormed) (name : Bytes) :
    (((pieces.filterMap FormPiece.pair).filter (·.1 = name)).map fun f =>
      cstr (urlDecode (cstr f.2))) = valuesOf pieces name := by
  induction pieces with
  | nil => rfl
  | cons p pieces ih =>
    have hrest := ih fun q hq => h q (List.mem_cons_of_mem p hq)
    have hp := h p List.mem_cons_self
    cases p with
    | field key value raw =>
      obtain ⟨-, hzero, hraw⟩ := hp
      by_cases hname : key = name
      · simpa [valuesOf, FormPiece.pair, FormPiece.valueOf, hname, cstr_urlDecode hraw hzero]
          using hrest
      · simpa [valuesOf, FormPiece.pair, FormPiece.valueOf, hname] using hrest
    | bare text => exact hrest

/-- What `parse_urlencoded_field` returns for a buffer of `size` bytes; without a buffer it does not
look. -/
def returnsFound (body key : Bytes) (size : ℕ) : Bool := size != 0 && foundUrlencodedField body key

/-- Reading `name` out of the body into a buffer of `size` bytes, and all its values up to a limit. -/
structure ReadsAsSent (pieces : List FormPiece) (name : Bytes) (size maxCount : ℕ) : Prop where
  /-- 0 is returned exactly when there is no such field. -/
  found : returnsFound (serialisePieces pieces) name size = false ↔ valuesOf pieces name = []
  /-- The value is that of the first one, cut to the buffer. -/
  first : parseUrlencodedField (serialisePieces pieces) name size =
    ((valuesOf pieces name).headD []).take (size - 1)
  /-- It is complete when it fits. -/
  complete : ∀ v ∈ (valuesOf pieces name).head?, v.length < size →
    parseUrlencodedField (serialisePieces pieces) name size = v
  /-- All the values are read in their order, up to the limit. -/
  all : parseUrlencodedMulti (serialisePieces pieces) name maxCount = (valuesOf pieces name).take maxCount

/-- **A form is read as it was sent**: for every list of pieces, every name and every buffer and
limit. -/
theorem readsAsSent {pieces : List FormPiece} (hpieces : ∀ p ∈ pieces, p.WellFormed) {name : Bytes}
    (hname : 38 ∉ name) {size : ℕ} (hsize : 0 < size) (maxCount : ℕ) :
    ReadsAsSent pieces name size maxCount := by
  have hvalues := map_decode_filter hpieces name
  set body := serialisePieces pieces with hbody
  set fields := (pieces.filterMap FormPiece.pair).filter (·.1 = name) with hfields
  have hfind : parseFieldFrom name (body.length + 1) body = fields.head?.map (·.2) := by
    rw [parseFieldFrom_eq hname (Nat.lt_succ_self _), formFields_serialisePieces hpieces, hfields,
      List.head?_filter]
  have hall : parseFieldsFrom name (body.length + 1) body = fields.map (·.2) := by
    rw [parseFieldsFrom_eq hname (Nat.lt_succ_self _), formFields_serialisePieces hpieces]
  have hfirst : parseUrlencodedField body name size =
      ((valuesOf pieces name).headD []).take (size - 1) := by
    rw [parseUrlencodedField, hfind, ← hvalues]
    cases fields with
    | nil => exact List.take_nil.symm
    | cons f fields => rfl
  refine ⟨?_, hfirst, fun v hv hlt => ?_, ?_⟩
  · rw [returnsFound, bne_iff_ne.mpr hsize.ne', Bool.true_and, foundUrlencodedField, hfind, ← hvalues]
    cases fields <;> simp
  · rw [hfirst, List.headD_eq_head?_getD, Option.mem_def.mp hv, Option.getD_some,
      List.take_of_length_le (by omega)]
  · rw [parseUrlencodedMulti, hall, ← hvalues, ← List.map_take, List.map_map, ← List.map_take]
    rfl

/-- A form with a name that begins with the one looked for, a piece without a value, and a value with
the bytes that divide a form. -/
theorem readsAsSent_note : ReadsAsSent
    [.field (lit "note2") (lit "x") (lit "x"), .bare (lit "note"),
      .field (lit "note") (lit "a=b & 100%") (lit "a%3Db+%26+100%25")] (lit "note") 64 4 := by
  refine readsAsSent ?_ (by decide) (by decide) 4
  have hraw : lit "a%3Db+%26+100%25" = formEncode (lit "a=b & 100%") := by decide
  have hx : lit "x" = formEncode (lit "x") := by decide
  simp only [List.forall_mem_cons]
  refine ⟨⟨by decide, by decide, ?_⟩, ⟨by decide, by decide⟩,
    ⟨by decide, by decide, ?_⟩,
    fun p hp => absurd hp List.not_mem_nil⟩
  · exact formSpells_formEncode (lit "x")
  · rw [hraw]
    exact formSpells_formEncode _

end BoatRudder.WebServer
