import BoatRudder.Text.Bytes

/-! # Ids and texts of documents

An id of the database as text: `bson_oid_to_string` writes it in lower case,
`bson_oid_init_from_string` reads it in either case. What is written in several languages is stored as a
`map<lang,string>`; writers set the path of each language. -/

namespace BoatRudder.Db

/-- An id as `bson_oid_to_string` writes it: 24 hexadecimal digits in lower case. -/
abbrev IdHex := Bytes

/-- `bson_oid_is_valid`, then `bson_oid_init_from_string`: digits in either case are read. -/
def oidFromString (id : Bytes) : Option IdHex :=
  if id.length = 24 ∧ id.all isXDigit then some (lower id) else none

/-! ## Texts by language -/

/-- A text in several languages. -/
abbrev LangMap := List (Bytes × Bytes)

/-- `resolve_lang_map`: the text in a language, or else in English. -/
def resolveLangMap (map : LangMap) (lang : Bytes) : Bytes :=
  match map.lookup lang with
  | some text => text
  | none => (map.lookup (lit "en")).getD []

namespace LangMap

/-- `exact_lang_value`: empty where there is none. -/
def exactLangValue (m : LangMap) (code : Bytes) : Bytes := ((m.find? (·.1 = code)).map (·.2)).getD []

/-- `$set` with the path of one language. -/
def setPath : LangMap → Bytes → Bytes → LangMap
  | [], code, value => [(code, value)]
  | (c, v) :: m, code, value => if c = code then (c, value) :: m else (c, v) :: setPath m code value

/-- `$set` with the path of each language. -/
def setPaths (m : LangMap) (langs values : List Bytes) : LangMap :=
  (langs.zip values).foldl (fun m p => m.setPath p.1 p.2) m

end LangMap

end BoatRudder.Db
