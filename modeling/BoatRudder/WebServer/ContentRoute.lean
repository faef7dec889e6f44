import BoatRudder.Db.EntryContent
import BoatRudder.WebServer.FormFields

/-! # Saving the content of an entry

The route `/dashboard/api/entries/<id>/content` behind its session check: it reads the posted blocks
out of the form, stores them, and for each gallery block stores the gallery and then the blocks once
more. -/

namespace BoatRudder.WebServer

open Db

/-! ## The form -/

/-- A name that `snprintf` writes into `field[48]`. -/
def fieldName (i : ℕ) (suffix : Bytes) : Bytes :=
  (lit "content_" ++ decimal i ++ lit "_" ++ suffix).take 47

/-- `value[8192]`. -/
def valueSize : ℕ := 8192

/-- `block_count`. -/
def blockCount (body : Bytes) : ℕ :=
  (min 200 (max 0 (atoi (parseUrlencodedField body (lit "content_count") 16)))).toNat

/-- The fields of the `i`th block. -/
def readBlock (body : Bytes) (langs : List Bytes) (i : ℕ) : ContentBlockEdit where
  id := parseUrlencodedField body (fieldName i (lit "id")) valueSize
  type := parseUrlencodedField body (fieldName i (lit "type")) valueSize
  order := atoi (parseUrlencodedField body (fieldName i (lit "order")) valueSize)
  extraData := parseUrlencodedField body (fieldName i (lit "extra_data")) valueSize
  textValues := langs.map fun code =>
    parseUrlencodedField body (fieldName i (lit "text_" ++ code)) valueSize

/-- The blocks of the form. -/
def readBlocks (body : Bytes) (langs : List Bytes) : List ContentBlockEdit :=
  (List.range (blockCount body)).map (readBlock body langs)

/-! ## The route -/

/-- A request to save the content, with what else it meets: the entry and the rights to it, and how
the writes end, those of the galleries by block. -/
structure ContentRequest where
  body : Bytes
  found : Bool := true
  /-- `can_edit_entry`. -/
  mayEdit : Bool := true
  write : WriteOutcome := .done
  gallery : ℕ → WriteOutcome := fun _ => .done
  again : ℕ → WriteOutcome := fun _ => .done

/-- What the route answers. -/
inductive ContentResponse
  | notFound
  | forbidden
  | updateFailed
  /-- `ok`, with the ids of the blocks. -/
  | ok (ids : List Bytes)
  deriving DecidableEq, Repr

section

variable (mint : ℕ → IdHex) (langs : List Bytes) (req : ContentRequest)

/-- One turn of the loop over the galleries. -/
def galleryTurn (st : EntryStore × List ContentBlockEdit) (i : ℕ) :
    EntryStore × List ContentBlockEdit :=
  match st.2[i]? with
  | none => st
  | some b =>
    match b.textValues.head? with
    | none => st
    | some urls =>
      if b.type = lit "gallery" ∧ urls ≠ [] then
        let upserted := st.1.upsertMediaGallery mint b.extraData urls (req.gallery i)
        match upserted.2 with
        | none => (upserted.1, st.2)
        | some galleryId =>
          let updated := upserted.1.updateEntryContent mint langs
            (st.2.set i { b with extraData := galleryId }) (req.again i)
          -- how the second update ends is not looked at
          (updated.1, updated.2.1)
      else st

/-- The content route. -/
def contentRoute (s : EntryStore) : EntryStore × ContentResponse :=
  if !req.found then (s, .notFound)
  else if !req.mayEdit then (s, .forbidden)
  else
    let updated := s.updateEntryContent mint langs (readBlocks req.body langs) req.write
    if updated.2.2 then
      let last := (List.range (blockCount req.body)).foldl (galleryTurn mint langs req)
        (updated.1, updated.2.1)
      (last.1, .ok (last.2.map (·.id)))
    else (updated.1, .updateFailed)

end

end BoatRudder.WebServer
