import BoatRudder.WebServer.ContentRoute

/-! # Editors at one entry

The requests that editors send for one entry, interleaved: the page of the editor, a new block, a
block deleted, the content saved. Each write to the database is a step of its own, so that a save
with galleries takes several. Without others in between it is the content route (`save_alone`). -/

namespace BoatRudder.WebServer

open Db

/-! ## Requests -/

/-- What an editor asks for. -/
inductive EntryAction
  /-- The page of the entry's editor. -/
  | load
  | add
  | delete (blockId : Bytes)
  | save
  deriving DecidableEq, Repr

/-- A request of an editor. -/
structure EntryRequest extends ContentRequest where
  editor : ℕ
  action : EntryAction
  /-- The languages `cms_get_languages` reads for it. -/
  langs : List Bytes := []
  /-- Whether the HTML of a new block can be rendered. -/
  rendered : Bool := true

/-- What a request is answered. -/
inductive EntryAnswer
  /-- The page, with the ids of the blocks in it. -/
  | page (ids : List IdHex)
  | added (id : IdHex)
  | deleted
  | saved (ids : List Bytes)
  | notFound
  | forbidden
  | failed
  | internalError
  deriving DecidableEq, Repr

/-- Where a request is. -/
inductive EntryPhase
  | start
  /-- A save before its turn for the gallery of the `i`th of its blocks. -/
  | turn (i : ℕ) (blocks : List ContentBlockEdit)
  /-- In that turn, before the blocks are stored once more. -/
  | again (i : ℕ) (blocks : List ContentBlockEdit)
  | done (answer : EntryAnswer)
  deriving DecidableEq, Repr

/-- A request on its way. -/
structure EntryCall where
  req : EntryRequest
  phase : EntryPhase

namespace EntryRequest

variable (r : EntryRequest) (mint : ℕ → IdHex) (s : EntryStore)

/-- The route, up to its first write. -/
def start : EntryStore × EntryPhase :=
  if !r.found then (s, .done .notFound)
  else if !r.mayEdit then (s, .done .forbidden)
  else
    match r.action with
    | .load => (s, .done (.page (s.content.map (·.id))))
    | .add =>
      let added := s.addEntryContentBlock mint (parseUrlencodedField r.body (lit "type") 16)
        (atoi (parseUrlencodedField r.body (lit "order") 16)) r.write
      (added.1,
        match added.2 with
        | none => .done .failed
        | some id => .done (if r.rendered then .added id else .internalError))
    | .delete blockId =>
      let removed := s.removeEntryContentBlock blockId r.write
      (removed.1, .done (if removed.2 then .deleted else .failed))
    | .save =>
      let updated := s.updateEntryContent mint r.langs (readBlocks r.body r.langs) r.write
      (updated.1, if updated.2.2 then .turn 0 updated.2.1 else .done .failed)

/-- A turn of the loop over the galleries, up to its second write. -/
def turn (i : ℕ) (blocks : List ContentBlockEdit) : EntryStore × EntryPhase :=
  match blocks[i]? with
  | none => (s, .done (.saved (blocks.map (·.id))))
  | some b =>
    match b.textValues.head? with
    | none => (s, .turn (i + 1) blocks)
    | some urls =>
      if b.type = lit "gallery" ∧ urls ≠ [] then
        let upserted := s.upsertMediaGallery mint b.extraData urls (r.gallery i)
        match upserted.2 with
        | none => (upserted.1, .turn (i + 1) blocks)
        | some galleryId =>
          (upserted.1, .again i (blocks.set i { b with extraData := galleryId }))
      else (s, .turn (i + 1) blocks)

/-- The second write of a turn. -/
def secondWrite (i : ℕ) (blocks : List ContentBlockEdit) : EntryStore × EntryPhase :=
  let updated := s.updateEntryContent mint r.langs blocks (r.again i)
  (updated.1, .turn (i + 1) updated.2.1)

end EntryRequest

namespace EntryCall

/-- What the next step of a call makes of the entry, and where the call goes. -/
def next (mint : ℕ → IdHex) (s : EntryStore) (c : EntryCall) : EntryStore × EntryPhase :=
  match c.phase with
  | .start => c.req.start mint s
  | .turn i blocks => c.req.turn mint s i blocks
  | .again i blocks => c.req.secondWrite mint s i blocks
  | .done answer => (s, .done answer)

/-- One step of a call. -/
def act (mint : ℕ → IdHex) (s : EntryStore) (c : EntryCall) : EntryStore × EntryCall :=
  ((c.next mint s).1, { c with phase := (c.next mint s).2 })

end EntryCall

/-- The routes of an entry's editor, over any entry at the start. -/
def entryEditor (mint : ℕ → IdHex) (s : EntryStore) :
    Service EntryStore EntryCall EntryRequest Empty where
  init := s
  begin := fun r => ⟨r, .start⟩
  act := EntryCall.act mint
  env := fun s _ => s

/-! ## A save alone -/

section

variable {mint : ℕ → IdHex} {r : EntryRequest}

/-- Steps of one call with none of another in between. -/
def alone (mint : ℕ → IdHex) (n : ℕ) (s : EntryStore) (c : EntryCall) : EntryStore × EntryCall :=
  (fun w : EntryStore × EntryCall => w.2.act mint w.1)^[n] (s, c)

theorem alone_add (m n : ℕ) (s : EntryStore) (c : EntryCall) :
    alone mint (m + n) s c = alone mint m (alone mint n s c).1 (alone mint n s c).2 :=
  Function.iterate_add_apply _ m n (s, c)

theorem length_galleryTurn {req : ContentRequest} {langs : List Bytes}
    (st : EntryStore × List ContentBlockEdit) (i : ℕ) :
    (galleryTurn mint langs req st i).2.length = st.2.length := by
  unfold galleryTurn
  cases st.2[i]? with
  | none => rfl
  | some b =>
    cases hurls : b.textValues.head? with
    | none => simp only [hurls]
    | some urls =>
      by_cases hgallery : b.type = lit "gallery" ∧ urls ≠ []
      · simp only [hurls, if_pos hgallery]
        cases (st.1.upsertMediaGallery mint b.extraData urls (req.gallery i)).2 with
        | none => rfl
        | some galleryId => exact (length_mintIds mint _ _).trans List.length_set
      · simp only [hurls, if_neg hgallery]

/-- One turn takes one step or two. -/
theorem alone_turn {st : EntryStore × List ContentBlockEdit} {i : ℕ} (hi : i < st.2.length) :
    ∃ n, alone mint n st.1 ⟨r, .turn i st.2⟩ =
      ((galleryTurn mint r.langs r.toContentRequest st i).1,
        ⟨r, .turn (i + 1) (galleryTurn mint r.langs r.toContentRequest st i).2⟩) := by
  have hb : st.2[i]? = some st.2[i] := List.getElem?_eq_getElem hi
  cases hurls : st.2[i].textValues.head? with
  | none =>
    refine ⟨1, ?_⟩
    simp [alone, EntryCall.act, EntryCall.next, EntryRequest.turn, galleryTurn, hb, hurls]
  | some urls =>
    by_cases hgallery : st.2[i].type = lit "gallery" ∧ urls ≠ []
    · cases hid : (st.1.upsertMediaGallery mint st.2[i].extraData urls (r.gallery i)).2 with
      | none =>
        refine ⟨1, ?_⟩
        simp [alone, EntryCall.act, EntryCall.next, EntryRequest.turn, galleryTurn, hb, hurls,
          hgallery, hid]
      | some galleryId =>
        refine ⟨2, ?_⟩
        simp [alone, EntryCall.act, EntryCall.next, EntryRequest.turn, EntryRequest.secondWrite,
          galleryTurn, hb, hurls, hgallery, hid]
    · refine ⟨1, ?_⟩
      simp [alone, EntryCall.act, EntryCall.next, EntryRequest.turn, galleryTurn, hb, hurls,
        hgallery]

/-- The turns from one on, and the answer. -/
theorem alone_turns {k i : ℕ} {st : EntryStore × List ContentBlockEdit} (h : st.2.length = i + k) :
    ∃ n, alone mint n st.1 ⟨r, .turn i st.2⟩ =
      let last := (List.range' i k).foldl (galleryTurn mint r.langs r.toContentRequest) st
      (last.1, ⟨r, .done (.saved (last.2.map (·.id)))⟩) := by
  induction k generalizing i st with
  | zero =>
    refine ⟨1, ?_⟩
    have hnone : st.2[i]? = none := List.getElem?_eq_none (by omega)
    simp [alone, EntryCall.act, EntryCall.next, EntryRequest.turn, hnone]
  | succ k ih =>
    obtain ⟨n, hn⟩ := @alone_turn mint r st i (by omega)
    obtain ⟨m, hm⟩ := @ih (i + 1) (galleryTurn mint r.langs r.toContentRequest st i)
      (by rw [length_galleryTurn]; omega)
    refine ⟨m + n, ?_⟩
    rw [alone_add, hn]
    exact hm

/-- What the content route answers, as an answer here. -/
def ContentResponse.toAnswer : ContentResponse → EntryAnswer
  | .notFound => .notFound
  | .forbidden => .forbidden
  | .updateFailed => .failed
  | .ok ids => .saved ids

/-- **A save without others in between is the content route.** -/
theorem save_alone (hsave : r.action = .save) (s : EntryStore) :
    ∃ n, alone mint n s ⟨r, .start⟩ =
      ((contentRoute mint r.langs r.toContentRequest s).1,
        ⟨r, .done (contentRoute mint r.langs r.toContentRequest s).2.toAnswer⟩) := by
  have hone : ∀ {w : EntryStore × EntryPhase}, r.start mint s = w →
      alone mint 1 s ⟨r, .start⟩ = (w.1, ⟨r, w.2⟩) := fun h => by rw [← h]; rfl
  unfold contentRoute
  by_cases hfound : r.found = true
  · by_cases hmayEdit : r.mayEdit = true
    · have hstart : r.start mint s =
          let updated := s.updateEntryContent mint r.langs (readBlocks r.body r.langs) r.write
          (updated.1, if updated.2.2 then .turn 0 updated.2.1 else .done .failed) := by
        simp [EntryRequest.start, hfound, hmayEdit, hsave]
      by_cases hdone :
          (s.updateEntryContent mint r.langs (readBlocks r.body r.langs) r.write).2.2 = true
      · have hlen : (s.updateEntryContent mint r.langs (readBlocks r.body r.langs) r.write).2.1.length =
            0 + blockCount r.body := by
          simp [EntryStore.updateEntryContent, length_mintIds, readBlocks]
        obtain ⟨n, hn⟩ := @alone_turns mint r (blockCount r.body) 0
          ((s.updateEntryContent mint r.langs (readBlocks r.body r.langs) r.write).1,
            (s.updateEntryContent mint r.langs (readBlocks r.body r.langs) r.write).2.1) hlen
        refine ⟨n + 1, ?_⟩
        rw [alone_add, hone hstart]
        simp only [hfound, hmayEdit, hdone, Bool.not_true, Bool.false_eq_true, if_false, if_true]
        rw [hn, List.range_eq_range']
        rfl
      · refine ⟨1, ?_⟩
        rw [hone hstart]
        simp [hfound, hmayEdit, hdone, ContentResponse.toAnswer]
    · refine ⟨1, ?_⟩
      rw [hone (w := (s, .done .forbidden)) (by simp [EntryRequest.start, hfound, hmayEdit])]
      simp [hfound, hmayEdit, ContentResponse.toAnswer]
  · refine ⟨1, ?_⟩
    rw [hone (w := (s, .done .notFound)) (by simp [EntryRequest.start, hfound])]
    simp [hfound, ContentResponse.toAnswer]

end

end BoatRudder.WebServer
