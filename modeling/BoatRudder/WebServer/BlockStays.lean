import BoatRudder.WebServer.ContentSaved
import BoatRudder.WebServer.EntryRequests

/-! # Blocks that stay

Adding and deleting change the array of blocks in one place; a save replaces it by what its editor
posted. A block that was added stays until a request deletes it or a save leaves it out
(**`block_stays`**), and the editor whose save leaves it out need not have seen it
(`unseen_block_lost`). -/

namespace BoatRudder.WebServer

open Db

/-! ## What becomes of a block -/

/-- An entry has a block. -/
def HasBlock (s : EntryStore) (b : IdHex) : Prop := b ∈ s.content.map (·.id)

/-- Blocks as an editor sends them have one with this id. -/
def Lists (blocks : List ContentBlockEdit) (b : IdHex) : Prop :=
  ∃ id ∈ blocks.map (·.id), oidFromString id = some b

/-- A request asks for the deletion of a block. -/
def EntryRequest.AsksDeletion (r : EntryRequest) (b : IdHex) : Prop :=
  ∃ id, r.action = .delete id ∧ oidFromString id = some b

/-- A request to save leaves a block out of those it posts. -/
def EntryRequest.LeavesOut (r : EntryRequest) (b : IdHex) : Prop :=
  r.action = .save ∧ ¬ Lists (readBlocks r.body r.langs) b

/-- The next step of a call is a write to the content that the database takes: the request has found
its entry, its user may edit it, and the write does not fail. -/
def EntryCall.writes (c : EntryCall) : Prop :=
  match c.phase with
  | .start => c.req.found = true ∧ c.req.mayEdit = true ∧ c.req.write ≠ .failed
  | .again i _ => c.req.again i ≠ .failed
  | _ => False

/-- The next step of a call takes a block from the entry: it deletes it, or saves without it. -/
def EntryCall.Takes (c : EntryCall) (b : IdHex) : Prop :=
  c.writes ∧ (c.req.AsksDeletion b ∨ c.req.LeavesOut b)

/-- The creation of a block was reported: a request to add was answered with its id. -/
def Reported (w : CallState EntryStore EntryCall) (b : IdHex) : Prop :=
  ∃ c ∈ w.calls, c.phase = .done (.added b)

/-! ## One write -/

variable {mint : ℕ → IdHex} {s : EntryStore} {b : IdHex}

theorem Lists.mintIds {blocks : List ContentBlockEdit} (h : Lists blocks b) (mint : ℕ → IdHex)
    (n : ℕ) : Lists (mintIds mint n blocks).1 b := by
  obtain ⟨id, hid, hb⟩ := h
  obtain ⟨e, he, rfl⟩ := List.mem_map.mp hid
  have hmem := mem_mintIds mint he (by rw [hb]; rfl) n
  exact ⟨e.id, List.mem_map_of_mem hmem, hb⟩

/-- A save keeps the blocks it posts, and one that fails keeps every block. -/
theorem hasBlock_updateEntryContent {blocks : List ContentBlockEdit} (hs : HasBlock s b)
    {write : WriteOutcome} (h : write ≠ .failed → Lists blocks b) (langs : List Bytes) :
    HasBlock (s.updateEntryContent mint langs blocks write).1 b := by
  simp only [HasBlock, EntryStore.updateEntryContent]
  by_cases hwrite : write = .failed
  · rw [if_pos hwrite]
    exact hs
  · obtain ⟨id, hid, hb⟩ := (h hwrite).mintIds mint s.minted
    obtain ⟨e, he, rfl⟩ := List.mem_map.mp hid
    rw [if_neg hwrite, List.map_map]
    refine List.mem_map.mpr ⟨e, he, ?_⟩
    show (oidFromString e.id).getD [] = b
    rw [hb]
    rfl

theorem hasBlock_addEntryContentBlock (hs : HasBlock s b) (type : Bytes) (order : ℤ)
    (write : WriteOutcome) : HasBlock (s.addEntryContentBlock mint type order write).1 b := by
  simp only [HasBlock, EntryStore.addEntryContentBlock]
  split_ifs
  · exact hs
  · rw [List.map_append]
    exact List.mem_append_left _ hs

/-- A block whose creation is reported is there. -/
theorem hasBlock_of_added {type : Bytes} {order : ℤ} {write : WriteOutcome}
    (h : (s.addEntryContentBlock mint type order write).2 = some b) :
    HasBlock (s.addEntryContentBlock mint type order write).1 b := by
  simp only [EntryStore.addEntryContentBlock] at h
  split_ifs at h with hdone
  obtain rfl := Option.some.inj h
  simp [HasBlock, EntryStore.addEntryContentBlock, hdone]

/-- Deleting another block leaves a block, and so does a deletion that fails. -/
theorem hasBlock_removeEntryContentBlock (hs : HasBlock s b) {id : Bytes} {write : WriteOutcome}
    (h : write ≠ .failed → oidFromString id ≠ some b) :
    HasBlock (s.removeEntryContentBlock id write).1 b := by
  unfold EntryStore.removeEntryContentBlock
  cases hoid : oidFromString id with
  | none => exact hs
  | some oid =>
    simp only [HasBlock]
    split_ifs with hwrite
    · exact hs
    · have hne : b ≠ oid := fun hb => h hwrite (hb ▸ hoid)
      obtain ⟨e, he, rfl⟩ := List.mem_map.mp hs
      exact List.mem_map_of_mem (List.mem_filter.mpr ⟨he, by simpa using hne⟩)

theorem hasBlock_upsertMediaGallery (hs : HasBlock s b) (galleryId urls : Bytes)
    (write : WriteOutcome) : HasBlock (s.upsertMediaGallery mint galleryId urls write).1 b := by
  unfold EntryStore.upsertMediaGallery
  cases oidFromString galleryId <;> exact hs

/-! ## One step -/

/-- The blocks a save has in hand. -/
def EntryPhase.inHand : EntryPhase → Option (List ContentBlockEdit)
  | .turn _ blocks => some blocks
  | .again _ blocks => some blocks
  | _ => none

/-- The blocks a call has in hand have the ids of those its request posts. -/
def EntryCall.Knows (c : EntryCall) : Prop :=
  ∀ blocks ∈ c.phase.inHand, c.req.action = .save ∧
    ∀ b, Lists (readBlocks c.req.body c.req.langs) b → Lists blocks b

namespace EntryCall

variable {c : EntryCall}

/-- What a first step should leave: what the call has in hand is what its request posts, and a block
is there that the step does not take, or that it reports. -/
structure StartSpec (r : EntryRequest) (s : EntryStore) (w : EntryStore × EntryPhase) : Prop where
  knows : ∀ blocks ∈ w.2.inHand, r.action = .save ∧
    ∀ b, Lists (readBlocks r.body r.langs) b → Lists blocks b
  keeps : ∀ b, HasBlock s b → ¬ EntryCall.Takes ⟨r, .start⟩ b → HasBlock w.1 b
  added : ∀ b, w.2 = .done (.added b) → HasBlock w.1 b

/-- A step that answers, and not with a new block. -/
theorem StartSpec.answer {r : EntryRequest} {s' : EntryStore} {answer : EntryAnswer}
    (hkeeps : ∀ b, HasBlock s b → ¬ EntryCall.Takes ⟨r, .start⟩ b → HasBlock s' b)
    (hanswer : ∀ b, answer ≠ .added b) : StartSpec r s (s', .done answer) :=
  ⟨nofun, hkeeps, fun b hb => absurd (EntryPhase.done.inj hb) (hanswer b)⟩

/-- What the first step leaves. -/
theorem start_spec (r : EntryRequest) (mint : ℕ → IdHex) (s : EntryStore) :
    StartSpec r s (r.start mint s) := by
  unfold EntryRequest.start
  by_cases hfound : (!r.found) = true
  · rw [if_pos hfound]
    exact .answer (fun b hs _ => hs) nofun
  by_cases hmayEdit : (!r.mayEdit) = true
  · rw [if_neg hfound, if_pos hmayEdit]
    exact .answer (fun b hs _ => hs) nofun
  rw [if_neg hfound, if_neg hmayEdit]
  -- from here on a write that is taken counts
  have hwrites : r.write ≠ .failed → EntryCall.writes ⟨r, .start⟩ :=
    fun hwrite => ⟨by simpa using hfound, by simpa using hmayEdit, hwrite⟩
  cases haction : r.action with
  | load => exact .answer (fun b hs _ => hs) nofun
  | add =>
    dsimp only
    have hkeeps := fun b hs => @hasBlock_addEntryContentBlock mint s b hs
      (parseUrlencodedField r.body (lit "type") 16)
      (atoi (parseUrlencodedField r.body (lit "order") 16)) r.write
    cases hid : (s.addEntryContentBlock mint (parseUrlencodedField r.body (lit "type") 16)
      (atoi (parseUrlencodedField r.body (lit "order") 16)) r.write).2 with
    | none => exact .answer (fun b hs _ => hkeeps b hs) nofun
    | some id =>
      dsimp only
      split_ifs
      · refine ⟨nofun, fun b hs _ => hkeeps b hs, fun b hb => ?_⟩
        obtain rfl : id = b := by simpa using hb
        exact hasBlock_of_added hid
      · exact .answer (fun b hs _ => hkeeps b hs) nofun
  | delete id =>
    dsimp only
    refine .answer (fun b hs h => ?_) fun b => by split_ifs <;> nofun
    exact hasBlock_removeEntryContentBlock hs
      fun hwrite hid => h ⟨hwrites hwrite, Or.inl ⟨id, haction, hid⟩⟩
  | save =>
    have hkeeps : ∀ b, HasBlock s b → ¬ EntryCall.Takes ⟨r, .start⟩ b →
        HasBlock (s.updateEntryContent mint r.langs (readBlocks r.body r.langs) r.write).1 b :=
      fun b hs h => hasBlock_updateEntryContent hs
        (fun hwrite => not_not.mp fun hout => h ⟨hwrites hwrite, Or.inr ⟨haction, hout⟩⟩) r.langs
    dsimp only
    split_ifs
    · refine ⟨?_, hkeeps, nofun⟩
      rintro blocks ⟨⟩
      exact ⟨haction, fun b hb => hb.mintIds mint s.minted⟩
    · exact .answer hkeeps nofun

/-- What a turn leaves. -/
theorem turn_spec (r : EntryRequest) (mint : ℕ → IdHex) (s : EntryStore) (i : ℕ)
    (blocks : List ContentBlockEdit) :
    (∀ blocks' ∈ (r.turn mint s i blocks).2.inHand, ∀ b, Lists blocks b → Lists blocks' b) ∧
      (∀ b, HasBlock s b → HasBlock (r.turn mint s i blocks).1 b) ∧
        ∀ b, (r.turn mint s i blocks).2 ≠ .done (.added b) := by
  unfold EntryRequest.turn
  cases hi : blocks[i]? with
  | none => simp [EntryPhase.inHand]
  | some e =>
    cases hurls : e.textValues.head? with
    | none => simp [hurls, EntryPhase.inHand]
    | some urls =>
      by_cases hgallery : e.type = lit "gallery" ∧ urls ≠ []
      · simp only [hurls, if_pos hgallery]
        cases (s.upsertMediaGallery mint e.extraData urls (r.gallery i)).2 with
        | none =>
          refine ⟨?_, fun b hs => hasBlock_upsertMediaGallery hs _ _ _, by simp⟩
          rintro blocks' ⟨⟩ b hb
          exact hb
        | some galleryId =>
          refine ⟨?_, fun b hs => hasBlock_upsertMediaGallery hs _ _ _, by simp⟩
          rintro blocks' ⟨⟩ b hb
          -- only the extra data of a block changes
          have hids : (blocks.set i { e with extraData := galleryId }).map (·.id) =
              blocks.map (·.id) := by
            obtain ⟨hlt, rfl⟩ := List.getElem?_eq_some_iff.mp hi
            rw [List.map_set]
            exact List.ext_getElem? fun j => by
              by_cases hj : i = j
              · subst hj
                simp [hlt]
              · simp [hj]
          rw [Lists, hids]
          exact hb
      · simp [hurls, hgallery, EntryPhase.inHand]

/-- **One step**: it keeps what the call knows, it keeps every block it does not take, and a block
whose creation it reports is there. -/
theorem act_spec (mint : ℕ → IdHex) (s : EntryStore) (h : c.Knows) :
    (c.act mint s).2.Knows ∧ (∀ b, HasBlock s b → ¬ c.Takes b → HasBlock (c.act mint s).1 b) ∧
      ∀ b, (c.act mint s).2.phase = .done (.added b) →
        c.phase = .done (.added b) ∨ HasBlock (c.act mint s).1 b := by
  obtain ⟨r, phase⟩ := c
  cases phase with
  | start =>
    obtain ⟨hknows, hkeeps, hadded⟩ := start_spec r mint s
    exact ⟨hknows, hkeeps, fun b hb => Or.inr (hadded b hb)⟩
  | turn i blocks =>
    obtain ⟨hknows, hkeeps, hadded⟩ := turn_spec r mint s i blocks
    obtain ⟨hsave, hread⟩ := h blocks rfl
    exact ⟨fun blocks' hblocks' => ⟨hsave, fun b hb => hknows blocks' hblocks' b (hread b hb)⟩,
      fun b hs _ => hkeeps b hs, fun b hb => absurd hb (hadded b)⟩
  | again i blocks =>
    obtain ⟨hsave, hread⟩ := h blocks rfl
    refine ⟨?_, fun b hs htakes => ?_, fun b hb => by cases hb⟩
    · rintro blocks' ⟨⟩
      exact ⟨hsave, fun b hb => (hread b hb).mintIds mint s.minted⟩
    · refine hasBlock_updateEntryContent hs (fun hwrite => hread b ?_) r.langs
      exact not_not.mp fun hout => htakes ⟨hwrite, Or.inr ⟨hsave, hout⟩⟩
  | done answer => exact ⟨h, fun b hs _ => hs, fun b hb => Or.inl hb⟩

end EntryCall

/-! ## Whole runs -/

variable (mint s)

/-- What every call knows, in every run. -/
theorem knows_after (run : List (CallEvent EntryRequest Empty)) :
    ∀ c ∈ ((entryEditor mint s).machine.after run).calls, c.Knows := by
  have hguarantees : (entryEditor mint s).Guarantees (fun _ => True) (fun _ _ => True)
      fun _ c => c.Knows := by
    refine ⟨trivial, fun s r _ blocks hblocks => ?_, fun s c _ h => ?_, fun s e => e.elim,
      fun s t c _ _ h => h⟩
    · cases hblocks
    · exact ⟨trivial, trivial, (EntryCall.act_spec mint s h).1⟩
  exact (hguarantees.after run).2

/-- **A block stays.** After every run, a block whose creation was reported is there, unless since the
report a request that asks for its deletion, or a save that leaves it out, took its write. -/
theorem block_stays (run : List (CallEvent EntryRequest Empty)) (b : IdHex)
    (h : Reported ((entryEditor mint s).machine.after run) b) :
    HasBlock ((entryEditor mint s).machine.after run).shared b ∨
      ∃ pre i post c, run = pre ++ .run i :: post ∧
        Reported ((entryEditor mint s).machine.after pre) b ∧
          ((entryEditor mint s).machine.after pre).calls[i]? = some c ∧ c.Takes b := by
  have hstays := Machine.stays_or_taken (entryEditor mint s).machine
    (J := fun w => Reported w b) (I := fun w => HasBlock w.shared b)
    (Q := fun w e => ∃ i c, e = .run i ∧ w.calls[i]? = some c ∧ c.Takes b)
    (by simp [Reported, Service.machine]) ?_ ?_ h
  · rcases hstays with hI | ⟨pre, e, post, hrun, hreported, i, c, rfl, hc, htakes⟩
    · exact Or.inl hI
    · exact Or.inr ⟨pre, i, post, c, hrun, hreported, hc, htakes⟩
  · rintro as e hnot ⟨c, hc, hphase⟩
    obtain ⟨i, hi⟩ := List.mem_iff_getElem?.mp hc
    obtain hold | ⟨r, -, -, rfl⟩ | ⟨d, rfl, hd, rfl⟩ := Service.getElem?_step hi
    · exact absurd ⟨c, List.mem_of_getElem? hold, hphase⟩ hnot
    · cases hphase
    · obtain hold | hhas := (EntryCall.act_spec mint _
        (knows_after mint s as d (List.mem_of_getElem? hd))).2.2 b hphase
      · exact absurd ⟨d, List.mem_of_getElem? hd, hold⟩ hnot
      · show HasBlock (Service.step _ _ _).shared b
        rw [Service.step_run hd]
        exact hhas
  · intro as e hhas hnot
    show HasBlock (Service.step _ _ e).shared b
    obtain heq | ⟨i, d, rfl, hd, heq⟩ | ⟨x, -, -⟩ :=
      Service.shared_step (S := entryEditor mint s) ((entryEditor mint s).machine.after as) e
    · rw [heq]
      exact hhas
    · rw [heq]
      exact (EntryCall.act_spec mint _ (knows_after mint s as d (List.mem_of_getElem? hd))).2.1 b
        hhas fun htakes => hnot ⟨i, d, rfl, hd, htakes⟩
    · exact x.elim

/-! ## A block that its remover has not seen -/

/-- The blocks an answer shows. -/
def EntryAnswer.shown : EntryAnswer → List Bytes
  | .page ids => ids
  | .added id => [id]
  | .saved ids => ids
  | _ => []

/-- An editor has seen a block: the answer to a request of hers showed it. -/
def Seen (w : CallState EntryStore EntryCall) (editor : ℕ) (b : IdHex) : Prop :=
  ∃ c ∈ w.calls, c.req.editor = editor ∧ ∃ answer, c.phase = .done answer ∧ b ∈ answer.shown

/-- A request of a run is sent in the state that the events before it lead to. -/
def Sent (run : List (CallEvent EntryRequest Empty)) (k : ℕ) (r : EntryRequest) : Prop :=
  run[k]? = some (.call r)

/-- Whether only those who have seen a block take it away. -/
def LosesSeenOnly (mint : ℕ → IdHex) (s : EntryStore) : Prop :=
  ∀ run b, Reported ((entryEditor mint s).machine.after run) b →
    HasBlock ((entryEditor mint s).machine.after run).shared b ∨
      ∃ k r, Sent run k r ∧
        (r.AsksDeletion b ∨
          r.LeavesOut b ∧ Seen ((entryEditor mint s).machine.after (run.take k)) r.editor b)

/-- The requests of two editors: one has the page open, the other adds a block, the first saves. -/
def openPage : EntryRequest := { body := [], editor := 1, action := .load }
def addText : EntryRequest := { body := lit "type=text&order=1", editor := 0, action := .add }
def saveEmpty : EntryRequest :=
  { body := editorForm [lit "en"] [], editor := 1, action := .save, langs := [lit "en"] }

def staleSave : List (CallEvent EntryRequest Empty) :=
  [.call openPage, .run 0, .call addText, .run 1, .call saveEmpty, .run 2]

/-- A block whose creation was reported stays over the report. -/
theorem block_stays_added :
    HasBlock ((entryEditor countedIds emptyEntry).machine.after (staleSave.take 4)).shared
        (countedIds 0) ∨
      ∃ pre i post c, staleSave.take 4 = pre ++ .run i :: post ∧
        Reported ((entryEditor countedIds emptyEntry).machine.after pre) (countedIds 0) ∧
          ((entryEditor countedIds emptyEntry).machine.after pre).calls[i]? = some c ∧
            c.Takes (countedIds 0) :=
  block_stays countedIds emptyEntry (staleSave.take 4) (countedIds 0)
    ⟨⟨addText, .done (.added (countedIds 0))⟩, List.mem_cons_of_mem _ List.mem_cons_self, rfl⟩

/-- **A save takes a block that its editor has not seen.** -/
theorem not_losesSeenOnly : ¬ LosesSeenOnly countedIds emptyEntry := by
  intro h
  have hcalls : ∀ {k r}, Sent staleSave k r →
      r = openPage ∨ r = addText ∨ k = 4 ∧ r = saveEmpty := by
    intro k r hsent
    rcases k with _ | _ | _ | _ | _ | _ | k <;> simp_all [Sent, staleSave, eq_comm]
  have hreported : Reported ((entryEditor countedIds emptyEntry).machine.after staleSave)
      (countedIds 0) :=
    ⟨⟨addText, .done (.added (countedIds 0))⟩, List.mem_cons_of_mem _ List.mem_cons_self, rfl⟩
  rcases h staleSave (countedIds 0) hreported with hhas | ⟨k, r, hsent, hasks | ⟨hout, hseen⟩⟩
  · have hcontent : ((entryEditor countedIds emptyEntry).machine.after staleSave).shared.content =
        [] := by decide
    rw [HasBlock, hcontent] at hhas
    cases hhas
  · obtain ⟨id, haction, -⟩ := hasks
    obtain rfl | rfl | ⟨-, rfl⟩ := hcalls hsent <;> cases haction
  · obtain rfl | rfl | ⟨rfl, rfl⟩ := hcalls hsent
    · cases hout.1
    · cases hout.1
    · -- the page was empty, and the answer with the block went to the other editor
      obtain ⟨c, hc, heditor, answer, hphase, hshown⟩ := hseen
      have hmem : (c.req.editor, c.phase) ∈
          [(1, .done (.page [])), (0, EntryPhase.done (.added (countedIds 0)))] :=
        List.mem_map_of_mem (f := fun c : EntryCall => (c.req.editor, c.phase)) hc
      rw [heditor, hphase] at hmem
      have hanswer : answer = .page [] := by simpa [saveEmpty] using hmem
      rw [hanswer] at hshown
      cases hshown

end BoatRudder.WebServer
