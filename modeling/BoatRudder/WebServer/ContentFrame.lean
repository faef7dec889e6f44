import BoatRudder.Db.Entries
import BoatRudder.WebServer.ContentSaved
import BoatRudder.WebServer.DashboardGate

/-! # What saving an entry's content leaves alone

Behind the gate of the dashboard the content route asks once whether the user may edit the entry, and
then writes to the galleries that the posted blocks name. It keeps to the galleries of the entry exactly
when no block writes something new into a gallery of another one (**`entryContent_keepsToEntry_iff`**). -/

namespace BoatRudder.WebServer

open Db

/-! ## The route -/

/-- The collections `entries` and `media_galleries`, with how many ids have been given out. -/
structure ContentStore where
  entries : Entries
  galleries : List MediaGallery
  minted : ℕ
  deriving DecidableEq, Repr

/-- A request to save the content of an entry, with what its route meets. -/
structure ContentPost where
  /-- `dashboard_allowed`. -/
  allowed : Bool := true
  genericHash : Bytes → Bytes → Bytes
  gate : GateState
  http : HttpRequest
  /-- The id in the address. -/
  idHex : Bytes
  write : WriteOutcome := .done
  gallery : ℕ → WriteOutcome := fun _ => .done
  again : ℕ → WriteOutcome := fun _ => .done

/-- What the route answers. -/
inductive ContentPostAnswer
  /-- To `/dashboard`: the browser is none for it. -/
  | dashboard
  /-- What `require_dashboard_session_role` answers instead. -/
  | refused (refusal : GateRefusal)
  | content (response : ContentResponse)
  deriving DecidableEq, Repr

namespace ContentPost

variable (p : ContentPost)

/-- `require_dashboard_session_role`: the user and the role it lets pass. -/
def session : Except GateRefusal (IdHex × Bytes) := requireDashboardSession p.genericHash p.gate p.http

/-- The request, once the entry is found and the user may edit it. -/
def request : ContentRequest where
  body := p.http.body.getD []
  write := p.write
  gallery := p.gallery
  again := p.again

end ContentPost

/-- What a block writes to a gallery by its id. -/
def writeOf (b : ContentBlockEdit) (write : WriteOutcome) : Option (IdHex × List Bytes) :=
  (oidFromString b.extraData).bind fun oid =>
    (b.textValues.head?).bind fun urls =>
      if b.type = lit "gallery" ∧ urls ≠ [] ∧ write ≠ .failed then some (oid, EntryStore.galleryUrls urls)
      else none

section

variable (mint : ℕ → IdHex) (langs : List Bytes) (s : ContentStore) (p : ContentPost)

/-- The content route over the collections. -/
def entryContentRoute : ContentStore × ContentPostAnswer :=
  if !p.allowed then (s, .dashboard)
  else
    match p.session with
    | .error refusal => (s, .refused refusal)
    | .ok (user, role) =>
      match s.entries.getEntryForEdit p.idHex with
      | none => (s, .content .notFound)
      | some e =>
        if !canEditEntry role user e then (s, .content .forbidden)
        else
          let saved := contentRoute mint langs p.request ⟨e.id, e.content, s.galleries, s.minted⟩
          ({ entries := (s.entries.updateEntry p.idHex (.setContent saved.1.content) .done).1
             galleries := saved.1.galleries
             minted := saved.1.minted },
            .content saved.2)

/-! ## Keeping to the entry -/

/-- The request comes to the content of its entry: the gate lets a user pass who may edit it. -/
def Edits (e : EntryDoc) : Prop :=
  p.allowed = true ∧ s.entries.getEntryForEdit p.idHex = some e ∧
    ∃ user role, p.session = .ok (user, role) ∧ canEditEntry role user e = true

/-- **A request changes its entry and the galleries of this entry only**, and nothing when the user may
not edit it. -/
structure KeepsToEntry (s s' : ContentStore) (p : ContentPost) : Prop where
  entries : s'.entries.filter (fun e => oidFromString p.idHex ≠ some e.id) =
    s.entries.filter fun e => oidFromString p.idHex ≠ some e.id
  galleries : s'.galleries.filter (fun g => oidFromString p.idHex ≠ some g.entryId) =
    s.galleries.filter fun g => oidFromString p.idHex ≠ some g.entryId
  refused : (∀ e, ¬ Edits s p e) → s' = s

/-- The gallery that a posted block writes to by its id, and the addresses it writes there. -/
def galleryWrite (req : ContentRequest) (i : ℕ) : Option (IdHex × List Bytes) :=
  writeOf (readBlock req.body langs i) (req.gallery i)

/-- The writes of the first blocks, in order. -/
def galleryWrites (req : ContentRequest) (n : ℕ) : List (IdHex × List Bytes) :=
  (List.range n).filterMap (galleryWrite langs req)

/-- What the last of the writes to a gallery leaves in it. -/
def lastWrite (writes : List (IdHex × List Bytes)) (g : MediaGallery) : List Bytes :=
  ((writes.reverse.find? (·.1 = g.id)).map (·.2)).getD g.content

/-- **The condition**: the last write to a gallery of another entry, if there is one, leaves it what it
holds. -/
def LeavesGalleries : Prop :=
  ∀ e, Edits s p e → p.write = .done → ∀ g ∈ s.galleries, g.entryId ≠ e.id →
    lastWrite (galleryWrites langs p.request (blockCount p.request.body)) g = g.content

end

/-! ## The loop over the galleries -/

section

variable {new old : List MediaGallery}
variable {mint : ℕ → IdHex} {langs : List Bytes} {req : ContentRequest}

/-- A gallery after these writes. -/
def afterWrites (writes : List (IdHex × List Bytes)) (g : MediaGallery) : MediaGallery :=
  { g with content := lastWrite writes g }

theorem afterWrites_concat (writes : List (IdHex × List Bytes)) (oid : IdHex) (urls : List Bytes)
    (g : MediaGallery) : afterWrites (writes ++ [(oid, urls)]) g =
      if g.id = oid then { afterWrites writes g with content := urls } else afterWrites writes g := by
  rw [afterWrites, lastWrite, List.reverse_append, List.reverse_singleton, List.singleton_append, List.find?_cons]
  by_cases h : g.id = oid
  · rw [if_pos h, decide_eq_true h.symm]
    rfl
  · rw [if_neg h, decide_eq_false (Ne.symm h)]
    rfl

/-- What the loop looks at in a block. -/
def wanted (b : ContentBlockEdit) : Bytes × Bytes × List Bytes := (b.type, b.extraData, b.textValues)

/-- A block that gets an id is otherwise the same. -/
theorem map_wanted_mintIds (mint : ℕ → IdHex) (minted : ℕ) (blocks : List ContentBlockEdit) :
    (mintIds mint minted blocks).1.map wanted = blocks.map wanted := by
  induction blocks generalizing minted with
  | nil => rfl
  | cons b blocks ih =>
    rw [mintIds]
    split_ifs
    · rw [List.map_cons, List.map_cons, ih]
    · rw [List.map_cons, List.map_cons, ih]
      rfl

/-- **After the first turns** the galleries are those from before as these turns left them, and new ones
of the entry; the blocks of the turns to come are as they were read. -/
structure Turned (old : List MediaGallery) (read : List ContentBlockEdit) (entryId : IdHex)
    (writes : List (IdHex × List Bytes)) (n : ℕ) (st : EntryStore × List ContentBlockEdit) : Prop where
  id : st.1.id = entryId
  toCome : ∀ j, n ≤ j → (st.2[j]?).map wanted = (read[j]?).map wanted
  galleries : ∃ new, st.1.galleries = old.map (afterWrites writes) ++ new ∧ ∀ g ∈ new, g.entryId = entryId

/-- One more write to a gallery from before, or to a new one. -/
theorem afterWrites_update (hids : (old.map (·.id)).Nodup) {entryId : IdHex}
    {writes : List (IdHex × List Bytes)} (hnew : ∀ g ∈ new, g.entryId = entryId)
    (oid : IdHex) (urls : List Bytes) :
    ∃ new', Collection.updateOne (fun g => g.id = oid) (fun g => { g with content := urls })
        (old.map (afterWrites writes) ++ new) = old.map (afterWrites (writes ++ [(oid, urls)])) ++ new' ∧
      ∀ g ∈ new', g.entryId = entryId := by
  have hkeys : ((old.map (afterWrites writes)).map (·.id)).Nodup := by
    rw [List.map_map]
    exact hids
  have hmapped : (old.map (afterWrites writes)).map (fun g => if g.id = oid then { g with content := urls } else g) =
      old.map (afterWrites (writes ++ [(oid, urls)])) := by
    rw [List.map_map]
    refine List.map_congr_left fun g _ => ?_
    exact (afterWrites_concat writes oid urls g).symm
  rw [Collection.updateOne_append]
  by_cases hany : (old.map (afterWrites writes)).any (fun g => g.id = oid) = true
  · rw [if_pos hany, Collection.updateOne_eq_map hkeys, hmapped]
    exact ⟨new, rfl, hnew⟩
  · have hsame : old.map (afterWrites (writes ++ [(oid, urls)])) = old.map (afterWrites writes) := by
      rw [← hmapped]
      conv_rhs => rw [← List.map_id (old.map (afterWrites writes))]
      refine List.map_congr_left fun g hg => if_neg fun heq => hany ?_
      exact List.any_eq_true.mpr ⟨g, hg, decide_eq_true heq⟩
    rw [if_neg hany, hsame]
    refine ⟨_, rfl, fun g hg => ?_⟩
    have hentries : (Collection.updateOne (fun g => g.id = oid)
        (fun g : MediaGallery => { g with content := urls }) new).map (·.entryId) = new.map (·.entryId) := by
      apply Collection.map_updateOne
      exact fun _ => rfl
    have hmem : g.entryId ∈ new.map (·.entryId) := hentries ▸ List.mem_map_of_mem hg
    obtain ⟨g', hg', heq⟩ := List.mem_map.mp hmem
    rw [← heq]
    exact hnew g' hg'

theorem galleryWrites_succ (n : ℕ) :
    galleryWrites langs req (n + 1) = galleryWrites langs req n ++ (galleryWrite langs req n).toList := by
  rw [galleryWrites, List.range_succ, List.filterMap_append]
  rfl

/-- The blocks after the second update: those to come are as they were. -/
theorem toCome_set {blocks read : List ContentBlockEdit} {n : ℕ}
    (h : ∀ j, n ≤ j → (blocks[j]?).map wanted = (read[j]?).map wanted) (b : ContentBlockEdit) (minted : ℕ)
    (j : ℕ) (hj : n + 1 ≤ j) :
    ((mintIds mint minted (blocks.set n b)).1[j]?).map wanted = (read[j]?).map wanted := by
  have hwanted := congrArg (·[j]?) (map_wanted_mintIds mint minted (blocks.set n b))
  simp only [List.getElem?_map] at hwanted
  rw [hwanted, List.getElem?_set_ne (by omega)]
  exact h j (by omega)

/-- A gallery is stored: one from before is written to, or a new one of the entry is added. -/
theorem galleries_upsert (mint : ℕ → IdHex) (hids : (old.map (·.id)).Nodup) {s : EntryStore}
    {writes : List (IdHex × List Bytes)}
    (hgalleries : s.galleries = old.map (afterWrites writes) ++ new) (hnew : ∀ g ∈ new, g.entryId = s.id)
    {b : ContentBlockEdit} {urls : Bytes} (hurls : b.textValues.head? = some urls)
    (hgallery : b.type = lit "gallery" ∧ urls ≠ []) (write : WriteOutcome) :
    ∃ new', (s.upsertMediaGallery mint b.extraData urls write).1.galleries =
        old.map (afterWrites (writes ++ (writeOf b write).toList)) ++ new' ∧ ∀ g ∈ new', g.entryId = s.id := by
  rw [writeOf, hurls]
  unfold EntryStore.upsertMediaGallery
  cases hoid : oidFromString b.extraData with
  | some oid =>
    by_cases hwrite : write = .failed
    · subst hwrite
      exact ⟨new, by simp [hgalleries], hnew⟩
    · have hall : b.type = lit "gallery" ∧ urls ≠ [] ∧ write ≠ .failed := ⟨hgallery.1, hgallery.2, hwrite⟩
      simp only [Option.bind_some, if_neg hwrite, if_pos hall, hgalleries]
      exact afterWrites_update hids hnew oid _
  | none =>
    simp only [Option.bind_none, Option.toList_none, List.append_nil]
    split_ifs with hwrite
    · exact ⟨new, hgalleries, hnew⟩
    · refine ⟨new ++ [⟨mint s.minted, EntryStore.galleryUrls urls, s.id⟩], by rw [hgalleries, List.append_assoc],
        fun g hg => ?_⟩
      rcases List.mem_append.mp hg with hg | hg
      · exact hnew g hg
      · rw [List.mem_singleton.mp hg]

/-- One more turn. -/
theorem Turned.turn {old : List MediaGallery} (hids : (old.map (·.id)).Nodup) {entryId : IdHex}
    {n : ℕ} {st : EntryStore × List ContentBlockEdit} (hn : n < blockCount req.body)
    (h : Turned old (readBlocks req.body langs) entryId (galleryWrites langs req n) n st) :
    Turned old (readBlocks req.body langs) entryId (galleryWrites langs req (n + 1)) (n + 1)
      (galleryTurn mint langs req st n) := by
  obtain ⟨rfl, htoCome, new, hgalleries, hnew⟩ := h
  have hread : (readBlocks req.body langs)[n]? = some (readBlock req.body langs n) := by
    rw [readBlocks, List.getElem?_map, List.getElem?_range hn]
    rfl
  -- the block of this turn is as it was read
  obtain ⟨b, hb, hwanted⟩ : ∃ b, st.2[n]? = some b ∧ wanted b = wanted (readBlock req.body langs n) := by
    have := htoCome n le_rfl
    rw [hread] at this
    exact Option.map_eq_some_iff.mp this
  obtain ⟨htype, hextra, htexts⟩ : b.type = (readBlock req.body langs n).type ∧
      b.extraData = (readBlock req.body langs n).extraData ∧
      b.textValues = (readBlock req.body langs n).textValues := by
    simpa [wanted] using hwanted
  have hwrite : galleryWrite langs req n = writeOf b (req.gallery n) := by
    rw [galleryWrite, writeOf, writeOf, htype, hextra, htexts]
  have hlater : ∀ j, n + 1 ≤ j → (st.2[j]?).map wanted = ((readBlocks req.body langs)[j]?).map wanted :=
    fun j hj => htoCome j (by omega)
  rw [galleryWrites_succ, hwrite, galleryTurn, hb]
  dsimp only
  cases hurls : b.textValues.head? with
  | none =>
    have hnone : writeOf b (req.gallery n) = none := by simp [writeOf, hurls]
    rw [hnone, Option.toList_none, List.append_nil]
    exact ⟨rfl, hlater, new, hgalleries, hnew⟩
  | some urls =>
    dsimp only
    by_cases hgallery : b.type = lit "gallery" ∧ urls ≠ []
    · rw [if_pos hgallery]
      obtain ⟨new', hgalleries', hnew'⟩ :=
        galleries_upsert mint hids hgalleries hnew hurls hgallery (req.gallery n)
      have hid : (st.1.upsertMediaGallery mint b.extraData urls (req.gallery n)).1.id = st.1.id := by
        unfold EntryStore.upsertMediaGallery
        split <;> rfl
      cases (st.1.upsertMediaGallery mint b.extraData urls (req.gallery n)).2 with
      | none => exact ⟨hid, hlater, new', hgalleries', hnew'⟩
      | some galleryId =>
        exact ⟨hid, fun j hj => toCome_set htoCome _ _ j hj, new', hgalleries', hnew'⟩
    · have hnone : writeOf b (req.gallery n) = none := by
        have hnot : ¬ (b.type = lit "gallery" ∧ urls ≠ [] ∧ req.gallery n ≠ .failed) :=
          fun h => hgallery ⟨h.1, h.2.1⟩
        simp [writeOf, hurls, if_neg hnot]
      rw [if_neg hgallery, hnone, Option.toList_none, List.append_nil]
      exact ⟨rfl, hlater, new, hgalleries, hnew⟩

/-- All the turns. -/
theorem turned_foldl (hids : (old.map (·.id)).Nodup)
    {st : EntryStore × List ContentBlockEdit} (hgalleries : st.1.galleries = old)
    (hblocks : st.2.map wanted = (readBlocks req.body langs).map wanted) {n : ℕ}
    (hn : n ≤ blockCount req.body) :
    Turned old (readBlocks req.body langs) st.1.id (galleryWrites langs req n) n
      ((List.range n).foldl (galleryTurn mint langs req) st) := by
  induction n with
  | zero =>
    refine ⟨rfl, fun j _ => ?_, [], ?_, nofun⟩
    · have := congrArg (·[j]?) hblocks
      simpa using this
    · show st.1.galleries = old.map (afterWrites []) ++ []
      rw [hgalleries, List.append_nil]
      exact (List.map_id old).symm
  | succ n ih =>
    rw [List.range_succ, List.foldl_append]
    exact (ih (by omega)).turn hids (by omega)

/-! ## The frame -/

variable {s : ContentStore} {p : ContentPost}

/-- The galleries after the route has stored the blocks. -/
theorem galleries_contentRoute (mint : ℕ → IdHex) (langs : List Bytes) (hids : (s.galleries.map (·.id)).Nodup)
    (hwrite : p.write = .done) (e : EntryDoc) :
    ∃ new, (contentRoute mint langs p.request ⟨e.id, e.content, s.galleries, s.minted⟩).1.galleries =
        s.galleries.map (afterWrites (galleryWrites langs p.request (blockCount p.request.body))) ++ new ∧
      ∀ g ∈ new, g.entryId = e.id := by
  let blocks := mintIds mint s.minted (readBlocks p.request.body langs)
  let st : EntryStore × List ContentBlockEdit :=
    (⟨e.id, blocks.1.map (ContentBlockEdit.toBlock langs), s.galleries, blocks.2⟩, blocks.1)
  have hturned : Turned s.galleries (readBlocks p.request.body langs) st.1.id
      (galleryWrites langs p.request (blockCount p.request.body)) (blockCount p.request.body)
      ((List.range (blockCount p.request.body)).foldl (galleryTurn mint langs p.request) st) :=
    turned_foldl hids rfl (map_wanted_mintIds mint _ _) le_rfl
  obtain ⟨new, hgalleries, hnew⟩ := hturned.galleries
  refine ⟨new, ?_, hnew⟩
  have hroute : (contentRoute mint langs p.request ⟨e.id, e.content, s.galleries, s.minted⟩).1 =
      ((List.range (blockCount p.request.body)).foldl (galleryTurn mint langs p.request) st).1 := by
    simp [contentRoute, ContentPost.request, EntryStore.updateEntryContent, hwrite, st, blocks]
  rw [hroute, hgalleries]

/-- Nothing is stored of the galleries when the blocks are not. -/
theorem galleries_of_not_done (hwrite : p.write ≠ .done) (store : EntryStore) :
    (contentRoute mint langs p.request store).1.galleries = store.galleries := by
  simp [contentRoute, ContentPost.request, EntryStore.updateEntryContent, hwrite]

/-- The galleries of the other entries are as before when the writes leave each of them as it is. -/
theorem filter_afterWrites_iff {id : IdHex} (old : List MediaGallery)
    (hnew : ∀ g ∈ new, g.entryId = id) (writes : List (IdHex × List Bytes)) :
    ((old.map (afterWrites writes) ++ new).filter fun g => g.entryId ≠ id) = old.filter (fun g => g.entryId ≠ id) ↔
      ∀ g ∈ old, g.entryId ≠ id → lastWrite writes g = g.content := by
  have hnone : new.filter (fun g => g.entryId ≠ id) = [] := by
    refine List.filter_eq_nil_iff.mpr fun g hg => ?_
    simp [hnew g hg]
  have hmapped : (old.map (afterWrites writes)).filter (fun g => g.entryId ≠ id) =
      (old.filter fun g => g.entryId ≠ id).map (afterWrites writes) := by
    rw [List.filter_map]
    rfl
  rw [List.filter_append, hnone, List.append_nil, hmapped]
  conv_lhs => rhs; rw [← List.map_id (old.filter _)]
  rw [List.map_inj_left]
  constructor
  · intro h g hg hforeign
    have hsame := h g (List.mem_filter.mpr ⟨hg, decide_eq_true hforeign⟩)
    exact congrArg MediaGallery.content hsame
  · intro h g hg
    obtain ⟨hg, hforeign⟩ := List.mem_filter.mp hg
    rw [afterWrites, h g hg (of_decide_eq_true hforeign)]
    rfl

/-- A request that comes to the content of its entry has it saved. -/
theorem entryContentRoute_of_edits (mint : ℕ → IdHex) (langs : List Bytes) {e : EntryDoc} (h : Edits s p e) :
    (entryContentRoute mint langs s p).1 =
      let saved := contentRoute mint langs p.request ⟨e.id, e.content, s.galleries, s.minted⟩
      { entries := (s.entries.updateEntry p.idHex (.setContent saved.1.content) .done).1
        galleries := saved.1.galleries
        minted := saved.1.minted } := by
  obtain ⟨hallowed, hentry, user, role, hsession, hedit⟩ := h
  rw [entryContentRoute, if_neg (by simp [hallowed]), hsession]
  dsimp only
  rw [hentry]
  dsimp only
  rw [if_neg (by simp [hedit])]

/-- Any other request leaves everything as it is. -/
theorem entryContentRoute_of_not_edits (mint : ℕ → IdHex) (langs : List Bytes) (h : ∀ e, ¬ Edits s p e) :
    (entryContentRoute mint langs s p).1 = s := by
  rw [entryContentRoute]
  by_cases hallowed : p.allowed = true
  swap
  · rw [if_pos (by simp [hallowed])]
  rw [if_neg (by simp [hallowed])]
  cases hsession : p.session with
  | error refusal => rfl
  | ok passed =>
    obtain ⟨user, role⟩ := passed
    cases hentry : s.entries.getEntryForEdit p.idHex with
    | none => rfl
    | some e =>
      have hrefused : canEditEntry role user e = false :=
        Bool.eq_false_iff.mpr fun hedit => h e ⟨hallowed, hentry, user, role, hsession, hedit⟩
      simp [hrefused]

/-- **Saving the content of an entry keeps to it** exactly when the last write to each gallery of another
entry leaves it what it holds. -/
theorem entryContent_keepsToEntry_iff (hids : (s.galleries.map (·.id)).Nodup) :
    KeepsToEntry s (entryContentRoute mint langs s p).1 p ↔ LeavesGalleries langs s p := by
  by_cases hedits : ∃ e, Edits s p e
  swap
  · rw [not_exists] at hedits
    rw [entryContentRoute_of_not_edits mint langs hedits]
    exact iff_of_true ⟨rfl, rfl, fun _ => rfl⟩ fun e he => absurd he (hedits e)
  obtain ⟨e, he⟩ := hedits
  rw [entryContentRoute_of_edits mint langs he]
  have honly : ∀ e', Edits s p e' → e' = e :=
    fun e' he' => Option.some.inj (he'.2.1.symm.trans he.2.1)
  obtain ⟨hoid, -⟩ := Entries.of_getEntryForEdit he.2.1
  have hothers (content : List StoredBlock) :
      (s.entries.updateEntry p.idHex (.setContent content) .done).1.filter
        (fun e => oidFromString p.idHex ≠ some e.id) =
      s.entries.filter fun e => oidFromString p.idHex ≠ some e.id :=
    Entries.filter_updateEntry fun _ => rfl
  by_cases hwrite : p.write = .done
  · obtain ⟨new, hgalleries, hnew⟩ := galleries_contentRoute mint langs hids hwrite e
    have hiff := filter_afterWrites_iff s.galleries hnew (galleryWrites langs p.request (blockCount p.request.body))
    constructor
    · intro h e' he' _
      rw [honly e' he']
      refine hiff.mp ?_
      rw [← hgalleries]
      simpa [hoid, eq_comm] using h.galleries
    · intro h
      refine ⟨hothers _, ?_, fun hno => absurd he (hno e)⟩
      have := hiff.mpr (h e he hwrite)
      rw [← hgalleries] at this
      simpa [hoid, eq_comm] using this
  · refine iff_of_true ⟨hothers _, ?_, fun hno => absurd he (hno e)⟩ fun _ _ hdone => absurd hdone hwrite
    show (contentRoute mint langs p.request ⟨e.id, e.content, s.galleries, s.minted⟩).1.galleries.filter _ = _
    rw [galleries_of_not_done hwrite]

end

/-! ## A gallery of another author -/

/-- The entry and the gallery of Ana, and the entry of Bo. -/
def twoAuthors : ContentStore where
  entries :=
    [.new (lit "0a0000000000000000000001") (some (lit "0b0000000000000000000001")) (lit "blog"),
      .new (lit "0a0000000000000000000002") (some (lit "0b0000000000000000000002")) (lit "blog")]
  galleries := [⟨lit "0c0000000000000000000001", [lit "/a.jpg"], lit "0a0000000000000000000001"⟩]
  minted := 0

/-- Bo is signed in. -/
def boSession : GateState where
  sessions := [⟨(List.replicate 16 (lit "4f2a")).flatten, some 1700086400000,
    some (lit "0b0000000000000000000002")⟩]
  users := [(lit "0b0000000000000000000002", ⟨lit "Bo", lit "bo@a.org", none, .text (lit "author")⟩)]
  now := 1700000000

/-- Bo saves one block in the entry of his, a gallery of this id. -/
def boSaves (galleryId : Bytes) : ContentPost where
  genericHash := fun _ _ => sessionHash
  gate := boSession
  http :=
    { method := lit "POST"
      url := lit "/dashboard/api/entries/0a0000000000000000000002/content"
      protocol := lit "HTTP/1.1"
      headers := [⟨lit "Cookie", lit "session=" ++ (List.replicate 16 (lit "4f2a")).flatten⟩,
        ⟨lit "X-CSRF-Token", bin2hex sessionHash⟩]
      body := some (lit "content_count=1&content_0_type=gallery" ++ lit "&content_0_extra_data=" ++
        galleryId ++ lit "&content_0_text_en=x") }
  idHex := lit "0a0000000000000000000002"

/-- A gallery that has no id yet becomes one of the entry. -/
theorem entryContent_keepsToEntry_twoAuthors :
    (twoAuthors.galleries.map (·.id)).Nodup ∧
      KeepsToEntry twoAuthors (entryContentRoute countedIds [lit "en"] twoAuthors (boSaves [])).1 (boSaves []) := by
  have hids : (twoAuthors.galleries.map (·.id)).Nodup := by decide
  have hnone : galleryWrites [lit "en"] (boSaves []).request (blockCount (boSaves []).request.body) = [] := by
    decide
  refine ⟨hids, (entryContent_keepsToEntry_iff hids).mpr fun e _ _ g _ _ => ?_⟩
  rw [hnone]
  rfl

/-- Bo writes over the gallery of Ana: the address `x` stands in it. -/
theorem entryContent_takesGallery :
    ¬ KeepsToEntry twoAuthors (entryContentRoute countedIds [lit "en"] twoAuthors (boSaves (lit "0c0000000000000000000001"))).1
        (boSaves (lit "0c0000000000000000000001")) := by
  intro h
  refine absurd h.galleries ?_
  decide +kernel

end BoatRudder.WebServer
