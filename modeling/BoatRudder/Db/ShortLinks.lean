import BoatRudder.Runs.Calls
import BoatRudder.Runs.Collection
import BoatRudder.Text.Bytes

/-! # Short links

The collection `short_links`, from codes to paths, as calls of `short_link_get_or_create` find in it and
insert into it, each access to the database a step of its own. Two calls for one path that both find
nothing store two codes for it; while no call stores a second one, links are stable
(**`links_stable`**). -/

namespace BoatRudder.Db

open Collection

/-! ## The collection -/

/-- A document of `short_links`. -/
structure ShortLink where
  /-- Its `_id`. -/
  code : Bytes
  targetPath : Bytes
  deriving DecidableEq, Repr

/-- The collection. -/
abbrev ShortLinks := List ShortLink

/-- `CODE_ALPHABET`. -/
def codeAlphabet : Bytes := lit "0123456789ABCDEFGHIJKLMNOPQRSTUVWXYZabcdefghijklmnopqrstuvwxyz"

/-- `random_code`, from what `randombytes_uniform` gives. -/
def randomCode (draw : Fin 7 → Fin 62) : Bytes := List.ofFn fun i => codeAlphabet.getD (draw i) 0

namespace ShortLinks

variable (links : ShortLinks)

/-- `find_code_for_path`. -/
def findCodeForPath (order : FindOrder ShortLink) (targetPath : Bytes) : Option Bytes :=
  (order.find (fun l => l.targetPath = targetPath) links).map (·.code)

/-- `short_link_resolve`. -/
def resolve (code : Bytes) : Option Bytes :=
  (links.find? fun l => l.code = code).map (·.targetPath)

/-- Whether the unique index on `_id` has this code. -/
def hasCode (code : Bytes) : Bool := links.any fun l => l.code = code

end ShortLinks

/-! ## Calls -/

/-- A call of `short_link_get_or_create`: its argument, the order in which it finds links, what it
draws at each attempt, and how an insert whose code is new ends. -/
structure ShortLinkRequest where
  targetPath : Bytes
  order : FindOrder ShortLink := .natural
  draws : ℕ → Fin 7 → Fin 62
  writes : ℕ → WriteOutcome := fun _ => .done

/-- The code a call tries at an attempt. -/
def ShortLinkRequest.code (r : ShortLinkRequest) (attempt : ℕ) : Bytes := randomCode (r.draws attempt)

/-- Where a call stands: before its query, before the insert of an attempt, behind its return. -/
inductive ShortLinkCall
  | find (r : ShortLinkRequest)
  | insert (r : ShortLinkRequest) (attempt : ℕ)
  | done (r : ShortLinkRequest) (code : Option Bytes)

/-- `short_link_get_or_create`, one step. -/
def ShortLinkCall.step (links : ShortLinks) : ShortLinkCall → ShortLinks × ShortLinkCall
  | .find r =>
    match links.findCodeForPath r.order r.targetPath with
    | some code => (links, .done r (some code))
    | none => (links, .insert r 0)
  | .insert r attempt =>
    -- a duplicate key: the next attempt, of five
    if links.hasCode (r.code attempt) then
      (links, if attempt + 1 < 5 then .insert r (attempt + 1) else .done r none)
    else
      match r.writes attempt with
      | .done => (links ++ [⟨r.code attempt, r.targetPath⟩], .done r (some (r.code attempt)))
      | .unanswered => (links ++ [⟨r.code attempt, r.targetPath⟩], .done r none)
      | .failed => (links, .done r none)
  | .done r code => (links, .done r code)

/-- A site's short links: no code is stored twice, as the index on `_id` has it, and no path. -/
structure ShortLinkSite where
  links : ShortLinks
  codes : (links.map (·.code)).Nodup
  targets : (links.map (·.targetPath)).Nodup

/-- The calls on them. -/
def ShortLinkSite.service (site : ShortLinkSite) :
    Service ShortLinks ShortLinkCall ShortLinkRequest Empty where
  init := site.links
  begin := .find
  act := ShortLinkCall.step
  env := fun _ e => nomatch e

/-- The links and the calls after a run. -/
def ShortLinkSite.after (site : ShortLinkSite) (run : List (CallEvent ShortLinkRequest Empty)) :
    CallState ShortLinks ShortLinkCall :=
  site.service.machine.after run

/-! ## Stability, and its condition -/

/-- A call has returned a code for a path. -/
def Returned (w : CallState ShortLinks ShortLinkCall) (targetPath code : Bytes) : Prop :=
  ∃ r, .done r (some code) ∈ w.calls ∧ r.targetPath = targetPath

/-- **Links are stable** in a run. -/
structure LinksStable (site : ShortLinkSite) (run : List (CallEvent ShortLinkRequest Empty)) : Prop where
  /-- A code that was returned resolves to the path it was returned for from then on. -/
  resolves : ∀ pre post targetPath code, run = pre ++ post →
    Returned (site.after pre) targetPath code → (site.after run).shared.resolve code = some targetPath
  /-- No two paths share a code. -/
  distinct : ∀ targetPath targetPath' code, Returned (site.after run) targetPath code →
    Returned (site.after run) targetPath' code → targetPath = targetPath'
  /-- Calls with one path return one code. -/
  same : ∀ targetPath code code', Returned (site.after run) targetPath code →
    Returned (site.after run) targetPath code' → code = code'

/-- **The condition**: an insert that stores a link finds none for its path. -/
def StoresFirst (links : ShortLinks) : ShortLinkCall → Prop
  | .insert r attempt => links.hasCode (r.code attempt) = false → r.writes attempt ≠ .failed →
      ∀ l ∈ links, l.targetPath ≠ r.targetPath
  | _ => True

/-! ## Stable links -/

section

variable {links : ShortLinks} {site : ShortLinkSite}

namespace ShortLinks

theorem hasCode_eq_false {code : Bytes} (h : links.hasCode code = false) :
    code ∉ links.map (·.code) := by
  intro hmem
  obtain ⟨l, hl, rfl⟩ := List.mem_map.mp hmem
  exact List.any_eq_false.mp h l hl (decide_eq_true rfl)

/-- A link that is stored under its own code resolves. -/
theorem resolve_of_mem (hcodes : (links.map (·.code)).Nodup) {code targetPath : Bytes}
    (h : ⟨code, targetPath⟩ ∈ links) : links.resolve code = some targetPath := by
  rw [resolve, find?_key_of_mem hcodes h]
  rfl

theorem mem_of_findCodeForPath {order : FindOrder ShortLink} {targetPath code : Bytes}
    (h : links.findCodeForPath order targetPath = some code) : ⟨code, targetPath⟩ ∈ links := by
  obtain ⟨l, hfind, rfl⟩ := Option.map_eq_some_iff.mp h
  obtain rfl : l.targetPath = targetPath := by simpa using FindOrder.of_find hfind
  exact FindOrder.mem_of_find hfind

end ShortLinks

/-- What a call knows of the links: the one it returns is stored. -/
def ShortLinkCall.Known (links : ShortLinks) : ShortLinkCall → Prop
  | .done r (some code) => ⟨code, r.targetPath⟩ ∈ links
  | _ => True

/-- **What a step does**: it stores nothing, or a link for the call's path whose code is new. -/
theorem ShortLinkCall.step_cases (links : ShortLinks) (c : ShortLinkCall) :
    (c.step links).1 = links ∨
      ∃ r attempt, c = .insert r attempt ∧ links.hasCode (r.code attempt) = false ∧
        r.writes attempt ≠ .failed ∧ (c.step links).1 = links ++ [⟨r.code attempt, r.targetPath⟩] := by
  cases c with
  | find r =>
    refine Or.inl ?_
    rw [step]
    split <;> rfl
  | insert r attempt =>
    by_cases hcode : links.hasCode (r.code attempt) = true
    · exact Or.inl (by rw [step, if_pos hcode])
    · have hnew : links.hasCode (r.code attempt) = false := by simpa using hcode
      cases hwrite : r.writes attempt with
      | done => exact Or.inr ⟨r, attempt, rfl, hnew, by simp [hwrite], by rw [step, if_neg hcode, hwrite]⟩
      | unanswered =>
        exact Or.inr ⟨r, attempt, rfl, hnew, by simp [hwrite], by rw [step, if_neg hcode, hwrite]⟩
      | failed => exact Or.inl (by rw [step, if_neg hcode, hwrite])
  | done r code => exact Or.inl rfl

/-- A step leaves the call with a link that is stored. -/
theorem ShortLinkCall.step_known {c : ShortLinkCall} (h : c.Known links) :
    (c.step links).2.Known (c.step links).1 := by
  cases c with
  | find r =>
    rw [step]
    cases hfind : links.findCodeForPath r.order r.targetPath with
    | none => trivial
    | some code => exact ShortLinks.mem_of_findCodeForPath hfind
  | insert r attempt =>
    rw [step]
    split_ifs
    · trivial
    · trivial
    · cases r.writes attempt with
      | done => exact List.mem_append_right _ (List.mem_singleton.mpr rfl)
      | unanswered => trivial
      | failed => trivial
  | done r code => exact h

theorem ShortLinkCall.Known.mono {c : ShortLinkCall} {links' : ShortLinks} (hsub : links <+: links')
    (h : c.Known links) : c.Known links' := by
  cases c with
  | find r => trivial
  | insert r attempt => trivial
  | done r code =>
    cases code with
    | none => trivial
    | some code => exact hsub.subset h

/-- Links are never changed, and a code is never stored twice. -/
theorem ShortLinkSite.guarantees (site : ShortLinkSite) :
    site.service.Guarantees (fun links => (links.map (·.code)).Nodup) (· <+: ·)
      fun links c => c.Known links where
  init := site.codes
  begin := fun _ _ _ => trivial
  act := by
    intro links c hcodes hknown
    refine ⟨?_, ?_, ShortLinkCall.step_known hknown⟩
    · show ((c.step links).1.map (·.code)).Nodup
      rcases c.step_cases links with heq | ⟨r, attempt, -, hnew, -, heq⟩
      · rwa [heq]
      · rw [heq, nodup_map_concat]
        refine ⟨hcodes, fun l hl hcode => ?_⟩
        exact ShortLinks.hasCode_eq_false hnew (List.mem_map.mpr ⟨l, hl, hcode⟩)
    · show links <+: (c.step links).1
      rcases c.step_cases links with heq | ⟨r, attempt, -, -, -, heq⟩
      · rw [heq]
      · rw [heq]
        exact List.prefix_append _ _
  env := fun _ e => nomatch e
  stable := fun _ _ _ _ hsub hknown => hknown.mono hsub

/-- **No path is stored twice** all along a run exactly when every insert that stores a link finds
none for its path. -/
theorem targets_nodup_iff (site : ShortLinkSite) (run : List (CallEvent ShortLinkRequest Empty)) :
    (∀ pre, pre <+: run → ((site.after pre).shared.map (·.targetPath)).Nodup) ↔
      site.service.EachStep StoresFirst run := by
  refine Service.always_iff_eachStep (S := site.service)
    (I := fun links => (links.map (·.targetPath)).Nodup) site.targets ?_ (fun _ e => nomatch e) run
  intro links c htargets
  show ((c.step links).1.map (·.targetPath)).Nodup ↔ StoresFirst links c
  rcases c.step_cases links with heq | ⟨r, attempt, rfl, hnew, hwrite, heq⟩
  · rw [heq]
    refine iff_of_true htargets ?_
    cases c with
    | find r => trivial
    | done r code => trivial
    | insert r attempt =>
      -- nothing was stored, so the insert failed
      intro hnew hwrite
      rw [ShortLinkCall.step, if_neg (by simp [hnew])] at heq
      cases hcase : r.writes attempt with
      | failed => exact absurd hcase hwrite
      | _ =>
        rw [hcase] at heq
        simp at heq
  · rw [heq, nodup_map_concat]
    exact ⟨fun h _ _ => h.2, fun h => ⟨htargets, h hnew hwrite⟩⟩

/-- A link that was returned is stored from then on. -/
theorem Returned.stored {pre : List (CallEvent ShortLinkRequest Empty)} {targetPath code : Bytes}
    (h : Returned (site.after pre) targetPath code) (post : List (CallEvent ShortLinkRequest Empty)) :
    ⟨code, targetPath⟩ ∈ (site.after (pre ++ post)).shared := by
  obtain ⟨r, hcall, rfl⟩ := h
  have hstored : ⟨code, r.targetPath⟩ ∈ (site.after pre).shared :=
    (site.guarantees.after pre).2 _ hcall
  have hsub := site.guarantees.rel (fun s => List.prefix_refl s) (fun h h' => h.trans h') pre post
  exact hsub.subset hstored

/-- **Links are stable in every run in which no call stores a second link for a path.** -/
theorem links_stable {run : List (CallEvent ShortLinkRequest Empty)}
    (h : site.service.EachStep StoresFirst run) : LinksStable site run where
  resolves := by
    rintro pre post targetPath code rfl hreturned
    exact ShortLinks.resolve_of_mem (site.guarantees.after _).1 (hreturned.stored post)
  distinct := by
    intro targetPath targetPath' code hreturned hreturned'
    have hcodes : ((site.after run).shared.map (·.code)).Nodup := (site.guarantees.after run).1
    have hstored := ShortLinks.resolve_of_mem hcodes (by simpa using hreturned.stored [])
    have hstored' := ShortLinks.resolve_of_mem hcodes (by simpa using hreturned'.stored [])
    exact Option.some.inj (hstored.symm.trans hstored')
  same := by
    intro targetPath code code' hreturned hreturned'
    have htargets := (targets_nodup_iff site run).mpr h run (List.prefix_refl _)
    have hstored : ⟨code, targetPath⟩ ∈ (site.after run).shared := by simpa using hreturned.stored []
    have hstored' : ⟨code', targetPath⟩ ∈ (site.after run).shared := by simpa using hreturned'.stored []
    exact congrArg ShortLink.code (List.inj_on_of_nodup_map htargets hstored hstored' rfl)

end

/-! ## Two visitors -/

/-- A site without links. -/
def noLinks : ShortLinkSite := ⟨[], List.nodup_nil, List.nodup_nil⟩

/-- A visitor of a gallery, whose first code is one digit, seven times. -/
def galleryVisit (digit : Fin 62) : ShortLinkRequest where
  targetPath := lit "/gallery/66f"
  draws := fun _ _ => digit

/-- Two visitors open a gallery, one after the other. -/
def oneByOne : List (CallEvent ShortLinkRequest Empty) :=
  [.call (galleryVisit 0), .run 0, .run 0, .call (galleryVisit 1), .run 1]

theorem links_stable_oneByOne : LinksStable noLinks oneByOne := by
  refine links_stable ?_
  rw [← targets_nodup_iff]
  have hshort : ∀ n ≤ oneByOne.length,
      ((noLinks.after (oneByOne.take n)).shared.map (·.targetPath)).Nodup := by decide
  intro pre hpre
  rw [List.prefix_iff_eq_take.mp hpre]
  exact hshort _ hpre.length_le

/-- Two visitors open a gallery at once: both look for its code before either stores one. -/
def atOnce : List (CallEvent ShortLinkRequest Empty) :=
  [.call (galleryVisit 0), .call (galleryVisit 1), .run 0, .run 1, .run 0, .run 1]

/-- Each of them gets a code of their own. -/
theorem links_not_stable : ¬ LinksStable noLinks atOnce := by
  intro h
  have hfirst : Returned (noLinks.after atOnce) (lit "/gallery/66f") (lit "0000000") :=
    ⟨galleryVisit 0, List.mem_of_getElem? (i := 0) rfl, rfl⟩
  have hsecond : Returned (noLinks.after atOnce) (lit "/gallery/66f") (lit "1111111") :=
    ⟨galleryVisit 1, List.mem_of_getElem? (i := 1) rfl, rfl⟩
  exact absurd (h.same _ _ _ hfirst hsecond) (by decide)

end BoatRudder.Db
