import BoatRudder.WebServer.ExtensionTarget

/-! # Where an extension's redirect leads

A redirect of an extension is sent on below its mount, but its dot segments stay in it. Where the
browser lands is below the mount exactly when the redirect goes down again what it climbs
(**`redirect_staysInMount_iff`**). -/

namespace BoatRudder.WebServer

open Extensions UriPath

/-! ## Staying in the mount -/

/-- A `Location` names a path on the same host. -/
def SameHost (location : Bytes) : Prop := location.head? = some 47 ∧ (location.drop 1).head? ≠ some 47

/-- **An answer keeps the browser in the mount**: it is refused, or a redirect to the mount or below it
once the dot segments are removed; some browsers read `%2e` as a dot too. -/
def StaysInMount (encoded : Bool) (name : Bytes) : ExtensionAnswer → Prop
  | .redirect location =>
    SameHost location ∧ Within (mountOf name) (resolvedPath encoded (rawPath location))
  | .error status => status = 502
  | _ => False

/-- The segments of a mount. -/
def mountSegments (name : Bytes) : List Bytes := [lit "dashboard", lit "ext", name]

/-- **The condition**: a `Location` that is let through climbs over nothing, or goes down again as many
last segments of the mount as it has climbed. -/
def ClimbsBack (encoded : Bool) (name location : Bytes) : Prop :=
  acceptsLocation location = true →
    (mountSegments name).drop (3 - (walkBelow encoded (rawPath location)).climbs) <+:
      (walkBelow encoded (rawPath location)).names

/-! ## The redirect -/

section

variable {encoded : Bool} {name location : Bytes} {site : Option Bytes}

theorem joined_mountSegments (name : Bytes) : UriPath.joined (mountSegments name) = mountOf name := by
  simp [UriPath.joined, mountSegments, mountOf, extensionRoutePrefix, lit]

/-- A segment of a mount has no byte that a name has not. -/
theorem of_mem_mountSegments (hname : validName name = true) {s : Bytes} (hs : s ∈ mountSegments name) :
    47 ∉ s ∧ readSegment encoded s = .name := by
  have hvalid : validName s = true := by
    rcases List.mem_cons.mp hs with rfl | hs
    · decide
    · rcases List.mem_cons.mp hs with rfl | hs
      · decide
      · rwa [List.mem_singleton.mp hs]
  simp only [validName, Bool.and_eq_true, List.all_eq_true, decide_eq_true_eq] at hvalid
  obtain ⟨⟨hne, -⟩, hbytes⟩ := hvalid
  have hbyte : ∀ c ∈ s, c ≠ 47 ∧ c ≠ 46 ∧ c ≠ 37 := by
    intro c hc
    have := hbytes c hc
    refine ⟨?_, ?_, ?_⟩ <;> rintro rfl <;> exact absurd this (by decide)
  refine ⟨fun h47 => (hbyte 47 h47).1 rfl, ?_⟩
  have hdots : dots encoded s = none := by
    cases s with
    | nil => exact absurd rfl hne
    | cons c s =>
      obtain ⟨-, hdot, hpercent⟩ := hbyte c List.mem_cons_self
      rw [dots]
      · exact List.cons_ne_nil c s
      · rintro t ht
        exact hdot (List.cons.inj ht).1
      · rintro d t ht
        exact hpercent (List.cons.inj ht).1
  rw [readSegment, hdots]
  rfl

/-- What is put behind a path, or behind a query, leaves the path as it is. -/
theorem rawPath_append_of_stop {a b : Bytes}
    (h : 63 ∈ a ∨ b = [] ∨ b.head? = some 63 ∨ b.head? = some 35) : rawPath (a ++ b) = rawPath a := by
  unfold rawPath
  rw [List.takeWhile_append]
  split_ifs with hall
  · have hself := List.takeWhile_eq_self_iff.mp ((List.takeWhile_prefix _).eq_of_length hall)
    have hstop : b.takeWhile (fun c => decide (c ≠ 63 ∧ c ≠ 35)) = [] := by
      rcases h with hquery | rfl | hb | hb
      · exact absurd (hself 63 hquery) (by decide)
      · rfl
      · obtain ⟨b, rfl⟩ := List.head?_eq_some_iff.mp hb
        exact List.takeWhile_cons_of_neg (by decide)
      · obtain ⟨b, rfl⟩ := List.head?_eq_some_iff.mp hb
        exact List.takeWhile_cons_of_neg (by decide)
    rw [hstop, List.append_nil, List.takeWhile_eq_self_iff.mpr hself]
  · rfl

/-- The site's key leaves the path of a `Location` as it is. -/
theorem rawPath_tag (site : Option Bytes) (location : Bytes) :
    rawPath (requestSiteTagLocation site location) = rawPath location := by
  cases site with
  | none => rfl
  | some key =>
    rw [requestSiteTagLocation]
    split_ifs with hsite
    · obtain ⟨f, hf, hhead⟩ := fragment_split location
      have hpath : rawPath location = rawPath (beforeFragment location) := by
        conv_lhs => rw [hf]
        exact rawPath_append_of_stop (Or.inr (hhead.imp_right Or.inr))
      rw [hpath]
      show rawPath (beforeFragment location ++ (if 63 ∈ beforeFragment location then lit "&" else lit "?") ++
        lit "site=" ++ key ++ _) = _
      rw [List.append_assoc, List.append_assoc, List.append_assoc]
      apply rawPath_append_of_stop
      by_cases hquery : 63 ∈ beforeFragment location
      · exact Or.inl hquery
      · exact Or.inr (Or.inr (Or.inl (by rw [if_neg hquery]; rfl)))
    · rfl

theorem sameHost_tag (h : SameHost location) : SameHost (requestSiteTagLocation site location) := by
  cases site with
  | none => exact h
  | some key =>
    rw [requestSiteTagLocation]
    split_ifs with hsite
    · obtain ⟨t, rfl⟩ := List.head?_eq_some_iff.mp h.1
      have ht : t.head? ≠ some 47 := h.2
      refine ⟨rfl, ?_⟩
      cases t with
      | nil =>
        show some (63 : UInt8) ≠ some 47
        decide
      | cons c t =>
        by_cases hc : c = 35
        · subst hc
          show some (63 : UInt8) ≠ some 47
          decide
        · have hbase : beforeFragment (47 :: c :: t) = 47 :: c :: beforeFragment t := by
            rw [beforeFragment, List.takeWhile_cons_of_pos (by decide),
              List.takeWhile_cons_of_pos (by simpa using hc)]
            rfl
          dsimp only
          rw [← beforeFragment, hbase]
          exact ht
    · exact h

/-- **Where a redirect leads.** -/
theorem staysInMount_answer_iff (hname : validName name = true) (info : ExtensionInfo)
    {rs : ExtensionResponse} (hstatus : 300 ≤ rs.status ∧ rs.status < 400) :
    StaysInMount encoded name (extensionAnswer site name info rs) ↔ ClimbsBack encoded name rs.location := by
  rw [extensionAnswer, if_pos hstatus]
  by_cases haccept : acceptsLocation rs.location = true
  · rw [if_pos haccept]
    simp only [acceptsLocation, Bool.and_eq_true, decide_eq_true_eq] at haccept
    obtain ⟨t, ht⟩ := List.head?_eq_some_iff.mp haccept.1.1
    have hpath : rawPath rs.location = 47 :: rawPath t := by
      rw [ht]
      exact List.takeWhile_cons_of_pos (by decide)
    have hmount : rawPath (mountOf name ++ rs.location) =
        UriPath.joined (mountSegments name) ++ 47 :: rawPath t := by
      rw [rawPath_append fun c hc => (of_mem_mountOf hname hc).2.2.2.2, hpath, joined_mountSegments]
    have hhost : SameHost (requestSiteTagLocation site (mountOf name ++ rs.location)) :=
      sameHost_tag ⟨rfl, show some (100 : UInt8) ≠ some 47 by decide⟩
    have hsegments : ∀ s ∈ mountSegments name, 47 ∉ s ∧ readSegment encoded s = .name :=
      fun s hs => of_mem_mountSegments hname hs
    have hwithin := within_resolvedPath_iff (fun s hs => (hsegments s hs).1) (fun s hs => (hsegments s hs).2)
      (rawPath t)
    rw [StaysInMount, and_iff_right hhost, rawPath_tag, hmount, ← joined_mountSegments, hwithin, ClimbsBack, hpath]
    exact ⟨fun h _ => h, fun h => h (by simpa [acceptsLocation] using haccept)⟩
  · rw [if_neg haccept]
    exact iff_of_true rfl fun h => absurd h haccept

/-- **A redirect of an extension stays in its mount** exactly when it goes down again what it climbs. -/
theorem redirect_staysInMount_iff {v : ExtensionVisit} {req : HttpRequest} {info : ExtensionInfo}
    {rs : ExtensionResponse} (h : v.AnsweredBy req name info rs) (hstatus : 300 ≤ rs.status ∧ rs.status < 400) :
    StaysInMount encoded name (v.serveExtension req (decodedUrl req.url)) ↔
      ClimbsBack encoded name rs.location := by
  rw [v.serveExtension_eq h]
  exact staysInMount_answer_iff (v.validName_of_get h.2.2.1) info hstatus

end

/-- A visit on which the extension answers with a redirect. -/
def redirectVisit (location : Bytes) : ExtensionVisit :=
  { helloVisit with forward := fun _ _ => .ok ⟨302, [], [], location, []⟩ }

theorem answeredBy_redirectVisit (location : Bytes) :
    (redirectVisit location).AnsweredBy (helloRequest (lit "/dashboard/ext/hello/")) (lit "hello")
      { name := lit "hello", enabled := true, state := .running } ⟨302, [], [], location, []⟩ := by
  have hgate : requireDashboardSession helloVisit.genericHash helloVisit.gate
      (helloRequest (lit "/dashboard/ext/hello/")) = .ok (lit "65f000000000000000000001", lit "admin") := by
    decide
  exact ⟨rfl, by decide, rfl, rfl, _, _, hgate, rfl⟩

/-- A `Location` that goes back by one segment. -/
def listLocation : Bytes := lit "/notes/%2E./list?page=2"

theorem redirect_staysInMount_list :
    StaysInMount true (lit "hello") ((redirectVisit listLocation).serveExtension
      (helloRequest (lit "/dashboard/ext/hello/"))
      (decodedUrl (helloRequest (lit "/dashboard/ext/hello/")).url)) := by
  have hanswered := answeredBy_redirectVisit listLocation
  refine (redirect_staysInMount_iff hanswered ⟨by decide, by decide⟩).mpr fun _ => ?_
  exact List.isPrefixOf_iff_prefix.mp (by decide)

/-- **A redirect to `/../../users`** leads to the users of the dashboard, whatever the browser reads as
dots. -/
theorem redirect_leavesMount : ¬ ∃ encoded : Bool, StaysInMount encoded (lit "hello")
    (helloVisit.serveExtension (helloRequest (lit "/dashboard/ext/hello/"))
      (decodedUrl (lit "/dashboard/ext/hello/"))) := by
  rintro ⟨encoded, h⟩
  have hanswer : helloVisit.serveExtension (helloRequest (lit "/dashboard/ext/hello/"))
      (decodedUrl (lit "/dashboard/ext/hello/")) = .redirect (lit "/dashboard/ext/hello/../../users") := by
    decide
  have hlands : resolvedPath encoded (rawPath (lit "/dashboard/ext/hello/../../users")) =
      lit "/dashboard/users" := by
    cases encoded <;> decide
  rw [hanswer] at h
  obtain ⟨-, hwithin⟩ := h
  rw [hlands] at hwithin
  rcases hwithin with heq | hbelow
  · exact absurd heq (by decide)
  · exact absurd (List.isPrefixOf_iff_prefix.mpr hbelow) (by decide)

end BoatRudder.WebServer
