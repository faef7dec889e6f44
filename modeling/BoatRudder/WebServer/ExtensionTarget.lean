import BoatRudder.Formats.UriPath
import BoatRudder.WebServer.ServeExtension

/-! # What an extension is asked for

The target that is forwarded is cut out of the URL as it was sent, by the length of the mount, while
the extension is found by the decoded path. The two agree exactly when the URL spells the mount out,
and holds nothing that is decoded, dropped or replaced elsewhere (**`ownPart_iff`**). -/

namespace BoatRudder.WebServer

open Extensions UriPath

/-! ## Decoding piece by piece -/

variable {s : Bytes} {c : UInt8}

/-- What `url_decode` makes of a byte that begins no escape. -/
def plainByte (c : UInt8) : UInt8 := if c = 43 then 32 else c

/-- A byte and what follows it are an escape. -/
def IsEscape (c : UInt8) (s : Bytes) : Prop :=
  c = 37 ∧ ∃ a b r, s = a :: b :: r ∧ isXDigit a = true ∧ isXDigit b = true

theorem urlDecode_escape {a b : UInt8} (ha : isXDigit a = true) (hb : isXDigit b = true) (r : Bytes) :
    urlDecode (37 :: a :: b :: r) = hexByte a b :: urlDecode r := by
  rw [urlDecode, if_pos (by simp [ha, hb])]

theorem urlDecode_cons (h : ¬ IsEscape c s) : urlDecode (c :: s) = plainByte c :: urlDecode s := by
  by_cases hplus : c = 43
  · subst hplus
    rfl
  · rw [plainByte, if_neg hplus]
    by_cases hpercent : c = 37
    · subst hpercent
      rcases s with _ | ⟨a, _ | ⟨b, r⟩⟩
      · rfl
      · rfl
      · have hdigits : ¬ (isXDigit a && isXDigit b) = true := fun hd =>
          h ⟨rfl, a, b, r, rfl, by simpa using hd⟩
        rw [urlDecode, if_neg hdigits]
    · exact urlDecode_cons_of_ne hpercent hplus s

theorem urlDecode_digit {a : UInt8} (ha : isXDigit a = true) (s : Bytes) :
    urlDecode (a :: s) = a :: urlDecode s := by
  refine urlDecode_cons_of_ne ?_ ?_ s <;> rintro rfl <;> cases ha

theorem length_urlDecode_le (s : Bytes) : (urlDecode s).length ≤ s.length := by
  induction hn : s.length using Nat.strong_induction_on generalizing s with
  | _ n ih =>
    cases s with
    | nil => simp [urlDecode]
    | cons c s =>
      rw [List.length_cons] at hn
      by_cases hescape : IsEscape c s
      · obtain ⟨rfl, a, b, r, rfl, ha, hb⟩ := hescape
        have hr := ih r.length (by simp only [List.length_cons] at hn; omega) r rfl
        rw [urlDecode_escape ha hb]
        simp only [List.length_cons] at hn ⊢
        omega
      · have hs := ih s.length (by omega) s rfl
        rw [urlDecode_cons hescape, List.length_cons]
        omega

/-- **Decoding in two parts**: it is the same as in one, or what stands at the beginning of the second
part was the end of an escape or the first part held one, and what is decoded in one is shorter. -/
theorem urlDecode_append (x y : Bytes) : urlDecode (x ++ y) = x.map plainByte ++ urlDecode y ∨
    (urlDecode (x ++ y)).length + 2 ≤ x.length + (urlDecode y).length := by
  induction hn : x.length using Nat.strong_induction_on generalizing x with
  | _ n ih =>
    cases x with
    | nil => exact Or.inl rfl
    | cons c x =>
      rw [List.length_cons] at hn
      rw [List.cons_append]
      by_cases hescape : IsEscape c (x ++ y)
      · refine Or.inr ?_
        obtain ⟨rfl, a, b, r, hr, ha, hb⟩ := hescape
        rw [hr, urlDecode_escape ha hb]
        rcases x with _ | ⟨a', _ | ⟨b', x⟩⟩
        · obtain rfl : y = a :: b :: r := hr
          rw [urlDecode_digit ha, urlDecode_digit hb]
          simp only [List.length_cons] at hn ⊢
          omega
        · obtain ⟨-, rfl⟩ := List.cons.inj hr
          rw [urlDecode_digit hb]
          simp only [List.length_cons] at hn ⊢
          omega
        · obtain rfl : x ++ y = r := (List.cons.inj (List.cons.inj hr).2).2
          simp only [List.length_cons] at hn ⊢
          rcases ih x.length (by omega) x rfl with heq | hle
          · rw [heq, List.length_append, List.length_map]
            omega
          · omega
      · rw [urlDecode_cons hescape]
        rcases ih x.length (by omega) x rfl with heq | hle
        · exact Or.inl (by rw [heq, List.map_cons, List.cons_append])
        · refine Or.inr ?_
          rw [List.length_cons]
          omega

/-- No escape reaches over a byte that is no digit. -/
theorem urlDecode_append_cons (hc : isXDigit c = false) (x y : Bytes) :
    urlDecode (x ++ c :: y) = urlDecode x ++ urlDecode (c :: y) := by
  induction hn : x.length using Nat.strong_induction_on generalizing x with
  | _ n ih =>
    cases x with
    | nil => rfl
    | cons d x =>
      rw [List.length_cons] at hn
      rw [List.cons_append]
      by_cases hescape : IsEscape d x
      · obtain ⟨rfl, a, b, r, rfl, ha, hb⟩ := hescape
        rw [List.cons_append, List.cons_append, urlDecode_escape ha hb, urlDecode_escape ha hb,
          ih r.length (by simp only [List.length_cons] at hn; omega) r rfl, List.cons_append]
      · have hlonger : ¬ IsEscape d (x ++ c :: y) := by
          rintro ⟨rfl, a, b, r, hr, ha, hb⟩
          rcases x with _ | ⟨a', _ | ⟨b', x⟩⟩
          · obtain ⟨rfl, -⟩ := List.cons.inj hr
            simp [ha] at hc
          · obtain ⟨rfl, -⟩ := List.cons.inj (List.cons.inj hr).2
            simp [hb] at hc
          · obtain ⟨rfl, htail⟩ := List.cons.inj hr
            obtain ⟨rfl, -⟩ := List.cons.inj htail
            exact hescape ⟨rfl, a', b', x, rfl, ha, hb⟩
        rw [urlDecode_cons hescape, urlDecode_cons hlonger, ih x.length (by omega) x rfl,
          List.cons_append]

/-- **Bytes replaced by plus signs** leave the decoded text as long as it was, and change it. -/
theorem urlDecode_map {f : UInt8 → UInt8}
    (h : ∀ c ∈ s, f c = c ∨ f c = 43 ∧ isXDigit c = false ∧ c ≠ 37 ∧ c ≠ 32) :
    (urlDecode (s.map f)).length = (urlDecode s).length ∧
      (urlDecode (s.map f) = urlDecode s → s.map f = s) := by
  induction hn : s.length using Nat.strong_induction_on generalizing s with
  | _ n ih =>
    cases s with
    | nil => simp
    | cons c s =>
      rw [List.length_cons] at hn
      by_cases hescape : IsEscape c s
      · obtain ⟨rfl, a, b, r, rfl, ha, hb⟩ := hescape
        have hfix : ∀ d ∈ (37 : UInt8) :: a :: b :: r, isXDigit d = true ∨ d = 37 → f d = d := by
          intro d hd hkind
          rcases h d hd with hsame | ⟨-, hdigit, hpercent, -⟩
          · exact hsame
          · rcases hkind with hx | hx
            · rw [hx] at hdigit
              cases hdigit
            · exact absurd hx hpercent
        obtain ⟨hlength, hsame⟩ := ih r.length (by simp only [List.length_cons] at hn; omega)
          (fun d hd => h d (by simp [hd])) rfl
        rw [List.map_cons, List.map_cons, List.map_cons, hfix 37 (by simp) (Or.inr rfl),
          hfix a (by simp) (Or.inl ha), hfix b (by simp) (Or.inl hb), urlDecode_escape ha hb,
          urlDecode_escape ha hb, List.length_cons, List.length_cons, hlength]
        exact ⟨rfl, fun heq => by rw [hsame (List.cons.inj heq).2]⟩
      · have hc := h c List.mem_cons_self
        have hmapped : ¬ IsEscape (f c) (s.map f) := by
          rintro ⟨hpercent, a, b, r, hr, ha, hb⟩
          have hdigit : ∀ d ∈ s, isXDigit (f d) = true → f d = d := by
            intro d hd hx
            rcases h d (List.mem_cons_of_mem _ hd) with hsame | ⟨hplus, -⟩
            · exact hsame
            · rw [hplus] at hx
              cases hx
          obtain ⟨a', s', rfl, rfl, htail⟩ := List.map_eq_cons_iff.mp hr
          obtain ⟨b', s'', rfl, rfl, -⟩ := List.map_eq_cons_iff.mp htail
          refine hescape ⟨?_, a', b', s'', rfl, ?_, ?_⟩
          · rcases hc with hsame | ⟨hplus, -⟩
            · rw [← hsame, hpercent]
            · rw [hplus] at hpercent
              cases hpercent
          · rwa [hdigit a' (by simp) ha] at ha
          · rwa [hdigit b' (by simp) hb] at hb
        obtain ⟨hlength, hsame⟩ := ih s.length (by omega)
          (fun d hd => h d (List.mem_cons_of_mem _ hd)) rfl
        rw [List.map_cons, urlDecode_cons hescape, urlDecode_cons hmapped, List.length_cons,
          List.length_cons, hlength]
        refine ⟨rfl, fun heq => ?_⟩
        obtain ⟨hhead, htail⟩ := List.cons.inj heq
        rw [hsame htail]
        congr 1
        rcases hc with hfix | ⟨hplus, -, -, hspace⟩
        · exact hfix
        · -- a plus sign stands for a space, which the byte was not
          rw [hplus, plainByte, plainByte, if_pos rfl] at hhead
          split_ifs at hhead with hc43
          · rw [hplus, hc43]
          · exact absurd hhead.symm hspace

/-! ## The extension's own part -/

/-- A URL as the request parser reads one: a word that fits its field. -/
structure IsRequestUrl (url : Bytes) : Prop where
  word : ∀ c ∈ url, c ≠ 0 ∧ c ≠ 32
  fits : url.length ≤ 2047

/-- The extension's part of the decoded path; a slash when nothing is left. -/
def pathBelow (url name : Bytes) : Bytes :=
  if (decodedUrl url).drop (mountOf name).length = [] then lit "/"
  else (decodedUrl url).drop (mountOf name).length

/-- **A target is the extension's own part** of an address: its path is decoded to what stands below
the mount, its query is the one of the URL. -/
structure OwnPart (url name target : Bytes) : Prop where
  path : urlDecode (target.takeWhile (· ≠ 63)) = pathBelow url name
  query : target.dropWhile (· ≠ 63) = urlQuery url

/-- **The condition**: the URL spells the mount out, a slash, a query or nothing follows, and there is
no fragment, no control character and, in the path, no escaped NUL. -/
def SpellsMount (url name : Bytes) : Prop :=
  ∃ t, url = mountOf name ++ t ∧ (t = [] ∨ t.head? = some 47 ∨ t.head? = some 63) ∧ 35 ∉ t ∧
    (∀ c ∈ t, 32 ≤ c ∧ c ≠ 127) ∧ 0 ∉ urlDecode (t.takeWhile (· ≠ 63))

/-! ## The target that is forwarded -/

/-- What forwarding makes of a byte of the target. -/
def forwardByte (c : UInt8) : UInt8 := if c ≤ 32 ∨ c = 127 then 43 else c

theorem forwardByte_eq_iff {d : UInt8} (hd : 32 < d) (hplus : d ≠ 43) (h127 : d ≠ 127) :
    forwardByte c = d ↔ c = d := by
  unfold forwardByte
  split_ifs with hc
  · constructor
    · exact fun h => absurd h.symm hplus
    · rintro rfl
      rcases hc with hle | heq
      · exact absurd hle (UInt8.not_le.mpr hd)
      · exact absurd heq h127
  · exact Iff.rfl

/-- What is forwarded of a target that fits, and is a word. -/
theorem forwardTarget_eq {target : Bytes} (hne : target ≠ []) (hnul : 0 ∉ target)
    (hfits : target.length ≤ 2047) : forwardTarget target = target.map forwardByte := by
  have hvalue : (headerValue 2048 target).map (fun c => if c = 32 then 43 else c) =
      target.map forwardByte := by
    rw [headerValue_eq, cstr_eq_self hnul, List.take_of_length_le hfits, List.map_map]
    refine List.map_congr_left fun c _ => ?_
    simp only [Function.comp_apply, spaceControl, forwardByte, Bool.or_eq_true, decide_eq_true_eq,
      beq_iff_eq]
    by_cases h32 : c = 32
    · subst h32
      rfl
    · by_cases hc : c < 32 ∨ c = 127
      · rw [if_pos hc, if_pos rfl, if_pos (hc.imp_left UInt8.le_of_lt)]
      · rw [if_neg hc, if_neg h32, if_neg]
        rintro (hle | heq)
        · exact hc (Or.inl (UInt8.lt_of_le_of_ne hle h32))
        · exact hc (Or.inr heq)
  rw [forwardTarget, hvalue]
  exact if_neg (by simpa using hne)

section

variable {a m s t : Bytes}
variable {url name : Bytes}

/-- The mount of an extension is plain text. -/
theorem of_mem_mountOf (hname : validName name = true) {c : UInt8} (hc : c ∈ mountOf name) :
    32 < c ∧ c ≠ 127 ∧ c ≠ 37 ∧ c ≠ 43 ∧ c ≠ 63 ∧ c ≠ 35 := by
  rcases List.mem_append.mp hc with hmount | hmem
  · exact (show ∀ c ∈ extensionRoutePrefix, 32 < c ∧ c ≠ 127 ∧ c ≠ 37 ∧ c ≠ 43 ∧ c ≠ 63 ∧ c ≠ 35 by
      decide) c hmount
  · simp only [validName, Bool.and_eq_true, List.all_eq_true] at hname
    have hkind := hname.2 c hmem
    simp only [isLower, isDigit, Bool.or_eq_true, Bool.and_eq_true, decide_eq_true_eq, beq_iff_eq] at hkind
    grind

theorem plain_mountOf (hname : validName name = true) : Plain (mountOf name) := by
  intro c hc
  obtain ⟨hspace, -, hpercent, hplus, -⟩ := of_mem_mountOf hname hc
  refine ⟨hpercent, hplus, ?_⟩
  rintro rfl
  exact absurd hspace (by decide)

theorem fragment_split (url : Bytes) :
    ∃ fragment, url = beforeFragment url ++ fragment ∧ (fragment = [] ∨ fragment.head? = some 35) := by
  refine ⟨url.dropWhile (· ≠ 35), List.takeWhile_append_dropWhile.symm, ?_⟩
  rcases hrest : url.dropWhile (· ≠ 35) with _ | ⟨c, rest⟩
  · exact Or.inl hrest
  · have hhead := List.head?_dropWhile_not (fun c : UInt8 => decide (c ≠ 35)) url
    rw [hrest] at hhead
    refine Or.inr ?_
    rw [hrest]
    simpa using hhead

/-- A URL is its path, its query and its fragment. -/
theorem url_split (url : Bytes) :
    ∃ fragment, url = rawPath url ++ (urlQuery url ++ fragment) ∧
      (fragment = [] ∨ fragment.head? = some 35) := by
  obtain ⟨fragment, hurl, hhead⟩ := fragment_split url
  refine ⟨fragment, ?_, hhead⟩
  rwa [← List.append_assoc, ← takeWhile_beforeFragment, urlQuery, List.takeWhile_append_dropWhile]

theorem urlQuery_head (url : Bytes) : urlQuery url = [] ∨ (urlQuery url).head? = some 63 := by
  rcases hrest : urlQuery url with _ | ⟨c, rest⟩
  · exact Or.inl rfl
  · have hhead := List.head?_dropWhile_not (fun c : UInt8 => decide (c ≠ 63)) (beforeFragment url)
    rw [← urlQuery, hrest] at hhead
    exact Or.inr (by simpa using hhead)

theorem fragment_notMem_urlQuery (url : Bytes) : 35 ∉ urlQuery url := fun h =>
  notMem_takeWhile_ne 35 url ((List.dropWhile_suffix _).subset h)

theorem notMem_rawPath (url : Bytes) : 63 ∉ rawPath url ∧ 35 ∉ rawPath url := by
  constructor <;> intro h <;> simpa using List.mem_takeWhile_imp h

/-- The decoded path of a URL that fits. -/
theorem decodedUrl_of_fits (hfits : url.length ≤ 2047) :
    decodedUrl url = cstr (urlDecode (rawPath url)) := by
  have hpath : (rawPath url).length ≤ url.length := (List.takeWhile_prefix _).length_le
  rw [decodedUrl_eq, List.take_of_length_le (by omega)]

theorem length_cstr_le (s : Bytes) : (cstr s).length ≤ s.length := (List.takeWhile_prefix _).length_le

/-- The decoded path of a URL is as long as the mount it is below, or longer, and so is the raw one. -/
theorem length_mountOf_le (hfits : url.length ≤ 2047) (hat : Within (mountOf name) (decodedUrl url)) :
    mountOf name <+: decodedUrl url ∧ (mountOf name).length ≤ (urlDecode (rawPath url)).length ∧
      (mountOf name).length ≤ (rawPath url).length := by
  have hmount : mountOf name <+: decodedUrl url := by
    rcases hat with heq | hbelow
    · rw [heq]
    · exact (List.prefix_append _ _).trans hbelow
  have hle := hmount.length_le
  rw [decodedUrl_of_fits hfits] at hle
  have hdecoded := hle.trans (length_cstr_le _)
  exact ⟨hmount, hdecoded, hdecoded.trans (length_urlDecode_le _)⟩

/-- What is asked for within an extension's mount is handed to it. -/
theorem dispatchesToExtension_of_within {req : HttpRequest} (hname : validName name = true)
    (hat : Within (mountOf name) (decodedUrl req.url))
    (hmethod : req.method = lit "GET" ∨ req.method = lit "HEAD" ∨ req.method = lit "POST") :
    dispatchesToExtension req = true ∧ extensionName (decodedUrl req.url) = name := by
  have hslash : 47 ∉ name := fun h => by
    simp only [validName, Bool.and_eq_true, List.all_eq_true] at hname
    exact absurd (hname.2 47 h) (by decide)
  obtain ⟨t, hurl, ht⟩ : ∃ t, decodedUrl req.url = extensionRoutePrefix ++ (name ++ t) ∧
      (t = [] ∨ t.head? = some 47) := by
    rcases hat with heq | ⟨t, heq⟩
    · exact ⟨[], by rw [heq, mountOf, List.append_nil], Or.inl rfl⟩
    · exact ⟨47 :: t, by rw [← heq, mountOf]; simp, Or.inr rfl⟩
  constructor
  · rw [dispatchesToExtension, Bool.and_eq_true, List.isPrefixOf_iff_prefix, hurl]
    exact ⟨List.prefix_append _ _, by rcases hmethod with h | h | h <;> simp [h]⟩
  · rw [extensionName, hurl, List.drop_left]
    rcases ht with rfl | hhead
    · rw [List.append_nil, List.takeWhile_eq_self_iff]
      exact fun c hc => by simpa using ne_of_mem_of_not_mem hc hslash
    · obtain ⟨t, rfl⟩ := List.head?_eq_some_iff.mp hhead
      exact takeWhile_ne_append hslash t

/-- The target is what stands behind the mount, with a slash before it if there is none. -/
theorem extensionTarget_eq {tail : Bytes} (hpos : 0 < m.length) (hfits : url.length ≤ 2047)
    (htail : url.drop m.length = tail) :
    extensionTarget url m = (if tail.head? = some 47 then [] else [47]) ++ tail := by
  have hlength : tail.length ≤ 2046 := by
    rw [← htail, List.length_drop]
    omega
  rw [extensionTarget, htail]
  split_ifs with hslash
  · exact List.take_of_length_le (by omega)
  · exact List.take_of_length_le (by rw [List.length_cons]; omega)

theorem map_eq_self_iff {f : UInt8 → UInt8} : t.map f = t ↔ ∀ c ∈ t, f c = c := by
  have h := List.map_inj_left (l := t) (f := f) (g := id)
  rwa [List.map_id] at h

theorem forwardByte_of_le (h : ∀ c ∈ t, 32 < c ∧ c ≠ 127) : t.map forwardByte = t := by
  refine map_eq_self_iff.mpr fun c hc => if_neg ?_
  rintro (hle | heq)
  · exact absurd (h c hc).1 (UInt8.not_lt.mpr hle)
  · exact (h c hc).2 heq

theorem length_mountOf_pos (name : Bytes) : 0 < (mountOf name).length := by
  rw [mountOf, List.length_append]
  exact Nat.lt_of_lt_of_le (by decide) (Nat.le_add_right extensionRoutePrefix.length _)

theorem eq_slash_of_mem {c : UInt8} (h : c ∈ if t.head? = some 47 then ([] : Bytes) else [47]) : c = 47 := by
  split_ifs at h
  · exact absurd h List.not_mem_nil
  · exact List.mem_singleton.mp h

/-- **What is forwarded** of a URL stands behind the mount, with a slash before it if there is none. -/
theorem forwardTarget_extensionTarget (hurl : IsRequestUrl url) (hpos : 0 < m.length)
    (htail : url.drop m.length = t) : forwardTarget (extensionTarget url m) =
      ((if t.head? = some 47 then [] else [47]) ++ t).map forwardByte := by
  rw [extensionTarget_eq hpos hurl.fits htail, forwardTarget_eq]
  · split_ifs with hslash
    · rintro heq
      rw [List.nil_append] at heq
      rw [heq] at hslash
      cases hslash
    · exact List.cons_ne_nil _ _
  · intro h0
    rcases List.mem_append.mp h0 with h0 | h0
    · exact absurd (eq_slash_of_mem h0) (by decide)
    · rw [← htail] at h0
      exact (hurl.word 0 (List.mem_of_mem_drop h0)).1 rfl
  · have hlength := congrArg List.length htail
    rw [List.length_drop] at hlength
    have hfits := hurl.fits
    rw [List.length_append]
    split_ifs <;> simp only [List.length_nil, List.length_singleton] <;> omega

/-- **A URL that spells the mount out** asks the extension for its own part. -/
theorem ownPart_of_spellsMount (hname : validName name = true) (hurl : IsRequestUrl url)
    (h : SpellsMount url name) : OwnPart url name (forwardTarget (extensionTarget url (mountOf name))) := by
  obtain ⟨t, rfl, hstart, hfragment, hcontrol, hnul⟩ := h
  have hmount : ∀ c ∈ mountOf name, c ≠ 63 ∧ c ≠ 35 := fun c hc => (of_mem_mountOf hname hc).2.2.2.2
  have hself : beforeFragment t = t :=
    List.takeWhile_eq_self_iff.mpr fun c hc => by simpa using fun h35 : c = 35 => hfragment (h35 ▸ hc)
  have hpath : rawPath (mountOf name ++ t) = mountOf name ++ t.takeWhile (· ≠ 63) := by
    rw [rawPath_append hmount, ← takeWhile_beforeFragment, hself]
  have hquery : urlQuery (mountOf name ++ t) = t.dropWhile (· ≠ 63) := by
    have hall : beforeFragment (mountOf name ++ t) = mountOf name ++ t := by
      refine List.takeWhile_eq_self_iff.mpr fun c hc => ?_
      rcases List.mem_append.mp hc with hc | hc
      · simpa using (hmount c hc).2
      · simpa using fun h35 : c = 35 => hfragment (h35 ▸ hc)
    rw [urlQuery, hall, List.dropWhile_append_of_pos fun c hc => by simpa using (hmount c hc).1]
  have hdecoded : decodedUrl (mountOf name ++ t) = mountOf name ++ urlDecode (t.takeWhile (· ≠ 63)) := by
    have hplain := plain_mountOf hname
    rw [decodedUrl_of_fits hurl.fits, hpath, urlDecode_append_of_plain hplain,
      cstr_append_of_notMem fun h0 => (hplain 0 h0).2.2 rfl, cstr_eq_self hnul]
  have hbelow : pathBelow (mountOf name ++ t) name =
      if urlDecode (t.takeWhile (· ≠ 63)) = [] then lit "/" else urlDecode (t.takeWhile (· ≠ 63)) := by
    rw [pathBelow, hdecoded, List.drop_left]
  have htarget : forwardTarget (extensionTarget (mountOf name ++ t) (mountOf name)) =
      (if t.head? = some 47 then [] else [47]) ++ t := by
    have hword : ∀ c ∈ t, 32 < c ∧ c ≠ 127 := fun c hc =>
      ⟨UInt8.lt_of_le_of_ne (hcontrol c hc).1 (hurl.word c (List.mem_append_right _ hc)).2.symm,
        (hcontrol c hc).2⟩
    have hwhole : ∀ c ∈ (if t.head? = some 47 then [] else [47]) ++ t, 32 < c ∧ c ≠ 127 := by
      intro c hc
      rcases List.mem_append.mp hc with hslash | hc
      · rw [eq_slash_of_mem hslash]
        decide
      · exact hword c hc
    rw [forwardTarget_extensionTarget hurl (length_mountOf_pos name) List.drop_left, forwardByte_of_le hwhole]
  rw [htarget]
  rcases hstart with rfl | hslash | hquestion
  · exact ⟨by rw [hbelow]; rfl, by rw [hquery]; rfl⟩
  · obtain ⟨t, rfl⟩ := List.head?_eq_some_iff.mp hslash
    rw [if_pos hslash, List.nil_append]
    refine ⟨?_, hquery.symm⟩
    rw [hbelow, if_neg]
    rw [List.takeWhile_cons_of_pos (by decide), urlDecode_cons_of_ne (by decide) (by decide)]
    exact List.cons_ne_nil _ _
  · obtain ⟨t, rfl⟩ := List.head?_eq_some_iff.mp hquestion
    rw [if_neg (by simp)]
    exact ⟨by rw [hbelow]; rfl, by rw [hquery]; rfl⟩

theorem le_of_map_forwardByte (h : t.map forwardByte = t) : ∀ c ∈ t, 32 ≤ c ∧ c ≠ 127 := by
  intro c hc
  have hsame : forwardByte c = c := map_eq_self_iff.mp h c hc
  unfold forwardByte at hsame
  split_ifs at hsame with hcontrol
  · rw [← hsame]
    decide
  · rw [not_or, UInt8.not_le] at hcontrol
    exact ⟨UInt8.le_of_lt hcontrol.1, hcontrol.2⟩

/-- Text without a space is decoded from itself only, byte by byte. -/
theorem eq_of_map_plainByte (h : a.map plainByte = m) (hspace : ∀ c ∈ m, c ≠ 32) : a = m := by
  rw [← h]
  refine (map_eq_self_iff.mpr fun c hc => if_neg ?_).symm
  rintro rfl
  exact hspace 32 (h ▸ List.mem_map.mpr ⟨43, hc, rfl⟩) rfl

/-- A string that has no end before its length has none at all. -/
theorem cstr_eq_of_length_le (h : s.length ≤ (cstr s).length) : cstr s = s :=
  (List.takeWhile_prefix _).eq_of_length_le h

theorem urlDecode_eq_nil_iff : urlDecode s = [] ↔ s = [] := by
  constructor
  · intro h
    cases s with
    | nil => rfl
    | cons c s =>
      by_cases hescape : IsEscape c s
      · obtain ⟨rfl, a, b, r, rfl, ha, hb⟩ := hescape
        rw [urlDecode_escape ha hb] at h
        cases h
      · rw [urlDecode_cons hescape] at h
        cases h
  · rintro rfl
    rfl

theorem forwardByte_cases {c : UInt8} (h : c ≠ 32) :
    forwardByte c = c ∨ forwardByte c = 43 ∧ isXDigit c = false ∧ c ≠ 37 ∧ c ≠ 32 := by
  by_cases hcontrol : c ≤ 32 ∨ c = 127
  · refine Or.inr ⟨if_pos hcontrol, ?_, ?_, h⟩
    · simp only [isXDigit, isDigit, Bool.or_eq_false_iff, Bool.and_eq_false_iff, decide_eq_false_iff_not]
      grind
    · rintro rfl
      revert hcontrol
      decide
  · exact Or.inl (if_neg hcontrol)

/-- Two beginnings of one text that are equally long are the same. -/
theorem eq_of_prefix_append {d : Bytes} (hm : m <+: d) (hd : d <+: a ++ s)
    (hlength : a.length = m.length) : a = m := by
  have hma := List.prefix_of_prefix_length_le (hm.trans hd) (List.prefix_append a s) hlength.ge
  exact (hma.eq_of_length hlength.symm).symm

/-- **A target as long as the extension's part** was cut behind the mount: `a` and `b` are the raw path,
`d` is the decoded one, `f` the fragment. -/
theorem spelled_of_length {b q f slash : Bytes} (hm : m <+: cstr (urlDecode (a ++ b)))
    (ha : a.length = m.length) (hspace : ∀ c ∈ m, c ≠ 32 ∧ c ≠ 0)
    (hslash : slash = if (b ++ (q ++ f)).head? = some 47 then [] else [47])
    (hq : q = [] ∨ q.head? = some 63) (hf : f = [] ∨ f.head? = some 35)
    (hlength : slash.length + ((urlDecode b).length + (urlDecode f).length) =
      if (cstr (urlDecode (a ++ b))).drop m.length = [] then 1
      else (cstr (urlDecode (a ++ b))).length - m.length) :
    a = m ∧ f = [] ∧ 0 ∉ urlDecode b ∧ (b = [] ∨ b.head? = some 47) := by
  have hle := hm.length_le
  have hcut := length_cstr_le (urlDecode (a ++ b))
  have hfnil : (urlDecode f).length = 0 → f = [] := fun h =>
    urlDecode_eq_nil_iff.mp (List.eq_nil_of_length_eq_zero h)
  have hbnil : (urlDecode b).length = 0 → b = [] := fun h =>
    urlDecode_eq_nil_iff.mp (List.eq_nil_of_length_eq_zero h)
  -- what stands where the mount should is decoded to the mount, so it is the mount
  have hspelled : urlDecode (a ++ b) = a.map plainByte ++ urlDecode b → a.map plainByte = m ∧ a = m := by
    intro heq
    have hd : cstr (urlDecode (a ++ b)) <+: a.map plainByte ++ urlDecode b :=
      heq ▸ List.takeWhile_prefix _
    have hplain := eq_of_prefix_append hm hd (by rw [List.length_map, ha])
    exact ⟨hplain, eq_of_map_plainByte hplain fun c hc => (hspace c hc).1⟩
  -- a slash behind the mount belongs to the path
  have hhead : (b ++ (q ++ f)).head? = some 47 → b.head? = some 47 := by
    intro hhead
    rcases b with _ | ⟨c, b⟩
    · rcases q with _ | ⟨d, q⟩
      · rcases hf with rfl | hf
        · cases hhead
        · rw [List.nil_append, List.nil_append, hf] at hhead
          cases hhead
      · obtain rfl : d = 63 := by simpa using hq
        cases hhead
    · exact hhead
  split_ifs at hlength with hrest
  · -- nothing is left below the mount
    have hshort : (cstr (urlDecode (a ++ b))).length ≤ m.length := List.drop_eq_nil_iff.mp hrest
    have hnothing : b = [] ∧ f = [] := by
      by_cases hstart : (b ++ (q ++ f)).head? = some 47
      · exfalso
        rw [hslash, if_pos hstart, List.length_nil, Nat.zero_add] at hlength
        obtain ⟨b, rfl⟩ := List.head?_eq_some_iff.mp (hhead hstart)
        rw [urlDecode_cons_of_ne (by decide) (by decide), List.length_cons] at hlength
        obtain rfl : b = [] := urlDecode_eq_nil_iff.mp (List.eq_nil_of_length_eq_zero (by omega))
        rcases urlDecode_append a [47] with heq | hshorter
        · -- the slash would be left
          have hwhole : 0 ∉ m ++ urlDecode [47] := by
            intro h0
            rcases List.mem_append.mp h0 with h0 | h0
            · exact (hspace 0 h0).2 rfl
            · exact absurd (List.mem_singleton.mp h0) (by decide)
          rw [heq, (hspelled heq).1, cstr_eq_self hwhole, List.length_append] at hshort
          have : (urlDecode [47]).length = 1 := rfl
          omega
        · have : (urlDecode [47]).length = 1 := rfl
          omega
      · rw [hslash, if_neg hstart, List.length_singleton] at hlength
        exact ⟨hbnil (by omega), hfnil (by omega)⟩
    obtain ⟨rfl, rfl⟩ := hnothing
    refine ⟨?_, rfl, List.not_mem_nil, Or.inl rfl⟩
    rcases urlDecode_append a [] with heq | hshorter
    · exact (hspelled heq).2
    · have : (urlDecode []).length = 0 := rfl
      omega
  · -- something is left, and it is all that the rest of the path is decoded to
    rcases urlDecode_append a b with heq | hshorter
    · have hall := congrArg List.length heq
      rw [List.length_append, List.length_map] at hall
      have hwhole : cstr (urlDecode (a ++ b)) = urlDecode (a ++ b) := cstr_eq_of_length_le (by omega)
      have hnul : 0 ∉ urlDecode (a ++ b) := hwhole ▸ zero_notMem_cstr _
      obtain rfl : f = [] := hfnil (by omega)
      refine ⟨(hspelled heq).2, rfl, fun h0 => hnul (heq ▸ List.mem_append_right _ h0), Or.inr (hhead ?_)⟩
      by_contra hstart
      rw [hslash, if_neg hstart, List.length_singleton] at hlength
      omega
    · omega

/-- Forwarding neither makes nor loses a question mark. -/
theorem forwardByte_ne_question :
    ((fun c : UInt8 => decide (c ≠ 63)) ∘ forwardByte) = fun c => decide (c ≠ 63) := by
  funext c
  simp only [Function.comp_apply, ne_eq, decide_not,
    forwardByte_eq_iff (c := c) (d := 63) (by decide) (by decide) (by decide)]

/-- **A query that is forwarded as it was** has nothing behind it: `q` is the query, `s` the fragment. -/
theorem query_forwarded {q : Bytes} (hq : q = [] ∨ q.head? = some 63)
    (h : ((q ++ s).dropWhile fun c => decide (c ≠ 63)).map forwardByte = q) :
    q.map forwardByte = q ∧ (q ++ s).takeWhile (· ≠ 63) = s := by
  rcases hq with rfl | hsome
  · rw [List.nil_append] at h ⊢
    refine ⟨rfl, ?_⟩
    have hdrop := List.map_eq_nil_iff.mp h
    conv_rhs => rw [← List.takeWhile_append_dropWhile (p := fun c : UInt8 => decide (c ≠ 63)) (l := s)]
    rw [hdrop, List.append_nil]
  · obtain ⟨q, rfl⟩ := List.head?_eq_some_iff.mp hsome
    rw [List.cons_append, List.dropWhile_cons_of_neg (by decide)] at h
    have hlength := congrArg List.length h
    rw [List.length_map, List.length_cons, List.length_append, List.length_cons] at hlength
    obtain rfl : s = [] := List.eq_nil_of_length_eq_zero (by omega)
    rw [List.append_nil] at h
    exact ⟨h, rfl⟩

/-- How long a target is decoded to: its slash, the path and the fragment. -/
theorem length_urlDecode_parts {slash b f : Bytes} (hslash : slash = [] ∨ slash = [47])
    (hf : f = [] ∨ f.head? = some 35) : (urlDecode ((slash ++ b) ++ f)).length =
      slash.length + ((urlDecode b).length + (urlDecode f).length) := by
  have hbf : (urlDecode (b ++ f)).length = (urlDecode b).length + (urlDecode f).length := by
    rcases hf with rfl | hsome
    · rw [List.append_nil]
      rfl
    · obtain ⟨f, rfl⟩ := List.head?_eq_some_iff.mp hsome
      rw [urlDecode_append_cons (by decide), List.length_append]
  rw [List.append_assoc, ← hbf]
  rcases hslash with rfl | rfl
  · rw [List.nil_append, List.length_nil, Nat.zero_add]
  · rw [List.singleton_append, urlDecode_cons_of_ne (by decide) (by decide), List.length_cons,
      List.length_singleton, Nat.add_comm]

/-- **A URL that is the mount and a path and a query** spells the mount out, when what is forwarded of them is
what they are. -/
theorem spellsMount_of_parts {b q : Bytes} (hurl : url = mountOf name ++ (b ++ q))
    (hb : b = [] ∨ b.head? = some 47) (hq : q = [] ∨ q.head? = some 63) (hplain : 63 ∉ b ∧ 35 ∉ b)
    (hq35 : 35 ∉ q) (hbytes : b.map forwardByte = b ∧ q.map forwardByte = q) (hnul : 0 ∉ urlDecode b) :
    SpellsMount url name := by
  refine ⟨b ++ q, hurl, ?_, ?_, ?_, ?_⟩
  · rcases hb with rfl | hb
    · exact hq.imp id Or.inr
    · obtain ⟨b, rfl⟩ := List.head?_eq_some_iff.mp hb
      exact Or.inr (Or.inl rfl)
  · rw [List.mem_append, not_or]
    exact ⟨hplain.2, hq35⟩
  · intro c hc
    rcases List.mem_append.mp hc with hc | hc
    · exact le_of_map_forwardByte hbytes.1 c hc
    · exact le_of_map_forwardByte hbytes.2 c hc
  · rw [List.takeWhile_append_of_pos fun c hc => by simpa using ne_of_mem_of_not_mem hc hplain.1]
    rcases hq with rfl | hsome
    · rwa [List.takeWhile_nil, List.append_nil]
    · obtain ⟨q, rfl⟩ := List.head?_eq_some_iff.mp hsome
      rwa [List.takeWhile_cons_of_neg (by decide), List.append_nil]

/-- The path below the mount, when the URL spells it out and goes on with a slash. -/
theorem pathBelow_of_slash {b : Bytes} (hname : validName name = true)
    (hdec : decodedUrl url = cstr (urlDecode (mountOf name ++ 47 :: b))) (hnul : 0 ∉ urlDecode (47 :: b)) :
    pathBelow url name = urlDecode (47 :: b) := by
  have hplain := plain_mountOf hname
  rw [pathBelow, hdec, urlDecode_append_of_plain hplain,
    cstr_append_of_notMem fun h0 => (hplain 0 h0).2.2 rfl, cstr_eq_self hnul, List.drop_left, if_neg]
  rw [urlDecode_eq_nil_iff]
  exact List.cons_ne_nil _ _

/-- **A URL whose target is the extension's own part** spells the mount out. -/
theorem spellsMount_of_ownPart (hname : validName name = true) (hurl : IsRequestUrl url)
    (hat : Within (mountOf name) (decodedUrl url))
    (h : OwnPart url name (forwardTarget (extensionTarget url (mountOf name)))) :
    SpellsMount url name := by
  obtain ⟨hbegins, hdecoded, hraw⟩ := length_mountOf_le hurl.fits hat
  obtain ⟨f, hsplit, hfhead⟩ := url_split url
  obtain ⟨h63, h35⟩ := notMem_rawPath url
  have hqhead := urlQuery_head url
  have hdec := decodedUrl_of_fits hurl.fits
  -- the path in two parts, the first as long as the mount
  obtain ⟨a, b, hab, ha⟩ : ∃ a b, rawPath url = a ++ b ∧ a.length = (mountOf name).length :=
    ⟨_, _, (List.take_append_drop (mountOf name).length (rawPath url)).symm, by
      rw [List.length_take]
      omega⟩
  have htail : url.drop (mountOf name).length = b ++ (urlQuery url ++ f) := by
    conv_lhs => rw [hsplit, hab, List.append_assoc, ← ha]
    exact List.drop_left
  have htarget := forwardTarget_extensionTarget hurl (length_mountOf_pos name) htail
  obtain ⟨slash, hslash⟩ : ∃ slash : Bytes,
      slash = if (b ++ (urlQuery url ++ f)).head? = some 47 then [] else [47] := ⟨_, rfl⟩
  have hslash47 : ∀ c ∈ slash, c = 47 := fun c hc => eq_slash_of_mem (hslash ▸ hc)
  have hslash63 : ∀ c ∈ slash ++ b, decide (c ≠ 63) = true := by
    intro c hc
    rcases List.mem_append.mp hc with hc | hc
    · rw [hslash47 c hc]
      decide
    · simpa using fun h : c = 63 => h63 (hab ▸ List.mem_append_right a (h ▸ hc))
  rw [← hslash, ← List.append_assoc] at htarget
  have hpath := h.path
  have hquery := h.query
  rw [htarget, List.takeWhile_map, forwardByte_ne_question,
    List.takeWhile_append_of_pos hslash63] at hpath
  rw [htarget, List.dropWhile_map, forwardByte_ne_question,
    List.dropWhile_append_of_pos hslash63] at hquery
  obtain ⟨hqueryByte, htake⟩ := query_forwarded hqhead hquery
  rw [htake] at hpath
  -- the forwarded path is as long as the extension's part of the decoded one
  have hbytes : ∀ c ∈ (slash ++ b) ++ f,
      forwardByte c = c ∨ forwardByte c = 43 ∧ isXDigit c = false ∧ c ≠ 37 ∧ c ≠ 32 := by
    intro c hc
    refine forwardByte_cases ?_
    rintro rfl
    rcases List.mem_append.mp hc with hc | hc
    · rcases List.mem_append.mp hc with hc | hc
      · exact absurd (hslash47 32 hc) (by decide)
      · refine (hurl.word 32 ?_).2 rfl
        rw [hsplit, hab]
        simp [hc]
    · refine (hurl.word 32 ?_).2 rfl
      rw [hsplit]
      simp [hc]
  obtain ⟨hsame, hfix⟩ := urlDecode_map hbytes
  have hslashes : slash = [] ∨ slash = [47] := by
    rw [hslash]
    exact (ite_eq_or_eq _ _ _)
  have hlength := hsame
  rw [hpath, length_urlDecode_parts hslashes hfhead, pathBelow, hdec, hab, apply_ite List.length,
    List.length_drop] at hlength
  have hmount : ∀ c ∈ mountOf name, c ≠ 32 ∧ c ≠ 0 := by
    refine fun c hc => ⟨?_, (plain_mountOf hname c hc).2.2⟩
    rintro rfl
    exact absurd (of_mem_mountOf hname hc).1 (by decide)
  rw [hdec, hab] at hbegins
  obtain ⟨rfl, rfl, hnul, hstart⟩ := spelled_of_length hbegins ha hmount hslash hqhead hfhead hlength.symm
  have hb : 63 ∉ b ∧ 35 ∉ b :=
    ⟨fun h => h63 (hab ▸ List.mem_append_right _ h), fun h => h35 (hab ▸ List.mem_append_right _ h)⟩
  have hwhole : url = mountOf name ++ (b ++ urlQuery url) := by
    conv_lhs => rw [hsplit, hab, List.append_nil, List.append_assoc]
  refine spellsMount_of_parts hwhole hstart hqhead hb (fragment_notMem_urlQuery url) ⟨?_, hqueryByte⟩ hnul
  rcases hstart with rfl | hstart
  · rfl
  · obtain ⟨b, rfl⟩ := List.head?_eq_some_iff.mp hstart
    have hbelow := pathBelow_of_slash hname (by rw [hdec, hab]) hnul
    obtain rfl : slash = [] := hslash
    rw [List.nil_append, List.append_nil] at hfix hpath
    exact hfix (hpath.trans hbelow)

/-- **An extension is asked for its own part** of the address exactly when the URL spells the mount
out. -/
theorem ownPart_iff (hname : validName name = true) (hurl : IsRequestUrl url)
    (hat : Within (mountOf name) (decodedUrl url)) :
    OwnPart url name (forwardTarget (extensionTarget url (mountOf name))) ↔ SpellsMount url name :=
  ⟨spellsMount_of_ownPart hname hurl hat, ownPart_of_spellsMount hname hurl⟩

end

/-! ## The URLs that are read -/

theorem of_scanField {width : ℕ} {field rest : Bytes} (h : scanField width s = some (field, rest)) :
    (∀ c ∈ field, isSpace c = false ∧ c ∈ s) ∧ field.length ≤ width ∧ rest ⊆ s := by
  simp only [scanField] at h
  split_ifs at h with hnil
  obtain ⟨rfl, rfl⟩ := Prod.mk.inj (Option.some.inj h)
  refine ⟨fun c hc => ?_, List.length_take_le _ _, ?_⟩
  · have hmem := List.mem_of_mem_take hc
    exact ⟨by simpa using List.mem_takeWhile_imp hmem,
      (List.dropWhile_suffix _).subset ((List.takeWhile_prefix _).subset hmem)⟩
  · exact fun c hc => (List.dropWhile_suffix _).subset (List.mem_of_mem_drop hc)

/-- The origin form has no byte but those of the URL, and the slash it may begin with. -/
theorem splitAbsoluteForm_subset (url : Bytes) : (∀ c ∈ (splitAbsoluteForm url).1, c = 47 ∨ c ∈ url) ∧
    (splitAbsoluteForm url).1.length ≤ url.length + 1 := by
  unfold splitAbsoluteForm
  generalize (if eqNoCase (url.take 7) (lit "http://") then 7
    else if eqNoCase (url.take 8) (lit "https://") then 8 else 0) = scheme
  by_cases hscheme : scheme = 0
  · rw [if_pos hscheme]
    exact ⟨fun c hc => Or.inr hc, Nat.le_succ _⟩
  · rw [if_neg hscheme]
    dsimp only
    generalize ((url.drop scheme).takeWhile fun b => b != 47 && b != 63 && b != 35).length = n
    have hsub : ∀ c ∈ (url.drop scheme).drop n, c ∈ url := fun c hc =>
      List.mem_of_mem_drop (List.mem_of_mem_drop hc)
    have hle : ((url.drop scheme).drop n).length ≤ url.length := by
      rw [List.length_drop, List.length_drop]
      omega
    split_ifs
    · exact ⟨fun c hc => Or.inr (hsub c hc), by omega⟩
    · refine ⟨fun c hc => (List.mem_cons.mp hc).imp_right (hsub c), ?_⟩
      rw [List.length_cons]
      omega

/-- **The URL of a request line**, brought to the origin form, is one this is about. -/
theorem isRequestUrl_of_scan {line method url protocol : Bytes} (hline : 0 ∉ line)
    (h : scanRequestLine line = some (method, url, protocol)) : IsRequestUrl (splitAbsoluteForm url).1 := by
  simp only [scanRequestLine] at h
  cases hmethod : scanField 15 line with
  | none =>
    rw [hmethod] at h
    cases h
  | some first =>
    rw [hmethod] at h
    dsimp only at h
    cases hurl : scanField 1023 first.2 with
    | none =>
      rw [hurl] at h
      cases h
    | some second =>
      rw [hurl] at h
      obtain ⟨-, rfl, -⟩ := Prod.mk.inj (Option.some.inj h) |>.imp_right Prod.mk.inj
      obtain ⟨-, -, hrest⟩ := of_scanField hmethod
      obtain ⟨hword, hlength, -⟩ := of_scanField hurl
      obtain ⟨hsubset, hle⟩ := splitAbsoluteForm_subset second.1
      refine ⟨fun c hc => ?_, by omega⟩
      rcases hsubset c hc with rfl | hc
      · decide
      · obtain ⟨hspace, hmem⟩ := hword c hc
        constructor
        · rintro rfl
          exact hline (hrest hmem)
        · rintro rfl
          cases hspace

/-! ## What is forwarded -/

/-- **The request forwarded to an extension** is for its own part of the address exactly when the URL
spells the mount out. -/
theorem forwarded_ownPart_iff (v : ExtensionVisit) {req : HttpRequest} {name user role : Bytes}
    {info : ExtensionInfo} (hget : extensionsGet v.exts name = some info) (hurl : IsRequestUrl req.url)
    (hat : Within (mountOf name) (decodedUrl req.url)) :
    OwnPart req.url name (forwardTarget (v.extensionRequest req name user role).target) ↔
      SpellsMount req.url name :=
  ownPart_iff (v.validName_of_get hget) hurl hat

/-- A visit to the pages of an extension that runs. -/
def helloVisit : ExtensionVisit where
  allowed := true
  genericHash := fun _ _ => sessionHash
  gate := { moderatorState with
    users := [(lit "65f000000000000000000001", ⟨lit "Ann", lit "ann@a.org", none, .text (lit "admin")⟩)] }
  exts := [{ info := { name := lit "hello", enabled := true, state := .running }, present := true }]
  named := by decide
  userName := lit "Ann"
  lang := lit "en"
  theme := lit "default"
  epoch := 3
  site := none
  forward := fun _ _ => .ok ⟨302, [], [], lit "/../../users", []⟩

/-- A request for one of these pages. -/
def helloRequest (url : Bytes) : HttpRequest where
  method := lit "GET"
  url := url
  protocol := lit "HTTP/1.1"
  headers := [⟨lit "Cookie", lit "session=" ++ (List.replicate 16 (lit "4f2a")).flatten⟩]
  body := none

/-- A URL with escapes in its path and in its query. -/
def notesUrl : Bytes := lit "/dashboard/ext/hello/a%2Fb%20c?tag=%C3%B1"

theorem forwarded_ownPart_notes : OwnPart notesUrl (lit "hello")
    (forwardTarget (helloVisit.extensionRequest (helloRequest notesUrl) (lit "hello") [] []).target) := by
  have hat : mountOf (lit "hello") ++ [47] <+: decodedUrl notesUrl :=
    List.isPrefixOf_iff_prefix.mp (by decide)
  have hurl : IsRequestUrl (helloRequest notesUrl).url := ⟨by decide, by decide⟩
  refine (forwarded_ownPart_iff helloVisit rfl hurl (Or.inr hat)).mpr
    ⟨lit "/a%2Fb%20c?tag=%C3%B1", rfl, Or.inr (Or.inl rfl), ?_, ?_, ?_⟩ <;> decide

/-- **An escape in the mount** moves the target: for `/dashboard/ext/%68ello/x` it is `/lo/x`. -/
theorem forwarded_not_ownPart : Within (mountOf (lit "hello")) (decodedUrl (lit "/dashboard/ext/%68ello/x")) ∧
    ¬ OwnPart (lit "/dashboard/ext/%68ello/x") (lit "hello")
      (forwardTarget (helloVisit.extensionRequest (helloRequest (lit "/dashboard/ext/%68ello/x"))
        (lit "hello") [] []).target) := by
  refine ⟨Or.inr (List.isPrefixOf_iff_prefix.mp (by decide)), fun h => ?_⟩
  exact absurd h.path (by decide)

end BoatRudder.WebServer
