import BoatRudder.Text.Bytes

/-! # Addresses in a page

How a browser reads the address in an attribute: it undoes the references to characters, drops tabs and
line breaks, and takes what stands behind a scheme or behind two slashes for a host. The names that
characters have are up to the browser. -/

namespace BoatRudder

/-! ## References to characters -/

/-- A byte that the references to characters are made of. -/
def isReferenceByte (b : UInt8) : Bool := isAlnum b || b == 59 || b == 35

/-- What may stand behind a text so that no reference goes on from the text into it. -/
def EndsReference (last : Option UInt8) (b : Bytes) : Prop :=
  ∀ c ∈ b.head?, isAlnum c = false ∧ c ≠ 59 ∧ c ≠ 61 ∧ (last = some 38 → c ≠ 35)

/-- The references to characters that a browser knows. -/
structure CharReferences where
  /-- What the reference behind an ampersand stands for, and how long it is. -/
  read : Bytes → Option (Bytes × ℕ)
  pos : ∀ {s t : Bytes} {n : ℕ}, read s = some (t, n) → 0 < n
  within : ∀ {s t : Bytes} {n : ℕ}, read s = some (t, n) → n ≤ s.length
  bytes : ∀ {s t : Bytes} {n : ℕ}, read s = some (t, n) → ∀ b ∈ s.take n, isReferenceByte b = true
  /-- A reference ends at the first byte that goes on with none. -/
  ends : ∀ {a b : Bytes}, EndsReference (some (a.getLastD 38)) b → read (a ++ b) = read a

namespace CharReferences

variable (refs : CharReferences)

/-- A text with its references undone, from the byte on that so many bytes stand in front of. -/
def unrefFrom : ℕ → Bytes → Bytes
  | _, [] => []
  | k + 1, _ :: s => unrefFrom k s
  | 0, c :: s =>
    if c = 38 then
      match refs.read s with
      | some (t, n) => t ++ unrefFrom n s
      | none => 38 :: unrefFrom 0 s
    else c :: unrefFrom 0 s

/-- A text with its references undone. -/
def unref (s : Bytes) : Bytes := refs.unrefFrom 0 s

@[simp] theorem unrefFrom_nil (k : ℕ) : refs.unrefFrom k [] = [] := by cases k <;> rfl

@[simp] theorem unref_nil : refs.unref [] = [] := rfl

/-- A byte other than an ampersand is kept. -/
theorem unref_cons {c : UInt8} (h : c ≠ 38) (s : Bytes) : refs.unref (c :: s) = c :: refs.unref s :=
  if_neg h

/-- A text without ampersands is kept. -/
theorem unref_plain_append {a : Bytes} (h : 38 ∉ a) (b : Bytes) :
    refs.unref (a ++ b) = a ++ refs.unref b := by
  induction a with
  | nil => rfl
  | cons c a ih =>
    rw [List.mem_cons, not_or] at h
    rw [List.cons_append, refs.unref_cons (Ne.symm h.1), ih h.2, List.cons_append]

/-- There is no reference behind the last byte. -/
theorem read_nil : refs.read [] = none := by
  rw [Option.eq_none_iff_forall_ne_some]
  rintro ⟨t, n⟩ h
  exact absurd (refs.within h) (Nat.not_le_of_lt (refs.pos h))

/-- **Two texts are read one after the other** where no reference goes on from the first into the
second. -/
theorem unrefFrom_append {k : ℕ} {a b : Bytes} (hk : k ≤ a.length) (hb : EndsReference a.getLast? b) :
    refs.unrefFrom k (a ++ b) = refs.unrefFrom k a ++ refs.unref b := by
  induction a generalizing k with
  | nil =>
    obtain rfl := Nat.le_zero.mp hk
    rfl
  | cons c a ih =>
    have hlast : EndsReference a.getLast? b := by
      intro d hd
      obtain ⟨h1, h2, h3, h4⟩ := hb d hd
      refine ⟨h1, h2, h3, fun h => h4 ?_⟩
      cases a with
      | nil => cases h
      | cons e a => rwa [List.getLast?_cons_cons]
    cases k with
    | succ k => exact ih (Nat.le_of_succ_le_succ hk) hlast
    | zero =>
      rw [List.cons_append, unrefFrom, unrefFrom]
      split_ifs with hc
      · -- the same reference is read, of what is left of the first text
        have hread : refs.read (a ++ b) = refs.read a := by
          refine refs.ends fun d hd => ?_
          obtain ⟨h1, h2, h3, h4⟩ := hb d hd
          refine ⟨h1, h2, h3, fun h => h4 ?_⟩
          cases a with
          | nil => rw [hc]; rfl
          | cons e a =>
            rw [List.getLast?_cons_cons, List.getLast?_eq_some_getLast (List.cons_ne_nil e a)]
            rw [← h, List.getLastD_eq_getLast?, List.getLast?_eq_some_getLast (List.cons_ne_nil e a)]
            rfl
        rw [hread]
        cases hr : refs.read a with
        | none => exact congrArg (38 :: ·) (ih (Nat.zero_le _) hlast)
        | some r =>
          obtain ⟨t, n⟩ := r
          simp only
          rw [ih (refs.within hr) hlast, List.append_assoc]
      · exact congrArg (c :: ·) (ih (Nat.zero_le _) hlast)

theorem unref_append {a b : Bytes} (hb : EndsReference a.getLast? b) :
    refs.unref (a ++ b) = refs.unref a ++ refs.unref b :=
  refs.unrefFrom_append (Nat.zero_le _) hb

/-- A byte that no reference is made of is kept, wherever it stands. -/
theorem mem_unrefFrom {c : UInt8} (hc : isReferenceByte c = false) (hamp : c ≠ 38) {k : ℕ} {s : Bytes}
    (hmem : c ∈ s.drop k) : c ∈ refs.unrefFrom k s := by
  induction s generalizing k with
  | nil => simp at hmem
  | cons d s ih =>
    cases k with
    | succ k => exact ih hmem
    | zero =>
      rw [unrefFrom]
      split_ifs with hd
      · have hs : c ∈ s := (List.mem_cons.mp hmem).resolve_left (hd ▸ hamp)
        cases hr : refs.read s with
        | none => exact List.mem_cons_of_mem _ (ih hs)
        | some r =>
          obtain ⟨t, n⟩ := r
          rw [← List.take_append_drop n s, List.mem_append] at hs
          refine List.mem_append_right _ (ih (hs.resolve_left fun htake => ?_))
          rw [refs.bytes hr c htake] at hc
          cases hc
      · rcases List.mem_cons.mp hmem with rfl | hs
        · exact List.mem_cons_self
        · exact List.mem_cons_of_mem _ (ih hs)

/-- No references at all, as in the line of a header. -/
def none : CharReferences where
  read _ := Option.none
  pos h := by cases h
  within h := by cases h
  bytes h := by cases h
  ends _ := rfl

theorem unref_none (s : Bytes) : none.unref s = s := by
  induction s with
  | nil => rfl
  | cons c s ih =>
    by_cases hc : c = 38
    · rw [unref, unrefFrom, if_pos hc, hc]
      exact congrArg (38 :: ·) ih
    · rw [none.unref_cons hc, ih]

end CharReferences

/-! ## Hosts -/

/-- A byte of a scheme. -/
def isSchemeByte (b : UInt8) : Bool := isAlnum b || b == 43 || b == 45 || b == 46

/-- The scheme of an address, with its colon. -/
def schemeOf (s : Bytes) : Bytes :=
  let scheme := s.takeWhile isSchemeByte
  if scheme.head?.any isAlpha && (s.drop scheme.length).head? == some 58 then scheme ++ [58] else []

/-- What ends the path of an address: a query, or a fragment. -/
def endsPath (b : UInt8) : Bool := b == 63 || b == 35

/-- A slash, or what is taken for one. -/
def isSlash (b : UInt8) : Bool := b == 47 || b == 92

/-- A tab or a line break: none of them counts in an address. -/
def isDropped (b : UInt8) : Bool := b == 9 || b == 10 || b == 13

/-- The address that a text gives, without what is dropped of it. (What is dropped at its end makes no
other host of it.) -/
def cleanUrl (s : Bytes) : Bytes := (s.dropWhile (· ≤ 32)).filter (!isDropped ·)

/-- The host behind the slashes. -/
def hostPart (s : Bytes) : Bytes := (s.dropWhile isSlash).takeWhile fun b => !isSlash b && !endsPath b

/-- The host that an address leads to from a page of another one; none where it leads to no page of the
web. -/
def authorityOf (base ref : Bytes) : Option Bytes :=
  let url := cleanUrl ref
  if schemeOf url = [] then
    if url.head?.any isSlash && (url.drop 1).head?.any isSlash then some (hostPart url) else some base
  else if lower (schemeOf url) = lit "http:" ∨ lower (schemeOf url) = lit "https:" then
    some (hostPart (url.drop (schemeOf url).length))
  else none

/-- The second byte of an address that counts. -/
def secondByte (s : Bytes) : Option UInt8 := (s.filter (!isDropped ·))[1]?

/-- **An address that begins with a slash leads to its own host** unless another slash follows. -/
theorem authorityOf_slash (base : Bytes) {s : Bytes} (h : s.head? = some 47) :
    authorityOf base s = if (secondByte s).any isSlash then some (hostPart (s.filter (!isDropped ·)))
      else some base := by
  obtain ⟨t, rfl⟩ : ∃ t, s = 47 :: t := by
    cases s with
    | nil => cases h
    | cons c t => exact ⟨t, by rw [Option.some.inj h]⟩
  have hclean : cleanUrl (47 :: t) = 47 :: t.filter (!isDropped ·) := rfl
  have hkept : (47 :: t).filter (!isDropped ·) = 47 :: t.filter (!isDropped ·) := rfl
  have hscheme : schemeOf (47 :: t.filter (!isDropped ·)) = [] := rfl
  have hsecond : secondByte (47 :: t) = (t.filter (!isDropped ·)).head? := by
    rw [secondByte, hkept, List.getElem?_cons_succ, List.head?_eq_getElem?]
  rw [authorityOf, hclean, hkept, hsecond, if_pos hscheme]
  exact if_congr Iff.rfl rfl rfl

/-- A byte of the name of a host, or of a port. -/
def isHostByte (b : UInt8) : Bool := isAlnum b || b == 45 || b == 46 || b == 58 || b == 91 || b == 93

/-- A byte of the name of a host ends no host, and counts. -/
theorem isHostByte_spec {b : UInt8} (h : isHostByte b = true) :
    isSlash b = false ∧ endsPath b = false ∧ isDropped b = false ∧ b ≠ 38 := by
  revert b
  decide +kernel

/-- The host behind two slashes is the name that stands there. -/
theorem hostPart_slashes {host : Bytes} (hne : host ≠ []) (hhost : ∀ b ∈ host, isHostByte b = true)
    (t : Bytes) : hostPart (lit "//" ++ host ++ 47 :: t) = host := by
  obtain ⟨c, host, rfl⟩ := List.exists_cons_of_ne_nil hne
  have hslashes : (lit "//" ++ (c :: host) ++ 47 :: t).dropWhile isSlash = (c :: host) ++ 47 :: t := by
    have hc := (isHostByte_spec (hhost c List.mem_cons_self)).1
    change (47 :: 47 :: c :: (host ++ 47 :: t)).dropWhile isSlash = c :: (host ++ 47 :: t)
    rw [List.dropWhile_cons_of_pos rfl, List.dropWhile_cons_of_pos rfl,
      List.dropWhile_cons_of_neg (by rw [hc]; decide)]
  rw [hostPart, hslashes, List.takeWhile_append_of_pos, List.takeWhile_cons_of_neg (by decide),
    List.append_nil]
  intro b hb
  obtain ⟨h1, h2, -, -⟩ := isHostByte_spec (hhost b hb)
  rw [h1, h2]
  rfl

/-- **An address with a host leads there.** -/
theorem authorityOf_host (base : Bytes) {scheme host : Bytes}
    (hscheme : scheme = lit "http" ∨ scheme = lit "https") (hne : host ≠ [])
    (hhost : ∀ b ∈ host, isHostByte b = true) (t : Bytes) :
    authorityOf base (scheme ++ lit "://" ++ host ++ 47 :: t) = some host := by
  have hkept : host.filter (!isDropped ·) = host := List.filter_eq_self.mpr fun b hb => by
    rw [(isHostByte_spec (hhost b hb)).2.2.1]
    rfl
  have hclean : cleanUrl (scheme ++ lit "://" ++ host ++ 47 :: t) =
      scheme ++ [58] ++ (lit "//" ++ host ++ 47 :: t.filter (!isDropped ·)) := by
    have hrest : (host ++ 47 :: t).filter (!isDropped ·) = host ++ 47 :: t.filter (!isDropped ·) := by
      rw [List.filter_append, hkept]
      rfl
    rw [List.append_assoc _ host, List.append_assoc (lit "//"), ← hrest]
    rcases hscheme with rfl | rfl <;> rfl
  have hschemeOf : ∀ rest : Bytes, schemeOf (scheme ++ [58] ++ rest) = scheme ++ [58] := by
    intro rest
    rcases hscheme with rfl | rfl <;> rfl
  have hfound : ¬ scheme ++ [58] = [] := by simp
  have hweb : lower (scheme ++ [58]) = lit "http:" ∨ lower (scheme ++ [58]) = lit "https:" := by
    rcases hscheme with rfl | rfl
    · exact Or.inl (by decide)
    · exact Or.inr (by decide)
  simp only [authorityOf, hclean, hschemeOf, if_neg hfound, if_pos hweb, List.drop_left,
    hostPart_slashes hne hhost]

/-! ## What is put into an address -/

/-- The characters that end an attribute or a line, and the mark of a fragment. -/
def markup : Bytes := [0, 10, 13, 34, 35, 60, 62]

/-- A text that is put behind another one: it begins a query or goes on with one, and is plain ASCII. -/
structure Insert (before t : Bytes) : Prop where
  plain : ∀ b ∈ t, b < 128 ∧ b ∉ markup
  head : ∀ c ∈ t.head?, c = 63 ∨ c = 38 ∧ 63 ∈ before

/-- An address and what becomes of it when texts are put in, each in front of a fragment or at the
end. -/
inductive Grows : Bytes → Bytes → Prop
  | refl (s : Bytes) : Grows s s
  | put {s q t f : Bytes} (h : Grows s (q ++ f)) (hf : ∀ c ∈ f.head?, c = 35) (ht : Insert q t) :
      Grows s (q ++ t ++ f)

/-- A beginning of what may be put in may be put in. -/
theorem Insert.take {before t : Bytes} (h : Insert before t) (n : ℕ) : Insert before (t.take n) where
  plain b hb := h.plain b (List.mem_of_mem_take hb)
  head c hc := by
    cases n with
    | zero => simp at hc
    | succ n => exact h.head c (by rwa [List.head?_take, if_neg n.succ_ne_zero] at hc)

/-- An address grows at its end. -/
theorem grows_append {s t : Bytes} (h : Insert s t) : Grows s (s ++ t) := by
  have hself : Grows s (s ++ []) := by
    rw [List.append_nil]
    exact Grows.refl s
  simpa using hself.put (by simp) h

namespace Grows

variable {s v : Bytes}

/-- Nothing but plain ASCII is added. -/
theorem mem (h : Grows s v) {b : UInt8} (hb : b ∈ v) : b ∈ s ∨ b < 128 ∧ b ∉ markup := by
  induction h with
  | refl => exact Or.inl hb
  | put h hf ht ih =>
    rw [List.mem_append, List.mem_append] at hb
    rcases hb with (hb | hb) | hb
    · exact ih (List.mem_append_left _ hb)
    · exact Or.inr (ht.plain b hb)
    · exact ih (List.mem_append_right _ hb)

/-- What begins with a slash is added to behind it. -/
theorem head_slash (h : Grows s v) (hs : s.head? = some 47) : v.head? = some 47 := by
  induction h with
  | refl => exact hs
  | @put q t f h hf ht ih =>
    cases q with
    | cons c q => exact ih
    | nil => exact absurd (hf 47 ih) (by decide)

end Grows

/-! ## Addresses that are settled -/

/-- An address whose second byte that counts is no slash. -/
def HostSettled (refs : CharReferences) (s : Bytes) : Prop := (secondByte (refs.unref s)).any isSlash = false

section HostSettled

variable {refs : CharReferences}

/-- The byte behind a slash. -/
theorem secondByte_slash (s : Bytes) : secondByte (47 :: s) = s.find? (!isDropped ·) := by
  rw [← List.head?_filter, List.head?_eq_getElem?]
  rfl

theorem settled_slash (u : Bytes) :
    HostSettled refs (47 :: u) ↔ ((refs.unref u).find? (!isDropped ·)).any isSlash = false := by
  rw [HostSettled, refs.unref_cons (by decide), secondByte_slash]

/-- What settles a longer text settles its beginning, where no reference goes on behind it. -/
theorem HostSettled.of_append {u b : Bytes} (hb : EndsReference u.getLast? b)
    (h : HostSettled refs (47 :: (u ++ b))) : HostSettled refs (47 :: u) := by
  rw [settled_slash] at h ⊢
  rw [refs.unref_append hb, List.find?_append] at h
  cases hfind : (refs.unref u).find? (!isDropped ·) with
  | none => rfl
  | some d =>
    rw [hfind] at h
    exact h

/-- What stands in front of a fragment is settled. -/
theorem HostSettled.front {u f : Bytes} (hf : ∀ c ∈ f.head?, c = 35)
    (h : HostSettled refs (47 :: (u ++ f))) : HostSettled refs (47 :: u) := by
  have hends : ∀ last : Option UInt8, last ≠ some 38 → EndsReference last f := by
    intro last hlast c hc
    obtain rfl := hf c hc
    exact ⟨by decide, by decide, by decide, fun h => absurd h hlast⟩
  by_cases hlast : u.getLast? = some 38
  · -- an ampersand at the end may begin a reference with the fragment, but is none by itself
    obtain ⟨u, rfl⟩ := List.getLast?_eq_some_iff.mp hlast
    have hamp : ∀ f, EndsReference u.getLast? (38 :: f) := by
      intro f c hc
      obtain rfl := Option.some.inj hc
      exact ⟨by decide, by decide, by decide, fun _ => by decide⟩
    have hone : refs.unref [38] = [38] := by
      rw [CharReferences.unref, CharReferences.unrefFrom, if_pos rfl, refs.read_nil]
      rfl
    rw [List.append_assoc] at h
    have hfront := HostSettled.of_append (hamp f) h
    rw [settled_slash] at hfront ⊢
    rw [refs.unref_append (hamp []), hone, List.find?_append]
    cases hfind : (refs.unref u).find? (!isDropped ·) with
    | none => rfl
    | some d =>
      rw [hfind] at hfront
      exact hfront
  · exact HostSettled.of_append (hends _ hlast) h

/-- No reference goes on into what is put in. -/
theorem Insert.endsReference {before t : Bytes} (h : Insert before t) (last : Option UInt8) (f : Bytes)
    (hne : t ≠ []) : EndsReference last (t ++ f) := by
  obtain ⟨c, t, rfl⟩ := List.exists_cons_of_ne_nil hne
  intro d hd
  obtain rfl := Option.some.inj hd
  rcases h.head c rfl with rfl | ⟨rfl, -⟩
  · exact ⟨by decide, by decide, by decide, fun _ => by decide⟩
  · exact ⟨by decide, by decide, by decide, fun _ => by decide⟩

/-- **A settled address stays settled** whatever is put in. -/
theorem Grows.settled {s v : Bytes} (h : Grows s v) (hs : s.head? = some 47) (hset : HostSettled refs s) :
    HostSettled refs v := by
  induction h with
  | refl => exact hset
  | @put q t f h hf ht ih =>
    obtain ⟨u, rfl⟩ : ∃ u, q = 47 :: u := by
      have hhead := h.head_slash hs
      cases q with
      | nil => exact absurd (hf 47 hhead) (by decide)
      | cons c q => exact ⟨q, by rw [Option.some.inj hhead]⟩
    rcases eq_or_ne t [] with rfl | hne
    · rwa [List.append_nil]
    · have hfront := HostSettled.front hf ih
      rw [settled_slash] at hfront
      rw [List.append_assoc, List.cons_append, settled_slash,
        refs.unref_append (ht.endsReference _ f hne), List.find?_append]
      cases hfind : (refs.unref u).find? (!isDropped ·) with
      | some d =>
        rw [hfind] at hfront
        exact hfront
      | none =>
        -- nothing counts in front of what is put in, so that it begins the query
        obtain ⟨c, t, rfl⟩ := List.exists_cons_of_ne_nil hne
        rcases ht.head c rfl with rfl | ⟨rfl, hmark⟩
        · rw [List.cons_append, refs.unref_cons (by decide)]
          rfl
        · have hmem : 63 ∈ refs.unref u :=
            refs.mem_unrefFrom (by decide) (by decide)
              ((List.mem_cons.mp hmark).resolve_left (by decide))
          exact absurd (List.find?_eq_none.mp hfind 63 hmem) (by decide)

end HostSettled

end BoatRudder
