import BoatRudder.Text.Bytes

/-! # Forms in URL encoding

A form as a body of the type `application/x-www-form-urlencoded` carries it: fields `name=value`
between ampersands, spaces as plus signs, any byte as a percent sign and two digits. -/

namespace BoatRudder

variable {name s v : Bytes} {fields : List (Bytes × Bytes)} {c : UInt8}

/-- The byte of two hexadecimal digits. -/
def hexByte (a b : UInt8) : UInt8 :=
  UInt8.ofNat (16 * (digitValue a).getD 0 + (digitValue b).getD 0)

/-- A byte for each percent sign with two digits behind it. -/
def percentDecode : Bytes → Bytes
  | [] => []
  | 37 :: a :: b :: s =>
    if isXDigit a && isXDigit b then hexByte a b :: percentDecode s
    else 37 :: percentDecode (a :: b :: s)
  | c :: s => c :: percentDecode s

/-- A space for each plus sign. -/
def plusToSpace (s : Bytes) : Bytes := s.map fun c => if c = 43 then 32 else c

/-- The value that stands encoded. -/
def formDecode (s : Bytes) : Bytes := percentDecode (plusToSpace s)

/-- The fields of a body, names and encoded values: what stands between ampersands and has an equals
sign. -/
def formFields (body : Bytes) : List (Bytes × Bytes) :=
  ((body.splitOnP (· == 38)).filter (·.contains 61)).map fun f =>
    (f.takeWhile (· ≠ 61), afterByte 61 f)

/-- The value of the first field with a name. -/
def formValue (body name : Bytes) : Option Bytes :=
  ((formFields body).find? (·.1 = name)).map fun f => formDecode f.2

theorem percentDecode_cons_of_ne (h : c ≠ 37) (s : Bytes) :
    percentDecode (c :: s) = c :: percentDecode s := by
  rw [percentDecode]
  rintro a b t rfl
  exact absurd rfl h

/-- A NUL that stands unencoded stays. -/
theorem zero_mem_percentDecode (h : 0 ∈ s) : 0 ∈ percentDecode s := by
  fun_induction percentDecode s with
  | case1 => exact h
  | case2 a b s hdigits ih =>
    have hne : (0 : UInt8) ≠ a ∧ (0 : UInt8) ≠ b := by
      constructor <;> rintro rfl <;> simp [isXDigit, isDigit] at hdigits
    have hs : 0 ∈ s := by simpa [hne] using h
    exact List.mem_cons_of_mem _ (ih hs)
  | case3 a b s hdigits ih =>
    exact List.mem_cons_of_mem _ (ih ((List.mem_cons.mp h).resolve_left (by decide)))
  | case4 c s hshort ih =>
    rcases List.mem_cons.mp h with hc | hs
    · exact List.mem_cons.mpr (Or.inl hc)
    · exact List.mem_cons_of_mem _ (ih hs)

theorem zero_mem_formDecode (h : 0 ∈ s) : 0 ∈ formDecode s :=
  zero_mem_percentDecode (List.mem_map.mpr ⟨0, h, rfl⟩)

/-! ## Encoding -/

/-- A hexadecimal digit, in upper case. -/
def upperHex (n : ℕ) : UInt8 := UInt8.ofNat (if n < 10 then 48 + n else 55 + n)

/-- The bytes that stand for themselves. -/
def formPlain (b : UInt8) : Bool := isAlnum b || b == 42 || b == 45 || b == 46 || b == 95

/-- A byte as it stands in a value. -/
def formEncodeByte (b : UInt8) : Bytes :=
  if formPlain b then [b]
  else if b = 32 then [43]
  else [37, upperHex (b.toNat / 16), upperHex (b.toNat % 16)]

/-- A value encoded. -/
def formEncode (v : Bytes) : Bytes := v.flatMap formEncodeByte

/-- A byte written as a percent sign and two digits. -/
def percentByte (b : UInt8) : Bytes := [37, upperHex (b.toNat / 16), upperHex (b.toNat % 16)]

/-- Any byte can be written so. -/
theorem formDecode_percentByte (b : UInt8) (s : Bytes) :
    formDecode (percentByte b ++ s) = b :: formDecode s := by
  have hhex : ∀ n < 256, isXDigit (upperHex (n / 16)) = true ∧ isXDigit (upperHex (n % 16)) = true ∧
      hexByte (upperHex (n / 16)) (upperHex (n % 16)) = UInt8.ofNat n := by decide +kernel
  obtain ⟨hhigh, hlow, hbyte⟩ := hhex b.toNat b.toNat_lt
  have hne : ∀ c : UInt8, isXDigit c = true → c ≠ 43 := by
    rintro c hc rfl
    cases hc
  have hplus : plusToSpace (percentByte b ++ s) =
      37 :: upperHex (b.toNat / 16) :: upperHex (b.toNat % 16) :: plusToSpace s := by
    simp [percentByte, plusToSpace, hne _ hhigh, hne _ hlow]
  rw [formDecode, hplus, percentDecode, if_pos (by rw [hhigh, hlow]; rfl), hbyte, UInt8.ofNat_toNat]
  rfl

/-- A byte that is no percent sign and no plus sign is written as it is. -/
theorem formDecode_cons_of_ne {b : UInt8} (hpercent : b ≠ 37) (hplus : b ≠ 43) (s : Bytes) :
    formDecode (b :: s) = b :: formDecode s := by
  have hmap : plusToSpace (b :: s) = b :: plusToSpace s := by simp [plusToSpace, hplus]
  rw [formDecode, hmap, percentDecode_cons_of_ne hpercent]
  rfl

/-- What a byte is encoded as decodes to it, whatever follows. -/
theorem formDecode_encodeByte (b : UInt8) (s : Bytes) :
    formDecode (formEncodeByte b ++ s) = b :: formDecode s := by
  unfold formEncodeByte
  split_ifs with h h32
  · refine formDecode_cons_of_ne ?_ ?_ s
    · rintro rfl
      cases h
    · rintro rfl
      cases h
  · subst h32
    have hplus : plusToSpace ([43] ++ s) = 32 :: plusToSpace s := rfl
    rw [formDecode, hplus, percentDecode_cons_of_ne (by decide)]
    rfl
  · exact formDecode_percentByte b s

/-- **What was encoded is decoded.** -/
theorem formDecode_formEncode (v : Bytes) : formDecode (formEncode v) = v := by
  induction v with
  | nil => rfl
  | cons b v ih =>
    rw [formEncode, List.flatMap_cons, formDecode_encodeByte, ← formEncode, ih]

/-- An encoded value holds none of the bytes between fields. -/
theorem separator_notMem_formEncode (v : Bytes) :
    38 ∉ formEncode v ∧ 61 ∉ formEncode v := by
  have hbyte : ∀ b, 38 ∉ formEncodeByte b ∧ 61 ∉ formEncodeByte b := by decide +kernel
  constructor <;> intro h <;> obtain ⟨b, -, hb⟩ := List.mem_flatMap.mp h
  · exact (hbyte b).1 hb
  · exact (hbyte b).2 hb

/-- The bytes that stand for themselves in a path. -/
def unreserved (b : UInt8) : Bool := isAlnum b || b == 45 || b == 46 || b == 95 || b == 126

/-- A text as it stands in a path. -/
def percentEncode (v : Bytes) : Bytes := v.flatMap fun b => if unreserved b then [b] else percentByte b

/-- **A path that was encoded is decoded.** -/
theorem formDecode_percentEncode (v : Bytes) : formDecode (percentEncode v) = v := by
  induction v with
  | nil => rfl
  | cons b v ih =>
    rw [percentEncode, List.flatMap_cons, ← percentEncode]
    split_ifs with h
    · rw [List.singleton_append, formDecode_cons_of_ne, ih]
      · rintro rfl
        exact absurd h (by decide)
      · rintro rfl
        exact absurd h (by decide)
    · rw [formDecode_percentByte, ih]

/-- Three bytes for another end neither a path nor a URL. -/
theorem mem_percentByte (b : UInt8) : ∀ c ∈ percentByte b, c ≠ 35 ∧ c ≠ 63 := by
  have hdigit : ∀ n < 16, upperHex n ≠ 35 ∧ upperHex n ≠ 63 := by decide
  have hb := b.toNat_lt
  simp only [percentByte, List.forall_mem_cons, List.not_mem_nil, false_implies, implies_true, and_true]
  exact ⟨by decide, hdigit _ (by omega), hdigit _ (by omega)⟩

/-- An encoded text ends neither a path nor a URL. -/
theorem mem_percentEncode (h : c ∈ percentEncode v) : c ≠ 35 ∧ c ≠ 63 := by
  obtain ⟨b, -, hb⟩ := List.mem_flatMap.mp h
  split_ifs at hb with hplain
  · obtain rfl := List.mem_singleton.mp hb
    constructor
    · rintro rfl
      exact absurd hplain (by decide)
    · rintro rfl
      exact absurd hplain (by decide)
  · exact mem_percentByte b c hb

/-- A byte of a text takes three bytes at most. -/
theorem length_percentEncode_le (v : Bytes) : (percentEncode v).length ≤ 3 * v.length := by
  induction v with
  | nil => rfl
  | cons b v ih =>
    have hbyte : (if unreserved b then [b] else percentByte b).length ≤ 3 := by
      split_ifs <;> simp [percentByte]
    rw [percentEncode, List.flatMap_cons, List.length_append, ← percentEncode, List.length_cons]
    omega

/-- A form with plain names, as a body. -/
def formBody : List (Bytes × Bytes) → Bytes
  | [] => []
  | [f] => f.1 ++ 61 :: formEncode f.2
  | f :: fields => f.1 ++ 61 :: formEncode f.2 ++ 38 :: formBody fields

/-- An encoded byte takes three bytes at most. -/
theorem length_formEncode_le (v : Bytes) : (formEncode v).length ≤ 3 * v.length := by
  induction v with
  | nil => rfl
  | cons b v ih =>
    have hbyte : (formEncodeByte b).length ≤ 3 := by
      unfold formEncodeByte
      split_ifs <;> simp
    rw [formEncode, List.flatMap_cons, List.length_append, ← formEncode, List.length_cons]
    omega

/-- A form is as long as its fields allow. -/
theorem length_formBody_le {k : ℕ} (h : ∀ f ∈ fields, f.1.length + 3 * f.2.length + 2 ≤ k) :
    (formBody fields).length ≤ k * fields.length := by
  induction fields with
  | nil => exact Nat.zero_le _
  | cons f fields ih =>
    have hrest := ih fun g hg => h g (List.mem_cons_of_mem _ hg)
    have hfield := h f List.mem_cons_self
    have hvalue := length_formEncode_le f.2
    rw [List.length_cons, Nat.mul_succ]
    cases fields with
    | nil =>
      simp only [formBody, List.length_append, List.length_cons]
      omega
    | cons g fields =>
      rw [formBody]
      · simp only [List.length_append, List.length_cons] at hrest ⊢
        omega
      · nofun

/-! ## Spellings

A value may be encoded in more than one way: a byte may stand for itself or be escaped, and the digits
of an escape may be upper or lower case. -/

/-- `raw` is the value written in URL encoding. -/
inductive FormSpells : Bytes → Bytes → Prop where
  /-- Nothing. -/
  | nil : FormSpells [] []
  /-- A byte that stands for itself. -/
  | plain {c : UInt8} {raw v : Bytes} (hc : c ∉ [37, 38, 43]) :
      FormSpells raw v → FormSpells (c :: raw) (c :: v)
  /-- A space as a plus sign. -/
  | plus {raw v : Bytes} : FormSpells raw v → FormSpells (43 :: raw) (32 :: v)
  /-- A byte as a percent sign and two digits. -/
  | escape {a b : UInt8} {raw v : Bytes} (ha : isXDigit a = true) (hb : isXDigit b = true) :
      FormSpells raw v → FormSpells (37 :: a :: b :: raw) (hexByte a b :: v)

/-- **Any spelling decodes to its value.** -/
theorem FormSpells.formDecode_eq {raw : Bytes} (h : FormSpells raw v) : formDecode raw = v := by
  induction h with
  | nil => rfl
  | plain hc _ ih =>
    simp only [List.mem_cons, List.not_mem_nil, or_false, not_or] at hc
    rw [formDecode_cons_of_ne hc.1 hc.2.2, ih]
  | @plus raw v _ ih =>
    have hplus : plusToSpace (43 :: raw) = 32 :: plusToSpace raw := rfl
    rw [formDecode, hplus, percentDecode_cons_of_ne (by decide), ← formDecode, ih]
  | @escape a b raw v ha hb _ ih =>
    have hne : a ≠ 43 ∧ b ≠ 43 := by
      constructor <;> rintro rfl
      · cases ha
      · cases hb
    have hplus : plusToSpace (37 :: a :: b :: raw) = 37 :: a :: b :: plusToSpace raw := by
      simp [plusToSpace, hne]
    rw [formDecode, hplus, percentDecode, if_pos (by rw [ha, hb]; rfl), ← formDecode, ih]

/-- No spelling holds an ampersand. -/
theorem FormSpells.amp_notMem {raw : Bytes} (h : FormSpells raw v) : 38 ∉ raw := by
  induction h with
  | nil => exact List.not_mem_nil
  | plain hc _ ih =>
    simp only [List.mem_cons, List.not_mem_nil, or_false, not_or] at hc ⊢
    exact ⟨fun h => hc.2.1 h.symm, ih⟩
  | plus _ ih => simpa using ih
  | escape ha hb _ ih =>
    simp only [List.mem_cons, not_or]
    refine ⟨by decide, ?_, ?_, ih⟩ <;> rintro rfl
    · cases ha
    · cases hb

/-- The encoding of a value is a spelling of it. -/
theorem formSpells_formEncode (v : Bytes) : FormSpells (formEncode v) v := by
  have hhex : ∀ n < 256, isXDigit (upperHex (n / 16)) = true ∧ isXDigit (upperHex (n % 16)) = true ∧
      hexByte (upperHex (n / 16)) (upperHex (n % 16)) = UInt8.ofNat n := by decide +kernel
  induction v with
  | nil => exact .nil
  | cons c v ih =>
    rw [formEncode, List.flatMap_cons, ← formEncode, formEncodeByte]
    split_ifs with hplain hspace
    · refine .plain ?_ ih
      simp only [List.mem_cons, List.not_mem_nil, or_false, not_or]
      refine ⟨?_, ?_, ?_⟩ <;> (rintro rfl; cases hplain)
    · subst hspace
      exact .plus ih
    · obtain ⟨hhigh, hlow, hbyte⟩ := hhex c.toNat c.toNat_lt
      have hescape := FormSpells.escape hhigh hlow ih
      rwa [hbyte, UInt8.ofNat_toNat] at hescape

/-! ## Field by field -/

/-- A body without an ampersand is one field at most. -/
theorem formFields_single (h : 38 ∉ s) :
    formFields s = if 61 ∈ s then [(s.takeWhile (· ≠ 61), afterByte 61 s)] else [] := by
  have hsplit : s.splitOnP (· == 38) = [s] := by
    refine List.splitOnP_eq_singleton fun c hc => ?_
    simpa using fun h38 : c = 38 => h (h38 ▸ hc)
  rw [formFields, hsplit]
  by_cases h61 : 61 ∈ s <;> simp [h61]

/-- The fields before an ampersand, and those behind it. -/
theorem formFields_append (s rest : Bytes) :
    formFields (s ++ 38 :: rest) = formFields s ++ formFields rest := by
  rw [formFields, formFields, formFields, List.splitOnP_append_cons _ _ rfl, List.filter_append,
    List.map_append]

/-- The field up to the first ampersand, and the fields behind it. -/
theorem formFields_of_mem (h : 38 ∈ s) :
    formFields s = formFields (s.takeWhile (· ≠ 38)) ++ formFields (afterByte 38 s) := by
  conv_lhs => rw [← takeWhile_afterByte h]
  exact formFields_append _ _

theorem notMem_takeWhile_ne (c : UInt8) (s : Bytes) : c ∉ s.takeWhile (· ≠ c) := by
  intro h
  have := List.mem_takeWhile_imp h
  simp at this

/-- What follows a byte is shorter. -/
theorem length_afterByte_lt (h : c ∈ s) : (afterByte c s).length < s.length := by
  have hlen := congrArg List.length (takeWhile_afterByte h)
  simp only [List.length_append, List.length_cons] at hlen
  omega

/-- Without an equals sign there is no field. -/
theorem formFields_of_notMem (h : 61 ∉ s) : formFields s = [] := by
  induction hn : s.length using Nat.strongRecOn generalizing s with
  | _ n ih =>
    subst hn
    by_cases hamp : 38 ∈ s
    · have hrest : 61 ∉ afterByte 38 s := fun hmem =>
        h ((List.dropWhile_suffix _).subset (List.mem_of_mem_drop hmem))
      have hfirst : 61 ∉ s.takeWhile (· ≠ 38) := fun hmem =>
        h ((List.takeWhile_prefix _).subset hmem)
      rw [formFields_of_mem hamp, ih _ (length_afterByte_lt hamp) hrest rfl,
        formFields_single (notMem_takeWhile_ne 38 s), if_neg hfirst]
      rfl
    · rw [formFields_single hamp, if_neg h]

/-- A body has no more fields than bytes, but for one. -/
theorem length_formFields_le (s : Bytes) : (formFields s).length ≤ s.length + 1 := by
  have hsingle : ∀ t : Bytes, 38 ∉ t → (formFields t).length ≤ 1 := by
    intro t ht
    rw [formFields_single ht]
    split_ifs <;> simp
  induction hn : s.length using Nat.strongRecOn generalizing s with
  | _ n ih =>
    subst hn
    by_cases hamp : 38 ∈ s
    · have hlt := length_afterByte_lt hamp
      have hrest := ih _ hlt (afterByte 38 s) rfl
      have hfirst := hsingle _ (notMem_takeWhile_ne 38 s)
      rw [formFields_of_mem hamp, List.length_append]
      omega
    · exact (hsingle s hamp).trans (Nat.le_add_left 1 _)

/-- A value that is found stands in a field. -/
theorem mem_formFields_of_formValue {body : Bytes} (h : formValue body name = some v) :
    name ∈ (formFields body).map Prod.fst := by
  obtain ⟨f, hf, -⟩ := Option.map_eq_some_iff.mp h
  have hname : f.1 = name := by simpa using List.find?_some hf
  exact List.mem_map.mpr ⟨f, List.mem_of_find?_eq_some hf, hname⟩

/-- One field with a plain name. -/
theorem formFields_field (h38 : 38 ∉ name) (h61 : 61 ∉ name)
    (v : Bytes) : formFields (name ++ 61 :: formEncode v) = [(name, formEncode v)] := by
  have hamp : 38 ∉ name ++ 61 :: formEncode v := by
    rw [List.mem_append, List.mem_cons, not_or, not_or]
    exact ⟨h38, by decide, (separator_notMem_formEncode v).1⟩
  rw [formFields_single hamp, if_pos (by simp), takeWhile_ne_append h61, afterByte_append h61]

/-- The fields of a form, in their order. -/
theorem formFields_formBody (h : ∀ f ∈ fields, 38 ∉ f.1 ∧ 61 ∉ f.1) :
    formFields (formBody fields) = fields.map fun f => (f.1, formEncode f.2) := by
  induction fields with
  | nil => rfl
  | cons f fields ih =>
    obtain ⟨h38, h61⟩ := h f List.mem_cons_self
    cases fields with
    | nil => exact formFields_field h38 h61 f.2
    | cons g fields =>
      rw [formBody, formFields_append, formFields_field h38 h61,
        ih fun f' hf' => h f' (List.mem_cons_of_mem _ hf')]
      · rfl
      · nofun

/-- **A form's value is found by its name**, where no field of that name has another. -/
theorem formValue_formBody (h : ∀ f ∈ fields, 38 ∉ f.1 ∧ 61 ∉ f.1)
    (hmem : (name, v) ∈ fields) (honly : ∀ w, (name, w) ∈ fields → w = v) :
    formValue (formBody fields) name = some v := by
  have hfound : ∃ w, fields.find? (fun f => f.1 = name) = some (name, w) := by
    have hsome : (fields.find? fun f => f.1 = name).isSome = true :=
      List.find?_isSome.mpr ⟨(name, v), hmem, by simp⟩
    obtain ⟨f, hf⟩ := Option.isSome_iff_exists.mp hsome
    have hname : f.1 = name := by simpa using List.find?_some hf
    exact ⟨f.2, by rw [hf, ← hname]⟩
  obtain ⟨w, hw⟩ := hfound
  obtain rfl := honly w (List.mem_of_find?_eq_some hw)
  have hfind : (fields.map fun f => (f.1, formEncode f.2)).find? (fun f => f.1 = name) =
      some (name, formEncode w) := by
    rw [List.find?_map]
    show Option.map _ (fields.find? fun f => f.1 = name) = _
    rw [hw]
    rfl
  rw [formValue, formFields_formBody h, hfind, Option.map_some, formDecode_formEncode]

end BoatRudder
