import BoatRudder.Formats.FormUrlencoded
import BoatRudder.Text.Numbers

/-! # Reading the fields of a form

`parse_urlencoded_field` looks a field up in the body of a request, decodes its value and copies it
into a buffer. What it finds is the first field of the form with that name
(`parseFieldFrom_eq`), cut to the buffer. -/

namespace BoatRudder.WebServer

/-! ## Decoding -/

variable {key p : Bytes}

/-- `url_decode`. -/
def urlDecode : Bytes → Bytes
  | [] => []
  | 37 :: a :: b :: s =>
    if isXDigit a && isXDigit b then hexByte a b :: urlDecode s
    else 37 :: urlDecode (a :: b :: s)
  | 43 :: s => 32 :: urlDecode s
  | c :: s => c :: urlDecode s

/-- A plus sign is no digit, and the space it stands for is none. -/
theorem isXDigit_plusToSpace (c : UInt8) : isXDigit (if c = 43 then 32 else c) = isXDigit c := by
  by_cases h : c = 43
  · rw [if_pos h, h]
    rfl
  · rw [if_neg h]

/-- **Plus signs and percent signs in one pass** are decoded as in two. -/
theorem urlDecode_eq (s : Bytes) : urlDecode s = formDecode s := by
  rw [formDecode]
  fun_induction urlDecode s with
  | case1 => rfl
  | case2 a b s hdigits ih =>
    have hne : a ≠ 43 ∧ b ≠ 43 := by
      constructor <;> rintro rfl <;> simp [isXDigit, isDigit] at hdigits
    have hplus : plusToSpace (37 :: a :: b :: s) = 37 :: a :: b :: plusToSpace s := by
      simp [plusToSpace, hne]
    rw [hplus, percentDecode, if_pos hdigits, ih]
  | case3 a b s hdigits ih =>
    have hplus : plusToSpace (37 :: a :: b :: s) =
        37 :: (if a = 43 then 32 else a) :: (if b = 43 then 32 else b) :: plusToSpace s := by
      simp [plusToSpace]
    rw [hplus, percentDecode, isXDigit_plusToSpace, isXDigit_plusToSpace, if_neg hdigits, ih]
    rfl
  | case4 s ih =>
    have hplus : plusToSpace (43 :: s) = 32 :: plusToSpace s := rfl
    rw [hplus, percentDecode_cons_of_ne (by decide), ih]
  | case5 c s hpercent hplus ih =>
    have hcons : plusToSpace (c :: s) = c :: plusToSpace s := by
      simp [plusToSpace, show c ≠ 43 from hplus]
    rw [hcons, ih]
    by_cases hc : c = 37
    · -- fewer than two bytes are left
      subst hc
      rcases s with _ | ⟨a, _ | ⟨b, s⟩⟩
      · rfl
      · rfl
      · exact absurd rfl (hpercent a b s rfl)
    · rw [percentDecode_cons_of_ne hc]

/-! ## Looking a field up -/

/-- The loop of `parse_urlencoded_field` from a position on: the raw value of the first field with
this name. -/
def parseFieldFrom (key : Bytes) : ℕ → Bytes → Option Bytes
  | 0, _ => none
  | fuel + 1, p =>
    if 61 ∉ p then none
    else
      -- up to `eq`, which can stand behind `amp`, and up to `field_end`
      let name := p.takeWhile (· ≠ 61)
      let field := p.takeWhile (· ≠ 38)
      if name = key then
        -- a value that would end before it begins is not allocated
        if field.length ≤ name.length then none else some (field.drop (name.length + 1))
      else if 38 ∈ p then parseFieldFrom key fuel (afterByte 38 p)
      else none

/-- `parse_urlencoded_field`: what stands in `out`, a buffer of `size` bytes. -/
def parseUrlencodedField (body key : Bytes) (size : ℕ) : Bytes :=
  match parseFieldFrom key (body.length + 1) body with
  | none => []
  | some raw => (cstr (urlDecode (cstr raw))).take (size - 1)

/-- What `parse_urlencoded_field` returns: whether the field is found. -/
def foundUrlencodedField (body key : Bytes) : Bool := (parseFieldFrom key (body.length + 1) body).isSome

/-- The loop of `parse_urlencoded_multi`: the raw values of the fields with this name. -/
def parseFieldsFrom (key : Bytes) : ℕ → Bytes → List Bytes
  | 0, _ => []
  | fuel + 1, p =>
    if 61 ∉ p then []
    else
      let name := p.takeWhile (· ≠ 61)
      let field := p.takeWhile (· ≠ 38)
      let rest := if 38 ∈ p then parseFieldsFrom key fuel (afterByte 38 p) else []
      if name = key then
        if field.length ≤ name.length then [] else field.drop (name.length + 1) :: rest
      else rest

/-- `parse_urlencoded_multi`. -/
def parseUrlencodedMulti (body key : Bytes) (maxCount : ℕ) : List Bytes :=
  ((parseFieldsFrom key (body.length + 1) body).take maxCount).map fun raw => cstr (urlDecode (cstr raw))

/-- A value fits its buffer. -/
theorem length_parseUrlencodedField_lt (body key : Bytes) {size : ℕ} (hsize : 0 < size) :
    (parseUrlencodedField body key size).length < size := by
  unfold parseUrlencodedField
  split
  · exact hsize
  · rw [List.length_take]
    omega

/-- A value is a C string. -/
theorem zero_notMem_parseUrlencodedField (body key : Bytes) (size : ℕ) :
    0 ∉ parseUrlencodedField body key size := by
  unfold parseUrlencodedField
  split
  · exact List.not_mem_nil
  · exact fun h => zero_notMem_cstr _ (List.mem_of_mem_take h)

/-- The bytes from one past a byte. -/
theorem drop_takeWhile_ne {c : UInt8} {s : Bytes} (h : c ∈ s) :
    s.drop ((s.takeWhile (· ≠ c)).length + 1) = afterByte c s ∧
      (s.takeWhile (· ≠ c)).length < s.length := by
  have hs := takeWhile_afterByte h
  have hlen := congrArg List.length hs
  simp only [List.length_append, List.length_cons] at hlen
  refine ⟨?_, by omega⟩
  conv_lhs => rw [← hs]
  rw [takeWhile_ne_append (notMem_takeWhile_ne c s), List.drop_length_add_append]
  rfl

/-- **What a loop sees at a position**: the field that begins there, if it has the name looked for, or
no field of that name up to where the loop goes on. -/
theorem formFields_scan (hkey : 38 ∉ key) (h61 : 61 ∈ p) :
    (p.takeWhile (· ≠ 61) = key → (p.takeWhile (· ≠ 61)).length < (p.takeWhile (· ≠ 38)).length ∧
        formFields p = (key, (p.takeWhile (· ≠ 38)).drop ((p.takeWhile (· ≠ 61)).length + 1)) ::
          (if 38 ∈ p then formFields (afterByte 38 p) else [])) ∧
    (p.takeWhile (· ≠ 61) ≠ key → ∃ first, (∀ f ∈ first, f.1 ≠ key) ∧
      formFields p = first ++ (if 38 ∈ p then formFields (afterByte 38 p) else [])) := by
  by_cases h38 : 38 ∈ p
  · rw [formFields_of_mem h38, formFields_single (notMem_takeWhile_ne 38 p)]
    simp only [if_pos h38]
    by_cases hfirst : 61 ∈ p.takeWhile (· ≠ 38)
    · -- the first equals sign stands before the first ampersand
      have hname : p.takeWhile (· ≠ 61) = (p.takeWhile (· ≠ 38)).takeWhile (· ≠ 61) := by
        conv_lhs => rw [← takeWhile_afterByte h38]
        exact takeWhile_ne_append_of_mem hfirst _
      obtain ⟨hvalue, hlt⟩ := drop_takeWhile_ne hfirst
      rw [if_pos hfirst, hname]
      refine ⟨?_, fun hne => ⟨_, by simpa using hne, rfl⟩⟩
      rintro rfl
      exact ⟨hlt, by rw [hvalue]; rfl⟩
    · -- what stands before the first equals sign holds the ampersand
      have hname : p.takeWhile (· ≠ 61) ≠ key := by
        rintro rfl
        refine hkey ?_
        rw [← takeWhile_afterByte h38, List.takeWhile_append_of_pos]
        · simp
        · intro c hc
          simpa using fun h : c = 61 => hfirst (h ▸ hc)
      rw [if_neg hfirst]
      exact ⟨fun h => absurd h hname, fun _ => ⟨[], by simp, rfl⟩⟩
  · have hall : p.takeWhile (· ≠ 38) = p :=
      List.takeWhile_eq_self_iff.mpr fun c hc => by
        simpa using fun h : c = 38 => h38 (h ▸ hc)
    obtain ⟨hvalue, hlt⟩ := drop_takeWhile_ne h61
    rw [formFields_single h38, if_pos h61, hall]
    simp only [if_neg h38]
    refine ⟨?_, fun hne => ⟨_, by simpa using hne, (List.append_nil _).symm⟩⟩
    rintro rfl
    exact ⟨hlt, by rw [hvalue]⟩

/-- **The first field with the name is found**, with any fuel that reaches to the end. -/
theorem parseFieldFrom_eq (hkey : 38 ∉ key) {fuel : ℕ} (hfuel : p.length < fuel) :
    parseFieldFrom key fuel p = ((formFields p).find? (·.1 = key)).map (·.2) := by
  induction fuel generalizing p with
  | zero => omega
  | succ fuel ih =>
    rw [parseFieldFrom]
    by_cases h61 : 61 ∉ p
    · rw [if_pos h61, formFields_of_notMem h61]
      rfl
    · rw [if_neg h61]
      rw [not_not] at h61
      dsimp only
      obtain ⟨hfound, hother⟩ := formFields_scan hkey h61
      by_cases hname : p.takeWhile (· ≠ 61) = key
      · obtain ⟨hlt, hfields⟩ := hfound hname
        rw [if_pos hname, if_neg (by omega), hfields, List.find?_cons_of_pos (by simp)]
        rfl
      · obtain ⟨first, hfirst, hfields⟩ := hother hname
        have hnone : first.find? (fun f => decide (f.1 = key)) = none := by
          simpa [List.find?_eq_none] using hfirst
        rw [if_neg hname, hfields, List.find?_append, hnone, Option.none_or]
        by_cases h38 : 38 ∈ p
        · have hlt := length_afterByte_lt h38
          rw [if_pos h38, if_pos h38, ih (by omega)]
        · rw [if_neg h38, if_neg h38]
          rfl

/-- **All the fields with the name are found**, in their order. -/
theorem parseFieldsFrom_eq (hkey : 38 ∉ key) {fuel : ℕ} (hfuel : p.length < fuel) :
    parseFieldsFrom key fuel p = ((formFields p).filter (·.1 = key)).map (·.2) := by
  induction fuel generalizing p with
  | zero => omega
  | succ fuel ih =>
    rw [parseFieldsFrom]
    by_cases h61 : 61 ∉ p
    · rw [if_pos h61, formFields_of_notMem h61]
      rfl
    · rw [if_neg h61]
      rw [not_not] at h61
      dsimp only
      have hrest : (if 38 ∈ p then parseFieldsFrom key fuel (afterByte 38 p) else []) =
          ((if 38 ∈ p then formFields (afterByte 38 p) else []).filter (·.1 = key)).map (·.2) := by
        by_cases h38 : 38 ∈ p
        · have hlt := length_afterByte_lt h38
          rw [if_pos h38, if_pos h38, ih (by omega)]
        · rw [if_neg h38, if_neg h38]
          rfl
      obtain ⟨hfound, hother⟩ := formFields_scan hkey h61
      rw [hrest]
      by_cases hname : p.takeWhile (· ≠ 61) = key
      · obtain ⟨hlt, hfields⟩ := hfound hname
        rw [if_pos hname, if_neg (by omega), hfields, List.filter_cons_of_pos (by simp)]
        rfl
      · obtain ⟨first, hfirst, hfields⟩ := hother hname
        have hnone : first.filter (fun f => decide (f.1 = key)) = [] := by
          simpa [List.filter_eq_nil_iff] using hfirst
        rw [if_neg hname, hfields, List.filter_append, hnone, List.nil_append]

/-- What the buffer is made to hold of a value. -/
theorem parseUrlencodedField_of_formValue {body v : Bytes} (hkey : 38 ∉ key)
    (h : formValue body key = some v) (hzero : 0 ∉ v) {size : ℕ} (hsize : v.length < size) :
    parseUrlencodedField body key size = v := by
  obtain ⟨f, hf, rfl⟩ := Option.map_eq_some_iff.mp h
  have hraw : parseFieldFrom key (body.length + 1) body = some f.2 := by
    rw [parseFieldFrom_eq hkey (Nat.lt_succ_self _), hf]
    rfl
  have hcut : cstr f.2 = f.2 := cstr_eq_self fun hmem => hzero (zero_mem_formDecode hmem)
  rw [parseUrlencodedField, hraw]
  show (cstr (urlDecode (cstr f.2))).take _ = _
  rw [hcut, urlDecode_eq, cstr_eq_self hzero, List.take_of_length_le (by omega)]

end BoatRudder.WebServer
