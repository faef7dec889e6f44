import BoatRudder.Formats.FormUrlencoded
import BoatRudder.Text.Numbers
import Mathlib.Data.List.Nodup
import Mathlib.Data.List.Perm.Subperm

/-! # The form of an entry's content

What a body posts: a number of blocks, and for each a field of its id, its type, its order, its extra
data and its text in every language. The form the editor makes of its blocks posts them
(`postsContent_editorForm`). -/

namespace BoatRudder.WebServer

/-! ## Posted blocks -/

variable {langs : List Bytes}

/-- A block as the editor has it, with a text for each language. -/
structure PostedBlock where
  id : Bytes
  type : Bytes
  order : ℤ
  extraData : Bytes
  text : Bytes → Bytes

/-- The name of a field of the `i`th block. -/
def blockField (i : ℕ) (suffix : Bytes) : Bytes :=
  lit "content_" ++ decimal i ++ lit "_" ++ suffix

/-- **The form of a body posts these blocks.** -/
structure PostsContent (langs : List Bytes) (body : Bytes) (posted : List PostedBlock) : Prop where
  count : formValue body (lit "content_count") = some (decimal posted.length)
  id : ∀ i p, posted[i]? = some p → formValue body (blockField i (lit "id")) = some p.id
  type : ∀ i p, posted[i]? = some p → formValue body (blockField i (lit "type")) = some p.type
  order : ∀ i p, posted[i]? = some p →
    formValue body (blockField i (lit "order")) = some (signed p.order)
  extraData : ∀ i p, posted[i]? = some p →
    formValue body (blockField i (lit "extra_data")) = some p.extraData
  text : ∀ i p, posted[i]? = some p → ∀ code ∈ langs,
    formValue body (blockField i (lit "text_" ++ code)) = some (p.text code)

/-- The name of a field says which block and which field of it. -/
theorem blockField_inj {i j : ℕ} {a b : Bytes} (h : blockField i a = blockField j b) :
    i = j ∧ a = b := by
  rw [blockField, blockField, List.append_assoc, List.append_assoc, List.append_assoc,
    List.append_assoc] at h
  replace h := List.append_cancel_left h
  have hrun : ∀ (n : ℕ) (s : Bytes), (decimal n ++ (lit "_" ++ s)).takeWhile isDigit = decimal n := by
    intro n s
    refine takeWhile_decimal_append n fun c hc => ?_
    obtain rfl : 95 = c := by simpa [lit] using hc
    rfl
  have hdigits : decimal i = decimal j := by
    have htake := congrArg (List.takeWhile isDigit) h
    rwa [hrun, hrun] at htake
  have hij : i = j := by
    have hvalue := congrArg (digitsValue 10 0) hdigits
    rwa [digitsValue_decimal, digitsValue_decimal] at hvalue
  subst hij
  exact ⟨rfl, List.append_cancel_left (List.append_cancel_left h)⟩

variable {posted : List PostedBlock}

/-- A body posts no more blocks than it has bytes, but for one: each has a field for its id. -/
theorem PostsContent.length_le {body : Bytes}
    (h : PostsContent langs body posted) : posted.length ≤ body.length + 1 := by
  have hnodup : ((List.range posted.length).map fun i => blockField i (lit "id")).Nodup :=
    List.Nodup.map_on (fun i _ j _ hij => (blockField_inj hij).1) List.nodup_range
  have hsubset : ((List.range posted.length).map fun i => blockField i (lit "id")) ⊆
      (formFields body).map Prod.fst := by
    intro name hname
    obtain ⟨i, hi, rfl⟩ := List.mem_map.mp hname
    exact mem_formFields_of_formValue
      (h.id i _ (List.getElem?_eq_getElem (List.mem_range.mp hi)))
  have hle := (hnodup.subperm hsubset).length_le
  rw [List.length_map, List.length_map, List.length_range] at hle
  exact hle.trans (length_formFields_le body)

/-! ## The editor's form -/

/-- The fields of a block, as the editor's `saveContent` sets them. -/
def blockValues (langs : List Bytes) (p : PostedBlock) : List (Bytes × Bytes) :=
  [(lit "id", p.id), (lit "type", p.type), (lit "order", signed p.order),
    (lit "extra_data", p.extraData)] ++ langs.map fun code => (lit "text_" ++ code, p.text code)

/-- The fields of the `i`th block under their full names. -/
def blockFields (langs : List Bytes) (i : ℕ) (p : PostedBlock) : List (Bytes × Bytes) :=
  (blockValues langs p).map fun f => (blockField i f.1, f.2)

/-- The fields of all blocks, behind their number. -/
def editorFields (langs : List Bytes) (posted : List PostedBlock) : List (Bytes × Bytes) :=
  (lit "content_count", decimal posted.length) ::
    posted.zipIdx.flatMap fun p => blockFields langs p.2 p.1

/-- The body the editor sends. -/
def editorForm (langs : List Bytes) (posted : List PostedBlock) : Bytes :=
  formBody (editorFields langs posted)

/-- The number of the blocks is no field of a block. -/
theorem blockField_ne_count (i : ℕ) (a : Bytes) : blockField i a ≠ lit "content_count" := by
  intro h
  have hcount : lit "content_count" = lit "content_" ++ lit "count" := by decide
  rw [hcount, blockField, List.append_assoc, List.append_assoc] at h
  replace h := List.append_cancel_left h
  obtain ⟨d, ds, hd⟩ := List.exists_cons_of_ne_nil (decimal_ne_nil i)
  have hdigit : isDigit d = true := isDigit_of_mem_decimal (n := i) (by rw [hd]; exact List.mem_cons_self)
  rw [hd] at h
  obtain rfl : d = 99 := (List.cons.inj h).1
  cases hdigit

theorem plain_blockField (i : ℕ) {a : Bytes} (h38 : 38 ∉ a) (h61 : 61 ∉ a) :
    38 ∉ blockField i a ∧ 61 ∉ blockField i a := by
  have hdigits : ∀ c : UInt8, isDigit c = false → c ∉ decimal i := by
    intro c hc hmem
    rw [isDigit_of_mem_decimal hmem] at hc
    cases hc
  simp only [blockField, List.mem_append, not_or]
  exact ⟨⟨⟨⟨by decide, hdigits 38 rfl⟩, by decide⟩, h38⟩,
    ⟨⟨⟨by decide, hdigits 61 rfl⟩, by decide⟩, h61⟩⟩

/-- The fields of the blocks, one by one. -/
theorem mem_editorFields {name v : Bytes} : (name, v) ∈ editorFields langs posted ↔
      name = lit "content_count" ∧ v = decimal posted.length ∨
        ∃ i p, posted[i]? = some p ∧ (name, v) ∈ blockFields langs i p := by
  rw [editorFields, List.mem_cons, Prod.mk.injEq, List.mem_flatMap]
  refine or_congr_right ⟨?_, ?_⟩
  · rintro ⟨⟨p, i⟩, hp, hmem⟩
    exact ⟨i, p, List.mk_mem_zipIdx_iff_getElem?.mp hp, hmem⟩
  · rintro ⟨i, p, hp, hmem⟩
    exact ⟨(p, i), List.mk_mem_zipIdx_iff_getElem?.mpr hp, hmem⟩

/-- A field of a block has one value. -/
theorem blockValues_unique {p : PostedBlock} {suffix v w : Bytes}
    (hv : (suffix, v) ∈ blockValues langs p) (hw : (suffix, w) ∈ blockValues langs p) : v = w := by
  have hcases : ∀ {x : Bytes}, (suffix, x) ∈ blockValues langs p →
      (suffix = lit "id" ∧ x = p.id) ∨ (suffix = lit "type" ∧ x = p.type) ∨
        (suffix = lit "order" ∧ x = signed p.order) ∨
        (suffix = lit "extra_data" ∧ x = p.extraData) ∨
        ∃ code, suffix = lit "text_" ++ code ∧ x = p.text code := by
    intro x hx
    rcases List.mem_append.mp hx with hx | hx
    · have hx' : (suffix = lit "id" ∧ x = p.id) ∨ (suffix = lit "type" ∧ x = p.type) ∨
          (suffix = lit "order" ∧ x = signed p.order) ∨
          (suffix = lit "extra_data" ∧ x = p.extraData) := by simpa using hx
      tauto
    · obtain ⟨code, -, hcode⟩ := List.mem_map.mp hx
      obtain ⟨rfl, rfl⟩ := Prod.mk.inj hcode
      exact Or.inr (Or.inr (Or.inr (Or.inr ⟨code, rfl, rfl⟩)))
  -- the first two bytes tell the fields apart
  have hkey : ∀ {s t : Bytes}, suffix = s → suffix = t → s.take 2 = t.take 2 := fun h h' => by
    rw [← h, ← h']
  rcases hcases hv with ⟨hs, rfl⟩ | ⟨hs, rfl⟩ | ⟨hs, rfl⟩ | ⟨hs, rfl⟩ | ⟨code, hs, rfl⟩ <;>
    rcases hcases hw with ⟨hs', rfl⟩ | ⟨hs', rfl⟩ | ⟨hs', rfl⟩ | ⟨hs', rfl⟩ | ⟨code', hs', rfl⟩
  any_goals rfl
  any_goals cases hkey hs hs'
  rw [List.append_cancel_left (hs.symm.trans hs')]

/-- **The editor's form posts its blocks**, in languages with plain codes. -/
theorem postsContent_editorForm (hlangs : ∀ code ∈ langs, 38 ∉ code ∧ 61 ∉ code)
    (posted : List PostedBlock) : PostsContent langs (editorForm langs posted) posted := by
  have hplain : ∀ f ∈ editorFields langs posted, 38 ∉ f.1 ∧ 61 ∉ f.1 := by
    rintro ⟨name, v⟩ hf
    rcases mem_editorFields.mp hf with ⟨rfl, -⟩ | ⟨i, p, -, hmem⟩
    · exact (by decide : 38 ∉ lit "content_count" ∧ 61 ∉ lit "content_count")
    · obtain ⟨f, hvalue, hfield⟩ := List.mem_map.mp hmem
      obtain ⟨rfl, rfl⟩ := Prod.mk.inj hfield
      rcases List.mem_append.mp hvalue with hfixed | htext
      · have hconst : ∀ s ∈ [lit "id", lit "type", lit "order", lit "extra_data"],
            38 ∉ s ∧ 61 ∉ s := by decide
        have hs : f.1 ∈ [lit "id", lit "type", lit "order", lit "extra_data"] :=
          List.mem_map_of_mem (f := Prod.fst) hfixed
        exact plain_blockField i (hconst _ hs).1 (hconst _ hs).2
      · obtain ⟨code, hcode, rfl⟩ := List.mem_map.mp htext
        obtain ⟨h38, h61⟩ := hlangs code hcode
        refine plain_blockField i ?_ ?_
        · rw [List.mem_append, not_or]
          exact ⟨by decide, h38⟩
        · rw [List.mem_append, not_or]
          exact ⟨by decide, h61⟩
  have hfield : ∀ i p, posted[i]? = some p → ∀ suffix v, (suffix, v) ∈ blockValues langs p →
      formValue (editorForm langs posted) (blockField i suffix) = some v := by
    intro i p hp suffix v hv
    refine formValue_formBody hplain ?_ fun w hw => ?_
    · exact mem_editorFields.mpr (Or.inr ⟨i, p, hp, List.mem_map.mpr ⟨(suffix, v), hv, rfl⟩⟩)
    · rcases mem_editorFields.mp hw with ⟨hname, -⟩ | ⟨j, p', hp', hmem⟩
      · exact absurd hname (blockField_ne_count i suffix)
      · obtain ⟨f, hf, hfield⟩ := List.mem_map.mp hmem
        obtain ⟨hname, rfl⟩ := Prod.mk.inj hfield
        obtain ⟨rfl, rfl⟩ := blockField_inj hname
        obtain rfl := Option.some.inj (hp.symm.trans hp')
        exact blockValues_unique hf hv
  constructor
  · refine formValue_formBody hplain (mem_editorFields.mpr (Or.inl ⟨rfl, rfl⟩)) fun w hw => ?_
    rcases mem_editorFields.mp hw with ⟨-, rfl⟩ | ⟨j, p', -, hmem⟩
    · rfl
    · obtain ⟨f, -, hfield⟩ := List.mem_map.mp hmem
      exact absurd (Prod.mk.inj hfield).1 (blockField_ne_count j f.1)
  · exact fun i p hp => hfield i p hp _ _ (by simp [blockValues])
  · exact fun i p hp => hfield i p hp _ _ (by simp [blockValues])
  · exact fun i p hp => hfield i p hp _ _ (by simp [blockValues])
  · exact fun i p hp => hfield i p hp _ _ (by simp [blockValues])
  · exact fun i p hp code hcode => hfield i p hp _ _
      (List.mem_append_right _ (List.mem_map.mpr ⟨code, hcode, rfl⟩))

/-- The form of blocks with short values is short. -/
theorem length_editorForm_le (hlangs : ∀ code ∈ langs, code.length ≤ 2) (hn : posted.length < 1000)
    {m : ℕ} (hm : 3 ≤ m)
    (h : ∀ p ∈ posted, p.id.length ≤ m ∧ p.type.length ≤ m ∧ (signed p.order).length ≤ m ∧
      p.extraData.length ≤ m ∧ ∀ code ∈ langs, (p.text code).length ≤ m) :
    (editorForm langs posted).length ≤ (30 + 3 * m) * (1 + (4 + langs.length) * posted.length) := by
  have hcount : (editorFields langs posted).length = 1 + (4 + langs.length) * posted.length := by
    have hblock : ∀ b : PostedBlock × ℕ, (blockFields langs b.2 b.1).length = 4 + langs.length := by
      intro b
      simp [blockFields, blockValues]
      omega
    rw [editorFields, List.length_cons, List.length_flatMap, funext hblock, List.map_const',
      List.length_zipIdx, List.sum_replicate_nat, Nat.mul_comm, Nat.add_comm]
  have hdecimal : ∀ {n}, n < 1000 → (decimal n).length ≤ 3 := fun hlt =>
    (length_decimal_le_iff (by decide)).mpr hlt
  rw [← hcount]
  refine length_formBody_le ?_
  rintro ⟨name, v⟩ hf
  rcases mem_editorFields.mp hf with ⟨rfl, rfl⟩ | ⟨i, p, hp, hmem⟩
  · have hlit : (lit "content_count").length = 13 := rfl
    have := hdecimal hn
    dsimp only
    omega
  · obtain ⟨hid, htype, horder, hextra, htext⟩ := h p (List.mem_of_getElem? hp)
    have hi := hdecimal ((List.getElem?_eq_some_iff.mp hp).1.trans hn)
    obtain ⟨⟨suffix, w⟩, hvalue, hfield⟩ := List.mem_map.mp hmem
    obtain ⟨rfl, rfl⟩ := Prod.mk.inj hfield
    have hname : (blockField i suffix).length ≤ 12 + suffix.length := by
      have h8 : (lit "content_").length = 8 := rfl
      have h1 : (lit "_").length = 1 := rfl
      simp only [blockField, List.length_append]
      omega
    have hvalue' : suffix.length ≤ 10 ∧ w.length ≤ m := by
      rcases List.mem_append.mp hvalue with hfixed | htexts
      · simp only [List.mem_cons, Prod.mk.injEq, List.not_mem_nil, or_false] at hfixed
        rcases hfixed with ⟨rfl, rfl⟩ | ⟨rfl, rfl⟩ | ⟨rfl, rfl⟩ | ⟨rfl, rfl⟩
        · exact ⟨by decide, hid⟩
        · exact ⟨by decide, htype⟩
        · exact ⟨by decide, horder⟩
        · exact ⟨by decide, hextra⟩
      · obtain ⟨code, hcode, hpair⟩ := List.mem_map.mp htexts
        obtain ⟨rfl, rfl⟩ := Prod.mk.inj hpair
        have h5 : (lit "text_").length = 5 := rfl
        have h2 := hlangs code hcode
        exact ⟨by rw [List.length_append]; omega, htext code hcode⟩
    dsimp only
    omega

end BoatRudder.WebServer
