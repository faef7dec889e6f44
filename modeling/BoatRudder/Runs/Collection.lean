import Mathlib.Data.List.Basic
import Mathlib.Data.List.Nodup

/-! # Collections of documents

A collection as the list of its documents in the order in which they are found. The writes that act
on the first document found, `updateOne` and `List.eraseP`, with what they do to a count
(`List.countP`) and to the keys. A query without an order finds any of the documents it is for: what is
said of it is said for every `FindOrder`. -/

namespace BoatRudder

universe u v

namespace Collection

variable {δ : Type u} {κ : Type v}

/-- The first document found is changed. -/
def updateOne (p : δ → Bool) (set : δ → δ) : List δ → List δ
  | [] => []
  | d :: docs => if p d then set d :: docs else d :: updateOne p set docs

@[simp] theorem updateOne_nil (p : δ → Bool) (set : δ → δ) : updateOne p set [] = [] := rfl

theorem updateOne_cons (p : δ → Bool) (set : δ → δ) (d : δ) (docs : List δ) :
    updateOne p set (d :: docs) = if p d then set d :: docs else d :: updateOne p set docs := rfl

theorem countP_cons_toNat (q : δ → Bool) (d : δ) (docs : List δ) :
    (d :: docs).countP q = docs.countP q + (q d).toNat := by
  cases h : q d <;> simp [h]

/-- **An update counts one more or one less** as the document it leaves is counted and the one it
found was. -/
theorem countP_updateOne (p q : δ → Bool) (set : δ → δ) (docs : List δ) :
    (updateOne p set docs).countP q + ((docs.find? p).any q).toNat =
      docs.countP q + ((docs.find? p).any fun d => q (set d)).toNat := by
  induction docs with
  | nil => rfl
  | cons d docs ih =>
    rw [updateOne_cons]
    by_cases h : p d = true
    · simp only [if_pos h, List.find?_cons_of_pos h, countP_cons_toNat, Option.any_some]
      omega
    · rw [if_neg h, List.find?_cons_of_neg h, countP_cons_toNat, countP_cons_toNat]
      omega

/-- **A delete counts one less** when the document it found was counted. -/
theorem countP_eraseP (p q : δ → Bool) (docs : List δ) :
    (docs.eraseP p).countP q + ((docs.find? p).any q).toNat = docs.countP q := by
  induction docs with
  | nil => rfl
  | cons d docs ih =>
    by_cases h : p d = true
    · rw [List.eraseP_cons_of_pos h, List.find?_cons_of_pos h, countP_cons_toNat, Option.any_some]
    · rw [List.eraseP_cons_of_neg h, List.find?_cons_of_neg h, countP_cons_toNat,
        countP_cons_toNat]
      omega

/-- The document that was changed is the one that is found. -/
theorem find?_updateOne {p : δ → Bool} {set : δ → δ} (hkeep : ∀ d, p d = true → p (set d) = true)
    (docs : List δ) : (updateOne p set docs).find? p = (docs.find? p).map set := by
  induction docs with
  | nil => rfl
  | cons d docs ih =>
    rw [updateOne_cons]
    by_cases h : p d = true
    · rw [if_pos h, List.find?_cons_of_pos (hkeep d h), List.find?_cons_of_pos h, Option.map_some]
    · rw [if_neg h, List.find?_cons_of_neg h, List.find?_cons_of_neg h, ih]

/-- A delete does not touch what another query finds. -/
theorem find?_eraseP_of_disjoint {p q : δ → Bool} (h : ∀ d, q d = true → p d = false)
    (docs : List δ) : (docs.eraseP p).find? q = docs.find? q := by
  induction docs with
  | nil => rfl
  | cons d docs ih =>
    by_cases hp : p d = true
    · have hq : ¬ q d = true := fun hq => by simp [h d hq] at hp
      rw [List.eraseP_cons_of_pos hp, List.find?_cons_of_neg hq]
    · rw [List.eraseP_cons_of_neg hp, List.find?_cons, List.find?_cons, ih]

/-- Where no two documents have one key, a delete by key leaves the documents with the other keys. -/
theorem eraseP_eq_filter [DecidableEq κ] {f : δ → κ} {docs : List δ} (h : (docs.map f).Nodup)
    (k : κ) : docs.eraseP (fun d => f d = k) = docs.filter fun d => f d ≠ k := by
  induction docs with
  | nil => rfl
  | cons d docs ih =>
    obtain ⟨hd, hrest⟩ := List.nodup_cons.mp h
    by_cases hk : f d = k
    · rw [List.eraseP_cons_of_pos (by simpa using hk), List.filter_cons_of_neg (by simpa using hk)]
      refine (List.filter_eq_self.mpr fun e he => ?_).symm
      have hne : f e ≠ k := fun hek => hd (hk ▸ hek ▸ List.mem_map_of_mem he)
      simpa using hne
    · rw [List.eraseP_cons_of_neg (by simpa using hk), List.filter_cons_of_pos (by simpa using hk),
        ih hrest]

/-- An update that keeps the keys keeps the list of them. -/
theorem map_updateOne {f : δ → κ} {g : δ → δ} (hkey : ∀ d, f (g d) = f d)
    (p : δ → Bool) (docs : List δ) : (updateOne p g docs).map f = docs.map f := by
  induction docs with
  | nil => rfl
  | cons d docs ih =>
    rw [updateOne_cons]
    by_cases h : p d = true
    · rw [if_pos h, List.map_cons, List.map_cons, hkey]
    · rw [if_neg h, List.map_cons, List.map_cons, ih]

/-- An update finds what it looks for in the first part of a collection, or else in the second. -/
theorem updateOne_append (p : δ → Bool) (g : δ → δ) (a b : List δ) :
    updateOne p g (a ++ b) = if a.any p then updateOne p g a ++ b else a ++ updateOne p g b := by
  induction a with
  | nil => rfl
  | cons d a ih =>
    rw [List.cons_append, updateOne_cons, updateOne_cons, List.any_cons]
    by_cases h : p d = true
    · simp [h]
    · rw [if_neg h, if_neg h, ih]
      simp only [h, Bool.false_or]
      split_ifs <;> rfl

/-- An update of a document that is not selected, before and after, leaves those that are. -/
theorem filter_updateOne {p q : δ → Bool} {g : δ → δ} (hp : ∀ d, p d = true → q d = false)
    (hg : ∀ d, p d = true → q (g d) = false) (docs : List δ) :
    (updateOne p g docs).filter q = docs.filter q := by
  induction docs with
  | nil => rfl
  | cons d docs ih =>
    rw [updateOne_cons]
    by_cases h : p d = true
    · rw [if_pos h, List.filter_cons_of_neg (by simp [hg d h]), List.filter_cons_of_neg (by simp [hp d h])]
    · rw [if_neg h, List.filter_cons, List.filter_cons, ih]

/-- Where no two documents have one key, an update by key changes every document that has it. -/
theorem updateOne_eq_map [DecidableEq κ] {f : δ → κ} {docs : List δ} (h : (docs.map f).Nodup) (k : κ)
    (g : δ → δ) : updateOne (fun d => f d = k) g docs = docs.map fun d => if f d = k then g d else d := by
  induction docs with
  | nil => rfl
  | cons d docs ih =>
    obtain ⟨hd, hrest⟩ := List.nodup_cons.mp h
    rw [updateOne_cons, List.map_cons]
    by_cases hk : f d = k
    · have hsame : docs.map (fun e => if f e = k then g e else e) = docs := by
        conv_rhs => rw [← List.map_id docs]
        refine List.map_congr_left fun e he => if_neg fun hek => hd ?_
        rw [hk, ← hek]
        exact List.mem_map_of_mem he
      rw [if_pos (decide_eq_true hk), if_pos hk, hsame]
    · rw [if_neg (by simpa using hk), if_neg hk, ih hrest]

/-- Where no two documents have one key, an update by key changes the document that has it. -/
theorem updateOne_key [DecidableEq κ] {f : δ → κ} {a b : List δ} {d : δ}
    (h : ((a ++ d :: b).map f).Nodup) (g : δ → δ) :
    updateOne (fun e => f e = f d) g (a ++ d :: b) = a ++ g d :: b := by
  induction a with
  | nil => rw [List.nil_append, updateOne_cons, if_pos (by simp), List.nil_append]
  | cons c a ih =>
    rw [List.cons_append, List.map_cons, List.nodup_cons] at h
    have hne : ¬ f c = f d := fun heq => h.1 (by simp [heq])
    rw [List.cons_append, updateOne_cons, if_neg (by simpa using hne), ih h.2, List.cons_append]

/-- A list in which nothing appears twice, and what is not in it. -/
theorem nodup_map_concat {f : δ → κ} {docs : List δ} {d : δ} :
    ((docs ++ [d]).map f).Nodup ↔ (docs.map f).Nodup ∧ ∀ e ∈ docs, f e ≠ f d := by
  rw [List.map_append, List.nodup_append]
  constructor
  · rintro ⟨hdocs, -, hne⟩
    exact ⟨hdocs, fun e he => hne _ (List.mem_map_of_mem he) _ (by simp)⟩
  · rintro ⟨hdocs, hne⟩
    refine ⟨hdocs, List.nodup_singleton _, ?_⟩
    intro a ha b hb
    obtain ⟨e, he, rfl⟩ := List.mem_map.mp ha
    rw [List.mem_singleton.mp hb]
    exact hne e he

/-! ## Queries by key -/

/-- Where no two documents have one key, a query by key finds the document that has it. -/
theorem find?_key_of_mem [DecidableEq κ] {f : δ → κ} {docs : List δ} (h : (docs.map f).Nodup) {d : δ}
    (hd : d ∈ docs) : docs.find? (fun e => f e = f d) = some d := by
  have hsome : (docs.find? fun e => f e = f d).isSome = true :=
    List.find?_isSome.mpr ⟨d, hd, decide_eq_true rfl⟩
  obtain ⟨e, he⟩ := Option.isSome_iff_exists.mp hsome
  have hkey : f e = f d := by simpa using List.find?_some he
  rw [he, List.inj_on_of_nodup_map h (List.mem_of_find?_eq_some he) hd hkey]

/-- An update of every document that keeps the keys: a query by key finds the same one, updated. -/
theorem find?_key_map [DecidableEq κ] {f : δ → κ} {g : δ → δ} (hkey : ∀ d, f (g d) = f d) (k : κ)
    (docs : List δ) :
    (docs.map g).find? (fun d => f d = k) = (docs.find? fun d => f d = k).map g := by
  have hcomp : ((fun d => decide (f d = k)) ∘ g) = fun d => decide (f d = k) := by
    funext d
    exact congrArg (fun i => decide (i = k)) (hkey d)
  rw [List.find?_map, hcomp]

/-! ## Queries without an order -/

/-- The order in which a query that asks for none finds documents. -/
structure FindOrder (δ : Type u) where
  /-- The documents in this order. -/
  arrange : List δ → List δ
  /-- No document is lost. -/
  perm : ∀ docs, (arrange docs).Perm docs

namespace FindOrder

/-- The order of the list. -/
def natural : FindOrder δ := ⟨id, fun docs => List.Perm.refl docs⟩

/-- The order with a document first. -/
def withFirst [DecidableEq δ] (d : δ) : FindOrder δ where
  arrange docs := if d ∈ docs then d :: docs.erase d else docs
  perm docs := by
    split_ifs with h
    · exact (List.perm_cons_erase h).symm
    · exact List.Perm.refl docs

/-- The first document found. -/
def find (o : FindOrder δ) (p : δ → Bool) (docs : List δ) : Option δ := (o.arrange docs).find? p

variable {o : FindOrder δ} {p : δ → Bool} {docs : List δ} {d : δ}

theorem mem_of_find (h : o.find p docs = some d) : d ∈ docs :=
  (o.perm docs).subset (List.mem_of_find?_eq_some h)

theorem of_find (h : o.find p docs = some d) : p d = true := List.find?_some h

theorem find_eq_none_iff : o.find p docs = none ↔ ∀ e ∈ docs, ¬ p e = true := by
  rw [find, List.find?_eq_none]
  exact forall_congr' fun e => imp_congr_left (o.perm docs).mem_iff

/-- The only document a query is for is found in every order. -/
theorem find_eq_some_of_unique (hd : d ∈ docs) (hp : p d = true)
    (hunique : ∀ e ∈ docs, p e = true → e = d) : o.find p docs = some d := by
  cases hfind : o.find p docs with
  | none => exact absurd hp (find_eq_none_iff.mp hfind d hd)
  | some e => rw [hunique e (mem_of_find hfind) (of_find hfind)]

/-- Every document a query is for is found in some order. -/
theorem find_withFirst [DecidableEq δ] (hd : d ∈ docs) (hp : p d = true) :
    (withFirst d).find p docs = some d := by
  have harrange : (withFirst d).arrange docs = d :: docs.erase d := if_pos hd
  rw [find, harrange, List.find?_cons_of_pos hp]

end FindOrder

end Collection

end BoatRudder
