import BoatRudder.Text.Bytes

/-! # Documents of keyed values

BSON as it is iterated: a document is a list of values with their keys, an array is one whose keys are
the indices, and a field is found by the first key that is its own. A list with a limit on its length
is read item by item. -/

namespace BoatRudder

universe u v

/-- A value. -/
inductive Bson : Type where
  | int32 (v : Int32)
  | int64 (v : Int64)
  | double (v : Float)
  | utf8 (s : Bytes)
  | bool (b : Bool)
  | document (fields : List (Bytes × Bson))
  | array (fields : List (Bytes × Bson))
  /-- A value of any other type. -/
  | other (type : UInt8)

/-- A document: its fields in order. -/
abbrev BsonDoc : Type := List (Bytes × Bson)

namespace Bson

/-! ## Iteration -/

/-- `bson_iter_recurse`: what is in a document or an array. -/
def recurse : Bson → Option BsonDoc
  | .document fields => some fields
  | .array fields => some fields
  | _ => none

/-- `bson_iter_find`. -/
def find (doc : BsonDoc) (key : Bytes) : Option Bson := (doc.find? (·.1 = key)).map (·.2)

/-- The fields of a document, and of nothing else. -/
def asDocument : Bson → Option BsonDoc
  | .document fields => some fields
  | _ => none

/-- The fields of an array, and of nothing else. -/
def asArray : Bson → Option BsonDoc
  | .array fields => some fields
  | _ => none

@[simp] theorem find_cons_self (key : Bytes) (v : Bson) (doc : BsonDoc) :
    find ((key, v) :: doc) key = some v := by simp [find]

/-- What stands before the field has none of its key. -/
theorem find_append {doc : BsonDoc} {key : Bytes} (h : key ∉ doc.map Prod.fst) (doc' : BsonDoc) :
    find (doc ++ doc') key = find doc' key := by
  have hnone : doc.find? (·.1 = key) = none := by
    rw [List.find?_eq_none]
    intro p hp heq
    exact h (List.mem_map.mpr ⟨p, hp, by simpa using heq⟩)
  rw [find, find, List.find?_append, hnone, Option.none_or]

/-! ## Arrays -/

/-- The values of a list under the keys of an array. -/
def indexed {α : Type u} (write : α → Bson) (list : List α) : BsonDoc :=
  list.zipIdx.map fun p => (decimal p.2, write p.1)

@[simp] theorem length_indexed {α : Type u} (write : α → Bson) (list : List α) :
    (indexed write list).length = list.length := by simp [indexed]

theorem map_snd_indexed {α : Type u} (write : α → Bson) (list : List α) :
    (indexed write list).map Prod.snd = list.map write := by
  calc (indexed write list).map Prod.snd
      = (list.zipIdx.map Prod.fst).map write := by
        rw [indexed, List.map_map, List.map_map]
        rfl
    _ = list.map write := by rw [List.zipIdx_map_fst]

variable {ε : Type u} {α : Type v}

/-- The items of an array read one after the other, as long as there is room for them: the item at
`n` and those behind it. -/
def readItems (max : ℕ) (full : ε) (read : ℕ → Bson → Except ε α) (n : ℕ) :
    List Bson → Except ε (List α)
  | [] => .ok []
  | item :: items =>
    if max ≤ n then .error full
    else
      match read n item with
      | .error e => .error e
      | .ok a =>
        match readItems max full read (n + 1) items with
        | .error e => .error e
        | .ok as => .ok (a :: as)

variable {max : ℕ} {full : ε} {read : ℕ → Bson → Except ε α}

/-- **What was written item by item is read back.** -/
theorem readItems_map {write : α → Bson} {as : List α} (h : ∀ a ∈ as, ∀ n, read n (write a) = .ok a)
    {n : ℕ} (hroom : n + as.length ≤ max) : readItems max full read n (as.map write) = .ok as := by
  induction as generalizing n with
  | nil => rfl
  | cons a as ih =>
    rw [List.length_cons] at hroom
    have hrest := ih (fun b hb => h b (List.mem_cons_of_mem a hb)) (n := n + 1) (by omega)
    rw [List.map_cons, readItems, if_neg (by omega), h a List.mem_cons_self]
    simp only [hrest]

/-- What was read of an array fits, and every item of it was read. -/
theorem of_readItems {n : ℕ} {items : List Bson} {as : List α}
    (h : readItems max full read n items = .ok as) :
    (as ≠ [] → n + as.length ≤ max) ∧ ∀ a ∈ as, ∃ k item, read k item = .ok a := by
  induction items generalizing n as with
  | nil =>
    cases h
    exact ⟨fun hne => absurd rfl hne, nofun⟩
  | cons item items ih =>
    rw [readItems] at h
    split_ifs at h with hfull
    cases hread : read n item with
    | error e =>
      rw [hread] at h
      cases h
    | ok a =>
      rw [hread] at h
      cases hrest : readItems max full read (n + 1) items with
      | error e =>
        simp only [hrest] at h
        cases h
      | ok as' =>
        simp only [hrest] at h
        cases h
        obtain ⟨hlen, hmem⟩ := ih hrest
        refine ⟨fun _ => ?_, fun b hb => ?_⟩
        · by_cases hnil : as' = []
          · subst hnil
            simp only [List.length_singleton]
            omega
          · have := hlen hnil
            rw [List.length_cons]
            omega
        · rcases List.mem_cons.mp hb with rfl | hb
          · exact ⟨n, item, hread⟩
          · exact hmem b hb

end Bson

end BoatRudder
