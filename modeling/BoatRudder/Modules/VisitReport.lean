import BoatRudder.Modules.ReportDays
import BoatRudder.Runs.Comparators
import Mathlib.Algebra.Order.BigOperators.Group.List
import Mathlib.Algebra.Order.Group.Nat
import Mathlib.Data.List.Lex
import Mathlib.Data.Prod.Lex

/-! # The breakdowns of a report

What the documents of a period count by browser, system, country or route is merged into one list, in
whatever order the cursor yields them, and shown with the highest counts first. -/

namespace BoatRudder.Analytics

/-! ## Merging -/

/-- `KV`. -/
structure KV where
  key : Bytes
  count : ℤ
  deriving DecidableEq

/-- `kv_increment`: a new row has room for 127 bytes of its key. -/
def kvIncrement (list : List KV) (key : Bytes) (delta : ℤ) : List KV :=
  if list.any (fun kv => kv.key = key) then
    Collection.updateOne (fun kv => kv.key = key)
      (fun kv => { kv with count := toInt (kv.count + delta) }) list
  else list ++ [⟨key.take 127, delta⟩]

/-- `merge_daily_doc`, for one breakdown: what is too large for an int32 is passed over. -/
def mergeBreakdown (list : List KV) (doc : List (Bytes × ℕ)) : List KV :=
  doc.foldl (fun list e => if e.2 < 2 ^ 31 then kvIncrement list e.1 e.2 else list) list

/-- Its bytes as numbers, by which `strcmp` compares. -/
def codes (key : Bytes) : List ℕ := key.map UInt8.toNat

/-- `strcmp`. -/
def strcmp (x y : Bytes) : ℤ := if codes x < codes y then -1 else if codes y < codes x then 1 else 0

/-- `kv_cmp_count_desc`. -/
def kvCmpCountDesc (x y : KV) : ℤ :=
  if x.count ≠ y.count then if x.count < y.count then 1 else -1 else strcmp x.key y.key

/-- `kv_sort`. -/
def kvSort (qsort : Qsort) (list : List KV) : List KV :=
  if 1 < list.length then qsort.sort kvCmpCountDesc list else list

/-- One breakdown of a report on some documents. -/
def breakdown (qsort : Qsort) (docs : List (List (Bytes × ℕ))) : List KV :=
  kvSort qsort (docs.foldl mergeBreakdown [])

/-! ## What is added up -/

/-- What some entries count under a key. -/
def countOf (entries : List (Bytes × ℕ)) (key : Bytes) : ℕ :=
  ((entries.filter fun e => e.1 = key).map Prod.snd).sum

/-- **A list adds entries up**: it has one row for each key, with what they count under it. -/
structure AddsUp (entries : List (Bytes × ℕ)) (list : List KV) : Prop where
  keys : (list.map KV.key).Nodup
  row : ∀ kv, kv ∈ list ↔ (∃ e ∈ entries, e.1 = kv.key) ∧ kv.count = countOf entries kv.key
  total : (list.map KV.count).sum = (entries.map Prod.snd).sum

variable {entries : List (Bytes × ℕ)} {list : List KV} {e : Bytes × ℕ}

/-- One more entry counts for its own key. -/
theorem countOf_concat (key : Bytes) :
    countOf (entries ++ [e]) key = countOf entries key + if e.1 = key then e.2 else 0 := by
  unfold countOf
  rw [List.filter_append, List.map_append, List.sum_append, List.filter_singleton]
  by_cases h : e.1 = key <;> simp [h]

/-- No key counts for more than all entries together. -/
theorem countOf_le (entries : List (Bytes × ℕ)) (key : Bytes) :
    countOf entries key ≤ (entries.map Prod.snd).sum :=
  (List.filter_sublist.map Prod.snd).sum_le_sum fun _ _ => Nat.zero_le _

/-- The rows with one more entry: its key's, and the others. -/
theorem AddsUp.row_concat (h : AddsUp entries list) {list' : List KV}
    (hsame : ∀ kv, kv.key = e.1 → (kv ∈ list' ↔ kv.count = ↑(countOf entries e.1 + e.2)))
    (hother : ∀ kv, kv.key ≠ e.1 → (kv ∈ list' ↔ kv ∈ list)) (kv : KV) :
    kv ∈ list' ↔ (∃ d ∈ entries ++ [e], d.1 = kv.key) ∧ kv.count = countOf (entries ++ [e]) kv.key := by
  rw [countOf_concat]
  by_cases hkey : kv.key = e.1
  · rw [hsame kv hkey, hkey, if_pos rfl]
    simp
  · rw [hother kv hkey, h.row, if_neg (Ne.symm hkey)]
    simp [Ne.symm hkey]

/-- **One more entry is counted under its key.** -/
theorem AddsUp.concat (h : AddsUp entries list) (hfits : e.1.length ≤ 127)
    (hsum : ((entries ++ [e]).map Prod.snd).sum < 2 ^ 31) :
    AddsUp (entries ++ [e]) (kvIncrement list e.1 e.2) := by
  have hle := (countOf_le (entries ++ [e]) e.1).trans_lt hsum
  rw [countOf_concat, if_pos rfl] at hle
  unfold kvIncrement
  split_ifs with hany
  · -- its row is there already
    obtain ⟨kv, hkv, hkey⟩ := List.any_eq_true.mp hany
    obtain ⟨key, delta⟩ := e
    obtain rfl : kv.key = key := by simpa using hkey
    obtain ⟨c, hc⟩ : ∃ c : ℤ, c = ↑(countOf entries kv.key + delta) := ⟨_, rfl⟩
    have hint : toInt (kv.count + delta) = c := by
      rw [((h.row kv).mp hkv).2, ← Nat.cast_add, ← hc]
      exact toInt_eq ⟨by omega, by dsimp only at hle; omega⟩
    obtain ⟨a, b, rfl⟩ := List.append_of_mem hkv
    rw [Collection.updateOne_key h.keys, hint]
    have hkeys : ((a ++ ⟨kv.key, c⟩ :: b).map KV.key).Nodup := by simpa using h.keys
    have hrow : ⟨kv.key, c⟩ ∈ a ++ ⟨kv.key, c⟩ :: b := List.mem_append_right a List.mem_cons_self
    refine ⟨hkeys, h.row_concat (fun d hd => ?_) fun d hd => ?_, ?_⟩
    · dsimp only at hd ⊢
      rw [← hc]
      constructor
      · intro hmem
        rw [List.inj_on_of_nodup_map hkeys hmem hrow hd]
      · intro hcount
        rwa [show d = ⟨kv.key, c⟩ by cases d; simp_all]
    · have hne : d ≠ kv := fun heq => hd (congrArg KV.key heq)
      have hne' : d ≠ ⟨kv.key, c⟩ := fun heq => hd (by rw [heq])
      simp [hne, hne']
    · have htotal := h.total
      have hcount := ((h.row kv).mp hkv).2
      simp only [List.map_append, List.map_cons, List.map_nil, List.sum_append, List.sum_cons,
        List.sum_nil] at htotal ⊢
      omega
  · have hnew : ∀ kv ∈ list, kv.key ≠ e.1 := by simpa using hany
    have hnone : ∀ d ∈ entries, d.1 ≠ e.1 := fun d hd heq =>
      hnew ⟨d.1, countOf entries d.1⟩ ((h.row _).mpr ⟨⟨d, hd, rfl⟩, rfl⟩) heq
    have hzero : countOf entries e.1 = 0 := by
      rw [countOf, List.filter_eq_nil_iff.mpr (by simpa using hnone)]
      rfl
    rw [List.take_of_length_le hfits]
    refine ⟨Collection.nodup_map_concat.mpr ⟨h.keys, hnew⟩, h.row_concat (fun kv hkv => ?_)
      fun kv hkv => ?_, ?_⟩
    · have hmem : kv ∉ list := fun hmem => hnew kv hmem hkv
      cases kv
      simp_all
    · have hne : kv ≠ ⟨e.1, e.2⟩ := fun heq => hkv (congrArg KV.key heq)
      simp [hne]
    · rw [List.map_append, List.sum_append, h.total]
      simp

/-- **The merged list adds the documents up.** -/
theorem addsUp_merged {docs : List (List (Bytes × ℕ))} (hfits : ∀ e ∈ docs.flatten, e.1.length ≤ 127)
    (hsum : (docs.flatten.map Prod.snd).sum < 2 ^ 31) :
    AddsUp docs.flatten (docs.foldl mergeBreakdown []) := by
  have hflat : docs.foldl mergeBreakdown [] = mergeBreakdown [] docs.flatten := by
    simp only [mergeBreakdown, List.foldl_flatten]
    rfl
  rw [hflat, mergeBreakdown]
  generalize docs.flatten = entries at hfits hsum ⊢
  induction entries using List.reverseRecOn with
  | nil => exact ⟨List.nodup_nil, by simp, rfl⟩
  | append_singleton entries e ih =>
    have hlt : e.2 < 2 ^ 31 := by
      simp at hsum
      omega
    rw [List.foldl_append, List.foldl_cons, List.foldl_nil, if_pos hlt]
    refine (ih (fun d hd => hfits d (by simp [hd])) ?_).concat (hfits e (by simp)) hsum
    simp at hsum
    omega

/-! ## The order -/

/-- What the rows are ordered by: the count downwards, and the key. -/
def rank (kv : KV) : ℤ ×ₗ List ℕ := toLex (-kv.count, codes kv.key)

theorem codes_injective : Function.Injective codes :=
  List.map_injective_iff.mpr fun _ _ => UInt8.toNat_inj.mp

theorem rank_injective : Function.Injective rank := by
  intro x y h
  obtain ⟨hcount, hkey⟩ := Prod.mk.inj (toLex.injective h)
  cases x
  cases y
  simp_all [codes_injective.eq_iff]

/-- `strcmp` compares the codes of the bytes. -/
theorem strcmp_sign (x y : Bytes) :
    (strcmp x y < 0 ↔ codes x < codes y) ∧ (0 < strcmp x y ↔ codes y < codes x) := by
  unfold strcmp
  split_ifs with hlt hgt
  · simp [hlt, hlt.le]
  · simp [hgt, hgt.le]
  · simp [hlt, hgt]

/-- The comparison of two rows is that of their ranks. -/
theorem kvCmpCountDesc_sign (x y : KV) :
    (kvCmpCountDesc x y < 0 ↔ rank x < rank y) ∧ (0 < kvCmpCountDesc x y ↔ rank y < rank x) := by
  rw [rank, rank, Prod.Lex.toLex_lt_toLex, Prod.Lex.toLex_lt_toLex, kvCmpCountDesc]
  split_ifs with hne hlt
  · exact ⟨by simp; omega, by simp; omega⟩
  · exact ⟨by simp; omega, by simp; omega⟩
  · rw [(strcmp_sign _ _).1, (strcmp_sign _ _).2, not_not.mp hne]
    simp

/-- Sorting keeps the rows. -/
theorem kvSort_perm (qsort : Qsort) (list : List KV) : (kvSort qsort list).Perm list := by
  unfold kvSort
  split_ifs
  · exact qsort.perm _ _
  · exact List.Perm.refl _

/-- The rows are sorted by rank. -/
theorem pairwise_kvSort (qsort : Qsort) (list : List KV) :
    (kvSort qsort list).Pairwise fun x y => rank x ≤ rank y := by
  unfold kvSort
  split_ifs with hlen
  · exact qsort.pairwise_key kvCmpCountDesc_sign list
  · match list with
    | [] => exact List.Pairwise.nil
    | [kv] => exact List.pairwise_singleton _ _
    | _ :: _ :: _ => simp at hlen

/-- Along the ranks the counts fall. -/
theorem count_le_of_rank_le {x y : KV} (h : rank x ≤ rank y) : y.count ≤ x.count := by
  have hle := (Prod.Lex.toLex_le_toLex'.mp h).1
  simp at hle
  exact hle

/-- **A breakdown of a report adds up**: one row for each key, with what the documents count under it,
the highest counts first; and it is the same in whatever order the documents come. -/
theorem breakdown_addsUp {docs : List (List (Bytes × ℕ))}
    (hfits : ∀ e ∈ docs.flatten, e.1.length ≤ 127)
    (hsum : (docs.flatten.map Prod.snd).sum < 2 ^ 31) (qsort : Qsort) :
    AddsUp docs.flatten (breakdown qsort docs) ∧
      (breakdown qsort docs).Pairwise (fun x y => y.count ≤ x.count) ∧
      ∀ (qsort' : Qsort) (docs' : List (List (Bytes × ℕ))), docs'.Perm docs →
        breakdown qsort' docs' = breakdown qsort docs := by
  have hmerged := addsUp_merged hfits hsum
  have hperm := kvSort_perm qsort (docs.foldl mergeBreakdown [])
  refine ⟨⟨?_, fun kv => ?_, ?_⟩, ?_, fun qsort' docs' hdocs => ?_⟩
  · exact (hperm.map KV.key).nodup_iff.mpr hmerged.keys
  · exact hperm.mem_iff.trans (hmerged.row kv)
  · exact (hperm.map KV.count).sum_eq.trans hmerged.total
  · exact (pairwise_kvSort _ _).imp count_le_of_rank_le
  · have hentries : docs'.flatten.Perm docs.flatten := hdocs.flatten
    have hmerged' : AddsUp docs'.flatten _ := addsUp_merged
      (fun e he => hfits e (hentries.mem_iff.mp he)) (by rwa [(hentries.map Prod.snd).sum_eq])
    have hsame : (docs'.foldl mergeBreakdown []).Perm (docs.foldl mergeBreakdown []) := by
      refine (List.perm_ext_iff_of_nodup hmerged'.keys.of_map hmerged.keys.of_map).mpr fun kv => ?_
      have hcount : countOf docs'.flatten kv.key = countOf docs.flatten kv.key :=
        ((hentries.filter _).map Prod.snd).sum_eq
      rw [hmerged'.row, hmerged.row, hcount]
      simp only [hentries.mem_iff]
    have hrows := ((kvSort_perm qsort' _).trans hsame).trans hperm.symm
    apply rank_injective.list_map
    exact map_key_eq (hrows.map rank) (pairwise_kvSort _ _) (pairwise_kvSort _ _)

/-- The visits of two days. -/
def twoDays : List (List (Bytes × ℕ)) :=
  [[(lit "Chrome/124", 3), (lit "Cello", 1)], [(lit "Cello", 4)]]

theorem breakdown_cello : ⟨lit "Cello", 5⟩ ∈ breakdown (.otherwise id List.Perm.refl) twoDays :=
  ((breakdown_addsUp (by decide) (by decide) _).1.row _).mpr
    ⟨⟨(lit "Cello", 1), by decide, rfl⟩, by decide⟩

end BoatRudder.Analytics
