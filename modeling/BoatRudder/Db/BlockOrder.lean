import BoatRudder.Db.EntryContent
import BoatRudder.Runs.Comparators

/-! # The order of the blocks

The page and the editor read the same array of blocks, each with a loop of its own, and sort it by
the difference of the orders. That difference is one of 32 bits: of orders that lie far apart it has
the wrong sign, and then nothing tells the order in which the blocks are shown. -/

namespace BoatRudder.Db

/-! ## Reading the array -/

/-- A document of the array `content`: the fields it has, of the type that is read. -/
structure BlockDoc where
  id : Option IdHex
  type : Option Bytes
  extraData : Option Bytes
  order : Option Int32
  text : LangMap
  deriving DecidableEq

/-- The order of a block: zero where there is none. -/
def BlockDoc.place (d : BlockDoc) : ℤ := (d.order.getD 0).toInt

/-- The array `content` of an entry, if it has one; an element need not be a document. -/
abbrev ContentArray := Option (List (Option BlockDoc))

/-- The documents of the array. -/
def storedBlocks (content : ContentArray) : List BlockDoc := (content.getD []).filterMap id

/-- `CmsContentBlock`. -/
structure CmsContentBlock where
  type : Bytes
  order : ℤ
  extraData : Bytes
  text : Bytes
  deriving DecidableEq

/-- A turn of the loop of `parse_content`. -/
def BlockDoc.block (lang : Bytes) (d : BlockDoc) : CmsContentBlock where
  type := d.type.getD []
  order := d.place
  extraData := d.extraData.getD []
  text := resolveLangMap d.text lang

/-- A turn of the loop of `parse_content_edit`. -/
def BlockDoc.blockEdit (langs : List Bytes) (d : BlockDoc) : ContentBlockEdit where
  id := d.id.getD []
  type := d.type.getD []
  order := d.place
  extraData := d.extraData.getD []
  textValues := langs.map d.text.exactLangValue

/-- The difference of two orders, as an `int`. -/
def compareOrders (x y : ℤ) : ℤ := (Int32.ofInt (x - y)).toInt

/-- `compare_blocks_by_order`. -/
def compareBlocksByOrder (a b : CmsContentBlock) : ℤ := compareOrders a.order b.order

/-- `compare_blocks_edit_by_order`. -/
def compareBlocksEditByOrder (a b : ContentBlockEdit) : ℤ := compareOrders a.order b.order

/-- `parse_content`. -/
def parseContent (qsort : Qsort) (lang : Bytes) (content : ContentArray) : List CmsContentBlock :=
  qsort.sort compareBlocksByOrder ((storedBlocks content).map (·.block lang))

/-- `parse_content_edit`. -/
def parseContentEdit (qsort : Qsort) (langs : List Bytes) (content : ContentArray) :
    List ContentBlockEdit :=
  qsort.sort compareBlocksEditByOrder ((storedBlocks content).map (·.blockEdit langs))

/-! ## What is shown -/

/-- The blocks of a page and of its editor are those that are stored, in their order; and those whose
orders differ come in one sequence. -/
structure BlocksInOrder (qsort : Qsort) (lang : Bytes) (langs : List Bytes) (content : ContentArray) :
    Prop where
  page_perm : (parseContent qsort lang content).Perm ((storedBlocks content).map (·.block lang))
  editor_perm : (parseContentEdit qsort langs content).Perm ((storedBlocks content).map (·.blockEdit langs))
  page_sorted : (parseContent qsort lang content).Pairwise fun a b => a.order ≤ b.order
  editor_sorted : (parseContentEdit qsort langs content).Pairwise fun a b => a.order ≤ b.order
  orders : (parseContent qsort lang content).map (·.order) =
    (parseContentEdit qsort langs content).map (·.order)
  sequence : ((storedBlocks content).map (·.place)).Nodup → ∃ shown : List BlockDoc,
    shown.Perm (storedBlocks content) ∧ parseContent qsort lang content = shown.map (·.block lang) ∧
      parseContentEdit qsort langs content = shown.map (·.blockEdit langs)

/-- No two orders lie `2 ^ 31` apart. -/
def OrdersClose (content : ContentArray) : Prop :=
  ∀ d ∈ storedBlocks content, ∀ d' ∈ storedBlocks content, d.place - d'.place < 2 ^ 31

variable {qsort : Qsort} {lang : Bytes} {langs : List Bytes} {content : ContentArray}

/-! ## Differences -/

theorem place_range (d : BlockDoc) : -2 ^ 31 ≤ d.place ∧ d.place < 2 ^ 31 :=
  ⟨Int32.le_toInt _, Int32.toInt_lt _⟩

/-- A difference that fits is itself. -/
theorem compareOrders_eq {x y : ℤ} (hlo : -2 ^ 31 ≤ x - y) (hhi : x - y < 2 ^ 31) :
    compareOrders x y = x - y :=
  Int32.toInt_ofInt_of_le hlo (by omega)

/-- A difference that does not fit is negative. -/
theorem compareOrders_far {x y : ℤ} (hlo : 2 ^ 31 ≤ x - y) (hhi : x - y < 2 ^ 32) :
    compareOrders x y = x - y - 2 ^ 32 := by
  have hsize : (Int32.size : ℤ) = 2 ^ 32 := rfl
  rw [compareOrders, Int32.toInt_ofInt, Int.bmod_def, hsize]
  split_ifs <;> omega

/-- Orders that lie close together are compared as they are. -/
theorem isComparatorOn_close {α : Type} {order : α → ℤ} {xs : List α}
    (h : ∀ a ∈ xs, ∀ b ∈ xs, order a - order b < 2 ^ 31) :
    IsComparatorOn (fun a b => compareOrders (order a) (order b)) xs := by
  have hdiff (a b : {a // a ∈ xs}) : compareOrders (order a) (order b) = order a - order b := by
    have := h b b.2 a a.2
    exact compareOrders_eq (by omega) (h a a.2 b b.2)
  refine isComparator_of_key (fun a : {a // a ∈ xs} => order a) (fun a b => ?_) fun a b => ?_
  · change compareOrders _ _ < 0 ↔ _
    rw [hdiff]
    omega
  · change 0 < compareOrders _ _ ↔ _
    rw [hdiff]
    omega

/-- What a sort by close orders gives is in their order. -/
theorem sorted_of_close {α : Type} {order : α → ℤ} {xs : List α}
    (h : ∀ a ∈ xs, ∀ b ∈ xs, order a - order b < 2 ^ 31) :
    (qsort.sort (fun a b => compareOrders (order a) (order b)) xs).Pairwise
      fun a b => order a ≤ order b := by
  have hperm := qsort.perm (fun a b => compareOrders (order a) (order b)) xs
  refine (qsort.sorted _ xs (isComparatorOn_close h)).imp_of_mem fun {a b} ha hb hab => ?_
  have hfits := h a (hperm.mem_iff.mp ha) b (hperm.mem_iff.mp hb)
  have hfits' := h b (hperm.mem_iff.mp hb) a (hperm.mem_iff.mp ha)
  rw [compareOrders_eq (by omega) hfits] at hab
  omega

/-! ## In order -/

theorem blocksInOrder_of_close (h : OrdersClose content) : BlocksInOrder qsort lang langs content := by
  have hpage : (parseContent qsort lang content).Perm ((storedBlocks content).map (·.block lang)) :=
    qsort.perm _ _
  have heditor : (parseContentEdit qsort langs content).Perm
      ((storedBlocks content).map (·.blockEdit langs)) := qsort.perm _ _
  have hclose {α : Type} {f : BlockDoc → α} {order : α → ℤ} (hf : ∀ d, order (f d) = d.place) :
      ∀ a ∈ (storedBlocks content).map f, ∀ b ∈ (storedBlocks content).map f,
        order a - order b < 2 ^ 31 := by
    intro a ha b hb
    obtain ⟨d, hd, rfl⟩ := List.mem_map.mp ha
    obtain ⟨d', hd', rfl⟩ := List.mem_map.mp hb
    rw [hf, hf]
    exact h d hd d' hd'
  have hpageSorted : (parseContent qsort lang content).Pairwise fun a b => a.order ≤ b.order :=
    sorted_of_close (hclose fun _ => rfl)
  have heditorSorted : (parseContentEdit qsort langs content).Pairwise fun a b => a.order ≤ b.order :=
    sorted_of_close (hclose fun _ => rfl)
  refine ⟨hpage, heditor, hpageSorted, heditorSorted, ?_, fun hnodup => ?_⟩
  · apply map_key_eq _ hpageSorted heditorSorted
    have h1 := hpage.map (·.order)
    have h2 := heditor.map (·.order)
    rw [List.map_map] at h1 h2
    exact h1.trans h2.symm
  · -- both are the stored blocks sorted by their orders
    exact ⟨(storedBlocks content).mergeSort fun a b => a.place ≤ b.place, List.mergeSort_perm _ _,
      @eq_map_mergeSort _ _ _ _ (·.order) _ _ (fun _ => rfl) _ hnodup _ hpage hpageSorted,
      @eq_map_mergeSort _ _ _ _ (·.order) _ _ (fun _ => rfl) _ hnodup _ heditor heditorSorted⟩

/-- **The blocks are shown in order exactly when no two orders lie `2 ^ 31` apart**, whatever `qsort`
makes of an array that is not compared consistently. -/
theorem blocksInOrder_iff (lang : Bytes) (langs : List Bytes) (content : ContentArray) :
    (∀ qsort : Qsort, BlocksInOrder qsort lang langs content) ↔ OrdersClose content := by
  refine ⟨fun h d hd d' hd' => ?_, fun h qsort => blocksInOrder_of_close h⟩
  by_contra hfar
  have hrange := place_range d
  have hrange' := place_range d'
  have hwrong : compareBlocksByOrder (d.block lang) (d'.block lang) < 0 := by
    change compareOrders d.place d'.place < 0
    rw [compareOrders_far (by omega) (by omega)]
    omega
  obtain ⟨qsort, hunsorted⟩ := @exists_qsort_unsorted _ _ _ _ (fun b : CmsContentBlock => b.order) _ _ _
    (List.mem_map_of_mem hd) (List.mem_map_of_mem hd') (show d'.place < d.place by omega) hwrong
  exact hunsorted (h qsort).page_sorted

/-- Two blocks, the orders of which lie four thousand million apart. -/
def farBlocks : ContentArray :=
  some [some ⟨none, some (lit "paragraph"), none, some (-2000000000), [(lit "en", lit "first")]⟩,
    some ⟨none, some (lit "paragraph"), none, some 2000000000, [(lit "en", lit "second")]⟩]

/-- **The block of the higher order comes first.** -/
theorem not_blocksInOrder_far :
    ¬ ∃ qsort : Qsort, BlocksInOrder qsort (lit "en") [lit "en"] farBlocks := by
  rintro ⟨qsort, h⟩
  have hconsistent : IsComparatorOn compareBlocksByOrder
      ((storedBlocks farBlocks).map (·.block (lit "en"))) := by
    have hall : ∀ a ∈ (storedBlocks farBlocks).map (·.block (lit "en")),
        ∀ b ∈ (storedBlocks farBlocks).map (·.block (lit "en")),
          (compareBlocksByOrder a b < 0 ↔ -a.order < -b.order) ∧
            (0 < compareBlocksByOrder a b ↔ -b.order < -a.order) := by
      decide
    exact isComparator_of_key (fun a => -a.1.order) (fun a b => (hall a a.2 b b.2).1)
      fun a b => (hall a a.2 b b.2).2
  have hsorted := (qsort.sorted _ _ hconsistent).and h.page_sorted
  have hperm := h.page_perm
  rcases rel_or_rel_of_pairwise hsorted (hperm.mem_iff.mpr (List.mem_cons_self ..))
    (hperm.mem_iff.mpr (List.mem_cons_of_mem _ (List.mem_singleton_self _))) (by decide) with
    ⟨hcmp, -⟩ | ⟨-, hle⟩
  · exact absurd hcmp (by decide)
  · exact absurd hle (by decide)

end BoatRudder.Db
