import BoatRudder.WapGateway.PagedBuild
import Mathlib.Logic.Function.Iterate

/-! # The packing loop ends

The loop of `paged_build` turn by turn. Every turn places a block, puts a smaller rest in its place
or closes a page that has blocks, so that what is left to place, and whether a page is open, falls
from turn to turn; and no page is closed empty. -/

namespace BoatRudder.Wbxml

open Wml

/-! ## Loops that make progress -/

/-- **A loop whose measure falls at every turn until it is done is done some time.** -/
theorem exists_iterate_done {σ : Type*} {turn : σ → σ} {Done : σ → Prop} (measure : σ → ℕ)
    (hturn : ∀ s, ¬ Done s → measure (turn s) < measure s) (s : σ) :
    ∃ n ≤ measure s, Done (turn^[n] s) := by
  induction hm : measure s using Nat.strong_induction_on generalizing s with
  | _ m ih =>
    by_cases hdone : Done s
    · exact ⟨0, Nat.zero_le _, hdone⟩
    · have hlt := hturn s hdone
      obtain ⟨n, hn, hend⟩ := ih (measure (turn s)) (hm ▸ hlt) (turn s) rfl
      exact ⟨n + 1, by omega, hend⟩

/-! ## The turns -/

/-- The variables of the packing loop. -/
structure Packing where
  /-- `pg->queue` from `i` on. -/
  queue : List Node
  /-- `cur`. -/
  cur : List Node
  /-- `pg->pagev`. -/
  pages : List (List Node)

/-- The blocks and heads of blocks that are on a page. -/
def Packing.placed (s : Packing) : List Node := s.pages.flatten ++ s.cur

section Turn

variable (title : Bytes) (limit : ℕ) (base : Bytes)

/-- One turn of the loop; with nothing left to place it is over. -/
def packTurn (s : Packing) : Packing :=
  match s.queue with
  | [] => s
  | blk :: queue =>
    if pageSizeWith title s.cur blk base ≤ limit then ⟨queue, s.cur ++ [blk], s.pages⟩
    else
      match splitOff ⟨s.cur, title, limit, base⟩ blk with
      | some (head, some rest) => ⟨rest :: queue, [], s.pages ++ [s.cur ++ [head]]⟩
      | some (head, none) => ⟨queue, [], s.pages ++ [s.cur ++ [head]]⟩
      | none =>
        if s.cur = [] then ⟨queue, [], s.pages ++ [[blk]]⟩
        else ⟨blk :: queue, [], s.pages ++ [s.cur]⟩

/-- What follows the loop: the last page, and one page at least. -/
def Packing.finish (s : Packing) : List (List Node) :=
  if s.cur ≠ [] ∨ s.pages = [] then s.pages ++ [s.cur] else s.pages

/-- The bytes of text right inside a block. -/
def textLength (n : Node) : ℕ :=
  (n.kids.map fun
    | .text t => t.length
    | .elem _ _ _ => 0).sum

/-- `rest` has fewer children than `blk`, or as many and less text. -/
def Smaller (rest blk : Node) : Prop :=
  rest.kids.length < blk.kids.length ∨
    rest.kids.length = blk.kids.length ∧ textLength rest < textLength blk

/-- What a turn does. -/
inductive Progress (s s' : Packing) : Prop
  /-- A block is placed, or its head when nothing of it is left for another page. -/
  | placed (blk head : Node) (hqueue : s.queue = blk :: s'.queue)
      (hhead : head = blk ∨ ∃ room, splitToFit room blk = some (head, none))
      (hplaced : s'.placed = s.placed ++ [head])
  /-- A head is placed, and a smaller rest is left. -/
  | replaced (blk head rest : Node) (queue : List Node) (hqueue : s.queue = blk :: queue)
      (hrest : s'.queue = rest :: queue) (hsmaller : Smaller rest blk)
      (hplaced : s'.placed = s.placed ++ [head])
  /-- A page with blocks is closed. -/
  | closed (hcur : s.cur ≠ []) (hqueue : s'.queue = s.queue) (hopen : s'.cur = [])
      (hpages : s'.pages = s.pages ++ [s.cur])

/-- **A rest is smaller than its block.** -/
theorem smaller_of_splitToFit {room : Room} {blk head rest : Node}
    (h : splitToFit room blk = some (head, some rest)) : Smaller rest blk := by
  cases blk with
  | text t => rw [splitToFit_text] at h; cases h
  | elem name attrs kids =>
    rcases splitToFit_cases h with ⟨pre, k, post, rfl, hpre, -, -, hrest⟩ |
      ⟨pre, t, cut, post, rfl, hpos, hcut, -, hrest⟩
    · obtain rfl := Option.some.inj hrest
      have := List.length_pos_iff.mpr hpre
      left
      simp only [Tree.kids, List.length_append]
      omega
    · unfold wrapRest at hrest
      split_ifs at hrest with hnil
      obtain rfl := Option.some.inj hrest
      have hskip := (skipLeadingSeparators_suffix (t.drop cut)).length_le
      rw [List.length_drop] at hskip
      by_cases hempty : skipLeadingSeparators (t.drop cut) = []
      · left
        simp only [Tree.kids, textKid, if_pos hempty, List.nil_append, List.length_append,
          List.length_cons]
        omega
      · cases pre with
        | cons p ps =>
          left
          simp only [Tree.kids, textKid, if_neg hempty, List.length_append, List.length_cons,
            List.length_nil]
          omega
        | nil =>
          -- the text child itself is cut
          have hpos := hpos.resolve_left fun hne => hne rfl
          have hle := (hcut.resolve_left hpos.ne').1
          right
          simp only [Tree.kids, textLength, textKid, if_neg hempty, List.nil_append,
            List.singleton_append, List.length_cons, List.map_cons, List.sum_cons, true_and]
          omega

/-- **Every turn makes progress.** -/
theorem progress_packTurn {s : Packing} (h : s.queue ≠ []) :
    Progress s (packTurn title limit base s) := by
  obtain ⟨queue, cur, pages⟩ := s
  cases queue with
  | nil => exact absurd rfl h
  | cons blk queue =>
    simp only [packTurn]
    split
    · exact .placed blk blk rfl (Or.inl rfl) (by simp [Packing.placed])
    · split
      · next head rest hsplit =>
          exact .replaced blk head rest queue rfl rfl
            (smaller_of_splitToFit (splitToFit_of_splitOff hsplit)) (by simp [Packing.placed])
      · next head hsplit =>
          exact .placed blk head rfl (Or.inr ⟨_, splitToFit_of_splitOff hsplit⟩)
            (by simp [Packing.placed])
      · split
        · next hcur =>
            obtain rfl : cur = [] := hcur
            exact .placed blk blk rfl (Or.inl rfl) (by simp [Packing.placed])
        · next hcur => exact .closed hcur rfl rfl rfl

/-- What is left to do: what is left to place, and a page to close. -/
def Packing.measure (s : Packing) : ℕ := 2 * queueWeight s.queue + (if s.cur = [] then 0 else 1)

/-- It falls at every turn. -/
theorem measure_packTurn_lt {s : Packing} (h : s.queue ≠ []) :
    (packTurn title limit base s).measure < s.measure := by
  obtain ⟨queue, cur, pages⟩ := s
  cases queue with
  | nil => exact absurd rfl h
  | cons blk queue =>
    have hpos := blockWeight_pos blk
    have hweight : queueWeight (blk :: queue) = blockWeight blk + queueWeight queue := by
      simp [queueWeight]
    simp only [packTurn, Packing.measure, hweight]
    split
    · split_ifs <;> dsimp only <;> omega
    · split
      · next head rest hsplit =>
          have hlt := splitToFit_rest_lt (splitToFit_of_splitOff hsplit)
          have hrest : queueWeight (rest :: queue) = blockWeight rest + queueWeight queue := by
            simp [queueWeight]
          simp only [hrest, if_true]
          omega
      · simp only [if_true]
        omega
      · split
        · simp only [if_true]
          omega
        · simp only [hweight, if_true]
          omega

/-- No page is closed empty. -/
theorem nil_notMem_pages_packTurn {s : Packing} (h : [] ∉ s.pages) :
    [] ∉ (packTurn title limit base s).pages := by
  obtain ⟨queue, cur, pages⟩ := s
  cases queue with
  | nil => exact h
  | cons blk queue =>
    have hclose (page : List Node) (hpage : page ≠ []) : [] ∉ pages ++ [page] := by
      rw [List.mem_append, List.mem_singleton, not_or]
      exact ⟨h, hpage.symm⟩
    simp only [packTurn]
    split
    · exact h
    · split
      · exact hclose _ (by simp)
      · exact hclose _ (by simp)
      · split
        · exact hclose _ (by simp)
        · next hcur => exact hclose _ hcur

/-- A turn leaves the pages the loop is to make. -/
theorem pack_packTurn (s : Packing) :
    (packTurn title limit base s).pages ++
        pack title limit base (packTurn title limit base s).queue
          (packTurn title limit base s).cur =
      s.pages ++ pack title limit base s.queue s.cur := by
  obtain ⟨queue, cur, pages⟩ := s
  dsimp only
  fun_cases pack title limit base queue cur with
  | case1 => rw [packTurn, pack, if_pos rfl]
  | case2 cur hcur => rw [packTurn, pack, if_neg hcur]
  | case3 blk queue cur hfits => simp only [packTurn, if_pos hfits]
  | case4 blk queue cur hfits head rest hsplit =>
    simp only [packTurn, if_neg hfits, hsplit, List.append_assoc, List.singleton_append]
  | case5 blk queue cur hfits head hsplit =>
    simp only [packTurn, if_neg hfits, hsplit, List.append_assoc, List.singleton_append]
  | case6 blk queue hfits hsplit =>
    simp only [packTurn, if_neg hfits, hsplit, if_true, List.append_assoc, List.singleton_append]
  | case7 blk queue cur hfits hsplit hcur =>
    simp only [packTurn, if_neg hfits, hsplit, if_neg hcur, List.append_assoc,
      List.singleton_append]

/-- Where the loop is over, its pages are those it was to make, and one at least. -/
theorem finish_of_ended (s : Packing) {n : ℕ}
    (hend : ((packTurn title limit base)^[n] s).queue = []) :
    ((packTurn title limit base)^[n] s).finish =
      if s.pages ++ pack title limit base s.queue s.cur = [] then [[]]
      else s.pages ++ pack title limit base s.queue s.cur := by
  have hkeep : ∀ m, ((packTurn title limit base)^[m] s).pages ++
      pack title limit base ((packTurn title limit base)^[m] s).queue
        ((packTurn title limit base)^[m] s).cur =
      s.pages ++ pack title limit base s.queue s.cur := by
    intro m
    induction m with
    | zero => rfl
    | succ m ih =>
      rw [Function.iterate_succ_apply']
      exact (pack_packTurn title limit base _).trans ih
  rw [← hkeep n, hend, pack.eq_1]
  generalize (packTurn title limit base)^[n] s = t
  rw [Packing.finish]
  by_cases hcur : t.cur = []
  · rw [if_pos hcur, List.append_nil]
    by_cases hpages : t.pages = []
    · rw [if_pos (Or.inr hpages), if_pos hpages, hpages, hcur, List.nil_append]
    · rw [if_neg (by simp [hcur, hpages]), if_neg hpages]
  · rw [if_pos (Or.inl hcur), if_neg hcur, if_neg (by simp)]

end Turn

/-! ## The loop of a deck -/

/-- A turn of the loop for a deck and an address. -/
def packingTurn (src uri : Bytes) (absoluteLinks : Bool) (pageBytes : ℕ) : Packing → Packing :=
  let card := cardOf (parseWml (cstr src))
  let basep := measureBase (if absoluteLinks then uriBase uri 512 else [])
  let title := baseTitleOf card ++ titleSuffix
  packTurn title (pageLimit pageBytes (navCost title (uriPath uri) basep)) basep

/-- Where it starts: with every block to place, and no page. -/
def packingStart (src : Bytes) : Packing := ⟨blocksOf (cardOf (parseWml (cstr src))), [], []⟩

/-- Whether the blocks of a deck go out as one page, without the loop. -/
def FitsWhole (src uri : Bytes) (absoluteLinks : Bool) (pageBytes : ℕ) : Prop :=
  let card := cardOf (parseWml (cstr src))
  cardSize (baseTitleOf card) (blocksOf card) []
    (measureBase (if absoluteLinks then uriBase uri 512 else [])) ≤ pageBytes

section Deck

variable (src uri : Bytes) (absoluteLinks : Bool) (pageBytes : ℕ)

/-- The pages of a deck are those of its loop, wherever it is over. -/
theorem pages_eq_finish (page : ℤ) (hfits : ¬ FitsWhole src uri absoluteLinks pageBytes) {n : ℕ}
    (hend : ((packingTurn src uri absoluteLinks pageBytes)^[n] (packingStart src)).queue = []) :
    (pagedBuild src uri absoluteLinks page pageBytes).pages =
      ((packingTurn src uri absoluteLinks pageBytes)^[n] (packingStart src)).finish := by
  rw [packingTurn, finish_of_ended _ _ _ _ hend]
  exact if_neg hfits

/-- **Splitting a deck into pages ends.** The packing loop is over after some turns, and its pages
are then those of the deck; until then every turn places a block, puts a smaller rest in its place
or closes a page with blocks. No page is empty but possibly the only one. -/
theorem packing_ends (page : ℤ) :
    let turn := packingTurn src uri absoluteLinks pageBytes
    let start := packingStart src
    let pages := (pagedBuild src uri absoluteLinks page pageBytes).pages
    (∃ n ≤ start.measure, (turn^[n] start).queue = [] ∧
      (¬ FitsWhole src uri absoluteLinks pageBytes → pages = (turn^[n] start).finish)) ∧
    (∀ n, (turn^[n] start).queue ≠ [] → Progress (turn^[n] start) (turn^[n + 1] start)) ∧
    ([] ∈ pages → pages = [[]]) := by
  intro turn start pages
  obtain ⟨n, hn, hend⟩ := @exists_iterate_done _ turn (fun s => s.queue = [])
    Packing.measure (fun s hs => measure_packTurn_lt _ _ _ hs) start
  refine ⟨⟨n, hn, hend, fun hfits => ?_⟩, fun m hm => ?_, fun hempty => ?_⟩
  · exact pages_eq_finish src uri absoluteLinks pageBytes page hfits hend
  · rw [Function.iterate_succ_apply']
    exact progress_packTurn _ _ _ hm
  · by_cases hfits : FitsWhole src uri absoluteLinks pageBytes
    · have hone : pages = [blocksOf (cardOf (parseWml (cstr src)))] := if_pos hfits
      rw [hone] at hempty ⊢
      rw [← List.mem_singleton.mp hempty]
    · have hclosed : ∀ m, [] ∉ (turn^[m] start).pages := by
        intro m
        induction m with
        | zero => exact List.not_mem_nil
        | succ m ih =>
          rw [Function.iterate_succ_apply']
          exact nil_notMem_pages_packTurn _ _ _ ih
      have hpages := pages_eq_finish src uri absoluteLinks pageBytes page hfits hend
      change pages = (turn^[n] start).finish at hpages
      rw [hpages, Packing.finish] at hempty ⊢
      by_cases hlast : (turn^[n] start).cur ≠ [] ∨ (turn^[n] start).pages = []
      · rw [if_pos hlast] at hempty ⊢
        rcases List.mem_append.mp hempty with hmem | hmem
        · exact absurd hmem (hclosed n)
        · have hcur : (turn^[n] start).cur = [] := (List.mem_singleton.mp hmem).symm
          rw [hlast.resolve_left (not_not.mpr hcur), hcur, List.nil_append]
      · rw [if_neg hlast] at hempty
        exact absurd hempty (hclosed n)

end Deck

end BoatRudder.Wbxml
