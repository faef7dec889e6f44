import BoatRudder.Text.Bytes

/-! # Markup trees

Trees of elements and texts, over any type of text, with the induction that gives the hypothesis at
every child and decidable equality. -/

namespace BoatRudder

/-- A markup tree over texts `α`: a text, or an element with its attributes and children. -/
inductive Tree (α : Type) where
  | text (t : α)
  | elem (name : Bytes) (attrs : List (Bytes × α)) (kids : List (Tree α))

namespace Tree

variable {α : Type}

/-- Induction over the tree, with the hypothesis at every child. -/
theorem induction {motive : Tree α → Prop} (text : ∀ t, motive (.text t))
    (elem : ∀ name attrs kids, (∀ k ∈ kids, motive k) → motive (.elem name attrs kids)) :
    ∀ n, motive n
  | .text t => text t
  | .elem name attrs kids => elem name attrs kids fun k _ => induction text elem k

/-- A node's children. -/
def kids : Tree α → List (Tree α)
  | .text _ => []
  | .elem _ _ kids => kids

/-- Whether a node is an element. -/
def isElem : Tree α → Bool
  | .text _ => false
  | .elem _ _ _ => true

mutual

/-- Equality of trees is decided node by node. -/
def decEq [DecidableEq α] : (a b : Tree α) → Decidable (a = b)
  | .text s, .text t => decidable_of_iff (s = t) (by simp)
  | .text _, .elem _ _ _ => isFalse (by simp)
  | .elem _ _ _, .text _ => isFalse (by simp)
  | .elem n as ks, .elem n' as' ks' =>
    have := decEqList ks ks'
    decidable_of_iff (n = n' ∧ as = as' ∧ ks = ks') (by simp)

/-- Equality of lists of siblings. -/
def decEqList [DecidableEq α] : (as bs : List (Tree α)) → Decidable (as = bs)
  | [], [] => isTrue rfl
  | [], _ :: _ => isFalse (by simp)
  | _ :: _, [] => isFalse (by simp)
  | a :: as, b :: bs =>
    have := decEq a b
    have := decEqList as bs
    decidable_of_iff (a = b ∧ as = bs) (by simp)

end

instance [DecidableEq α] : DecidableEq (Tree α) := decEq

mutual

/-- Every text and every attribute value of the tree satisfies `P`. -/
def All (P : α → Prop) : Tree α → Prop
  | .text t => P t
  | .elem _ attrs kids => (∀ a ∈ attrs, P a.2) ∧ AllIn P kids

/-- Every text and every attribute value of a list of siblings satisfies `P`. -/
def AllIn (P : α → Prop) : List (Tree α) → Prop
  | [] => True
  | n :: ns => n.All P ∧ AllIn P ns

end

/-- What holds in a list of trees holds in each of them. -/
theorem allIn_iff {P : α → Prop} {ns : List (Tree α)} : AllIn P ns ↔ ∀ n ∈ ns, n.All P := by
  induction ns with
  | nil => simp [AllIn]
  | cons n ns ih => simp [AllIn, ih]

@[simp] theorem allIn_append {P : α → Prop} {ms ns : List (Tree α)} :
    AllIn P (ms ++ ns) ↔ AllIn P ms ∧ AllIn P ns := by
  simp only [allIn_iff, List.mem_append]
  exact ⟨fun h => ⟨fun n hn => h n (Or.inl hn), fun n hn => h n (Or.inr hn)⟩,
    fun h n hn => hn.elim (h.1 n) (h.2 n)⟩

mutual

/-- Every node of the tree satisfies `P`. -/
def Every (P : Tree α → Prop) : Tree α → Prop
  | .text t => P (.text t)
  | .elem name attrs kids => P (.elem name attrs kids) ∧ EveryIn P kids

/-- Every node of a list of siblings satisfies `P`. -/
def EveryIn (P : Tree α → Prop) : List (Tree α) → Prop
  | [] => True
  | n :: ns => n.Every P ∧ EveryIn P ns

end

/-- What holds of the nodes of a list of trees holds of those of each. -/
theorem everyIn_iff {P : Tree α → Prop} {ns : List (Tree α)} :
    EveryIn P ns ↔ ∀ n ∈ ns, n.Every P := by
  induction ns with
  | nil => simp [EveryIn]
  | cons n ns ih => simp [EveryIn, ih]

/-- What holds of every node holds of the element and below its children. -/
theorem every_elem {P : Tree α → Prop} {name : Bytes} {attrs : List (Bytes × α)}
    {kids : List (Tree α)} :
    (elem name attrs kids).Every P ↔ P (.elem name attrs kids) ∧ ∀ k ∈ kids, k.Every P := by
  rw [Every, everyIn_iff]

/-- What holds of every node holds of the one at the root. -/
theorem Every.root {P : Tree α → Prop} {n : Tree α} (h : n.Every P) : P n := by
  cases n with
  | text t => exact h
  | elem name attrs kids => exact (every_elem.mp h).1

/-- A weaker property holds of every node too. -/
theorem Every.imp {P Q : Tree α → Prop} (hPQ : ∀ n, P n → Q n) {n : Tree α} (h : n.Every P) :
    n.Every Q := by
  induction n using Tree.induction with
  | text t => exact hPQ _ h
  | elem name attrs kids ih =>
    obtain ⟨hroot, hkids⟩ := every_elem.mp h
    exact every_elem.mpr ⟨hPQ _ hroot, fun k hk => ih k hk (hkids k hk)⟩

/-- Two properties of every node are one. -/
theorem Every.and {P Q : Tree α → Prop} {n : Tree α} (hP : n.Every P) (hQ : n.Every Q) :
    n.Every fun n => P n ∧ Q n := by
  induction n using Tree.induction with
  | text t => exact ⟨hP, hQ⟩
  | elem name attrs kids ih =>
    obtain ⟨hP, hPkids⟩ := every_elem.mp hP
    obtain ⟨hQ, hQkids⟩ := every_elem.mp hQ
    exact every_elem.mpr ⟨⟨hP, hQ⟩, fun k hk => ih k hk (hPkids k hk) (hQkids k hk)⟩

mutual

/-- `Every` is decided node by node. -/
def decEvery {P : Tree α → Prop} [DecidablePred P] : (n : Tree α) → Decidable (n.Every P)
  | .text t => inferInstanceAs (Decidable (P (.text t)))
  | .elem name attrs kids =>
    have := decEveryIn (P := P) kids
    inferInstanceAs (Decidable (P (.elem name attrs kids) ∧ EveryIn P kids))

/-- `EveryIn` is decided node by node. -/
def decEveryIn {P : Tree α → Prop} [DecidablePred P] : (ns : List (Tree α)) → Decidable (EveryIn P ns)
  | [] => isTrue trivial
  | n :: ns =>
    have := decEvery (P := P) n
    have := decEveryIn (P := P) ns
    inferInstanceAs (Decidable (n.Every P ∧ EveryIn P ns))

end

instance {P : Tree α → Prop} [DecidablePred P] (n : Tree α) : Decidable (n.Every P) := decEvery n

mutual

/-- How deep elements are nested: a text not at all. -/
def depth : Tree α → ℕ
  | .text _ => 0
  | .elem _ _ kids => depthIn kids + 1

/-- How deep the elements of a list of siblings are nested. -/
def depthIn : List (Tree α) → ℕ
  | [] => 0
  | n :: ns => max n.depth (depthIn ns)

end

/-- A tree of a list is no deeper than the list. -/
theorem depth_le_depthIn {n : Tree α} {ns : List (Tree α)} (h : n ∈ ns) : n.depth ≤ depthIn ns := by
  induction ns with
  | nil => cases h
  | cons m ns ih =>
    rw [depthIn]
    rcases List.mem_cons.mp h with rfl | h
    · exact le_max_left _ _
    · exact (ih h).trans (le_max_right _ _)

/-- A list is as deep as its deepest tree. -/
theorem depthIn_le_iff {ns : List (Tree α)} {d : ℕ} : depthIn ns ≤ d ↔ ∀ n ∈ ns, n.depth ≤ d := by
  induction ns with
  | nil => simp [depthIn]
  | cons m ns ih => rw [depthIn, Nat.max_le, ih, List.forall_mem_cons]

mutual

/-- How many elements with children are nested in one another. -/
def nest : Tree α → ℕ
  | .text _ => 0
  | .elem _ _ kids => nestIn kids

/-- How many elements with children are nested around any of the siblings, and in it. -/
def nestIn : List (Tree α) → ℕ
  | [] => 0
  | n :: ns => max (n.nest + 1) (nestIn ns)

end

/-- A list nests deeper than each of its trees. -/
theorem nestIn_le_iff {ns : List (Tree α)} {d : ℕ} : nestIn ns ≤ d ↔ ∀ n ∈ ns, n.nest < d := by
  induction ns with
  | nil => simp [nestIn]
  | cons m ns ih => rw [nestIn, Nat.max_le, ih, List.forall_mem_cons, Nat.succ_le_iff]

end Tree

end BoatRudder
