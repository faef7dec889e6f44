import BoatRudder.Text.Bytes

/-! # Rewriting in one pass

A pass over a string that copies it byte by byte, and at some places puts something else for what
stands there. What a pass leaves as it is, it leaves so whatever stands around it, as far as the
rule does not look over the edge. -/

namespace BoatRudder

/-- A rule of a pass: at what is left of the string, what is written for its beginning, and what is
left after that; nothing where a byte is copied. -/
abbrev RewriteRule := Bytes → Option (Bytes × Bytes)

/-- The pass. A rule that would not get on is not followed. -/
def rewrite (rule : RewriteRule) : Bytes → Bytes
  | [] => []
  | c :: s =>
    match rule (c :: s) with
    | some (out, rest) =>
      if rest.length ≤ s.length then out ++ rewrite rule rest else c :: rewrite rule s
    | none => c :: rewrite rule s
termination_by s => s.length
decreasing_by
  all_goals simp only [List.length_cons]
  all_goals omega

variable {rule : RewriteRule}

@[simp] theorem rewrite_nil : rewrite rule [] = [] := by rw [rewrite]

/-- Where no rule applies a byte is copied. -/
theorem rewrite_cons {c : UInt8} {s : Bytes} (h : rule (c :: s) = none) :
    rewrite rule (c :: s) = c :: rewrite rule s := by
  rw [rewrite, h]

/-- Where a rule applies. -/
theorem rewrite_of_rule {c : UInt8} {s out rest : Bytes} (h : rule (c :: s) = some (out, rest))
    (hrest : rest.length ≤ s.length) : rewrite rule (c :: s) = out ++ rewrite rule rest := by
  rw [rewrite, h]
  simp only [hrest, if_true]

/-! ## What is copied -/

variable (rule) in
/-- The pass copies `a`, whatever follows it that satisfies `P`. -/
def Copies (P : Bytes → Prop) (a : Bytes) : Prop :=
  ∀ t, P t → rewrite rule (a ++ t) = a ++ rewrite rule t

variable {P Q : Bytes → Prop}

theorem copies_nil : Copies rule P [] := fun _ _ => rfl

/-- One string after the other. -/
theorem Copies.append {a b : Bytes} (ha : Copies rule P a) (hb : Copies rule Q b)
    (hnext : ∀ t, Q t → P (b ++ t)) : Copies rule Q (a ++ b) := by
  intro t ht
  rw [List.append_assoc, ha _ (hnext t ht), hb t ht, List.append_assoc]

/-- Less may follow. -/
theorem Copies.mono {a : Bytes} (ha : Copies rule P a) (h : ∀ t, Q t → P t) : Copies rule Q a :=
  fun t ht => ha t (h t ht)

/-- Strings one after the other, each of which may follow another. -/
theorem copies_flatMap {α : Type} {f : α → Bytes} {xs : List α}
    (h : ∀ x ∈ xs, Copies rule P (f x)) (hnext : ∀ x ∈ xs, ∀ t, P (f x ++ t)) :
    Copies rule P (xs.flatMap f) := by
  induction xs with
  | nil => exact copies_nil
  | cons x xs ih =>
    rw [List.flatMap_cons]
    have ih := ih (fun y hy => h y (List.mem_cons_of_mem x hy))
      fun y hy => hnext y (List.mem_cons_of_mem x hy)
    refine (h x (by simp)).append ih fun t ht => ?_
    cases xs with
    | nil => exact ht
    | cons y ys =>
      rw [List.flatMap_cons, List.append_assoc]
      exact hnext y (by simp) _

/-- A string at none of whose places the rule applies is copied. -/
theorem copies_of_none {a : Bytes}
    (h : ∀ c s, c :: s <:+ a → ∀ t, P t → rule (c :: (s ++ t)) = none) : Copies rule P a := by
  intro t ht
  induction a with
  | nil => rfl
  | cons c a ih =>
    rw [List.cons_append, rewrite_cons (h c a List.suffix_rfl t ht)]
    rw [ih fun d s hs => h d s (hs.trans (List.suffix_cons c a))]
    rfl

/-- What is copied with nothing after it comes out as it is. -/
theorem Copies.rewrite_eq {a : Bytes} (ha : Copies rule P a) (h : P []) : rewrite rule a = a := by
  have := ha [] h
  rwa [List.append_nil, rewrite_nil, List.append_nil] at this

end BoatRudder
