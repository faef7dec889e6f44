import Mathlib.Algebra.Order.Ring.Int
import Mathlib.Data.List.Induction

/-! # Machines and their runs

A machine answers each input and moves on to a next state. What holds of every run is proved by one
rule, `Machine.trace_induction`: it holds at the start, and one more input keeps it. -/

namespace BoatRudder

universe u v w

/-- A machine with states `σ`, inputs `α` and answers `ω`. -/
structure Machine (σ : Type u) (α : Type v) (ω : Type w) where
  /-- The state before the first input. -/
  init : σ
  /-- The state after an input, and the answer to it. -/
  step : σ → α → σ × ω

namespace Machine

variable {σ : Type u} {α : Type v} {ω : Type w} (m : Machine σ α ω)

/-! ## States, answers and traces -/

/-- The state after a run of inputs from the start. -/
def after (inputs : List α) : σ := inputs.foldl (fun s a => (m.step s a).1) m.init

/-- The answer to an input after a run. -/
def answer (inputs : List α) (a : α) : ω := (m.step (m.after inputs) a).2

/-- A run from a state: every input with the answer to it. -/
def traceFrom (s : σ) : List α → List (α × ω)
  | [] => []
  | a :: as => (a, (m.step s a).2) :: traceFrom (m.step s a).1 as

/-- A run from the start: every input with the answer to it. -/
def trace (inputs : List α) : List (α × ω) := m.traceFrom m.init inputs

@[simp] theorem after_nil : m.after [] = m.init := rfl

@[simp] theorem after_concat (as : List α) (a : α) :
    m.after (as ++ [a]) = (m.step (m.after as) a).1 := by
  simp [after]

@[simp] theorem trace_nil : m.trace [] = [] := rfl

/-- A run in two parts. -/
theorem traceFrom_append (s : σ) (as bs : List α) :
    m.traceFrom s (as ++ bs) =
      m.traceFrom s as ++ m.traceFrom (as.foldl (fun s a => (m.step s a).1) s) bs := by
  induction as generalizing s with
  | nil => rfl
  | cons a as ih => simp [traceFrom, ih]

/-- The last input of a run is answered in the state the ones before it lead to. -/
@[simp] theorem trace_concat (as : List α) (a : α) :
    m.trace (as ++ [a]) = m.trace as ++ [(a, m.answer as a)] := by
  rw [trace, traceFrom_append]
  rfl

/-- The inputs of a trace. -/
@[simp] theorem map_fst_traceFrom (s : σ) (as : List α) : (m.traceFrom s as).map Prod.fst = as := by
  induction as generalizing s with
  | nil => rfl
  | cons a as ih => simp [traceFrom, ih]

@[simp] theorem map_fst_trace (as : List α) : (m.trace as).map Prod.fst = as :=
  m.map_fst_traceFrom m.init as

/-! ## Induction over runs -/

/-- **What holds at the start and is kept by every input holds after every run.** The invariant
speaks of the state and of the run that led to it, with the answers given. -/
theorem trace_induction {Inv : List (α × ω) → σ → Prop} (hinit : Inv [] m.init)
    (hstep : ∀ as a, Inv (m.trace as) (m.after as) →
      Inv (m.trace as ++ [(a, m.answer as a)]) (m.step (m.after as) a).1) (as : List α) :
    Inv (m.trace as) (m.after as) := by
  induction as using List.reverseRecOn with
  | nil => exact hinit
  | append_singleton as a ih =>
    rw [trace_concat, after_concat]
    exact hstep as a ih

/-- The rule for an invariant that does not speak of the answers. -/
theorem after_induction {I : List α → σ → Prop} (hinit : I [] m.init)
    (hstep : ∀ as a, I as (m.after as) → I (as ++ [a]) (m.step (m.after as) a).1)
    (as : List α) : I as (m.after as) := by
  have := @trace_induction _ _ _ m (fun tr s => I (tr.map Prod.fst) s) hinit (by
    intro as a h
    simpa using hstep as a (by simpa using h)) as
  simpa using this

/-- **What comes with `J` stays, or an input in `Q` takes it.** When `I` holds wherever `J` begins to,
and only inputs that find the state with them in `Q` end it, then after a run that leads to `J` either
`I` still holds, or an input in `Q` came since `J`. -/
theorem stays_or_taken {J I : σ → Prop} {Q : σ → α → Prop} (hinit : ¬ J m.init)
    (hbegin : ∀ as a, ¬ J (m.after as) → J (m.step (m.after as) a).1 → I (m.step (m.after as) a).1)
    (hkeep : ∀ as a, I (m.after as) → ¬ Q (m.after as) a → I (m.step (m.after as) a).1)
    {as : List α} (h : J (m.after as)) :
    I (m.after as) ∨ ∃ pre a post, as = pre ++ a :: post ∧ J (m.after pre) ∧ Q (m.after pre) a := by
  induction as using List.reverseRecOn with
  | nil => exact absurd h hinit
  | append_singleton as a ih =>
    by_cases hJ : J (m.after as)
    · rcases ih hJ with hI | ⟨pre, b, post, rfl, hpre, hQ⟩
      · by_cases hQ : Q (m.after as) a
        · exact Or.inr ⟨as, a, [], rfl, hJ, hQ⟩
        · rw [after_concat]
          exact Or.inl (hkeep as a hI hQ)
      · exact Or.inr ⟨pre, b, post ++ [a], by simp, hpre, hQ⟩
    · rw [after_concat] at h ⊢
      exact Or.inl (hbegin as a hJ h)

/-! ## Runs of another machine

Where the inputs of one machine stand for inputs of another, a run of the first is one of the second,
its image: **`image_induction`**. -/

section

universe x y

variable {τ : Type x} {β : Type y} (read : σ → α → Option β)

/-- What the inputs of a run from a state stand for, each in the state it finds. -/
def imageFrom (s : σ) : List α → List β
  | [] => []
  | a :: as => (read s a).toList ++ imageFrom (m.step s a).1 as

/-- What the inputs of a run from the start stand for. -/
def image (as : List α) : List β := m.imageFrom read m.init as

theorem imageFrom_append (s : σ) (as bs : List α) :
    m.imageFrom read s (as ++ bs) =
      m.imageFrom read s as ++ m.imageFrom read (as.foldl (fun s a => (m.step s a).1) s) bs := by
  induction as generalizing s with
  | nil => rfl
  | cons a as ih => simp [imageFrom, ih]

theorem image_append (as bs : List α) :
    m.image read (as ++ bs) = m.image read as ++ m.imageFrom read (m.after as) bs :=
  m.imageFrom_append read m.init as bs

@[simp] theorem image_concat (as : List α) (a : α) :
    m.image read (as ++ [a]) = m.image read as ++ (read (m.after as) a).toList := by
  simp [image_append, imageFrom]

/-- What an input of the image stands for is what one of the run does. -/
theorem imageFrom_eq_append_cons {s : σ} {as : List α} {pre post : List β} {b : β}
    (h : m.imageFrom read s as = pre ++ b :: post) :
    ∃ as₁ a as₂, as = as₁ ++ a :: as₂ ∧ m.imageFrom read s as₁ = pre ∧
      read (as₁.foldl (fun s a => (m.step s a).1) s) a = some b ∧
        m.imageFrom read (m.step (as₁.foldl (fun s a => (m.step s a).1) s) a).1 as₂ = post := by
  induction as generalizing s pre with
  | nil => simp [imageFrom] at h
  | cons a as ih =>
    rw [imageFrom] at h
    cases hread : read s a with
    | none =>
      rw [hread, Option.toList_none, List.nil_append] at h
      obtain ⟨as₁, c, as₂, rfl, hpre, hc, hpost⟩ := ih h
      exact ⟨a :: as₁, c, as₂, rfl, by simp [imageFrom, hread, hpre], hc, hpost⟩
    | some d =>
      rw [hread, Option.toList_some, List.singleton_append] at h
      rcases pre with _ | ⟨e, pre⟩
      · obtain ⟨rfl, hpost⟩ := List.cons.inj h
        exact ⟨[], a, as, rfl, rfl, hread, hpost⟩
      · rw [List.cons_append, List.cons.injEq] at h
        obtain ⟨rfl, htail⟩ := h
        obtain ⟨as₁, c, as₂, rfl, hpre, hc, hpost⟩ := ih htail
        exact ⟨a :: as₁, c, as₂, rfl, by simp [imageFrom, hread, hpre], hc, hpost⟩

/-- The image of a run is that of its inputs, each in the state it finds. -/
theorem mem_imageFrom {s : σ} {as : List α} {b : β} : b ∈ m.imageFrom read s as ↔
    ∃ as₁ a as₂, as = as₁ ++ a :: as₂ ∧
      read (as₁.foldl (fun s a => (m.step s a).1) s) a = some b := by
  constructor
  · intro hb
    obtain ⟨pre, post, heq⟩ := List.append_of_mem hb
    obtain ⟨as₁, a, as₂, has, -, hread, -⟩ := m.imageFrom_eq_append_cons read heq
    exact ⟨as₁, a, as₂, has, hread⟩
  · rintro ⟨as₁, a, as₂, rfl, hread⟩
    rw [imageFrom_append, imageFrom, hread]
    exact List.mem_append_right _ List.mem_cons_self

/-- **The image of a run takes the other machine along with it.** -/
theorem image_induction {n : Machine τ β ω} {R : σ → τ → Prop} (hinit : R m.init n.init)
    (hnone : ∀ s t a, R s t → read s a = none → R (m.step s a).1 t)
    (hsome : ∀ s t a b, R s t → read s a = some b → R (m.step s a).1 (n.step t b).1) (as : List α) :
    R (m.after as) (n.after (m.image read as)) := by
  induction as using List.reverseRecOn with
  | nil => exact hinit
  | append_singleton as a ih =>
    rw [image_concat, after_concat]
    cases hread : read (m.after as) a with
    | none =>
      rw [Option.toList_none, List.append_nil]
      exact hnone _ _ a ih hread
    | some b =>
      rw [Option.toList_some, after_concat]
      exact hsome _ _ a b ih hread

end

end Machine

end BoatRudder
