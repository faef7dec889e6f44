import BoatRudder.Runs.Machine

/-! # Calls that interleave over a shared state

A service answers calls, each of which acts on a shared state in atomic steps; between two steps of
one call any other call, and the surroundings, may act. A run is any order of these. What holds of
every run is proved call by call: a relation that every step guarantees, and for each call what it
knows of the shared state, which no step of another may spoil. -/

namespace BoatRudder

universe u v w x

namespace Machine

variable {σ : Type u} {α : Type v} {ω : Type w} (m : Machine σ α ω)

/-- Every input of a run finds a state with it in `P`. -/
def Along (P : σ → α → Prop) (as : List α) : Prop :=
  ∀ pre a post, as = pre ++ a :: post → P (m.after pre) a

variable {m}

theorem Along.left {P : σ → α → Prop} {as bs : List α} (h : m.Along P (as ++ bs)) : m.Along P as :=
  fun pre a post heq => h pre a (post ++ bs) (by simp [heq])

theorem Along.last {P : σ → α → Prop} {as : List α} {a : α} (h : m.Along P (as ++ [a])) :
    P (m.after as) a :=
  h as a [] rfl

theorem along_nil {P : σ → α → Prop} : m.Along P [] :=
  fun pre _ _ heq => absurd heq.symm (List.append_ne_nil_of_right_ne_nil pre (List.cons_ne_nil _ _))

theorem Along.concat {P : σ → α → Prop} {as : List α} {a : α} (h : m.Along P as)
    (ha : P (m.after as) a) : m.Along P (as ++ [a]) := by
  intro pre b post heq
  rcases List.eq_nil_or_concat post with rfl | ⟨post, c, rfl⟩
  · obtain ⟨rfl, hab⟩ := List.append_inj' heq rfl
    obtain rfl := List.singleton_inj.mp hab
    exact ha
  · have hassoc : pre ++ b :: post.concat c = pre ++ b :: post ++ [c] := by simp
    obtain ⟨rfl, -⟩ := List.append_inj' (heq.trans hassoc) rfl
    exact h pre b post rfl

/-- The rule for an invariant that needs every input of the run to find a state with it in `P`. -/
theorem after_of_along {P : σ → α → Prop} {I : σ → Prop} (hinit : I m.init)
    (hstep : ∀ s a, I s → P s a → I (m.step s a).1) {as : List α} (h : m.Along P as) :
    I (m.after as) := by
  induction as using List.reverseRecOn with
  | nil => exact hinit
  | append_singleton as a ih =>
    rw [after_concat]
    exact hstep _ _ (ih h.left) h.last

/-- The rule for an invariant that a step keeps exactly when it finds a state with it in `P`: it
holds all along a run exactly when every input of the run does. -/
theorem always_iff_along {P : σ → α → Prop} {I : σ → Prop} (hinit : I m.init)
    (hstep : ∀ as a, I (m.after as) → (I (m.step (m.after as) a).1 ↔ P (m.after as) a))
    (as : List α) : (∀ pre, pre <+: as → I (m.after pre)) ↔ m.Along P as := by
  constructor
  · rintro hall pre a post rfl
    refine (hstep pre a (hall pre (List.prefix_append _ _))).mp ?_
    rw [← after_concat]
    exact hall (pre ++ [a]) ⟨post, by simp⟩
  · rintro hall pre ⟨post, rfl⟩
    replace hall := hall.left
    induction pre using List.reverseRecOn generalizing post with
    | nil => exact hinit
    | append_singleton pre a ih =>
      rw [after_concat]
      exact (hstep pre a (ih (a :: post) hall.left)).mpr hall.last

/-- The rule for two conditions on the inputs of a run that say the same wherever an invariant holds,
which an input within the first keeps. -/
theorem along_iff_along {P Q : σ → α → Prop} {I : σ → Prop} (hinit : I m.init)
    (hiff : ∀ s a, I s → (P s a ↔ Q s a)) (hstep : ∀ s a, I s → P s a → I (m.step s a).1)
    (as : List α) : m.Along P as ↔ m.Along Q as := by
  have hkept : ∀ {as : List α}, m.Along P as ∨ m.Along Q as → I (m.after as) := by
    intro as h
    induction as using List.reverseRecOn with
    | nil => exact hinit
    | append_singleton as a ih =>
      have hI : I (m.after as) := ih (h.imp Along.left Along.left)
      rw [after_concat]
      exact hstep _ a hI (h.elim Along.last fun h => (hiff _ a hI).mpr h.last)
  constructor
  · rintro h pre a post rfl
    exact (hiff _ a (hkept (Or.inl h.left))).mp (h pre a post rfl)
  · rintro h pre a post rfl
    exact (hiff _ a (hkept (Or.inr h.left))).mpr (h pre a post rfl)

/-- What every step of a run relates is related over the run. -/
theorem after_append_rel {R : σ → σ → Prop} (hrefl : ∀ s, R s s)
    (htrans : ∀ {s t u}, R s t → R t u → R s u)
    (hstep : ∀ as a, R (m.after as) (m.step (m.after as) a).1) (pre post : List α) :
    R (m.after pre) (m.after (pre ++ post)) := by
  induction post using List.reverseRecOn with
  | nil => simpa using hrefl _
  | append_singleton post a ih =>
    rw [← List.append_assoc, after_concat]
    exact htrans ih (hstep _ a)

end Machine

/-- How a write to the database ends: done, done with the answer lost on the way, not done. -/
inductive WriteOutcome
  | done
  | unanswered
  | failed
  deriving DecidableEq, Repr

/-- A service: where it starts, where a request's call does, what a call does next, and what its
surroundings do. -/
structure Service (σ : Type u) (κ : Type v) (ρ : Type w) (ε : Type x) where
  /-- The shared state at the start. -/
  init : σ
  /-- The call of a request, before its first step. -/
  begin : ρ → κ
  /-- The next step of a call. -/
  act : σ → κ → σ × κ
  /-- What happens without a call. -/
  env : σ → ε → σ

/-- A shared state, and every call made so far where it stands. -/
structure CallState (σ : Type u) (κ : Type v) where
  /-- The shared state. -/
  shared : σ
  /-- The calls, in the order in which they were made. -/
  calls : List κ

/-- What happens next. -/
inductive CallEvent (ρ : Type w) (ε : Type x) where
  /-- A request arrives. -/
  | call (r : ρ)
  /-- The call at `i` takes its next step. -/
  | run (i : ℕ)
  /-- Something happens without a call. -/
  | env (e : ε)

namespace Service

variable {σ : Type u} {κ : Type v} {ρ : Type w} {ε : Type x} (S : Service σ κ ρ ε)

/-- One event. -/
def step (w : CallState σ κ) : CallEvent ρ ε → CallState σ κ
  | .call r => { w with calls := w.calls ++ [S.begin r] }
  | .run i =>
    match w.calls[i]? with
    | none => w
    | some c => ⟨(S.act w.shared c).1, w.calls.set i (S.act w.shared c).2⟩
  | .env e => { w with shared := S.env w.shared e }

/-- The service as a machine over events. -/
def machine : Machine (CallState σ κ) (CallEvent ρ ε) Unit where
  init := ⟨S.init, []⟩
  step := fun w e => (S.step w e, ())

variable {S} {w : CallState σ κ}

theorem step_run {i : ℕ} {c : κ} (h : w.calls[i]? = some c) :
    S.step w (.run i) = ⟨(S.act w.shared c).1, w.calls.set i (S.act w.shared c).2⟩ := by
  rw [step, h]

theorem step_run_none {i : ℕ} (h : w.calls[i]? = none) : S.step w (.run i) = w := by rw [step, h]

/-- A call after an event: it is where it was, or has just been made, or has taken its next step. -/
theorem getElem?_step {e : CallEvent ρ ε} {i : ℕ} {c : κ} (h : (S.step w e).calls[i]? = some c) :
    w.calls[i]? = some c ∨ (∃ r, e = .call r ∧ w.calls.length = i ∧ c = S.begin r) ∨
      ∃ d, e = .run i ∧ w.calls[i]? = some d ∧ c = (S.act w.shared d).2 := by
  cases e with
  | call r =>
    rw [step] at h
    rcases Nat.lt_or_ge i w.calls.length with hlt | hge
    · exact Or.inl (by rwa [List.getElem?_append_left hlt] at h)
    · rw [List.getElem?_append_right hge] at h
      obtain ⟨hi, hc⟩ := List.getElem?_eq_some_iff.mp h
      have hlen : w.calls.length = i := by simp at hi; omega
      exact Or.inr (Or.inl ⟨r, rfl, hlen, by simpa using hc.symm⟩)
  | run j =>
    cases hj : w.calls[j]? with
    | none =>
      rw [step_run_none hj] at h
      exact Or.inl h
    | some d =>
      rw [step_run hj] at h
      by_cases hij : j = i
      · subst hij
        have hlt : j < w.calls.length := (List.getElem?_eq_some_iff.mp hj).1
        rw [List.getElem?_set_self hlt] at h
        exact Or.inr (Or.inr ⟨d, rfl, hj, (Option.some.inj h).symm⟩)
      · exact Or.inl (by rwa [List.getElem?_set_ne hij] at h)
  | env e => exact Or.inl h

/-- The shared state after an event: that of a call's step, of the surroundings, or the same. -/
theorem shared_step (w : CallState σ κ) (e : CallEvent ρ ε) :
    (S.step w e).shared = w.shared ∨
      (∃ i d, e = .run i ∧ w.calls[i]? = some d ∧ (S.step w e).shared = (S.act w.shared d).1) ∨
      ∃ x, e = .env x ∧ (S.step w e).shared = S.env w.shared x := by
  cases e with
  | call r => exact Or.inl rfl
  | run i =>
    cases hi : w.calls[i]? with
    | none => exact Or.inl (by rw [step_run_none hi])
    | some d => exact Or.inr (Or.inl ⟨i, d, rfl, hi, by rw [step_run hi]⟩)
  | env x => exact Or.inr (Or.inr ⟨x, rfl, rfl⟩)

/-- **A call that stands where none begins has come there by a step of its own.** -/
theorem entered {P : κ → Prop} (hbegin : ∀ r, ¬ P (S.begin r)) {as : List (CallEvent ρ ε)} {i : ℕ}
    {c : κ} (hc : (S.machine.after as).calls[i]? = some c) (hP : P c) :
    ∃ pre d post, as = pre ++ .run i :: post ∧ (S.machine.after pre).calls[i]? = some d ∧ ¬ P d ∧
      P (S.act (S.machine.after pre).shared d).2 := by
  induction as using List.reverseRecOn generalizing c with
  | nil => simp [machine] at hc
  | append_singleton as e ih =>
    rw [Machine.after_concat] at hc
    obtain hc | ⟨r, -, -, rfl⟩ | ⟨d, rfl, hd, rfl⟩ := getElem?_step (S := S) hc
    · obtain ⟨pre, d, post, rfl, hd, hnot, hpost⟩ := ih hc hP
      exact ⟨pre, d, post ++ [e], by simp, hd, hnot, hpost⟩
    · exact absurd hP (hbegin r)
    · -- the last step of the call is the one that came there, or one after it
      by_cases hPd : P d
      · obtain ⟨pre, b, post, rfl, hb, hnot, hpost⟩ := ih hd hPd
        exact ⟨pre, b, post ++ [.run i], by simp, hb, hnot, hpost⟩
      · exact ⟨as, d, [], rfl, hd, hPd, hP⟩

variable (S) in
/-- Every step that a call takes in a run finds a shared state with it in `P`. -/
def EachStep (P : σ → κ → Prop) (as : List (CallEvent ρ ε)) : Prop :=
  S.machine.Along (fun w e => ∀ i c, e = .run i → w.calls[i]? = some c → P w.shared c) as

/-- **The rule for two conditions on the steps of calls** that say the same wherever the shared state
is in `J` and the call in `L`, which a step within the first keeps. -/
theorem eachStep_iff_eachStep {P Q : σ → κ → Prop} {J : σ → Prop} {L : κ → Prop} (hinit : J S.init)
    (hbegin : ∀ r, L (S.begin r)) (hiff : ∀ s c, J s → L c → (P s c ↔ Q s c))
    (hact : ∀ s c, J s → L c → P s c → J (S.act s c).1 ∧ L (S.act s c).2)
    (henv : ∀ s e, J s → J (S.env s e)) (as : List (CallEvent ρ ε)) :
    S.EachStep P as ↔ S.EachStep Q as := by
  refine Machine.along_iff_along (m := S.machine)
    (I := fun w => J w.shared ∧ ∀ c ∈ w.calls, L c) ⟨hinit, by simp [machine]⟩ ?_ ?_ as
  · rintro w e ⟨hJ, hL⟩
    constructor
    · exact fun h i c he hc => (hiff _ c hJ (hL c (List.mem_of_getElem? hc))).mp (h i c he hc)
    · exact fun h i c he hc => (hiff _ c hJ (hL c (List.mem_of_getElem? hc))).mpr (h i c he hc)
  · rintro w e ⟨hJ, hL⟩ hP
    show J (S.step w e).shared ∧ ∀ c ∈ (S.step w e).calls, L c
    cases e with
    | call r =>
      refine ⟨hJ, fun c hc => ?_⟩
      rcases List.mem_append.mp hc with hc | hc
      · exact hL c hc
      · rw [List.mem_singleton.mp hc]
        exact hbegin r
    | run i =>
      cases hi : w.calls[i]? with
      | none =>
        rw [step_run_none hi]
        exact ⟨hJ, hL⟩
      | some d =>
        rw [step_run hi]
        obtain ⟨hJ', hL'⟩ := hact _ d hJ (hL d (List.mem_of_getElem? hi)) (hP i d rfl hi)
        refine ⟨hJ', fun c hc => ?_⟩
        rcases List.mem_or_eq_of_mem_set hc with hc | rfl
        · exact hL c hc
        · exact hL'
    | env x => exact ⟨henv _ x hJ, hL⟩

/-- **The rule for what a step keeps exactly when it is in `P`**: it holds of the shared state all
along a run exactly when every step is. -/
theorem always_iff_eachStep {P : σ → κ → Prop} {I : σ → Prop} (hinit : I S.init)
    (hact : ∀ s c, I s → (I (S.act s c).1 ↔ P s c)) (henv : ∀ s e, I s → I (S.env s e))
    (as : List (CallEvent ρ ε)) :
    (∀ pre, pre <+: as → I (S.machine.after pre).shared) ↔ S.EachStep P as := by
  refine Machine.always_iff_along (m := S.machine) (I := fun w => I w.shared) hinit ?_ as
  intro as e hI
  cases e with
  | call r => exact iff_of_true hI fun i c hi _ => by cases hi
  | run i =>
    show I (S.step _ (.run i)).shared ↔ _
    cases hi : (S.machine.after as).calls[i]? with
    | none =>
      rw [step_run_none hi]
      refine iff_of_true hI fun j c hj hc => ?_
      obtain rfl := CallEvent.run.inj hj
      rw [hi] at hc
      cases hc
    | some c =>
      rw [step_run hi]
      refine (hact _ c hI).trans ⟨fun hc j d hj hd => ?_, fun hc => hc i c rfl hi⟩
      obtain rfl := CallEvent.run.inj hj
      obtain rfl := Option.some.inj (hi.symm.trans hd)
      exact hc
  | env x => exact iff_of_true (henv _ x hI) fun i c hi _ => by cases hi

/-- What a call's steps and the surroundings guarantee: the shared state keeps `J`, it changes along
`R` only, and a call keeps what it knows of it, `L`, at its own steps and at those along `R`. -/
structure Guarantees (S : Service σ κ ρ ε) (J : σ → Prop) (R : σ → σ → Prop) (L : σ → κ → Prop) :
    Prop where
  /-- The shared state is fit at the start. -/
  init : J S.init
  /-- A call knows nothing at its start. -/
  begin : ∀ s r, J s → L s (S.begin r)
  /-- A step of a call. -/
  act : ∀ s c, J s → L s c → J (S.act s c).1 ∧ R s (S.act s c).1 ∧ L (S.act s c).1 (S.act s c).2
  /-- A step of the surroundings. -/
  env : ∀ s e, J s → J (S.env s e) ∧ R s (S.env s e)
  /-- No step spoils what a call knows. -/
  stable : ∀ s t c, J s → R s t → L s c → L t c

namespace Guarantees

variable {J : σ → Prop} {R : σ → σ → Prop} {L : σ → κ → Prop} (h : Guarantees S J R L)

include h

/-- One event keeps what the state and the calls are known to be. -/
theorem step (hJ : J w.shared) (hL : ∀ c ∈ w.calls, L w.shared c) (e : CallEvent ρ ε) :
    J (S.step w e).shared ∧ ∀ c ∈ (S.step w e).calls, L (S.step w e).shared c := by
  cases e with
  | call r =>
    refine ⟨hJ, fun c hc => ?_⟩
    rcases List.mem_append.mp hc with hc | hc
    · exact hL c hc
    · rw [List.mem_singleton.mp hc]
      exact h.begin _ r hJ
  | run i =>
    cases hi : w.calls[i]? with
    | none =>
      rw [step_run_none hi]
      exact ⟨hJ, hL⟩
    | some d =>
      rw [step_run hi]
      obtain ⟨hJ', hR, hL'⟩ := h.act _ d hJ (hL d (List.mem_of_getElem? hi))
      refine ⟨hJ', fun c hc => ?_⟩
      rcases List.mem_or_eq_of_mem_set hc with hc | rfl
      · exact h.stable _ _ _ hJ hR (hL c hc)
      · exact hL'
  | env x =>
    obtain ⟨hJ', hR⟩ := h.env _ x hJ
    exact ⟨hJ', fun c hc => h.stable _ _ _ hJ hR (hL c hc)⟩

/-- **What the calls guarantee holds after every run.** -/
theorem after (as : List (CallEvent ρ ε)) :
    J (S.machine.after as).shared ∧ ∀ c ∈ (S.machine.after as).calls, L (S.machine.after as).shared c :=
  S.machine.after_induction (I := fun _ w => J w.shared ∧ ∀ c ∈ w.calls, L w.shared c)
    ⟨h.init, by simp [machine]⟩ (fun _ e hw => h.step hw.1 hw.2 e) as

/-- One event changes the shared state along `R`, or not. -/
theorem rel_step (hJ : J w.shared) (hL : ∀ c ∈ w.calls, L w.shared c) (e : CallEvent ρ ε) :
    (S.step w e).shared = w.shared ∨ R w.shared (S.step w e).shared := by
  obtain heq | ⟨i, d, -, hi, heq⟩ | ⟨x, -, heq⟩ := shared_step (S := S) w e
  · exact Or.inl heq
  · exact Or.inr (heq ▸ (h.act _ d hJ (hL d (List.mem_of_getElem? hi))).2.1)
  · exact Or.inr (heq ▸ (h.env _ x hJ).2)

/-- **The shared state changes along `R` over every run.** -/
theorem rel (hrefl : ∀ s, R s s) (htrans : ∀ {s t u}, R s t → R t u → R s u)
    (pre post : List (CallEvent ρ ε)) :
    R (S.machine.after pre).shared (S.machine.after (pre ++ post)).shared := by
  refine Machine.after_append_rel (m := S.machine) (R := fun v w => R v.shared w.shared)
    (fun _ => hrefl _) (fun h₁ h₂ => htrans h₁ h₂) (fun as e => ?_) pre post
  obtain ⟨hJ, hL⟩ := h.after as
  rcases h.rel_step hJ hL e with heq | hR
  · show R _ (S.step _ e).shared
    rw [heq]
    exact hrefl _
  · exact hR

/-- **Two calls that exclude each other do so in every run**: a call excludes none at its start, and
at each step none that is known to be where it is. -/
theorem exclusive {X : κ → κ → Prop} (hsymm : ∀ {c d}, X c d → X d c) (hbegin : ∀ r d, X (S.begin r) d)
    (hact : ∀ s c d, J s → L s c → L s d → X c d → X (S.act s c).2 d) (as : List (CallEvent ρ ε))
    {i j : ℕ} (hij : i ≠ j) {c d : κ} (hc : (S.machine.after as).calls[i]? = some c)
    (hd : (S.machine.after as).calls[j]? = some d) : X c d := by
  induction as using List.reverseRecOn generalizing c d with
  | nil => simp [machine] at hc
  | append_singleton as e ih =>
    rw [Machine.after_concat] at hc hd
    obtain ⟨hJ, hL⟩ := h.after as
    have hknow := fun {k : ℕ} {b : κ} (hb : (S.machine.after as).calls[k]? = some b) =>
      hL b (List.mem_of_getElem? hb)
    obtain hc' | ⟨r, -, -, rfl⟩ | ⟨c', rfl, hc', rfl⟩ := getElem?_step (S := S) hc
    · obtain hd' | ⟨r, -, -, rfl⟩ | ⟨d', rfl, hd', rfl⟩ := getElem?_step (S := S) hd
      · exact ih hc' hd'
      · exact hsymm (hbegin r c)
      · exact hsymm (hact _ _ _ hJ (hknow hd') (hknow hc') (hsymm (ih hc' hd')))
    · exact hbegin r d
    · -- the event is a step of the first call, so the second stays where it is
      obtain hd' | ⟨r, heq, -, -⟩ | ⟨d', heq, -, -⟩ := getElem?_step (S := S) hd
      · exact hact _ _ _ hJ (hknow hc') (hknow hd') (ih hc' hd')
      · cases heq
      · exact absurd (CallEvent.run.inj heq) hij

end Guarantees

end Service

end BoatRudder
