import BoatRudder.Text.Bytes

/-! # Escaping into a buffer

A string copied into a buffer, some of its bytes as escapes of several bytes. The copy goes on as long
as there is room, and an escape is only written when room is left behind it: so what is written is
always the encoding of a beginning of the string (`exists_prefix_encodeInto`), and it is all of it where
there is room, unless the last byte is escaped and the room is just enough
(`encodeInto_eq_encodeAll_iff`). -/

namespace BoatRudder

variable (escape : UInt8 → Option Bytes)

/-- A byte encoded: its escape, or the byte itself. -/
def encodeByte (c : UInt8) : Bytes := (escape c).getD [c]

/-- A string encoded. -/
def encodeAll (s : Bytes) : Bytes := s.flatMap (encodeByte escape)

/-- What is written of a string where `room` bytes are left. -/
def encodeInto : ℕ → Bytes → Bytes
  | _, [] => []
  | 0, _ :: _ => []
  | room + 1, c :: s =>
    match escape c with
    | none => c :: encodeInto room s
    | some e => if room + 1 ≤ e.length then [] else e ++ encodeInto (room + 1 - e.length) s

variable {escape}

@[simp] theorem encodeAll_nil : encodeAll escape [] = [] := rfl

theorem encodeAll_cons (c : UInt8) (s : Bytes) :
    encodeAll escape (c :: s) = encodeByte escape c ++ encodeAll escape s := List.flatMap_cons

/-- The room is not exceeded. -/
theorem length_encodeInto_le (room : ℕ) (s : Bytes) : (encodeInto escape room s).length ≤ room := by
  fun_induction encodeInto escape room s with
  | case1 => exact Nat.zero_le _
  | case2 => exact Nat.zero_le _
  | case3 room c s h ih => exact Nat.succ_le_succ ih
  | case4 room c s e h hroom => exact Nat.zero_le _
  | case5 room c s e h hroom ih =>
    rw [List.length_append]
    omega

/-- **A beginning of the string is encoded**, and no escape is cut. -/
theorem exists_prefix_encodeInto (room : ℕ) (s : Bytes) :
    ∃ p, p <+: s ∧ encodeInto escape room s = encodeAll escape p := by
  fun_induction encodeInto escape room s with
  | case1 => exact ⟨[], List.prefix_rfl, rfl⟩
  | case2 c s => exact ⟨[], List.nil_prefix, rfl⟩
  | case3 room c s h ih =>
    obtain ⟨p, hp, heq⟩ := ih
    refine ⟨c :: p, (List.prefix_cons_inj c).mpr hp, ?_⟩
    rw [encodeAll_cons, heq, encodeByte, h]
    rfl
  | case4 room c s e h hroom => exact ⟨[], List.nil_prefix, rfl⟩
  | case5 room c s e h hroom ih =>
    obtain ⟨p, hp, heq⟩ := ih
    refine ⟨c :: p, (List.prefix_cons_inj c).mpr hp, ?_⟩
    rw [encodeAll_cons, heq, encodeByte, h]
    rfl

variable (escape) in
/-- The last byte of `s` is escaped. -/
def EndsEscaped (s : Bytes) : Prop := ∃ c ∈ s.getLast?, (escape c).isSome = true

theorem endsEscaped_cons {c d : UInt8} {s : Bytes} :
    EndsEscaped escape (c :: d :: s) ↔ EndsEscaped escape (d :: s) := by
  rw [EndsEscaped, EndsEscaped, List.getLast?_cons_cons]

/-- **All of the string is written** exactly where it fits and does not end in an escape that would
take up the last of the room. -/
theorem encodeInto_eq_encodeAll_iff (hpos : ∀ c e, escape c = some e → 0 < e.length) (room : ℕ)
    (s : Bytes) : encodeInto escape room s = encodeAll escape s ↔
      (encodeAll escape s).length ≤ room ∧
        ¬ ((encodeAll escape s).length = room ∧ EndsEscaped escape s) := by
  -- a string that is not empty takes up room
  have hbyte : ∀ c, 0 < (encodeByte escape c).length := by
    intro c
    rw [encodeByte]
    cases h : escape c with
    | none => exact Nat.one_pos
    | some e => exact hpos c e h
  have hall : ∀ c t, 0 < (encodeAll escape (c :: t)).length := by
    intro c t
    rw [encodeAll_cons, List.length_append]
    exact Nat.add_pos_left (hbyte c) _
  fun_induction encodeInto escape room s with
  | case1 => simp [EndsEscaped]
  | case2 c s =>
    have hlen := hall c s
    refine iff_of_false (fun h => ?_) fun h => by omega
    rw [← h] at hlen
    exact absurd hlen (Nat.lt_irrefl 0)
  | case3 room c s h ih =>
    have hone : encodeByte escape c = [c] := by rw [encodeByte, h, Option.getD_none]
    have hends : EndsEscaped escape (c :: s) ↔ EndsEscaped escape s := by
      cases s with
      | nil => simp [EndsEscaped, h]
      | cons d s => exact endsEscaped_cons
    rw [encodeAll_cons, hone, List.singleton_append, List.cons_inj_right, List.length_cons, hends,
      Nat.succ_le_succ_iff, Nat.succ_inj]
    exact ih
  | case4 room c s e h hroom =>
    have hone : encodeByte escape c = e := by rw [encodeByte, h, Option.getD_some]
    refine iff_of_false (fun heq => ?_) ?_
    · have hlen := hall c s
      rw [← heq] at hlen
      exact absurd hlen (Nat.lt_irrefl 0)
    · rw [encodeAll_cons, hone, List.length_append]
      rintro ⟨hfits, htight⟩
      -- the escape takes up the room, so it is the end of the string
      cases s with
      | nil => exact htight ⟨by simp; simp at hfits; omega, c, rfl, by rw [h]; rfl⟩
      | cons d s =>
        have := hall d s
        omega
  | case5 room c s e h hroom ih =>
    have hone : encodeByte escape c = e := by rw [encodeByte, h, Option.getD_some]
    rw [encodeAll_cons, hone, List.append_cancel_left_eq, List.length_append]
    refine Iff.trans ih ?_
    have hle : (encodeAll escape s).length ≤ room + 1 - e.length ↔
        e.length + (encodeAll escape s).length ≤ room + 1 := by omega
    have heq : (encodeAll escape s).length = room + 1 - e.length ↔
        e.length + (encodeAll escape s).length = room + 1 := by omega
    rw [hle, heq]
    cases s with
    | nil =>
      -- room is left behind an escape that was written
      have hne : ¬ e.length + (encodeAll escape []).length = room + 1 := by
        rw [encodeAll_nil, List.length_nil]
        omega
      simp only [hne, false_and]
    | cons d s => rw [endsEscaped_cons]

/-- **The encoding of a beginning is written whole** exactly where it would be without what follows
it. -/
theorem encodeAll_prefix_encodeInto_iff (hpos : ∀ c e, escape c = some e → 0 < e.length) (room : ℕ)
    (s t : Bytes) : encodeAll escape s <+: encodeInto escape room (s ++ t) ↔
      encodeInto escape room s = encodeAll escape s := by
  -- nothing is the encoding of the empty string only
  have hnil : ∀ c s, ¬ encodeAll escape (c :: s) <+: [] := by
    intro c s h
    have hone := List.prefix_nil.mp ((List.prefix_append (encodeByte escape c) _).trans h)
    rw [encodeByte] at hone
    cases he : escape c with
    | none => rw [he] at hone; cases hone
    | some e =>
      rw [he] at hone
      have := hpos c e he
      rw [show e = [] from hone] at this
      exact absurd this (Nat.lt_irrefl 0)
  fun_induction encodeInto escape room s with
  | case1 room => simp
  | case2 c s =>
    refine iff_of_false ?_ fun h => hnil c s (h ▸ List.prefix_rfl)
    rw [List.cons_append, encodeInto]
    exact hnil c s
  | case3 room c s h ih =>
    rw [List.cons_append, encodeInto, h, encodeAll_cons, encodeByte, h]
    simpa using ih
  | case4 room c s e h hroom =>
    refine iff_of_false ?_ fun heq => hnil c s (heq ▸ List.prefix_rfl)
    rw [List.cons_append, encodeInto, h]
    dsimp only
    rw [if_pos hroom]
    exact hnil c s
  | case5 room c s e h hroom ih =>
    rw [List.cons_append, encodeInto, h, encodeAll_cons, encodeByte, h]
    dsimp only [Option.getD_some]
    rw [if_neg hroom, List.prefix_append_right_inj, List.append_cancel_left_eq]
    exact ih

end BoatRudder
