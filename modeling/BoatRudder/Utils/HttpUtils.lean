import BoatRudder.Text.Escaping
import BoatRudder.WebServer.FormFields

/-! # Encoding for URLs and for HTML

`url_encode` and `html_encode`, which write a string into a buffer of `dst_size` bytes, and
`html_encode_alloc`, which allocates the buffer. Strings are without their terminator; it is written
behind what is returned here. -/

namespace BoatRudder.Utils

open WebServer

/-! ## The functions -/

/-- What `url_encode` writes for a byte it does not copy. -/
def urlEscape (c : UInt8) : Option Bytes :=
  if isAlnum c || (lit "-_.~/").contains c then none
  else some [37, upperHex (c.toNat / 16), upperHex (c.toNat % 16)]

/-- What `html_encode` writes for a byte it does not copy. -/
def htmlEscape (c : UInt8) : Option Bytes :=
  if c = 38 then some (lit "&amp;")
  else if c = 60 then some (lit "&lt;")
  else if c = 62 then some (lit "&gt;")
  else if c = 34 then some (lit "&quot;")
  else none

/-- `url_encode`: `end` leaves the last byte of the buffer for the NUL, and an escape that would reach
`end` ends the loop. -/
def urlEncode (src : Bytes) (dstSize : ℕ) : Bytes := encodeInto urlEscape (dstSize - 1) src

/-- `html_encode`. -/
def htmlEncode (src : Bytes) (dstSize : ℕ) : Bytes := encodeInto htmlEscape (dstSize - 1) src

/-- `html_encode_alloc`, where there is memory. -/
def htmlEncodeAlloc (src : Bytes) : Bytes := htmlEncode src (src.length * 6 + 1)

/-! ## What they write -/

theorem length_urlEscape_pos (c : UInt8) (e : Bytes) (h : urlEscape c = some e) : 0 < e.length := by
  unfold urlEscape at h
  split_ifs at h
  cases h
  exact Nat.succ_pos _

theorem htmlEscape_eq_some {c : UInt8} {e : Bytes} (h : htmlEscape c = some e) :
    0 < e.length ∧ e.length ≤ 6 ∧ (e.length = 6 ↔ c = 34) := by
  unfold htmlEscape at h
  split_ifs at h with h1 h2 h3 h4 <;> cases h
  · subst h1
    decide
  · subst h2
    decide
  · subst h3
    decide
  · subst h4
    decide

/-- A quotation mark is the one byte that takes six. -/
theorem length_encodeByte_html (c : UInt8) :
    (encodeByte htmlEscape c).length ≤ 6 ∧ ((encodeByte htmlEscape c).length = 6 ↔ c = 34) := by
  rw [encodeByte]
  cases h : htmlEscape c with
  | none =>
    refine ⟨by simp, iff_of_false (by simp) ?_⟩
    rintro rfl
    cases h
  | some e => exact (htmlEscape_eq_some h).2

/-- The worst case is what `html_encode_alloc` allocates for, and only quotation marks meet it. -/
theorem length_encodeAll_html (s : Bytes) :
    (encodeAll htmlEscape s).length ≤ 6 * s.length ∧
      ((encodeAll htmlEscape s).length = 6 * s.length ↔ ∀ c ∈ s, c = 34) := by
  induction s with
  | nil => simp
  | cons c s ih =>
    obtain ⟨hle, hsix⟩ := length_encodeByte_html c
    rw [encodeAll_cons, List.length_append, List.length_cons, List.forall_mem_cons, ← hsix, ← ih.2]
    omega

/-- **What was encoded whole is decoded.** -/
theorem urlDecode_encodeAll (s : Bytes) : urlDecode (encodeAll urlEscape s) = s := by
  rw [urlDecode_eq]
  induction s with
  | nil => rfl
  | cons c s ih =>
    rw [encodeAll_cons, encodeByte, urlEscape]
    split_ifs with h
    · rw [Option.getD_none, List.singleton_append, formDecode_cons_of_ne, ih]
      · rintro rfl
        revert h
        decide
      · rintro rfl
        revert h
        decide
    · show formDecode (percentByte c ++ _) = _
      rw [formDecode_percentByte, ih]

/-- An encoder with a buffer of `size` bytes writes no further, writes the encoding of a beginning of
the string, and writes all of it where that fits. -/
def LosslessUpTo (encode : Bytes → ℕ → Bytes) (escape : UInt8 → Option Bytes) (s : Bytes)
    (size : ℕ) : Prop :=
  (encode s size).length + 1 ≤ size ∧ (∃ p, p <+: s ∧ encode s size = encodeAll escape p) ∧
    ((encodeAll escape s).length + 1 ≤ size → encode s size = encodeAll escape s)

/-- The last byte is escaped, and its escape would end right in front of the NUL. -/
def EndsTight (escape : UInt8 → Option Bytes) (s : Bytes) (size : ℕ) : Prop :=
  (encodeAll escape s).length + 1 = size ∧ EndsEscaped escape s

theorem losslessUpTo_iff {escape : UInt8 → Option Bytes}
    (hpos : ∀ c e, escape c = some e → 0 < e.length) {s : Bytes} {size : ℕ} (hsize : 1 ≤ size) :
    LosslessUpTo (fun s size => encodeInto escape (size - 1) s) escape s size ↔
      ¬ EndsTight escape s size := by
  have hlen := @length_encodeInto_le escape (size - 1) s
  have hall := encodeInto_eq_encodeAll_iff hpos (size - 1) s
  have hfit : (encodeAll escape s).length ≤ size - 1 ↔ (encodeAll escape s).length + 1 ≤ size := by
    omega
  have htight : (encodeAll escape s).length = size - 1 ↔ (encodeAll escape s).length + 1 = size := by
    omega
  rw [hfit, htight] at hall
  constructor
  · rintro ⟨-, -, hwhole⟩ htight
    exact (hall.mp (hwhole htight.1.le)).2 htight
  · exact fun h => ⟨by dsimp only; omega, exists_prefix_encodeInto _ s,
      fun hfits => hall.mpr ⟨hfits, h⟩⟩

/-- `html_encode_alloc` encodes all of a string, unless that is made of quotation marks only. -/
theorem htmlEncodeAlloc_eq_iff (s : Bytes) :
    htmlEncodeAlloc s = encodeAll htmlEscape s ↔ ¬ (s ≠ [] ∧ ∀ c ∈ s, c = 34) := by
  obtain ⟨hle, hsix⟩ := length_encodeAll_html s
  have hall := @encodeInto_eq_encodeAll_iff htmlEscape (fun c e h => (htmlEscape_eq_some h).1)
    (s.length * 6) s
  rw [htmlEncodeAlloc, htmlEncode, Nat.add_sub_cancel, hall]
  have hends : (∀ c ∈ s, c = 34) → (EndsEscaped htmlEscape s ↔ s ≠ []) := by
    intro hquotes
    rw [EndsEscaped]
    constructor
    · rintro ⟨c, hc, -⟩ rfl
      cases hc
    · intro hne
      refine ⟨s.getLast hne, List.getLast?_eq_some_getLast hne, ?_⟩
      rw [hquotes _ (List.getLast_mem hne)]
      rfl
  constructor
  · rintro ⟨-, hnot⟩ ⟨hne, hquotes⟩
    exact hnot ⟨by rw [hsix.mpr hquotes, Nat.mul_comm], (hends hquotes).mpr hne⟩
  · intro h
    refine ⟨by omega, ?_⟩
    rintro ⟨hlen, hescaped⟩
    have hquotes := hsix.mp (by omega)
    exact h ⟨(hends hquotes).mp hescaped, hquotes⟩

/-- Escaping `s` into `size` bytes is lossless up to the buffer, `html_encode_alloc` loses nothing, and
`url_decode` gives back what `url_encode` did not cut. -/
structure EscapesLosslessly (s : Bytes) (size : ℕ) : Prop where
  url : LosslessUpTo urlEncode urlEscape s size
  html : LosslessUpTo htmlEncode htmlEscape s size
  alloc : htmlEncodeAlloc s = encodeAll htmlEscape s
  decoded : urlEncode s size = encodeAll urlEscape s → urlDecode (urlEncode s size) = s

/-- **Escaping is lossless up to the buffer** exactly where no escape would end right in front of the
NUL, neither in the buffer nor in the one `html_encode_alloc` allocates. -/
theorem escapesLosslessly_iff {s : Bytes} {size : ℕ} (hsize : 1 ≤ size) :
    EscapesLosslessly s size ↔
      ¬ EndsTight urlEscape s size ∧ ¬ EndsTight htmlEscape s size ∧
        ¬ (s ≠ [] ∧ ∀ c ∈ s, c = 34) := by
  have hurl : LosslessUpTo urlEncode urlEscape s size ↔ ¬ EndsTight urlEscape s size :=
    losslessUpTo_iff length_urlEscape_pos hsize
  have hhtml : LosslessUpTo htmlEncode htmlEscape s size ↔ ¬ EndsTight htmlEscape s size :=
    losslessUpTo_iff (fun c e h => (htmlEscape_eq_some h).1) hsize
  rw [← hurl, ← hhtml, ← htmlEncodeAlloc_eq_iff]
  constructor
  · exact fun h => ⟨h.url, h.html, h.alloc⟩
  · rintro ⟨url, html, alloc⟩
    exact ⟨url, html, alloc, fun hwhole => by rw [hwhole, urlDecode_encodeAll]⟩

/-- A title with an ampersand in a buffer with room to spare. -/
theorem escapesLosslessly_title : EscapesLosslessly (lit "Salt & Pepper") 64 :=
  (escapesLosslessly_iff (by decide)).mpr ⟨fun h => absurd h.1 (by decide),
    fun h => absurd h.1 (by decide), fun h => absurd (h.2 83 (by decide)) (by decide)⟩

/-- A quotation mark is lost in the buffer that is allocated for it. -/
theorem not_escapesLosslessly_quote : ¬ EscapesLosslessly (lit "\"") 64 :=
  fun h => absurd h.alloc (by decide)

end BoatRudder.Utils
