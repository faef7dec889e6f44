import BoatRudder.Utils.EpochResponse
import BoatRudder.WapGateway.WmlReadBack
import BoatRudder.WapGateway.WmlStrings

/-! # What Latin-1 has

Text whose characters are those of Latin-1 comes back from `utf8_to_latin1` and `latin1_to_utf8` as
it was; so does a written deck of such text. -/

namespace BoatRudder.Utils

open Wml Wbxml

/-- A text of which folding to Latin-1 loses nothing. -/
def Latin1 (s : Bytes) : Prop := latin1ToUtf8 (utf8ToLatin1 s) = s

instance (s : Bytes) : Decidable (Latin1 s) := inferInstanceAs (Decidable (_ = _))

theorem latin1ToUtf8_append (r s : Bytes) :
    latin1ToUtf8 (r ++ s) = latin1ToUtf8 r ++ latin1ToUtf8 s := List.flatMap_append

/-- A widened string is a C string. -/
theorem zero_notMem_latin1ToUtf8 {r : Bytes} (hr : 0 ∉ r) : 0 ∉ latin1ToUtf8 r := by
  intro h
  obtain ⟨c, hc, h0⟩ := List.mem_flatMap.mp h
  have hpos : 0 < c.toNat := Nat.pos_of_ne_zero fun hzero =>
    hr ((UInt8.toNat_inj.mp hzero : c = 0) ▸ hc)
  exact zero_notMem_utf8 hpos (c.toNat_lt.le.trans (by decide)) h0

/-- The bytes of a character of Latin-1: one below 128, otherwise two. -/
theorem utf8_latin1 : ∀ n < 256, if n < 128 then utf8 n = [UInt8.ofNat n] else
    ∃ p q, utf8 n = [p, q] ∧ ¬ p < 0x80 ∧ p &&& 0xE0 = 0xC0 ∧ (q &&& 0xC0 == 0x80) = true ∧
      (p &&& 0x1F).toNat * 64 + (q &&& 0x3F).toNat = n := by
  have hbytes : ∀ n < 256, if n < 128 then utf8 n = [UInt8.ofNat n] else
      utf8 n = [(utf8 n).headD 0, ((utf8 n).drop 1).headD 0] ∧ ¬ (utf8 n).headD 0 < 0x80 ∧
        (utf8 n).headD 0 &&& 0xE0 = 0xC0 ∧ (((utf8 n).drop 1).headD 0 &&& 0xC0 == 0x80) = true ∧
        ((utf8 n).headD 0 &&& 0x1F).toNat * 64 + (((utf8 n).drop 1).headD 0 &&& 0x3F).toNat = n := by
    decide +kernel
  intro n hn
  have := hbytes n hn
  split_ifs at this ⊢
  · exact this
  · exact ⟨_, _, this⟩

/-- A character of Latin-1 is folded to its byte. -/
theorem foldLatin1_utf8 (c : UInt8) (t : Bytes) :
    foldLatin1 (utf8 c.toNat ++ t) = c :: foldLatin1 t := by
  have hbytes := utf8_latin1 c.toNat c.toNat_lt
  split_ifs at hbytes with hsmall
  · have hlt : c < 0x80 := UInt8.lt_iff_toNat_lt.mpr hsmall
    rw [hbytes, UInt8.ofNat_toNat, List.singleton_append, foldLatin1, if_pos hlt]
  · obtain ⟨p, q, hpq, hp, hlead, htrail, hcp⟩ := hbytes
    have hmax : c.toNat ≤ 0xFF := Nat.le_of_lt_succ c.toNat_lt
    rw [hpq, List.cons_append, List.singleton_append, foldLatin1, if_neg hp,
      if_pos ⟨hlead, by simpa [isTrail] using htrail⟩]
    simp only [List.headD_cons, List.drop_succ_cons, List.drop_zero, hcp, hmax, if_true,
      UInt8.ofNat_toNat]

/-- **Folding undoes the widening of Latin-1.** -/
theorem utf8ToLatin1_latin1ToUtf8 {r : Bytes} (hr : 0 ∉ r) :
    utf8ToLatin1 (latin1ToUtf8 r) = r := by
  have hfold : foldLatin1 (latin1ToUtf8 r) = r := by
    clear hr
    induction r with
    | nil => rw [latin1ToUtf8, List.flatMap_nil, foldLatin1]
    | cons c r ih =>
      have hcons : latin1ToUtf8 (c :: r) = utf8 c.toNat ++ latin1ToUtf8 r := List.flatMap_cons
      rw [hcons, foldLatin1_utf8, ih]
  rw [utf8ToLatin1, hfold, cstr_eq_self hr]

/-- A text of Latin-1 is what some string of Latin-1 is widened to. -/
theorem latin1_iff {s : Bytes} : Latin1 s ↔ ∃ r, 0 ∉ r ∧ s = latin1ToUtf8 r := by
  constructor
  · intro h
    exact ⟨utf8ToLatin1 s, zero_notMem_cstr _, h.symm⟩
  · rintro ⟨r, hr, rfl⟩
    rw [Latin1, utf8ToLatin1_latin1ToUtf8 hr]

theorem latin1_nil : Latin1 [] := latin1_iff.mpr ⟨[], by simp, rfl⟩

theorem Latin1.append {s t : Bytes} (hs : Latin1 s) (ht : Latin1 t) : Latin1 (s ++ t) := by
  obtain ⟨a, ha, rfl⟩ := latin1_iff.mp hs
  obtain ⟨b, hb, rfl⟩ := latin1_iff.mp ht
  exact latin1_iff.mpr ⟨a ++ b, by simp [ha, hb], (latin1ToUtf8_append a b).symm⟩

/-- ASCII is its own Latin-1. -/
theorem latin1_of_ascii {s : Bytes} (h : ∀ c ∈ s, c ≠ 0 ∧ c < 128) : Latin1 s := by
  refine latin1_iff.mpr ⟨s, fun h0 => (h 0 h0).1 rfl, ?_⟩
  induction s with
  | nil => rfl
  | cons c s ih =>
    have hcons : latin1ToUtf8 (c :: s) = utf8 c.toNat ++ latin1ToUtf8 s := List.flatMap_cons
    have hsmall : c.toNat < 128 := UInt8.lt_iff_toNat_lt.mp (h c (by simp)).2
    rw [hcons, ← ih fun d hd => h d (List.mem_cons_of_mem c hd), utf8, if_pos hsmall,
      UInt8.ofNat_toNat]
    rfl

theorem latin1_flatMap {α : Type} {f : α → Bytes} {xs : List α} (h : ∀ x ∈ xs, Latin1 (f x)) :
    Latin1 (xs.flatMap f) := by
  induction xs with
  | nil => exact latin1_nil
  | cons x xs ih =>
    rw [List.flatMap_cons]
    exact (h x (by simp)).append (ih fun y hy => h y (List.mem_cons_of_mem x hy))

/-! ## Written trees -/

/-- Escaping touches ASCII only. -/
theorem Latin1.serEscape {s : Bytes} (hs : Latin1 s) (attr : Bool) :
    Latin1 (Wbxml.serEscape attr s) := by
  have hbytes : ∀ n < 256, n ≠ 0 → ∀ attr : Bool,
      Wbxml.serEscape attr (utf8 n) = latin1ToUtf8 (Wbxml.serEscape attr [UInt8.ofNat n]) ∧
        0 ∉ Wbxml.serEscape attr [UInt8.ofNat n] := by decide +kernel
  obtain ⟨r, hr, rfl⟩ := latin1_iff.mp hs
  clear hs
  induction r with
  | nil => exact latin1_nil
  | cons c r ih =>
    simp only [List.mem_cons, not_or] at hr
    have hcons : latin1ToUtf8 (c :: r) = utf8 c.toNat ++ latin1ToUtf8 r := List.flatMap_cons
    have hne : c.toNat ≠ 0 := fun h => hr.1 (UInt8.toNat_inj.mp h.symm)
    obtain ⟨heq, h0⟩ := hbytes c.toNat c.toNat_lt hne attr
    rw [UInt8.ofNat_toNat] at heq h0
    rw [hcons, Wbxml.serEscape, List.flatMap_append]
    exact Latin1.append (latin1_iff.mpr ⟨_, h0, heq⟩) (ih hr.2)

/-- A node with nothing in it that Latin-1 lacks. -/
def Latin1Node : Node → Prop
  | .text t => ∀ w ∈ words t, Latin1 w
  | .elem _ attrs _ => ∀ a ∈ attrs, Latin1 a.2

instance : DecidablePred Latin1Node
  | .text _ => inferInstanceAs (Decidable (∀ _ ∈ _, _))
  | .elem _ _ _ => inferInstanceAs (Decidable (∀ _ ∈ _, _))

/-- A name is ASCII. -/
theorem latin1_of_isWmlName {name : Bytes} (h : isWmlName name = true) : Latin1 name := by
  have hclass : ∀ c, isNameChar c = true → c ≠ 0 ∧ c < 128 := by decide +kernel
  simp only [isWmlName, Bool.and_eq_true, List.all_eq_true] at h
  exact latin1_of_ascii fun c hc => hclass c (h.2 c hc)

theorem latin1_serAttr {a : Bytes × Bytes} (hname : isWmlName a.1 = true) (hvalue : Latin1 a.2) :
    Latin1 (serAttr a) := by
  have hmark : ∀ s ∈ [lit " ", lit "=\"", lit "\""], ∀ c ∈ s, c ≠ 0 ∧ c < 128 := by decide
  exact ((((latin1_of_ascii (hmark _ (by simp))).append (latin1_of_isWmlName hname)).append
    (latin1_of_ascii (hmark _ (by simp)))).append (hvalue.serEscape true)).append
    (latin1_of_ascii (hmark _ (by simp)))

theorem latin1_serNodes {ks : List Node} (h : ∀ k ∈ ks, Latin1 (serNode k)) :
    Latin1 (serNodes ks) := by
  induction ks with
  | nil => exact latin1_nil
  | cons k ks ih => exact (h k (by simp)).append (ih fun l hl => h l (List.mem_cons_of_mem k hl))

/-- **A node is written in Latin-1 when it holds nothing else.** -/
theorem latin1_serNode {n : Node} (hshaped : n.Every Shaped) (hn : n.Every Latin1Node) :
    Latin1 (serNode n) := by
  have hmark : ∀ s ∈ [lit "<", lit ">", lit "/>", lit "</"], ∀ c ∈ s, c ≠ 0 ∧ c < 128 := by
    decide
  induction n using Tree.induction with
  | text t =>
    have hblank : Latin1 [32] := latin1_of_ascii (by decide)
    refine (@of_words Latin1 latin1_nil (fun a b ha hb => ?_) t hn.root).serEscape false
    have : a ++ 32 :: b = a ++ ([32] ++ b) := rfl
    rw [this]
    exact ha.append (hblank.append hb)
  | elem name attrs kids ih =>
    obtain ⟨⟨hname, hattrs, -⟩, hkidsShaped⟩ := Tree.every_elem.mp hshaped
    obtain ⟨hvalues, hkidsLatin1⟩ := Tree.every_elem.mp hn
    have hname := latin1_of_isWmlName hname
    have hopen := ((latin1_of_ascii (hmark (lit "<") (by simp))).append hname).append
      (latin1_flatMap fun a ha => latin1_serAttr (hattrs a ha) (hvalues a ha))
    have hkids := latin1_serNodes fun k hk => ih k hk (hkidsShaped k hk) (hkidsLatin1 k hk)
    rw [serNode]
    split_ifs
    · exact hopen.append (latin1_of_ascii (hmark _ (by simp)))
    · exact hopen.append ((((latin1_of_ascii (hmark _ (by simp))).append hkids).append
        (latin1_of_ascii (hmark _ (by simp)))).append hname |>.append
        (latin1_of_ascii (hmark _ (by simp))))

end BoatRudder.Utils
