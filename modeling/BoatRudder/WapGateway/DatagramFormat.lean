import BoatRudder.WapGateway.Datagram

/-! # What a datagram holds

The format of the datagrams that `handle_datagram` takes, and that its readers find in a buffer
exactly what the format says. -/

namespace BoatRudder.WapGateway

open Traced

variable {ct s t : Bytes} {framing : Framing} {v : ℕ}
variable {d : Memory} {n stop pos : ℕ}

/-! ## What an integer is -/

/-- The value of the bytes of an integer, `v` before them. -/
def uintvarValue (v : ℕ) (s : Bytes) : ℕ := s.foldl (fun v b => v * 128 + b.toNat % 128) v

/-- The bytes of an integer: at most five, the last of them below 128 and no other. -/
def IsUintvar (s : Bytes) (v : ℕ) : Prop :=
  ∃ more last, s = more ++ [last] ∧ more.length < 5 ∧ (∀ b ∈ more, 128 ≤ b) ∧ last < 128 ∧
    uintvarValue 0 s = v

/-- A byte below 128 counts whole. -/
theorem toNat_mod_of_lt {b : UInt8} (h : b < 128) : b.toNat % 128 = b.toNat := by
  have : b.toNat < 128 := by simpa [UInt8.lt_iff_toNat_lt] using h
  omega

/-- The loop of `read_uintvar` reads the bytes of an integer. -/
theorem readUintvarLoop_of_bytes {more : Bytes} {last : UInt8} (k v : ℕ) (hk : more.length < k)
    (hmore : ∀ b ∈ more, 128 ≤ b) (hlast : last < 128)
    (hbytes : d.bytes pos (more.length + 1) = more ++ [last]) (hn : pos + more.length < n) :
    ∃ p, (readUintvarLoop d n k pos v).result = some (uintvarValue v (more ++ [last]), p) ∧
      p.1 = pos + more.length + 1 := by
  induction more generalizing k v pos with
  | nil =>
    obtain ⟨k, rfl⟩ : ∃ m, k = m + 1 := ⟨k - 1, by simp at hk; omega⟩
    obtain ⟨hpos, -, -⟩ := Memory.bytes_eq_cons.mp hbytes
    have hlt : ¬ n ≤ pos := by simp at hn; omega
    refine ⟨⟨pos + 1, by omega⟩, ?_, rfl⟩
    rw [readUintvarLoop, dif_neg hlt]
    refine result_bind_eq_some.mpr ⟨d pos, rfl, ?_⟩
    rw [hpos, if_pos hlast]
    simp [uintvarValue, toNat_mod_of_lt hlast]
  | cons b more ih =>
    obtain ⟨k, rfl⟩ : ∃ m, k = m + 1 := ⟨k - 1, by simp at hk; omega⟩
    rw [List.length_cons] at hk hn hbytes
    rw [List.cons_append] at hbytes
    obtain ⟨hpos, hrest, -⟩ := Memory.bytes_eq_cons.mp hbytes
    rw [List.length_append, List.length_singleton] at hrest
    have hlt : ¬ n ≤ pos := by omega
    have hb : ¬ b < 128 := by simpa using hmore b (by simp)
    obtain ⟨p, hp, hend⟩ := ih k (v * 128 + b.toNat % 128) (by omega)
      (fun c hc => hmore c (by simp [hc])) hrest (by omega)
    refine ⟨p.weaken (Nat.le_succ pos), ?_, ?_⟩
    · rw [readUintvarLoop, dif_neg hlt]
      refine result_bind_eq_some.mpr ⟨d pos, rfl, ?_⟩
      rw [hpos, if_neg hb]
      exact result_bind_eq_some.mpr ⟨_, hp, rfl⟩
    · rw [List.length_cons]
      change p.1 = _
      omega

/-- `read_uintvar` returns only past the bytes of an integer. -/
theorem bytes_of_readUintvarLoop {k : ℕ} {r : ℕ × After pos n}
    (h : (readUintvarLoop d n k pos v).result = some r) :
    ∃ more last, d.bytes pos (r.2.1 - pos) = more ++ [last] ∧ more.length < k ∧
      (∀ b ∈ more, 128 ≤ b) ∧ last < 128 ∧ uintvarValue v (more ++ [last]) = r.1 := by
  induction k generalizing pos v with
  | zero => cases h
  | succ k ih =>
    rw [readUintvarLoop] at h
    split at h
    · cases h
    · next hlt =>
        obtain ⟨c, hc, h⟩ := result_bind_eq_some.mp h
        obtain rfl : d pos = c := Option.some.inj hc
        split at h
        · next hlast =>
            obtain rfl := Option.some.inj h
            refine ⟨[], d pos, ?_, Nat.succ_pos k, by simp, hlast, ?_⟩
            · simp [Memory.bytes]
            · simp [uintvarValue, toNat_mod_of_lt hlast]
        · next hmore =>
            obtain ⟨r', hr', h⟩ := result_bind_eq_some.mp h
            obtain rfl := Option.some.inj h
            obtain ⟨more, last, hbytes, hk, hall, hlast, hval⟩ := ih hr'
            have hlt' : pos + 1 < r'.2.1 := r'.2.2.1
            refine ⟨d pos :: more, last, ?_, by simpa using hk, ?_, hlast, hval⟩
            · change d.bytes pos (r'.2.1 - pos) = _
              have hlen : r'.2.1 - pos = (r'.2.1 - (pos + 1)) + 1 := by omega
              rw [hlen, Memory.bytes_succ, hbytes]
              rfl
            · simpa using ⟨by simpa using hmore, hall⟩

/-- `read_uintvar` reads the bytes of an integer where it stands. -/
theorem readUintvar_of_bytes (h : IsUintvar s v)
    (hbytes : d.bytes pos s.length = s) (hn : pos + s.length ≤ n) :
    ∃ p, (readUintvar d n pos).result = some (v, p) ∧ p.1 = pos + s.length := by
  obtain ⟨more, last, rfl, hlen, hmore, hlast, rfl⟩ := h
  rw [List.length_append, List.length_singleton] at hbytes hn
  have hlt : pos + more.length < n := by omega
  obtain ⟨p, hp, hend⟩ := readUintvarLoop_of_bytes 5 0 hlen hmore hlast hbytes hlt
  exact ⟨p, hp, by rw [hend, List.length_append, List.length_singleton, Nat.add_assoc]⟩

/-- What `read_uintvar` returns is an integer, and ends where it says. -/
theorem bytes_of_readUintvar {r : ℕ × After pos n} (h : (readUintvar d n pos).result = some r) :
    IsUintvar (d.bytes pos (r.2.1 - pos)) r.1 := by
  obtain ⟨more, last, hbytes, hlen, hmore, hlast, hval⟩ := bytes_of_readUintvarLoop h
  exact ⟨more, last, hbytes, hlen, hmore, hlast, by rw [hbytes, hval]⟩

/-! ## Values -/

/-- The bytes of a value's length: one up to 30, or 31 and an integer. -/
def IsValueLength (s : Bytes) (len : ℕ) : Prop :=
  (∃ b : UInt8, s = [b] ∧ b < 31 ∧ b.toNat = len) ∨ ∃ t, s = 31 :: t ∧ IsUintvar t len

/-- A length that is read is one, and ends where it says. -/
theorem bytes_of_valueLength {h : pos < stop} {r : ℕ × After pos stop} (hb : d pos ≤ 31)
    (hr : (valueLength d stop pos (d pos) h).result = some r) :
    IsValueLength (d.bytes pos (r.2.1 - pos)) r.1 := by
  rw [valueLength] at hr
  split at hr
  · next hquoted =>
      obtain ⟨r', hr', hr⟩ := result_bind_eq_some.mp hr
      obtain rfl := Option.some.inj hr
      have hlt := r'.2.2.1
      have hval := bytes_of_readUintvar hr'
      refine Or.inr ⟨_, ?_, hval⟩
      change d.bytes pos (r'.2.1 - pos) = _
      have hlen : r'.2.1 - pos = (r'.2.1 - (pos + 1)) + 1 := by omega
      rw [hlen, Memory.bytes_succ, hquoted]
  · next hshort =>
      obtain rfl := Option.some.inj hr
      refine Or.inl ⟨d pos, ?_, ?_, rfl⟩
      · simp [Memory.bytes]
      · grind

/-- A length is read where it stands. -/
theorem valueLength_of_bytes {len : ℕ} (hs : IsValueLength s len)
    (hbytes : d.bytes pos s.length = s) (hstop : pos + s.length ≤ stop) (h : pos < stop) :
    d pos ≤ 31 ∧ ∃ p, (valueLength d stop pos (d pos) h).result = some (len, p) ∧
      p.1 = pos + s.length := by
  rcases hs with ⟨b, rfl, hb, rfl⟩ | ⟨t, rfl, ht⟩
  · obtain ⟨rfl, -, -⟩ := Memory.bytes_eq_cons.mp hbytes
    refine ⟨by grind, ⟨pos + 1, by omega⟩, ?_, rfl⟩
    have hne : d pos ≠ 31 := by grind
    rw [valueLength, if_neg hne]
    rfl
  · obtain ⟨hquoted, hbytes, -⟩ := Memory.bytes_eq_cons.mp hbytes
    rw [List.length_cons] at hstop
    have hfit : pos + 1 + t.length ≤ stop := by omega
    obtain ⟨p, hp, hend⟩ := readUintvar_of_bytes ht hbytes hfit
    refine ⟨by rw [hquoted]; decide, p.weaken (Nat.le_succ pos), ?_, ?_⟩
    · rw [valueLength, if_pos hquoted]
      exact result_bind_eq_some.mpr ⟨_, hp, rfl⟩
    · rw [List.length_cons]
      change p.1 = _
      omega

/-- A text: it starts with a byte that is no length and no code, and holds no NUL. -/
def IsText (t : Bytes) : Prop := 0 ∉ t ∧ ∃ b, t.head? = some b ∧ 31 < b ∧ b < 128

/-- The first byte of a text that is there. -/
theorem head_of_text (ht : IsText t) (hbytes : d.bytes pos (t.length + 1) = t ++ [0]) :
    31 < d pos ∧ d pos < 128 := by
  obtain ⟨-, b, hb, hrange⟩ := ht
  cases t with
  | nil => cases hb
  | cons c t =>
    obtain rfl : c = b := Option.some.inj hb
    rw [List.cons_append] at hbytes
    rwa [(Memory.bytes_eq_cons.mp hbytes).1]

/-- `memchr` finds the end of a string that is there. -/
theorem memchrNul_of_bytes {count : ℕ} (ht : 0 ∉ t)
    (hbytes : d.bytes pos (t.length + 1) = t ++ [0]) (hcount : t.length < count) :
    ∃ len, (memchrNul d count pos).result = some len ∧ len.1 = t.length := by
  induction t generalizing pos count with
  | nil =>
    obtain ⟨k, rfl⟩ : ∃ k, count = k + 1 := ⟨count - 1, by simp at hcount; omega⟩
    obtain ⟨hnul, -, -⟩ := Memory.bytes_eq_cons.mp hbytes
    refine ⟨⟨0, Nat.succ_pos k⟩, ?_, rfl⟩
    rw [memchrNul]
    refine result_bind_eq_some.mpr ⟨d pos, rfl, ?_⟩
    rw [if_pos hnul]
    rfl
  | cons b t ih =>
    obtain ⟨k, rfl⟩ : ∃ k, count = k + 1 := ⟨count - 1, by simp at hcount; omega⟩
    rw [List.cons_append] at hbytes
    obtain ⟨rfl, hbytes, -⟩ := Memory.bytes_eq_cons.mp hbytes
    rw [List.length_append, List.length_singleton] at hbytes
    rw [List.length_cons] at hcount
    obtain ⟨len, hlen, heq⟩ := ih (fun h => ht (List.mem_cons_of_mem _ h)) hbytes
      (Nat.lt_of_succ_lt_succ hcount)
    refine ⟨⟨len.1 + 1, Nat.succ_lt_succ len.2⟩, ?_, by rw [List.length_cons, ← heq]⟩
    rw [memchrNul]
    refine result_bind_eq_some.mpr ⟨d pos, rfl, ?_⟩
    rw [if_neg fun h => ht (by simp [h])]
    exact result_bind_eq_some.mpr ⟨len, hlen, rfl⟩

/-- What `memchr` finds is the end of a string. -/
theorem bytes_of_memchrNul {count : ℕ} {len : {len : ℕ // len < count}}
    (h : (memchrNul d count pos).result = some len) :
    0 ∉ d.bytes pos len.1 ∧ d (pos + len.1) = 0 := by
  induction count generalizing pos with
  | zero => cases h
  | succ k ih =>
    rw [memchrNul] at h
    obtain ⟨b, hb, h⟩ := result_bind_eq_some.mp h
    obtain rfl : d pos = b := Option.some.inj hb
    split at h
    · next hnul =>
        obtain rfl := Option.some.inj h
        exact ⟨by simp, hnul⟩
    · next hne =>
        obtain ⟨len', hlen', h⟩ := result_bind_eq_some.mp h
        obtain rfl := Option.some.inj h
        obtain ⟨hno, hnul⟩ := ih hlen'
        refine ⟨?_, by rw [← hnul]; congr 1; dsimp only; omega⟩
        rw [Memory.bytes_succ, List.mem_cons, not_or]
        exact ⟨fun h => hne h.symm, hno⟩

/-- A value that is copied is a text. -/
theorem bytes_of_wspValue {size : ℕ} {p : After pos stop}
    (h : (wspValue d stop pos size).result = some (some t, p)) :
    ∃ text, IsText text ∧ d.bytes pos (text.length + 1) = text ++ [0] ∧
      pos + text.length < stop ∧ t = text.take (size - 1) := by
  rw [wspValue] at h
  split at h
  · cases h
  · next hpos =>
      obtain ⟨b, hb, h⟩ := result_bind_eq_some.mp h
      obtain rfl : d pos = b := Option.some.inj hb
      split at h
      · cases h
      · next hcode =>
          split at h
          · obtain ⟨r, -, h⟩ := result_bind_eq_some.mp h
            split at h <;> cases h
          · next hlen =>
              obtain ⟨len, hnul, h⟩ := result_bind_eq_some.mp h
              obtain ⟨hno, hend⟩ := bytes_of_memchrNul hnul
              dsimp only at h
              split at h
              · cases h
              · obtain ⟨text, htext, h⟩ := result_bind_eq_some.mp h
                obtain rfl : d.bytes pos len.1 = text := Option.some.inj htext
                obtain ⟨rfl, -⟩ : (d.bytes pos len.1).take (size - 1) = t ∧ _ := by
                  simpa using h
                have hlt := len.2
                refine ⟨d.bytes pos len.1, ⟨hno, d pos, ?_, by grind, by grind⟩, ?_, ?_, rfl⟩
                · -- the first byte is not the NUL that ends the text
                  have hne : len.1 ≠ 0 := by
                    intro hzero
                    rw [hzero, Nat.add_zero] at hend
                    rw [hend] at hlen
                    exact hlen (by decide)
                  obtain ⟨k, hk⟩ := Nat.exists_eq_succ_of_ne_zero hne
                  rw [hk, Memory.bytes_succ]
                  rfl
                · rw [Memory.length_bytes, Memory.bytes_add, Memory.bytes_succ, hend]
                  rfl
                · rw [Memory.length_bytes]
                  omega

/-- A text is copied where it stands. -/
theorem wspValue_of_text {text : Bytes} {size : ℕ} (ht : IsText text)
    (hbytes : d.bytes pos (text.length + 1) = text ++ [0]) (hstop : pos + text.length < stop) :
    ∃ p : After pos stop, p.1 = pos + text.length + 1 ∧ (wspValue d stop pos size).result =
      some (if size = 0 then none else some (text.take (size - 1)), p) := by
  have hhead := head_of_text ht hbytes
  obtain ⟨len, hlen, heq⟩ := memchrNul_of_bytes ht.1 hbytes (by omega : text.length < stop - pos)
  have htext : d.bytes pos len.1 = text := by
    rw [heq]
    exact (Memory.bytes_eq_append.mp hbytes).1
  refine ⟨⟨pos + len.1 + 1, by omega⟩, by dsimp only; omega, ?_⟩
  rw [wspValue, dif_neg (by omega)]
  refine result_bind_eq_some.mpr ⟨d pos, rfl, ?_⟩
  rw [if_neg (by grind), if_neg (by grind)]
  refine result_bind_eq_some.mpr ⟨len, hlen, ?_⟩
  dsimp only
  split
  · rfl
  · exact result_bind_eq_some.mpr ⟨text, by rw [readBytes, htext], rfl⟩

/-! ## The content type of a post -/

/-- The media type of a content type stands at its start, or behind a length that covers it. -/
theorem bytes_of_wspContentType {r : ℕ × After 0 stop}
    (h : (wspContentType d stop).result = some r) :
    r.1 = 0 ∨ r.1 ≤ r.2.1 ∧ IsValueLength (d.bytes 0 r.1) (r.2.1 - r.1) := by
  rw [wspContentType] at h
  split at h
  · cases h
  · next hstop =>
      obtain ⟨b, hb, h⟩ := result_bind_eq_some.mp h
      obtain rfl : d 0 = b := Option.some.inj hb
      split at h
      · next hshort =>
          obtain ⟨len, hlen, h⟩ := result_bind_eq_some.mp h
          split at h
          · cases h
          · obtain rfl := Option.some.inj h
            have hval := bytes_of_valueLength hshort hlen
            refine Or.inr ⟨Nat.le_add_right _ _, ?_⟩
            simpa using hval
      · obtain ⟨r', -, h⟩ := result_bind_eq_some.mp h
        obtain rfl := Option.some.inj h
        exact Or.inl rfl

/-- A length at the start of a block that covers the rest leads to what is behind it. -/
theorem wspContentType_of_length {len : ℕ} (hs : IsValueLength s len)
    (hbytes : d.bytes 0 s.length = s) (hstop : s.length + len ≤ stop) :
    ∃ r, (wspContentType d stop).result = some r ∧ r.1 = s.length ∧ r.2.1 = s.length + len := by
  have hpos : 0 < s.length := by
    rcases hs with ⟨b, rfl, -⟩ | ⟨t, rfl, -⟩ <;> simp
  have hfit : 0 + s.length ≤ stop := by omega
  have hlt : 0 < stop := by omega
  obtain ⟨hshort, p, hp, hend⟩ := valueLength_of_bytes hs hbytes hfit hlt
  rw [Nat.zero_add] at hend
  refine ⟨(p.1, ⟨p.1 + len, by omega⟩), ?_, hend, by rw [← hend]⟩
  rw [wspContentType, dif_neg (by omega)]
  refine result_bind_eq_some.mpr ⟨d 0, rfl, ?_⟩
  rw [if_pos hshort]
  refine result_bind_eq_some.mpr ⟨_, hp, ?_⟩
  dsimp only
  rw [dif_neg (by omega)]
  rfl

/-- A text is its own media type. -/
theorem wspContentType_of_text (ht : IsText ct)
    (hbytes : d.bytes 0 (ct.length + 1) = ct ++ [0]) (hstop : ct.length < stop) :
    ∃ r, (wspContentType d stop).result = some r ∧ r.1 = 0 ∧ r.2.1 = ct.length + 1 := by
  have hfit : 0 + ct.length < stop := by omega
  obtain ⟨p, hend, hp⟩ := wspValue_of_text ht hbytes hfit
  have hlong : ¬ d 0 ≤ 31 := by
    have := head_of_text ht hbytes
    grind
  refine ⟨(0, p), ?_, rfl, by rw [hend, Nat.zero_add]⟩
  rw [wspContentType, dif_neg (by omega)]
  refine result_bind_eq_some.mpr ⟨d 0, rfl, ?_⟩
  rw [if_neg hlong]
  exact result_bind_eq_some.mpr ⟨_, hp, rfl⟩

/-- A header block whose content type is the text `ct`: as it stands, or first in a general form. -/
def HasTextType (block ct : Bytes) : Prop :=
  IsText ct ∧ ((∃ rest, block = ct ++ 0 :: rest) ∨
    ∃ len params rest, block = len ++ (ct ++ 0 :: params ++ rest) ∧
      IsValueLength len (ct ++ 0 :: params).length)

/-- The content types that are not of the phone's own wording. -/
def knownTypes : List Bytes := lit "application/octet-stream" :: wspTypes.map Prod.snd

/-- A text media type is copied. -/
theorem wspMedia_of_text {media after : ℕ} (ht : IsText ct)
    (hbytes : d.bytes media (ct.length + 1) = ct ++ [0]) (hafter : media + ct.length < after) :
    (wspMedia d media after).result = some (ct.take (contentTypeSize - 1)) := by
  obtain ⟨p, -, hp⟩ := wspValue_of_text ht hbytes hafter
  have hcode : ¬ 128 ≤ d media := by
    have := head_of_text ht hbytes
    grind
  refine result_bind_eq_some.mpr ⟨d media, rfl, ?_⟩
  rw [if_neg hcode]
  exact result_bind_eq_some.mpr ⟨_, hp, rfl⟩

/-- What is copied of a media type is a known one, or a text. -/
theorem bytes_of_wspMedia {media after : ℕ} (h : (wspMedia d media after).result = some t) :
    (t = [] ∨ t ∈ wspTypes.map Prod.snd) ∨ ∃ ct, IsText ct ∧
      d.bytes media (ct.length + 1) = ct ++ [0] ∧ media + ct.length < after ∧
      t = ct.take (contentTypeSize - 1) := by
  obtain ⟨b, hb, h⟩ := result_bind_eq_some.mp h
  obtain rfl : d media = b := Option.some.inj hb
  split at h
  · obtain rfl := Option.some.inj h
    left
    cases hlookup : wspTypes.lookup (d media % 128) with
    | none => exact Or.inl rfl
    | some t =>
      obtain ⟨l, r, happ, -⟩ := List.lookup_eq_some_iff.mp hlookup
      refine Or.inr (List.mem_map.mpr ⟨(d media % 128, t), ?_, rfl⟩)
      rw [happ]
      simp
  · obtain ⟨⟨v, p⟩, hv, h⟩ := result_bind_eq_some.mp h
    obtain rfl := Option.some.inj h
    cases v with
    | none => exact Or.inl (Or.inl rfl)
    | some v => exact Or.inr (bytes_of_wspValue hv)

/-- The content type of a post is known, or the text its header block has. -/
theorem contentType_of_wspPostHeaders {headers : PostHeaders}
    (h : (wspPostHeaders d stop).result = some headers) :
    headers.contentType ∈ knownTypes ∨ ∃ ct, HasTextType (d.bytes 0 stop) ct ∧
      headers.contentType = ct.take (contentTypeSize - 1) := by
  obtain ⟨r, hr, h⟩ := result_bind_eq_some.mp h
  obtain ⟨media, hmedia, h⟩ := result_bind_eq_some.mp h
  obtain ⟨ua, -, h⟩ := result_bind_eq_some.mp h
  obtain rfl := Option.some.inj h
  dsimp only
  split
  · exact Or.inl (by simp [knownTypes])
  · next hne =>
      rcases bytes_of_wspMedia hmedia with (hnil | hknown) | ⟨ct, ht, hbytes, hlt, rfl⟩
      · exact absurd hnil hne
      · exact Or.inl (List.mem_cons_of_mem _ hknown)
      · refine Or.inr ⟨ct, ⟨ht, ?_⟩, rfl⟩
        have hstop := r.2.2.2
        rcases bytes_of_wspContentType hr with hzero | ⟨hle, hlen⟩
        · left
          rw [hzero] at hbytes hlt
          refine ⟨d.bytes (ct.length + 1) (stop - (ct.length + 1)), ?_⟩
          have hsplit := d.bytes_split (Nat.zero_le (ct.length + 1)) (by omega : _ ≤ stop)
          rw [Nat.sub_zero, Nat.sub_zero, hbytes] at hsplit
          rw [hsplit]
          simp
        · right
          refine ⟨d.bytes 0 r.1, d.bytes (r.1 + ct.length + 1) (r.2.1 - (r.1 + ct.length + 1)),
            d.bytes r.2.1 (stop - r.2.1), ?_, ?_⟩
          · have h1 := d.bytes_split (Nat.zero_le r.1) (by omega : r.1 ≤ stop)
            have h2 := d.bytes_split hle hstop
            have h3 := d.bytes_split (by omega : r.1 ≤ r.1 + ct.length + 1)
              (by omega : r.1 + ct.length + 1 ≤ r.2.1)
            have hsub : r.1 + ct.length + 1 - r.1 = ct.length + 1 := by omega
            rw [hsub, hbytes] at h3
            rw [h3] at h2
            rw [Nat.sub_zero, Nat.sub_zero, h2] at h1
            rw [h1]
            simp
          · have hcover : (ct ++ 0 :: d.bytes (r.1 + ct.length + 1)
                (r.2.1 - (r.1 + ct.length + 1))).length = r.2.1 - r.1 := by
              rw [List.length_append, List.length_cons, Memory.length_bytes]
              omega
            rwa [hcover]

/-- A text content type is what the post has. -/
theorem contentType_of_hasTextType {headers : PostHeaders}
    (h : (wspPostHeaders d stop).result = some headers) (ht : HasTextType (d.bytes 0 stop) ct) :
    headers.contentType = ct.take (contentTypeSize - 1) := by
  obtain ⟨r, hr, h⟩ := result_bind_eq_some.mp h
  obtain ⟨media, hmedia, h⟩ := result_bind_eq_some.mp h
  obtain ⟨ua, -, h⟩ := result_bind_eq_some.mp h
  obtain rfl := Option.some.inj h
  obtain ⟨htext, ht⟩ := ht
  have hcopied : media = ct.take (contentTypeSize - 1) := by
    suffices hat : d.bytes r.1 (ct.length + 1) = ct ++ [0] ∧ r.1 + ct.length < r.2.1 from
      Option.some.inj (hmedia.symm.trans (wspMedia_of_text htext hat.1 hat.2))
    rcases ht with ⟨rest, hblock⟩ | ⟨len, params, rest, hblock, hlen⟩
    · have happ : ct ++ 0 :: rest = (ct ++ [0]) ++ rest := by simp
      rw [happ] at hblock
      obtain ⟨hbytes, -, hstop⟩ := Memory.bytes_eq_append.mp hblock
      rw [List.length_append, List.length_singleton] at hbytes hstop
      have hlt : ct.length < stop := by omega
      obtain ⟨r', hr', hmediaAt, hend⟩ := wspContentType_of_text htext hbytes hlt
      obtain rfl : r = r' := Option.some.inj (hr.symm.trans hr')
      rw [hmediaAt]
      exact ⟨hbytes, by omega⟩
    · obtain ⟨hlenAt, hvalue, hstop⟩ := Memory.bytes_eq_append.mp hblock
      have happ : ct ++ 0 :: params ++ rest = (ct ++ [0]) ++ (params ++ rest) := by simp
      rw [Nat.zero_add, happ] at hvalue
      obtain ⟨hbytes, -, -⟩ := Memory.bytes_eq_append.mp hvalue
      rw [List.length_append, List.length_singleton] at hbytes
      rw [List.length_append] at hstop
      have hfit : len.length + (ct ++ 0 :: params).length ≤ stop := by omega
      obtain ⟨r', hr', hmediaAt, hend⟩ := wspContentType_of_length hlen hlenAt hfit
      obtain rfl : r = r' := Option.some.inj (hr.symm.trans hr')
      rw [List.length_append, List.length_cons] at hend
      rw [hmediaAt]
      exact ⟨hbytes, by omega⟩
  have hne : media ≠ [] := by
    obtain ⟨-, b, hb, -⟩ := htext
    rw [hcopied]
    cases ct with
    | nil => cases hb
    | cons c ct => exact List.cons_ne_nil _ _
  dsimp only
  rw [if_neg hne, hcopied]

/-! ## The datagram -/

/-- What stands before the PDU: the header of a WTP Invoke, or a TID byte. -/
def IsPduHeader : Framing → Bytes → Prop
  | .rover, tid => ∃ b rest, tid = b :: rest ∧ rest.length = 3 ∧ b / 8 % 16 = 1
  | .wsp, tid => tid.length = 1

/-- A request of type `type`: the length of its URI, for a post the length of its header block, then
the URI, the block and what follows. -/
def IsRequest (framing : Framing) (datagram : Bytes) (type : UInt8) (uri block rest : Bytes) : Prop :=
  ∃ tid uriLen headersLen : Bytes,
    datagram = tid ++ type :: (uriLen ++ (headersLen ++ (uri ++ (block ++ rest)))) ∧
    IsPduHeader framing tid ∧ isRequestType type = true ∧ IsUintvar uriLen uri.length ∧
    (if type = 0x60 then IsUintvar headersLen block.length else headersLen = [] ∧ block = []) ∧
    0 < uri.length ∧ uri.length ≤ 1000

/-- An integer has a byte. -/
theorem IsUintvar.length_pos (h : IsUintvar s v) : 0 < s.length := by
  obtain ⟨more, last, rfl, -⟩ := h
  simp

/-- Where the PDU is, its header stands before it, and there is a byte of it. -/
theorem pduAt_of_result {at_ : ℕ} (h : (pduAt framing d n).result = some at_) :
    IsPduHeader framing (d.bytes 0 at_) ∧ at_ < n := by
  cases framing with
  | rover =>
    simp only [pduAt] at h
    split at h
    · cases h
    · next hn =>
        obtain ⟨b, hb, h⟩ := result_bind_eq_some.mp h
        obtain rfl : d 0 = b := Option.some.inj hb
        split at h
        · cases h
        · next htype =>
            obtain rfl : 4 = at_ := Option.some.inj h
            exact ⟨⟨d 0, d.bytes 1 3, rfl, rfl, not_not.mp htype⟩, by omega⟩
  | wsp =>
    simp only [pduAt] at h
    split at h
    · cases h
    · next hn =>
        obtain rfl : 1 = at_ := Option.some.inj h
        exact ⟨rfl, by omega⟩

/-- A header of a PDU with enough behind it is found. -/
theorem pduAt_of_header {tid : Bytes} (h : IsPduHeader framing tid)
    (hbytes : d.bytes 0 tid.length = tid) (hn : tid.length + 2 ≤ n) :
    (pduAt framing d n).result = some tid.length := by
  cases framing with
  | rover =>
    obtain ⟨b, rest, rfl, hlen, htype⟩ := h
    rw [List.length_cons, hlen] at hn hbytes
    obtain ⟨hb, -, -⟩ := Memory.bytes_eq_cons.mp hbytes
    rw [pduAt, if_neg (by omega)]
    refine result_bind_eq_some.mpr ⟨d 0, rfl, ?_⟩
    rw [hb, if_neg (not_not.mpr htype), List.length_cons, hlen]
    rfl
  | wsp =>
    have hlen : tid.length = 1 := h
    rw [hlen] at hn
    rw [pduAt, if_neg (by omega), hlen]
    rfl

/-- The length of a header block is where a post announces it. -/
theorem bytes_of_headersLength {type : UInt8} {u : After pos n} {l : ℕ × After pos n}
    (h : (headersLength d n pos type u).result = some l) :
    u.1 ≤ l.2.1 ∧
      if type = 0x60 then IsUintvar (d.bytes u.1 (l.2.1 - u.1)) l.1 else l.2.1 = u.1 ∧ l.1 = 0 := by
  rw [headersLength] at h
  split at h
  · next htype =>
      obtain ⟨r, hr, h⟩ := result_bind_eq_some.mp h
      obtain rfl := Option.some.inj h
      rw [if_pos htype]
      exact ⟨r.2.2.1.le, bytes_of_readUintvar hr⟩
  · next htype =>
      obtain rfl := Option.some.inj h
      rw [if_neg htype]
      exact ⟨le_rfl, rfl, rfl⟩

/-- Only a post has a header block. -/
theorem headersLen_of_datagramHead {head : DatagramHead}
    (h : (datagramHead framing d n).result = some head) (htype : head.type ≠ 0x60) :
    head.headersLen = 0 := by
  obtain ⟨w, -, h⟩ := result_bind_eq_some.mp h
  obtain ⟨type, -, h⟩ := result_bind_eq_some.mp h
  split at h
  · cases h
  · obtain ⟨u, -, h⟩ := result_bind_eq_some.mp h
    obtain ⟨l, hl, h⟩ := result_bind_eq_some.mp h
    dsimp only at h
    split at h
    · cases h
    · obtain rfl := Option.some.inj h
      have hnone := (bytes_of_headersLength hl).2
      rw [if_neg htype] at hnone
      exact hnone.2

/-- The head that `handle_datagram` reads is that of a request. -/
theorem isRequest_of_datagramHead {head : DatagramHead}
    (h : (datagramHead framing d n).result = some head)
    (hfit : head.headersLen ≤ n - head.headersAt) :
    head.headersAt ≤ n ∧ ∃ uri, head.uri = cstr uri ∧
      IsRequest framing (d.bytes 0 n) head.type uri (d.bytes head.headersAt head.headersLen)
        (d.bytes (head.headersAt + head.headersLen) (n - (head.headersAt + head.headersLen))) := by
  obtain ⟨w, hw, h⟩ := result_bind_eq_some.mp h
  obtain ⟨htid, hwn⟩ := pduAt_of_result hw
  obtain ⟨type, ht, h⟩ := result_bind_eq_some.mp h
  obtain rfl : d w = type := Option.some.inj ht
  split at h
  · cases h
  · next htype =>
      obtain ⟨u, hu, h⟩ := result_bind_eq_some.mp h
      obtain ⟨l, hl, h⟩ := result_bind_eq_some.mp h
      dsimp only at h
      split at h
      · cases h
      · next huri =>
          obtain rfl := Option.some.inj h
          dsimp only at hfit ⊢
          have hu' := bytes_of_readUintvar hu
          obtain ⟨hul, hl'⟩ := bytes_of_headersLength hl
          have hup := u.2.2
          have hlp := l.2.2
          refine ⟨by omega, d.bytes l.2.1 u.1, rfl, d.bytes 0 w, d.bytes (w + 1) (u.2.1 - (w + 1)),
            d.bytes u.2.1 (l.2.1 - u.2.1), ?_, htid, by simpa using htype, ?_, ?_, ?_, ?_⟩
          · -- the fields one after the other
            have h1 := d.bytes_split (Nat.zero_le w) hwn.le
            have h2 := d.bytes_succ w (n - (w + 1))
            have h3 := d.bytes_split hup.1.le hup.2
            have h4 := d.bytes_split hul hlp.2
            have h5 := d.bytes_split (Nat.le_add_right l.2.1 u.1) (by omega : l.2.1 + u.1 ≤ n)
            have h6 := d.bytes_split (Nat.le_add_right (l.2.1 + u.1) l.1)
              (by omega : l.2.1 + u.1 + l.1 ≤ n)
            rw [Nat.add_sub_cancel_left] at h5 h6
            have hsucc : n - (w + 1) + 1 = n - w := by omega
            rw [hsucc] at h2
            rw [← h6, ← h5, ← h4, ← h3, ← h2]
            simpa using h1
          · rw [Memory.length_bytes]
            exact hu'
          · rw [Memory.length_bytes]
            split at hl'
            · next hpost => rwa [if_pos hpost]
            · next hpost =>
                rw [if_neg hpost, hl'.1, hl'.2, Nat.sub_self]
                exact ⟨rfl, rfl⟩
          · rw [Memory.length_bytes]
            omega
          · rw [Memory.length_bytes]
            omega

/-- The head of a request is read as such, and its header block is where it says. -/
theorem datagramHead_of_isRequest {type : UInt8} {uri block rest : Bytes}
    (h : IsRequest framing (d.bytes 0 n) type uri block rest) :
    ∃ head, (datagramHead framing d n).result = some head ∧ head.type = type ∧
      head.uri = cstr uri ∧ head.headersLen = block.length ∧
      head.headersAt + head.headersLen ≤ n ∧ d.bytes head.headersAt head.headersLen = block := by
  obtain ⟨tid, lu, lh, hd, htid, htype, hlu, hlh, hpos, hmax⟩ := h
  -- where each field is in the buffer
  obtain ⟨htidAt, hd, hn⟩ := Memory.bytes_eq_append.mp hd
  rw [Nat.zero_add, List.length_cons] at hd
  obtain ⟨htypeAt, hd, -⟩ := Memory.bytes_eq_cons.mp hd
  obtain ⟨hluAt, hd, -⟩ := Memory.bytes_eq_append.mp hd
  obtain ⟨hlhAt, hd, -⟩ := Memory.bytes_eq_append.mp hd
  obtain ⟨huriAt, hd, -⟩ := Memory.bytes_eq_append.mp hd
  obtain ⟨hblockAt, hd, -⟩ := Memory.bytes_eq_append.mp hd
  simp only [List.length_append, List.length_cons] at hn
  have hlup := hlu.length_pos
  have hlun : tid.length + 1 + lu.length ≤ n := by omega
  obtain ⟨p, hp, hpend⟩ := readUintvar_of_bytes hlu hluAt hlun
  rw [← hpend] at hlhAt huriAt hblockAt
  have hl : ∃ q : After (tid.length + 1) n, q.1 = p.1 + lh.length ∧
      (headersLength d n (tid.length + 1) type p).result = some (block.length, q) := by
    rw [headersLength]
    split at hlh
    · next hpost =>
        have hlhn : p.1 + lh.length ≤ n := by omega
        obtain ⟨q, hq, hqend⟩ := readUintvar_of_bytes hlh hlhAt hlhn
        refine ⟨q.weaken p.2.1.le, hqend, ?_⟩
        rw [if_pos hpost]
        exact result_bind_eq_some.mpr ⟨_, hq, rfl⟩
    · next hpost =>
        refine ⟨p, by rw [hlh.1]; rfl, ?_⟩
        rw [if_neg hpost, hlh.2]
        rfl
  obtain ⟨q, hqend, hq⟩ := hl
  rw [← hqend] at huriAt hblockAt
  refine ⟨⟨type, cstr uri, q.1 + uri.length, block.length⟩, ?_, rfl, rfl, rfl, ?_, hblockAt⟩
  · refine result_bind_eq_some.mpr ⟨tid.length, pduAt_of_header htid htidAt (by omega), ?_⟩
    refine result_bind_eq_some.mpr ⟨type, by rw [← htypeAt]; rfl, ?_⟩
    rw [if_neg (by simpa using htype)]
    refine result_bind_eq_some.mpr ⟨(uri.length, p), hp, ?_⟩
    refine result_bind_eq_some.mpr ⟨(block.length, q), hq, ?_⟩
    dsimp only
    rw [if_neg (by omega)]
    exact result_bind_eq_some.mpr ⟨uri, by rw [readBytes, huriAt], rfl⟩
  · dsimp only
    omega

end BoatRudder.WapGateway
