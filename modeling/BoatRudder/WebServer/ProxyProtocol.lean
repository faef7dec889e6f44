import BoatRudder.WebServer.InetAddress
import Mathlib.Data.List.GetD

/-! # The PROXY protocol

`proxy_protocol_parse` reads the header a front puts before the client's own bytes, in either of its
two formats, out of what has arrived so far. What it decides on a buffer it decides on every longer
one. -/

namespace BoatRudder.WebServer

/-! ## The header -/

/-- `ProxyParseStatus`. -/
inductive ProxyParseStatus where
  | none
  | incomplete
  | invalid
  | ok
  deriving DecidableEq

/-- `ProxyHeader`. -/
structure ProxyHeader where
  /-- The bytes the header occupies. -/
  length : ℕ
  /-- Whether it names the client's address. -/
  hasSource : Bool
  /-- The client's address, as text. -/
  sourceIp : Bytes
  /-- The client's port. -/
  sourcePort : ℕ
  deriving DecidableEq

/-- The header `proxy_protocol_parse` starts from. -/
def ProxyHeader.zero : ProxyHeader := ⟨0, false, [], 0⟩

/-- `PROXY_V2_MAX_PAYLOAD`. -/
def proxyV2MaxPayload : ℕ := 512

/-- `PROXY_HEADER_MAX`. -/
def proxyHeaderMax : ℕ := 16 + proxyV2MaxPayload

/-- `V2_SIGNATURE`. -/
def v2Signature : Bytes :=
  [0x0D, 0x0A, 0x0D, 0x0A, 0x00, 0x0D, 0x0A, 0x51, 0x55, 0x49, 0x54, 0x0A]

/-- `V1_PREFIX`. -/
def v1Prefix : Bytes := lit "PROXY "

/-- `V1_MAX_LEN`. -/
def v1MaxLen : ℕ := 107

/-- What a parse says: the status, and what it left in the header. -/
abbrev ProxyParse := ProxyParseStatus × ProxyHeader

/-- Byte `i` of a buffer that has one. -/
def byteAt (buf : Bytes) (i : ℕ) : ℕ := (buf.getD i 0).toNat

/-- `parse_v2`. -/
def parseV2 (buf : Bytes) : ProxyParse :=
  let version := byteAt buf 12 / 16
  let command := byteAt buf 12 % 16
  let family := byteAt buf 13 / 16
  let proto := byteAt buf 13 % 16
  let payload := byteAt buf 14 * 256 + byteAt buf 15
  let header := { ProxyHeader.zero with length := 16 + payload }
  let source := fun (ip : Bytes) (port : ℕ) =>
    { header with hasSource := true, sourceIp := ip, sourcePort := port }
  if buf.length < 16 then (.incomplete, .zero)
  else if version ≠ 2 ∨ 1 < command ∨ proxyV2MaxPayload < payload then (.invalid, .zero)
  else if buf.length < 16 + payload then (.incomplete, .zero)
  else if command = 0 ∨ proto ≠ 1 ∨ (family ≠ 1 ∧ family ≠ 2) then (.ok, header)
  else if family = 1 then
    if payload < 12 then (.invalid, header)
    else (.ok, source (inetNtop4 ((buf.drop 16).take 4)) (byteAt buf 24 * 256 + byteAt buf 25))
  else if payload < 36 then (.invalid, header)
  else (.ok, source (inetNtop6 ((buf.drop 16).take 16)) (byteAt buf 48 * 256 + byteAt buf 49))

/-- `parse_port`. -/
def parsePort (s : Bytes) : Option ℕ :=
  if s = [] ∨ 5 < s.length then none
  else if s.head? = some 48 ∧ s.length ≠ 1 then none
  else if !s.all isDigit then none
  else if 65535 < digitsValue 10 0 s then none
  else some (digitsValue 10 0 s)

/-- The addresses and ports of a line: the source's address and port, when all four are well
formed. -/
def sourceOf (pton : Bytes → Option Bytes) (ntop : Bytes → Bytes) (src dst srcPort dstPort : Bytes) :
    Option (Bytes × ℕ) :=
  match pton src, pton dst, parsePort srcPort, parsePort dstPort with
  | some a, some _, some port, some _ => some (ntop a, port)
  | _, _, _, _ => none

/-- What a `parse_v1` line says, `header` having its length already. The fields have exactly one
space between them. -/
def parseLine (line : Bytes) (header : ProxyHeader) : ProxyParse :=
  let fields := (cstr line).splitOnP (· == 32)
  if fields[1]? = some (lit "UNKNOWN") then (.ok, header)
  else
    match fields with
    | [_, family, src, dst, srcPort, dstPort] =>
      let source :=
        if family = lit "TCP4" then sourceOf inetPton4 inetNtop4 src dst srcPort dstPort
        else if family = lit "TCP6" then sourceOf inetPton6 inetNtop6 src dst srcPort dstPort
        else none
      match source with
      | some (ip, port) =>
        (.ok, { header with hasSource := true, sourceIp := ip, sourcePort := port })
      | none => (.invalid, header)
    | _ => (.invalid, header)

/-- `parse_v1`. -/
def parseV1 (buf : Bytes) : ProxyParse :=
  match findSub [13, 10] (buf.take v1MaxLen) with
  | some i => parseLine (buf.take i) { ProxyHeader.zero with length := i + 2 }
  | none => if buf.length < v1MaxLen then (.incomplete, .zero) else (.invalid, .zero)

/-- `proxy_protocol_parse`. -/
def proxyProtocolParse (buf : Bytes) : ProxyParse :=
  if buf = [] then (.incomplete, .zero)
  else if v2Signature <+: buf then parseV2 buf
  else if v1Prefix <+: buf then parseV1 buf
  else if buf <+: v2Signature ∨ buf <+: v1Prefix then (.incomplete, .zero)
  else (.none, .zero)

/-- `proxy_protocol_format_v1`: the header, or nothing when `outSize` bytes do not hold it and its
NUL. A null address is no address. -/
def proxyProtocolFormatV1 (outSize : ℕ) (srcIp : Option Bytes) (srcPort : ℤ) (dstIp : Option Bytes)
    (dstPort : ℤ) : Option Bytes :=
  let valid := fun pton : Bytes → Option Bytes =>
    (srcIp.bind pton).isSome && (dstIp.bind pton).isSome
  let port := fun p : ℤ => 0 ≤ p && p ≤ 65535
  let family := if valid inetPton4 then some (lit "TCP4")
    else if valid inetPton6 then some (lit "TCP6") else none
  let line := match if port srcPort && port dstPort then family else none with
    | some f => lit "PROXY " ++ f ++ lit " " ++ srcIp.getD [] ++ lit " " ++ dstIp.getD [] ++ lit " " ++
        decimal srcPort.toNat ++ lit " " ++ decimal dstPort.toNat ++ lit "\r\n"
    | none => lit "PROXY UNKNOWN\r\n"
  if line.length < outSize then some line else none

/-! ## Parsing does not depend on what follows -/

/-- A byte of a buffer is there whatever follows it. -/
theorem byteAt_append {p : Bytes} {i : ℕ} (h : i < p.length) (t : Bytes) :
    byteAt (p ++ t) i = byteAt p i := by
  rw [byteAt, byteAt, List.getD_append _ _ _ _ h]

/-- A run of bytes of a buffer is there whatever follows it. -/
theorem take_drop_append {p : Bytes} {i n : ℕ} (h : i + n ≤ p.length) (t : Bytes) :
    ((p ++ t).drop i).take n = (p.drop i).take n := by
  rw [List.drop_append_of_le_length (by omega), List.take_append_of_le_length]
  rw [List.length_drop]
  omega

/-- A v2 header is judged by its own bytes. -/
theorem parseV2_append {p : Bytes} (h : (parseV2 p).1 ≠ .incomplete) (t : Bytes) :
    parseV2 (p ++ t) = parseV2 p := by
  have hlen : (p ++ t).length = p.length + t.length := List.length_append
  have h16 : ¬ p.length < 16 := fun h16 => h (by simp [parseV2, h16])
  have h12 := byteAt_append (by omega : 12 < p.length) t
  have h13 := byteAt_append (by omega : 13 < p.length) t
  have h14 := byteAt_append (by omega : 14 < p.length) t
  have h15 := byteAt_append (by omega : 15 < p.length) t
  simp only [parseV2] at h ⊢
  rw [h12, h13, h14, h15, if_neg h16, if_neg (by omega)]
  rw [if_neg h16] at h
  split
  · rfl
  · next hbad =>
      rw [if_neg hbad] at h
      have hfit : ¬ p.length < 16 + (byteAt p 14 * 256 + byteAt p 15) :=
        fun hfit => h (by rw [if_pos hfit])
      rw [if_neg hfit, if_neg (by omega)]
      split
      · rfl
      · split
        · split
          · rfl
          · rw [take_drop_append (by omega), byteAt_append (by omega), byteAt_append (by omega)]
        · split
          · rfl
          · rw [take_drop_append (by omega), byteAt_append (by omega), byteAt_append (by omega)]

/-- A v1 header is judged by its own line. -/
theorem parseV1_append {p : Bytes} (h : (parseV1 p).1 ≠ .incomplete) (t : Bytes) :
    parseV1 (p ++ t) = parseV1 p := by
  simp only [parseV1] at h ⊢
  cases hfind : findSub [13, 10] (p.take v1MaxLen) with
  | some i =>
    -- the line found ends inside `p`
    have hle := (findSub_add_le hfind).resolve_right (by simp)
    have hi : i ≤ p.length := by
      rw [List.length_take] at hle
      omega
    rw [List.take_append, findSub_append hfind]
    simp only [List.take_append_of_le_length hi]
  | none =>
    rw [hfind] at h
    have hlong : ¬ p.length < v1MaxLen := fun hlong => h (by simp [hlong])
    have hlong' : ¬ (p ++ t).length < v1MaxLen := by
      rw [List.length_append]
      omega
    rw [List.take_append_of_le_length (by omega), hfind]
    simp only [if_neg hlong, if_neg hlong']

/-- A prefix of the first string is one of the whole. -/
theorem append_of_start {a p : Bytes} (h : a <+: p) (t : Bytes) : a <+: p ++ t :=
  h.trans (List.prefix_append p t)

/-- Two strings the same buffer starts with are comparable. -/
theorem prefix_or_prefix_of_append {a p t : Bytes} (h : a <+: p ++ t) : a <+: p ∨ p <+: a :=
  List.prefix_or_prefix_of_prefix h (List.prefix_append p t)

/-- **What `proxy_protocol_parse` decides, it decides for every stream that goes on from there.** -/
theorem proxyProtocolParse_append {p : Bytes} (h : (proxyProtocolParse p).1 ≠ .incomplete)
    (t : Bytes) : proxyProtocolParse (p ++ t) = proxyProtocolParse p := by
  have hne : p ≠ [] := fun hp => h (by simp [proxyProtocolParse, hp])
  have hne' : p ++ t ≠ [] := by simp [hne]
  rw [proxyProtocolParse, if_neg hne] at h
  rw [proxyProtocolParse, proxyProtocolParse, if_neg hne, if_neg hne']
  by_cases hv2 : v2Signature <+: p
  · rw [if_pos hv2] at h
    rw [if_pos hv2, if_pos (append_of_start hv2 t), parseV2_append h]
  rw [if_neg hv2] at h
  by_cases hv1 : v1Prefix <+: p
  · rw [if_pos hv1] at h
    -- no buffer starts with both signatures
    have hno : ¬ v2Signature <+: p ++ t := by
      intro hboth
      have := List.prefix_of_prefix_length_le (append_of_start hv1 t) hboth (by decide)
      exact absurd this (by decide)
    rw [if_neg hv2, if_pos hv1, if_neg hno, if_pos (append_of_start hv1 t),
      parseV1_append h]
  rw [if_neg hv1] at h
  have hshort : ¬ (p <+: v2Signature ∨ p <+: v1Prefix) := fun hshort => h (by rw [if_pos hshort])
  -- `p` has left both signatures already, so no continuation can start with one
  have hno2 : ¬ v2Signature <+: p ++ t := fun hpre =>
    (prefix_or_prefix_of_append hpre).elim hv2 fun hp => hshort (Or.inl hp)
  have hno1 : ¬ v1Prefix <+: p ++ t := fun hpre =>
    (prefix_or_prefix_of_append hpre).elim hv1 fun hp => hshort (Or.inr hp)
  have hlong : ¬ (p ++ t <+: v2Signature ∨ p ++ t <+: v1Prefix) := fun hlong =>
    hshort (hlong.imp (List.prefix_append p t).trans (List.prefix_append p t).trans)
  rw [if_neg hv2, if_neg hv1, if_neg hshort, if_neg hno2, if_neg hno1, if_neg hlong]

/-! ## When a header is complete -/

/-- An incomplete header leaves nothing. -/
theorem proxyProtocolParse_incomplete {b : Bytes} (h : (proxyProtocolParse b).1 = .incomplete) :
    proxyProtocolParse b = (.incomplete, .zero) := by
  unfold proxyProtocolParse parseV2 parseV1 parseLine at h ⊢
  grind

/-- A line is never incomplete. -/
theorem parseLine_ne_incomplete (line : Bytes) (header : ProxyHeader) :
    (parseLine line header).1 ≠ .incomplete := by
  unfold parseLine
  grind

/-- A buffer of the size the reader uses is always enough. -/
theorem proxyProtocolParse_ne_incomplete {b : Bytes} (h : proxyHeaderMax ≤ b.length) :
    (proxyProtocolParse b).1 ≠ .incomplete := by
  have hmax : proxyHeaderMax = 528 := rfl
  have hne : b ≠ [] := fun hb => by simp [hb, hmax] at h
  have hshort : ¬ (b <+: v2Signature ∨ b <+: v1Prefix) := by
    rintro (hpre | hpre)
    · have hle : b.length ≤ 12 := hpre.length_le
      omega
    · have hle : b.length ≤ 6 := hpre.length_le
      omega
  rw [proxyProtocolParse, if_neg hne, if_neg hshort]
  split
  · unfold parseV2
    have hpay : proxyV2MaxPayload = 512 := rfl
    grind
  · split
    · unfold parseV1
      have hlen : v1MaxLen = 107 := rfl
      have := parseLine_ne_incomplete
      grind
    · simp

end BoatRudder.WebServer
