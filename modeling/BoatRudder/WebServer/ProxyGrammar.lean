import BoatRudder.WebServer.InetRoundTrip
import BoatRudder.WebServer.ProxyProtocol

/-! # The grammar of PROXY lines

A line of the text format is accepted exactly when it is in the grammar, but for one that holds a NUL
(**`acceptedExactly_iff`**). The lines this server writes are in it, and are read back as long as they
fit the limit of the reader (**`readBack_iff`**). -/

namespace BoatRudder.WebServer

/-! ## The grammar -/

/-- A line that names a source: a family, and two addresses and two ports behind one space each. -/
def NamesSource (family : Bytes) (pton : Bytes → Option Bytes) (line a : Bytes) (port : ℕ) : Prop :=
  ∃ src dst dstPort,
    line = lit "PROXY " ++ family ++ 32 :: src ++ 32 :: dst ++ 32 :: decimal port ++ 32 :: decimal dstPort ∧
      pton src = some a ∧ (pton dst).isSome ∧ port ≤ 65535 ∧ dstPort ≤ 65535

/-- A line that names a source of one of the two families. -/
def NamesAny (line : Bytes) : Prop :=
  (∃ a port, NamesSource (lit "TCP4") inetPton4 line a port) ∨ ∃ a port, NamesSource (lit "TCP6") inetPton6 line a port

/-- A line that names none, whatever follows. -/
def UnknownLine (line : Bytes) : Prop := line = lit "PROXY UNKNOWN" ∨ lit "PROXY UNKNOWN " <+: line

/-- **What a buffer with this line is read as** is what the grammar says of the line. -/
structure AcceptedExactly (buf line : Bytes) : Prop where
  source : (proxyProtocolParse buf).1 = .ok ∧ (proxyProtocolParse buf).2.hasSource = true ↔ NamesAny line
  tcp4 : ∀ a port, NamesSource (lit "TCP4") inetPton4 line a port →
    inetPton4 (proxyProtocolParse buf).2.sourceIp = some a ∧ (proxyProtocolParse buf).2.sourcePort = port
  tcp6 : ∀ a port, NamesSource (lit "TCP6") inetPton6 line a port →
    inetPton6 (proxyProtocolParse buf).2.sourceIp = some a ∧ (proxyProtocolParse buf).2.sourcePort = port
  unknown : (proxyProtocolParse buf).1 = .ok ∧ (proxyProtocolParse buf).2.hasSource = false ↔ UnknownLine line
  otherwise : ¬ NamesAny line → ¬ UnknownLine line → (proxyProtocolParse buf).1 = .invalid

/-! ## Fields -/

/-- A port is a number as it is written, up to 65535. -/
theorem parsePort_eq_some_iff {s : Bytes} {p : ℕ} : parsePort s = some p ↔ p ≤ 65535 ∧ s = decimal p := by
  constructor
  · intro h
    rw [parsePort] at h
    split_ifs at h with hlength hzero hdigits hvalue
    obtain rfl := Option.some.inj h
    refine ⟨by omega, (decimal_digitsValue ?_ ?_ ?_).symm⟩
    · exact fun hs => hlength (Or.inl hs)
    · exact List.all_eq_true.mp (by simpa using hdigits)
    · exact fun hhead => not_not.mp fun hone => hzero ⟨hhead, hone⟩
  · rintro ⟨hp, rfl⟩
    have hlength : (decimal p).length ≤ 5 := (length_decimal_le_iff (by decide)).mpr (by omega)
    have hdigits : (decimal p).all isDigit = true := List.all_eq_true.mpr fun b hb => isDigit_of_mem_decimal hb
    have hzero : (decimal p).head? = some 48 → (decimal p).length = 1 := by
      intro hhead
      rcases Nat.eq_zero_or_pos p with rfl | hpos
      · rfl
      · exact absurd hhead (head_decimal_ne_zero hpos)
    rw [parsePort, if_neg (not_or.mpr ⟨decimal_ne_nil p, by omega⟩), if_neg (fun h => h.2 (hzero h.1)),
      if_neg (by simp [hdigits]), digitsValue_decimal, if_neg (by omega)]

/-- What stands behind a field. -/
theorem splitOn_head_iff {u r : Bytes} (hu : 32 ∉ u) :
    (r.splitOn 32)[0]? = some u ↔ r = u ∨ u ++ [32] <+: r := by
  have hjoin : [32].intercalate (r.splitOn 32) = r := List.intercalate_splitOn 32
  constructor
  · intro h
    match hsplit : r.splitOn 32 with
    | [] => simp [hsplit] at h
    | [x] =>
      rw [hsplit] at h hjoin
      obtain rfl := Option.some.inj h
      exact Or.inl (by simpa [List.intercalate] using hjoin.symm)
    | x :: y :: rest =>
      rw [hsplit] at h hjoin
      obtain rfl := Option.some.inj h
      rw [List.intercalate_cons_cons] at hjoin
      exact Or.inr ⟨[32].intercalate (y :: rest), by simpa using hjoin⟩
  · rintro (rfl | ⟨t, rfl⟩)
    · have hone : r.splitOn 32 = [r] := List.splitOn_eq_singleton hu
      rw [hone]
      rfl
    · rw [List.append_assoc, List.singleton_append, List.splitOn_append_cons_self_of_not_mem hu]
      rfl

/-- Five fields. -/
theorem splitOn_five {r a b c d e : Bytes} (h : r.splitOn 32 = [a, b, c, d, e]) :
    r = a ++ 32 :: (b ++ 32 :: (c ++ 32 :: (d ++ 32 :: e))) := by
  have hjoin : [32].intercalate (r.splitOn 32) = r := List.intercalate_splitOn 32
  rw [h] at hjoin
  rw [← hjoin]
  simp [List.intercalate]

theorem splitOn_five_of {a b c d e : Bytes} (ha : 32 ∉ a) (hb : 32 ∉ b) (hc : 32 ∉ c)
    (hd : 32 ∉ d) (he : 32 ∉ e) :
    (a ++ 32 :: (b ++ 32 :: (c ++ 32 :: (d ++ 32 :: e)))).splitOn 32 = [a, b, c, d, e] := by
  rw [List.splitOn_append_cons_self_of_not_mem ha, List.splitOn_append_cons_self_of_not_mem hb,
    List.splitOn_append_cons_self_of_not_mem hc, List.splitOn_append_cons_self_of_not_mem hd,
    List.splitOn_eq_singleton he]

/-- The fields of a line behind its first word. -/
theorem splitOnP_proxy (r : Bytes) : (lit "PROXY " ++ r).splitOnP (· == 32) = lit "PROXY" :: r.splitOn 32 := by
  have hsplit : lit "PROXY " ++ r = lit "PROXY" ++ 32 :: r := rfl
  have hword : 32 ∉ lit "PROXY" := by decide
  rw [← List.splitOn_eq_splitOnP, hsplit, List.splitOn_append_cons_self_of_not_mem hword]

/-! ## Lines -/

/-- The source of the fields, when they are well formed. -/
theorem sourceOf_eq_some_iff {pton : Bytes → Option Bytes} {ntop : Bytes → Bytes} {src dst srcPort dstPort ip : Bytes}
    {port : ℕ} : sourceOf pton ntop src dst srcPort dstPort = some (ip, port) ↔
      ∃ a, pton src = some a ∧ (pton dst).isSome ∧ (port ≤ 65535 ∧ srcPort = decimal port) ∧
        (∃ q ≤ 65535, dstPort = decimal q) ∧ ip = ntop a := by
  rw [sourceOf]
  constructor
  · intro h
    split at h
    · next a b p q ha hb hp hq =>
        obtain ⟨rfl, rfl⟩ := Prod.mk.inj (Option.some.inj h)
        exact ⟨a, ha, by rw [hb]; rfl, parsePort_eq_some_iff.mp hp, ⟨q, parsePort_eq_some_iff.mp hq⟩, rfl⟩
    · cases h
  · rintro ⟨a, ha, hdst, hport, ⟨q, hq⟩, rfl⟩
    obtain ⟨b, hb⟩ := Option.isSome_iff_exists.mp hdst
    rw [ha, hb, parsePort_eq_some_iff.mpr hport, parsePort_eq_some_iff.mpr hq]

/-- The bytes of a line that names a source. -/
theorem NamesSource.fields {family line a : Bytes} {pton : Bytes → Option Bytes} {port : ℕ}
    (hpton : ∀ s a, pton s = some a → ∀ c ∈ s, isAddressByte c = true) (h : NamesSource family pton line a port) :
    ∃ src dst dstPort, line = lit "PROXY " ++ (family ++ 32 :: (src ++ 32 :: (dst ++ 32 :: (decimal port ++
        32 :: decimal dstPort)))) ∧
      pton src = some a ∧ (pton dst).isSome ∧ port ≤ 65535 ∧ dstPort ≤ 65535 ∧
      (∀ c ∈ src, isAddressByte c = true) ∧ ∀ c ∈ dst, isAddressByte c = true := by
  obtain ⟨src, dst, dstPort, rfl, hsrc, hdst, hport, hdstPort⟩ := h
  obtain ⟨b, hb⟩ := Option.isSome_iff_exists.mp hdst
  exact ⟨src, dst, dstPort, by simp, hsrc, hdst, hport, hdstPort, hpton src a hsrc, hpton dst b hb⟩

section

variable {line r : Bytes} {header : ProxyHeader}

theorem unknownLine_iff : UnknownLine (lit "PROXY " ++ r) ↔ (r.splitOn 32)[0]? = some (lit "UNKNOWN") := by
  rw [splitOn_head_iff (by decide), UnknownLine,
    show lit "PROXY UNKNOWN" = lit "PROXY " ++ lit "UNKNOWN" from rfl,
    show lit "PROXY UNKNOWN " = lit "PROXY " ++ (lit "UNKNOWN" ++ [32]) from rfl, List.append_cancel_left_eq,
    List.prefix_append_right_inj]

/-- The source that five fields behind the first word name. -/
def fieldsSource (family src dst srcPort dstPort : Bytes) : Option (Bytes × ℕ) :=
  if family = lit "TCP4" then sourceOf inetPton4 inetNtop4 src dst srcPort dstPort
  else if family = lit "TCP6" then sourceOf inetPton6 inetNtop6 src dst srcPort dstPort
  else none

/-- A line that begins with its word is judged by the fields behind it. -/
theorem parseLine_eq (hcut : cstr line = lit "PROXY " ++ r) :
    parseLine line header =
      if (r.splitOn 32)[0]? = some (lit "UNKNOWN") then (.ok, header)
      else
        match r.splitOn 32 with
        | [family, src, dst, srcPort, dstPort] =>
          match fieldsSource family src dst srcPort dstPort with
          | some (ip, port) => (.ok, { header with hasSource := true, sourceIp := ip, sourcePort := port })
          | none => (.invalid, header)
        | _ => (.invalid, header) := by
  rw [parseLine, hcut, splitOnP_proxy]
  dsimp only
  rw [List.getElem?_cons_succ]
  split_ifs with hunknown
  · rfl
  · rcases r.splitOn 32 with _ | ⟨a, _ | ⟨b, _ | ⟨c, _ | ⟨d, _ | ⟨e, _ | ⟨f, rest⟩⟩⟩⟩⟩⟩ <;> rfl

theorem parseLine_unknown (hcut : cstr line = lit "PROXY " ++ r) (h : UnknownLine (lit "PROXY " ++ r)) :
    parseLine line header = (.ok, header) := by
  rw [parseLine_eq hcut, if_pos (unknownLine_iff.mp h)]

/-- The blank is no byte of an address. -/
theorem blank_notMem {s : Bytes} (h : ∀ c ∈ s, isAddressByte c = true) : 32 ∉ s := by
  intro hmem
  cases h 32 hmem

/-- A line with five fields that name a source. -/
theorem parseLine_source {family pton a port} {ntop : Bytes → Bytes} (hcut : cstr line = lit "PROXY " ++ r)
    (hpton : ∀ s a, pton s = some a → ∀ c ∈ s, isAddressByte c = true)
    (hfamily : 32 ∉ family ∧ family ≠ lit "UNKNOWN")
    (hsource : ∀ src dst srcPort dstPort, fieldsSource family src dst srcPort dstPort =
      sourceOf pton ntop src dst srcPort dstPort)
    (h : NamesSource family pton (lit "PROXY " ++ r) a port) :
    parseLine line header = (.ok, { header with hasSource := true, sourceIp := ntop a, sourcePort := port }) := by
  obtain ⟨src, dst, dstPort, hline, hsrc, hdst, hport, hdstPort, hsrcBytes, hdstBytes⟩ := h.fields hpton
  have hdecimal (n : ℕ) : 32 ∉ decimal n := by
    intro hmem
    cases isDigit_of_mem_decimal hmem
  have hsplit : r.splitOn 32 = [family, src, dst, decimal port, decimal dstPort] := by
    rw [List.append_cancel_left hline]
    exact splitOn_five_of hfamily.1 (blank_notMem hsrcBytes) (blank_notMem hdstBytes) (hdecimal _) (hdecimal _)
  have hnamed : fieldsSource family src dst (decimal port) (decimal dstPort) = some (ntop a, port) := by
    rw [hsource, sourceOf_eq_some_iff]
    exact ⟨a, hsrc, hdst, ⟨hport, rfl⟩, ⟨dstPort, hdstPort, rfl⟩, rfl⟩
  have hknown : [family, src, dst, decimal port, decimal dstPort][0]? ≠ some (lit "UNKNOWN") :=
    fun h => hfamily.2 (Option.some.inj h)
  rw [parseLine_eq hcut, hsplit, if_neg hknown]
  dsimp only
  rw [hnamed]

theorem parseLine_tcp4 {a port} (hcut : cstr line = lit "PROXY " ++ r)
    (h : NamesSource (lit "TCP4") inetPton4 (lit "PROXY " ++ r) a port) :
    parseLine line header =
      (.ok, { header with hasSource := true, sourceIp := inetNtop4 a, sourcePort := port }) := by
  refine parseLine_source hcut (fun s a hs c hc => isAddressByte_of_dotted ((of_inetPton4 hs).2 c hc)) (by decide) (fun _ _ _ _ => ?_) h
  rw [fieldsSource, if_pos rfl]

theorem parseLine_tcp6 {a port} (hcut : cstr line = lit "PROXY " ++ r)
    (h : NamesSource (lit "TCP6") inetPton6 (lit "PROXY " ++ r) a port) :
    parseLine line header =
      (.ok, { header with hasSource := true, sourceIp := inetNtop6 a, sourcePort := port }) := by
  refine parseLine_source hcut (fun s a hs => (of_inetPton6 hs).2) (by decide) (fun _ _ _ _ => ?_) h
  rw [fieldsSource, if_neg (by decide), if_pos rfl]

/-- **Every other line is refused.** -/
theorem parseLine_invalid (hcut : cstr line = lit "PROXY " ++ r) (hunknown : ¬ UnknownLine (lit "PROXY " ++ r))
    (hnames : ¬ NamesAny (lit "PROXY " ++ r)) : parseLine line header = (.invalid, header) := by
  rw [parseLine_eq hcut, if_neg (mt unknownLine_iff.mpr hunknown)]
  split
  · next family src dst srcPort dstPort hsplit =>
      have hr := splitOn_five hsplit
      cases hsource : fieldsSource family src dst srcPort dstPort with
      | none => rfl
      | some source =>
        refine absurd ?_ hnames
        obtain ⟨ip, port⟩ := source
        rw [fieldsSource] at hsource
        split_ifs at hsource with h4 h6
        · obtain ⟨a, hsrc, hdst, ⟨hport, rfl⟩, ⟨q, hq, rfl⟩, -⟩ := sourceOf_eq_some_iff.mp hsource
          exact Or.inl ⟨a, port, src, dst, q, by rw [hr, h4]; simp, hsrc, hdst, hport, hq⟩
        · obtain ⟨a, hsrc, hdst, ⟨hport, rfl⟩, ⟨q, hq, rfl⟩, -⟩ := sourceOf_eq_some_iff.mp hsource
          exact Or.inr ⟨a, port, src, dst, q, by rw [hr, h6]; simp, hsrc, hdst, hport, hq⟩
  · rfl

end

/-! ## Acceptance -/

section

variable {buf : Bytes} {i : ℕ}

/-- A line of a buffer that begins with the word begins with it. -/
theorem prefix_line (h : v1Prefix <+: buf) (hline : findSub [13, 10] (buf.take v1MaxLen) = some i) :
    v1Prefix <+: buf.take i := by
  obtain ⟨t, rfl⟩ := h
  obtain ⟨hfound, -⟩ := findSub_eq_some hline
  have hlong : 6 ≤ i := by
    by_contra hshort
    have hcr : (v1Prefix ++ t).take v1MaxLen = v1Prefix ++ t.take 101 := rfl
    rw [hcr] at hfound
    have hbyte : ((v1Prefix ++ t.take 101).drop i)[0]? = some 13 := by
      obtain ⟨u, hu⟩ := hfound
      rw [← hu]
      rfl
    rw [List.getElem?_drop, Nat.add_zero, List.getElem?_append_left (by show i < 6; omega)] at hbyte
    have hword : ∀ j < 6, v1Prefix[j]? ≠ some 13 := by decide
    exact hword i (by omega) hbyte
  refine ⟨t.take (i - 6), ?_⟩
  rw [List.take_append, List.take_of_length_le (show v1Prefix.length ≤ i from hlong)]
  rfl

/-- What is parsed of the buffer. -/
theorem proxyProtocolParse_of_line (h : v1Prefix <+: buf)
    (hline : findSub [13, 10] (buf.take v1MaxLen) = some i) :
    proxyProtocolParse buf = parseLine (buf.take i) { ProxyHeader.zero with length := i + 2 } := by
  have hne : buf ≠ [] := by
    rintro rfl
    exact absurd (List.prefix_nil.mp h) (by decide)
  have hv2 : ¬ v2Signature <+: buf := by
    intro hv2
    exact absurd (List.prefix_of_prefix_length_le h hv2 (by decide)) (by decide)
  rw [proxyProtocolParse, if_neg hne, if_neg hv2, if_pos h, parseV1, hline]

/-- A line that names a source holds no control characters. -/
theorem NamesAny.printable {line : Bytes} (h : NamesAny line) : ∀ c ∈ line, 32 ≤ c := by
  have haddress : ∀ c, isAddressByte c = true → 32 ≤ c := by decide +kernel
  have hdecimal (n : ℕ) : ∀ c ∈ decimal n, 32 ≤ c := by
    intro c hc
    refine haddress c (isAddressByte_of_dotted ?_)
    rw [isDottedByte, isDigit_of_mem_decimal hc]
    rfl
  have hword : ∀ c ∈ lit "PROXY ", 32 ≤ c := by decide
  have hnames {family pton a port} (hfamily : ∀ c ∈ family, 32 ≤ c)
      (hpton : ∀ s a, pton s = some a → ∀ c ∈ s, isAddressByte c = true)
      (h : NamesSource family pton line a port) : ∀ c ∈ line, 32 ≤ c := by
    obtain ⟨src, dst, dstPort, rfl, -, -, -, -, hsrc, hdst⟩ := h.fields hpton
    intro c hc
    simp only [List.mem_append, List.mem_cons] at hc
    rcases hc with hc | hc | rfl | hc | rfl | hc | rfl | hc | rfl | hc
    · exact hword c hc
    · exact hfamily c hc
    · exact UInt8.le_refl 32
    · exact haddress c (hsrc c hc)
    · exact UInt8.le_refl 32
    · exact haddress c (hdst c hc)
    · exact UInt8.le_refl 32
    · exact hdecimal _ c hc
    · exact UInt8.le_refl 32
    · exact hdecimal _ c hc
  rcases h with ⟨a, port, h⟩ | ⟨a, port, h⟩
  · exact hnames (by decide) (fun s a hs c hc => isAddressByte_of_dotted ((of_inetPton4 hs).2 c hc)) h
  · exact hnames (by decide) (fun s a hs => (of_inetPton6 hs).2) h

theorem NamesAny.zero_notMem {line : Bytes} (h : NamesAny line) : 0 ∉ line :=
  fun hmem => absurd (h.printable 0 hmem) (by decide)

/-- What the C string of a line begins with. -/
theorem exists_cut (h : v1Prefix <+: buf) (hline : findSub [13, 10] (buf.take v1MaxLen) = some i) :
    ∃ r, cstr (buf.take i) = lit "PROXY " ++ r := by
  obtain ⟨t, ht⟩ := prefix_line h hline
  refine ⟨cstr t, ?_⟩
  rw [← ht]
  exact cstr_append_of_notMem (by decide) t

/-- **A line is accepted as the grammar says**, when the grammar says the same of what stands before its
first NUL. -/
theorem acceptedExactly_of_cut (h : v1Prefix <+: buf)
    (hline : findSub [13, 10] (buf.take v1MaxLen) = some i)
    (hnames : NamesAny (buf.take i) ↔ NamesAny (cstr (buf.take i)))
    (hunknown : UnknownLine (buf.take i) ↔ UnknownLine (cstr (buf.take i))) : AcceptedExactly buf (buf.take i) := by
  obtain ⟨r, hcut⟩ := exists_cut h hline
  have hparse := proxyProtocolParse_of_line h hline
  rw [hcut] at hnames hunknown
  have hsource : NamesAny (lit "PROXY " ++ r) →
      (proxyProtocolParse buf).1 = .ok ∧ (proxyProtocolParse buf).2.hasSource = true := by
    rintro (⟨a, port, h4⟩ | ⟨a, port, h6⟩)
    · rw [hparse, parseLine_tcp4 hcut h4]
      exact ⟨rfl, rfl⟩
    · rw [hparse, parseLine_tcp6 hcut h6]
      exact ⟨rfl, rfl⟩
  have hnone : UnknownLine (lit "PROXY " ++ r) →
      (proxyProtocolParse buf).1 = .ok ∧ (proxyProtocolParse buf).2.hasSource = false := by
    intro hunknown
    rw [hparse, parseLine_unknown hcut hunknown]
    exact ⟨rfl, rfl⟩
  have hinvalid (hunknown : ¬ UnknownLine (lit "PROXY " ++ r)) (hnames : ¬ NamesAny (lit "PROXY " ++ r)) :
      (proxyProtocolParse buf).1 = .invalid := by
    rw [hparse, parseLine_invalid hcut hunknown hnames]
  -- a line that names a source is its own C string
  have hwhole (hnamed : NamesAny (buf.take i)) : buf.take i = lit "PROXY " ++ r := by
    rw [← hcut, cstr_eq_self hnamed.zero_notMem]
  refine ⟨⟨fun hok => ?_, fun hnamed => hsource (hnames.mp hnamed)⟩, fun a port hnamed => ?_, fun a port hnamed => ?_,
    ⟨fun hok => ?_, fun hnamed => hnone (hunknown.mp hnamed)⟩, fun hnot hnot' => ?_⟩
  · by_contra hnot
    by_cases hu : UnknownLine (lit "PROXY " ++ r)
    · rw [(hnone hu).2] at hok
      cases hok.2
    · rw [hinvalid hu (mt hnames.mpr hnot)] at hok
      cases hok.1
  · rw [hwhole (Or.inl ⟨a, port, hnamed⟩)] at hnamed
    rw [hparse, parseLine_tcp4 hcut hnamed]
    obtain ⟨src, -, -, -, hsrc, -⟩ := hnamed
    exact ⟨inetPton4_inetNtop4 (of_inetPton4 hsrc).1, rfl⟩
  · rw [hwhole (Or.inr ⟨a, port, hnamed⟩)] at hnamed
    rw [hparse, parseLine_tcp6 hcut hnamed]
    obtain ⟨src, -, -, -, hsrc, -⟩ := hnamed
    exact ⟨inetPton6_inetNtop6 (of_inetPton6 hsrc).1, rfl⟩
  · by_contra hnot
    by_cases hn : NamesAny (lit "PROXY " ++ r)
    · rw [(hsource hn).2] at hok
      cases hok.2
    · rw [hinvalid (mt hunknown.mpr hnot) hn] at hok
      cases hok.1
  · exact hinvalid (mt hunknown.mpr hnot') (mt hnames.mpr hnot)

/-- A line is one for no source when what stands before its first NUL is, unless that is the word alone. -/
theorem unknownLine_cstr {line : Bytes} (h : cstr line ≠ lit "PROXY UNKNOWN") :
    UnknownLine line ↔ UnknownLine (cstr line) := by
  have hsplit : cstr line <+: line := List.takeWhile_prefix _
  constructor
  · rintro (rfl | ⟨t, rfl⟩)
    · exact absurd (by decide) h
    · refine Or.inr ⟨cstr t, ?_⟩
      rw [cstr_append_of_notMem (by decide)]
  · rintro (hcut | hcut)
    · exact absurd hcut h
    · exact Or.inr (hcut.trans hsplit)

/-- **A line is accepted exactly when it is in the grammar**, unless it holds a NUL, and what stands before
that is a line by itself. -/
theorem acceptedExactly_iff (h : v1Prefix <+: buf)
    (hline : findSub [13, 10] (buf.take v1MaxLen) = some i) :
    AcceptedExactly buf (buf.take i) ↔
      (0 ∈ buf.take i → ¬ NamesAny (cstr (buf.take i)) ∧ cstr (buf.take i) ≠ lit "PROXY UNKNOWN") := by
  obtain ⟨r, hcut⟩ := exists_cut h hline
  have hparse := proxyProtocolParse_of_line h hline
  constructor
  · intro hexact hzero
    refine ⟨fun hnames => ?_, fun hunknown => ?_⟩
    · have hok : (proxyProtocolParse buf).1 = .ok ∧ (proxyProtocolParse buf).2.hasSource = true := by
        rw [hcut] at hnames
        rcases hnames with ⟨a, port, h4⟩ | ⟨a, port, h6⟩
        · rw [hparse, parseLine_tcp4 hcut h4]
          exact ⟨rfl, rfl⟩
        · rw [hparse, parseLine_tcp6 hcut h6]
          exact ⟨rfl, rfl⟩
      exact (hexact.source.mp hok).zero_notMem hzero
    · have hok : (proxyProtocolParse buf).1 = .ok ∧ (proxyProtocolParse buf).2.hasSource = false := by
        rw [hparse, parseLine_unknown hcut (by rw [← hcut, hunknown]; exact Or.inl rfl)]
        exact ⟨rfl, rfl⟩
      rcases hexact.unknown.mp hok with hword | ⟨t, ht⟩
      · rw [hword] at hzero
        exact absurd hzero (by decide)
      · rw [← ht, cstr_append_of_notMem (by decide)] at hunknown
        have := congrArg List.length hunknown
        rw [List.length_append, show (lit "PROXY UNKNOWN ").length = 14 from rfl,
          show (lit "PROXY UNKNOWN").length = 13 from rfl] at this
        omega
  · intro hcond
    by_cases hzero : 0 ∈ buf.take i
    · obtain ⟨hnames, hunknown⟩ := hcond hzero
      exact acceptedExactly_of_cut h hline (iff_of_false (fun h => h.zero_notMem hzero) hnames)
        (unknownLine_cstr hunknown)
    · exact acceptedExactly_of_cut h hline (by rw [cstr_eq_self hzero]) (by rw [cstr_eq_self hzero])

end

/-- A plain line, and the request behind it. -/
def plainLine : Bytes := lit "PROXY TCP4 192.0.2.7 10.0.0.1 51234 80\r\nGET /"

theorem acceptedExactly_plainLine :
    (0 ∈ plainLine.take 38 → ¬ NamesAny (cstr (plainLine.take 38)) ∧ cstr (plainLine.take 38) ≠ lit "PROXY UNKNOWN") ∧
      AcceptedExactly plainLine (plainLine.take 38) := by
  have hcond : 0 ∈ plainLine.take 38 →
      ¬ NamesAny (cstr (plainLine.take 38)) ∧ cstr (plainLine.take 38) ≠ lit "PROXY UNKNOWN" :=
    fun hzero => absurd hzero (by decide)
  exact ⟨hcond, (acceptedExactly_iff (by decide) (by decide)).mpr hcond⟩

/-- The line again, with a NUL and a seventh field behind it. -/
def nulLine : Bytes := lit "PROXY TCP4 192.0.2.7 10.0.0.1 51234 80" ++ 0 :: lit " 1\r\n"

/-- It is accepted, with the source of the plain line. -/
theorem not_acceptedExactly_nulLine : ¬ AcceptedExactly nulLine (nulLine.take 41) := by
  intro h
  have hok : (proxyProtocolParse nulLine).1 = .ok ∧ (proxyProtocolParse nulLine).2.hasSource = true := by
    decide
  exact (h.source.mp hok).zero_notMem (by decide)

/-! ## Lines this server writes -/

/-- `inet_pton` accepts both addresses. -/
def AcceptsBoth (pton : Bytes → Option Bytes) (srcIp dstIp : Option Bytes) : Prop :=
  (srcIp.bind pton).isSome ∧ (dstIp.bind pton).isSome

/-- Both addresses are of one family, and both ports are ports. -/
def Nameable (srcIp : Option Bytes) (srcPort : ℤ) (dstIp : Option Bytes) (dstPort : ℤ) : Prop :=
  (AcceptsBoth inetPton4 srcIp dstIp ∨ AcceptsBoth inetPton6 srcIp dstIp) ∧
    (0 ≤ srcPort ∧ srcPort ≤ 65535) ∧ 0 ≤ dstPort ∧ dstPort ≤ 65535

/-- **A line is read back**: all of it, and with the source it was written for. -/
structure ReadBack (line : Bytes) (srcIp : Option Bytes) (srcPort : ℤ) (dstIp : Option Bytes) (dstPort : ℤ) : Prop where
  ok : (proxyProtocolParse line).1 = .ok
  length : (proxyProtocolParse line).2.length = line.length
  source : (proxyProtocolParse line).2.hasSource = true ↔ Nameable srcIp srcPort dstIp dstPort
  tcp4 : ∀ a, Nameable srcIp srcPort dstIp dstPort → AcceptsBoth inetPton4 srcIp dstIp → srcIp.bind inetPton4 = some a →
    inetPton4 (proxyProtocolParse line).2.sourceIp = some a ∧ (proxyProtocolParse line).2.sourcePort = srcPort
  tcp6 : ∀ a, Nameable srcIp srcPort dstIp dstPort → AcceptsBoth inetPton6 srcIp dstIp → srcIp.bind inetPton6 = some a →
    inetPton6 (proxyProtocolParse line).2.sourceIp = some a ∧ (proxyProtocolParse line).2.sourcePort = srcPort

section

variable {outSize : ℕ} {srcIp dstIp : Option Bytes} {srcPort dstPort : ℤ} {line : Bytes}

/-- An IPv6 address has a colon. -/
theorem pton6Loop_eq_none {s : Bytes} (hs : 58 ∉ s) {digits val : ℕ} {token : Bytes} :
    pton6Loop ⟨[], none, digits, val, token⟩ s = none := by
  induction s generalizing digits val with
  | nil =>
    by_cases hdigits : 0 < digits <;> simp [pton6Loop, Pton6.finish, hdigits, groupBytes]
  | cons ch s ih =>
    rw [List.mem_cons, not_or] at hs
    rw [pton6Loop, if_neg (Ne.symm hs.1)]
    split_ifs with hdigit hfour hdot
    · rfl
    · exact ih hs.2
    · dsimp only
      cases hv4 : inetPton4 token with
      | none => rfl
      | some v =>
        have hlength : v.length = 4 := (of_inetPton4 hv4).1
        simp [Pton6.finish, hlength]
    · rfl

/-- No text is an address of both families. -/
theorem inetPton6_eq_none {s a : Bytes} (h : inetPton4 s = some a) : inetPton6 s = none := by
  have hcolon : 58 ∉ s := by
    intro hmem
    cases (of_inetPton4 h).2 58 hmem
  unfold inetPton6
  split
  · rfl
  · exact absurd List.mem_cons_self hcolon
  · exact pton6Loop_eq_none hcolon

/-- The family that is written, if one is. -/
def writtenFamily (srcIp : Option Bytes) (srcPort : ℤ) (dstIp : Option Bytes) (dstPort : ℤ) : Option Bytes :=
  if (0 ≤ srcPort && srcPort ≤ 65535) && (0 ≤ dstPort && dstPort ≤ 65535) then
    if (srcIp.bind inetPton4).isSome && (dstIp.bind inetPton4).isSome then some (lit "TCP4")
    else if (srcIp.bind inetPton6).isSome && (dstIp.bind inetPton6).isSome then some (lit "TCP6") else none
  else none

/-- What is written, with its family. -/
theorem of_format (hformat : proxyProtocolFormatV1 outSize srcIp srcPort dstIp dstPort = some line) :
    line = match writtenFamily srcIp srcPort dstIp dstPort with
      | some f => lit "PROXY " ++ f ++ lit " " ++ srcIp.getD [] ++ lit " " ++ dstIp.getD [] ++ lit " " ++
          decimal srcPort.toNat ++ lit " " ++ decimal dstPort.toNat ++ lit "\r\n"
      | none => lit "PROXY UNKNOWN\r\n" := by
  have hfits (l : Bytes) (h : (if l.length < outSize then some l else none) = some line) : line = l := by
    split_ifs at h
    exact (Option.some.inj h).symm
  exact hfits _ hformat

/-- What is written when the addresses are of no family. -/
theorem of_format_not_nameable (hformat : proxyProtocolFormatV1 outSize srcIp srcPort dstIp dstPort = some line)
    (hnameable : ¬ Nameable srcIp srcPort dstIp dstPort) : line = lit "PROXY UNKNOWN\r\n" := by
  have hfamily : writtenFamily srcIp srcPort dstIp dstPort = none := by
    rw [writtenFamily]
    split_ifs with hports h4 h6
    · refine absurd ⟨Or.inl ?_, ?_⟩ hnameable
      · simpa [AcceptsBoth] using h4
      · simpa using hports
    · refine absurd ⟨Or.inr ?_, ?_⟩ hnameable
      · simpa [AcceptsBoth] using h6
      · simpa using hports
    · rfl
    · rfl
  rw [of_format hformat, hfamily]

/-- The line that names a source. -/
def sourceLine (family src dst : Bytes) (srcPort dstPort : ℕ) : Bytes :=
  lit "PROXY " ++ family ++ 32 :: src ++ 32 :: dst ++ 32 :: decimal srcPort ++ 32 :: decimal dstPort

theorem length_sourceLine {family : Bytes} (hfamily : family.length = 4) (src dst : Bytes) (srcPort dstPort : ℕ) :
    (sourceLine family src dst srcPort dstPort).length =
      14 + src.length + dst.length + (decimal srcPort).length + (decimal dstPort).length := by
  simp only [sourceLine, List.length_append, List.length_cons, hfamily, show (lit "PROXY ").length = 6 from rfl]
  omega

/-- What is written when the addresses are of a family. -/
theorem of_format_nameable (hformat : proxyProtocolFormatV1 outSize srcIp srcPort dstIp dstPort = some line)
    (hnameable : Nameable srcIp srcPort dstIp dstPort) :
    ∃ src dst, srcIp = some src ∧ dstIp = some dst ∧
      ((AcceptsBoth inetPton4 srcIp dstIp ∧
          line = sourceLine (lit "TCP4") src dst srcPort.toNat dstPort.toNat ++ [13, 10]) ∨
        (¬ AcceptsBoth inetPton4 srcIp dstIp ∧ AcceptsBoth inetPton6 srcIp dstIp ∧
          line = sourceLine (lit "TCP6") src dst srcPort.toNat dstPort.toNat ++ [13, 10])) := by
  obtain ⟨hboth, hports⟩ := hnameable
  obtain ⟨src, hsrc⟩ : ∃ src, srcIp = some src := by
    cases srcIp with
    | none => rcases hboth with ⟨h, -⟩ | ⟨h, -⟩ <;> cases h
    | some src => exact ⟨src, rfl⟩
  obtain ⟨dst, hdst⟩ : ∃ dst, dstIp = some dst := by
    cases dstIp with
    | none => rcases hboth with ⟨-, h⟩ | ⟨-, h⟩ <;> cases h
    | some dst => exact ⟨dst, rfl⟩
  refine ⟨src, dst, hsrc, hdst, ?_⟩
  have hline := of_format hformat
  rw [writtenFamily, if_pos (by simpa using hports)] at hline
  by_cases h4 : AcceptsBoth inetPton4 srcIp dstIp
  · rw [if_pos (by simpa [AcceptsBoth] using h4)] at hline
    refine Or.inl ⟨h4, ?_⟩
    rw [hline, hsrc, hdst]
    simp [sourceLine, lit]
  · have h6 := hboth.resolve_left h4
    rw [if_neg (by simpa [AcceptsBoth] using h4), if_pos (by simpa [AcceptsBoth] using h6)] at hline
    refine Or.inr ⟨h4, h6, ?_⟩
    rw [hline, hsrc, hdst]
    simp [sourceLine, lit]

/-- The line that is written names its source. -/
theorem namesSource_sourceLine {family : Bytes} {pton : Bytes → Option Bytes} {src dst a : Bytes} (hsrc : pton src = some a)
    (hdst : (pton dst).isSome) (hports : (0 ≤ srcPort ∧ srcPort ≤ 65535) ∧ 0 ≤ dstPort ∧ dstPort ≤ 65535) :
    NamesSource family pton (sourceLine family src dst srcPort.toNat dstPort.toNat) a srcPort.toNat :=
  ⟨src, dst, dstPort.toNat, rfl, hsrc, hdst, by omega, by omega⟩

/-- Where the reader finds the end of a line. -/
theorem findSub_line {l : Bytes} (hl : 13 ∉ l) :
    findSub [13, 10] ((l ++ [13, 10]).take v1MaxLen) = if l.length + 2 ≤ 107 then some l.length else none := by
  have hlength : (l ++ [13, 10]).length = l.length + 2 := List.length_append
  split_ifs with hfits
  · rw [List.take_of_length_le (by rw [hlength]; exact hfits), findSub_cons_append_of_notMem hl]
    exact congrArg some (Nat.zero_add _)
  · have hlong : 106 ≤ l.length := by omega
    rw [List.take_append]
    by_cases hcr : l.length = 106
    · rw [List.take_of_length_le (by rw [hcr]; decide), findSub_cons_append_of_notMem hl, hcr]
      rfl
    · have hnone : v1MaxLen - l.length = 0 := by
        have : v1MaxLen = 107 := rfl
        omega
      rw [hnone, List.take_zero, findSub_cons_append_of_notMem fun h => hl (List.mem_of_mem_take h)]
      rfl

/-- A line that names a source, as it is read. -/
theorem parse_sourceLine {l r : Bytes} (hr : l = lit "PROXY " ++ r) (hcr : 13 ∉ l) :
    proxyProtocolParse (l ++ [13, 10]) =
      if l.length + 2 ≤ 107 then parseLine l { ProxyHeader.zero with length := l.length + 2 } else (.invalid, .zero) := by
  have hprefix : v1Prefix <+: l ++ [13, 10] := by
    rw [hr, List.append_assoc]
    exact List.prefix_append _ _
  have hfind := findSub_line hcr
  split_ifs at hfind ⊢ with hfits
  · rw [proxyProtocolParse_of_line hprefix hfind, List.take_left]
  · have hne : l ++ [13, 10] ≠ [] := by simp
    have hv2 : ¬ v2Signature <+: l ++ [13, 10] := fun hv2 =>
      absurd (List.prefix_of_prefix_length_le hprefix hv2 (by decide)) (by decide)
    have hlength : ¬ (l ++ [13, 10]).length < v1MaxLen := by
      rw [List.length_append, show v1MaxLen = 107 from rfl]
      exact fun h => hfits (Nat.le_of_lt h)
    rw [proxyProtocolParse, if_neg hne, if_neg hv2, if_pos hprefix, parseV1, hfind]
    exact if_neg hlength

/-- A line that names a source is read back when it fits. -/
theorem readBack_sourceLine (ip : Bytes) {l r : Bytes} (hr : l = lit "PROXY " ++ r) (hnames : NamesAny l)
    (hnameable : Nameable srcIp srcPort dstIp dstPort)
    (hparse : ∀ header, parseLine l header =
      (.ok, { header with hasSource := true, sourceIp := ip, sourcePort := srcPort.toNat }))
    (h4 : ∀ a, AcceptsBoth inetPton4 srcIp dstIp → srcIp.bind inetPton4 = some a → inetPton4 ip = some a)
    (h6 : ∀ a, AcceptsBoth inetPton6 srcIp dstIp → srcIp.bind inetPton6 = some a → inetPton6 ip = some a) :
    ReadBack (l ++ [13, 10]) srcIp srcPort dstIp dstPort ↔ l.length + 2 ≤ 107 := by
  have hcr : 13 ∉ l := fun hmem => absurd (hnames.printable 13 hmem) (by decide)
  have hport : (srcPort.toNat : ℤ) = srcPort := Int.toNat_of_nonneg hnameable.2.1.1
  have hread := parse_sourceLine hr hcr
  split_ifs at hread with hfits
  · rw [hparse] at hread
    refine iff_of_true ⟨by rw [hread], ?_, ?_, fun a _ hboth hsrc => ?_, fun a _ hboth hsrc => ?_⟩ hfits
    · rw [hread, List.length_append]
      rfl
    · rw [hread]
      exact iff_of_true rfl hnameable
    · rw [hread]
      exact ⟨h4 a hboth hsrc, hport⟩
    · rw [hread]
      exact ⟨h6 a hboth hsrc, hport⟩
  · refine iff_of_false (fun h => ?_) hfits
    have hok := h.ok
    rw [hread] at hok
    cases hok

/-- **Every line that is written is read back**, as long as it fits the limit of the reader: the addresses as
they are given, and the ports, take at most 91 bytes. -/
theorem readBack_iff (hformat : proxyProtocolFormatV1 outSize srcIp srcPort dstIp dstPort = some line) :
    ReadBack line srcIp srcPort dstIp dstPort ↔
      (Nameable srcIp srcPort dstIp dstPort →
        (srcIp.getD []).length + (dstIp.getD []).length + (decimal srcPort.toNat).length +
          (decimal dstPort.toNat).length ≤ 91) := by
  by_cases hnameable : Nameable srcIp srcPort dstIp dstPort
  · obtain ⟨src, dst, rfl, rfl, hfamily⟩ := of_format_nameable hformat hnameable
    rw [imp_iff_right hnameable]
    have hfits (family : Bytes) (hfamily : family.length = 4) :
        (sourceLine family src dst srcPort.toNat dstPort.toNat).length + 2 ≤ 107 ↔
          src.length + dst.length + (decimal srcPort.toNat).length + (decimal dstPort.toNat).length ≤ 91 := by
      rw [length_sourceLine hfamily]
      omega
    have hr (family : Bytes) : sourceLine family src dst srcPort.toNat dstPort.toNat = lit "PROXY " ++
        (family ++ 32 :: src ++ 32 :: dst ++ 32 :: decimal srcPort.toNat ++ 32 :: decimal dstPort.toNat) := by
      simp [sourceLine]
    rcases hfamily with ⟨hboth, rfl⟩ | ⟨hnot4, hboth, rfl⟩
    · obtain ⟨a, ha⟩ : ∃ a, inetPton4 src = some a := Option.isSome_iff_exists.mp hboth.1
      have hnames : NamesSource (lit "TCP4") inetPton4 _ a _ := namesSource_sourceLine ha hboth.2 hnameable.2
      refine (readBack_sourceLine (inetNtop4 a) (hr _) (Or.inl ⟨a, _, hnames⟩) hnameable (fun header => ?_) (fun b _ hb => ?_)
        fun b hboth6 _ => ?_).trans (hfits _ rfl)
      · have hcut := cstr_eq_self (NamesAny.zero_notMem (Or.inl ⟨a, _, hnames⟩))
        rw [hr] at hnames hcut ⊢
        exact parseLine_tcp4 hcut hnames
      · obtain rfl := Option.some.inj (ha.symm.trans hb)
        exact inetPton4_inetNtop4 (of_inetPton4 ha).1
      · have hnone := hboth6.1
        rw [Option.bind_some, inetPton6_eq_none ha] at hnone
        cases hnone
    · obtain ⟨a, ha⟩ : ∃ a, inetPton6 src = some a := Option.isSome_iff_exists.mp hboth.1
      have hnames : NamesSource (lit "TCP6") inetPton6 _ a _ := namesSource_sourceLine ha hboth.2 hnameable.2
      refine (readBack_sourceLine (inetNtop6 a) (hr _) (Or.inr ⟨a, _, hnames⟩) hnameable (fun header => ?_)
        (fun b hboth4 _ => absurd hboth4 hnot4) fun b _ hb => ?_).trans (hfits _ rfl)
      · have hcut := cstr_eq_self (NamesAny.zero_notMem (Or.inr ⟨a, _, hnames⟩))
        rw [hr] at hnames hcut ⊢
        exact parseLine_tcp6 hcut hnames
      · obtain rfl := Option.some.inj (ha.symm.trans hb)
        exact inetPton6_inetNtop6 (of_inetPton6 ha).1
  · refine iff_of_true ?_ fun h => absurd h hnameable
    rw [of_format_not_nameable hformat hnameable]
    have hparse : proxyProtocolParse (lit "PROXY UNKNOWN\r\n") = (.ok, { ProxyHeader.zero with length := 15 }) := by
      decide
    refine ⟨by rw [hparse], by rw [hparse]; rfl, ?_, fun _ h => absurd h hnameable, fun _ h => absurd h hnameable⟩
    rw [hparse]
    exact iff_of_false Bool.false_ne_true hnameable

end

/-- A line with two short addresses is read back. -/
theorem readBack_short :
    ReadBack (lit "PROXY TCP6 2001:db8::1 ::1 1 2\r\n") (some (lit "2001:db8::1")) 1 (some (lit "::1")) 2 := by
  have hformat : proxyProtocolFormatV1 128 (some (lit "2001:db8::1")) 1 (some (lit "::1")) 2 =
      some (lit "PROXY TCP6 2001:db8::1 ::1 1 2\r\n") := by
    decide
  refine (readBack_iff hformat).mpr fun _ => ?_
  decide

/-- An address in the longest notation there is. -/
def longAddress : Bytes := lit "0000:0000:0000:0000:0000:0000:" ++ lit "255.255.255.255"

/-- A line with two long addresses is written into 128 bytes, and not read back. -/
theorem not_readBack_longAddress :
    ¬ ∀ line, proxyProtocolFormatV1 128 (some longAddress) 51234 (some longAddress) 65535 = some line →
      ReadBack line (some longAddress) 51234 (some longAddress) 65535 := by
  intro h
  have hline : ∃ line, proxyProtocolFormatV1 128 (some longAddress) 51234 (some longAddress) 65535 = some line ∧
      (proxyProtocolParse line).1 = .invalid :=
    ⟨lit "PROXY TCP6 " ++ longAddress ++ 32 :: longAddress ++ lit " 51234 65535\r\n", by decide +kernel⟩
  obtain ⟨line, hformat, hinvalid⟩ := hline
  have hok := (h line hformat).ok
  rw [hinvalid] at hok
  cases hok

end BoatRudder.WebServer
