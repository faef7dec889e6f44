import BoatRudder.WapGateway.DatagramFormat

/-! # Where the gateway reads

Every reader of a datagram stays below the end it is given, with one exception: `wsp_post_headers`
looks at the media type of a post's content type where that has length zero, and nothing need be
there. -/

namespace BoatRudder.WapGateway

open Traced

/-! ## Readers that keep to their end -/

variable {d : Memory} {n stop pos : ℕ}

/-- `read_uintvar` stays below its end. -/
theorem bounded_readUintvarLoop (k v : ℕ) :
    Bounded (· < n) (readUintvarLoop d n k pos v) fun _ => True := by
  induction k generalizing pos v with
  | zero => exact bounded_fail
  | succ k ih =>
    rw [readUintvarLoop]
    split
    · exact bounded_fail
    · next h =>
        refine (bounded_readByte (by omega)).bind fun c _ => ?_
        split
        · exact bounded_pure trivial
        · exact (ih _).bind fun _ _ => bounded_pure trivial

theorem bounded_readUintvar : Bounded (· < n) (readUintvar d n pos) fun _ => True :=
  bounded_readUintvarLoop 5 0

/-- `memchr` stays within its count. -/
theorem bounded_memchrNul (count : ℕ) :
    Bounded (· < pos + count) (memchrNul d count pos) fun _ => True := by
  induction count generalizing pos with
  | zero => exact bounded_fail
  | succ k ih =>
    rw [memchrNul]
    refine (bounded_readByte (by omega)).bind fun b _ => ?_
    split
    · exact bounded_pure trivial
    · refine (ih.mono (fun i hi => ?_) fun _ _ => trivial).bind fun _ _ => bounded_pure trivial
      omega

/-- A length is read below the end. -/
theorem bounded_valueLength {b : UInt8} (h : pos < stop) :
    Bounded (· < stop) (valueLength d stop pos b h) fun _ => True := by
  rw [valueLength]
  split
  · exact bounded_readUintvar.bind fun _ _ => bounded_pure trivial
  · exact bounded_pure trivial

/-- `wsp_value` stays below its end. -/
theorem bounded_wspValue (textSize : ℕ) :
    Bounded (· < stop) (wspValue d stop pos textSize) fun _ => True := by
  rw [wspValue]
  split
  · exact bounded_fail
  · next h =>
      refine (bounded_readByte (by omega)).bind fun b _ => ?_
      split
      · exact bounded_pure trivial
      · split
        · refine (bounded_valueLength _).bind fun r _ => ?_
          split
          · exact bounded_fail
          · exact bounded_pure trivial
        · refine ((bounded_memchrNul (stop - pos)).mono (fun i hi => ?_) fun _ _ => trivial).bind
            fun len _ => ?_
          · omega
          · dsimp only
            split
            · exact bounded_pure trivial
            · refine (bounded_readBytes fun i _ hi => ?_).bind fun _ _ => bounded_pure trivial
              have := len.2
              omega

/-- The header loop stays below its end. -/
theorem bounded_wspHeaders (userAgent : Bytes) :
    Bounded (· < stop) (wspHeaders d stop pos userAgent) fun _ => True := by
  fun_induction wspHeaders d stop pos userAgent with
  | case1 pos userAgent h ih1 ih2 =>
    have hread : Bounded (· < stop) (readByte d pos) (· = d pos) := bounded_readByte h
    refine hread.bind fun b _ => ?_
    dsimp only
    split
    · exact (bounded_wspValue _).bind fun r _ => ih1 r
    · split
      · exact (bounded_wspValue 0).bind fun name _ =>
          (bounded_wspValue 0).bind fun value _ => ih2 name value
      · exact bounded_pure trivial
  | case2 => exact bounded_pure trivial

/-! ## The header block of a post -/

/-- A content type of length zero with nothing after it. -/
def EmptyContentType (block : Bytes) : Prop := IsValueLength block 0

/-- The media type of a content type is before the end of the block, unless the content type is
empty and ends it. -/
theorem wspContentType_media {r : ℕ × After 0 stop}
    (h : (wspContentType d stop).result = some r) :
    r.1 ≤ r.2.1 ∧ (r.1 = stop → EmptyContentType (d.bytes 0 stop)) := by
  have hlt := r.2.2.1
  have hstop := r.2.2.2
  rcases bytes_of_wspContentType h with hzero | ⟨hle, hlen⟩
  · exact ⟨by omega, fun hend => by omega⟩
  · refine ⟨hle, fun hend => ?_⟩
    have hnone : r.2.1 - r.1 = 0 := by omega
    rwa [hnone, hend] at hlen

/-- An empty content type at the end of a block puts the media type behind the block. -/
theorem wspContentType_of_empty (h : EmptyContentType (d.bytes 0 stop)) :
    ∃ r, (wspContentType d stop).result = some r ∧ r.1 = stop := by
  have hbytes : d.bytes 0 (d.bytes 0 stop).length = d.bytes 0 stop := by simp
  have hfit : (d.bytes 0 stop).length + 0 ≤ stop := by simp
  obtain ⟨r, hr, hmedia, -⟩ := wspContentType_of_length h hbytes hfit
  exact ⟨r, hr, by simpa using hmedia⟩

/-- The content type is read below the end of the block. -/
theorem bounded_wspContentType :
    Bounded (· < stop) (wspContentType d stop) fun r =>
      r.1 ≤ r.2.1 ∧ (r.1 = stop → EmptyContentType (d.bytes 0 stop)) := by
  refine ⟨?_, fun r hr => wspContentType_media hr⟩
  have hreads : Bounded (· < stop) (wspContentType d stop) fun _ => True := by
    rw [wspContentType]
    split
    · exact bounded_fail
    · next h =>
        refine (bounded_readByte (by omega)).bind fun b _ => ?_
        split
        · refine (bounded_valueLength _).bind fun r _ => ?_
          split
          · exact bounded_fail
          · exact bounded_pure trivial
        · exact (bounded_wspValue 0).bind fun _ _ => bounded_pure trivial
  exact hreads.1

/-- A media type is read below the end of the block that it starts in. -/
theorem bounded_wspMedia {media after : ℕ} (hmedia : media < stop) (hafter : after ≤ stop) :
    Bounded (· < stop) (wspMedia d media after) fun _ => True := by
  rw [wspMedia]
  have hread : Bounded (· < stop) (readByte d media) (· = d media) := bounded_readByte hmedia
  refine hread.bind fun b _ => ?_
  split
  · exact bounded_pure trivial
  · refine ((bounded_wspValue contentTypeSize).mono (fun i hi => ?_) fun _ _ => trivial).bind
      fun _ _ => bounded_pure trivial
    exact Nat.lt_of_lt_of_le hi hafter

/-- **`wsp_post_headers` stays inside its block**, unless that is an empty content type: then it
reads the byte behind it. -/
theorem wspPostHeaders_reads_iff :
    (∀ i ∈ (wspPostHeaders d stop).reads, i < stop) ↔ ¬ EmptyContentType (d.bytes 0 stop) := by
  constructor
  · intro hreads hempty
    obtain ⟨r, hr, hend⟩ := wspContentType_of_empty hempty
    refine absurd (hreads stop ?_) (lt_irrefl _)
    refine mem_reads_bind.mpr (Or.inr ⟨r, hr, mem_reads_bind.mpr (Or.inl ?_)⟩)
    rw [hend, wspMedia]
    exact mem_reads_bind.mpr (Or.inl (List.mem_singleton.mpr rfl))
  · intro hempty
    have hbound : Bounded (· < stop) (wspPostHeaders d stop) fun _ => True := by
      rw [wspPostHeaders]
      refine bounded_wspContentType.bind fun r hr => ?_
      have hle := r.2.2.2
      have hmedia : r.1 < stop := by
        have hne : r.1 ≠ stop := fun heq => hempty (hr.2 heq)
        omega
      exact (bounded_wspMedia hmedia hle).bind fun _ _ =>
        (bounded_wspHeaders []).bind fun _ _ => bounded_pure trivial
    exact hbound.1

/-! ## The whole datagram -/

/-- A read that stays where it belongs: in the datagram of `n` bytes, and in the header block while
that is parsed. -/
def Inside (n : ℕ) : DatagramRead → Prop
  | .packet i => i < n
  | .header start len i => start + len ≤ n ∧ i < len

instance (n : ℕ) (r : DatagramRead) : Decidable (Inside n r) :=
  match r with
  | .packet i => inferInstanceAs (Decidable (i < n))
  | .header start len i => inferInstanceAs (Decidable (start + len ≤ n ∧ i < len))

/-- Up to the header block `handle_datagram` stays in the datagram. -/
theorem bounded_datagramHead (framing : Framing) :
    Bounded (· < n) (datagramHead framing d n) fun _ => True := by
  have hpdu : Bounded (· < n) (pduAt framing d n) (· < n) := by
    refine ⟨?_, fun w hw => (pduAt_of_result hw).2⟩
    cases framing with
    | rover =>
      have hreads : Bounded (· < n) (pduAt .rover d n) fun _ => True := by
        rw [pduAt]
        split
        · exact bounded_fail
        · refine (bounded_readByte (by omega)).bind fun b _ => ?_
          split
          · exact bounded_fail
          · exact bounded_pure trivial
      exact hreads.1
    | wsp =>
      rw [pduAt]
      split <;> simp
  refine hpdu.bind fun w hw => ?_
  have hread : Bounded (· < n) (readByte d w) (· = d w) := bounded_readByte hw
  refine hread.bind fun type _ => ?_
  split
  · exact bounded_fail
  · refine bounded_readUintvar.bind fun u _ => ?_
    have hlen : Bounded (· < n) (headersLength d n (w + 1) type u.2) fun _ => True := by
      rw [headersLength]
      split
      · exact bounded_readUintvar.bind fun _ _ => bounded_pure trivial
      · exact bounded_pure trivial
    refine hlen.bind fun l _ => ?_
    dsimp only
    split
    · exact bounded_fail
    · next hfit =>
        exact (bounded_readBytes fun i _ hi => by omega).bind fun _ _ => bounded_pure trivial

/-- A datagram has a first byte, and four where it holds a WTP header. -/
theorem length_of_parseDatagram {framing : Framing} {r : Bytes × Option WapPost}
    (h : (parseDatagram framing d n).result = some r) :
    0 < n ∧ (framing = .rover → 4 ≤ n) ∧
      ∀ post, r.2 = some post → post.bodyAt + post.bodyLen = n := by
  obtain ⟨head, hhead, h⟩ := result_bind_eq_some.mp h
  have hhead : (datagramHead framing d n).result = some head := hhead
  obtain ⟨w, hw, -⟩ := result_bind_eq_some.mp hhead
  obtain ⟨htid, hwn⟩ := pduAt_of_result hw
  refine ⟨by omega, ?_, ?_⟩
  · rintro rfl
    obtain ⟨b, rest, hb, hlen, -⟩ := htid
    have := congrArg List.length hb
    rw [Memory.length_bytes, List.length_cons, hlen] at this
    omega
  · intro post hpost
    split at h
    · obtain rfl := Option.some.inj h
      cases hpost
    · next htype =>
        split at h
        · cases h
        · next hfit =>
            obtain ⟨headers, -, h⟩ := result_bind_eq_some.mp h
            obtain rfl := Option.some.inj h
            obtain rfl := Option.some.inj hpost
            have hle := (isRequest_of_datagramHead hhead (by omega)).1
            dsimp only
            omega

/-- Without an empty content type, a parse stays inside. -/
theorem bounded_parseDatagram {framing : Framing}
    (h : ∀ uri block rest, IsRequest framing (d.bytes 0 n) 0x60 uri block rest →
      ¬ EmptyContentType block) :
    Bounded (Inside n) (parseDatagram framing d n) fun r =>
      0 < n ∧ (framing = .rover → 4 ≤ n) ∧
        ∀ post, r.2 = some post → post.bodyAt + post.bodyLen = n := by
  have hreads : Bounded (Inside n) (parseDatagram framing d n) fun _ => True := by
    have hhead : Bounded (· < n) (datagramHead framing d n)
        fun head => (datagramHead framing d n).result = some head :=
      ⟨(bounded_datagramHead framing).1, fun head hhead => hhead⟩
    refine (hhead.mapReads fun i hi => hi).bind fun head hhead => ?_
    split
    · exact bounded_pure trivial
    · next htype =>
        split
        · exact bounded_fail
        · next hfit =>
            obtain ⟨hat, uri, -, hpost⟩ := isRequest_of_datagramHead hhead (by omega)
            rw [not_not.mp htype] at hpost
            have hempty := h _ _ _ hpost
            rw [← Nat.add_zero head.headersAt, ← Memory.bytes_from] at hempty
            have hblock : Bounded (· < head.headersLen)
                (wspPostHeaders (d.from head.headersAt) head.headersLen) fun _ => True :=
              ⟨wspPostHeaders_reads_iff.mpr hempty, fun _ _ => trivial⟩
            refine (hblock.mapReads fun i hi => ?_).bind fun _ _ => bounded_pure trivial
            exact ⟨by omega, hi⟩
  exact ⟨hreads.1, fun r hr => length_of_parseDatagram hr⟩

/-- A reply starts with bytes of the datagram. -/
theorem bounded_replyStart {framing : Framing} (hn : 0 < n) (hrover : framing = .rover → 4 ≤ n) :
    Bounded (· < n) (replyStart framing d) fun _ => True := by
  have hread : Bounded (· < n) (readByte d 0) (· = d 0) := bounded_readByte hn
  refine hread.bind fun b _ => ?_
  cases framing with
  | rover =>
    have hfour := hrover rfl
    exact (bounded_readBytes fun i _ hi => by omega).bind fun _ _ => bounded_pure trivial
  | wsp => exact bounded_pure trivial

/-- The body sent is the rest of the datagram. -/
theorem bounded_sentBody {post : Option WapPost} (sent : Bool)
    (h : ∀ p, post = some p → p.bodyAt + p.bodyLen = n) :
    Bounded (· < n) (sentBody d sent post) fun _ => True := by
  cases post with
  | none => exact bounded_pure trivial
  | some p =>
    have hend := h p rfl
    rw [sentBody]
    split
    · have hread : Bounded (· < n) (readBytes d p.bodyAt p.bodyLen)
          (· = d.bytes p.bodyAt p.bodyLen) := bounded_readBytes fun i _ hi => by omega
      exact hread.mono (fun _ hi => hi) fun _ _ => trivial
    · exact bounded_pure trivial

/-- **Datagram parsing stays inside each field** exactly where no post has an empty content type as
its whole header block: every read of `handle_datagram` is in the datagram, and every read of the
header block inside that block, whatever else the datagram holds. -/
theorem handleDatagram_inside_iff (framing : Framing) (d : Memory) (n : ℕ) (allowed sent : Bool) :
    (∀ r ∈ (handleDatagram framing d n allowed sent).reads, Inside n r) ↔
      ∀ uri block rest, IsRequest framing (d.bytes 0 n) 0x60 uri block rest →
        ¬ EmptyContentType block := by
  constructor
  · intro hreads uri block rest hpost hempty
    obtain ⟨head, hhead, htype, -, hlen, hfit, hblock⟩ := datagramHead_of_isRequest hpost
    rw [← hblock, ← Nat.add_zero head.headersAt, ← Memory.bytes_from] at hempty
    -- the byte behind the block is read, so the reads are not all inside
    have hout : ¬ ∀ i ∈ (wspPostHeaders (d.from head.headersAt) head.headersLen).reads,
        i < head.headersLen := fun hin => wspPostHeaders_reads_iff.mp hin hempty
    refine hout fun i hi => (hreads (.header head.headersAt head.headersLen i) ?_).2
    refine mem_reads_bind.mpr (Or.inl (mem_reads_bind.mpr (Or.inr ⟨head, hhead, ?_⟩)))
    rw [if_neg (not_not.mpr htype), if_neg (by omega)]
    exact mem_reads_bind.mpr (Or.inl (List.mem_map_of_mem hi))
  · intro h
    have hbound : Bounded (Inside n) (handleDatagram framing d n allowed sent) fun _ => True := by
      refine (bounded_parseDatagram h).bind fun request hn => ?_
      split
      · exact bounded_fail
      · refine ((bounded_replyStart hn.1 hn.2.1).mapReads fun i hi => hi).bind fun _ _ => ?_
        exact ((bounded_sentBody sent hn.2.2).mapReads fun i hi => hi).bind fun _ _ =>
          bounded_pure trivial
    exact hbound.1

/-- A post of `/` whose header block is a single zero, at the end of the datagram. -/
theorem emptyContentType_not_inside :
    ¬ ∀ r ∈ (handleDatagram .wsp (.ofBytes [1, 0x60, 1, 1, 0x2F, 0]) 6 true true).reads,
      Inside 6 r := by
  decide

end BoatRudder.WapGateway
