import BoatRudder.WebServer.RequestFraming

/-! # Heads that do not fit

The head loop answers 431 when its buffer is full and no sign of a complete head has shown. The
signs other than the empty line come first: two fields on the request line are a request of
HTTP/0.9, which has no head, and three let a plain connection be probed. -/

namespace BoatRudder.WebServer

/-- A stream whose head does not fit: no empty line, of either kind, in what the buffer takes. -/
structure Oversized (stream : Bytes) : Prop where
  /-- The stream fills the buffer. -/
  long : rawRequestSize - 1 ≤ stream.length
  /-- No two line ends in a row. -/
  noEmptyLine : ¬ emptyLine <:+: stream.take (rawRequestSize - 1)
  /-- No two line feeds in a row. -/
  noLineFeeds : ¬ [10, 10] <:+: stream.take (rawRequestSize - 1)

/-- No buffer of an oversized head shows an empty line. -/
theorem Oversized.not_infix {stream buf : Bytes} (h : Oversized stream) (hbuf : buf <+: stream)
    (hfits : buf.length ≤ rawRequestSize - 1) :
    ¬ emptyLine <:+: cstr buf ∧ ¬ [10, 10] <:+: cstr buf := by
  have htake : cstr buf <+: stream.take (rawRequestSize - 1) :=
    (List.takeWhile_prefix _).trans (List.prefix_take_iff.mpr ⟨hbuf, hfits⟩)
  exact ⟨fun hin => h.noEmptyLine (hin.trans htake.isInfix),
    fun hin => h.noLineFeeds (hin.trans htake.isInfix)⟩

/-- **A head that does not fit is refused**, and nothing of it is parsed, unless what was read at
some point shows a request line with two fields, or, on a plain connection, one with three. -/
theorem oversized_refused (ssl : Bool) (sock : Socket) (h : Oversized sock.left) :
    readRequest ssl sock = .refused 431 ∨
      ∃ buf, buf <+: sock.left ∧ buf.length ≤ rawRequestSize - 1 ∧
        readRequest ssl sock = .request buf ∧
        (requestFields buf = 2 ∨ requestFields buf = 3 ∧ ssl = false) := by
  have hend := readHead_spec ssl [] sock (fun h => absurd rfl h) (Nat.zero_le _)
    (fun h => absurd h (by decide)) (fun h => h)
  rw [List.nil_append] at hend
  cases hres : readHead ssl [] sock with
  | closed =>
    rw [hres] at hend
    cases hend with
    | closed short unfinished => exact absurd h.long (by omega)
  | tooLarge => exact Or.inl (by simp only [readRequest, hres])
  | read buf sock' =>
    rw [hres] at hend
    cases hend with
    | read start nonempty fits sign =>
      have hbuf : buf <+: sock.left := ⟨_, start⟩
      obtain ⟨hempty, hfeeds⟩ := h.not_infix hbuf fits
      have hbody : readBody buf sock' = .request buf := by
        simp only [readBody, findSub_eq_none_iff.mpr hempty]
      refine Or.inr ⟨buf, hbuf, fits, ?_, ?_⟩
      · simp only [readRequest, hres, hbody]
        rw [if_neg nonempty]
      · rcases sign with h2 | hblank | ⟨h3, -⟩
        · exact Or.inl h2
        · simp [hasBlankLine, findSub_eq_none_iff.mpr hempty,
            findSub_eq_none_iff.mpr hfeeds] at hblank
        · exact Or.inr h3

/-- A stream without a line end is refused. -/
theorem oversized_refused_noLine :
    readRequest false ⟨List.replicate 40000 65, [], []⟩ = .refused 431 := by
  have hno : ∀ {c : UInt8} {n : ℕ}, c ∈ List.replicate n 65 → c = 65 :=
    fun h => (List.mem_replicate.mp h).2
  have hover : Oversized (List.replicate 40000 65) := by
    refine ⟨by rw [List.length_replicate]; decide, ?_, ?_⟩
    · intro hin
      exact absurd (hno (List.take_subset _ _ (hin.subset (by decide : 10 ∈ emptyLine))))
        (by decide)
    · intro hin
      exact absurd (hno (List.take_subset _ _ (hin.subset (by decide : (10 : UInt8) ∈ [10, 10]))))
        (by decide)
  refine (oversized_refused false ⟨List.replicate 40000 65, [], []⟩ hover).resolve_right ?_
  rintro ⟨buf, hbuf, -, -, hfields⟩
  have hzero := requestFields_eq_zero fun h10 => absurd (hno (hbuf.subset h10)) (by decide)
  omega

/-- A request of HTTP/0.9 is taken as soon as its line is there, whatever follows it. -/
theorem simpleRequest_not_refused :
    Oversized (lit "GET /\r\n" ++ List.replicate 40000 65) ∧
      readRequest true ⟨lit "GET /\r\n" ++ List.replicate 40000 65, [7], []⟩ =
        .request (lit "GET /\r\n") := by
  have hcount : ∀ {c : UInt8} {pat : Bytes}, 65 ≠ c → 1 < pat.count c →
      (lit "GET /\r\n").count c = 1 →
      ¬ pat <:+: (lit "GET /\r\n" ++ List.replicate 40000 65).take (rawRequestSize - 1) := by
    intro c pat hc hpat hline hin
    have hle := (hin.sublist.trans (List.take_sublist _ _)).count_le c
    rw [List.count_append, hline, List.count_replicate, if_neg (by simpa using hc)] at hle
    omega
  refine ⟨⟨by rw [List.length_append, List.length_replicate]; decide, ?_, ?_⟩, ?_⟩
  · exact hcount (c := 13) (by decide) (by decide) (by decide)
  · exact hcount (c := 10) (by decide) (by decide) (by decide)
  · decide +kernel

end BoatRudder.WebServer
