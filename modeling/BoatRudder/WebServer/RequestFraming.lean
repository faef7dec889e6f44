import BoatRudder.WebServer.RequestReading

/-! # Where a request ends

The reading of a request does not depend on how its bytes arrive. Every buffer the head loop looks
at starts the same stream, so what the loop ends with is what the four signs say of some start of
the stream; and a start of a well-formed request shows none of them before its head is whole. -/

namespace BoatRudder.WebServer

/-! ## What the head loop ends with -/

/-- A buffer after which the loop goes on, unless it is full. -/
def Unfinished (buf : Bytes) : Prop :=
  buf ≠ [] → requestFields buf ≠ 2 ∧ hasBlankLine buf = false

/-- The probe that lets the head of a request with a version end without an empty line. -/
def Probed (ssl : Bool) (buf : Bytes) : Prop := requestFields buf = 3 ∧ ssl = false

instance (ssl : Bool) (buf : Bytes) : Decidable (Probed ssl buf) := inferInstanceAs (Decidable (_ ∧ _))

/-- What the loop can come to on the stream `whole`, `paused` saying that a probe found nothing. -/
inductive HeadEnd (ssl : Bool) (whole : Bytes) (paused : Prop) : HeadRead → Prop
  | closed (short : whole.length < rawRequestSize - 1) (unfinished : Unfinished whole) :
      HeadEnd ssl whole paused .closed
  | tooLarge {buf : Bytes} (start : buf <+: whole) (full : buf.length = rawRequestSize - 1)
      (unfinished : Unfinished buf) (unprobed : ¬ Probed ssl buf) :
      HeadEnd ssl whole paused .tooLarge
  | read {buf : Bytes} {sock : Socket} (start : buf ++ sock.left = whole) (nonempty : buf ≠ [])
      (fits : buf.length ≤ rawRequestSize - 1)
      (sign : requestFields buf = 2 ∨ hasBlankLine buf = true ∨
        Probed ssl buf ∧ (buf.length = rawRequestSize - 1 ∨ paused)) :
      HeadEnd ssl whole paused (.read buf sock)

/-- The buffer of `size` bytes after a read into what is free of it. -/
theorem Socket.read_into {sock : Socket} {buf : Bytes} {size : ℕ} (hroom : ¬ size ≤ buf.length)
    (h : ¬ (sock.read (size - buf.length)).1 = []) :
    (buf ++ (sock.read (size - buf.length)).1) ++ (sock.read (size - buf.length)).2.left =
        buf ++ sock.left ∧
      buf ++ (sock.read (size - buf.length)).1 ≠ [] ∧
      (buf ++ (sock.read (size - buf.length)).1).length ≤ size := by
  refine ⟨by rw [List.append_assoc, Socket.read_append], by simp [h], ?_⟩
  have hle := sock.length_read_le (size - buf.length)
  rw [List.length_append]
  omega

/-- The loop ends on any stream, from any buffer that it can go on with. -/
theorem readHead_spec (ssl : Bool) (buf : Bytes) (sock : Socket) {paused : Prop}
    (hopen : Unfinished buf) (hfits : buf.length ≤ rawRequestSize - 1)
    (hfull : rawRequestSize - 1 ≤ buf.length → Probed ssl buf)
    (hpaused : false ∈ sock.polls → paused) :
    HeadEnd ssl (buf ++ sock.left) paused (readHead ssl buf sock) := by
  have hsize : 0 < rawRequestSize - 1 := by decide
  fun_induction readHead ssl buf sock with
  | case1 buf sock hlen =>
    have hne : buf ≠ [] := List.length_pos_iff.mp (by omega)
    exact .read rfl hne hfits (Or.inr (Or.inr ⟨hfull hlen, Or.inl (by omega)⟩))
  | case2 buf sock hlen hnil =>
    have hleft := (Socket.read_eq_nil_iff (by omega)).mp hnil
    rw [hleft, List.append_nil]
    exact .closed (by omega) hopen
  | case3 buf sock hlen hread buf' sock' hfields =>
    obtain ⟨happ, hne, hle⟩ := Socket.read_into hlen hread
    exact .read happ hne hle (Or.inl hfields)
  | case4 buf sock hlen hread buf' sock' hfields hblank =>
    obtain ⟨happ, hne, hle⟩ := Socket.read_into hlen hread
    exact .read happ hne hle (Or.inr (Or.inl hblank))
  | case5 buf sock hlen hread buf' sock' hfields hblank hprobe hpoll ih =>
    obtain ⟨happ, -, hle⟩ := Socket.read_into hlen hread
    rw [← happ]
    exact ih (fun _ => ⟨hfields, by simpa using hblank⟩) hle (fun _ => hprobe)
      (fun h => hpaused (List.mem_of_mem_tail h))
  | case6 buf sock hlen hread buf' sock' hfields hblank hprobe hpoll =>
    obtain ⟨happ, hne, hle⟩ := Socket.read_into hlen hread
    have hfalse : false ∈ sock.polls := by
      cases hpolls : sock.polls with
      | nil => exact absurd (by simp [sock', Socket.read, Socket.poll, hpolls]) hpoll
      | cons first rest =>
        simp only [sock', Socket.read, Socket.poll, hpolls, List.headD_cons,
          Bool.not_eq_true] at hpoll
        simp [hpoll]
    exact .read happ hne hle (Or.inr (Or.inr ⟨hprobe, Or.inr (hpaused hfalse)⟩))
  | case7 buf sock hlen hread buf' hfields hblank hprobe hfull' =>
    obtain ⟨happ, -, hle⟩ := Socket.read_into hlen hread
    exact .tooLarge ⟨_, happ⟩ (hle.antisymm hfull') (fun _ => ⟨hfields, by simpa using hblank⟩) hprobe
  | case8 buf sock hlen hread buf' sock' hfields hblank hprobe hroom ih =>
    obtain ⟨happ, -, hle⟩ := Socket.read_into hlen hread
    rw [← happ]
    exact ih (fun _ => ⟨hfields, by simpa using hblank⟩) hle
      (fun h => absurd h hroom) hpaused

/-! ## Fields of a line -/

/-- A field is read where there is a word, and the rest of the string has all the other words. -/
theorem scanField_of_words {width : ℕ} {s : Bytes} (hwidth : 0 < width)
    (h : strtok isSpace s ≠ []) : ∃ field rest, scanField width s = some (field, rest) ∧
      (strtok isSpace s).length ≤ (strtok isSpace rest).length + 1 := by
  obtain ⟨word, words, hwords⟩ := List.exists_cons_of_ne_nil h
  obtain ⟨rest, hscan, hrest⟩ := scanField_of_cons hwidth hwords
  refine ⟨word.take width, rest, hscan, ?_⟩
  rw [hwords, hrest, List.length_cons]
  split_ifs
  · exact le_rfl
  · exact Nat.le_succ _

/-- As many fields are read as there are words for. -/
theorem scanFields_of_words {widths : List ℕ} (hwidths : ∀ width ∈ widths, 0 < width) {s : Bytes}
    (h : widths.length ≤ (strtok isSpace s).length) : scanFields widths s = widths.length := by
  induction widths generalizing s with
  | nil => rfl
  | cons width widths ih =>
    obtain ⟨hwidth, hrest⟩ := List.forall_mem_cons.mp hwidths
    rw [List.length_cons] at h
    obtain ⟨field, rest, hfield, hle⟩ :=
      scanField_of_words (s := s) hwidth (List.length_pos_iff.mp (by omega))
    rw [scanFields, hfield]
    simp only [ih hrest (s := rest) (by omega), List.length_cons]

/-- There are no fields before the line ends. -/
theorem requestFields_eq_zero {p : Bytes} (h : 10 ∉ p) : requestFields p = 0 := by
  have hnot : ∀ pat : Bytes, 10 ∈ pat → findSub pat (cstr p) = none := by
    intro pat hpat
    rw [findSub_eq_none_iff]
    intro hin
    exact h ((List.takeWhile_prefix _).subset (hin.subset hpat))
  rw [requestFields, firstLineEnd, hnot crlf (by decide), hnot [10] (by decide)]
  rfl

/-! ## The signs on a well-formed request -/

/-- A request whose head is well formed: the request line, of fewer than 600 bytes, has a version,
and the head fits. -/
structure WellFormed (line : Bytes) (headers : List Bytes) : Prop where
  /-- Each line is a line of text. -/
  plain : ∀ l ∈ line :: headers, IsLine l ∧ 0 ∉ l
  /-- The method, the URL and the version, separated by white space. -/
  versioned : 3 ≤ (strtok isSpace line).length
  /-- The length of the request line. -/
  lineFits : line.length < 600
  /-- The empty line is the one that ends the head. -/
  full : ∀ l ∈ headers, l ≠ []
  /-- The length of the head. -/
  headFits : (renderHead (line :: headers)).length < rawRequestSize

section

variable {line : Bytes} {headers : List Bytes} (hwf : WellFormed line headers)
include hwf

/-- A head holds no NUL. -/
theorem WellFormed.zero_notMem : 0 ∉ renderHead (line :: headers) :=
  notMem_renderHead (by decide) fun l hl => (hwf.plain l hl).2

/-- A head, and what C sees of the rest. -/
theorem WellFormed.cstr_head (t : Bytes) :
    cstr (renderHead (line :: headers) ++ t) = renderHead (line :: headers) ++ cstr t := by
  rw [cstr, List.takeWhile_append_of_pos]
  · rfl
  · intro b hb
    simpa using ne_of_mem_of_not_mem hb hwf.zero_notMem

/-- The empty line is where the head ends. -/
theorem WellFormed.findSub_emptyLine (t : Bytes) :
    findSub emptyLine (cstr (renderHead (line :: headers) ++ t)) =
      some ((renderHead (line :: headers)).length - 4) := by
  rw [hwf.cstr_head]
  exact findSub_renderHead (by simp) (fun l hl => (hwf.plain l hl).1)
    (fun l hl => hwf.full l (by simpa using hl)) _

/-- The empty line shows once the head is there. -/
theorem WellFormed.hasBlankLine_append (t : Bytes) :
    hasBlankLine (renderHead (line :: headers) ++ t) = true := by
  simp [hasBlankLine, hwf.findSub_emptyLine]

/-- **No empty line shows before the head is there.** -/
theorem WellFormed.head_prefix_of_hasBlankLine {p t : Bytes}
    (hp : p <+: renderHead (line :: headers) ++ t) (h : hasBlankLine p = true) :
    renderHead (line :: headers) <+: p := by
  by_contra hno
  have hph : p <+: renderHead (line :: headers) :=
    (List.prefix_or_prefix_of_prefix hp (List.prefix_append _ t)).resolve_right hno
  have hlen : p.length < (renderHead (line :: headers)).length := by
    by_contra hle
    exact hno (hph.eq_of_length_le (by omega) ▸ List.prefix_refl _)
  rw [hasBlankLine, cstr_eq_self fun h0 => hwf.zero_notMem (hph.subset h0), Bool.or_eq_true,
    Option.isSome_iff_exists, Option.isSome_iff_exists] at h
  obtain ⟨u, hu⟩ := hph
  rcases h with ⟨i, hi⟩ | ⟨i, hi⟩
  · -- an empty line found in it is the one that ends the head
    have hend := hwf.findSub_emptyLine []
    rw [List.append_nil, cstr_eq_self hwf.zero_notMem, ← hu, findSub_append hi, hu] at hend
    have hle := (findSub_add_le hi).resolve_right (by decide)
    have h4 : emptyLine.length = 4 := by decide
    have := Option.some.inj hend
    omega
  · refine @not_lineFeeds_renderHead (line :: headers) (fun l hl => (hwf.plain l hl).1) ?_
    have hin : ([10, 10] : Bytes) <:+: p := by
      by_contra hnot
      rw [findSub_eq_none_iff.mpr hnot] at hi
      cases hi
    rw [← hu]
    exact (hin.trans (List.prefix_append p u).isInfix).trans (List.suffix_cons 10 _).isInfix

/-- **The request line never shows as one without a version.** -/
theorem WellFormed.requestFields_ne_two {p t : Bytes}
    (hp : p <+: renderHead (line :: headers) ++ t) : requestFields p ≠ 2 := by
  obtain ⟨hline, hzero⟩ := hwf.plain line (by simp)
  rw [renderHead_cons, List.append_assoc] at hp
  by_cases hlen : line.length + 2 ≤ p.length
  · -- the whole line is there, with its end
    have hshape : line ++ [13, 10] <+: p := by
      have hthere : line ++ [13, 10] <+: line ++ (13 :: 10 :: renderHead headers ++ t) :=
        ⟨renderHead headers ++ t, by simp⟩
      exact List.prefix_of_prefix_length_le hthere hp (by simpa using hlen)
    obtain ⟨rest, rfl⟩ := hshape
    have hcstr : cstr (line ++ [13, 10] ++ rest) = line ++ (13 :: 10 :: cstr rest) := by
      rw [cstr, List.append_assoc, List.takeWhile_append_of_pos
        (fun b hb => by simpa using ne_of_mem_of_not_mem hb hzero)]
      rfl
    have hend : firstLineEnd (line ++ (13 :: 10 :: cstr rest)) = some line.length := by
      rw [firstLineEnd, crlf, findSub_cons_append_of_notMem hline.1]
      simp [findSub]
    have hfields : scanFields [15, 599, 15] line = 3 :=
      scanFields_of_words (by decide) hwf.versioned
    have h600 := hwf.lineFits
    rw [requestFields, hcstr, hend]
    simp only [List.take_left, hfields]
    split <;> decide
  · -- no line feed is there yet
    have hno : 10 ∉ p := by
      intro hmem
      have hstart : p <+: line ++ [13] := by
        refine List.prefix_of_prefix_length_le hp ⟨10 :: renderHead headers ++ t, by simp⟩ ?_
        rw [List.length_append, List.length_singleton]
        omega
      rcases List.mem_append.mp (hstart.subset hmem) with h | h
      · exact hline.2 h
      · simp at h
    rw [requestFields_eq_zero hno]
    exact Nat.zero_ne_add_one 1

/-- **Without a pause the loop reads the whole head**, or up to the end of a connection that ends
before it does. -/
theorem WellFormed.readHead (ssl : Bool) {sock : Socket} {t : Bytes}
    (hleft : sock.left <+: renderHead (line :: headers) ++ t) (hpolls : false ∉ sock.polls) :
    (renderHead (line :: headers) <+: sock.left ∧ ∃ arrived sock',
        readHead ssl [] sock = .read (renderHead (line :: headers) ++ arrived) sock' ∧
          renderHead (line :: headers) ++ arrived ++ sock'.left = sock.left) ∨
      (¬ renderHead (line :: headers) <+: sock.left ∧ readHead ssl [] sock = .closed) := by
  have hfits := hwf.headFits
  have hend := readHead_spec ssl [] sock (fun h => absurd rfl h) (Nat.zero_le _)
    (fun h => absurd h (by decide)) (fun h => hpolls h)
  rw [List.nil_append] at hend
  -- what has no empty line in it is no more than a part of the head
  have hpart : ∀ {buf : Bytes}, buf <+: sock.left → hasBlankLine buf = false →
      ¬ renderHead (line :: headers) <+: buf := by
    rintro buf - hblank ⟨u, rfl⟩
    rw [hwf.hasBlankLine_append] at hblank
    cases hblank
  cases hres : WebServer.readHead ssl [] sock with
  | closed =>
    rw [hres] at hend
    cases hend with
    | closed short unfinished =>
      refine Or.inr ⟨?_, rfl⟩
      intro hhead
      have hne : sock.left ≠ [] := by
        rintro hnil
        have := length_renderHead_pos headers
        have := hhead.length_le
        rw [hnil, renderHead_cons] at this
        simp at this
      exact hpart (List.prefix_refl _) (unfinished hne).2 hhead
  | tooLarge =>
    rw [hres] at hend
    cases hend with
    | tooLarge start full unfinished unprobed =>
      have hne := List.length_pos_iff.mp (full ▸ (by decide : 0 < rawRequestSize - 1))
      -- a full buffer holds the head
      refine absurd ?_ (hpart start (unfinished hne).2)
      exact (List.prefix_or_prefix_of_prefix (start.trans hleft)
        (List.prefix_append _ t)).elim
        (fun h => h.eq_of_length_le (by omega) ▸ List.prefix_refl _) id
  | read buf sock' =>
    rw [hres] at hend
    cases hend with
    | read start nonempty fits sign =>
      have hbuf : buf <+: renderHead (line :: headers) ++ t :=
        (show buf <+: sock.left from ⟨_, start⟩).trans hleft
      have hhead : renderHead (line :: headers) <+: buf := by
        rcases sign with h2 | hblank | ⟨-, hfull | hpause⟩
        · exact absurd h2 (hwf.requestFields_ne_two hbuf)
        · exact hwf.head_prefix_of_hasBlankLine hbuf hblank
        · exact (List.prefix_or_prefix_of_prefix hbuf (List.prefix_append _ t)).elim
            (fun h => h.eq_of_length_le (by omega) ▸ List.prefix_refl _) id
        · exact hpause.elim
      obtain ⟨arrived, rfl⟩ := hhead
      exact Or.inl ⟨⟨arrived ++ sock'.left, by rw [← List.append_assoc, start]⟩, arrived,
        sock', rfl, start⟩

end

/-! ## The declared length -/

/-- The line of a head that declares the length of the body: the first one of its name. -/
def lengthLine (headers : List Bytes) : Option Bytes := headers.find? isLengthLine

/-- The line `l` declares `n` bytes, in decimal digits that blanks may precede and anything but a
digit may follow. -/
def Declares (l : Bytes) (n : ℕ) : Prop :=
  ∃ blanks digits rest, l.drop 15 = blanks ++ (digits ++ rest) ∧ (∀ b ∈ blanks, isSpace b = true) ∧
    digits ≠ [] ∧ (∀ b ∈ digits, isDigit b = true) ∧ digitsValue 10 0 digits = n ∧
    ∀ b ∈ rest.head?, isDigit b = false

/-- A line does not get the name of a header from what follows its end. -/
theorem isLengthLine_append (l t : Bytes) :
    isLengthLine (l ++ 13 :: t) = isLengthLine l := by
  by_cases hlen : 15 ≤ l.length
  · rw [isLengthLine, List.take_append_of_le_length hlen, isLengthLine]
  · have hcr : 13 ∈ (l ++ 13 :: t).take 15 := by
      rw [List.take_append, List.mem_append]
      right
      rw [show 15 - l.length = (14 - l.length) + 1 by omega, List.take_succ_cons]
      simp
    have hno : isLengthLine (l ++ 13 :: t) = false := by
      rw [isLengthLine, Bool.eq_false_iff, Ne, eqNoCase_iff]
      intro heq
      have hmem : 13 ∈ lower ((l ++ 13 :: t).take 15) :=
        List.mem_map.mpr ⟨13, hcr, by decide⟩
      rw [heq] at hmem
      revert hmem
      decide
    have hshort : isLengthLine l = false := by
      rw [isLengthLine, Bool.eq_false_iff, Ne, eqNoCase_iff, List.take_of_length_le (by omega)]
      intro heq
      have := congrArg List.length heq
      simp only [lower, List.length_map] at this
      rw [this] at hlen
      exact hlen (by decide)
    rw [hno, hshort]

/-- The search goes past what has no end of a line in it. -/
theorem contentLength_append {a : Bytes} (ha : 13 ∉ a) (t : Bytes) (stop : ℕ) :
    contentLength (a ++ t) (a.length + stop) = contentLength t stop := by
  induction a with
  | nil => simp
  | cons c a ih =>
    obtain ⟨hc, hrest⟩ := not_or.mp (List.mem_cons.not.mp ha)
    have hno : crlf.isPrefixOf (c :: (a ++ t)) = false := by
      simp [crlf, List.isPrefixOf, hc]
    rw [List.cons_append, List.length_cons,
      show a.length + 1 + stop = (a.length + stop) + 1 by omega, contentLength, hno, ih hrest]
    rfl

/-- The length is read off the first line of its name, wherever the body starts. -/
theorem contentLength_headers {headers : List Bytes} (h : ∀ l ∈ headers, IsLine l) (t : Bytes) :
    ∃ junk, contentLength (crlf ++ (renderHead headers ++ t)) ((renderHead headers).length - 2) =
      (lengthLine headers).map fun l =>
        atoi ((l.drop 15 ++ 13 :: junk).dropWhile (· == 32)) := by
  induction headers with
  | nil => exact ⟨[], rfl⟩
  | cons l headers ih =>
    obtain ⟨hl, hrest⟩ := List.forall_mem_cons.mp h
    have hstop : (renderHead (l :: headers)).length - 2 =
        (10 :: l).length + ((renderHead headers).length - 2) + 1 := by
      have := length_renderHead_pos headers
      rw [renderHead_cons]
      simp only [List.length_append, List.length_cons]
      omega
    have hshape : crlf ++ (renderHead (l :: headers) ++ t) =
        13 :: ((10 :: l) ++ (crlf ++ (renderHead headers ++ t))) := by
      simp [renderHead_cons, crlf]
    have hname : isLengthLine ((((10 :: l) ++ (crlf ++ (renderHead headers ++ t))).drop 1)) =
        isLengthLine l := isLengthLine_append l _
    rw [hstop, hshape, contentLength, hname]
    by_cases hfound : isLengthLine l = true
    · refine ⟨10 :: (renderHead headers ++ t), ?_⟩
      have hlen : 15 ≤ l.length := by
        rw [isLengthLine, eqNoCase_iff] at hfound
        have := congrArg List.length hfound
        simp only [lower, List.length_map, List.length_take] at this
        rw [show (lit "Content-Length:").length = 15 from by decide] at this
        omega
      have hpre : crlf.isPrefixOf
          (13 :: ((10 :: l) ++ (crlf ++ (renderHead headers ++ t)))) = true := by
        simp [crlf, List.isPrefixOf]
      rw [hpre, hfound, lengthLine, List.find?_cons_of_pos hfound]
      have hdrop : ((10 :: l) ++ (crlf ++ (renderHead headers ++ t))).drop 16 =
          l.drop 15 ++ 13 :: 10 :: (renderHead headers ++ t) := by
        rw [List.cons_append, List.drop_succ_cons, List.drop_append_of_le_length hlen]
        rfl
      rw [hdrop]
      rfl
    · obtain ⟨junk, hjunk⟩ := ih hrest
      refine ⟨junk, ?_⟩
      rw [Bool.not_eq_true] at hfound
      rw [hfound, Bool.and_false, if_neg Bool.false_ne_true,
        contentLength_append (by simpa using hl.1), hjunk, lengthLine, lengthLine,
        List.find?_cons_of_neg (by simp [hfound])]

/-- The number a declaration stands for. -/
theorem atoi_declares {l : Bytes} {n : ℕ} (h : Declares l n) (hn : n ≤ maxBodySize)
    (junk : Bytes) : atoi ((l.drop 15 ++ 13 :: junk).dropWhile (· == 32)) = n := by
  obtain ⟨blanks, digits, rest, hdrop, hblanks, hne, hdigits, hvalue, hrest⟩ := h
  -- the blanks that the loop drops are some that `atoi` would pass
  have hskip : (l.drop 15 ++ 13 :: junk).dropWhile (· == 32) =
      blanks.dropWhile (· == 32) ++ (digits ++ (rest ++ 13 :: junk)) := by
    obtain ⟨d, ds, rfl⟩ := List.exists_cons_of_ne_nil hne
    have hd : (d == 32) = false := by
      have := hdigits d (by simp)
      simp only [isDigit, Bool.and_eq_true, decide_eq_true_eq] at this
      grind
    rw [hdrop, List.append_assoc, List.append_assoc, List.dropWhile_append]
    split
    · next hnil =>
        rw [List.isEmpty_iff.mp hnil, List.nil_append, List.cons_append,
          List.dropWhile_cons_of_neg (by simp [hd])]
    · rfl
  have hnext : ∀ b ∈ (rest ++ 13 :: junk).head?, isDigit b = false := by
    cases rest with
    | nil =>
      intro b hb
      obtain rfl : (13 : UInt8) = b := by simpa using hb
      decide
    | cons c rest => simpa using hrest
  have hdropped : ∀ b ∈ blanks.dropWhile (· == 32), isSpace b = true :=
    fun b hb => hblanks b ((List.dropWhile_suffix _).subset hb)
  have hbound : n ≤ 10 * 1024 * 1024 := hn
  rw [hskip, atoi_digits hdropped hne hdigits (by omega) hnext, hvalue]

/-! ## The body -/

/-- A head with a line in it has room for the end of the line and the empty line. -/
theorem length_renderHead_cons_sub (line : Bytes) (headers : List Bytes) :
    (renderHead (line :: headers)).length - 4 + 4 = (renderHead (line :: headers)).length := by
  have := length_renderHead_pos headers
  rw [renderHead_cons]
  simp only [List.length_append, List.length_cons]
  omega

section

variable {line : Bytes} {headers : List Bytes} (hwf : WellFormed line headers)
include hwf

/-- The length in a buffer that starts with the head. -/
theorem WellFormed.contentLength (arrived : Bytes) :
    ∃ junk, contentLength (cstr (renderHead (line :: headers) ++ arrived))
        ((renderHead (line :: headers)).length - 4) =
      (lengthLine headers).map fun l =>
        atoi ((l.drop 15 ++ 13 :: junk).dropWhile (· == 32)) := by
  obtain ⟨junk, hjunk⟩ := contentLength_headers
    (fun l hl => (hwf.plain l (List.mem_cons_of_mem _ hl)).1) (cstr arrived)
  refine ⟨junk, ?_⟩
  have hlen := length_renderHead_pos headers
  have hshape : renderHead (line :: headers) ++ cstr arrived =
      line ++ (crlf ++ (renderHead headers ++ cstr arrived)) := by
    simp [renderHead_cons, crlf]
  have hstop : (renderHead (line :: headers)).length - 4 =
      line.length + ((renderHead headers).length - 2) := by
    rw [renderHead_cons]
    simp only [List.length_append, List.length_cons]
    omega
  rw [hwf.cstr_head, hshape, hstop, contentLength_append (hwf.plain line (by simp)).1.1, hjunk]

/-- **A declared body is the bytes after the head, as many as declared**, and there is no request
when they do not all come. -/
theorem WellFormed.readBody_declared {l : Bytes} {n : ℕ} (hl : lengthLine headers = some l)
    (hn : Declares l n) (hmax : n ≤ maxBodySize) (arrived : Bytes) (sock : Socket) :
    readBody (renderHead (line :: headers) ++ arrived) sock =
      if n ≤ (arrived ++ sock.left).length then
        .request (renderHead (line :: headers) ++ (arrived ++ sock.left).take n)
      else .closed := by
  obtain ⟨junk, hlength⟩ := hwf.contentLength arrived
  rw [hl, Option.map_some, atoi_declares hn hmax] at hlength
  have hmaxZ : ¬ (maxBodySize : ℤ) < n := by omega
  simp only [readBody, hwf.findSub_emptyLine, hlength, length_renderHead_cons_sub, Option.getD_some, hmaxZ,
    if_false, List.length_append, Int.toNat_natCast]
  by_cases hsurplus : n < arrived.length
  · -- more than the body arrived with the head
    have hcut : (0 : ℤ) ≤ n ∧ (n : ℤ) <
        ((renderHead (line :: headers)).length + arrived.length : ℕ) -
          (renderHead (line :: headers)).length := by omega
    rw [if_pos hcut, List.take_length_add_append, if_neg, if_pos (by omega),
      List.take_append_of_le_length (by omega)]
    simp only [List.length_append, List.length_take]
    omega
  · have hkeep : ¬ ((0 : ℤ) ≤ n ∧ (n : ℤ) <
        ((renderHead (line :: headers)).length + arrived.length : ℕ) -
          (renderHead (line :: headers)).length) := by omega
    rw [if_neg hkeep, List.length_append]
    by_cases hmore : arrived.length < n
    · rw [if_pos (by omega), readRest_eq, Nat.add_sub_cancel_left]
      by_cases hall : n ≤ arrived.length + sock.left.length
      · rw [if_pos (by omega), if_pos hall]
        simp only [List.append_assoc, List.take_append,
          List.take_of_length_le (show arrived.length ≤ n by omega)]
      · rw [if_neg (by omega), if_neg hall]
    · rw [if_neg (by omega), if_pos (by omega), List.take_append_of_le_length (by omega),
        List.take_of_length_le (by omega)]

/-- Without a declared length the body is what arrived with the head. -/
theorem WellFormed.readBody_undeclared (hl : lengthLine headers = none) (arrived : Bytes)
    (sock : Socket) : readBody (renderHead (line :: headers) ++ arrived) sock =
      .request (renderHead (line :: headers) ++ arrived) := by
  obtain ⟨junk, hlength⟩ := hwf.contentLength arrived
  rw [hl, Option.map_none] at hlength
  simp only [readBody, hwf.findSub_emptyLine, hlength, Option.getD_none]
  rw [if_neg (by decide), if_neg (by simp)]

/-- A request that is read whole is parsed, and its body is what follows the head. -/
theorem WellFormed.parse (body : Bytes) :
    ∃ req, parseHttpRequest (renderHead (line :: headers) ++ body) = some req ∧
      req.body = if body = [] then none else some body := by
  obtain ⟨hline, hzero⟩ := hwf.plain line (by simp)
  have hne : line ≠ [] := by
    rintro rfl
    simpa using hwf.versioned
  have hlines : ∃ rest, requestLines (renderHead (line :: headers) ++ body) = line :: rest := by
    rw [requestLines, hwf.cstr_head, renderHead_cons, List.append_assoc, List.cons_append,
      strtok_append (by decide), strtok_of_forall (fun c hc => ?_) hne]
    · exact ⟨_, rfl⟩
    · simp only [isLineEnd, Bool.or_eq_false_iff, beq_eq_false_iff_ne]
      exact ⟨ne_of_mem_of_not_mem hc hline.1, ne_of_mem_of_not_mem hc hline.2⟩
  obtain ⟨rest, hrest⟩ := hlines
  have hwords := hwf.versioned
  obtain ⟨method, s, hmethod, hle⟩ := @scanField_of_words 15 line (by decide)
    (List.length_pos_iff.mp (by omega))
  obtain ⟨url, t, hurl, -⟩ := @scanField_of_words 1023 s (by decide)
    (List.length_pos_iff.mp (by omega))
  refine ⟨_, by simp only [parseHttpRequest, hrest, scanRequestLine, hmethod, hurl]; rfl, ?_⟩
  simp only [hwf.findSub_emptyLine, length_renderHead_cons_sub, List.drop_left,
    List.length_eq_zero_iff]

/-- The reading of a connection that starts with the head and declares a length. -/
theorem WellFormed.readRequest_declared {l : Bytes} {n : ℕ} (hl : lengthLine headers = some l)
    (hn : Declares l n) (hmax : n ≤ maxBodySize) (ssl : Bool) {sock : Socket} {tail : Bytes}
    (hleft : sock.left = renderHead (line :: headers) ++ tail) (hpolls : false ∉ sock.polls) :
    readRequest ssl sock =
      if n ≤ tail.length then .request (renderHead (line :: headers) ++ tail.take n)
      else .closed := by
  obtain ⟨-, arrived, sock', hread, hstart⟩ | ⟨hno, -⟩ :=
    hwf.readHead ssl (t := tail) (by rw [hleft]) hpolls
  · rw [hleft, List.append_assoc, List.append_cancel_left_eq] at hstart
    simp only [readRequest, hread, hwf.readBody_declared hl hn hmax, hstart]
    rw [if_neg (by simp [renderHead_cons])]
  · exact absurd ⟨tail, hleft.symm⟩ hno

/-- The reading of a connection that starts with a head that declares no length. -/
theorem WellFormed.readRequest_undeclared (hl : lengthLine headers = none) (ssl : Bool)
    {sock : Socket} {tail : Bytes} (hleft : sock.left = renderHead (line :: headers) ++ tail)
    (hpolls : false ∉ sock.polls) : ∃ arrived, arrived <+: tail ∧
      readRequest ssl sock = .request (renderHead (line :: headers) ++ arrived) := by
  obtain ⟨-, arrived, sock', hread, hstart⟩ | ⟨hno, -⟩ :=
    hwf.readHead ssl (t := tail) (by rw [hleft]) hpolls
  · rw [hleft, List.append_assoc, List.append_cancel_left_eq] at hstart
    refine ⟨arrived, ⟨_, hstart⟩, ?_⟩
    simp only [readRequest, hread, hwf.readBody_undeclared hl]
    rw [if_neg (by simp [renderHead_cons])]
  · exact absurd ⟨tail, hleft.symm⟩ hno

/-- The reading of a connection that ends within the head. -/
theorem WellFormed.readRequest_short (ssl : Bool) {sock : Socket} {t : Bytes}
    (hleft : sock.left <+: renderHead (line :: headers) ++ t)
    (hshort : ¬ renderHead (line :: headers) <+: sock.left) (hpolls : false ∉ sock.polls) :
    readRequest ssl sock = .closed := by
  obtain ⟨hhead, -⟩ | ⟨-, hread⟩ := hwf.readHead ssl hleft hpolls
  · exact absurd hhead hshort
  · simp only [readRequest, hread]

end

/-! ## The framing -/

/-- **The reading of a request does not depend on how its bytes arrive**, as long as the client does
not pause. With a declared length the request is the head and the body, whatever follows them, and
there is none when the connection ends early; without one the bytes that came with the head are
the body. -/
theorem request_framed {line : Bytes} {headers : List Bytes} (hwf : WellFormed line headers) :
    (∀ l n body, lengthLine headers = some l → Declares l n → n ≤ maxBodySize →
      body.length = n →
      ∃ req, parseHttpRequest (renderHead (line :: headers) ++ body) = some req ∧
        req.body = (if body = [] then none else some body) ∧
        (∀ ssl surplus sock, sock.left = renderHead (line :: headers) ++ body ++ surplus →
          false ∉ sock.polls → httpRoute ssl sock = acceptRequest req) ∧
        ∀ ssl sock, sock.left <+: renderHead (line :: headers) ++ body →
          sock.left ≠ renderHead (line :: headers) ++ body → false ∉ sock.polls →
          httpRoute ssl sock = .closed) ∧
    (lengthLine headers = none →
      (∀ ssl surplus sock, sock.left = renderHead (line :: headers) ++ surplus →
        false ∉ sock.polls → ∃ arrived req, arrived <+: surplus ∧
          parseHttpRequest (renderHead (line :: headers) ++ arrived) = some req ∧
          req.body = (if arrived = [] then none else some arrived) ∧
          httpRoute ssl sock = acceptRequest req) ∧
      ∀ ssl sock, sock.left <+: renderHead (line :: headers) →
        sock.left ≠ renderHead (line :: headers) → false ∉ sock.polls →
        httpRoute ssl sock = .closed) := by
  constructor
  · rintro l n body hl hn hmax rfl
    obtain ⟨req, hparse, hbody⟩ := hwf.parse body
    refine ⟨req, hparse, hbody, ?_, ?_⟩
    · intro ssl surplus sock hleft hpolls
      rw [List.append_assoc] at hleft
      have hread := hwf.readRequest_declared hl hn hmax ssl hleft hpolls
      rw [if_pos (by simp), List.take_left] at hread
      simp only [httpRoute, hread, hparse]
    · intro ssl sock hleft hne hpolls
      by_cases hhead : renderHead (line :: headers) <+: sock.left
      · obtain ⟨tail, htail⟩ := hhead
        rw [← htail, List.prefix_append_right_inj] at hleft
        have hshort : ¬ body.length ≤ tail.length := by
          intro hle
          exact hne (by rw [← htail, hleft.eq_of_length_le hle])
        have hread := hwf.readRequest_declared hl hn hmax ssl htail.symm hpolls
        rw [if_neg hshort] at hread
        simp only [httpRoute, hread]
      · simp only [httpRoute, hwf.readRequest_short ssl hleft hhead hpolls]
  · intro hl
    constructor
    · intro ssl surplus sock hleft hpolls
      obtain ⟨arrived, hsurplus, hread⟩ := hwf.readRequest_undeclared hl ssl hleft hpolls
      obtain ⟨req, hparse, hbody⟩ := hwf.parse arrived
      exact ⟨arrived, req, hsurplus, hparse, hbody, by simp only [httpRoute, hread, hparse]⟩
    · intro ssl sock hleft hne hpolls
      have hshort : ¬ renderHead (line :: headers) <+: sock.left :=
        fun hhead => hne (hleft.eq_of_length_le hhead.length_le)
      have hread := hwf.readRequest_short ssl (t := []) (by simpa using hleft) hshort hpolls
      simp only [httpRoute, hread]

/-- A form with two bytes in it, read a byte at a time, and the line end that some clients send
after it. -/
theorem request_framed_form :
    ∃ req, req.body = some (lit "a=") ∧
      httpRoute false ⟨lit "POST / HTTP/1.0\r\nContent-Length: 2\r\n\r\na=\r\n",
        List.replicate 50 1, []⟩ = acceptRequest req := by
  have hwf : WellFormed (lit "POST / HTTP/1.0") [lit "Content-Length: 2"] :=
    ⟨by decide, by decide, by decide, by decide, by decide⟩
  have hdeclares : Declares (lit "Content-Length: 2") 2 :=
    ⟨lit " ", lit "2", [], by decide, by decide, by decide, by decide, by decide,
      by decide +kernel⟩
  obtain ⟨req, -, hbody, hroute, -⟩ := (request_framed hwf).1 _ 2 (lit "a=") (by decide) hdeclares
    (by decide) (by decide)
  exact ⟨req, hbody, hroute false (lit "\r\n") _ (by decide) (by decide)⟩

/-- A byte after a request without a declared length becomes its body, or is left, as it happens to
arrive. -/
theorem surplus_depends_on_cuts :
    WellFormed (lit "GET / HTTP/1.0") [] ∧ lengthLine [] = none ∧
      httpRoute true ⟨renderHead [lit "GET / HTTP/1.0"] ++ [120], [19], []⟩ =
        .request ⟨lit "GET", lit "/", lit "HTTP/1.0", [], some [120]⟩ ∧
      httpRoute true ⟨renderHead [lit "GET / HTTP/1.0"] ++ [120], [18, 1], []⟩ =
        .request ⟨lit "GET", lit "/", lit "HTTP/1.0", [], none⟩ :=
  ⟨⟨by decide, by decide, by decide, by decide, by decide⟩, by decide,
    by decide +kernel, by decide +kernel⟩

end BoatRudder.WebServer
