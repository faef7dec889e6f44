import BoatRudder.WebServer.ConnectionWrite

/-! # Static files

The end of `serve_static_file`, which puts a file on the connection: the header in one write, then
the content in pieces of `SEND_BUFFER_SIZE`. What the write of the header returned is not looked at,
and of a piece that was taken in part the rest is not written again. The file goes out whole and in
order exactly when no write before the last one falls short. -/

namespace BoatRudder.WebServer

/-! ## The file -/

/-- `SEND_BUFFER_SIZE`. -/
def sendBufferSize : ℕ := 8192

/-- What `serve_static_file` sends of a file. -/
structure StaticFile where
  /-- `get_mime_type`. -/
  mime : Bytes
  /-- `last_modified_str`. -/
  lastModified : Bytes
  /-- What the file holds. -/
  content : Bytes

/-- The header of a file of `size` bytes, in a buffer of 512 bytes. -/
def staticHeader (mime lastModified : Bytes) (size : ℕ) : Bytes :=
  (lit "HTTP/1.1 200 OK\r\n" ++ (lit "Content-Type: " ++ mime ++ lit "\r\n") ++
    (lit "Content-Length: " ++ decimal size ++ lit "\r\n") ++
    (lit "Last-Modified: " ++ lastModified ++ lit "\r\n") ++
    lit "Cache-Control: public, max-age=3600\r\n" ++
    (lit "X-Content-Type-Options: nosniff\r\n" ++ lit "X-Frame-Options: SAMEORIGIN\r\n") ++
    lit "Connection: close\r\n" ++ lit "\r\n").take 511

/-- The header of a file. -/
def StaticFile.header (f : StaticFile) : Bytes :=
  staticHeader f.mime f.lastModified f.content.length

/-! ## Sending it -/

variable (answers : ℕ → SocketAnswer)

/-- The loop of `serve_static_file`, from what is still to be read of the file. -/
def sendContent (conn : Connection) (content : Bytes) : Connection :=
  if _hne : content = [] then conn
  else
    let (conn, code) := connectionWrite answers conn (content.take sendBufferSize)
    if code ≤ 0 then conn else sendContent conn (content.drop sendBufferSize)
termination_by content.length
decreasing_by
  have hpos : 0 < content.length := List.length_pos_iff.mpr _hne
  rw [List.length_drop, sendBufferSize]
  omega

/-- `serve_static_file`, once the file is open. -/
def serveStaticFile (conn : Connection) (f : StaticFile) : Connection :=
  sendContent answers (connectionWrite answers conn f.header).1 f.content

/-- The call found the peer gone, or reported an error. -/
def SocketAnswer.Gone (ssl : Bool) (answer : SocketAnswer) : Prop :=
  answer.taken 1 = 0 ∧ (if ssl then answer.sslCode else answer.sendCode) ≠ -2

instance (ssl : Bool) (answer : SocketAnswer) : Decidable (answer.Gone ssl) :=
  inferInstanceAs (Decidable (_ ∧ _))

/-- A file goes out whole and in order: what is put on the connection is a beginning of the header
followed by the content, and all of it unless the peer was gone or an error was reported. -/
def SentWhole (ssl : Bool) (f : StaticFile) : Prop :=
  let conn := serveStaticFile answers { ssl := ssl } f
  conn.sent <+: f.header ++ f.content ∧
    ((∀ k < conn.writes, ¬ (answers k).Gone ssl) → conn.sent = f.header ++ f.content)

/-! ## The writes -/

/-- How many bytes the `k`-th write is handed when the ones before it were taken whole; 0 where
there is none. -/
def handed (header size : ℕ) : ℕ → ℕ
  | 0 => header
  | k + 1 => min sendBufferSize (size - sendBufferSize * k)

/-- Where the bytes of the `k`-th write begin. -/
def writeStart (header : ℕ) : ℕ → ℕ
  | 0 => 0
  | k + 1 => header + sendBufferSize * k

/-- How many bytes the socket takes of the `k`-th write. -/
def takenAt (header size k : ℕ) : ℕ := (answers k).taken (handed header size k)

/-- The socket takes all that the `k`-th write is handed. -/
def TakesWhole (header size k : ℕ) : Prop := takenAt answers header size k = handed header size k

instance (header size k : ℕ) : Decidable (TakesWhole answers header size k) :=
  inferInstanceAs (Decidable (_ = _))

/-- The `k`-th write is the first that is not taken whole. -/
structure FirstCut (header size k : ℕ) : Prop where
  pos : 0 < handed header size k
  whole : ∀ j < k, TakesWhole answers header size j
  cut : ¬ TakesWhole answers header size k

/-- Another write follows the `k`-th: after the header whatever came of it, after a piece of the
content if some of it was taken, and only if there is something left to write. -/
def GoesOn (header size k : ℕ) : Prop :=
  (k = 0 ∨ 0 < takenAt answers header size k) ∧ 0 < handed header size (k + 1)

instance (header size k : ℕ) : Decidable (GoesOn answers header size k) :=
  inferInstanceAs (Decidable (_ ∧ _))

/-- Nothing is written past a gap: of the write that follows the first one not taken whole, if one
does, the socket takes nothing, and one of the two reports that the peer is gone, or an error. -/
def Unbroken (ssl : Bool) (header size : ℕ) : Prop :=
  ∀ k, FirstCut answers header size k →
    if GoesOn answers header size k then
      takenAt answers header size (k + 1) = 0 ∧
        ((answers k).Gone ssl ∨ (answers (k + 1)).Gone ssl)
    else (answers k).Gone ssl

variable {answers} {ssl : Bool} {sent header content rest : Bytes} {w n k : ℕ}

theorem writeStart_add_handed_le (header n k : ℕ) :
    writeStart header k + handed header n k ≤ writeStart header (k + 1) := by
  cases k with
  | zero => simp [writeStart, handed]
  | succ k =>
    simp only [writeStart, handed, sendBufferSize]
    omega

/-! ## One write -/

theorem connectionWrite_eq_rawWrite {conn : Connection} (h : conn.simpleResponse = false)
    (buf : Bytes) : connectionWrite answers conn buf = rawWrite answers conn buf := by
  rw [connectionWrite, if_neg]
  simp [h]

/-- What the socket takes of a write is put on the connection. -/
theorem connectionWrite_fst (buf : Bytes) :
    (connectionWrite answers { ssl := ssl, sent := sent, writes := w } buf).1 =
      { ssl := ssl, sent := sent ++ buf.take ((answers w).taken buf.length), writes := w + 1 } := by
  rw [connectionWrite_eq_rawWrite rfl]
  rfl

theorem SocketAnswer.sslCode_le (answer : SocketAnswer) : answer.sslCode ≤ 0 := by
  cases answer with
  | all => exact le_rfl
  | room n => exact le_rfl
  | failed zero sslError errno =>
    cases sslError with
    | syscall =>
      simp only [SocketAnswer.sslCode]
      split <;> decide
    | _ => simp [SocketAnswer.sslCode]

theorem SocketAnswer.sendCode_le (answer : SocketAnswer) : answer.sendCode ≤ 0 := by
  cases answer with
  | all => exact le_rfl
  | room n => exact le_rfl
  | failed zero sslError errno =>
    simp only [SocketAnswer.sendCode]
    split_ifs <;> decide

/-- A write returns no more than 0 exactly when the socket took nothing. -/
theorem connectionWrite_snd_le (buf : Bytes) :
    (connectionWrite answers { ssl := ssl, sent := sent, writes := w } buf).2 ≤ 0 ↔
      (answers w).taken buf.length = 0 := by
  rw [connectionWrite_eq_rawWrite rfl]
  simp only [rawWrite]
  by_cases htaken : 0 < (answers w).taken buf.length
  · rw [if_pos (by exact_mod_cast htaken)]
    omega
  · rw [if_neg (by exact_mod_cast htaken)]
    refine iff_of_true ?_ (by omega)
    split
    · exact SocketAnswer.sslCode_le _
    · exact SocketAnswer.sendCode_le _

theorem sendContent_nil (conn : Connection) : sendContent answers conn [] = conn := by
  rw [sendContent, dif_pos rfl]

/-- The loop stops where the socket takes nothing. -/
theorem sendContent_of_taken_eq_zero (hne : content ≠ [])
    (htaken : (answers w).taken (min sendBufferSize content.length) = 0) :
    sendContent answers { ssl := ssl, sent := sent, writes := w } content =
      { ssl := ssl, sent := sent, writes := w + 1 } := by
  rw [← List.length_take] at htaken
  rw [sendContent, dif_neg hne]
  simp only [connectionWrite_fst, connectionWrite_snd_le, htaken, if_true, List.take_zero,
    List.append_nil]

/-- The loop goes on where the socket takes something. -/
theorem sendContent_of_taken_pos (hne : content ≠ [])
    (htaken : 0 < (answers w).taken (min sendBufferSize content.length)) :
    sendContent answers { ssl := ssl, sent := sent, writes := w } content =
      sendContent answers
        { ssl := ssl
          sent := sent ++ content.take ((answers w).taken (min sendBufferSize content.length))
          writes := w + 1 }
        (content.drop sendBufferSize) := by
  have hle := (answers w).taken_le (min sendBufferSize content.length)
  rw [sendContent, dif_neg hne]
  simp only [connectionWrite_fst, connectionWrite_snd_le, List.length_take,
    if_neg htaken.ne', List.take_take]
  rw [Nat.min_eq_left (hle.trans (Nat.min_le_left _ _))]

/-- What is on the connection stays there. -/
theorem prefix_sendContent (sent content : Bytes) (w : ℕ) :
    sent <+: (sendContent answers { ssl := ssl, sent := sent, writes := w } content).sent := by
  induction hlen : content.length using Nat.strong_induction_on generalizing sent content w with
  | _ n ih =>
    by_cases hne : content = []
    · rw [hne, sendContent_nil]
    · by_cases htaken : (answers w).taken (min sendBufferSize content.length) = 0
      · rw [sendContent_of_taken_eq_zero hne htaken]
      · have hpos : 0 < content.length := List.length_pos_iff.mpr hne
        have hdrop : (content.drop sendBufferSize).length < n := by
          rw [List.length_drop, sendBufferSize]
          omega
        rw [sendContent_of_taken_pos hne (by omega)]
        exact (List.prefix_append _ _).trans (ih _ hdrop _ _ _ rfl)

/-! ## A run -/

/-- The loop is through with as many pieces as it sent whole. -/
theorem sendContent_drop (hall : ∀ j < k, sendBufferSize * j < content.length ∧
      (answers (w + j)).taken (min sendBufferSize (content.length - sendBufferSize * j)) =
        min sendBufferSize (content.length - sendBufferSize * j)) :
    sendContent answers { ssl := ssl, sent := sent, writes := w } content =
      sendContent answers
        { ssl := ssl, sent := sent ++ content.take (sendBufferSize * k), writes := w + k }
        (content.drop (sendBufferSize * k)) := by
  induction k with
  | zero => simp
  | succ k ih =>
    obtain ⟨hlt, hwhole⟩ := hall k (Nat.lt_succ_self k)
    have hne : content.drop (sendBufferSize * k) ≠ [] := by
      rw [Ne, List.drop_eq_nil_iff]
      omega
    rw [← List.length_drop] at hwhole
    have hpos : 0 < min sendBufferSize (content.drop (sendBufferSize * k)).length := by
      rw [List.length_drop, sendBufferSize] at *
      omega
    rw [ih fun j hj => hall j (by omega), sendContent_of_taken_pos hne (by omega), hwhole,
      List.drop_drop, List.append_assoc, ← Nat.mul_succ]
    have hpiece : content.take (sendBufferSize * k) ++ (content.drop (sendBufferSize * k)).take
        (min sendBufferSize (content.drop (sendBufferSize * k)).length) =
          content.take (sendBufferSize * (k + 1)) := by
      rw [← List.take_take, List.take_length, Nat.mul_succ, List.take_add]
    rw [hpiece, Nat.add_assoc]

variable {f : StaticFile}

theorem take_writeStart_succ (f : StaticFile) (k m : ℕ) :
    (f.header ++ f.content).take (writeStart f.header.length (k + 1) + m) =
      f.header ++ f.content.take (sendBufferSize * k + m) := by
  rw [writeStart, Nat.add_assoc, List.take_append, List.take_of_length_le (by omega),
    Nat.add_sub_cancel_left]

/-- **The run as far as every write is taken whole.** -/
theorem serveStaticFile_of_whole (hall : ∀ j ≤ k, 0 < handed f.header.length f.content.length j ∧
      TakesWhole answers f.header.length f.content.length j) :
    serveStaticFile answers { ssl := ssl } f =
      sendContent answers
        { ssl := ssl
          sent := (f.header ++ f.content).take (writeStart f.header.length (k + 1))
          writes := k + 1 }
        (f.content.drop (sendBufferSize * k)) := by
  have hheader : (answers 0).taken f.header.length = f.header.length := (hall 0 (Nat.zero_le k)).2
  have hstart : (f.header ++ f.content).take (writeStart f.header.length (k + 1)) =
      f.header ++ f.content.take (sendBufferSize * k) := take_writeStart_succ f k 0
  have hpieces : ∀ j < k, sendBufferSize * j < f.content.length ∧
      (answers (1 + j)).taken (min sendBufferSize (f.content.length - sendBufferSize * j)) =
        min sendBufferSize (f.content.length - sendBufferSize * j) := by
    intro j hj
    obtain ⟨hpos, hwhole⟩ := hall (j + 1) hj
    rw [handed] at hpos
    rw [TakesWhole, takenAt, handed, Nat.add_comm j 1] at hwhole
    exact ⟨by omega, hwhole⟩
  rw [serveStaticFile, connectionWrite_fst, hheader, List.take_length, List.nil_append, hstart,
    sendContent_drop hpieces, Nat.add_comm (0 + 1) k]

/-- There are writes before every write. -/
theorem handed_pos_of_le {m j : ℕ} (hm : 0 < m) (hpos : 0 < handed m n k) (hjk : j ≤ k) :
    0 < handed m n j := by
  cases j with
  | zero => exact hm
  | succ j =>
    cases k with
    | zero => omega
    | succ k =>
      simp only [handed, sendBufferSize] at *
      omega

theorem header_length_pos (f : StaticFile) : 0 < f.header.length := by
  rw [StaticFile.header, staticHeader, List.length_take]
  simp only [List.length_append, lit, List.length_map]
  refine Nat.lt_min.mpr ⟨by decide, ?_⟩
  have hlit : 0 < "HTTP/1.1 200 OK\r\n".toList.length := by decide
  omega

/-- What is on the connection when the first cut is made. -/
def StaticFile.sentAtCut (answers : ℕ → SocketAnswer) (f : StaticFile) (k : ℕ) : Bytes :=
  (f.header ++ f.content).take (writeStart f.header.length k +
    takenAt answers f.header.length f.content.length k)

/-- **The run up to the first cut**, at a piece of the content. -/
theorem serveStaticFile_of_firstCut_succ
    (h : FirstCut answers f.header.length f.content.length (k + 1)) :
    serveStaticFile answers { ssl := ssl } f =
      sendContent answers
        { ssl := ssl
          sent := (f.header ++ f.content).take (writeStart f.header.length (k + 1))
          writes := k + 1 }
        (f.content.drop (sendBufferSize * k)) :=
  serveStaticFile_of_whole fun j hj =>
    ⟨handed_pos_of_le (header_length_pos f) h.pos (by omega), h.whole j (by omega)⟩

/-- A piece there is to write is not empty. -/
theorem drop_ne_nil_of_handed_pos {m : ℕ} {s : Bytes} (h : 0 < handed m s.length (k + 1)) :
    s.drop (sendBufferSize * k) ≠ [] := by
  rw [handed] at h
  rw [Ne, List.drop_eq_nil_iff]
  omega

theorem handed_succ_eq (m : ℕ) (s : Bytes) (k : ℕ) :
    handed m s.length (k + 1) = min sendBufferSize (s.drop (sendBufferSize * k)).length := by
  rw [handed, List.length_drop]

/-- A write of nothing ends the loop. -/
theorem serveStaticFile_of_taken_eq_zero
    (h : FirstCut answers f.header.length f.content.length (k + 1))
    (htaken : takenAt answers f.header.length f.content.length (k + 1) = 0) :
    serveStaticFile answers { ssl := ssl } f =
      { ssl := ssl, sent := f.sentAtCut answers (k + 1), writes := k + 2 } := by
  rw [serveStaticFile_of_firstCut_succ h, StaticFile.sentAtCut, htaken, Nat.add_zero]
  rw [takenAt, handed_succ_eq] at htaken
  exact sendContent_of_taken_eq_zero (drop_ne_nil_of_handed_pos h.pos) htaken

/-- Otherwise it goes on behind the piece that was cut. -/
theorem serveStaticFile_of_taken_pos (h : FirstCut answers f.header.length f.content.length k)
    (hgoes : k = 0 ∨ 0 < takenAt answers f.header.length f.content.length k) :
    serveStaticFile answers { ssl := ssl } f =
      sendContent answers { ssl := ssl, sent := f.sentAtCut answers k, writes := k + 1 }
        (f.content.drop (sendBufferSize * k)) := by
  cases k with
  | zero =>
    have hle := (answers 0).taken_le f.header.length
    have hsent : f.sentAtCut answers 0 = f.header.take ((answers 0).taken f.header.length) := by
      rw [StaticFile.sentAtCut, writeStart, Nat.zero_add]
      exact List.take_append_of_le_length hle
    rw [hsent]
    rw [serveStaticFile, connectionWrite_fst, List.nil_append, Nat.mul_zero, List.drop_zero]
  | succ k =>
    have htaken : 0 < takenAt answers f.header.length f.content.length (k + 1) := by omega
    have hsent : f.sentAtCut answers (k + 1) =
        (f.header ++ f.content).take (writeStart f.header.length (k + 1)) ++
          (f.content.drop (sendBufferSize * k)).take
            (takenAt answers f.header.length f.content.length (k + 1)) := by
      have hstart : (f.header ++ f.content).take (writeStart f.header.length (k + 1)) =
          f.header ++ f.content.take (sendBufferSize * k) := take_writeStart_succ f k 0
      rw [StaticFile.sentAtCut, take_writeStart_succ, hstart, List.append_assoc, List.take_add]
    rw [takenAt, handed_succ_eq] at htaken hsent
    rw [serveStaticFile_of_firstCut_succ h,
      sendContent_of_taken_pos (drop_ne_nil_of_handed_pos h.pos) htaken, hsent, List.drop_drop,
      Nat.mul_succ]

/-! ## Gaps -/

/-- Something of the file is missing at a cut. -/
theorem sentAtCut_length_lt (h : FirstCut answers f.header.length f.content.length k) :
    writeStart f.header.length k + takenAt answers f.header.length f.content.length k <
      (f.header ++ f.content).length := by
  have hle := (answers k).taken_le (handed f.header.length f.content.length k)
  have hlt := lt_of_le_of_ne hle h.cut
  rw [List.length_append]
  cases k with
  | zero =>
    simp only [writeStart, takenAt, handed] at *
    omega
  | succ k =>
    simp only [writeStart, takenAt, handed, sendBufferSize] at *
    omega

theorem sentAtCut_ne (h : FirstCut answers f.header.length f.content.length k) :
    f.sentAtCut answers k ≠ f.header ++ f.content := by
  intro heq
  have hlen := congrArg List.length heq
  rw [StaticFile.sentAtCut, List.length_take] at hlen
  have hlt := sentAtCut_length_lt h
  omega

theorem SocketAnswer.not_gone_of_taken_pos {answer : SocketAnswer} {count : ℕ}
    (h : 0 < answer.taken count) : ¬ answer.Gone ssl := by
  rintro ⟨htaken, -⟩
  cases answer with
  | all => simp [SocketAnswer.taken] at htaken
  | room n => simp [SocketAnswer.taken] at htaken
  | failed => simp [SocketAnswer.taken] at h

/-- No write that was taken whole reports anything. -/
theorem FirstCut.not_gone (h : FirstCut answers f.header.length f.content.length k) :
    ∀ j < k, ¬ (answers j).Gone ssl := by
  intro j hj
  refine SocketAnswer.not_gone_of_taken_pos
    (show 0 < (answers j).taken (handed f.header.length f.content.length j) from ?_)
  have hwhole : (answers j).taken (handed f.header.length f.content.length j) =
      handed f.header.length f.content.length j := h.whole j hj
  rw [hwhole]
  exact handed_pos_of_le (header_length_pos f) h.pos hj.le

/-- A file of which a beginning went out is one that went out whole exactly if a write reported
something. -/
theorem sentWhole_iff_gone (h : FirstCut answers f.header.length f.content.length k) {writes : ℕ}
    (hrun : serveStaticFile answers { ssl := ssl } f =
      { ssl := ssl, sent := f.sentAtCut answers k, writes := writes }) :
    SentWhole answers ssl f ↔ ∃ j < writes, (answers j).Gone ssl := by
  rw [SentWhole, hrun]
  constructor
  · rintro ⟨-, hall⟩
    by_contra hnone
    push Not at hnone
    exact sentAtCut_ne h (hall hnone)
  · rintro ⟨j, hj, hgone⟩
    exact ⟨List.take_prefix _ _, fun hnone => absurd hgone (hnone j hj)⟩

/-- **A cut behind which nothing is written.** -/
theorem sentWhole_of_not_goesOn (h : FirstCut answers f.header.length f.content.length k)
    (hstop : ¬ GoesOn answers f.header.length f.content.length k) :
    SentWhole answers ssl f ↔ (answers k).Gone ssl := by
  have hrun : serveStaticFile answers { ssl := ssl } f =
      { ssl := ssl, sent := f.sentAtCut answers k, writes := k + 1 } := by
    by_cases hgoes : k = 0 ∨ 0 < takenAt answers f.header.length f.content.length k
    · have hend : f.content.drop (sendBufferSize * k) = [] := by
        by_contra hne
        refine hstop ⟨hgoes, ?_⟩
        rw [handed_succ_eq]
        exact Nat.lt_min.mpr ⟨by decide, List.length_pos_iff.mpr hne⟩
      rw [serveStaticFile_of_taken_pos h hgoes, hend, sendContent_nil]
    · cases k with
      | zero => exact absurd (Or.inl rfl) hgoes
      | succ k => exact serveStaticFile_of_taken_eq_zero h (by omega)
  rw [sentWhole_iff_gone h hrun]
  constructor
  · rintro ⟨j, hj, hgone⟩
    rcases Nat.lt_succ_iff_lt_or_eq.mp hj with hlt | rfl
    · exact absurd hgone (h.not_gone j hlt)
    · exact hgone
  · exact fun hgone => ⟨k, Nat.lt_succ_self k, hgone⟩

/-- **A cut behind which the socket takes nothing.** -/
theorem sentWhole_of_goesOn (h : FirstCut answers f.header.length f.content.length k)
    (hgoes : GoesOn answers f.header.length f.content.length k)
    (htaken : takenAt answers f.header.length f.content.length (k + 1) = 0) :
    SentWhole answers ssl f ↔ (answers k).Gone ssl ∨ (answers (k + 1)).Gone ssl := by
  have hrun : serveStaticFile answers { ssl := ssl } f =
      { ssl := ssl, sent := f.sentAtCut answers k, writes := k + 2 } := by
    rw [takenAt, handed_succ_eq] at htaken
    rw [serveStaticFile_of_taken_pos h hgoes.1,
      sendContent_of_taken_eq_zero (drop_ne_nil_of_handed_pos hgoes.2) htaken]
  rw [sentWhole_iff_gone h hrun]
  constructor
  · rintro ⟨j, hj, hgone⟩
    obtain hlt | rfl | rfl : j < k ∨ j = k ∨ j = k + 1 := by omega
    · exact absurd hgone (h.not_gone j hlt)
    · exact Or.inl hgone
    · exact Or.inr hgone
  · rintro (hgone | hgone)
    · exact ⟨k, by omega, hgone⟩
    · exact ⟨k + 1, by omega, hgone⟩

variable (answers ssl) in
/-- **A cut behind which the socket takes something leaves a gap**: the next byte on the connection
is the first of the next piece. -/
theorem prefix_of_gap (h : FirstCut answers f.header.length f.content.length k)
    (hgoes : GoesOn answers f.header.length f.content.length k)
    (htaken : 0 < takenAt answers f.header.length f.content.length (k + 1)) {c : UInt8} {t : Bytes}
    (hnext : f.content.drop (sendBufferSize * k) = c :: t) :
    f.sentAtCut answers k ++ [c] <+: (serveStaticFile answers { ssl := ssl } f).sent := by
  rw [takenAt, handed_succ_eq, hnext] at htaken
  rw [serveStaticFile_of_taken_pos h hgoes.1, hnext,
    sendContent_of_taken_pos (List.cons_ne_nil c t) htaken]
  refine List.IsPrefix.trans ?_ (prefix_sendContent _ _ _)
  obtain ⟨m, hm⟩ := Nat.exists_eq_add_of_lt htaken
  rw [hm, Nat.zero_add, List.take_succ_cons]
  exact List.prefix_append_right_inj _ |>.mpr (List.prefix_append [c] _)

variable (ssl) in
/-- **Without a cut everything goes out.** -/
theorem serveStaticFile_sent_of_forall_whole
    (hall : ∀ k, 0 < handed f.header.length f.content.length k →
      TakesWhole answers f.header.length f.content.length k) :
    (serveStaticFile answers { ssl := ssl } f).sent = f.header ++ f.content := by
  -- the number of pieces of the content
  obtain ⟨k, hlast, hbefore⟩ : ∃ k, f.content.length ≤ sendBufferSize * k ∧
      ∀ j < k, sendBufferSize * j < f.content.length := by
    refine ⟨(f.content.length + 8191) / 8192, ?_, ?_⟩
    · rw [sendBufferSize]
      omega
    · intro j hj
      rw [sendBufferSize]
      omega
  have hpos : ∀ j ≤ k, 0 < handed f.header.length f.content.length j := by
    intro j hj
    cases j with
    | zero => exact header_length_pos f
    | succ j =>
      have hlt := hbefore j hj
      rw [handed]
      exact Nat.lt_min.mpr ⟨by decide, by omega⟩
  rw [serveStaticFile_of_whole fun j hj => ⟨hpos j hj, hall j (hpos j hj)⟩,
    List.drop_eq_nil_of_le hlast, sendContent_nil]
  refine List.take_of_length_le ?_
  rw [List.length_append, writeStart]
  omega

variable (ssl) in
/-- A content that tells a gap: the piece behind the cut begins with another byte than the one that
is missing. -/
theorem exists_gap {mime lastModified : Bytes} {size : ℕ}
    (h : FirstCut answers (staticHeader mime lastModified size).length size k)
    (hgoes : GoesOn answers (staticHeader mime lastModified size).length size k)
    (htaken : 0 < takenAt answers (staticHeader mime lastModified size).length size (k + 1)) :
    ∃ content : Bytes, content.length = size ∧
      ¬ SentWhole answers ssl ⟨mime, lastModified, content⟩ := by
  have hnext : sendBufferSize * k < size := by
    have hpos := hgoes.2
    rw [handed] at hpos
    omega
  -- all that the writes up to the cut one are handed, and the place of the byte that is missing
  let before := staticHeader mime lastModified size ++ List.replicate (sendBufferSize * k) 0
  let place := writeStart (staticHeader mime lastModified size).length k +
    takenAt answers (staticHeader mime lastModified size).length size k
  have hplace : place < before.length := by
    have hle := (answers k).taken_le (handed (staticHeader mime lastModified size).length size k)
    have hlt := lt_of_le_of_ne hle h.cut
    have hend := writeStart_add_handed_le (staticHeader mime lastModified size).length size k
    simp only [before, place, takenAt, List.length_append, List.length_replicate]
    rw [writeStart] at hend
    omega
  let c : UInt8 := before[place] + 1
  let f : StaticFile := ⟨mime, lastModified, List.replicate (sendBufferSize * k) 0 ++
    c :: List.replicate (size - sendBufferSize * k - 1) 0⟩
  have hlen : f.content.length = size := by
    simp only [f, List.length_append, List.length_replicate, List.length_cons]
    omega
  have hheader : f.header = staticHeader mime lastModified size := by rw [StaticFile.header, hlen]
  have hfile : f.header ++ f.content =
      before ++ c :: List.replicate (size - sendBufferSize * k - 1) 0 := by
    rw [hheader]
    exact (List.append_assoc _ _ _).symm
  rw [← hheader] at h hgoes htaken
  refine ⟨f.content, hlen, ?_⟩
  rintro ⟨hsent, -⟩
  have hdrop : f.content.drop (sendBufferSize * k) =
      c :: List.replicate (size - sendBufferSize * k - 1) 0 :=
    List.drop_left' (by simp)
  have hgap :=
    (prefix_of_gap answers ssl (hlen ▸ h) (hlen ▸ hgoes) (hlen ▸ htaken) hdrop).trans hsent
  have hcut : f.sentAtCut answers k = before.take place := by
    rw [StaticFile.sentAtCut, hfile, hheader, hlen, List.take_append_of_le_length hplace.le]
  have hmissing : before.take place ++ [before[place]] <+: f.header ++ f.content := by
    rw [hfile, ← List.take_succ_eq_append_getElem hplace]
    exact (List.take_prefix _ _).trans (List.prefix_append _ _)
  rw [hcut] at hgap
  have hlength : (before.take place ++ [c]).length =
      (before.take place ++ [before[place]]).length := by
    rw [List.length_append, List.length_append]
    rfl
  have hsame := (List.prefix_of_prefix_length_le hgap hmissing hlength.le).eq_of_length hlength
  have hbyte : before[place] + 1 = before[place] :=
    List.head_eq_of_cons_eq (List.append_cancel_left hsame)
  simp at hbyte

/-- **A static file goes out whole and in order, whatever it holds, exactly when nothing is written
past a gap.** -/
theorem sentWhole_iff_unbroken (answers : ℕ → SocketAnswer) (ssl : Bool) (mime lastModified : Bytes)
    (size : ℕ) :
    (∀ content : Bytes, content.length = size →
        SentWhole answers ssl ⟨mime, lastModified, content⟩) ↔
      Unbroken answers ssl (staticHeader mime lastModified size).length size := by
  constructor
  · intro hall k h
    have hany := hall (List.replicate size 0) (by simp)
    split_ifs with hgoes
    · have htaken :
          takenAt answers (staticHeader mime lastModified size).length size (k + 1) = 0 := by
        by_contra hne
        obtain ⟨content, hlen, hbroken⟩ := exists_gap ssl h hgoes (by omega)
        exact hbroken (hall content hlen)
      refine ⟨htaken, ?_⟩
      exact (sentWhole_of_goesOn (by simpa [StaticFile.header] using h)
        (by simpa [StaticFile.header] using hgoes)
        (by simpa [StaticFile.header] using htaken)).mp hany
    · exact (sentWhole_of_not_goesOn (by simpa [StaticFile.header] using h)
        (by simpa [StaticFile.header] using hgoes)).mp hany
  · rintro hunbroken content rfl
    let f : StaticFile := ⟨mime, lastModified, content⟩
    by_cases hcut : ∃ k, FirstCut answers f.header.length f.content.length k
    · obtain ⟨k, h⟩ := hcut
      have hk := hunbroken k h
      split_ifs at hk with hgoes
      · exact (sentWhole_of_goesOn h hgoes hk.1).mpr hk.2
      · exact (sentWhole_of_not_goesOn h hgoes).mpr hk
    · -- a write that is not taken whole would be preceded by a first one
      have hall : ∀ k, 0 < handed f.header.length f.content.length k →
          TakesWhole answers f.header.length f.content.length k := by
        intro k
        induction k using Nat.strong_induction_on with
        | _ k ih =>
          intro hpos
          by_contra hne
          exact hcut ⟨k, hpos, fun j hj => ih j hj
            (handed_pos_of_le (header_length_pos f) hpos hj.le), hne⟩
      have hsent := serveStaticFile_sent_of_forall_whole ssl hall
      exact ⟨hsent ▸ List.prefix_rfl, fun _ => hsent⟩

/-- The socket takes nine bytes of the header and then all it is given: the header breaks off, and
the content follows. -/
theorem not_sentWhole_shortHeader :
    ¬ SentWhole (fun k => if k = 0 then .room 8 else .all) false
      ⟨lit "text/plain", lit "Thu, 01 Jan 1970 00:00:00 GMT", lit "ab"⟩ := by
  rintro ⟨hsent, -⟩
  have hgap := prefix_of_gap (fun k => if k = 0 then .room 8 else .all) false
    (f := ⟨lit "text/plain", lit "Thu, 01 Jan 1970 00:00:00 GMT", lit "ab"⟩) (k := 0) (c := 97)
    (t := [98]) ⟨by decide +kernel, by simp, by decide +kernel⟩ ⟨Or.inl rfl, by decide +kernel⟩
    (by decide) (by decide)
  have hten := List.prefix_of_prefix_length_le (hgap.trans hsent) (List.take_prefix 10 _)
    (by decide +kernel)
  revert hten
  decide +kernel

end BoatRudder.WebServer
