import BoatRudder.WebServer.Dispatch

/-! # The query of a URL

`url_parse` walks over the query piece by piece. Behind a piece with a value it passes over an
`amp;` that a browser left in place, behind a piece without one it does not: the query is read as if
it had been split at its separators exactly when no piece with a value stands right behind one
without. -/

namespace BoatRudder.WebServer

/-! ## Reading the query -/

variable {a piece url : Bytes} {n : ℕ}

/-- `QueryParam`. -/
structure QueryParam where
  key : Bytes
  value : Bytes
  deriving DecidableEq

/-- `MAX_PARAMS`. -/
def maxParams : ℕ := 16

/-- `MAX_PARAM_LENGTH`, the terminator included. -/
def maxParamLength : ℕ := 256

/-- What `url_parse` copies of a key and of a value. -/
def QueryParam.cut (p : QueryParam) : QueryParam :=
  ⟨p.key.take (maxParamLength - 1), p.value.take (maxParamLength - 1)⟩

/-- Past an `amp;`. -/
def stripAmp (s : Bytes) : Bytes := if lit "amp;" <+: s then s.drop 4 else s

/-- No separator is in it, and no equals sign. -/
theorem amp_notMem : 38 ∉ lit "amp;" ∧ 61 ∉ lit "amp;" := by decide

theorem length_stripAmp_le (s : Bytes) : (stripAmp s).length ≤ s.length := by
  rw [stripAmp]
  split
  · exact (List.drop_suffix _ _).length_le
  · exact le_rfl

/-- The loop of `url_parse`: the parameters in what is left of the query, with room for `n`. -/
def paramLoop (n : ℕ) (param : Bytes) : List QueryParam :=
  if _hdone : param = [] ∨ n = 0 then []
  else
    match param.idxOf? 61 with
    | none => []
    | some eq =>
      match param.idxOf? 38 with
      | none => [QueryParam.cut ⟨param.take eq, param.drop (eq + 1)⟩]
      | some next =>
        -- a key with no value
        if next < eq then paramLoop n (param.drop (next + 1))
        else
          QueryParam.cut ⟨param.take eq, (param.drop (eq + 1)).take (next - (eq + 1))⟩ ::
            paramLoop (n - 1) (stripAmp (param.drop (next + 1)))
termination_by param.length
decreasing_by
  · have hpos : 0 < param.length := List.length_pos_iff.mpr (not_or.mp _hdone).1
    rw [List.length_drop]
    omega
  · have hpos : 0 < param.length := List.length_pos_iff.mpr (not_or.mp _hdone).1
    have hle := length_stripAmp_le (param.drop (next + 1))
    rw [List.length_drop] at hle
    omega

/-- `url_parse`: the route and the parameters. -/
def urlParse (url : Bytes) (routeSize : ℕ) : Bytes × List QueryParam :=
  (urlRoute url routeSize,
    match urlQuery url with
    | [] => []
    | _ :: query => paramLoop maxParams query)

/-! ## The reference -/

/-- The query of a URL, without its question mark. -/
def queryOf (url : Bytes) : Bytes := (urlQuery url).tail

/-- The pieces of a query: what `&` and `&amp;` separate. -/
def queryPieces (query : Bytes) : List Bytes :=
  match query.splitOn 38 with
  | [] => []
  | piece :: pieces => piece :: pieces.map stripAmp

/-- The parameter a piece makes, if it has a value. -/
def paramOf (piece : Bytes) : Option QueryParam :=
  if 61 ∈ piece then some ⟨piece.takeWhile (· ≠ 61), afterByte 61 piece⟩ else none

/-- The parameters of a query. -/
def queryParams (query : Bytes) : List QueryParam :=
  ((queryPieces query).filterMap paramOf).take maxParams

/-- `url'` is `url` with a separator `&` of its query written `&amp;`. -/
def Escapes (url url' : Bytes) : Prop :=
  ∃ a b, url = a ++ 38 :: b ∧ url' = a ++ 38 :: (lit "amp;" ++ b) ∧
    63 ∈ a ∧ 35 ∉ a ∧ ¬ lit "amp;" <+: b

/-- The query is parsed as its reference says, however its separators are written. -/
def QueryParsed (url : Bytes) (routeSize : ℕ) : Prop :=
  urlParse url routeSize = (rawPath url, queryParams (queryOf url)) ∧
    ∀ url', Escapes url url' → urlParse url' routeSize = urlParse url routeSize

/-- The key and the value of a piece fit. -/
def Fits (piece : Bytes) : Prop := ∀ p ∈ paramOf piece,
  p.key.length < maxParamLength ∧ p.value.length < maxParamLength

instance (piece : Bytes) : Decidable (Fits piece) :=
  inferInstanceAs (Decidable (∀ _ ∈ _, _))

/-- The pieces of a URL fit the limits: its path, and the key and the value of every piece. -/
def PiecesFit (url : Bytes) (routeSize : ℕ) : Prop :=
  (rawPath url).length < routeSize ∧ ∀ piece ∈ (queryOf url).splitOn 38, Fits piece

/-- Which pieces have a value. -/
def valuedPieces (query : Bytes) : List Bool := (query.splitOn 38).map (61 ∈ ·)

/-- No piece with a value stands right behind one without, as far as the parameters go. -/
def NoneBehindValueless (n : ℕ) (valued : List Bool) : Prop :=
  ∀ before after, valued = before ++ false :: true :: after → n ≤ before.count true

/-! ## What the loop makes of the pieces -/

/-- What the loop makes of the pieces of a query: `strip` says whether it passes over an `amp;` in
front of the first of them. -/
def loopParams : ℕ → Bool → List Bytes → List QueryParam
  | _, _, [] => []
  | 0, _, _ :: _ => []
  | n + 1, strip, piece :: pieces =>
    match paramOf (if strip then stripAmp piece else piece) with
    | none => loopParams (n + 1) false pieces
    | some p => p.cut :: loopParams n true pieces

theorem idxOf?_append_cons {c : UInt8} (ha : c ∉ a) (b : Bytes) :
    (a ++ c :: b).idxOf? c = some a.length := by
  induction a with
  | nil => simp [List.idxOf?_cons]
  | cons d a ih =>
    have hd : d ≠ c := fun h => ha (h ▸ List.mem_cons_self)
    rw [List.cons_append, List.idxOf?_cons, if_neg (by simpa using hd),
      ih fun h => ha (List.mem_cons_of_mem d h)]
    rfl

theorem paramOf_append_cons {k : Bytes} (hk : 61 ∉ k) (v : Bytes) :
    paramOf (k ++ 61 :: v) = some ⟨k, v⟩ := by
  have hkey : (k ++ 61 :: v).takeWhile (fun c => decide (c ≠ 61)) = k := by
    rw [List.takeWhile_append_of_pos fun c hc => by simpa using fun h : c = 61 => hk (h ▸ hc)]
    simp
  have hvalue : afterByte 61 (k ++ 61 :: v) = v := by
    rw [afterByte, List.dropWhile_append_of_pos fun c hc => by
      simpa using fun h : c = 61 => hk (h ▸ hc)]
    simp
  rw [paramOf, if_pos (by simp), hkey, hvalue]

theorem paramOf_of_notMem (h : 61 ∉ piece) : paramOf piece = none :=
  if_neg h

/-- A query is a piece, or a piece and what follows its separator. -/
theorem piece_cases (s : Bytes) :
    38 ∉ s ∧ s.splitOn 38 = [s] ∨
      ∃ p r, s = p ++ 38 :: r ∧ 38 ∉ p ∧ s.splitOn 38 = p :: r.splitOn 38 := by
  by_cases h : 38 ∈ s
  · obtain ⟨p, r, rfl, hp⟩ := List.eq_append_cons_of_mem h
    exact Or.inr ⟨p, r, rfl, hp, List.splitOn_append_cons_self_of_not_mem hp _⟩
  · exact Or.inl ⟨h, List.splitOn_eq_singleton h⟩

/-- The first piece is where the query begins. -/
theorem exists_head_splitOn (s : Bytes) : ∃ p ps, s.splitOn 38 = p :: ps ∧ p <+: s := by
  rcases piece_cases s with ⟨-, hone⟩ | ⟨p, r, rfl, -, hsplit⟩
  · exact ⟨s, [], hone, List.prefix_rfl⟩
  · exact ⟨p, _, hsplit, List.prefix_append _ _⟩

/-- Bytes in front of a query are in front of its first piece. -/
theorem splitOn_append_of_notMem (ha : 38 ∉ a) (s : Bytes) :
    (a ++ s).splitOn 38 = (s.splitOn 38).modifyHead (a ++ ·) := by
  rcases piece_cases s with ⟨hs, hone⟩ | ⟨p, r, rfl, hp, hsplit⟩
  · rw [hone, List.splitOn_eq_singleton (by simp [ha, hs])]
    rfl
  · rw [hsplit, ← List.append_assoc, List.splitOn_append_cons_self_of_not_mem (by simp [ha, hp])]
    rfl

@[simp] theorem stripAmp_amp (s : Bytes) : stripAmp (lit "amp;" ++ s) = s := by
  rw [stripAmp, if_pos (List.prefix_append _ _)]
  exact List.drop_left' rfl

theorem stripAmp_of_not {s : Bytes} (h : ¬ lit "amp;" <+: s) : stripAmp s = s := if_neg h

/-! ## The loop, piece by piece -/

@[simp] theorem loopParams_nil (n : ℕ) (strip : Bool) : loopParams n strip [] = [] := by
  cases n <;> rfl

theorem drop_append_cons (a b : Bytes) (c : UInt8) : (a ++ c :: b).drop (a.length + 1) = b := by
  rw [← List.drop_drop, List.drop_left, List.drop_succ_cons, List.drop_zero]

theorem loopParams_true_cons (n : ℕ) (piece : Bytes) (pieces : List Bytes) :
    loopParams n true (piece :: pieces) = loopParams n false (stripAmp piece :: pieces) := by
  cases n <;> rfl

theorem loopParams_stripAmp (n : ℕ) (s : Bytes) :
    loopParams n false ((stripAmp s).splitOn 38) = loopParams n true (s.splitOn 38) := by
  by_cases hamp : lit "amp;" <+: s
  · obtain ⟨t, rfl⟩ := hamp
    obtain ⟨p, ps, hsplit, -⟩ := exists_head_splitOn t
    rw [stripAmp_amp, splitOn_append_of_notMem amp_notMem.1, hsplit, List.modifyHead_cons,
      loopParams_true_cons, stripAmp_amp]
  · obtain ⟨p, ps, hsplit, hpre⟩ := exists_head_splitOn s
    rw [stripAmp_of_not hamp, hsplit, loopParams_true_cons,
      stripAmp_of_not fun h => hamp (h.trans hpre)]

theorem loopParams_cons_of_notMem (h : 61 ∉ piece) (n : ℕ)
    (pieces : List Bytes) : loopParams n false (piece :: pieces) = loopParams n false pieces := by
  cases n with
  | zero => cases pieces <;> rfl
  | succ n => rw [loopParams, if_neg Bool.false_ne_true, paramOf_of_notMem h]

/-- Pieces without a value make no parameters. -/
theorem loopParams_of_notMem {s : Bytes} (h : 61 ∉ s) (n : ℕ) :
    loopParams n false (s.splitOn 38) = [] := by
  induction hlen : s.length using Nat.strong_induction_on generalizing s with
  | _ m ih =>
    rcases piece_cases s with ⟨-, hone⟩ | ⟨p, r, rfl, -, hsplit⟩
    · rw [hone, loopParams_cons_of_notMem h]
      cases n <;> rfl
    · rw [List.mem_append, not_or] at h
      rw [List.length_append, List.length_cons] at hlen
      rw [hsplit, loopParams_cons_of_notMem h.1]
      exact ih r.length (by omega) (fun hr => h.2 (List.mem_cons_of_mem _ hr)) rfl

/-- **The loop reads the query piece by piece.** -/
theorem paramLoop_eq (n : ℕ) (param : Bytes) :
    paramLoop n param = loopParams n false (param.splitOn 38) := by
  induction hlen : param.length using Nat.strong_induction_on generalizing n param with
  | _ m ih =>
    cases n with
    | zero =>
      obtain ⟨p, ps, hsplit, -⟩ := exists_head_splitOn param
      rw [paramLoop, dif_pos (Or.inr rfl), hsplit]
      rfl
    | succ n =>
      by_cases hvalue : 61 ∈ param
      · have hne : ¬ (param = [] ∨ n + 1 = 0) := by
          rintro (rfl | hzero)
          · cases hvalue
          · cases hzero
        rcases piece_cases param with ⟨hsep, hone⟩ | ⟨p, r, rfl, hsep, hsplit⟩
        · -- the last piece
          obtain ⟨k, v, rfl, hk⟩ := List.eq_append_cons_of_mem hvalue
          rw [paramLoop, dif_neg hne, idxOf?_append_cons hk, List.idxOf?_eq_none_iff.mpr hsep,
            hone, loopParams, if_neg Bool.false_ne_true, paramOf_append_cons hk]
          simp only [List.take_left, drop_append_cons, loopParams_nil]
        · rw [List.length_append, List.length_cons] at hlen
          by_cases hp : 61 ∈ p
          · obtain ⟨k, v, rfl, hk⟩ := List.eq_append_cons_of_mem hp
            have heq : (k ++ 61 :: v ++ 38 :: r).idxOf? 61 = some k.length := by
              rw [List.append_assoc]
              exact idxOf?_append_cons hk _
            have hkey : (k ++ 61 :: v ++ 38 :: r).take k.length = k := by
              rw [List.append_assoc, List.take_left]
            have hrest : ((k ++ 61 :: v ++ 38 :: r).drop (k.length + 1)).take
                ((k ++ 61 :: v).length - (k.length + 1)) = v := by
              rw [List.append_assoc, List.cons_append, drop_append_cons]
              refine List.take_left' ?_
              rw [List.length_append, List.length_cons]
              omega
            have hlt : ¬ (k ++ 61 :: v).length < k.length := by
              rw [List.length_append]
              omega
            have hle := length_stripAmp_le r
            rw [paramLoop, dif_neg hne, heq, idxOf?_append_cons hsep, hsplit, loopParams,
              if_neg Bool.false_ne_true, paramOf_append_cons hk]
            simp only [if_neg hlt, hkey, hrest, drop_append_cons, Nat.add_sub_cancel]
            rw [ih (stripAmp r).length (by omega) n _ rfl, loopParams_stripAmp]
          · -- a piece without a value
            have hr : 61 ∈ r := by
              rcases List.mem_append.mp hvalue with h | h
              · exact absurd h hp
              · exact (List.mem_cons.mp h).resolve_left (by decide)
            obtain ⟨k, v, rfl, hk⟩ := List.eq_append_cons_of_mem hr
            have heq : (p ++ 38 :: (k ++ 61 :: v)).idxOf? 61 = some (p ++ 38 :: k).length := by
              rw [← List.cons_append, ← List.append_assoc]
              refine idxOf?_append_cons ?_ v
              simp [hp, hk]
            have hlt : p.length < (p ++ 38 :: k).length := by
              rw [List.length_append, List.length_cons]
              omega
            rw [paramLoop, dif_neg hne, heq, idxOf?_append_cons hsep, hsplit,
              loopParams_cons_of_notMem hp]
            simp only [if_pos hlt, drop_append_cons]
            exact ih _ (by omega) (n + 1) _ rfl
      · rw [loopParams_of_notMem hvalue, paramLoop]
        by_cases hdone : param = [] ∨ n + 1 = 0
        · rw [dif_pos hdone]
        · rw [dif_neg hdone, List.idxOf?_eq_none_iff.mpr hvalue]

theorem urlParse_eq (url : Bytes) (routeSize : ℕ) : urlParse url routeSize =
    (urlRoute url routeSize, loopParams maxParams false ((queryOf url).splitOn 38)) := by
  rw [urlParse, queryOf]
  cases urlQuery url with
  | nil => rfl
  | cons c query => exact congrArg _ (paramLoop_eq maxParams query)

/-! ## The reference, piece by piece -/

theorem mem_stripAmp_iff : 61 ∈ stripAmp piece ↔ 61 ∈ piece := by
  by_cases hamp : lit "amp;" <+: piece
  · obtain ⟨t, rfl⟩ := hamp
    simp [amp_notMem.2]
  · rw [stripAmp_of_not hamp]

/-- The parameter of a piece, as it is copied. -/
def cutParamOf (piece : Bytes) : Option QueryParam := (paramOf piece).map QueryParam.cut

theorem cutParamOf_of_notMem (h : 61 ∉ piece) : cutParamOf piece = none := by
  rw [cutParamOf, paramOf_of_notMem h]
  rfl

theorem exists_cutParamOf (h : 61 ∈ piece) :
    ∃ p, paramOf piece = some p ∧ cutParamOf piece = some p.cut :=
  ⟨_, if_pos h, by rw [cutParamOf, paramOf, if_pos h]; rfl⟩

theorem NoneBehindValueless.tail {b : Bool} {valued : List Bool}
    (h : NoneBehindValueless (n + b.toNat) (b :: valued)) : NoneBehindValueless n valued := by
  rintro before after rfl
  have hle := h (b :: before) after rfl
  cases b <;> simp at hle ⊢ <;> omega

/-- **The loop and the reference agree** behind a piece with a value, and behind one without if none
with a value follows it. -/
theorem loopParams_eq {strip : Bool} {pieces : List Bytes}
    (h : NoneBehindValueless n (pieces.map (61 ∈ ·)))
    (hstrip : strip = false → n = 0 ∨ ∀ piece ∈ pieces.head?, 61 ∉ piece) :
    loopParams n strip pieces = ((pieces.map stripAmp).filterMap cutParamOf).take n := by
  induction pieces generalizing n strip with
  | nil => simp
  | cons piece pieces ih =>
    cases n with
    | zero => rfl
    | succ n =>
      by_cases hvalue : 61 ∈ piece
      · have htrue : strip = true := by
          rw [← Bool.not_eq_false]
          intro hfalse
          rcases hstrip hfalse with hzero | hnone
          · cases hzero
          · exact hnone piece rfl hvalue
        obtain ⟨p, hp, hcut⟩ := exists_cutParamOf (mem_stripAmp_iff.mpr hvalue)
        have htail : NoneBehindValueless n (pieces.map (61 ∈ ·)) := by
          refine NoneBehindValueless.tail (b := true) ?_
          simpa [hvalue] using h
        rw [htrue, loopParams, if_pos rfl, hp, List.map_cons, List.filterMap_cons, hcut,
          List.take_succ_cons]
        exact congrArg (p.cut :: ·) (ih htail (by simp))
      · have hnone : paramOf (if strip then stripAmp piece else piece) = none := by
          cases strip with
          | false => exact paramOf_of_notMem hvalue
          | true => exact paramOf_of_notMem (mem_stripAmp_iff.not.mpr hvalue)
        have htail : NoneBehindValueless (n + 1) (pieces.map (61 ∈ ·)) := by
          refine NoneBehindValueless.tail (b := false) ?_
          simpa [hvalue] using h
        rw [loopParams, hnone, List.map_cons, List.filterMap_cons,
          cutParamOf_of_notMem (mem_stripAmp_iff.not.mpr hvalue)]
        refine ih htail fun _ => Or.inr ?_
        -- a piece with a value would stand right behind this one
        intro next hnext hmem
        cases pieces with
        | nil => cases hnext
        | cons first pieces =>
          obtain rfl : first = next := by simpa using hnext
          have hle := h [] (pieces.map (61 ∈ ·)) (by simp [hvalue, hmem])
          simp at hle

/-- The pieces of a query are what an `amp;` in front of it would have stripped off. -/
theorem queryPieces_eq (query : Bytes) :
    queryPieces query = ((lit "amp;" ++ query).splitOn 38).map stripAmp := by
  obtain ⟨p, ps, hsplit, -⟩ := exists_head_splitOn query
  rw [queryPieces, splitOn_append_of_notMem amp_notMem.1, hsplit]
  simp

theorem valuedPieces_amp (query : Bytes) :
    valuedPieces (lit "amp;" ++ query) = valuedPieces query := by
  have hword := amp_notMem.2
  obtain ⟨p, ps, hsplit, -⟩ := exists_head_splitOn query
  rw [valuedPieces, valuedPieces, splitOn_append_of_notMem amp_notMem.1, hsplit]
  simp [hword]

/-- The loop and the reference agree on a whole query. -/
theorem loopParams_query {query : Bytes} (h : NoneBehindValueless maxParams (valuedPieces query)) :
    loopParams maxParams false (query.splitOn 38) =
      ((queryPieces query).filterMap cutParamOf).take maxParams := by
  have hloop := loopParams_stripAmp maxParams (lit "amp;" ++ query)
  rw [stripAmp_amp] at hloop
  rw [hloop, queryPieces_eq]
  refine loopParams_eq ?_ (by simp)
  rw [← valuedPieces_amp] at h
  exact h

variable {p : QueryParam}

/-- What fits is copied whole. -/
theorem QueryParam.cut_eq_self (hkey : p.key.length < maxParamLength)
    (hvalue : p.value.length < maxParamLength) : p.cut = p := by
  rw [QueryParam.cut, List.take_of_length_le (by omega), List.take_of_length_le (by omega)]

/-- An `amp;` in front of a piece is in front of its key. -/
theorem paramOf_amp (h : paramOf piece = some p) :
    paramOf (lit "amp;" ++ piece) = some ⟨lit "amp;" ++ p.key, p.value⟩ := by
  have hvalue : 61 ∈ piece := by
    by_contra hnot
    rw [paramOf_of_notMem hnot] at h
    cases h
  obtain ⟨k, v, rfl, hk⟩ := List.eq_append_cons_of_mem hvalue
  rw [paramOf_append_cons hk, Option.some.injEq] at h
  subst h
  have hword := amp_notMem.2
  rw [← List.append_assoc, paramOf_append_cons (by simp [hword, hk])]

theorem Fits.cutParamOf (h : Fits piece) : cutParamOf piece = paramOf piece := by
  rw [WebServer.cutParamOf]
  cases hparam : paramOf piece with
  | none => rfl
  | some p =>
    obtain ⟨hkey, hvalue⟩ := h p hparam
    rw [Option.map_some, QueryParam.cut_eq_self hkey hvalue]

theorem Fits.stripAmp (h : Fits piece) : Fits (stripAmp piece) := by
  by_cases hamp : lit "amp;" <+: piece
  · obtain ⟨t, rfl⟩ := hamp
    rw [stripAmp_amp]
    intro p hp
    obtain ⟨hkey, hvalue⟩ := h _ (paramOf_amp hp)
    rw [List.length_append] at hkey
    exact ⟨by omega, hvalue⟩
  · rwa [stripAmp_of_not hamp]

/-- Where the pieces fit, the reference copies them whole. -/
theorem filterMap_queryPieces {query : Bytes} (h : ∀ piece ∈ query.splitOn 38, Fits piece) :
    (queryPieces query).filterMap cutParamOf = (queryPieces query).filterMap paramOf := by
  obtain ⟨p, ps, hsplit, -⟩ := exists_head_splitOn query
  rw [hsplit] at h
  refine List.filterMap_congr fun piece hpiece => Fits.cutParamOf ?_
  rw [queryPieces, hsplit, List.mem_cons, List.mem_map] at hpiece
  rcases hpiece with rfl | ⟨raw, hraw, rfl⟩
  · exact h _ (by simp)
  · exact (h raw (by simp [hraw])).stripAmp

/-! ## Separators written out -/

/-- Where the path of a URL ends, and what its query is. -/
theorem of_route {route query : Bytes} (hroute : ∀ c ∈ route, c ≠ 63 ∧ c ≠ 35)
    (hquery : 35 ∉ query) (s : Bytes) : rawPath (route ++ 63 :: (query ++ s)) = route ∧
      queryOf (route ++ 63 :: (query ++ s)) = query ++ beforeFragment s := by
  have hbefore : beforeFragment (route ++ 63 :: (query ++ s)) =
      route ++ 63 :: (query ++ beforeFragment s) := by
    rw [beforeFragment, List.takeWhile_append_of_pos fun c hc => by simpa using (hroute c hc).2,
      List.takeWhile_cons_of_pos (by decide), List.takeWhile_append_of_pos]
    · rfl
    · intro c hc
      simpa using fun h : c = 35 => hquery (h ▸ hc)
  constructor
  · rw [rawPath, List.takeWhile_append_of_pos fun c hc => by simpa using hroute c hc,
      List.takeWhile_cons_of_neg (by decide), List.append_nil]
  · rw [queryOf, urlQuery, hbefore,
      List.dropWhile_append_of_pos fun c hc => by simpa using (hroute c hc).1,
      List.dropWhile_cons_of_neg (by decide), List.tail_cons]

/-- A separator written out, in the query. -/
theorem Escapes.query {url' : Bytes} (h : Escapes url url') :
    rawPath url' = rawPath url ∧ ∃ a b, queryOf url = a ++ 38 :: b ∧
      queryOf url' = a ++ 38 :: (lit "amp;" ++ b) ∧ ¬ lit "amp;" <+: b := by
  obtain ⟨a, b, rfl, rfl, hmark, hfragment, hamp⟩ := h
  obtain ⟨route, query, rfl, hroute⟩ := List.eq_append_cons_of_mem hmark
  simp only [List.mem_append, List.mem_cons, not_or] at hfragment
  have hpath : ∀ c ∈ route, c ≠ 63 ∧ c ≠ 35 := fun c hc =>
    ⟨fun h => hroute (h ▸ hc), fun h => hfragment.1 (h ▸ hc)⟩
  obtain ⟨hraw, hquery⟩ := of_route hpath hfragment.2.2 (38 :: b)
  obtain ⟨hraw', hquery'⟩ := of_route hpath hfragment.2.2 (38 :: (lit "amp;" ++ b))
  have hbefore (s : Bytes) : beforeFragment (38 :: s) = 38 :: beforeFragment s :=
    List.takeWhile_cons_of_pos (by decide)
  have hword : beforeFragment (lit "amp;" ++ b) = lit "amp;" ++ beforeFragment b :=
    List.takeWhile_append_of_pos (by decide)
  rw [hbefore] at hquery
  rw [hbefore, hword] at hquery'
  simp only [List.append_assoc, List.cons_append] at *
  refine ⟨by rw [hraw, hraw'], query, beforeFragment b, hquery, hquery', ?_⟩
  exact fun hpre => hamp (hpre.trans (List.takeWhile_prefix _))

/-- **Written out, a separator separates the same pieces.** -/
theorem queryPieces_escaped {b : Bytes} (hamp : ¬ lit "amp;" <+: b) :
    queryPieces (a ++ 38 :: (lit "amp;" ++ b)) = queryPieces (a ++ 38 :: b) ∧
      valuedPieces (a ++ 38 :: (lit "amp;" ++ b)) = valuedPieces (a ++ 38 :: b) := by
  have hword := amp_notMem.2
  obtain ⟨p, ps, ha, -⟩ := exists_head_splitOn a
  obtain ⟨q, qs, hb, hpre⟩ := exists_head_splitOn b
  have hq : stripAmp q = q := stripAmp_of_not fun h => hamp (h.trans hpre)
  rw [queryPieces, queryPieces, valuedPieces, valuedPieces, List.splitOn_append_cons_self,
    List.splitOn_append_cons_self, splitOn_append_of_notMem amp_notMem.1, ha, hb]
  simp [hq, hword]

theorem urlRoute_eq (url : Bytes) (routeSize : ℕ) :
    urlRoute url routeSize = (rawPath url).take (routeSize - 1) := by
  rw [urlRoute, takeWhile_beforeFragment]

/-- A query in which no piece with a value stands behind one without is parsed as its reference
says. -/
theorem queryParsed_of {routeSize : ℕ} (hfit : PiecesFit url routeSize)
    (h : NoneBehindValueless maxParams (valuedPieces (queryOf url))) :
    QueryParsed url routeSize := by
  constructor
  · rw [urlParse_eq, urlRoute_eq, List.take_of_length_le (by have := hfit.1; omega),
      loopParams_query h, filterMap_queryPieces hfit.2, queryParams]
  · intro url' hescapes
    obtain ⟨hraw, a, b, hquery, hquery', hamp⟩ := hescapes.query
    obtain ⟨hpieces, hvalued⟩ := queryPieces_escaped (a := a) hamp
    rw [← hquery, ← hquery'] at hpieces hvalued
    rw [urlParse_eq, urlParse_eq, urlRoute_eq, urlRoute_eq, hraw, loopParams_query h,
      loopParams_query (hvalued ▸ h), hpieces]

/-! ## A value behind a piece without one -/

/-- The loop at a piece with a value behind one without. -/
theorem loopParams_behind (strip : Bool) {before : List Bytes} {x y : Bytes} (hx : 61 ∉ x)
    (hy : paramOf y = some p) (hroom : before.countP (61 ∈ ·) < n) (after : List Bytes) :
    (loopParams n strip before).length = before.countP (61 ∈ ·) ∧
      ∃ rest, loopParams n strip (before ++ x :: y :: after) =
        loopParams n strip before ++ p.cut :: rest := by
  have hnone {piece : Bytes} (strip : Bool) (h : 61 ∉ piece) :
      paramOf (if strip then stripAmp piece else piece) = none := by
    cases strip with
    | false => exact paramOf_of_notMem h
    | true => exact paramOf_of_notMem (mem_stripAmp_iff.not.mpr h)
  obtain ⟨n, rfl⟩ := Nat.exists_eq_add_of_lt (Nat.zero_lt_of_lt hroom)
  rw [Nat.zero_add] at *
  induction before generalizing n strip with
  | nil =>
    refine ⟨by simp, loopParams n true after, ?_⟩
    rw [List.nil_append, loopParams_nil, List.nil_append, loopParams, hnone strip hx, loopParams,
      if_neg Bool.false_ne_true, hy]
  | cons piece before ih =>
    rw [List.cons_append, loopParams, loopParams]
    by_cases hvalue : 61 ∈ piece
    · have hsome : ∃ q, paramOf (if strip then stripAmp piece else piece) = some q := by
        cases strip with
        | false => exact ⟨_, if_pos hvalue⟩
        | true => exact ⟨_, if_pos (mem_stripAmp_iff.mpr hvalue)⟩
      obtain ⟨q, hq⟩ := hsome
      rw [List.countP_cons_of_pos (by simpa using hvalue)] at hroom ⊢
      obtain ⟨n, rfl⟩ := Nat.exists_eq_add_of_lt (show 0 < n by omega)
      obtain ⟨hlen, rest, hrest⟩ := ih true (0 + n) (by omega)
      simp only [hq]
      exact ⟨congrArg (· + 1) hlen, rest, congrArg (q.cut :: ·) hrest⟩
    · rw [List.countP_cons_of_neg (by simpa using hvalue)] at hroom ⊢
      simp only [hnone strip hvalue]
      exact ih false n hroom

theorem length_filterMap_paramOf (pieces : List Bytes) :
    (pieces.filterMap paramOf).length = pieces.countP (61 ∈ ·) := by
  rw [List.length_filterMap_eq_countP]
  refine List.countP_congr fun piece _ => ?_
  rw [paramOf]
  split_ifs with h <;> simp [h]

/-- The reference at a piece that is not the first. -/
theorem queryParams_behind {query : Bytes} {before after : List Bytes} {x y : Bytes}
    (hsplit : query.splitOn 38 = before ++ x :: y :: after) (hx : 61 ∉ x)
    (hy : paramOf (stripAmp y) = some p) (hroom : before.countP (61 ∈ ·) < maxParams) :
    ∃ l rest, l.length = before.countP (61 ∈ ·) ∧ queryParams query = l ++ p :: rest := by
  have hstrip (pieces : List Bytes) :
      (pieces.map stripAmp).countP (61 ∈ ·) = pieces.countP (61 ∈ ·) := by
    rw [List.countP_map]
    refine List.countP_congr fun piece _ => ?_
    simp [mem_stripAmp_iff]
  obtain ⟨l, hl, hpieces⟩ : ∃ l : List Bytes, l.countP (61 ∈ ·) = before.countP (61 ∈ ·) ∧
      queryPieces query = l ++ stripAmp y :: after.map stripAmp := by
    cases before with
    | nil => exact ⟨[x], by simp [hx], by rw [queryPieces, hsplit]; rfl⟩
    | cons first before =>
      refine ⟨first :: (before ++ [x]).map stripAmp, ?_, ?_⟩
      · rw [List.countP_cons, List.countP_cons, hstrip, List.countP_append]
        simp [hx]
      · rw [queryPieces, hsplit]
        simp
  refine ⟨l.filterMap paramOf, ((after.map stripAmp).filterMap paramOf).take
    (maxParams - before.countP (61 ∈ ·) - 1), by rw [length_filterMap_paramOf, hl], ?_⟩
  obtain ⟨m, hm⟩ := Nat.exists_eq_add_of_lt hroom
  rw [queryParams, hpieces, List.filterMap_append, List.filterMap_cons, hy, List.take_append,
    length_filterMap_paramOf, hl, List.take_of_length_le (by rw [length_filterMap_paramOf]; omega)]
  rw [show maxParams - before.countP (61 ∈ ·) = m + 1 by omega]
  rfl

/-- A query is cut between two of its pieces. -/
theorem exists_split {l r : List Bytes} (hl : l ≠ []) (hr : r ≠ []) {query : Bytes}
    (h : query.splitOn 38 = l ++ r) :
    ∃ a b, query = a ++ 38 :: b ∧ a.splitOn 38 = l ∧ b.splitOn 38 = r := by
  induction l generalizing query with
  | nil => exact absurd rfl hl
  | cons p l ih =>
    rcases piece_cases query with ⟨-, hone⟩ | ⟨p', t, rfl, hp, hsplit⟩
    · rw [hone, List.cons_append, List.cons.injEq] at h
      exact absurd (List.append_eq_nil_iff.mp h.2.symm).2 hr
    · rw [hsplit, List.cons_append, List.cons.injEq] at h
      obtain ⟨rfl, hrest⟩ := h
      cases l with
      | nil => exact ⟨p', t, rfl, List.splitOn_eq_singleton hp, hrest⟩
      | cons p₂ l =>
        obtain ⟨a, b, rfl, ha, hb⟩ := ih (List.cons_ne_nil _ _) hrest
        refine ⟨p' ++ 38 :: a, b, by rw [List.append_assoc, List.cons_append], ?_, hb⟩
        rw [List.splitOn_append_cons_self_of_not_mem hp, ha]

/-- Lists with a part of one length before two items have the same item there. -/
theorem eq_of_append_cons {α : Type} {l l' r r' : List α} {a a' : α}
    (h : l ++ a :: r = l' ++ a' :: r') (hlen : l.length = l'.length) : a = a' :=
  List.head_eq_of_cons_eq (List.append_inj h hlen).2

/-- A URL with a query, up to any separator in it. -/
theorem exists_queryOf_split {b : Bytes} (h : queryOf url = a ++ 38 :: b) :
    ∃ route fragment, url = route ++ 63 :: (a ++ 38 :: (b ++ fragment)) ∧
      (∀ c ∈ route, c ≠ 63 ∧ c ≠ 35) ∧ 35 ∉ a := by
  have hmark : urlQuery url = 63 :: (a ++ 38 :: b) := by
    have hne : urlQuery url ≠ [] := by
      intro hnil
      rw [queryOf, hnil] at h
      simp at h
    obtain ⟨c, t, ht⟩ := List.exists_cons_of_ne_nil hne
    have hhead := List.head?_dropWhile_not (fun c : UInt8 => decide (c ≠ 63)) (beforeFragment url)
    rw [show (beforeFragment url).dropWhile (fun c => decide (c ≠ 63)) = c :: t from ht] at hhead
    have hc : c = 63 := by simpa using hhead
    rw [queryOf, ht, List.tail_cons] at h
    rw [ht, hc, h]
  have hbefore : beforeFragment url =
      (beforeFragment url).takeWhile (· ≠ 63) ++ 63 :: (a ++ 38 :: b) := by
    rw [← hmark, urlQuery, List.takeWhile_append_dropWhile]
  have hplain : ∀ c ∈ beforeFragment url, c ≠ 35 := by
    intro c hc
    simpa using List.mem_takeWhile_imp hc
  refine ⟨(beforeFragment url).takeWhile (· ≠ 63), url.dropWhile (· ≠ 35), ?_, ?_, ?_⟩
  · have hurl : url = beforeFragment url ++ url.dropWhile (· ≠ 35) :=
      (List.takeWhile_append_dropWhile).symm
    conv_lhs => rw [hurl, hbefore]
    simp only [List.append_assoc, List.cons_append]
  · intro c hc
    exact ⟨by simpa using List.mem_takeWhile_imp hc, hplain c ((List.takeWhile_prefix _).subset hc)⟩
  · intro hmem
    refine hplain 35 ?_ rfl
    rw [hbefore]
    simp [hmem]

/-- Where two pieces stand side by side, the separator between them can be written out: the second then has
`amp;` in front of it. -/
theorem exists_escaped {before after : List Bytes} {x y : Bytes}
    (hsplit : (queryOf url).splitOn 38 = before ++ x :: y :: after) (hy : 61 ∈ y)
    (hamp : ¬ lit "amp;" <+: y) : ∃ url', Escapes url url' ∧
      (queryOf url').splitOn 38 = before ++ x :: (lit "amp;" ++ y) :: after := by
  have hsplit' : (queryOf url).splitOn 38 = (before ++ [x]) ++ (y :: after) := by
    rw [hsplit, List.append_assoc]
    rfl
  obtain ⟨a, b, hquery, ha, hb⟩ := exists_split (by simp) (List.cons_ne_nil _ _) hsplit'
  obtain ⟨route, fragment, hurl, hroute, hfragment⟩ := exists_queryOf_split hquery
  obtain ⟨-, hquery'⟩ := of_route hroute hfragment (38 :: (b ++ fragment))
  obtain ⟨-, hquery''⟩ := of_route hroute hfragment (38 :: (lit "amp;" ++ (b ++ fragment)))
  have hbefore (s : Bytes) : beforeFragment (38 :: s) = 38 :: beforeFragment s :=
    List.takeWhile_cons_of_pos (by decide)
  have hword : beforeFragment (lit "amp;" ++ (b ++ fragment)) =
      lit "amp;" ++ beforeFragment (b ++ fragment) :=
    List.takeWhile_append_of_pos (by decide)
  have hb' : beforeFragment (b ++ fragment) = b := by
    rw [← hurl, hquery, hbefore] at hquery'
    exact (List.cons_eq_cons.mp (List.append_cancel_left hquery')).2.symm
  have hplain : ¬ lit "amp;" <+: b ++ fragment := by
    intro hpre
    obtain ⟨y', ys, hys, hyb⟩ := exists_head_splitOn b
    obtain rfl : y = y' := by
      rw [hb] at hys
      exact (List.cons_eq_cons.mp hys).1
    have hy' := hyb.trans (List.prefix_append b fragment)
    rcases Nat.le_total (lit "amp;").length y.length with hle | hle
    · exact hamp (List.prefix_of_prefix_length_le hpre hy' hle)
    · have hmem := (List.prefix_of_prefix_length_le hy' hpre hle).subset hy
      exact absurd hmem (by decide)
  refine ⟨route ++ 63 :: (a ++ 38 :: (lit "amp;" ++ (b ++ fragment))),
    ⟨route ++ 63 :: a, b ++ fragment, ?_, ?_, by simp, ?_, hplain⟩, ?_⟩
  · rw [hurl, List.append_assoc]
    rfl
  · rw [List.append_assoc]
    rfl
  · intro hmem
    simp only [List.mem_append, List.mem_cons] at hmem
    rcases hmem with hmem | hmem | hmem
    · exact (hroute 35 hmem).2 rfl
    · exact absurd hmem (by decide)
    · exact hfragment hmem
  · rw [hquery'', hbefore, hword, hb', List.splitOn_append_cons_self, ha,
      splitOn_append_of_notMem amp_notMem.1, hb, List.append_assoc]
    rfl

/-- **The reference strips an `amp;` that the loop does not**: that in front of a piece with a value behind one
without. -/
theorem queryParams_ne_of_amp {before after : List Bytes} {x z : Bytes}
    (hsplit : (queryOf url).splitOn 38 = before ++ x :: (lit "amp;" ++ z) :: after) (hx : 61 ∉ x)
    (hp : paramOf (lit "amp;" ++ z) = some p) (hcut : p.cut = p)
    (hcount : before.countP (61 ∈ ·) < maxParams) :
    loopParams maxParams false ((queryOf url).splitOn 38) ≠ queryParams (queryOf url) := by
  intro hsame
  obtain ⟨hlen, rest, hloop⟩ := loopParams_behind false hx hp hcount after
  obtain ⟨q, hq⟩ : ∃ q, paramOf z = some q := by
    refine ⟨_, if_pos ?_⟩
    by_contra hz
    rw [paramOf, if_neg fun hmem => (List.mem_append.mp hmem).elim amp_notMem.2 hz] at hp
    cases hp
  have hamp := paramOf_amp hq
  rw [hp, Option.some.injEq] at hamp
  obtain ⟨l, rest', hl, hreference⟩ :=
    queryParams_behind hsplit hx (by rwa [stripAmp_amp]) hcount
  rw [hsplit, hloop, hreference] at hsame
  have hparam := eq_of_append_cons hsame (hlen.trans hl.symm)
  rw [hcut, hamp] at hparam
  have hlength := congrArg (fun p => p.key.length) hparam
  rw [List.length_append] at hlength
  have hword : 0 < (lit "amp;").length := by decide
  omega

/-- **Written out, the separator becomes a part of the key** of a piece with a value behind one without. -/
theorem loopParams_amp_ne {before : List Bytes} {x y : Bytes} (hx : 61 ∉ x) (hy : paramOf y = some p)
    (hamp : ¬ lit "amp;" <+: y) (hcut : p.cut = p) (hcount : before.countP (61 ∈ ·) < maxParams)
    (after : List Bytes) : loopParams maxParams false (before ++ x :: (lit "amp;" ++ y) :: after) ≠
      loopParams maxParams false (before ++ x :: y :: after) := by
  intro hsame
  obtain ⟨-, rest, hloop⟩ := loopParams_behind false hx hy hcount after
  obtain ⟨-, rest', hloop'⟩ := loopParams_behind false hx (paramOf_amp hy) hcount after
  rw [hloop, hloop'] at hsame
  have hkeys := congrArg QueryParam.key (eq_of_append_cons hsame rfl)
  rw [hcut] at hkeys
  have hkeyAmp : lit "amp;" <+: p.key := by
    rw [← hkeys]
    exact List.prefix_take_iff.mpr ⟨List.prefix_append _ _, by decide⟩
  have hkeyPre : p.key <+: y := by
    rw [paramOf] at hy
    split_ifs at hy
    rw [← Option.some.inj hy]
    exact List.takeWhile_prefix _
  exact hamp (hkeyAmp.trans hkeyPre)

/-- **A query is parsed as its reference says, however its separators are written, exactly when no
piece with a value stands right behind one without.** -/
theorem queryParsed_iff {url : Bytes} {routeSize : ℕ} (hfit : PiecesFit url routeSize) :
    QueryParsed url routeSize ↔ NoneBehindValueless maxParams (valuedPieces (queryOf url)) := by
  refine ⟨?_, queryParsed_of hfit⟩
  rintro ⟨hparsed, hescaped⟩ flags flags' hvalued
  by_contra hroom
  obtain ⟨before, rest, hsplit, rfl, hrest⟩ := List.map_eq_append_iff.mp hvalued
  obtain ⟨x, rest, rfl, hx, hrest⟩ := List.map_eq_cons_iff.mp hrest
  obtain ⟨y, after, rfl, hy, rfl⟩ := List.map_eq_cons_iff.mp hrest
  have hx : 61 ∉ x := by simpa using hx
  have hy : 61 ∈ y := by simpa using hy
  have hcount : before.countP (61 ∈ ·) < maxParams := by
    rw [List.count_eq_countP, List.countP_map] at hroom
    refine lt_of_eq_of_lt (List.countP_congr fun piece _ => ?_) (Nat.lt_of_not_le hroom)
    simp
  obtain ⟨p, hp⟩ : ∃ p, paramOf y = some p := ⟨_, if_pos hy⟩
  obtain ⟨hkey, hvalue⟩ := hfit.2 y (hsplit ▸ by simp) p hp
  have hcut := QueryParam.cut_eq_self hkey hvalue
  by_cases hamp : lit "amp;" <+: y
  · obtain ⟨z, rfl⟩ := hamp
    refine queryParams_ne_of_amp hsplit hx hp hcut hcount ?_
    rw [urlParse_eq] at hparsed
    exact congrArg Prod.snd hparsed
  · obtain ⟨url', hescapes, hpieces⟩ := exists_escaped hsplit hy hamp
    have hsame := congrArg Prod.snd (hescaped url' hescapes)
    rw [urlParse_eq, urlParse_eq, hsplit, hpieces] at hsame
    exact loopParams_amp_ne hx hp hamp hcut hcount after hsame

/-- Two pieces with values. -/
theorem queryParsed_twoValues : PiecesFit (lit "/?lang=es&page=2") 2048 ∧
    QueryParsed (lit "/?lang=es&page=2") 2048 := by
  have hfit : PiecesFit (lit "/?lang=es&page=2") 2048 := by
    refine ⟨by decide, ?_⟩
    have hsplit : (queryOf (lit "/?lang=es&page=2")).splitOn 38 =
        [lit "lang=es", lit "page=2"] := by
      decide
    rw [hsplit]
    decide
  refine ⟨hfit, (queryParsed_iff hfit).mpr ?_⟩
  have hvalued : valuedPieces (queryOf (lit "/?lang=es&page=2")) = [true, true] := by decide
  rw [hvalued]
  intro before after h
  have hmem : false ∈ [true, true] := by
    rw [h]
    simp
  simp at hmem

/-- Behind a piece without a value the `amp;` stays in the key. -/
theorem not_queryParsed_valueless : ¬ QueryParsed (lit "/?debug&amp;lang=es") 2048 := by
  rintro ⟨hparsed, -⟩
  rw [urlParse_eq] at hparsed
  revert hparsed
  decide

end BoatRudder.WebServer
