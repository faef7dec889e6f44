import BoatRudder.Text.Bytes

/-! # Paths of addresses

The path of an address as its segments, and what a browser makes of the dot segments in it: `.` is
where it stands, `..` takes the last segment back, and does nothing at the root. What a path leads to
below a base is told by the path alone: how far it climbs, and the names it then goes down
(**`within_resolvedPath_iff`**). -/

namespace BoatRudder.UriPath

/-! ## Segments -/

variable {s : Bytes} {segs : List Bytes}

/-- The segments of a path that begins with a slash. -/
def segments (path : Bytes) : List Bytes := (path.splitOn 47).tail

/-- The path with these segments. -/
def joined (segs : List Bytes) : Bytes := segs.flatMap (47 :: ·)

/-- How many dots a segment consists of, if of dots; some browsers read `%2e` as one. -/
def dots (encoded : Bool) : Bytes → Option ℕ
  | [] => some 0
  | 46 :: s => (dots encoded s).map (· + 1)
  | 37 :: 50 :: c :: s => if encoded && (c == 101 || c == 69) then (dots encoded s).map (· + 1) else none
  | _ => none

/-- What a segment is. -/
inductive Segment
  | here
  | up
  | name
  deriving DecidableEq, Repr

/-- What a segment is read as. -/
def readSegment (encoded : Bool) (s : Bytes) : Segment :=
  if dots encoded s = some 1 then .here else if dots encoded s = some 2 then .up else .name

/-! ## Dot segments -/

/-- A path resolved, `out` being the segments so far. A dot segment at the end leaves an empty one. -/
def resolve (encoded : Bool) (out : List Bytes) : List Bytes → List Bytes
  | [] => out
  | [s] =>
    match readSegment encoded s with
    | .here => out ++ [[]]
    | .up => out.dropLast ++ [[]]
    | .name => out ++ [s]
  | s :: segs =>
    match readSegment encoded s with
    | .here => resolve encoded out segs
    | .up => resolve encoded out.dropLast segs
    | .name => resolve encoded (out ++ [s]) segs

/-- The path of an address without its dot segments. -/
def resolvedPath (encoded : Bool) (path : Bytes) : Bytes := joined (resolve encoded [] (segments path))

/-- Where a path leads, from anywhere: how often it climbs out of where it started, and the segments
below the last place it climbed to. -/
structure Walk where
  climbs : ℕ
  names : List Bytes
  deriving DecidableEq, Repr

/-- One segment up. -/
def Walk.up (w : Walk) : Walk :=
  if w.names = [] then { w with climbs := w.climbs + 1 } else { w with names := w.names.dropLast }

/-- One segment down. -/
def Walk.down (w : Walk) (s : Bytes) : Walk := { w with names := w.names ++ [s] }

/-- The walk of a path. -/
def walk (encoded : Bool) (w : Walk) : List Bytes → Walk
  | [] => w
  | [s] =>
    match readSegment encoded s with
    | .here => w.down []
    | .up => w.up.down []
    | .name => w.down s
  | s :: segs =>
    match readSegment encoded s with
    | .here => walk encoded w segs
    | .up => walk encoded w.up segs
    | .name => walk encoded (w.down s) segs

/-- Where a walk ends that starts at a base. -/
def Walk.from (w : Walk) (base : List Bytes) : List Bytes := base.take (base.length - w.climbs) ++ w.names

variable {encoded : Bool} {base : List Bytes}

/-- A step up takes the last segment away. -/
theorem Walk.from_up (w : Walk) : w.up.from base = (w.from base).dropLast := by
  unfold Walk.up Walk.from
  split_ifs with hnames
  · show base.take (base.length - (w.climbs + 1)) ++ w.names = _
    rw [hnames, List.append_nil, List.append_nil, List.dropLast_eq_take, List.take_take, List.length_take]
    congr 1
    omega
  · exact (List.dropLast_append_of_ne_nil hnames).symm

/-- A step down adds a segment. -/
theorem Walk.from_down (w : Walk) (s : Bytes) : (w.down s).from base = w.from base ++ [s] :=
  (List.append_assoc _ _ _).symm

/-- **A path resolves to where its walk leads.** -/
theorem resolve_from (w : Walk) (segs : List Bytes) :
    resolve encoded (w.from base) segs = (walk encoded w segs).from base := by
  induction segs generalizing w with
  | nil => rfl
  | cons s segs ih =>
    cases segs with
    | nil =>
      rw [resolve, walk]
      cases readSegment encoded s with
      | here => exact (w.from_down []).symm
      | up =>
        show (w.from base).dropLast ++ [[]] = (w.up.down []).from base
        rw [Walk.from_down, Walk.from_up]
      | name => exact (w.from_down s).symm
    | cons t segs =>
      rw [resolve, walk]
      · cases readSegment encoded s with
        | here => exact ih w
        | up =>
          show resolve encoded (w.from base).dropLast (t :: segs) = _
          rw [← Walk.from_up, ih]
        | name =>
          show resolve encoded (w.from base ++ [s]) (t :: segs) = _
          rw [← Walk.from_down, ih]
      · exact List.cons_ne_nil t segs
      · exact List.cons_ne_nil t segs

/-- A name is put behind what has been read. -/
theorem resolve_cons (hsegs : segs ≠ []) (out : List Bytes) (hs : readSegment encoded s = .name) :
    resolve encoded out (s :: segs) = resolve encoded (out ++ [s]) segs := by
  rw [resolve, hs]
  exact hsegs

/-- The names at the beginning of a path are gone down. -/
theorem resolve_append {names : List Bytes} (hnames : ∀ s ∈ names, readSegment encoded s = .name)
    (hsegs : segs ≠ []) (out : List Bytes) :
    resolve encoded out (names ++ segs) = resolve encoded (out ++ names) segs := by
  induction names generalizing out with
  | nil => rw [List.nil_append, List.append_nil]
  | cons s names ih =>
    have hrest : names ++ segs ≠ [] := List.append_ne_nil_of_right_ne_nil names hsegs
    rw [List.cons_append, resolve_cons hrest _ (hnames s List.mem_cons_self),
      ih fun t ht => hnames t (List.mem_cons_of_mem _ ht), List.append_assoc, List.singleton_append]

/-- A walk that starts at a base ends there or below exactly when what it climbed is gone down again. -/
theorem prefix_from_iff {w : Walk} :
    base <+: w.from base ↔ base.drop (base.length - w.climbs) <+: w.names := by
  have hcancel : base.take (base.length - w.climbs) ++ base.drop (base.length - w.climbs) <+: w.from base ↔
      base.drop (base.length - w.climbs) <+: w.names :=
    List.prefix_append_right_inj _
  rwa [List.take_append_drop] at hcancel

/-! ## Segments and paths -/

/-- Paths are joined piece by piece. -/
theorem joined_append (a b : List Bytes) : joined (a ++ b) = joined a ++ joined b := List.flatMap_append

/-- A path has a slash in front of each segment. -/
theorem joined_eq_intercalate (segs : List Bytes) : joined segs = [47].intercalate ([] :: segs) := by
  induction segs with
  | nil => rfl
  | cons s segs ih =>
    rw [joined, List.flatMap_cons, ← joined, ih]
    cases segs <;> simp [List.intercalate]

/-- A path is split into the segments it is joined of. -/
theorem segments_joined (h : ∀ s ∈ segs, 47 ∉ s) : segments (joined segs) = segs := by
  have hall : ∀ s ∈ ([] : Bytes) :: segs, 47 ∉ s := by
    intro s hs
    rcases List.mem_cons.mp hs with rfl | hs
    · exact List.not_mem_nil
    · exact h s hs
  rw [segments, joined_eq_intercalate, List.splitOn_intercalate 47 hall (List.cons_ne_nil _ _), List.tail_cons]

/-- The segments of a path are joined to the path. -/
theorem joined_segments (t : Bytes) : joined (segments (47 :: t)) = 47 :: t := by
  have hsplit : (47 :: t).splitOn 47 = [] :: t.splitOn 47 := by
    rw [List.splitOn_cons_eq_if_modifyHead, if_pos (beq_self_eq_true 47)]
  rw [joined_eq_intercalate, segments, hsplit, List.tail_cons, ← hsplit, List.intercalate_splitOn]

theorem slash_notMem_splitOn {path : Bytes} (h : s ∈ path.splitOn 47) : 47 ∉ s := by
  induction path generalizing s with
  | nil =>
    obtain rfl := List.mem_singleton.mp h
    exact List.not_mem_nil
  | cons c path ih =>
    rw [List.splitOn_cons_eq_if_modifyHead] at h
    split_ifs at h with hc
    · rcases List.mem_cons.mp h with rfl | h
      · exact List.not_mem_nil
      · exact ih h
    · obtain ⟨first, rest, hsplit⟩ := List.exists_cons_of_ne_nil (List.splitOn_ne_nil 47 path)
      rw [hsplit] at h ih
      rcases List.mem_cons.mp h with rfl | h
      · rw [List.mem_cons, not_or]
        exact ⟨fun heq => hc (by simp [heq]), ih List.mem_cons_self⟩
      · exact ih (List.mem_cons_of_mem _ h)

/-- No slash stands in a segment. -/
theorem slash_notMem_segments {path : Bytes} (h : s ∈ segments path) : 47 ∉ s :=
  slash_notMem_splitOn (List.mem_of_mem_tail h)

/-- Whether a path is a base or lies below it. -/
def Within (base path : Bytes) : Prop := path = base ∨ base ++ [47] <+: path

/-- A path lies within another when its segments begin with those of the other. -/
theorem within_joined_iff (hbase : ∀ s ∈ base, 47 ∉ s)
    (hsegs : ∀ s ∈ segs, 47 ∉ s) : Within (joined base) (joined segs) ↔ base <+: segs := by
  constructor
  · rintro (heq | ⟨t, ht⟩)
    · have := congrArg segments heq
      rw [segments_joined hsegs, segments_joined hbase] at this
      rw [this]
    · rw [List.append_assoc, List.singleton_append, ← joined_segments, ← joined_append] at ht
      have hall : ∀ s ∈ base ++ segments (47 :: t), 47 ∉ s := by
        intro s hs
        rcases List.mem_append.mp hs with hs | hs
        · exact hbase s hs
        · exact slash_notMem_segments hs
      have := congrArg segments ht
      rw [segments_joined hall, segments_joined hsegs] at this
      exact ⟨_, this⟩
  · rintro ⟨rest, rfl⟩
    cases rest with
    | nil => exact Or.inl (by rw [List.append_nil])
    | cons s rest =>
      refine Or.inr ⟨s ++ joined rest, ?_⟩
      rw [joined_append, joined, joined, joined, List.flatMap_cons]
      simp

/-- Resolving puts no slash into a segment. -/
theorem slash_notMem_resolve {out : List Bytes} (hout : ∀ s ∈ out, 47 ∉ s)
    (hsegs : ∀ s ∈ segs, 47 ∉ s) : ∀ s ∈ resolve encoded out segs, 47 ∉ s := by
  have hsnoc : ∀ {out : List Bytes} {t : Bytes}, (∀ s ∈ out, 47 ∉ s) → 47 ∉ t →
      ∀ s ∈ out ++ [t], 47 ∉ s := by
    intro out t hout ht s hs
    rcases List.mem_append.mp hs with hs | hs
    · exact hout s hs
    · rwa [List.mem_singleton.mp hs]
  induction segs generalizing out with
  | nil => exact hout
  | cons t segs ih =>
    have ht := hsegs t List.mem_cons_self
    have hup : ∀ s ∈ out.dropLast, 47 ∉ s := fun s hs => hout s (List.dropLast_subset _ hs)
    have hrest : ∀ s ∈ segs, 47 ∉ s := fun s hs => hsegs s (List.mem_cons_of_mem _ hs)
    cases segs with
    | nil =>
      rw [resolve]
      cases readSegment encoded t with
      | here => exact hsnoc hout List.not_mem_nil
      | up => exact hsnoc hup List.not_mem_nil
      | name => exact hsnoc hout ht
    | cons u segs =>
      rw [resolve]
      · cases readSegment encoded t with
        | here => exact ih hout hrest
        | up => exact ih hup hrest
        | name => exact ih (hsnoc hout ht) hrest
      · exact List.cons_ne_nil u segs

/-- The walk of what stands below a base. -/
def walkBelow (encoded : Bool) (t : Bytes) : Walk := walk encoded ⟨0, []⟩ (segments t)

/-- **What follows a base leads below it** exactly when its walk goes down again what it climbed. -/
theorem within_resolvedPath_iff (hslash : ∀ s ∈ base, 47 ∉ s)
    (hnames : ∀ s ∈ base, readSegment encoded s = .name) (t : Bytes) :
    Within (joined base) (resolvedPath encoded (joined base ++ 47 :: t)) ↔
      base.drop (base.length - (walkBelow encoded (47 :: t)).climbs) <+:
        (walkBelow encoded (47 :: t)).names := by
  have hsegs : segments (joined base ++ 47 :: t) = base ++ segments (47 :: t) := by
    rw [← joined_segments t, ← joined_append, segments_joined, joined_segments]
    intro s hs
    rcases List.mem_append.mp hs with hs | hs
    · exact hslash s hs
    · exact slash_notMem_segments hs
  have hne : segments (47 :: t) ≠ [] := by
    intro hnil
    have := joined_segments t
    rw [hnil] at this
    cases this
  have hfrom : base = Walk.from ⟨0, []⟩ base := by simp [Walk.from]
  rw [resolvedPath, hsegs, resolve_append hnames hne, List.nil_append]
  rw [within_joined_iff hslash (slash_notMem_resolve hslash fun s hs => slash_notMem_segments hs)]
  conv_lhs =>
    rhs
    rw [hfrom, resolve_from]
  exact prefix_from_iff

end BoatRudder.UriPath
