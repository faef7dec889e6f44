import BoatRudder.Utils.DetectEpoch

/-! # Checking a stylesheet against the rules

`css_compat_check`: the features of CSS a stylesheet uses, each with the browsers the rules still serve
though they are too old for it. The stylesheet is looked through in lower case, without its comments,
quoted strings and `url(...)`. Strings are without their terminator. -/

namespace BoatRudder.Utils

/-! ## The features -/

/-- `MatchKind`. -/
inductive MatchKind where
  /-- `MATCH_TEXT`. -/
  | text
  /-- `MATCH_PROPERTY`. -/
  | property
  /-- `MATCH_UNIT`. -/
  | unit
  /-- `MATCH_WORD`. -/
  | word
  /-- `MATCH_NESTING`. -/
  | nesting
deriving DecidableEq

/-- `CssFeature`. -/
structure CssFeature where
  feature : String
  kind : MatchKind
  needle : List String
  chrome : String
  firefox : String
  safari : String
deriving DecidableEq

/-- `FEATURES`. -/
def cssFeatures : List CssFeature :=
  [⟨"custom properties (var())", .text, ["var(--"], "49", "31", "10"⟩,
   ⟨"display: grid", .text, ["display:grid", "display: grid"], "57", "52", "10.1"⟩,
   ⟨":focus-within", .text, [":focus-within"], "60", "52", "10.1"⟩,
   ⟨"clamp()", .text, ["clamp("], "79", "75", "13.1"⟩,
   ⟨"@property", .text, ["@property"], "85", "128", "16.4"⟩,
   ⟨":focus-visible", .text, [":focus-visible"], "86", "85", "15.4"⟩,
   ⟨"inset", .property, ["inset"], "87", "66", "14.1"⟩,
   ⟨"aspect-ratio", .property, ["aspect-ratio"], "88", "89", "15"⟩,
   ⟨":is() / :where()", .text, [":is(", ":where("], "88", "78", "14"⟩,
   ⟨"accent-color", .property, ["accent-color"], "93", "92", "15.4"⟩,
   ⟨"@layer", .text, ["@layer"], "99", "97", "15.4"⟩,
   ⟨"translate / rotate / scale properties", .property, ["translate", "rotate", "scale"],
    "104", "72", "14.1"⟩,
   ⟨":has()", .text, [":has("], "105", "121", "15.4"⟩,
   ⟨"container queries", .text, ["@container", "container-type:", "container-type :"],
    "105", "110", "16"⟩,
   ⟨"viewport units dvh / svh / lvh", .unit, ["dvh", "svh", "lvh"], "108", "101", "15.4"⟩,
   ⟨"color-mix()", .text, ["color-mix("], "111", "113", "16.2"⟩,
   ⟨"oklch() / oklab()", .text, ["oklch(", "oklab("], "111", "113", "15.4"⟩,
   ⟨"text-wrap", .property, ["text-wrap"], "114", "121", "17.5"⟩,
   ⟨"subgrid", .word, ["subgrid"], "117", "71", "16"⟩,
   ⟨"CSS nesting (&)", .nesting, ["&"], "120", "117", "17.2"⟩,
   ⟨"light-dark()", .text, ["light-dark("], "123", "120", "17.5"⟩]

/-! ## What is looked through -/

/-- What stands behind the comment that has been opened. -/
def afterComment (s : Bytes) : Bytes :=
  match findSub [42, 47] s with
  | none => []
  | some i => s.drop (i + 2)

/-- What stands behind the string that has been opened with `q`. -/
def afterString (q : UInt8) : Bytes → Bytes
  | [] => []
  | [_] => []
  | c :: d :: s =>
    if c = q then d :: s else if c = 92 then afterString q s else afterString q (d :: s)

/-- What stands behind the next closing parenthesis. -/
def afterParen (s : Bytes) : Bytes := (s.dropWhile (· ≠ 41)).drop 1

/-- What follows a comment is the end of the text. -/
theorem afterComment_suffix (s : Bytes) : afterComment s <:+ s := by
  unfold afterComment
  split
  · exact List.nil_suffix
  · exact List.drop_suffix _ s

/-- So is what follows a string, -/
theorem afterString_suffix (q : UInt8) (s : Bytes) : afterString q s <:+ s := by
  fun_induction afterString q s with
  | case1 => exact List.suffix_rfl
  | case2 => exact List.nil_suffix
  | case3 d s => exact List.suffix_cons q (d :: s)
  | case4 d s h ih => exact ih.trans ⟨[92, d], rfl⟩
  | case5 c d s h h' ih => exact ih.trans (List.suffix_cons c (d :: s))

/-- and what follows a parenthesis. -/
theorem afterParen_suffix (s : Bytes) : afterParen s <:+ s :=
  (List.drop_suffix 1 _).trans (List.dropWhile_suffix _)

/-- `strip`. -/
def strip : Bytes → Bytes
  | [] => []
  | c :: s =>
    if c = 47 ∧ s.head? = some 42 then 32 :: strip (afterComment (s.drop 1))
    else if c = 34 ∨ c = 39 then 32 :: strip (afterString c s)
    else if eqNoCase ((c :: s).take 4) (lit "url(") then 32 :: strip (afterParen s)
    else toLower c :: strip s
termination_by css => css.length
decreasing_by
  · have := ((afterComment_suffix (s.drop 1)).trans (List.drop_suffix 1 s)).length_le
    exact Nat.lt_succ_of_le this
  · exact Nat.lt_succ_of_le (afterString_suffix c s).length_le
  · exact Nat.lt_succ_of_le (afterParen_suffix s).length_le
  · exact Nat.lt_succ_self _

/-! ## The matchers -/

/-- `is_ident_char`. -/
def isIdentChar (c : UInt8) : Bool := isAlnum c || c == 45 || c == 95

/-- The blanks that are gone over around a property's name. -/
def isSkipped (c : UInt8) : Bool := c == 32 || c == 9 || c == 10 || c == 13

/-- The loops over the occurrences of a needle, one byte after the other: whether one of them stands
between a `before` and an `after` that will do. -/
def anyOccurrence (ok : Bytes → Bytes → Bool) (needle text : Bytes) : Bool :=
  (List.range (text.length + 1)).any fun i =>
    needle.isPrefixOf (text.drop i) && ok (text.take i) (text.drop (i + needle.length))

/-- Whether a declaration may begin behind `before`. -/
def startsDeclaration (before : Bytes) : Bool :=
  match (before.reverse.dropWhile isSkipped).head? with
  | none => true
  | some b => b == 123 || b == 59

/-- `has_property`. -/
def hasProperty (text name : Bytes) : Bool :=
  anyOccurrence (fun before after => !after.head?.any isIdentChar &&
    (after.dropWhile isSkipped).head? == some 58 && startsDeclaration before) name text

/-- `has_word`. -/
def hasWord (text word : Bytes) : Bool :=
  anyOccurrence (fun before after => !before.getLast?.any isIdentChar &&
    !after.head?.any isIdentChar) word text

/-- `has_unit`. -/
def hasUnit (text unit : Bytes) : Bool :=
  anyOccurrence (fun before after => before.getLast?.any isDigit &&
    !after.head?.any isIdentChar) unit text

/-- One needle of a feature. -/
def MatchKind.found (kind : MatchKind) (text needle : Bytes) : Bool :=
  match kind with
  | .text | .nesting => (findSub needle text).isSome
  | .property => hasProperty text needle
  | .unit => hasUnit text needle
  | .word => hasWord text needle

/-- `uses`. -/
def uses (text : Bytes) (f : CssFeature) : Bool :=
  (f.needle.take 3).any fun needle => f.kind.found text (lit needle)

/-! ## Asking the rules -/

/-- `previous_version`. -/
def previousVersion (first : Bytes) : Option (ℤ × ℤ) :=
  let last := (strtoll first).2
  let ma := (strtoll first).1
  let mi := if last.head? = some 46 then (strtoll (last.drop 1)).1 else 0
  if 0 < mi then some (ma, mi - 1) else if 1 < ma then some (ma - 1, 9) else none

/-- The engines that are asked for. -/
inductive Engine where
  | chrome
  | firefox
  | safari
  | ios
deriving DecidableEq

namespace Engine

/-- Its name in a warning. -/
def name : Engine → Bytes
  | chrome => lit "Chrome"
  | firefox => lit "Firefox"
  | safari => lit "Safari"
  | ios => lit "iOS"

/-- Its version in a warning. -/
def version (major minor : ℤ) : Engine → Bytes
  | chrome | firefox => (signed major).take 15
  | safari | ios => (signed major ++ lit "." ++ signed minor).take 15

/-- The User-Agent of that version. -/
def userAgent (major minor : ℤ) : Engine → Bytes
  | chrome =>
    (lit "Mozilla/5.0 (Windows NT 10.0; Win64; x64) AppleWebKit/537.36 (KHTML, like Gecko) Chrome/" ++
      signed major ++ lit ".0.0.0 Safari/537.36").take 255
  | firefox =>
    (lit "Mozilla/5.0 (X11; Linux x86_64; rv:" ++ signed major ++
      lit ".0) Gecko/20100101 Firefox/" ++ signed major ++ lit ".0").take 255
  | safari =>
    (lit "Mozilla/5.0 (Macintosh; Intel Mac OS X 10_15_7) AppleWebKit/605.1.15 (KHTML, like Gecko) Version/" ++
      signed major ++ lit "." ++ signed minor ++ lit " Safari/605.1.15").take 255
  | ios =>
    (lit "Mozilla/5.0 (iPhone; CPU iPhone OS " ++ signed major ++ lit "_" ++ signed minor ++
      lit " like Mac OS X) AppleWebKit/605.1.15 (KHTML, like Gecko) Version/" ++ signed major ++
      lit "." ++ signed minor ++ lit " Mobile/15E148 Safari/604.1").take 255

end Engine

/-- Whether a User-Agent is served the page. -/
def servedPage (rules : BrowserDetection) (dashboard : Bool) (ua : Bytes) : Bool :=
  let m := browserDetectionClassify rules (some ua)
  if dashboard then m.epoch = epochModern && m.dashboard else m.epoch = epochModern

/-- `check_engine`: `served` with the engine appended, cut at `size`. -/
def checkEngine (rules : BrowserDetection) (dashboard : Bool) (engine : Engine) (first : Bytes)
    (size : ℕ) (served : Bytes) : Bytes :=
  match previousVersion first with
  | none => served
  | some (major, minor) =>
    if servedPage rules dashboard (engine.userAgent major minor) then
      served ++ ((if served = [] then [] else lit ", ") ++ engine.name ++ lit " " ++
        engine.version major minor).take (size - served.length - 1)
    else served

/-- `CssCompatWarning`. -/
structure CssCompatWarning where
  feature : Bytes
  needs : Bytes
  stillServed : Bytes
deriving DecidableEq

/-- The browsers still served that are too old for a feature. -/
def stillServed (rules : BrowserDetection) (dashboard : Bool) (f : CssFeature) : Bytes :=
  checkEngine rules dashboard .ios (lit f.safari) 96
    (checkEngine rules dashboard .safari (lit f.safari) 96
      (checkEngine rules dashboard .firefox (lit f.firefox) 96
        (checkEngine rules dashboard .chrome (lit f.chrome) 96 [])))

/-- The warning of a feature, if the stylesheet uses it and the rules serve such a browser. -/
def cssWarning (text : Bytes) (rules : BrowserDetection) (dashboard : Bool) (f : CssFeature) :
    Option CssCompatWarning :=
  if uses text f && stillServed rules dashboard f ≠ [] then
    some ⟨lit f.feature,
      (lit "Chrome " ++ lit f.chrome ++ lit ", Firefox " ++ lit f.firefox ++ lit ", Safari " ++
        lit f.safari).take 63,
      stillServed rules dashboard f⟩
  else none

/-- `css_compat_check`, with a stylesheet, with rules and with memory: the first `max` warnings. -/
def cssCompatCheck (css : Bytes) (rules : BrowserDetection) (dashboard : Bool) (max : ℕ) :
    List CssCompatWarning :=
  (cssFeatures.filterMap (cssWarning (strip css) rules dashboard)).take max

end BoatRudder.Utils
