import BoatRudder.Text.Bytes

/-! # Internet addresses as text

`inet_pton` and `inet_ntop` of the C library for both address families. An address is its bytes in
network order, four or sixteen of them. -/

namespace BoatRudder.WebServer

/-! ## IPv4 -/

/-- A number of a dotted address: one to three digits, no leading zero, at most 255. -/
def octet (s : Bytes) : Option UInt8 :=
  if s ≠ [] ∧ s.length ≤ 3 ∧ s.all isDigit ∧ (s.length = 1 ∨ s.head? ≠ some 48) ∧
      digitsValue 10 0 s ≤ 255 then
    some (UInt8.ofNat (digitsValue 10 0 s))
  else none

/-- `inet_pton(AF_INET, ...)`: four numbers with dots between them. -/
def inetPton4 (s : Bytes) : Option Bytes :=
  match s.splitOnP (· == 46) with
  | [a, b, c, d] => [a, b, c, d].mapM octet
  | _ => none

/-- `inet_ntop(AF_INET, ...)`. -/
def inetNtop4 (a : Bytes) : Bytes := ((a.map fun b => decimal b.toNat).intersperse (lit ".")).flatten

/-! ## IPv6 -/

/-- The state of `inet_pton6`. -/
structure Pton6 where
  /-- The bytes written so far (`tmp` up to `tp`). -/
  out : Bytes
  /-- Where in them the `::` stood (`colonp`). -/
  colon : Option ℕ
  /-- The digits since the last colon (`xdigits_seen`). -/
  digits : ℕ
  /-- Their value (`val`). -/
  val : ℕ
  /-- What followed the last colon (`curtok`). -/
  token : Bytes

/-- A 16-bit group in network order. -/
def groupBytes (val : ℕ) : Bytes := [UInt8.ofNat (val >>> 8), UInt8.ofNat val]

/-- The end of `inet_pton6`: the last group, and the zeros the `::` stands for. -/
def Pton6.finish (st : Pton6) : Option Bytes :=
  if 0 < st.digits ∧ 16 < st.out.length + 2 then none
  else
    let out := if 0 < st.digits then st.out ++ groupBytes st.val else st.out
    match st.colon with
    | some i =>
      if out.length = 16 then none
      else some (out.take i ++ List.replicate (16 - out.length) 0 ++ out.drop i)
    | none => if out.length = 16 then some out else none

/-- The loop of `inet_pton6`. -/
def pton6Loop (st : Pton6) : Bytes → Option Bytes
  | [] => st.finish
  | ch :: s =>
    if isXDigit ch then
      if st.digits = 4 then none
      else pton6Loop { st with
        digits := st.digits + 1, val := st.val * 16 + (digitValue ch).getD 0 } s
    else if ch = 58 then
      if st.digits = 0 then
        if st.colon.isSome then none
        else pton6Loop { st with colon := some st.out.length, token := s } s
      else if s = [] ∨ 16 < st.out.length + 2 then none
      else pton6Loop { st with
        out := st.out ++ groupBytes st.val, digits := 0, val := 0, token := s } s
    else if ch = 46 ∧ st.out.length + 4 ≤ 16 then
      match inetPton4 st.token with
      | some a => ({ st with out := st.out ++ a, digits := 0 } : Pton6).finish
      | none => none
    else none

/-- `inet_pton(AF_INET6, ...)`: a leading colon must be one of two. -/
def inetPton6 (s : Bytes) : Option Bytes :=
  let start := fun t : Bytes => pton6Loop ⟨[], none, 0, 0, t⟩ t
  match s with
  | [] => none
  | 58 :: t => if t.head? = some 58 then start t else none
  | s => start s

/-- The 16-bit groups of an address. -/
def groups : Bytes → List ℕ
  | a :: b :: s => (a.toNat * 256 + b.toNat) :: groups s
  | _ => []

/-- The runs of zero groups from index `i` on: where each starts, and its length. -/
def zeroRuns (i : ℕ) : List ℕ → List (ℕ × ℕ)
  | [] => []
  | w :: ws =>
    if w ≠ 0 then zeroRuns (i + 1) ws
    else
      match zeroRuns (i + 1) ws with
      | (j, n) :: rs => if j = i + 1 then (i, n + 1) :: rs else (i, 1) :: (j, n) :: rs
      | [] => [(i, 1)]

/-- The run `inet_ntop6` writes as `::`: the first of the longest, of two groups at least. -/
def bestRun (ws : List ℕ) : Option (ℕ × ℕ) :=
  (zeroRuns 0 ws).foldl (fun best r =>
    if r.2 < 2 then best
    else match best with
      | some b => if b.2 < r.2 then some r else some b
      | none => some r) none

/-- The hexadecimal digits of `n`, as `%x` writes them. -/
def hex (n : ℕ) : Bytes := (Nat.toDigits 16 n).map (fun c => UInt8.ofNat c.toNat)

/-- Groups with colons between them. -/
def joinGroups (ws : List ℕ) : Bytes := ((ws.map hex).intersperse (lit ":")).flatten

/-- `inet_ntop(AF_INET6, ...)`: an address with an IPv4 one in it ends in that. -/
def inetNtop6 (a : Bytes) : Bytes :=
  let ws := groups a
  match bestRun ws with
  | none => joinGroups ws
  | some (i, n) =>
    if i = 0 ∧ (n = 6 ∨ (n = 5 ∧ ws.getD 5 0 = 0xFFFF)) then
      lit "::" ++ (if n = 5 then lit "ffff:" else []) ++ inetNtop4 (a.drop 12)
    else joinGroups (ws.take i) ++ lit "::" ++ joinGroups (ws.drop (i + n))

end BoatRudder.WebServer
