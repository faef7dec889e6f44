import BoatRudder.Text.CharBuf
import BoatRudder.Text.Numbers

/-! # Browser detection rules

The ordered rules that tell the epoch of a browser from its User-Agent, what is asked of a set of
rules before it may be used, and the classification by it. A set is as it lies in memory: its buffers
may hold anything, and its counts are the lengths of the lists. -/

namespace BoatRudder.Utils

/-! ## Rules -/

/-- `EPOCH_WML`. -/
def epochWml : ℤ := -1

/-- `EPOCH_PRESTANDARD`. -/
def epochPrestandard : ℤ := 0

/-- `EPOCH_EARLY`. -/
def epochEarly : ℤ := 1

/-- `EPOCH_MIDDLE`. -/
def epochMiddle : ℤ := 2

/-- `EPOCH_MODERN`. -/
def epochModern : ℤ := 3

def browserNameMax : ℕ := 64

def browserTokenMax : ℕ := 64

def browserVersionMax : ℕ := 16

def browserUaMax : ℕ := 1024

def browserTokensMax : ℕ := 32

def browserTiersMax : ℕ := 8

def browserRulesMax : ℕ := 64

def browserCasesMax : ℕ := 300

/-- A token of a rule. -/
abbrev BrowserToken : Type := CharBuf browserTokenMax

/-- `BrowserTier`. -/
structure BrowserTier where
  /-- `from`. -/
  fromVersion : CharBuf browserVersionMax
  epoch : ℤ
  dashboard : Bool
deriving DecidableEq

/-- `BrowserRule`; the lists are as long as their counts. -/
structure BrowserRule where
  name : CharBuf browserNameMax
  enabled : Bool
  contains : List BrowserToken
  excludes : List BrowserToken
  versionAfter : BrowserToken
  tiers : List BrowserTier
  epoch : ℤ
  dashboard : Bool
deriving DecidableEq

/-- `BrowserCase`. -/
structure BrowserCase where
  name : CharBuf browserNameMax
  userAgent : CharBuf browserUaMax
  epoch : ℤ
  dashboard : Bool
deriving DecidableEq

/-- `BrowserDetection`. -/
structure BrowserDetection where
  fallbackEpoch : ℤ
  rules : List BrowserRule
  cases : List BrowserCase
deriving DecidableEq

/-- `BrowserMatch`. -/
structure BrowserMatch where
  epoch : ℤ
  dashboard : Bool
  /-- The index of the rule, -1 for the fallback. -/
  rule : ℤ
deriving DecidableEq, Repr

/-! ## Factory rules -/

/-- `FactoryRule`. -/
structure FactoryRule where
  name : String
  contains : List String
  excludes : List String
  versionAfter : String
  tiers : List (String × ℤ × Bool)
  epoch : ℤ
  dashboard : Bool

/-- `FACTORY_RULES`. -/
def factoryRules : List FactoryRule :=
  [⟨"WAP 1.x",
    ["Wap", "WAP", "Nokia", "nokia", "UP.Browser", "UP/", "Obigo", "Ericsson", "SIE-", "SEC-",
     "MOT-", "LG-", "Alcatel", "Panasonic", "SANYO", "SHARP", "PHILIPS"],
    ["AppleWebKit", "UP.Browser/3", "UP/3"], "",
    [], epochWml, false⟩,
   ⟨"Text browsers",
    ["Lynx", "Cello", "Line Mode Browser", "LineMode", "ELinks", "w3m"], [], "",
    [], epochPrestandard, false⟩,
   ⟨"Internet Explorer", ["MSIE "], [], "MSIE ", [("4", epochMiddle, false)], epochEarly, false⟩,
   ⟨"Internet Explorer 11", ["Trident/"], [], "", [], epochMiddle, false⟩,
   ⟨"EdgeHTML", ["Edge/"], [], "", [], epochMiddle, false⟩,
   ⟨"iOS",
    ["iPhone", "iPad", "iPod"], [], " OS ",
    [("14.5", epochModern, false), ("16.2", epochModern, true)], epochMiddle, false⟩,
   ⟨"Firefox",
    ["Firefox/"], [], "Firefox/",
    [("66", epochModern, false), ("121", epochModern, true)], epochMiddle, false⟩,
   ⟨"Chrome",
    ["Chrome/"], [], "Chrome/",
    [("87", epochModern, false), ("111", epochModern, true)], epochMiddle, false⟩,
   ⟨"Safari",
    ["Safari/"], [], "Version/",
    [("14.1", epochModern, false), ("16.2", epochModern, true)], epochMiddle, false⟩,
   ⟨"Opera (Presto)", ["Opera/"], [], "Opera/", [("5", epochMiddle, false)], epochEarly, false⟩,
   ⟨"Netscape", ["Netscape"], [], "Netscape", [("4", epochMiddle, false)], epochEarly, false⟩,
   ⟨"Mosaic", ["Mosaic"], [], "", [], epochEarly, false⟩,
   ⟨"Generic Mozilla",
    ["Mozilla/"], [], "Mozilla/",
    [("3", epochMiddle, false)], epochEarly, false⟩]

/-- `FACTORY_FALLBACK_EPOCH`. -/
def factoryFallbackEpoch : ℤ := epochEarly

/-- `FactoryCase`. -/
structure FactoryCase where
  name : String
  userAgent : String
  epoch : ℤ
  dashboard : Bool

/-- `FACTORY_CASES`. -/
def factoryCases : List FactoryCase :=
  [⟨"No User-Agent", "", epochEarly, false⟩,
   ⟨"Unknown token", "SomeBot", epochEarly, false⟩,
   ⟨"Nokia 7110", "Nokia7110/1.0 (05.01)", epochWml, false⟩,
   ⟨"UP.Browser 4",
    "SIE-S35/1.0 UP/4.1.8c UP.Browser/4.1.8c-XXXX UP.Link/4.2.2.1",
    epochWml, false⟩,
   ⟨"Ericsson R380", "R380 2.0 WAP1.1", epochWml, false⟩,
   ⟨"UP.Browser 3 (HDML only, not served)", "UP.Browser/3.1-UPG1 UP.Link/3.2", epochEarly, false⟩,
   ⟨"UP.Browser 6.1", "SAMSUNG-SGH-E700/BSI UP.Browser/6.1.0.6 (GUI) MMP/1.0", epochWml, false⟩,
   ⟨"Nokia 6233, UC Browser",
    "nokia6233/2.0 (05.60) Profile/MIDP-2.0 Configuration/CLDC-1.1 UCWEB/7.9",
    epochWml, false⟩,
   ⟨"Nokia Android (WebKit, not WAP)",
    "Mozilla/5.0 (Linux; Android 13; Nokia G21) AppleWebKit/537.36 (KHTML, like Gecko) Chrome/120.0.0.0 Mobile Safari/537.36",
    epochModern, true⟩,
   ⟨"Lynx", "Lynx/2.9.0dev.12 libwww-FM/2.14 SSL-MM/1.4.1 GNUTLS/3.7.8", epochPrestandard, false⟩,
   ⟨"w3m", "w3m/0.5.3+git20230121", epochPrestandard, false⟩,
   ⟨"CERN Line Mode Browser 2.15", "LineMode/2.15 libwww/2.17b3", epochPrestandard, false⟩,
   ⟨"W3C Line Mode Browser 5.4", "W3CLineMode/5.4.0 libwww/5.4.0", epochPrestandard, false⟩,
   ⟨"ELinks", "ELinks/0.13.2 (textmode; Linux 6.1.0 x86_64; 80x24-2)", epochPrestandard, false⟩,
   ⟨"NCSA Mosaic 2.1", "NCSA_Mosaic/2.1 (Windows x86)", epochEarly, false⟩,
   ⟨"Netscape 2", "Mozilla/2.02 (Win95; I)", epochEarly, false⟩,
   ⟨"Netscape 3", "Mozilla/3.01 (Win95; I)", epochMiddle, false⟩,
   ⟨"Netscape 4.79", "Mozilla/4.79 [en] (X11; U; Linux 2.4.20 i686)", epochMiddle, false⟩,
   ⟨"Netscape 7",
    "Mozilla/5.0 (Windows; U; Windows NT 5.1; en-US; rv:1.4) Gecko/20030624 Netscape/7.1",
    epochMiddle, false⟩,
   ⟨"MSIE 3", "Mozilla/2.0 (compatible; MSIE 3.02; Windows 95)", epochEarly, false⟩,
   ⟨"MSIE 4", "Mozilla/4.0 (compatible; MSIE 4.01; Windows 98)", epochMiddle, false⟩,
   ⟨"MSIE 6", "Mozilla/4.0 (compatible; MSIE 6.0; Windows NT 5.1; SV1)", epochMiddle, false⟩,
   ⟨"IE 11", "Mozilla/5.0 (Windows NT 10.0; Trident/7.0; rv:11.0) like Gecko", epochMiddle, false⟩,
   ⟨"EdgeHTML 18",
    "Mozilla/5.0 (Windows NT 10.0; Win64; x64) AppleWebKit/537.36 (KHTML, like Gecko) Chrome/70.0.3538.102 Safari/537.36 Edge/18.19041",
    epochMiddle, false⟩,
   ⟨"Chromium Edge",
    "Mozilla/5.0 (Windows NT 10.0; Win64; x64) AppleWebKit/537.36 (KHTML, like Gecko) Chrome/120.0.0.0 Safari/537.36 Edg/120.0.2210.91",
    epochModern, true⟩,
   ⟨"Opera 6 as MSIE",
    "Mozilla/4.0 (compatible; MSIE 5.0; Windows 98) Opera 6.0 [en]",
    epochMiddle, false⟩,
   ⟨"Opera 12 (Presto)",
    "Opera/9.80 (Windows NT 6.1; WOW64) Presto/2.12.388 Version/12.18",
    epochMiddle, false⟩,
   ⟨"Opera 106 (Chromium)",
    "Mozilla/5.0 (Windows NT 10.0; Win64; x64) AppleWebKit/537.36 (KHTML, like Gecko) Chrome/120.0.0.0 Safari/537.36 OPR/106.0.0.0",
    epochModern, true⟩,
   ⟨"Firefox 3.6",
    "Mozilla/5.0 (Windows; U; Windows NT 6.1; en-US; rv:1.9.2.28) Gecko/20120306 Firefox/3.6.28",
    epochMiddle, false⟩,
   ⟨"Firefox 52 ESR",
    "Mozilla/5.0 (Windows NT 6.1; rv:52.0) Gecko/20100101 Firefox/52.0",
    epochMiddle, false⟩,
   ⟨"Firefox 65",
    "Mozilla/5.0 (X11; Linux x86_64; rv:65.0) Gecko/20100101 Firefox/65.0",
    epochMiddle, false⟩,
   ⟨"Firefox 66",
    "Mozilla/5.0 (X11; Linux x86_64; rv:66.0) Gecko/20100101 Firefox/66.0",
    epochModern, false⟩,
   ⟨"Firefox 115 ESR",
    "Mozilla/5.0 (X11; Linux x86_64; rv:115.0) Gecko/20100101 Firefox/115.0",
    epochModern, false⟩,
   ⟨"Firefox 128",
    "Mozilla/5.0 (X11; Linux x86_64; rv:128.0) Gecko/20100101 Firefox/128.0",
    epochModern, true⟩,
   ⟨"Android 4.4 WebView",
    "Mozilla/5.0 (Linux; Android 4.4.2; Nexus 5 Build/KOT49H) AppleWebKit/537.36 (KHTML, like Gecko) Version/4.0 Chrome/30.0.0.0 Mobile Safari/537.36",
    epochMiddle, false⟩,
   ⟨"Chrome 86",
    "Mozilla/5.0 (Windows NT 10.0; Win64; x64) AppleWebKit/537.36 (KHTML, like Gecko) Chrome/86.0.4240.198 Safari/537.36",
    epochMiddle, false⟩,
   ⟨"Chrome 87",
    "Mozilla/5.0 (Windows NT 10.0; Win64; x64) AppleWebKit/537.36 (KHTML, like Gecko) Chrome/87.0.4280.66 Safari/537.36",
    epochModern, false⟩,
   ⟨"Chrome 110",
    "Mozilla/5.0 (Windows NT 10.0; Win64; x64) AppleWebKit/537.36 (KHTML, like Gecko) Chrome/110.0.5481.178 Safari/537.36",
    epochModern, false⟩,
   ⟨"Chrome 111",
    "Mozilla/5.0 (Windows NT 10.0; Win64; x64) AppleWebKit/537.36 (KHTML, like Gecko) Chrome/111.0.5563.65 Safari/537.36",
    epochModern, true⟩,
   ⟨"Samsung Internet 23",
    "Mozilla/5.0 (Linux; Android 14; SM-S918B) AppleWebKit/537.36 (KHTML, like Gecko) SamsungBrowser/23.0 Chrome/115.0.0.0 Mobile Safari/537.36",
    epochModern, true⟩,
   ⟨"Safari 3",
    "Mozilla/5.0 (Macintosh; U; Intel Mac OS X 10_5_8; en-us) AppleWebKit/531.22.7 (KHTML, like Gecko) Version/3.2.3 Safari/525.28.3",
    epochMiddle, false⟩,
   ⟨"Safari 2 (no Version/)",
    "Mozilla/5.0 (Macintosh; U; PPC Mac OS X; en) AppleWebKit/418.8 (KHTML, like Gecko) Safari/419.3",
    epochMiddle, false⟩,
   ⟨"Safari 14.0",
    "Mozilla/5.0 (Macintosh; Intel Mac OS X 10_15_6) AppleWebKit/605.1.15 (KHTML, like Gecko) Version/14.0.3 Safari/605.1.15",
    epochMiddle, false⟩,
   ⟨"Safari 14.1",
    "Mozilla/5.0 (Macintosh; Intel Mac OS X 10_15_7) AppleWebKit/605.1.15 (KHTML, like Gecko) Version/14.1 Safari/605.1.15",
    epochModern, false⟩,
   ⟨"Safari 17",
    "Mozilla/5.0 (Macintosh; Intel Mac OS X 10_15_7) AppleWebKit/605.1.15 (KHTML, like Gecko) Version/17.2 Safari/605.1.15",
    epochModern, true⟩,
   ⟨"Android 2.3 browser",
    "Mozilla/5.0 (Linux; U; Android 2.3.6; en-us; Nexus S Build/GRK39F) AppleWebKit/533.1 (KHTML, like Gecko) Version/4.0 Mobile Safari/533.1",
    epochMiddle, false⟩,
   ⟨"Konqueror 4",
    "Mozilla/5.0 (compatible; Konqueror/4.14; Linux) KHTML/4.14.2 (like Gecko)",
    epochMiddle, false⟩,
   ⟨"iPhone OS 3",
    "Mozilla/5.0 (iPhone; U; CPU iPhone OS 3_0 like Mac OS X; en-us) AppleWebKit/528.18 (KHTML, like Gecko) Version/4.0 Mobile/7A341 Safari/528.16",
    epochMiddle, false⟩,
   ⟨"iOS 14.4 Safari",
    "Mozilla/5.0 (iPhone; CPU iPhone OS 14_4 like Mac OS X) AppleWebKit/605.1.15 (KHTML, like Gecko) Version/14.0.3 Mobile/15E148 Safari/604.1",
    epochMiddle, false⟩,
   ⟨"iOS 14.5 Safari",
    "Mozilla/5.0 (iPhone; CPU iPhone OS 14_5 like Mac OS X) AppleWebKit/605.1.15 (KHTML, like Gecko) Version/14.1 Mobile/15E148 Safari/604.1",
    epochModern, false⟩,
   ⟨"iOS 17 Chrome (CriOS)",
    "Mozilla/5.0 (iPhone; CPU iPhone OS 17_2 like Mac OS X) AppleWebKit/605.1.15 (KHTML, like Gecko) CriOS/120.0.6099.119 Mobile/15E148 Safari/604.1",
    epochModern, true⟩,
   ⟨"iOS 13 Firefox (FxiOS)",
    "Mozilla/5.0 (iPhone; CPU iPhone OS 13_3 like Mac OS X) AppleWebKit/605.1.15 (KHTML, like Gecko) FxiOS/22.0 Mobile/15E148 Safari/605.1.15",
    epochMiddle, false⟩,
   ⟨"iPadOS 12",
    "Mozilla/5.0 (iPad; CPU OS 12_5 like Mac OS X) AppleWebKit/605.1.15 (KHTML, like Gecko) Version/12.1.2 Mobile/15E148 Safari/604.1",
    epochMiddle, false⟩,
   ⟨"Googlebot (legacy UA)",
    "Mozilla/5.0 (compatible; Googlebot/2.1; +http://www.google.com/bot.html)",
    epochMiddle, false⟩,
   ⟨"Googlebot (evergreen)",
    "Mozilla/5.0 AppleWebKit/537.36 (KHTML, like Gecko; compatible; Googlebot/2.1; +http://www.google.com/bot.html) Chrome/120.0.6099.216 Safari/537.36",
    epochModern, true⟩]

/-- `copy_str` into zeroed memory. -/
def copyStr (n : ℕ) (s : String) : CharBuf n := .fill n (lit s)

/-- `copy_tokens`. -/
def copyTokens (tokens : List String) : List BrowserToken :=
  (tokens.take browserTokensMax).map (copyStr browserTokenMax)

/-- A factory rule expanded. -/
def FactoryRule.expand (f : FactoryRule) : BrowserRule where
  name := copyStr browserNameMax f.name
  enabled := true
  contains := copyTokens f.contains
  excludes := copyTokens f.excludes
  versionAfter := copyStr browserTokenMax f.versionAfter
  tiers := f.tiers.map fun t => ⟨copyStr browserVersionMax t.1, t.2.1, t.2.2⟩
  epoch := f.epoch
  dashboard := f.dashboard

/-- A factory case expanded. -/
def FactoryCase.expand (c : FactoryCase) : BrowserCase where
  name := copyStr browserNameMax c.name
  userAgent := copyStr browserUaMax c.userAgent
  epoch := c.epoch
  dashboard := c.dashboard

/-- `browser_detection_factory`, where there is memory for it. -/
def browserDetectionFactory : BrowserDetection where
  fallbackEpoch := factoryFallbackEpoch
  rules := factoryRules.map FactoryRule.expand
  cases := factoryCases.map FactoryCase.expand

/-! ## Versions -/

/-- `Version`. -/
structure Version where
  major : ℤ
  minor : ℤ
deriving DecidableEq, Repr

/-- Whether a digit stands at the start. -/
def startsDigit (p : Bytes) : Bool := p.head?.any isDigit

/-- Whether what parts a major from a minor version stands at the start. -/
def startsVersionSep (p : Bytes) : Bool := p.head?.any fun b => b == 46 || b == 95

/-- `parse_version`. -/
def parseVersion (p : Bytes) : Option Version :=
  if startsDigit p then
    let last := (strtoll p).2
    some ⟨(strtoll p).1,
      if startsVersionSep last && startsDigit (last.drop 1) then (strtoll (last.drop 1)).1 else 0⟩
  else none

/-- `version_cmp`. -/
def versionCmp (a b : Version) : Ordering :=
  if a.major ≠ b.major then (if a.major < b.major then .lt else .gt)
  else if a.minor ≠ b.minor then (if a.minor < b.minor then .lt else .gt)
  else .eq

/-- `parse_tier_version`: a version and nothing else. -/
def parseTierVersion (s : Bytes) : Option Version :=
  match parseVersion s with
  | none => none
  | some v =>
    let p := s.dropWhile isDigit
    if startsVersionSep p then
      if startsDigit (p.drop 1) then
        if (p.drop 1).dropWhile isDigit = [] then some v else none
      else none
    else if p = [] then some v
    else none

/-! ## Validation -/

/-- `epoch_valid`. -/
def epochValid (epoch : ℤ) : Bool := epochWml ≤ epoch && epoch ≤ epochModern

/-- `text_ok`. -/
def textOk (s : Bytes) : Bool := s.all fun b => !(b < 32 || b == 127)

/-- What is found wrong with one of a list of tokens. -/
def tokenError (t : BrowserToken) : Option Bytes :=
  if !t.hasNul then some (lit "a token is too long")
  else if t.text = [] then some (lit "a token is empty")
  else if !textOk t.text then some (lit "a token has a control character")
  else none

/-- `validate_tokens`. -/
def validateTokens (list : List BrowserToken) : Option Bytes :=
  if browserTokensMax < list.length then some (lit "too many tokens in a list")
  else list.findSome? tokenError

/-- What is found wrong with a tier. -/
def tierError (t : BrowserTier) : Option Bytes :=
  if !t.fromVersion.hasNul || (parseTierVersion t.fromVersion.text).isNone then
    some (lit "a tier's version is not a number like 87 or 14.1")
  else if !epochValid t.epoch then some (lit "a tier's epoch is not -1..3")
  else none

/-- What is found wrong with a rule. -/
def ruleError (r : BrowserRule) : Option Bytes :=
  if !r.name.hasNul || !textOk r.name.text then
    some (lit "a rule name is too long or has a control character")
  else if r.contains = [] then some (lit "a rule has nothing to match (contains is empty)")
  else if (validateTokens r.contains).isSome then validateTokens r.contains
  else if (validateTokens r.excludes).isSome then validateTokens r.excludes
  else if !r.versionAfter.hasNul || !textOk r.versionAfter.text then
    some (lit "version_after is too long or has a control character")
  else if !epochValid r.epoch then some (lit "a rule's epoch is not -1..3")
  else if browserTiersMax < r.tiers.length then some (lit "too many tiers")
  else if r.tiers ≠ [] ∧ r.versionAfter.text = [] then
    some (lit "tiers need a version_after token to read the version from")
  else r.tiers.findSome? tierError

/-- What is found wrong with a test case. -/
def caseError (c : BrowserCase) : Option Bytes :=
  if !c.name.hasNul || !textOk c.name.text then
    some (lit "a test case name is too long or has a control character")
  else if !c.userAgent.hasNul || !textOk c.userAgent.text then
    some (lit "a test case User-Agent is too long or has a control character")
  else if !epochValid c.epoch then some (lit "a test case's epoch is not -1..3")
  else none

/-- The first of a list something is found wrong with, and its position, counted from one. -/
def firstError {α : Type} (error : α → Option Bytes) (list : List α) : Option (Bytes × ℕ) :=
  list.zipIdx.findSome? fun p => (error p.1).map (·, p.2 + 1)

/-- `browser_detection_validate`: the first problem, with its position. -/
def browserDetectionValidate (d : BrowserDetection) : Option (Bytes × ℕ) :=
  if !epochValid d.fallbackEpoch then some (lit "the fallback epoch is not -1..3", 0)
  else if browserRulesMax < d.rules.length then some (lit "too many rules", 0)
  else if browserCasesMax < d.cases.length then some (lit "too many test cases", 0)
  else if (firstError ruleError d.rules).isSome then firstError ruleError d.rules
  else firstError caseError d.cases

/-! ## Classification -/

/-- `contains_any`. -/
def containsAny (ua : Bytes) (list : List BrowserToken) : Bool :=
  list.any fun t => (findSub t.text ua).isSome

/-- What stands behind `version_after`, a slash or a blank left out. -/
def versionText (after ua : Bytes) : Option Bytes :=
  (findSub after ua).map fun i =>
    let at_ := ua.drop (i + after.length)
    if at_.head?.any fun b => b == 47 || b == 32 then at_.drop 1 else at_

/-- One tier against the best so far. -/
def betterTier (version : Version) (best : Option (BrowserTier × Version)) (t : BrowserTier) :
    Option (BrowserTier × Version) :=
  match parseTierVersion t.fromVersion.text with
  | none => best
  | some from_ =>
    if versionCmp version from_ ≠ .lt ∧ best.all (fun b => versionCmp from_ b.2 = .gt) then
      some (t, from_)
    else best

/-- `classify_rule`. -/
def classifyRule (r : BrowserRule) (ua : Bytes) (rule : ℤ) : BrowserMatch :=
  let own : BrowserMatch := ⟨r.epoch, r.dashboard, rule⟩
  if r.versionAfter.text = [] ∨ r.tiers = [] then own
  else
    match (versionText r.versionAfter.text ua).bind parseVersion with
    | none => own
    | some version =>
      match r.tiers.foldl (betterTier version) none with
      | some best => ⟨best.1.epoch, best.1.dashboard, rule⟩
      | none => own

/-- Whether a rule is the one to classify by. -/
def ruleMatches (ua : Bytes) (r : BrowserRule) : Bool :=
  r.enabled && containsAny ua r.contains && !containsAny ua r.excludes

/-- `browser_detection_classify`. -/
def browserDetectionClassify (d : BrowserDetection) (userAgent : Option Bytes) : BrowserMatch :=
  let ua := userAgent.getD []
  match d.rules.zipIdx.find? fun p => ruleMatches ua p.1 with
  | some (r, i) => classifyRule r ua i
  | none => ⟨d.fallbackEpoch, false, -1⟩

end BoatRudder.Utils
