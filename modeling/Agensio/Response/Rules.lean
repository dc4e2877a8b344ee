/-
  Agensio.Response.Rules — the response-header rules of a site, resolved.

  Model of `core/response_rules.hpp`, of `build_response_headers` and of the
  checks of `parse_response_headers` its result rests on (`config.cpp`).
  The loader refuses more (what a value may hold, the names the server
  owns, how much of anything); a result about every list that passes the
  checks here holds of every list it accepts.

  A node is made for each place a rule is written for, with what an answer
  gets there decided ahead: the rules of every covering place, the shortest
  first, a later decision replacing an earlier one.  At one place the rules
  without endings come first, and the security baseline last, which only
  fills in what is undecided.
-/
import Mathlib.Data.List.Sort
import Agensio.Http.Path
import Agensio.Response.Directives

namespace Agensio.Response

open Agensio.Codec (Field)
open Agensio.Http (slash dot)
open Agensio.Http1 (iequals lower)

/-! ## §1. Rules and decisions. -/

/-- A rule on the fields of the answers below a path. -/
structure HeaderRule where
  path : Bytes
  isExact : Bool := false
  successOnly : Bool := false
  set : List Field := []
  fallback : List Field := []
  remove : List Bytes := []
  endings : List Bytes := []
  -- the security baseline's, and for agensio's own answers alone
  baseline : Bool := false
  ownOnly : Bool := false
  deriving DecidableEq

inductive Verb
  | set
  | fallback
  | remove
  deriving DecidableEq

/-- One field's decision; what its value says to caches is computed from it below. -/
structure FieldDecision where
  name : Bytes
  value : Bytes := []
  verb : Verb := .set
  ownOnly : Bool := false
  deriving DecidableEq

namespace FieldDecision

variable (d : FieldDecision)

def cacheControl : Bool := iequals d.name (bytes "cache-control")
def expires : Bool := iequals d.name (bytes "expires")
/-- The password guard decides these. -/
def cacheField : Bool := d.cacheControl || sharedOnlyField d.name

def restricts : Restrictions := if d.verb = .remove then {} else restrictions d.value false

/-- The value lets a shared cache keep the answer. -/
def lifetime : Bool :=
  d.verb ≠ .remove &&
    if d.cacheControl then sharedLifetime d.value
    else if d.cacheField then !d.restricts.any
    else d.expires && d.value ≠ bytes "0"

/-- What one user's answer gets in a lifetime's place. -/
def privateValue : Bytes :=
  if d.lifetime && d.cacheControl then
    let kept := keepDirectives d.value []
    if kept = [] then bytes "private" else bytes "private, " ++ kept
  else []

def named (name : Bytes) : Bool := iequals d.name name

end FieldDecision

/-- The decisions of a rule, in the order they are made. -/
def HeaderRule.decisions (r : HeaderRule) : List FieldDecision :=
  (r.set.map fun f => { name := f.1, value := f.2, verb := .set, ownOnly := r.ownOnly }) ++
    (r.fallback.map fun f => { name := f.1, value := f.2, verb := .fallback, ownOnly := r.ownOnly }) ++
    r.remove.map fun n => { name := n, verb := .remove, ownOnly := r.ownOnly }

/-- `decide`: a new field, another decision for one there is, or nothing for the baseline. -/
def decideField (baseline : Bool) (fs : List FieldDecision) (d : FieldDecision) : List FieldDecision :=
  if fs.any (·.named d.name) then
    if baseline then fs else fs.map fun f => if f.named d.name then d else f
  else fs ++ [d]

/-- The decision for a name, if there is one. -/
def findField (fs : List FieldDecision) (name : Bytes) : Option FieldDecision :=
  fs.find? (·.named name)

/-! ## §2. Covering. -/

/-- `iequal_prefix`. -/
def iequalPrefix (path pre : Bytes) : Bool :=
  pre.length ≤ path.length && (path.take pre.length).map lower = pre.map lower

/-- A place rules are written for. -/
structure Place where
  path : Bytes
  isExact : Bool
  deriving DecidableEq

namespace Place

/-- `covers`. -/
def covers (k : Place) (path : Bytes) : Bool :=
  if k.isExact then path.length = k.path.length && iequalPrefix path k.path
  else if k.path.length = 1 then true
  else iequalPrefix path k.path &&
    (path.length = k.path.length || path[k.path.length]? = some slash)

/-- The same place, in any capitalisation. -/
def same (a b : Place) : Bool := a.isExact = b.isExact && iequals a.path b.path

end Place

def HeaderRule.place (r : HeaderRule) : Place := ⟨r.path, r.isExact⟩

/-- `first_byte`. -/
def firstByte : Bytes → UInt8
  | _ :: c :: _ => lower c
  | _ => 0

/-- `ending_within`: every file with `longer` has the ending `e` too. -/
def endingWithin (e longer : Bytes) : Bool :=
  e = longer || (e.length + 1 < longer.length &&
    longer[longer.length - e.length - 1]? = some dot && longer.drop (longer.length - e.length) = e)

/-- The last segment of a file's path. -/
def fileName (file : Bytes) : Bytes := (file.reverse.takeWhile (· ≠ slash)).reverse

/-- The name ends with a dot and the ending, in any case. -/
def hasEnding (name e : Bytes) : Bool :=
  e.length + 1 < name.length && name[name.length - e.length - 1]? = some dot &&
    iequals (name.drop (name.length - e.length)) e

/-! ## §3. What the loader accepts. -/

def HeaderRule.names (r : HeaderRule) : List Bytes :=
  r.set.map Prod.fst ++ r.fallback.map Prod.fst ++ r.remove

/-- An ending as it is stored: lower case, not empty, no dot at its front. -/
def endingOk (e : Bytes) : Bool := e ≠ [] && e.map lower = e && e.head? ≠ some dot

/-- One verb for each field of a rule. -/
def namesApart : List Bytes → Bool
  | [] => true
  | n :: ns => ns.all (fun m => !iequals n m) && namesApart ns

/-- What is checked of one written rule. -/
def HeaderRule.wellFormed (r : HeaderRule) : Bool :=
  r.path.head? = some slash && (r.isExact || r.path.length = 1 || r.path.getLast? ≠ some slash) &&
    r.endings.all endingOk && namesApart r.names && !r.baseline && !r.ownOnly

/-- Two endings one file can have. -/
def endingsMeet (o r : HeaderRule) : Bool :=
  (o.endings = [] && r.endings = []) ||
    r.endings.any fun e => o.endings.any fun f => endingWithin e f || endingWithin f e

/-- Two rules that leave it unwritten which of them decides a field. -/
def HeaderRule.clash (o r : HeaderRule) : Bool :=
  o.place.same r.place && endingsMeet o r && r.names.any fun m => o.names.any fun n => iequals n m

def clashFree : List HeaderRule → Bool
  | [] => true
  | r :: rs => rs.all (fun o => !r.clash o) && clashFree rs

/-- Which security baseline the site has. -/
inductive Baseline
  | off
  | app
  | static
  deriving DecidableEq

/-- `add_security_baseline`. -/
def Baseline.rules : Baseline → List HeaderRule
  | .off => []
  | .app => common ++ [svg]
  | .static => common ++ [html, svg]
where
  common : List HeaderRule :=
    [{ path := [slash], baseline := true
       fallback := [(bytes "Referrer-Policy", bytes "strict-origin-when-cross-origin")]
       remove := [bytes "X-Powered-By"] },
     { path := [slash], baseline := true, ownOnly := true
       fallback := [(bytes "X-Content-Type-Options", bytes "nosniff")] }]
  html : HeaderRule :=
    { path := [slash], baseline := true, successOnly := true, endings := [bytes "html", bytes "htm"]
      fallback := [(bytes "Cache-Control", bytes "no-cache")] }
  svg : HeaderRule :=
    { path := [slash], baseline := true, endings := [bytes "svg", bytes "svgz"]
      fallback := [(bytes "Content-Security-Policy", bytes "script-src 'none'")] }

/-- The rules of a site that was loaded. -/
structure LoadedRules where
  written : List HeaderRule
  baseline : Baseline := .off
  wellFormed : ∀ r ∈ written, r.wellFormed = true
  apart : clashFree written = true

def LoadedRules.rules (s : LoadedRules) : List HeaderRule := s.written ++ s.baseline.rules

/-! ## §4. `build_response_headers`. -/

/-- One place for each the rules name, spelt as first written. -/
def placesOf : List HeaderRule → List Place → List Place
  | [], keys => keys
  | r :: rs, keys =>
    placesOf rs (if keys.any (·.same r.place) then keys else keys ++ [r.place])

/-- The places that decide at `k`, the shortest first and `k` itself last. -/
def chainOf (keys : List Place) (k : Place) : List Place :=
  ((keys.filter fun a => !a.isExact && !(!k.isExact && iequals a.path k.path) && a.covers k.path).insertionSort
    fun a b => a.path.length ≤ b.path.length) ++ [k]

/-- The two passes over the rules of a place; the second is for a file with an ending. -/
def HeaderRule.inPass (r : HeaderRule) : Option Bytes → Bool
  | none => r.endings = []
  | some e => r.endings.any fun f => endingWithin f e

/-- The rules of one place in one pass. -/
def rulesAt (rules : List HeaderRule) (success : Bool) (c : Place) (written : Bool)
    (pass : Option Bytes) : List HeaderRule :=
  rules.filter fun r => r.baseline = !written && r.place.same c && (success || !r.successOnly) && r.inPass pass

/-- The rules in the order they decide. -/
def fillOrder (rules : List HeaderRule) (chain : List Place) (success : Bool) (ending : Option Bytes) :
    List HeaderRule :=
  chain.flatMap fun c => [true, false].flatMap fun written =>
    (none :: ending.toList.map some).flatMap fun pass => rulesAt rules success c written pass

/-- `fill`. -/
def fill (rules : List HeaderRule) (chain : List Place) (success : Bool) (ending : Option Bytes) :
    List FieldDecision :=
  (fillOrder rules chain success ending).foldl
    (fun fs r => r.decisions.foldl (decideField r.baseline) fs) []

structure EndingSets where
  ending : Bytes
  success : List FieldDecision
  other : List FieldDecision

structure HeaderNode where
  place : Place
  success : List FieldDecision
  other : List FieldDecision
  byEnding : List EndingSets

/-- Every ending a rule of the chain names, the longest first. -/
def endingsOf (rules : List HeaderRule) (chain : List Place) : List Bytes :=
  ((chain.flatMap fun c => (rules.filter fun r => r.place.same c).flatMap (·.endings)).reverse.dedup.reverse).insertionSort
    fun a b => b.length ≤ a.length

def nodeOf (rules : List HeaderRule) (keys : List Place) (k : Place) : HeaderNode :=
  let chain := chainOf keys k
  { place := k
    success := fill rules chain true none
    other := fill rules chain false none
    byEnding := (endingsOf rules chain).map fun e =>
      { ending := e, success := fill rules chain true (some e), other := fill rules chain false (some e) } }

/-- Longest path first, and at one path the exact node. -/
def nodeBefore (a b : HeaderNode) : Bool :=
  b.place.path.length < a.place.path.length ||
    (a.place.path.length = b.place.path.length && (a.place.isExact || !b.place.isExact))

def buildNodes (rules : List HeaderRule) : List HeaderNode :=
  ((placesOf rules []).map (nodeOf rules (placesOf rules []))).insertionSort fun a b => nodeBefore a b = true

/-- The node of the whole site. -/
def HeaderNode.isRoot (n : HeaderNode) : Bool := n.place.path.length = 1 && !n.place.isExact

/-- The bitmap of first bytes. -/
def marksFirst (nodes : List HeaderNode) (c : UInt8) : Bool :=
  nodes.any fun n => !n.isRoot && firstByte n.place.path = c

/-- `ResponseRules::lookup`. -/
def lookupNode (nodes : List HeaderNode) (path : Bytes) : Option HeaderNode :=
  match nodes.getLast? with
  | none => none
  | some last =>
    let found := if marksFirst nodes (firstByte path) then
      nodes.find? fun n => n.place.covers path else none
    match found with
    | some n => some n
    | none => if last.isRoot then some last else none

/-- `ending_sets`. -/
def endingSets (node : HeaderNode) (file : Bytes) : Option EndingSets :=
  node.byEnding.find? fun e => hasEnding (fileName file) e.ending

/-- The set that decides an answer: `served_file`, then `pending`. -/
def setFor (node : HeaderNode) (success : Bool) (file : Option Bytes) : List FieldDecision :=
  match file.bind (endingSets node) with
  | some e => if success then e.success else e.other
  | none => if success then node.success else node.other

/-- What a field of an answer gets at a path. -/
def decisionAt (rules : List HeaderRule) (path : Bytes) (success : Bool) (file : Option Bytes)
    (name : Bytes) : Option FieldDecision :=
  (lookupNode (buildNodes rules) path).bind fun node => findField (setFor node success file) name

end Agensio.Response
