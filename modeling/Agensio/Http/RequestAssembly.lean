/-
  Agensio.Http.RequestAssembly — a request from its decoded fields.

  Model of `http::sink_field` and `http::finish_request`
  (`http/request_assembly.hpp`) with the rules of `core/fields.hpp`, shared
  by HTTP/2 and HTTP/3.  The sink is given a field and where it came from:
  the static table, an entry of the dynamic table whose mark it may read
  and set, or a literal.  Views are the bytes they show, so the moves of a
  section (`rebase`) do not appear; memory for a cookie join is there.

  Main results:
    * `sinkField_eq_sinkEvery` — with a mark that means what it says the
      field is treated as if its rules had been run;
    * `sinkField_mark` — a mark is set for a field that passed them.
-/
import Agensio.Codec.DynamicTable

namespace Agensio.Http

open Agensio.Codec

/-! ## §1. The field rules. -/

/-- RFC 9110 token characters, lower-case letters only: `!#$%&'*+-.^_` and the rest behind them. -/
def nameByte (c : UInt8) : Bool :=
  (0x61 ≤ c && c ≤ 0x7a) || (0x30 ≤ c && c ≤ 0x39) ||
    [0x21, 0x23, 0x24, 0x25, 0x26, 0x27, 0x2a, 0x2b, 0x2d, 0x2e, 0x5e, 0x5f, 0x60, 0x7c, 0x7e].contains c

def validName (name : Bytes) : Bool := !name.isEmpty && name.all nameByte

/-- A space or a tab. -/
def edgeByte (c : UInt8) : Bool := c = 0x20 || c = 0x09

/-- No NUL, CR or LF anywhere; no space or tab at the ends. -/
def validValue (value : Bytes) : Bool :=
  value.all (fun c => !(c = 0 || c = 0x0d || c = 0x0a)) &&
    !(value.head?.any edgeByte || value.getLast?.any edgeByte)

def connectionSpecific (name : Bytes) : Bool :=
  match name.length with
  | 7 => name = bytes "upgrade"
  | 10 => name = bytes "connection" || name = bytes "keep-alive"
  | 16 => name = bytes "proxy-connection"
  | 17 => name = bytes "transfer-encoding"
  | _ => false

/-- The first rule a field breaks; the syntax of a static pair is not looked at. -/
def brokenRule (staticTable : Bool) (n v : Bytes) : Option String :=
  if !staticTable && !validName n then some "field name not a lower-case token"
  else if !staticTable && !validValue v then
    some "field value with CR, LF, NUL or edge whitespace"
  else if connectionSpecific n then some "connection-specific field"
  else if n = bytes "te" && v ≠ bytes "trailers" then some "te other than trailers"
  else none

/-! ## §2. The sink. -/

inductive Method where
  | get | head | post | put | del | patch | options | trace | connect | other
  deriving DecidableEq

/-- `Request`, as far as the assembly fills it. -/
structure Request where
  method : Method := .other
  methodName : Bytes := []
  target : Bytes := []
  versionMinor : Nat := 1
  headers : List Field := []
  host : Bytes := []
  ifNoneMatch : Bytes := []
  ifModifiedSince : Bytes := []
  range : Bytes := []
  ifRange : Bytes := []
  acceptEncoding : Bytes := []
  keepAlive : Bool := true
  length : Nat := 0
  protocol : Bytes := []
  deriving DecidableEq

/-- What the sink saw of the section so far. -/
structure RequestSeen where
  method : Bytes := []
  scheme : Bytes := []
  path : Bytes := []
  authority : Bytes := []
  host : Bytes := []
  pseudo : Nat := 0
  regular : Bool := false
  bad : Bool := false
  overflow : Bool := false
  hostField : Bool := false
  cookies : Nat := 0
  firstCookie : Bytes := []
  reason : String := ""
  deriving DecidableEq

/-- What the sink fills: its own notes, the request and the stream's join buffer. -/
structure Assembly where
  seen : RequestSeen := {}
  req : Request := {}
  cookie : Bytes := []
  deriving DecidableEq

/-- `Headers::kCapacity`. -/
def kCapacity : Nat := 100

namespace Assembly

def refuse (a : Assembly) (reason : String) : Assembly :=
  { a with seen := { a.seen with bad := true, reason := reason } }

/-- `req.headers.add`, an overflow when there is no slot. -/
def addHeader (a : Assembly) (n v : Bytes) : Assembly :=
  if a.req.headers.length ≥ kCapacity then { a with seen := { a.seen with overflow := true } }
  else { a with req := { a.req with headers := a.req.headers ++ [(n, v)] } }

/-- The pseudo-headers. -/
def sinkPseudo (a : Assembly) (n v : Bytes) : Assembly :=
  if a.seen.regular then a.refuse "pseudo-header after a regular field"
  else if n = bytes ":method" then
    if !a.seen.method.isEmpty then a.refuse "duplicate pseudo-header"
    else { a with seen := { a.seen with method := v, pseudo := a.seen.pseudo ||| 1 } }
  else if n = bytes ":scheme" then
    if !a.seen.scheme.isEmpty then a.refuse "duplicate pseudo-header"
    else { a with seen := { a.seen with scheme := v, pseudo := a.seen.pseudo ||| 2 } }
  else if n = bytes ":path" then
    if !a.seen.path.isEmpty then a.refuse "duplicate pseudo-header"
    else { a with seen := { a.seen with path := v, pseudo := a.seen.pseudo ||| 4 } }
  else if n = bytes ":authority" then
    -- an empty authority counts as one
    if !a.seen.authority.isEmpty || a.seen.pseudo &&& 8 ≠ 0 then a.refuse "duplicate pseudo-header"
    else { a with seen := { a.seen with authority := v, pseudo := a.seen.pseudo ||| 8 } }
  else a.refuse "unknown or response pseudo-header"

/-- `cookie`: the first crumb takes a slot, the others go into the join buffer. -/
def sinkCookie (a : Assembly) (n v : Bytes) : Assembly :=
  let cookies := a.seen.cookies + 1
  if cookies > 1 then
    let cookie := if cookies = 2 then a.seen.firstCookie else a.cookie
    { a with seen := { a.seen with cookies := cookies }, cookie := cookie ++ bytes "; " ++ v }
  else addHeader { a with seen := { a.seen with cookies := cookies, firstCookie := v } } n v

/-- A field whose rules have passed. -/
def keep (a : Assembly) (n v : Bytes) : Assembly :=
  if n = bytes "host" then
    if a.seen.hostField then a.refuse "duplicate host"
    else addHeader { a with seen := { a.seen with hostField := true, host := v } } n v
  else if n = bytes "cookie" then a.sinkCookie n v
  else a.addHeader n v

def pseudoName (n : Bytes) : Bool := n.head? = some 0x3a

/-- `sink_field`, with the mark the origin points to and what it is afterwards. -/
def sinkField (a : Assembly) (n v : Bytes) (staticTable : Bool) (checked : Option Bool) :
    Assembly × Option Bool :=
  if pseudoName n then (a.sinkPseudo n v, checked)
  else
    let a := { a with seen := { a.seen with regular := true } }
    if checked = some true then (a.keep n v, checked)
    else
      match brokenRule staticTable n v with
      | some reason => (a.refuse reason, checked)
      | none => (a.keep n v, checked.map fun _ => true)

/-- The sink that runs every rule on every field. -/
def sinkEvery (a : Assembly) (n v : Bytes) : Assembly :=
  if pseudoName n then a.sinkPseudo n v
  else
    let a := { a with seen := { a.seen with regular := true } }
    match brokenRule false n v with
    | some reason => a.refuse reason
    | none => a.keep n v

end Assembly

/-! ## §3. The end of the section. -/

inductive Assembled where
  | ok
  | malformed
  | badContentLength
  deriving DecidableEq

/-- `parse_method` by its table; anything else is `other`. -/
def parseMethod (name : Bytes) : Method :=
  if name = bytes "GET" then .get
  else if name = bytes "HEAD" then .head
  else if name = bytes "POST" then .post
  else if name = bytes "PUT" then .put
  else if name = bytes "DELETE" then .del
  else if name = bytes "PATCH" then .patch
  else if name = bytes "OPTIONS" then .options
  else if name = bytes "TRACE" then .trace
  else if name = bytes "CONNECT" then .connect
  else .other

/-- The rules that need the whole section: the reason of the first one broken. -/
def RequestSeen.incomplete (seen : RequestSeen) : Option String :=
  if seen.method.isEmpty || seen.scheme.isEmpty || seen.path.isEmpty then
    some "missing :method, :scheme or :path"
  else if (if seen.path = bytes "*" then seen.method ≠ bytes "OPTIONS"
      else seen.path.head? ≠ some 0x2f) then
    some ":path not absolute"
  else if seen.authority.isEmpty && seen.host.isEmpty then some "no :authority and no host"
  else if !seen.authority.isEmpty && !seen.host.isEmpty && seen.authority ≠ seen.host then
    some ":authority and host differ"
  else none

/-- The joined crumbs in the first one's slot. -/
def joinCookie (cookie : Bytes) : List Field → List Field
  | [] => []
  | f :: fs => if f.1 = bytes "cookie" then (f.1, cookie) :: fs else f :: joinCookie cookie fs

/-- The digits of a content-length. -/
def parseLength : Bytes → Nat → Option Nat
  | [], n => some n
  | c :: cs, n =>
    if c < 0x30 || c > 0x39 then none else parseLength cs (n * 10 + (c.toNat - 0x30))

/-- The fields of interest, in order, up to a content-length that is not a number. -/
def interest : List Field → Request → Option Nat → Assembled × Request × Option Nat
  | [], req, length => (.ok, req, length)
  | (n, v) :: fs, req, length =>
    if n = bytes "range" then interest fs { req with range := v } length
    else if n = bytes "if-range" then interest fs { req with ifRange := v } length
    else if n = bytes "if-none-match" then interest fs { req with ifNoneMatch := v } length
    else if n = bytes "accept-encoding" then interest fs { req with acceptEncoding := v } length
    else if n = bytes "if-modified-since" then interest fs { req with ifModifiedSince := v } length
    else if n = bytes "content-length" then
      if v.isEmpty || v.length > 19 then (.badContentLength, req, length)
      else
        match parseLength v 0 with
        | none => (.badContentLength, req, length)
        | some k => interest fs req (some k)
    else interest fs req length

/-- `finish_request`: the assembly as it is left, and the content-length when there is one. -/
def finishRequest (a : Assembly) (protocol : Bytes) : Assembled × Assembly × Option Nat :=
  let seen := if a.seen.bad then a.seen else
    match a.seen.incomplete with
    | some reason => { a.seen with bad := true, reason := reason }
    | none => a.seen
  if seen.bad then (.malformed, { a with seen := seen }, none)
  else
    let headers := if seen.cookies > 1 then joinCookie a.cookie a.req.headers else a.req.headers
    let host := if seen.authority.isEmpty then seen.host else seen.authority
    -- handlers see the shape of HTTP/1; without a slot for it the field is left out
    let headers := if !seen.hostField && headers.length < kCapacity then
        headers ++ [(bytes "host", host)] else headers
    let req := { a.req with
      headers := headers, methodName := seen.method, method := parseMethod seen.method
      target := seen.path, host := host, versionMinor := 1, protocol := protocol
      keepAlive := true, length := 1 }
    let r := interest headers req none
    (r.1, { a with req := r.2.1 }, r.2.2)

/-! ## §4. What a mark is worth. -/

/-- The rules pass. -/
def Passes (f : Field) : Prop := brokenRule false f.1 f.2 = none

namespace Assembly

variable {a : Assembly} {n v : Bytes} {staticTable : Bool} {checked : Option Bool}

/-- A static pair has a token and a clean value. -/
def Clean (f : Field) : Prop := pseudoName f.1 = true ∨ validName f.1 = true ∧ validValue f.2 = true

theorem brokenRule_static (hc : validName n = true ∧ validValue v = true) :
    brokenRule true n v = brokenRule false n v := by
  unfold brokenRule
  rw [hc.1, hc.2]
  rfl

/-- **A mark that means what it says changes nothing.** -/
theorem sinkField_eq_sinkEvery (hmark : checked = some true → Passes (n, v))
    (hstatic : staticTable = true → Clean (n, v)) :
    (a.sinkField n v staticTable checked).1 = a.sinkEvery n v := by
  unfold sinkField sinkEvery
  by_cases hp : pseudoName n = true
  · rw [if_pos hp, if_pos hp]
  rw [if_neg hp, if_neg hp]
  dsimp only
  have hrule : brokenRule staticTable n v = brokenRule false n v := by
    cases staticTable with
    | false => rfl
    | true => exact brokenRule_static ((hstatic rfl).resolve_left hp)
  by_cases hc : checked = some true
  · rw [if_pos hc, show brokenRule false n v = none from hmark hc]
  rw [if_neg hc, hrule]
  cases brokenRule false n v <;> rfl

/-- A mark is left as it was, or set for a field that passes. -/
theorem sinkField_mark (hstatic : staticTable = false) : (a.sinkField n v staticTable checked).2 = checked ∨
      (a.sinkField n v staticTable checked).2 = checked.map (fun _ => true) ∧ Passes (n, v) := by
  unfold sinkField
  split
  · exact .inl rfl
  dsimp only
  split
  · exact .inl rfl
  rw [hstatic]
  cases hb : brokenRule false n v with
  | some reason => exact .inl rfl
  | none => exact .inr ⟨rfl, hb⟩

end Assembly

end Agensio.Http
