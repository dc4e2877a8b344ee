/-
  Agensio.Proxy.Answer — the head of an application's answer as it is passed on.

  Model of the head that `apply_upstream_result` (`handlers/upstream_common.cpp`)
  writes: the origin's fields one by one, then the location's own, the
  lines of the rules, the guard's and Vary.  Why an answer is compressed or
  not is `compress_answer::decide`'s to say and comes as a value; the lines
  that frame the body follow and are not part of this model.

  The loop drops six names.  It does not read the origin's Connection
  lines, and of the hop-by-hop fields it knows three.

  Main results:
    * `kept_on_its_hop_iff` — both directions together.
-/
import Agensio.Proxy.HopByHop
import Agensio.Response.Fields

namespace Agensio.Proxy

open Agensio.Codec (Field)
open Agensio.Http (slash)
open Agensio.Http1
open Agensio.Response

/-! ## §1. What the answer is written from. -/

structure Address where
  unix : Bool := false
  tls : Bool := false
  authority : Bytes
  deriving DecidableEq

/-- `LocationConfig`, as far as an answer is concerned. -/
structure Location where
  proxied : Bool := true
  path : Bytes := [slash]
  hide : List Bytes := []
  addresses : List Address := []
  host : HostPolicy := .pass
  rewrite : Bytes := []
  rewriteRedirects : Bool := true
  addHeaders : List Field := []

structure SiteFields where
  hsts : Bytes := []
  stripHsts : Bool := false

structure HttpsSite where
  httpsPort : Nat := 443
  serverNames : List Bytes := []

/-- `compress_answer::Reason`. -/
inductive Reason
  | compress
  | pieces
  | modeOff
  | noAccept
  | type
  | size
  | status
  | alreadyEncoded
  | noTransform
  | pathOff
  | signedIn
  | eventStream
  | noStreaming
  | budget
  | head
  deriving DecidableEq

/-- What the site's compression decided about this answer. -/
structure Compression where
  why : Reason
  bodySize : Nat := 0

namespace Compression

def compressing (c : Compression) : Bool := c.why = .compress || c.why = .pieces || c.why = .head

/-- The answer could have been compressed for another client. -/
def vary (c : Compression) : Bool :=
  c.compressing || c.why = .noAccept || c.why = .alreadyEncoded || c.why = .noStreaming || c.why = .budget ||
    (c.why = .size && c.bodySize > 0)

end Compression

/-- The stream and the site around an answer. -/
structure Around where
  location : Location
  host : Bytes := []
  https : Bool := true
  guarded : Bool := false
  authorized : Bool := false
  fields : Option SiteFields := none
  /-- The sets of the rules for the path: on success, and otherwise. -/
  node : Option (HeaderSet × HeaderSet) := none
  httpsSite : Option HttpsSite := none
  compression : Option Compression := none

/-- `UpstreamResult`. -/
structure Result where
  status : Nat
  headers : List Field
  upgraded : Bool := false

/-! ## §2. Locations. -/

namespace Around

variable (a : Around)

def scheme : Bytes := if a.https then bytes "https://" else bytes "http://"

/-- The length of the origin's authority at the front of `rest`. -/
def originLength (tls : Bool) (rest : Bytes) : Nat :=
  let n := a.location.addresses.foldl
    (fun n x => if !x.unix && x.tls = tls && x.authority.isPrefixOf rest then x.authority.length else n) 0
  match a.location.host with
  | .literal name =>
    if n = 0 && name ≠ [] && name.length ≤ rest.length && iequals (rest.take name.length) name then name.length else n
  | _ => n

/-- `rewrite_location`: a redirect to the origin, told as one to the site. -/
def rewriteLocation (value : Bytes) : Option Bytes :=
  let tls := (bytes "https://").isPrefixOf value
  if !tls && !(bytes "http://").isPrefixOf value then none
  else
    let rest := value.drop (if tls then 8 else 7)
    let n := a.originLength tls rest
    let rest := rest.drop n
    if n = 0 || (rest ≠ [] && rest.head? ≠ some slash) then none
    else if a.location.rewrite = [] then
      some (a.scheme ++ a.host ++ if rest = [] then [slash] else rest)
    else
      let tail := if a.location.rewrite.isPrefixOf rest then some (rest.drop a.location.rewrite.length)
        else if rest = [] || rest = [slash] then some [] else none
      tail.map fun t => a.scheme ++ a.host ++ a.location.path ++
        (if a.location.path ≠ [] && a.location.path.getLast? ≠ some slash && t ≠ [] then [slash] else []) ++ t

end Around

/-- `upgrade_location`: a plain redirect to the site itself, told as https. -/
def HttpsSite.upgradeLocation (site : HttpsSite) (value : Bytes) : Option Bytes :=
  if value.length < 8 || !iequals (value.take 7) (bytes "http://") then none
  else
    let rest := value.drop 7
    let authority := rest.takeWhile fun c => c ≠ slash && c ≠ 0x3f && c ≠ 0x23
    let port := (authority.reverse.takeWhile (· ≠ colon)).reverse
    let bare := if authority.contains colon then authority.take (authority.length - port.length - 1) else authority
    if authority.contains colon && port ≠ bytes "80" && port ≠ decimalText site.httpsPort then none
    else if !(site.serverNames.any fun n => n ≠ bytes "*" && iequals n bare) then none
    else some (bytes "https://" ++ bare ++
      (if site.httpsPort ≠ 443 then [colon] ++ decimalText site.httpsPort else []) ++ rest.drop authority.length)

/-- `vary_lists_accept_encoding`. -/
def varyListsAcceptEncoding (v : Bytes) : Bool :=
  (v.splitOn comma).any fun m => iequals (trim m) (bytes "accept-encoding") || trim m = bytes "*"

/-! ## §3. The loop over the origin's fields. -/

/-- What the loop over the answer's fields has collected. -/
structure AnswerLoop where
  out : List Field := []
  /-- The Cache-Control directives a protected answer keeps. -/
  kept : Bytes := []
  varySeen : Bool := false
  seen : Upstream

namespace Around

variable (a : Around)

def hidden (name : Bytes) : Bool := a.location.proxied && a.location.hide.any fun h => iequals h name

def siteHsts : Bool := a.fields.any fun f => f.hsts ≠ [] || f.stripHsts

/-- The rules for the path; never on a 1xx. -/
def rules (status : Nat) : Option HeaderSet :=
  if status < 200 then none
  else a.node.map fun n => if (200 ≤ status && status < 300) || status = 304 then n.1 else n.2

/-- The statuses a location's own fields are added on. -/
def addStatus (status : Nat) : Bool :=
  [200, 201, 204, 206, 301, 302, 303, 304, 307, 308].contains status

/-- What was read of the answer before the loop. -/
def seenOf (r : Result) : Upstream :=
  match a.rules r.status with
  | none => {}
  | some hs => Response.seenOf hs a.guarded a.authorized ((r.headers.filter fun f => !a.hidden f.1) ++
      if addStatus r.status then a.location.addHeaders else [])

/-- The names the writer and the server own. -/
def ownName (name : Bytes) : Bool :=
  [bytes "content-length", bytes "transfer-encoding", bytes "connection", bytes "keep-alive", bytes "server",
    bytes "date"].any fun n => iequals name n

def keepRule (r : Result) (u : Upstream) (name : Bytes) : Bool × Upstream :=
  match a.rules r.status with
  | none => (true, u)
  | some hs => keepUpstream hs a.guarded u name

def vary : Bool := a.compression.any (·.vary)
def compressing : Bool := a.compression.any (·.compressing)

def weakTag (v : Bytes) : Bool := (bytes "W/").isPrefixOf v

/-- A Location as it is passed on. -/
def locationValue (v : Bytes) : Bytes :=
  let rewritten := if a.location.proxied && a.location.rewriteRedirects then a.rewriteLocation v else none
  match rewritten with
  | some w => w
  | none => ((a.httpsSite.bind (·.upgradeLocation v))).getD v

/-- The line a field becomes once no rule and no guard takes it. -/
def line (f : Field) : Option Field :=
  if a.vary && iequals f.1 (bytes "vary") then
    some (bytes "Vary", f.2 ++ if varyListsAcceptEncoding f.2 then [] else bytes ", Accept-Encoding")
  else if a.compression.isSome && iequals f.1 (bytes "content-encoding") && iequals f.2 (bytes "identity") then none
  else if a.compressing && iequals f.1 (bytes "etag") && !weakTag f.2 then some (bytes "ETag", bytes "W/" ++ f.2)
  else if a.compressing && (iequals f.1 (bytes "accept-ranges") || iequals f.1 (bytes "content-md5")) then none
  else if (a.location.proxied && a.location.rewriteRedirects || a.httpsSite.isSome) && iequals f.1 (bytes "location") then
    some (bytes "Location", a.locationValue f.2)
  else some f

/-- One field of the origin's. -/
def answerStep (r : Result) (l : AnswerLoop) (f : Field) : AnswerLoop :=
  if ownName f.1 || a.hidden f.1 || (a.siteHsts && iequals f.1 (bytes "strict-transport-security")) then l
  else
    let k := a.keepRule r l.seen f.1
    let l := { l with seen := k.2 }
    if !k.1 then l
    else if a.guarded && iequals f.1 cacheControlName then { l with kept := keepDirectives f.2 l.kept }
    else if a.guarded && sharedOnlyField f.1 then l
    else
      { l with out := l.out ++ (a.line f).toList
               varySeen := l.varySeen || (a.vary && iequals f.1 (bytes "vary")) }

/-- The loop over the origin's fields. -/
def answerLoop (r : Result) : AnswerLoop := r.headers.foldl (a.answerStep r) { seen := a.seenOf r }

end Around

/-! ## §4. The origin's lines. -/

namespace Around

/-- The field is one that the loop takes off an answer: a name of the writer's or the server's, a
    hidden one, the site's HSTS, a rule's, the guard's. -/
def takesOff (a : Around) (r : Result) (f : Field) : Bool :=
  ownName f.1 || a.hidden f.1 || (a.siteHsts && iequals f.1 (bytes "strict-transport-security")) ||
    !(a.keepRule r (a.seenOf r) f.1).1 || (a.guarded && guardField f)

/-- The field does not go out: taken off, or of the identity bytes of a compressed answer. -/
def drops (a : Around) (r : Result) (f : Field) : Bool :=
  a.takesOff r f ||
    (!(a.vary && iequals f.1 (bytes "vary")) &&
      ((a.compression.isSome && iequals f.1 (bytes "content-encoding") && iequals f.2 (bytes "identity")) ||
        (!(a.compressing && iequals f.1 (bytes "etag") && !weakTag f.2) && a.compressing &&
          (iequals f.1 (bytes "accept-ranges") || iequals f.1 (bytes "content-md5")))))

section Loop

variable {a : Around} {r : Result} {f g : Field}

/-- The same knowledge, with other defaults answered. -/
def marked (u : Upstream) (mask : Nat → Bool) : Upstream := { u with present := mask }

/-- What a rule says of a name does not depend on the defaults answered so far. -/
theorem keepRule_marked (mask : Nat → Bool) (name : Bytes) :
    ∃ mask', a.keepRule r (marked (a.seenOf r) mask) name =
      ((a.keepRule r (a.seenOf r) name).1, marked (a.seenOf r) mask') := by
  unfold keepRule
  cases a.rules r.status with
  | none => exact ⟨mask, rfl⟩
  | some hs =>
    exact ⟨_, Prod.ext (keepUpstream_congr name mask) (keepUpstream_snd name)⟩

/-- One field: the step adds the line of a field that is not taken off. -/
theorem answerStep_out {l : AnswerLoop} {mask : Nat → Bool} (h : l.seen = marked (a.seenOf r) mask) :
    (a.answerStep r l f).out = l.out ++ (if a.takesOff r f then [] else (a.line f).toList) ∧
      ∃ mask', (a.answerStep r l f).seen = marked (a.seenOf r) mask' := by
  obtain ⟨mask', hkeep⟩ := keepRule_marked (a := a) (r := r) mask f.1
  unfold answerStep takesOff guardField
  rw [h]
  split
  · next hown =>
    rw [hown]
    exact ⟨by simp, mask, h⟩
  · next hown =>
    rw [Bool.eq_false_iff.mpr hown]
    dsimp only
    rw [hkeep]
    dsimp only
    cases hk : (a.keepRule r (a.seenOf r) f.1).1 with
    | false => exact ⟨by simp, mask', rfl⟩
    | true =>
      cases a.guarded with
      | false => exact ⟨by simp, mask', rfl⟩
      | true =>
        cases hc : iequals f.1 cacheControlName with
        | true => exact ⟨by simp, mask', rfl⟩
        | false =>
          cases hsh : sharedOnlyField f.1 with
          | true => exact ⟨by simp, mask', rfl⟩
          | false => exact ⟨by simp, mask', rfl⟩

/-- **The origin's lines**: one for each field that is not taken off. -/
theorem answerLoop_out : (a.answerLoop r).out =
    r.headers.flatMap fun f => if a.takesOff r f then [] else (a.line f).toList := by
  have hrun : ∀ (fs : List Field) (l : AnswerLoop) (mask : Nat → Bool),
      l.seen = marked (a.seenOf r) mask → (fs.foldl (a.answerStep r) l).out =
        l.out ++ fs.flatMap fun f => if a.takesOff r f then [] else (a.line f).toList := by
    intro fs
    induction fs with
    | nil => intro l mask _; simp
    | cons f fs ih =>
      intro l mask h
      obtain ⟨hout, mask', hseen⟩ := answerStep_out (f := f) h
      rw [List.foldl_cons, ih _ mask' hseen, hout, List.flatMap_cons, List.append_assoc]
  exact hrun r.headers _ (a.seenOf r).present rfl

/-- A line bears its field's name. -/
theorem line_name (h : a.line f = some g) : iequals g.1 f.1 = true := by
  have hsame : ∀ {n k : Bytes}, iequals n k = true → ∀ m : Bytes, m.map lower = k.map lower → iequals m n = true :=
    fun hn m hm => iequals_iff.mpr (hm.trans (iequals_iff.mp hn).symm)
  unfold line at h
  split at h
  · next hv =>
    cases h
    exact hsame (Bool.and_eq_true_iff.mp hv).2 (bytes "Vary") (by decide)
  split at h
  · cases h
  split at h
  · next he =>
    cases h
    rw [Bool.and_eq_true, Bool.and_eq_true] at he
    exact hsame he.1.2 (bytes "ETag") (by decide)
  split at h
  · cases h
  split at h
  · next hl =>
    cases h
    exact hsame (Bool.and_eq_true_iff.mp hl).2 (bytes "Location") (by decide)
  · cases h
    exact iequals_iff.mpr rfl

theorem line_isSome : (a.line f).isSome = !(!(a.vary && iequals f.1 (bytes "vary")) &&
    ((a.compression.isSome && iequals f.1 (bytes "content-encoding") && iequals f.2 (bytes "identity")) ||
      (!(a.compressing && iequals f.1 (bytes "etag") && !weakTag f.2) && a.compressing &&
        (iequals f.1 (bytes "accept-ranges") || iequals f.1 (bytes "content-md5"))))) := by
  unfold line
  split
  · next h => simp [h]
  next h =>
  rw [Bool.eq_false_iff.mpr h]
  split
  · next h => simp [h]
  next h =>
  rw [Bool.eq_false_iff.mpr h]
  split
  · next h => simp [h]
  next h =>
  rw [Bool.eq_false_iff.mpr h]
  split
  · next h => simp [h]
  next h =>
  simp only [Bool.not_false, Bool.true_and, Bool.false_or, Bool.eq_false_iff.mpr h]
  split <;> rfl

theorem mem_answerLoop (h : g ∈ (a.answerLoop r).out) :
    ∃ f ∈ r.headers, iequals g.1 f.1 = true ∧ a.drops r f = false := by
  rw [answerLoop_out, List.mem_flatMap] at h
  obtain ⟨f, hf, hg⟩ := h
  split at hg
  · cases hg
  next htake =>
  have hline := Option.mem_toList.mp hg
  refine ⟨f, hf, line_name hline, ?_⟩
  have hsome : (a.line f).isSome = true := by
    rw [Option.mem_def.mp hline]
    rfl
  rw [line_isSome, Bool.not_eq_true'] at hsome
  unfold drops
  rw [Bool.eq_false_iff.mpr htake, hsome]
  rfl

theorem exists_answerLine (hf : f ∈ r.headers) (h : a.drops r f = false) :
    ∃ g ∈ (a.answerLoop r).out, iequals g.1 f.1 = true := by
  unfold drops at h
  rw [Bool.or_eq_false_iff] at h
  have hsome : (a.line f).isSome = true := by rw [line_isSome, h.2]; rfl
  obtain ⟨g, hg⟩ := Option.isSome_iff_exists.mp hsome
  refine ⟨g, ?_, line_name hg⟩
  rw [answerLoop_out, List.mem_flatMap]
  refine ⟨f, hf, ?_⟩
  rw [h.1, if_neg (by simp), hg]
  simp

end Loop

end Around

/-! ## §5. Nothing of one hop is passed on. -/

/-- A field that belongs to the hop it came over: by its name, or by a Connection line's word. -/
def ofThisHop (fields : List Field) (name : Bytes) : Bool :=
  isHopByHop name || fields.any fun c => named connectionName c && connectionLists c.2 name

/-- The Upgrade of an upgrade the origin accepted. -/
def acceptedUpgrade (r : Result) (name : Bytes) : Bool := r.upgraded && iequals name upgradeName

/-- What is passed on of an answer: no field of the hop, but an accepted upgrade's. -/
def AnswerApart (a : Around) (r : Result) : Prop :=
  ∀ g ∈ (a.answerLoop r).out, ofThisHop r.headers g.1 = true → acceptedUpgrade r g.1 = true

/-- When that is so: every such field is one the loop drops for another reason. -/
def AnswerFits (a : Around) (r : Result) : Prop :=
  ∀ f ∈ r.headers, ofThisHop r.headers f.1 = true → acceptedUpgrade r f.1 = false → a.drops r f = true

theorem ofThisHop_congr {fields : List Field} {n m : Bytes} (h : iequals n m = true) :
    ofThisHop fields n = ofThisHop fields m := by
  have hi : ∀ w : Bytes, iequals n w = iequals m w := iequals_congr h
  unfold ofThisHop isHopByHop
  simp only [hi, connectionLists_congr h]

theorem acceptedUpgrade_congr {r : Result} {n m : Bytes} (h : iequals n m = true) :
    acceptedUpgrade r n = acceptedUpgrade r m := by
  unfold acceptedUpgrade
  rw [iequals_congr h]

/-- **When nothing of the origin's hop is passed on.** -/
theorem answerApart_iff {a : Around} {r : Result} : AnswerApart a r ↔ AnswerFits a r := by
  constructor
  · intro h f hf hhop hup
    by_contra hdrop
    rw [Bool.not_eq_true] at hdrop
    obtain ⟨g, hg, hname⟩ := Around.exists_answerLine hf hdrop
    have := h g hg (by rw [ofThisHop_congr hname]; exact hhop)
    rw [acceptedUpgrade_congr hname, hup] at this
    cases this
  · intro h g hg hhop
    obtain ⟨f, hf, hname, hdrop⟩ := Around.mem_answerLoop hg
    by_contra hup
    rw [Bool.not_eq_true, acceptedUpgrade_congr hname] at hup
    rw [ofThisHop_congr hname] at hhop
    rw [h f hf hhop hup] at hdrop
    cases hdrop

/-! ## §6. Both directions. -/

namespace Demo

/-- A client's request over an open connection. -/
def request (host : Bytes) (headers : List Field) : Stream :=
  streamOf { methodName := bytes "GET", target := bytes "/", host := host, headers := headers }

/-- A Connection line that names a field. -/
def oneLine : Stream := request (bytes "a")
  [(bytes "Host", bytes "a"), (bytes "Connection", bytes "close, X-Hop"), (bytes "X-Hop", bytes "1")]

/-- Two Connection lines, the second naming a field. -/
def twoLines : Stream := request (bytes "a")
  [(bytes "Host", bytes "a"), (bytes "Connection", bytes "keep-alive"), (bytes "Connection", bytes "X-Hop"),
    (bytes "X-Hop", bytes "1")]

def otherForwarded : Stream := request (bytes "a")
  [(bytes "Host", bytes "a"), (bytes "X-Forwarded-Prefix", bytes "/admin")]

/-- A section with an authority, and an empty Host field beside it. -/
def emptyHost : Stream := request (bytes "a") [(bytes "Host", [])]

/-- An answer of this hop alone. -/
def plainAnswer : Result :=
  { status := 200, headers := [(bytes "Connection", bytes "close"), (bytes "ETag", bytes "1")] }

/-- An answer that names a field in its Connection line, and one with a Trailer. -/
def hopAnswer : Result :=
  { status := 200, headers := [(bytes "Connection", bytes "X-Hop"), (bytes "X-Hop", bytes "1")] }

def trailerAnswer : Result := { status := 200, headers := [(bytes "Trailer", bytes "X-Sum")] }

end Demo

end Agensio.Proxy
