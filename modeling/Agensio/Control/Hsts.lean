/-
  Agensio.Control.Hsts — a managed site's HSTS, changed and stored.

  Model of what `apply_request` (`control/sites.cpp`) does to a site's
  `https` and `hsts`, and of how the spec is stored and read back
  (`to_json`, `from_json`).  A browser that took a lifetime `L` from an
  answer at `u` keeps to HTTPS until `u + L`, so `hsts_held_until` is raised
  before a change of `hsts` to what the site sent until then, and `"none"`
  sends `max-age=0` until that moment is over.

  Only a request that names `hsts` raises it.

  Main results:
    * `silence_waits` — where every end of HTTPS is in the ledger, silence
      comes after every promise.
-/
import Agensio.Control.Json
import Agensio.Http1.Rendering

namespace Agensio.Control.Hsts

open Agensio.Control.Json
open Agensio.Http1 (decimalText lower)

/-! ## §1. Lifetimes. -/

/-- Ten years, a site file's. -/
def kHstsMax : Nat := 315360000

/-- Two years, the control plane's. -/
def kControlMax : Nat := 63072000

/-- The unit a lifetime ends with, in seconds; 0 for digits alone. -/
def unitOf (c : UInt8) : Nat :=
  if c = 0x73 then 1
  else if c = 0x6d then 60
  else if c = 0x68 then 3600
  else if c = 0x64 then 86400
  else if c = 0x77 then 7 * 86400
  else if c = 0x79 then 365 * 86400
  else 0

/-- The loop over the digits. -/
def digitsValue (max : Nat) : Bytes → Nat → Option Nat
  | [], v => some v
  | c :: rest, v =>
    if !(0x30 ≤ c && c ≤ 0x39) || max < v then none
    else digitsValue max rest (v * 10 + (c.toNat - 0x30))

/-- What `duration_seconds` makes of the digits and the unit; `max / unit` keeps the product small. -/
def scaledValue (digits : Bytes) (unit max : Nat) : Option Nat :=
  if digits = [] then none
  else
    match digitsValue max digits 0 with
    | none => none
    | some v => if max / unit < v then none else some (v * unit)

/-- `duration_seconds`. -/
def durationSeconds (text : Bytes) (max : Nat) : Option Nat :=
  match text.getLast? with
  | none => none
  | some last =>
    if unitOf last ≠ 0 then scaledValue text.dropLast (unitOf last) max
    else scaledValue text 1 max

/-- `hsts_duration`. -/
def hstsDuration (text : Bytes) (max : Nat) : Option Nat := durationSeconds text max

theorem scaledValue_le {digits : Bytes} {unit max n : Nat}
    (h : scaledValue digits unit max = some n) : n ≤ max := by
  unfold scaledValue at h
  split at h
  · simp at h
  split at h
  · simp at h
  rename_i v _
  split at h
  · simp at h
  have hn : v * unit = n := by simpa using h
  calc n = v * unit := hn.symm
    _ ≤ max / unit * unit := Nat.mul_le_mul_right unit (by omega)
    _ ≤ max := Nat.div_mul_le_self max unit

theorem hstsDuration_le {text : Bytes} {max n : Nat} (h : hstsDuration text max = some n) : n ≤ max := by
  unfold hstsDuration durationSeconds at h
  split at h
  · simp at h
  split at h
  · exact scaledValue_le h
  · exact scaledValue_le h

/-! ## §2. The spec. -/

/-- What `SiteSpec` says of HTTPS and HSTS. -/
structure SiteSpec where
  domain : Bytes := []
  -- "auto", "none" or "manual"; empty while undecided
  https : Bytes := []
  cert : Bytes := []
  key : Bytes := []
  redirectHttp : Bool := true
  hsts : Bytes := []
  hstsSubdomains : Bool := false
  hstsDecided : Bool := false
  hstsApplication : Bool := false
  -- an earlier version's `hsts: true`
  hstsUnnamed : Bool := false
  hstsHeldUntil : Int := 0
  hstsSince : Int := 0
  app : Bytes := []

namespace SiteSpec

/-- `to_json`, its members of HTTPS and HSTS. -/
def toJson (s : SiteSpec) : Value :=
  (Value.object [])
    |>.set "domain" (.text s.domain)
    |>.set "https" (.text s.https)
    |>.setIf (s.https = bytes "manual") "cert" (.text s.cert)
    |>.setIf (s.https = bytes "manual") "key" (.text s.key)
    |>.set "redirect_http" (.boolean s.redirectHttp)
    |>.setIf (s.hsts ≠ [] || s.hstsApplication || s.hstsDecided) "hsts"
      (.text (if s.hsts ≠ [] then s.hsts
        else if s.hstsApplication then bytes "application"
        else bytes "none"))
    |>.setIf s.hstsSubdomains "hsts_subdomains" (.boolean true)
    |>.setIf (0 < s.hstsHeldUntil) "hsts_held_until" (.number s.hstsHeldUntil)
    |>.setIf (0 < s.hstsSince) "hsts_since" (.number s.hstsSince)
    |>.set "hsts_decided" (.boolean s.hstsDecided)
    |>.set "app" (.text s.app)

/-- A moment as `from_json` reads it: nothing of it but what lies within the bound. -/
def momentOf : Value → Int
  | .number q => if 0 < q ∧ q < 1000000000000000 then ⌊q⌋ else 0
  | _ => 0

/-- `from_json`, its members of HTTPS and HSTS. -/
def fromJson (v : Value) : Option SiteSpec :=
  if !v.isObject || v.get "domain" = [] then none
  else
    let given := v.field "hsts"
    let unnamed := given.isTrue
    let decided := (v.field "hsts_decided").isTrue || given.isText
    some {
      domain := v.get "domain"
      https := v.get "https"
      cert := v.get "cert"
      key := v.get "key"
      redirectHttp := if v.hasKey "redirect_http" then (v.field "redirect_http").isTrue else true
      hsts := if given.isText && given.str ≠ bytes "application" && given.str ≠ bytes "none"
        then given.str else []
      hstsUnnamed := unnamed
      hstsSubdomains := (v.field "hsts_subdomains").isTrue
      hstsHeldUntil := momentOf (v.field "hsts_held_until")
      hstsSince := momentOf (v.field "hsts_since")
      hstsDecided := decided
      -- a decided no of an earlier version let the application's own field through
      hstsApplication := (given.isText && given.str = bytes "application") ||
        (decided && !given.isText && !unnamed)
      app := v.get "app" }

/-- The answers over HTTPS: the spec has a certificate. -/
def overHttps (s : SiteSpec) : Bool := s.https ≠ [] && s.https ≠ bytes "none"

/-- `sent`: the lifetime browsers that visit take from the site. -/
def sent (s : SiteSpec) : Nat :=
  if s.overHttps then
    if s.hstsUnnamed then 31536000
    else if s.hsts ≠ [] then (hstsDuration s.hsts kHstsMax).getD 0
    else 0
  else 0

/-- `now_sent`: what the spec gives, HTTPS or not; 0 while clearing. -/
def nowSent (s : SiteSpec) : Nat :=
  if s.hsts ≠ [] && !s.hstsUnnamed then (hstsDuration s.hsts kHstsMax).getD 1 else 1

def clearing (s : SiteSpec) : Bool := s.hsts ≠ [] && !s.hstsUnnamed && s.nowSent = 0

/-- `none_already`: nothing is sent, by decision. -/
def silent (s : SiteSpec) : Bool :=
  s.hsts = [] && s.hstsDecided && !s.hstsApplication && !s.hstsUnnamed

/-- `hold`, where the application's own field is not known. -/
def hold (s : SiteSpec) (now : Int) (sent : Nat) : SiteSpec :=
  if 0 < sent then { s with hstsHeldUntil := max s.hstsHeldUntil (now + sent) } else s

/-- What a lifetime, a clearing and `off` set alike. -/
def sending (s : SiteSpec) (text : Bytes) (sub : Bool) (since : Int) : SiteSpec :=
  { s with
    hsts := text, hstsSubdomains := sub, hstsDecided := true, hstsApplication := false,
    hstsUnnamed := false, hstsSince := since }

/-- `off`: agensio sends none. -/
def off (s : SiteSpec) : SiteSpec := s.sending [] false 0

end SiteSpec

/-! ## §3. Stored and read back. -/

/-- A moment kept by the store. -/
def keptMoment (m : Int) : Int := if 0 < m ∧ m < 1000000000000000 then m else 0

theorem momentOf_number (m : Int) : SiteSpec.momentOf (.number m) = keptMoment m := by
  have hlt : ((m : ℚ) < 1000000000000000) ↔ m < 1000000000000000 := by
    rw [show (1000000000000000 : ℚ) = ((1000000000000000 : Int) : ℚ) by norm_num]
    exact Int.cast_lt
  simp [SiteSpec.momentOf, keptMoment, hlt]

theorem momentOf_written (m : Int) :
    SiteSpec.momentOf (if 0 < m then .number m else .null) = keptMoment m := by
  by_cases hm : 0 < m
  · simp only [hm, if_true]
    exact momentOf_number m
  · simp [hm, SiteSpec.momentOf, keptMoment]

namespace SiteSpec

/-- What `from_json` reads of a spec that `to_json` wrote. -/
def stored (s : SiteSpec) : SiteSpec :=
  { s with
    cert := if s.https = bytes "manual" then s.cert else []
    key := if s.https = bytes "manual" then s.key else []
    hstsDecided := s.hstsDecided || s.hstsApplication || s.hsts ≠ []
    hstsApplication := s.hstsApplication && s.hsts = []
    hstsUnnamed := false
    hstsHeldUntil := keptMoment s.hstsHeldUntil
    hstsSince := keptMoment s.hstsSince }

/-- A stored spec reads back, its names of decisions apart from its lifetime. -/
theorem fromJson_toJson {s : SiteSpec} (hd : s.domain ≠ []) (hn : s.hsts ≠ bytes "none")
    (ha : s.hsts ≠ bytes "application") : fromJson s.toJson = some s.stored := by
  have hobj : s.toJson.isObject = true := rfl
  have hnull : ∀ key, (Value.object []).field key = .null := fun _ => rfl
  have hdom : s.toJson.get "domain" = s.domain := by
    simp (disch := decide) only [Value.get, toJson, Value.field_set_ne, Value.field_setIf_ne,
      Value.field_set_self, Value.str_text]
  have hgiven : s.toJson.field "hsts" =
      if s.hsts ≠ [] || s.hstsApplication || s.hstsDecided then
        .text (if s.hsts ≠ [] then s.hsts
          else if s.hstsApplication then bytes "application"
          else bytes "none")
      else .null := by
    simp (disch := decide) only [toJson, Value.field_set_ne, Value.field_setIf_ne,
      Value.field_setIf_self, hnull]
  unfold fromJson
  rw [hobj, hdom, hgiven, if_neg (by simpa using hd)]
  simp (disch := decide) only [Value.get, Value.hasKey, toJson, Value.field_set_ne,
    Value.field_setIf_ne, Value.field_set_self, Value.field_setIf_self, hnull, Value.str_text,
    Value.str_textIf, Value.isTrue_boolean, Value.isTrue_booleanIf, decide_eq_true_eq, momentOf_written]
  -- the name of a decision stands where the lifetime would
  by_cases hs : s.hsts = []
  · have hne : bytes "none" ≠ bytes "application" := by decide
    by_cases happ : s.hstsApplication = true <;> by_cases hdec : s.hstsDecided = true <;>
      simp [hs, happ, hdec, hne, stored, Value.isNull]
  · simp [hs, hn, ha, stored, Value.isNull]

end SiteSpec

/-! ## §4. A change. -/

/-- Why a change is not made. -/
inductive Refusal
  -- "domain must be a host name such as example.com (...)"
  | domain
  -- "hsts: true named no lifetime (it meant a year): ..."
  | hstsTrue
  -- "hsts: false is gone: ..."
  | hstsFalse
  -- "hsts: the site sends max-age=0 ... one that saw a lifetime may hold it until ..."
  | hstsClearing (heldUntil : Int)
  -- "hsts: an object takes max_age and subdomains, not '...'"
  | hstsKey (key : String)
  -- "hsts.subdomains is true or false"
  | hstsSubdomains
  -- "hsts: '...' is no lifetime of at most two years"
  | hstsLifetime (text : Bytes)
  -- "this site's file says hsts = true, an earlier version's form ..."
  | hstsUnnamed
  -- "Should the site be served over HTTPS?", a decision still open
  | httpsOpen
  -- "https = \"auto\" needs [server] acme = ..."
  | httpsAcme
  -- "https as a table needs cert and key"
  | httpsTable
  -- "hsts: \"application\" leaves HSTS to the site's application, and a static site has no application"
  | hstsStatic
  -- "hsts with redirect_http false: ..."
  | hstsServe
  -- what another field is refused for, or asks
  | other (field : String)

/-- The loop of `valid_domain` behind the first byte; `label` counts the bytes since a dot. -/
def domainLoop : UInt8 → Nat → Bytes → Bool
  | prev, label, [] => 0 < label && prev ≠ 0x2d
  | prev, label, c :: rest =>
    if c = 0x2e then
      if label = 0 || prev = 0x2d then false else domainLoop c 0 rest
    else if !((0x61 ≤ c && c ≤ 0x7a) || (0x30 ≤ c && c ≤ 0x39) || c = 0x2d) then false
    else if label = 0 && c = 0x2d then false
    else if 63 < label + 1 then false
    else domainLoop c (label + 1) rest

/-- `valid_domain`. -/
def validDomain (name : Bytes) : Bool :=
  if name = [] || 253 < name.length || name.head? = some 0x2e || name.getLast? = some 0x2e then false
  else domainLoop 0 0 name && name.contains 0x2e

/-- `word`: the text, in any case. -/
def isWord (h : Value) (w : Bytes) : Bool := h.isText && h.str.map lower = w

/-- The lifetime of a request as text: seconds given as a number are spelled. -/
def lifetimeText : Value → Bytes
  | .number q => if 0 ≤ q ∧ q < 1000000000000000 ∧ q.den = 1 then decimalText q.num.toNat else []
  | .text s => s
  | _ => []

/-- The lifetime and the subdomains an `hsts` value names. -/
def lifetimeOf (h : Value) : Except Refusal (Value × Bool) :=
  if h.isObject then
    match h.members.find? fun m => m.1 ≠ "max_age" && m.1 ≠ "subdomains" with
    | some m => .error (.hstsKey m.1)
    | none =>
      match h.field "subdomains" with
      | .null => .ok (h.field "max_age", false)
      | .boolean sub => .ok (h.field "max_age", sub)
      | _ => .error .hstsSubdomains
  else .ok (h, false)

/-- The branch of `apply_request` for `hsts: "none"`. -/
def applyNone (sent : Nat) (now : Int) (spec : SiteSpec) : Except Refusal SiteSpec :=
  if spec.clearing then
    if now < spec.hstsHeldUntil then .error (.hstsClearing spec.hstsHeldUntil)
    else .ok spec.off
  else if !spec.silent && (0 < sent || now < spec.hstsHeldUntil) then
    .ok ((spec.hold now sent).sending (bytes "0") false 0)
  else .ok spec.off

/-- The branch for a lifetime, 0 included. -/
def applyLifetime (h : Value) (sent : Nat) (now : Int) (spec : SiteSpec) :
    Except Refusal SiteSpec :=
  match lifetimeOf h with
  | .error e => .error e
  | .ok (age, sub) =>
    let text := lifetimeText age
    match hstsDuration text kControlMax with
    | none => .error (.hstsLifetime text)
    | some seconds =>
      let same := spec.hsts ≠ [] && !spec.hstsUnnamed && spec.nowSent = seconds &&
        spec.hstsSubdomains = sub
      let since := if same then spec.hstsSince else if 0 < seconds then now else 0
      .ok ((spec.hold now sent).sending text sub since)

/-- What `apply_request` does with `hsts`; `sent` is from before the change. -/
def applyHsts (h : Value) (sent : Nat) (now : Int) (spec : SiteSpec) : Except Refusal SiteSpec :=
  match h with
  | .boolean true => .error .hstsTrue
  | .boolean false => .error .hstsFalse
  | h =>
    if isWord h (bytes "true") then .error .hstsTrue
    else if isWord h (bytes "false") then .error .hstsFalse
    else if h.isText && h.str = bytes "none" then applyNone sent now spec
    else if h.isText && h.str = bytes "application" then
      .ok { (spec.hold now sent).off with hstsApplication := true }
    else applyLifetime h sent now spec

/-- What `apply_request` does with `domain`, `https`, `redirect_http` and `app`. -/
def applyOthers (body : Value) (spec : SiteSpec) : SiteSpec :=
  { spec with
    domain := if body.hasKey "domain" then body.get "domain" else spec.domain
    https :=
      if body.hasKey "https" then
        if (body.field "https").isObject then bytes "manual" else body.get "https"
      else spec.https
    cert :=
      if (body.field "https").isObject then (body.field "https").get "cert" else spec.cert
    key := if (body.field "https").isObject then (body.field "https").get "key" else spec.key
    redirectHttp :=
      if body.hasKey "redirect_http" then (body.field "redirect_http").isTrue
      else spec.redirectHttp
    app := if body.hasKey "app" then body.get "app" else spec.app }

/-- What is judged of the finished spec. -/
def judge (acme : Bool) (spec : SiteSpec) : Except Refusal Unit :=
  if spec.hstsUnnamed then .error .hstsUnnamed
  else if spec.https ≠ bytes "auto" ∧ spec.https ≠ bytes "none" ∧ spec.https ≠ bytes "manual" then
    .error .httpsOpen
  else if spec.https = bytes "auto" ∧ acme = false then .error .httpsAcme
  else if spec.https = bytes "manual" ∧ (spec.cert = [] ∨ spec.key = []) then .error .httpsTable
  else if spec.hstsApplication ∧ spec.app = bytes "static" then .error .hstsStatic
  else if spec.https ≠ bytes "none" ∧ spec.hsts ≠ [] ∧
      0 < (hstsDuration spec.hsts kControlMax).getD 0 ∧ spec.redirectHttp = false then
    .error .hstsServe
  else .ok ()

/-- A request, when it comes, and what it meets beside the spec. -/
structure Call where
  body : Value
  now : Int
  -- `cfg.acme.enabled`
  acme : Bool
  -- what the other fields come to, which neither read nor write HTTPS and HSTS
  others : Except Refusal Unit

/-- `apply_request`, with no application field known. -/
def applyRequest (c : Call) (spec : SiteSpec) : Except Refusal SiteSpec :=
  let next := applyOthers c.body spec
  if !validDomain next.domain then .error .domain
  else
    let named :=
      if c.body.hasKey "hsts" then applyHsts (c.body.field "hsts") spec.sent c.now next
      else .ok next
    match named with
    | .error e => .error e
    | .ok next =>
      match judge c.acme next with
      | .error e => .error e
      | .ok _ =>
        match c.others with
        | .error e => .error e
        | .ok _ => .ok next

/-- A request that succeeds, its spec stored and read back. -/
def change (c : Call) (spec : SiteSpec) : Option SiteSpec :=
  match applyRequest c spec with
  | .error _ => none
  | .ok next => SiteSpec.fromJson next.toJson

/-- A spec that passes is named, and served over HTTPS or not. -/
theorem judge_ok {acme : Bool} {spec : SiteSpec} (h : judge acme spec = .ok ()) : spec.hstsUnnamed = false ∧
      (spec.https = bytes "auto" ∨ spec.https = bytes "none" ∨ spec.https = bytes "manual") := by
  unfold judge at h
  split at h
  · simp at h
  rename_i hu
  split at h
  · simp at h
  rename_i ho
  refine ⟨by simpa using hu, ?_⟩
  by_contra hno
  simp only [not_or] at hno
  exact ho hno

theorem applyRequest_ok {c : Call} {spec next : SiteSpec} (h : applyRequest c spec = .ok next) :
    validDomain (applyOthers c.body spec).domain = true ∧ judge c.acme next = .ok () ∧
      (c.body.hasKey "hsts" = false ∧ next = applyOthers c.body spec ∨ c.body.hasKey "hsts" = true ∧
          applyHsts (c.body.field "hsts") spec.sent c.now (applyOthers c.body spec) = .ok next) := by
  unfold applyRequest at h
  dsimp only at h
  split at h
  · simp at h
  rename_i hd
  split at h
  · simp at h
  rename_i named hnamed
  split at h
  · simp at h
  rename_i hj
  split at h
  · simp at h
  obtain rfl : named = next := by simpa using h
  refine ⟨by simpa using hd, hj, ?_⟩
  by_cases hk : c.body.hasKey "hsts" = true
  · exact .inr ⟨hk, by simpa [hk] using hnamed⟩
  refine .inl ⟨by simpa using hk, ?_⟩
  have heq : applyOthers c.body spec = named := by simpa [hk] using hnamed
  exact heq.symm

/-- What a request that names `hsts` comes to. -/
inductive HstsSet (sent : Nat) (now : Int) (spec : SiteSpec) : SiteSpec → Prop
  | cleared (hc : spec.clearing = true) (hnow : spec.hstsHeldUntil ≤ now) :
      HstsSet sent now spec spec.off
  | silent (hs : spec.silent = true) : HstsSet sent now spec spec.off
  | nothing (hs : sent = 0) (hnow : spec.hstsHeldUntil ≤ now) : HstsSet sent now spec spec.off
  | sending (text : Bytes) (sub : Bool) (since : Int) (seconds : Nat)
      (ht : hstsDuration text kControlMax = some seconds) :
      HstsSet sent now spec ((spec.hold now sent).sending text sub since)
  | application :
      HstsSet sent now spec { (spec.hold now sent).off with hstsApplication := true }

theorem applyNone_set {sent : Nat} {now : Int} {spec next : SiteSpec}
    (h : applyNone sent now spec = .ok next) : HstsSet sent now spec next := by
  unfold applyNone at h
  split at h
  · rename_i hc
    split at h
    · simp at h
    rename_i hnow
    obtain rfl : spec.off = next := by simpa using h
    exact .cleared hc (by omega)
  · split at h
    · obtain rfl : (spec.hold now sent).sending (bytes "0") false 0 = next := by simpa using h
      exact .sending (bytes "0") false 0 0 (by decide)
    rename_i hno
    obtain rfl : spec.off = next := by simpa using h
    by_cases hs : spec.silent = true
    · exact .silent hs
    have hs' : spec.silent = false := by simpa using hs
    have hboth : sent = 0 ∧ spec.hstsHeldUntil ≤ now := by simpa [hs'] using hno
    exact .nothing hboth.1 hboth.2

theorem applyLifetime_set {h : Value} {sent : Nat} {now : Int} {spec next : SiteSpec}
    (hok : applyLifetime h sent now spec = .ok next) : HstsSet sent now spec next := by
  unfold applyLifetime at hok
  split at hok
  · simp at hok
  rename_i age sub _
  dsimp only at hok
  split at hok
  · simp at hok
  rename_i seconds hsec
  have heq := Except.ok.inj hok
  rw [← heq]
  exact .sending (lifetimeText age) sub _ seconds hsec

theorem applyHsts_set {h : Value} {sent : Nat} {now : Int} {spec next : SiteSpec}
    (hok : applyHsts h sent now spec = .ok next) : HstsSet sent now spec next := by
  unfold applyHsts at hok
  split at hok
  · simp at hok
  · simp at hok
  split at hok
  · simp at hok
  split at hok
  · simp at hok
  split at hok
  · exact applyNone_set hok
  split at hok
  · cases hok
    exact .application
  · exact applyLifetime_set hok

/-! ## §5. What a change keeps. -/

namespace SiteSpec

variable (s : SiteSpec)

@[simp] theorem sending_hsts (text : Bytes) (sub : Bool) (since : Int) :
    (s.sending text sub since).hsts = text := rfl
@[simp] theorem sending_heldUntil (text : Bytes) (sub : Bool) (since : Int) :
    (s.sending text sub since).hstsHeldUntil = s.hstsHeldUntil := rfl
@[simp] theorem sending_domain (text : Bytes) (sub : Bool) (since : Int) :
    (s.sending text sub since).domain = s.domain := rfl
@[simp] theorem off_hsts : s.off.hsts = [] := rfl
@[simp] theorem off_heldUntil : s.off.hstsHeldUntil = s.hstsHeldUntil := rfl
@[simp] theorem off_domain : s.off.domain = s.domain := rfl
@[simp] theorem hold_domain (now : Int) (sent : Nat) : (s.hold now sent).domain = s.domain := by
  unfold hold
  split <;> rfl

@[simp] theorem stored_heldUntil : s.stored.hstsHeldUntil = keptMoment s.hstsHeldUntil := rfl
@[simp] theorem stored_hsts : s.stored.hsts = s.hsts := rfl
@[simp] theorem stored_domain : s.stored.domain = s.domain := rfl

/-- The ledger never goes back, -/
theorem le_hold (now : Int) (sent : Nat) : s.hstsHeldUntil ≤ (s.hold now sent).hstsHeldUntil := by
  unfold hold
  split
  · exact le_max_left _ _
  · exact le_refl _

/-- and takes in what is sent now. -/
theorem sent_le_hold {now : Int} {sent : Nat} (h : 0 < sent) :
    now + sent ≤ (s.hold now sent).hstsHeldUntil := by
  unfold hold
  rw [if_pos h]
  exact le_max_right _ _

theorem hold_lt {s : SiteSpec} {now bound : Int} {sent : Nat} (hs : s.hstsHeldUntil < bound)
    (hn : now + sent < bound) : (s.hold now sent).hstsHeldUntil < bound := by
  unfold hold
  split
  · exact max_lt hs hn
  · exact hs

theorem sent_le : s.sent ≤ kHstsMax := by
  unfold sent
  split
  · split
    · decide
    split
    · cases hd : hstsDuration s.hsts kHstsMax with
      | none => exact Nat.zero_le _
      | some n => exact hstsDuration_le hd
    · exact Nat.zero_le _
  · exact Nat.zero_le _

theorem sent_of_not_overHttps {s : SiteSpec} (h : s.overHttps = false) : s.sent = 0 := by
  simp [sent, h]

theorem sent_of_clearing {s : SiteSpec} (h : s.clearing = true) : s.sent = 0 := by
  have hc : (s.hsts ≠ [] ∧ s.hstsUnnamed = false) ∧ s.nowSent = 0 := by
    simpa [clearing] using h
  have hn : (hstsDuration s.hsts kHstsMax).getD 1 = 0 := by
    simpa [nowSent, hc.1.1, hc.1.2] using hc.2
  -- what is not read as a lifetime gives 1 there
  have hd : (hstsDuration s.hsts kHstsMax).getD 0 = 0 := by
    cases hd : hstsDuration s.hsts kHstsMax with
    | none => rfl
    | some n => simpa [hd] using hn
  simp [sent, hc.1.1, hc.1.2, hd]

theorem sent_of_silent {s : SiteSpec} (h : s.silent = true) : s.sent = 0 := by
  have hs : ((s.hsts = [] ∧ s.hstsDecided = true) ∧ s.hstsApplication = false) ∧
      s.hstsUnnamed = false := by
    simpa [silent] using h
  simp [sent, hs.1.1.1, hs.2]

theorem stored_sent {s : SiteSpec} (h : s.hstsUnnamed = false) : s.stored.sent = s.sent := by
  simp [sent, overHttps, stored, h]

theorem stored_silent {s : SiteSpec} (h : s.hstsUnnamed = false) : s.stored.silent = s.silent := by
  by_cases hs : s.hsts = []
  · cases happ : s.hstsApplication <;> simp [silent, stored, hs, happ, h]
  · simp [silent, stored, hs]

end SiteSpec

/-- What every spec has that was read from a file. -/
structure Readable (s : SiteSpec) : Prop where
  hsts_ne_none : s.hsts ≠ bytes "none"
  hsts_ne_application : s.hsts ≠ bytes "application"
  held_nonneg : 0 ≤ s.hstsHeldUntil
  held_lt : s.hstsHeldUntil < 1000000000000000

theorem Readable.fresh : Readable {} := by
  constructor <;> decide

theorem keptMoment_nonneg (m : Int) : 0 ≤ keptMoment m := by
  unfold keptMoment
  split <;> omega

theorem keptMoment_lt (m : Int) : keptMoment m < 1000000000000000 := by
  unfold keptMoment
  split <;> omega

theorem momentOf_bounds (v : Value) : 0 ≤ SiteSpec.momentOf v ∧ SiteSpec.momentOf v < 1000000000000000 := by
  cases v with
  | number q =>
    simp only [SiteSpec.momentOf]
    split
    · rename_i hq
      refine ⟨Int.floor_nonneg.mpr hq.1.le, ?_⟩
      have hlt : q < ((1000000000000000 : Int) : ℚ) := by
        rw [show ((1000000000000000 : Int) : ℚ) = 1000000000000000 by norm_num]
        exact hq.2
      exact Int.floor_lt.mpr hlt
    · omega
  | _ => simp [SiteSpec.momentOf]

theorem fromJson_readable {v : Value} {s : SiteSpec} (h : SiteSpec.fromJson v = some s) : Readable s := by
  unfold SiteSpec.fromJson at h
  split at h
  · simp at h
  cases h
  have hb := momentOf_bounds (v.field "hsts_held_until")
  refine ⟨?_, ?_, hb.1, hb.2⟩
  all_goals
    dsimp only
    split
    · rename_i hg
      simp only [Bool.and_eq_true, decide_eq_true_eq] at hg
      first | exact hg.2 | exact hg.1.2
    · decide

theorem Readable.stored_heldUntil {s : SiteSpec} (h : Readable s) :
    s.stored.hstsHeldUntil = s.hstsHeldUntil := by
  have h0 := h.held_nonneg
  have h1 := h.held_lt
  simp only [SiteSpec.stored_heldUntil, keptMoment]
  split <;> omega

theorem Readable.others {s : SiteSpec} (h : Readable s) (body : Value) : Readable (applyOthers body s) :=
  ⟨h.hsts_ne_none, h.hsts_ne_application, h.held_nonneg, h.held_lt⟩

theorem Readable.hold {s : SiteSpec} (h : Readable s) {now : Int} {sent : Nat}
    (hb : now + sent < 1000000000000000) : Readable (s.hold now sent) := by
  have hle := s.le_hold now sent
  have h0 := h.held_nonneg
  refine ⟨?_, ?_, by omega, SiteSpec.hold_lt h.held_lt hb⟩
  · unfold SiteSpec.hold
    split
    · exact h.hsts_ne_none
    · exact h.hsts_ne_none
  · unfold SiteSpec.hold
    split
    · exact h.hsts_ne_application
    · exact h.hsts_ne_application

theorem Readable.sending {s : SiteSpec} (h : Readable s) {text : Bytes} (sub : Bool) (since : Int)
    (hn : text ≠ bytes "none") (ha : text ≠ bytes "application") : Readable (s.sending text sub since) :=
  ⟨hn, ha, h.held_nonneg, h.held_lt⟩

/-- A request that names `hsts` leaves a spec that reads back. -/
theorem HstsSet.readable {sent : Nat} {now : Int} {spec next : SiteSpec} (h : Readable spec)
    (hb : now + sent < 1000000000000000) (hset : HstsSet sent now spec next) : Readable next := by
  cases hset with
  | cleared => exact h.sending false 0 (by decide) (by decide)
  | silent => exact h.sending false 0 (by decide) (by decide)
  | nothing => exact h.sending false 0 (by decide) (by decide)
  | sending text sub since seconds ht =>
    have hnone : hstsDuration (bytes "none") kControlMax = none := by decide
    have happ : hstsDuration (bytes "application") kControlMax = none := by decide
    refine (h.hold hb).sending sub since ?_ ?_
    · intro heq
      simp [heq, hnone] at ht
    · intro heq
      simp [heq, happ] at ht
  | application =>
    have hr := @Readable.sending _ (h.hold hb) [] false 0 (by decide) (by decide)
    exact ⟨hr.hsts_ne_none, hr.hsts_ne_application, hr.held_nonneg, hr.held_lt⟩

theorem HstsSet.domain {sent : Nat} {now : Int} {spec next : SiteSpec}
    (hset : HstsSet sent now spec next) : next.domain = spec.domain := by
  cases hset <;> simp [SiteSpec.off]

theorem domain_ne_nil {name : Bytes} (h : validDomain name = true) : name ≠ [] := by
  rintro rfl
  cases h

theorem Readable.stored {s : SiteSpec} (h : Readable s) : Readable s.stored :=
  ⟨h.hsts_ne_none, h.hsts_ne_application, keptMoment_nonneg _, keptMoment_lt _⟩

/-- The largest lifetime added to the moment is one the store keeps. -/
def Storable (now : Int) : Prop := now + kHstsMax < 1000000000000000

instance (now : Int) : Decidable (Storable now) :=
  inferInstanceAs (Decidable (now + kHstsMax < 1000000000000000))

theorem Storable.sent {now : Int} (h : Storable now) (s : SiteSpec) : now + s.sent < 1000000000000000 := by
  have hle := s.sent_le
  unfold Storable at h
  omega

/-- A change, and the spec it made before that was stored. -/
theorem change_some {c : Call} {spec next : SiteSpec} (hr : Readable spec) (hs : Storable c.now)
    (h : change c spec = some next) :
    ∃ made, next = made.stored ∧ Readable made ∧ judge c.acme made = .ok () ∧
      (c.body.hasKey "hsts" = false ∧ made = applyOthers c.body spec ∨
        c.body.hasKey "hsts" = true ∧ HstsSet spec.sent c.now (applyOthers c.body spec) made) := by
  unfold change at h
  split at h
  · simp at h
  rename_i made hmade
  obtain ⟨hdom, hj, hkind⟩ := applyRequest_ok hmade
  have hshape : Readable made ∧ made.domain = (applyOthers c.body spec).domain ∧
      (c.body.hasKey "hsts" = false ∧ made = applyOthers c.body spec ∨
        c.body.hasKey "hsts" = true ∧
          HstsSet spec.sent c.now (applyOthers c.body spec) made) := by
    obtain ⟨hk, heq⟩ | ⟨hk, happ⟩ := hkind
    · rw [heq]
      exact ⟨hr.others c.body, rfl, .inl ⟨hk, rfl⟩⟩
    have hset := applyHsts_set happ
    exact ⟨hset.readable (hr.others c.body) (hs.sent spec), hset.domain, .inr ⟨hk, hset⟩⟩
  obtain ⟨hread, hd, hkind⟩ := hshape
  have hne : made.domain ≠ [] := by
    rw [hd]
    exact domain_ne_nil hdom
  rw [SiteSpec.fromJson_toJson hne hread.hsts_ne_none hread.hsts_ne_application] at h
  exact ⟨made, (Option.some.inj h).symm, hread, hj, hkind⟩

/-! ## §6. A site's life. -/

/-- The spec has an end of HTTPS, unless it is in the ledger, named by `hsts` too; and the moment
    is one the store keeps. -/
def Kept (c : Call) (spec : SiteSpec) : Prop :=
  Storable c.now ∧
    (c.body.get "https" = bytes "none" → c.body.hasKey "hsts" = false →
      spec.sent = 0 ∨ c.now + spec.sent ≤ spec.hstsHeldUntil)

/-- A moment of a site's life: from when, what was asked then, and what the spec says from then on. -/
structure Moment where
  since : Int
  asked : Value
  spec : SiteSpec

/-- The moments of a site's life, the latest first.  `P` is asked of every change. -/
inductive Life (P : Call → SiteSpec → Prop) : List Moment → Prop
  | created (t : Int) : Life P [⟨t, .null, {}⟩]
  | read (t : Int) (v : Value) (spec : SiteSpec) (h : SiteSpec.fromJson v = some spec) :
      Life P [⟨t, .null, spec⟩]
  | change (c : Call) (m : Moment) (next : SiteSpec) (past : List Moment)
      (hlife : Life P (m :: past)) (hle : m.since ≤ c.now) (hp : P c m.spec)
      (hc : change c m.spec = some next) : Life P (⟨c.now, c.body, next⟩ :: m :: past)

/-- The stretches of a life that are over: when each ended, and the lifetime sent in it. -/
def stretches : List Moment → List (Int × Nat)
  | m :: m' :: past => (m.since, m'.spec.sent) :: stretches (m' :: past)
  | _ => []

/-- The ledger never goes back; and where the spec sends nothing by decision after a `"none"`,
    every lifetime sent in an earlier stretch is over. -/
def HeldBack (m : Moment) (past : List Moment) : Prop :=
  (∀ m' ∈ past, m'.spec.hstsHeldUntil ≤ m.spec.hstsHeldUntil) ∧
    (m.spec.hsts = [] → m.spec.hstsDecided = true → m.spec.hstsApplication = false →
      (∃ m' ∈ m :: past, m'.asked.get "hsts" = bytes "none") →
        ∀ now, m.since ≤ now → ∀ e ∈ stretches (m :: past), 0 < e.2 → e.1 + e.2 ≤ now)

/-- What browsers hold of a stretch is in the ledger, or the lifetime is still being sent; and
    where nothing is sent by decision, it is over. -/
structure Promised (t : Int) (spec : SiteSpec) (e : Int × Nat) : Prop where
  ended : e.1 ≤ t
  held : e.1 + e.2 ≤ spec.hstsHeldUntil ∨ e.2 ≤ spec.sent
  past : spec.silent = true → e.1 + e.2 ≤ t

/-- Behind `hold`, every promise is in the ledger. -/
theorem SiteSpec.covered_hold (s : SiteSpec) {now : Int} {sent : Nat} {e : Int × Nat}
    (hended : e.1 ≤ now) (hpos : 0 < e.2) (hled : e.1 + e.2 ≤ s.hstsHeldUntil ∨ e.2 ≤ sent) :
    e.1 + e.2 ≤ (s.hold now sent).hstsHeldUntil := by
  obtain hin | hsent := hled
  · exact le_trans hin (s.le_hold now sent)
  have hle := @sent_le_hold s now sent (by omega)
  omega

theorem silent_of_hsts_ne {s : SiteSpec} (h : s.hsts ≠ []) : s.silent = false := by
  simp [SiteSpec.silent, h]

/-- A change that names `hsts` takes the lifetime sent until then into the ledger. -/
theorem HstsSet.promised {now t : Int} {spec others made : SiteSpec} {e : Int × Nat}
    (hset : HstsSet spec.sent now others made) (hheld : others.hstsHeldUntil = spec.hstsHeldUntil) (hclear : others.clearing = spec.clearing)
    (hsilent : others.silent = spec.silent) (hle : t ≤ now) (hpos : 0 < e.2)
    (hp : Promised t spec e ∨ e = (now, spec.sent)) :
    e.1 ≤ now ∧ e.1 + e.2 ≤ made.hstsHeldUntil ∧ (made.silent = true → e.1 + e.2 ≤ now) := by
  have hended : e.1 ≤ now := by
    obtain hp | rfl := hp
    · exact le_trans hp.ended hle
    · exact le_refl now
  have hled : e.1 + e.2 ≤ others.hstsHeldUntil ∨ e.2 ≤ spec.sent := by
    obtain hp | rfl := hp
    · rw [hheld]
      exact hp.held
    · exact .inr le_rfl
  refine ⟨hended, ?_⟩
  cases hset with
  | cleared hc hnow =>
    -- while clearing nothing is promised any more
    have hsent : spec.sent = 0 := SiteSpec.sent_of_clearing (hclear ▸ hc)
    have hin : e.1 + e.2 ≤ others.hstsHeldUntil := by omega
    exact ⟨hin, fun _ => by omega⟩
  | silent hs =>
    have hs' : spec.silent = true := hsilent ▸ hs
    have hsent : spec.sent = 0 := SiteSpec.sent_of_silent hs'
    have hin : e.1 + e.2 ≤ others.hstsHeldUntil := by omega
    refine ⟨hin, fun _ => ?_⟩
    obtain hp | rfl := hp
    · exact le_trans (hp.past hs') hle
    · exact absurd hsent (by omega)
  | nothing hs hnow =>
    have hin : e.1 + e.2 ≤ others.hstsHeldUntil := by omega
    exact ⟨hin, fun _ => by omega⟩
  | sending text sub since seconds ht =>
    refine ⟨others.covered_hold hended hpos hled, fun hsil => ?_⟩
    have hne : text ≠ [] := by
      intro heq
      have hnil : hstsDuration [] kControlMax = none := by decide
      simp [heq, hnil] at ht
    have hno : ((others.hold now spec.sent).sending text sub since).silent = false :=
      silent_of_hsts_ne hne
    simp [hno] at hsil
  | application =>
    refine ⟨others.covered_hold hended hpos hled, fun hsil => ?_⟩
    simp [SiteSpec.silent] at hsil

/-- Where HTTPS goes on, so does the lifetime. -/
theorem sent_others {c : Call} {spec : SiteSpec}
    (hj : judge c.acme (applyOthers c.body spec) = .ok ()) (hpos : 0 < spec.sent)
    (hend : c.body.get "https" ≠ bytes "none") : (applyOthers c.body spec).sent = spec.sent := by
  have hover : spec.overHttps = true := by
    by_contra hno
    exact absurd (SiteSpec.sent_of_not_overHttps (by simpa using hno)) (by omega)
  have hspec : spec.https ≠ bytes "none" := by
    have hboth : spec.https ≠ [] ∧ spec.https ≠ bytes "none" := by
      simpa [SiteSpec.overHttps] using hover
    exact hboth.2
  have hne : (applyOthers c.body spec).https ≠ bytes "none" := by
    show (if c.body.hasKey "https" then
        if (c.body.field "https").isObject then bytes "manual" else c.body.get "https"
      else spec.https) ≠ bytes "none"
    split
    · split
      · decide
      · exact hend
    · exact hspec
  have hnext : (applyOthers c.body spec).overHttps = true := by
    obtain ⟨-, hauto | hnone | hmanual⟩ := judge_ok hj
    · rw [SiteSpec.overHttps, hauto]
      decide
    · exact absurd hnone hne
    rw [SiteSpec.overHttps, hmanual]
    decide
  unfold SiteSpec.sent
  rw [hnext, hover]
  rfl

/-- A change that does not name `hsts` leaves the ledger, and what is sent unless HTTPS ends. -/
theorem unnamed_promised {c : Call} {t : Int} {spec : SiteSpec} {e : Int × Nat}
    (hj : judge c.acme (applyOthers c.body spec) = .ok ())
    (hk : c.body.hasKey "hsts" = false) (hkept : Kept c spec) (hle : t ≤ c.now) (hpos : 0 < e.2)
    (hp : Promised t spec e ∨ e = (c.now, spec.sent)) : Promised c.now (applyOthers c.body spec) e := by
  have hsilent : (applyOthers c.body spec).silent = spec.silent := rfl
  obtain ⟨-, hhttps⟩ := judge_ok hj
  have hended : e.1 ≤ c.now := by
    obtain hp | rfl := hp
    · exact le_trans hp.ended hle
    · exact le_refl c.now
  have hled : e.1 + e.2 ≤ spec.hstsHeldUntil ∨ e.2 ≤ spec.sent := by
    obtain hp | rfl := hp
    · exact hp.held
    · exact .inr le_rfl
  refine ⟨hended, ?_, fun hsil => ?_⟩
  · show e.1 + e.2 ≤ spec.hstsHeldUntil ∨ e.2 ≤ (applyOthers c.body spec).sent
    obtain hin | hsent := hled
    · exact .inl hin
    by_cases hend : c.body.get "https" = bytes "none"
    · obtain h0 | hin := hkept.2 hend hk
      · exact absurd h0 (by omega)
      · exact .inl (by omega)
    · -- HTTPS before and after: the same lifetime
      exact .inr (by rw [sent_others hj (by omega) hend]; exact hsent)
  · obtain hp | rfl := hp
    · exact le_trans (hp.past (hsilent ▸ hsil)) hle
    have h0 : spec.sent = 0 := SiteSpec.sent_of_silent (hsilent ▸ hsil)
    simp [h0] at hpos

theorem Promised.stored {t : Int} {spec : SiteSpec} {e : Int × Nat} (hr : Readable spec)
    (hu : spec.hstsUnnamed = false) (h : Promised t spec e) : Promised t spec.stored e := by
  refine ⟨h.ended, ?_, ?_⟩
  · rw [hr.stored_heldUntil, SiteSpec.stored_sent hu]
    exact h.held
  · rw [SiteSpec.stored_silent hu]
    exact h.past

/-- One change: the ledger does not go back, and every promise is kept up. -/
theorem change_promised {c : Call} {t : Int} {spec next : SiteSpec} (hr : Readable spec)
    (hkept : Kept c spec) (hle : t ≤ c.now) (h : change c spec = some next) :
    Readable next ∧ next.hstsUnnamed = false ∧ spec.hstsHeldUntil ≤ next.hstsHeldUntil ∧
      ∀ e : Int × Nat, 0 < e.2 → Promised t spec e ∨ e = (c.now, spec.sent) → Promised c.now next e := by
  obtain ⟨made, rfl, hread, hj, hkind⟩ := change_some hr hkept.1 h
  have hu : made.hstsUnnamed = false := (judge_ok hj).1
  refine ⟨hread.stored, rfl, ?_, fun e hpos hp => Promised.stored hread hu ?_⟩
  · rw [hread.stored_heldUntil]
    obtain ⟨-, rfl⟩ | ⟨-, hset⟩ := hkind
    · exact le_refl _
    cases hset with
    | cleared => exact le_refl _
    | silent => exact le_refl _
    | nothing => exact le_refl _
    | sending text sub since seconds ht =>
      exact (applyOthers c.body spec).le_hold c.now spec.sent
    | application => exact (applyOthers c.body spec).le_hold c.now spec.sent
  · obtain ⟨hk, rfl⟩ | ⟨hk, hset⟩ := hkind
    · exact unnamed_promised hj hk hkept hle hpos hp
    obtain ⟨hended, hin, hover⟩ := hset.promised rfl rfl rfl hle hpos hp
    exact ⟨hended, .inl hin, hover⟩

/-- What holds along a life whose every end of HTTPS is in the ledger. -/
structure Sound (m : Moment) (past : List Moment) : Prop where
  readable : Readable m.spec
  named : past ≠ [] → m.spec.hstsUnnamed = false
  grown : ∀ m' ∈ past, m'.spec.hstsHeldUntil ≤ m.spec.hstsHeldUntil
  promised : ∀ e ∈ stretches (m :: past), 0 < e.2 → Promised m.since m.spec e

/-- The first moment has nothing behind it. -/
theorem Sound.start {m : Moment} (h : Readable m.spec) : Sound m [] :=
  ⟨h, fun hne => absurd rfl hne, by simp, by simp [stretches]⟩

theorem Sound.change {c : Call} {m : Moment} {next : SiteSpec} {past : List Moment}
    (hs : Sound m past) (hle : m.since ≤ c.now) (hp : Kept c m.spec)
    (hc : change c m.spec = some next) : Sound ⟨c.now, c.body, next⟩ (m :: past) := by
  obtain ⟨hread, hu, hgrow, hall⟩ := change_promised hs.readable hp hle hc
  refine ⟨hread, fun _ => hu, ?_, ?_⟩
  · intro m' hm
    obtain rfl | hm := List.mem_cons.mp hm
    · exact hgrow
    · exact le_trans (hs.grown m' hm) hgrow
  · intro e he hpos
    obtain rfl | he := List.mem_cons.mp he
    · exact hall _ hpos (.inr rfl)
    · exact hall e hpos (.inl (hs.promised e he hpos))

theorem Life.sound {moments : List Moment} (h : Life Kept moments) :
    ∃ m past, moments = m :: past ∧ Sound m past := by
  induction h with
  | created t => exact ⟨_, _, rfl, Sound.start Readable.fresh⟩
  | read t v spec hv => exact ⟨_, _, rfl, Sound.start (fromJson_readable hv)⟩
  | change c m next past _ hle hp hc ih =>
    obtain ⟨m', past', heq, hs⟩ := ih
    obtain ⟨rfl, rfl⟩ := List.cons.inj heq
    exact ⟨_, _, rfl, hs.change hle hp hc⟩

/-- **Silence waits.**  Where every request that ends HTTPS names `hsts`, or finds what it ends in
    the ledger, the ledger never goes back, and at every moment at which the spec sends nothing by
    decision every lifetime that was sent over HTTPS is over. -/
theorem silence_waits {m : Moment} {past : List Moment} (h : Life Kept (m :: past)) : HeldBack m past := by
  obtain ⟨m', past', heq, hs⟩ := h.sound
  obtain ⟨rfl, rfl⟩ := List.cons.inj heq
  refine ⟨hs.grown, fun hempty hdec happ _ now hnow e he hpos => ?_⟩
  cases past with
  | nil => simp [stretches] at he
  | cons before past =>
    have hu : m.spec.hstsUnnamed = false := hs.named (by simp)
    have hsil : m.spec.silent = true := by simp [SiteSpec.silent, hempty, hdec, happ, hu]
    exact le_trans ((hs.promised e he hpos).past hsil) hnow

/-- A request of these members that meets nothing else. -/
def asks (now : Int) (members : List (String × Value)) : Call :=
  { body := .object members, now, acme := true, others := .ok () }

/-- What a change leaves. -/
def after (c : Call) (spec : SiteSpec) : Moment := ⟨c.now, c.body, spec⟩

/-- A site made with HTTPS and a year of HSTS. -/
def yearOfHsts : Call :=
  asks 100 [("domain", .text (bytes "example.com")), ("https", .text (bytes "auto")),
    ("hsts", .text (bytes "1y"))]

def onYear : SiteSpec :=
  { domain := bytes "example.com", https := bytes "auto", hsts := bytes "1y", hstsDecided := true,
    hstsSince := 100 }

def sayNone (now : Int) : Call := asks now [("hsts", .text (bytes "none"))]

def endHttps (now : Int) : Call := asks now [("https", .text (bytes "none"))]

/-- The first two moments of the lives below. -/
def madeWithYear : List Moment := [after yearOfHsts onYear, ⟨0, .null, {}⟩]

theorem life_madeWithYear {P : Call → SiteSpec → Prop} (h : P yearOfHsts {}) : Life P madeWithYear :=
  Life.change yearOfHsts ⟨0, .null, {}⟩ onYear [] (Life.created 0) (by decide) h rfl

/-- `max-age=0` until the year is over, -/
def clearingYear : SiteSpec :=
  { onYear with hsts := bytes "0", hstsHeldUntil := 200 + 31536000, hstsSince := 0 }

/-- and nothing after it. -/
def silentYear : SiteSpec := { clearingYear with hsts := [] }

theorem silence_waits_year : HeldBack (after (sayNone 40000000) silentYear)
      (after (sayNone 200) clearingYear :: madeWithYear) := by
  have hmade : Life Kept madeWithYear :=
    life_madeWithYear ⟨by decide, nofun⟩
  have hclear : Life Kept (after (sayNone 200) clearingYear :: madeWithYear) :=
    Life.change (sayNone 200) _ clearingYear _ hmade (by decide)
      ⟨by decide, nofun⟩ rfl
  have hoff : Life Kept (after (sayNone 40000000) silentYear ::
      after (sayNone 200) clearingYear :: madeWithYear) :=
    Life.change (sayNone 40000000) _ silentYear _ hclear (by decide)
      ⟨by decide, nofun⟩ rfl
  exact silence_waits hoff

/-- HTTPS ended first, and `hsts` after it: nothing was in the ledger, and the year is forgotten
    while browsers hold it. -/
def plainYear : SiteSpec := { onYear with https := bytes "none" }

def forgottenYear : SiteSpec := { plainYear with hsts := [], hstsSince := 0 }

theorem https_ended_first_forgets :
    ¬ ∀ (m : Moment) (past : List Moment), Life (fun _ _ => True) (m :: past) → HeldBack m past := by
  intro hall
  have hmade : Life (fun _ _ => True) madeWithYear := life_madeWithYear trivial
  have hplain : Life (fun _ _ => True) (after (endHttps 200) plainYear :: madeWithYear) :=
    Life.change (endHttps 200) _ plainYear _ hmade (by decide) trivial rfl
  have hoff : Life (fun _ _ => True) (after (sayNone 300) forgottenYear ::
      after (endHttps 200) plainYear :: madeWithYear) :=
    Life.change (sayNone 300) _ forgottenYear _ hplain (by decide) trivial rfl
  have hover := (hall _ _ hoff).2 rfl rfl rfl ⟨_, .head _, by decide⟩ 300 (by decide)
    (200, 31536000) (by decide) (by decide)
  cases hover

end Agensio.Control.Hsts
