/-
  Agensio.Dispatch.Dispatcher — a worker routing its requests.

  Model of `Dispatcher::route` and `serve_static` (`handlers/dispatch.cpp`),
  of the lookups of the static handler they go through (`handlers/static.cpp`)
  and of the connections' `dispatch` loop around them.  A request is at a
  stage of that loop; one step of the worker is one round of it: the path is
  judged by `refuse`, the access rules and the password rule, and goes to a
  location, or the static handler answers it, or sends it on to another path.

  What the file system shows is part of a step, so it may change between any
  two.  Completed verifications come back in any order, and whatever else
  the worker does (other requests, the clock, the file cache giving entries
  up) happens between them.

  Main results:
    * `serveLocation_serves` — how a static location answers, and what an
      index served in its directory's place has passed.
-/
import Agensio.Http.Redirect
import Agensio.Lib.Assoc
import Agensio.Dispatch.Access
import Agensio.Dispatch.Auth

namespace Agensio.Dispatch

open Agensio.Http (slash normalizeTarget)
open Agensio.Http.Redirect (queryOf)

/-! ## §1. The file system, and the answers. -/

inductive FileKind
  | regular
  | directory
  | other
  deriving DecidableEq

/-- What the file system shows during one step. -/
structure Disk where
  -- `File::open` and the opened file's `info`
  opened : Bytes → Option FileKind := fun _ => none
  stat : Bytes → Option FileKind := fun _ => none
  -- `path_within_root` of the location's root or alias
  within : Bytes → Bool := fun _ => true
  -- the opened file can be read
  readable : Bytes → Bool := fun _ => true

def Disk.isFile (d : Disk) (p : Bytes) : Bool := d.stat p = some .regular

/-- An answer made without a file or an application. -/
inductive Answer
  | error (status : Nat)
  -- the page of a password rule: 401, 403 or 503
  | auth (status : Nat)
  | redirect
  | noContent
  | acme
  deriving DecidableEq

/-! ## §2. The static handler's lookups. -/

/-- What the file cache answers for a path. -/
inductive Lookup
  -- the path's own file, or the index of that name
  | found (name : Option Bytes)
  | responded (a : Answer)
  | redirect (path : Bytes)
  deriving DecidableEq

namespace Site

variable (site : Site)

/-- `refuse::decide`. -/
def refuseDecide (path : Bytes) : Bool := site.refuse path || (otherReadings path).any site.refuse

/-- `refused_request`: a GET for `path` by name would be refused. -/
def refusedRequest (owner : Location) (path : Bytes) : Bool :=
  site.refuse path ||
    if owner.kind = .static_ then owner.deny || owner.refusedByName path
    else owner.refusedSuffix path

/-- The index at `own` is routed again: another location's, or under another rule than `path`. -/
def reroutes (loc : Location) (path own : Bytes) : Bool :=
  (site.location own).id ≠ loc.id || site.ruleFor own ≠ site.ruleFor path ||
    site.authRuleFor own ≠ site.authRuleFor path

/-- `index_lookup`; `none` when the directory has no index. -/
def indexLookup (loc : Location) (disk : Disk) (path : Bytes) : List Bytes → Option Lookup
  | [] => none
  | name :: rest =>
    if disk.opened (fsPathOf loc path ++ name) ≠ some .regular then indexLookup loc disk path rest
    else if site.refusedRequest (site.location (path ++ name)) (path ++ name) then
      indexLookup loc disk path rest
    else if site.reroutes loc path (path ++ name) then some (.redirect (path ++ name))
    else some (.found (some name))

/-- `plain_lookup`. -/
def plainLookup (loc : Location) (disk : Disk) (path : Bytes) : Lookup :=
  if path.getLast? = some slash then
    match site.indexLookup loc disk path loc.index with
    | some r => r
    | none =>
      .responded (.error (if disk.stat (fsPathOf loc path) = some .directory then 403 else 404))
  else
    match disk.opened (fsPathOf loc path) with
    | some .regular => .found none
    | some .directory => .responded .redirect
    | _ => .responded (.error 404)

/-- `try_files_lookup`. -/
def tryFilesLookup (loc : Location) (disk : Disk) (path : Bytes) : List TryStep → Lookup
  | [] => .responded (.error 404)
  | .uri :: rest =>
    if path.getLast? ≠ some slash && disk.opened (fsPathOf loc path) = some .regular then .found none
    else tryFilesLookup loc disk path rest
  | .uriDir :: rest =>
    if path.getLast? = some slash then
      match site.indexLookup loc disk path loc.index with
      | some r => r
      | none => tryFilesLookup loc disk path rest
    else if disk.stat (fsPathOf loc path) = some .directory then .responded .redirect
    else tryFilesLookup loc disk path rest
  | .status code :: _ => .responded (.error code)
  | .fallback target :: _ => .redirect target

def lookupFile (loc : Location) (disk : Disk) (path : Bytes) : Lookup :=
  if loc.tryFiles = [] then site.plainLookup loc disk path
  else site.tryFilesLookup loc disk path loc.tryFiles

end Site

/-- An entry of the file cache; `name` is the index it was found under. -/
structure CachedFile where
  id : Nat
  path : Bytes
  name : Option Bytes
  deriving DecidableEq

/-- What `serve_location` comes to. -/
inductive Served
  | done (a : Answer)
  | file (name : Option Bytes)
  | redirect (path : Bytes)
  deriving DecidableEq

namespace Site

variable (site : Site)

/-- The file system path of what a lookup found. -/
def fileOf (loc : Location) (path : Bytes) (name : Option Bytes) : Bytes :=
  fsPathOf loc path ++ name.getD []

/-- A method the location does not serve: only another location can take it. -/
def serveOther (loc : Location) (disk : Disk) (path : Bytes) : Served :=
  if loc.tryFiles = [] then
    match site.indexLookup loc disk path loc.index with
    | some (.redirect p) => .redirect p
    | _ => .done (.error 405)
  else
    match site.tryFilesLookup loc disk path loc.tryFiles with
    | .redirect p => .redirect p
    | .found _ => .done (.error 405)
    | .responded a => .done a

/-- The file looked up on disk. -/
def serveMiss (loc : Location) (disk : Disk) (path : Bytes) : Served :=
  match site.lookupFile loc disk path with
  | .responded a => .done a
  | .redirect p => .redirect p
  | .found name =>
    if loc.symlinksDeny && !disk.within (fileOf loc path name) then .done (.error 404)
    else if !disk.readable (fileOf loc path name) then .done (.error 500)
    else .file name

/-- `serve_location`. -/
def serveLocation (files : List CachedFile) (loc : Location) (disk : Disk) (path : Bytes)
    (allowed : Bool) : Served :=
  if loc.root = [] && loc.aliasDir = [] then .done (.error 404)
  else if loc.refusedByName path then .done (.error 404)
  else if !allowed then site.serveOther loc disk path
  else
    match files.find? fun e => e.id = loc.id && e.path = path with
    | some e => .file e.name
    | none => site.serveMiss loc disk path

/-- `check_method`: `none` is the 405, else whether the location itself serves the method. -/
def checkMethod (loc : Location) (m : Method) (path : Bytes) : Option Bool :=
  let applicationMethod := m = .post || m = .put || m = .del || m = .patch
  let hasFallback := loc.tryFiles.any fun t => match t with
    | .fallback _ => true
    | _ => false
  if loc.methods m then some true
  else if loc.kind = .static_ && applicationMethod && hasFallback then some false
  else if loc.kind = .static_ && applicationMethod && path.getLast? = some slash then some false
  else none

end Site

/-! ## §3. What the lookups answer. -/

/-- What an index served in its directory's place has passed: it is refused by no pattern, and
    the rules that decide its path decide the directory's. -/
structure Site.Chosen (site : Site) (path name : Bytes) : Prop where
  unrefused : site.refuse (path ++ name) = false
  access : site.ruleFor (path ++ name) = site.ruleFor path
  auth : site.authRuleFor (path ++ name) = site.authRuleFor path

/-- The outcomes of a lookup: `pages` is what it may answer with, `site.Chosen` what an index
    found has passed. -/
inductive Site.Looked (site : Site) (loc : Location) (path : Bytes) : Lookup → Prop
  | redirect (p : Bytes) : Looked site loc path (.redirect p)
  | page {a : Answer} (h : ∀ s, a ≠ .auth s) : Looked site loc path (.responded a)
  | file : Looked site loc path (.found none)
  | index {name : Bytes} (hn : name ∈ loc.index) (h : site.Chosen path name) :
    Looked site loc path (.found (some name))

namespace Site

variable {site : Site} {loc : Location} {disk : Disk} {path : Bytes}

theorem indexLookup_looked {names : List Bytes} (hsub : ∀ n ∈ names, n ∈ loc.index) {r : Lookup}
    (h : site.indexLookup loc disk path names = some r) : site.Looked loc path r := by
  induction names with
  | nil => cases h
  | cons name names ih =>
    have ih' := ih fun n hn => hsub n (.tail _ hn)
    unfold indexLookup at h
    split at h
    · exact ih' h
    split at h
    · exact ih' h
    split at h
    · cases h
      exact .redirect _
    next hrefuse hroute =>
    cases h
    have hr : site.refuse (path ++ name) = false := by
      rw [refusedRequest, Bool.or_eq_true, not_or] at hrefuse
      simpa using hrefuse.1
    simp only [reroutes, ne_eq, decide_not, Bool.or_eq_true, Bool.not_eq_true', decide_eq_false_iff_not,
      not_or, not_not] at hroute
    exact .index (hsub name (.head _)) ⟨hr, hroute.1.2, hroute.2⟩

theorem plainLookup_looked : site.Looked loc path (site.plainLookup loc disk path) := by
  unfold plainLookup
  split
  · split
    · next hr => exact indexLookup_looked (fun _ hn => hn) hr
    · exact .page (by simp)
  · split
    · exact .file
    · exact .page (by simp)
    · exact .page (by simp)

theorem tryFilesLookup_looked (steps : List TryStep) :
    site.Looked loc path (site.tryFilesLookup loc disk path steps) := by
  induction steps with
  | nil => exact .page (by simp)
  | cons t steps ih =>
    cases t with
    | uri =>
      unfold tryFilesLookup
      split
      · exact .file
      · exact ih
    | uriDir =>
      unfold tryFilesLookup
      split
      · split
        · next hr => exact indexLookup_looked (fun _ hn => hn) hr
        · exact ih
      · split
        · exact .page (by simp)
        · exact ih
    | fallback target => exact .redirect target
    | status code => exact .page (by simp)

/-- The outcomes of `serve_location`: a file comes from a lookup or from the cache. -/
inductive Serves (site : Site) (files : List CachedFile) (loc : Location) (path : Bytes) :
    Served → Prop
  | done {a : Answer} (h : ∀ s, a ≠ .auth s) : Serves site files loc path (.done a)
  | redirect (p : Bytes) : Serves site files loc path (.redirect p)
  | cached {e : CachedFile} (he : e ∈ files) (hid : e.id = loc.id) (hp : e.path = path) :
    Serves site files loc path (.file e.name)
  | looked {name : Option Bytes} (h : site.Looked loc path (.found name)) :
    Serves site files loc path (.file name)

variable (files : List CachedFile)

theorem serveOther_serves : site.Serves files loc path (site.serveOther loc disk path) := by
  unfold serveOther
  split
  · split
    · exact .redirect _
    · exact .done (by simp)
  · have h := (tryFilesLookup_looked loc.tryFiles : site.Looked loc path (site.tryFilesLookup loc disk path _))
    split
    · exact .redirect _
    · exact .done (by simp)
    next hr =>
    rw [hr] at h
    cases h with
    | page ha => exact .done ha

theorem serveMiss_serves : site.Serves files loc path (site.serveMiss loc disk path) := by
  have h : site.Looked loc path (site.lookupFile loc disk path) := by
    unfold lookupFile
    split
    · exact plainLookup_looked
    · exact tryFilesLookup_looked _
  unfold serveMiss
  split
  · next hr =>
    rw [hr] at h
    cases h with
    | page ha => exact .done ha
  · exact .redirect _
  · next hr =>
    rw [hr] at h
    split
    · exact .done (by simp)
    split
    · exact .done (by simp)
    · exact .looked h

/-- **How a static location answers.** -/
theorem serveLocation_serves (allowed : Bool) :
    site.Serves files loc path (site.serveLocation files loc disk path allowed) := by
  unfold serveLocation
  split
  · exact .done (by simp)
  split
  · exact .done (by simp)
  split
  · exact serveOther_serves files
  split
  · next e he =>
    have hkey := List.find?_some he
    rw [Bool.and_eq_true, decide_eq_true_eq, decide_eq_true_eq] at hkey
    exact .cached (List.mem_of_find?_eq_some he) hkey.1 hkey.2
  · exact serveMiss_serves files

end Site

/-! ## §4. Requests and the worker. -/

/-- Where a request is in the connection's `dispatch` loop. -/
inductive Stage
  | routing
  | located (loc : Location) (path : Bytes) (hops : Nat) (allowed : Bool)
  | verifying
  | answered (a : Answer)
  | handed (loc : Location) (path : Bytes)
  | served (path : Bytes) (name : Option Bytes)

/-- One password check of a request: `skipped` when `skip_for` let the client in unasked. -/
structure Check where
  rule : AuthRule
  skipped : Bool
  allowed : Bool

/-- What a client asks for; the site is the one `Router::site` finds for its Host. -/
structure Arrival where
  conn : Nat
  site : Option Nat
  unauthoritative : Bool := false
  http11 : Bool := true
  host : Bytes
  method : Method := .get
  target : Bytes
  origin : Bytes := []
  requestMethod : Bytes := []
  client : Client
  authorization : Bytes

/-- A request.  `asked`, `log` and `seen` are history: the load the pool was asked about, every
    check so far, the last first, and the file system its path was last judged on. -/
structure Req extends Arrival where
  ask : Asking
  stage : Stage := .routing
  since : Nat
  asked : Option Nat := none
  log : List Check := []
  seen : Disk := {}

/-- A worker: its clocks, caches, verifications under way and requests. -/
structure Worker (K : Crypto) where
  -- `std::time`, and the time of the worker's last read
  clock : Nat
  now : Nat
  cache : Cache K := {}
  memos : Nat → AuthMemo := fun _ => {}
  -- the verifications under way, by request
  jobs : List (Nat × Job K) := []
  files : List CachedFile := []
  next : Nat := 0
  reqs : Nat → Option Req := fun _ => none

/-- The locations a site's requests can be at. -/
def Site.served (site : Site) : List Location :=
  if site.httpRedirect then site.validation :: site.locations else site.locations

/-- The configuration and what is outside the source; a location's id is its own. -/
structure Server (K : Crypto) where
  sites : List Site
  load : Nat → UserFile
  verifier : Bool := true
  -- the ACME store holds this token
  acme : Bytes → Bool := fun _ => false
  ids : ∀ (i j : Nat) (s t : Site), sites[i]? = some s → sites[j]? = some t →
    ∀ l ∈ s.served, ∀ m ∈ t.served, l.id = m.id → i = j

/-! ## §5. The guards. -/

def certificateValidation (path : Bytes) : Bool :=
  (bytes "/.well-known/acme-challenge/").isPrefixOf path ||
    (bytes "/.well-known/pki-validation/").isPrefixOf path

namespace Arrival

def corsPreflight (q : Arrival) : Bool := q.method = .options && q.origin ≠ [] && q.requestMethod ≠ []

def plain (q : Arrival) : Bool := !q.client.tls && !q.client.forwardedHttps

end Arrival

section Step

variable {K : Crypto} (srv : Server K)

/-- What `check_auth` made of the request: it goes on, or the round ends here. -/
structure Round (K : Crypto) where
  worker : Worker K
  req : Req
  stop : Option Stage

/-- A rule's check, with what it leaves on the request, the connection and the worker. -/
def askRule (w : Worker K) (i : Nat) (q : Req) (rule : AuthRule) : Round K :=
  let r := checkAuth srv.load srv.verifier w.now w.cache w.jobs.length (w.memos q.conn) q.ask rule
  let skipped := rule.skips q.ask.client
  let w := { w with memos := Function.update w.memos q.conn r.2.2 }
  let q := { q with ask := r.2.1 }
  match r.1 with
  | .allowed => ⟨w, { q with log := ⟨rule, skipped, true⟩ :: q.log }, none⟩
  | .answered status =>
    ⟨w, { q with log := ⟨rule, skipped, false⟩ :: q.log }, some (.answered (.auth status))⟩
  | .pending job =>
    ⟨{ w with jobs := (i, job) :: w.jobs },
      { q with log := ⟨rule, skipped, false⟩ :: q.log, asked := some rule.users }, some .verifying⟩

/-- The password rule of `path`, if one protects it. -/
def guardAuth (w : Worker K) (i : Nat) (q : Req) (site : Site) (disk : Disk) (path : Bytes) :
    Round K :=
  match site.authProtectingRule disk.isFile path with
  | none => ⟨w, q, none⟩
  | some rule => askRule srv w i q rule

/-- The round's last word on the request. -/
def Round.finish (r : Round K) (i : Nat) (go : Stage) : Worker K :=
  { r.worker with
    reqs := Function.update r.worker.reqs i (some { r.req with stage := r.stop.getD go }) }

/-- A location takes the request: the static handler is asked in the next round. -/
def enter (loc : Location) (path : Bytes) (hops : Nat) (allowed : Bool) : Stage :=
  if loc.kind = .static_ then .located loc path hops allowed else .handed loc path

/-- The end of `route`, once every rule let the request through. -/
def routeTo (q : Arrival) (site : Site) (path : Bytes) (encoded : Bool) : Stage :=
  let loc := if site.httpRedirect && q.plain then site.validation else site.location path
  if encoded && loc.kind ≠ .proxy && !site.encodedSlashesAllow then .answered (.error 404)
  else
    match Site.checkMethod loc q.method path with
    | none => .answered (.error 405)
    | some allowed =>
      if loc.kind ≠ .static_ && loc.refusedSuffix path then .answered (.error 404)
      else if q.method = .options && loc.kind = .static_ then .answered .noContent
      else enter loc path 0 allowed

/-- An answer `route` gives a path of the site before the password rules. -/
def routeEarly (q : Arrival) (site : Site) (disk : Disk) (path : Bytes) (encoded : Bool) :
    Option Answer :=
  let validating := q.plain && certificateValidation path
  if site.httpRedirect && q.plain && !validating then some .redirect
  else if !(site.httpRedirect && q.plain) && site.canonicalRedirect && !validating &&
      site.redirectHost q.host then some .redirect
  else if site.refuseDecide path then some (.error 404)
  else if !validating && site.redirect path (queryOf q.target) encoded then some .redirect
  else if (site.decide disk.isFile q.client.address path).refuse then some (.error 403)
  else none

/-- The CORS preflight that is answered without the password. -/
def skipsAuth (q : Arrival) (site : Site) (path : Bytes) : Bool :=
  q.corsPreflight && (site.location path).kind = .static_

/-- The path of the request's target on its site, or the answer without one. -/
def routePath (q : Arrival) : Except Answer (Site × Bytes × Bool) :=
  if q.http11 && q.host = [] then .error (.error 400)
  else if q.method = .options && q.target = bytes "*" then
    if q.site.isNone || q.unauthoritative then .error (.error 421) else .error .noContent
  else
    match normalizeTarget q.target with
    | none => .error (.error 400)
    | some (path, encoded) =>
      if (bytes "/.well-known/acme-challenge/").isPrefixOf path &&
          srv.acme (path.drop (bytes "/.well-known/acme-challenge/").length) then .error .acme
      else
        match q.site.bind fun k => srv.sites[k]? with
        | none => .error (.error 421)
        | some site => if q.unauthoritative then .error (.error 421) else .ok (site, path, encoded)

/-- `Dispatcher::route`. -/
def route (w : Worker K) (i : Nat) (q₀ : Req) (disk : Disk) : Worker K :=
  let q := { q₀ with seen := disk }
  match routePath srv q.toArrival with
  | .error a => Round.finish ⟨w, q, none⟩ i (.answered a)
  | .ok (site, path, encoded) =>
    match routeEarly q.toArrival site disk path encoded with
    | some a => Round.finish ⟨w, q, none⟩ i (.answered a)
    | none =>
      if skipsAuth q.toArrival site path then
        Round.finish ⟨w, q, none⟩ i (routeTo q.toArrival site path encoded)
      else (guardAuth srv w i q site disk path).finish i (routeTo q.toArrival site path encoded)

def maxInternalRedirects : Nat := 8

/-- An answer `serve_static` gives the path it is sent on to before the password rule. -/
def hopEarly (q : Arrival) (site : Site) (disk : Disk) (path : Bytes) (hops : Nat) : Option Answer :=
  if maxInternalRedirects < hops then some (.error 500)
  else if site.refuseDecide path then some (.error 404)
  else if (site.decide disk.isFile q.client.address path).refuse then some (.error 403)
  else none

/-- The end of `serve_static`. -/
def hopTo (q : Arrival) (site : Site) (path : Bytes) (hops : Nat) : Stage :=
  match Site.checkMethod (site.location path) q.method path with
  | none => .answered (.error 405)
  | some allowed => enter (site.location path) path hops allowed

/-- `Dispatcher::serve_static`; `keep` when a file just read goes to the cache. -/
def serveStatic (w : Worker K) (i : Nat) (q : Req) (site : Site) (loc : Location) (path : Bytes)
    (hops : Nat) (allowed : Bool) (disk : Disk) (keep : Bool) : Worker K :=
  match site.serveLocation w.files loc disk path allowed with
  | .done a => Round.finish ⟨w, q, none⟩ i (.answered a)
  | .file name =>
    let files := if keep then ⟨loc.id, path, name⟩ :: w.files else w.files
    Round.finish ⟨{ w with files := files }, q, none⟩ i (.served path name)
  | .redirect path' =>
    let q := { q with seen := disk }
    match hopEarly q.toArrival site disk path' (hops + 1) with
    | some a => Round.finish ⟨w, q, none⟩ i (.answered a)
    | none =>
      (guardAuth srv w i q site disk path').finish i (hopTo q.toArrival site path' (hops + 1))

/-- The path the request's next round brings before the password rules. -/
def pathAhead (w : Worker K) (q : Req) (disk : Disk) : Option (Site × Bytes) :=
  match q.stage with
  | .routing =>
    match routePath srv q.toArrival with
    | .error _ => none
    | .ok (site, path, encoded) =>
      if (routeEarly q.toArrival site disk path encoded).isSome || skipsAuth q.toArrival site path then
        none
      else some (site, path)
  | .located loc path hops allowed =>
    match q.site.bind fun k => srv.sites[k]? with
    | none => none
    | some site =>
      match site.serveLocation w.files loc disk path allowed with
      | .redirect path' =>
        if (hopEarly q.toArrival site disk path' (hops + 1)).isSome then none else some (site, path')
      | _ => none
  | _ => none

variable {srv} in
theorem pathAhead_route {w : Worker K} {q : Req} {disk : Disk} {site : Site} {path : Bytes}
    {encoded : Bool} (hstage : q.stage = .routing)
    (hpath : routePath srv q.toArrival = .ok (site, path, encoded))
    (hearly : routeEarly q.toArrival site disk path encoded = none)
    (hskip : skipsAuth q.toArrival site path = false) : pathAhead srv w q disk = some (site, path) := by
  unfold pathAhead
  rw [hstage]
  dsimp only
  rw [hpath]
  dsimp only
  rw [hearly, hskip]
  rfl

variable {srv} in
theorem pathAhead_serve {w : Worker K} {q : Req} {disk : Disk} {site : Site} {loc : Location}
    {path path' : Bytes} {hops : Nat} {allowed : Bool} (hstage : q.stage = .located loc path hops allowed)
    (hsite : (q.site.bind fun k => srv.sites[k]?) = some site)
    (hserve : site.serveLocation w.files loc disk path allowed = .redirect path')
    (hearly : hopEarly q.toArrival site disk path' (hops + 1) = none) :
    pathAhead srv w q disk = some (site, path') := by
  unfold pathAhead
  rw [hstage]
  dsimp only
  rw [hsite]
  dsimp only
  rw [hserve]
  dsimp only
  rw [hearly]
  rfl

/-! ## §6. The worker's steps. -/

/-- What may happen next in a worker. -/
inductive Label
  | tick
  | read
  | arrive (q : Arrival)
  | route (i : Nat) (disk : Disk)
  | serve (i : Nat) (disk : Disk) (keep : Bool)
  -- the pool compared the password of request `i`
  | finish (i : Nat)
  -- the pool's queue was full
  | full (i : Nat)
  | close (i : Nat)
  -- the file cache gives the entries of one key up
  | evict (id : Nat) (path : Bytes)

/-- A completion runs `dispatch` again, unless the request is gone. -/
def resume (w : Worker K) (i : Nat) (r : AuthResult) : Worker K :=
  match w.reqs i with
  | none => w
  | some q =>
    { w with reqs := Function.update w.reqs i (some { q with
        ask := { q.ask with auth := { q.ask.auth with result := r } }
        stage := .routing }) }

/-- One step of a worker; `none` where it cannot happen. -/
def step (w : Worker K) : Label → Option (Worker K)
  | .tick => some { w with clock := w.clock + 1 }
  | .read => some { w with now := w.clock }
  | .arrive a =>
    some { w with
      now := w.clock
      next := w.next + 1
      reqs := Function.update w.reqs w.next (some { a with
        ask := { client := a.client, authorization := a.authorization }
        since := w.clock }) }
  | .route i disk =>
    match w.reqs i with
    | none => none
    | some q =>
      match q.stage with
      | .routing => some (route srv w i q disk)
      | _ => none
  | .serve i disk keep =>
    match w.reqs i with
    | none => none
    | some q =>
      match q.stage, q.site.bind fun k => srv.sites[k]? with
      | .located loc path hops allowed, some site =>
        some (serveStatic srv w i q site loc path hops allowed disk keep)
      | _, _ => none
  | .finish i =>
    match w.jobs.lookup i with
    | none => none
    | some job =>
      let r := finishJob w.cache w.clock job
      some (resume { w with jobs := Lib.dropAt w.jobs i, cache := r.2 } i r.1)
  | .full i =>
    match w.jobs.lookup i with
    | none => none
    | some _ => some (resume { w with jobs := Lib.dropAt w.jobs i } i .busy)
  | .close i => some { w with reqs := Function.update w.reqs i none }
  | .evict id path => some { w with files := w.files.filter fun e => !(e.id = id && e.path = path) }

/-- A worker at start. -/
def Worker.start (K : Crypto) (t : Nat) : Worker K := { clock := t, now := t }

end Step

end Agensio.Dispatch
