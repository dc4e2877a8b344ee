/-
  Agensio.Dispatch.Site — a site as the loader leaves it.

  The parts of `SiteConfig`, `LocationConfig`, `AccessRule` and `AuthRule`
  (`config.hpp`) that decide who may reach a path and which handler gets it,
  and the two lookups every judgement starts with: `Router::location`
  (`core/router.hpp`) and the script a handler cuts out of a path
  (`core/script_split.hpp`).

  A pattern set (`refuse`), the redirect rules and the names a location
  refuses are kept as the predicates they decide: nothing below looks
  inside them, so every result holds whatever they say.
-/
import Agensio.Http.Path

namespace Agensio.Dispatch

open Agensio.Http (slash)

/-! ## §1. Addresses. -/

/-- A client's address as entries are compared with it (`Cidr::Key`). -/
structure Address where
  v6 : Bool
  hi : UInt64
  lo : UInt64
  deriving DecidableEq

/-- A range, masked once at load (`Cidr::finish`). -/
structure Cidr where
  v6 : Bool
  netHi : UInt64
  netLo : UInt64
  maskHi : UInt64
  maskLo : UInt64
  deriving DecidableEq

def Cidr.matches (c : Cidr) (k : Address) : Bool :=
  k.v6 = c.v6 && (k.hi &&& c.maskHi) = c.netHi && (k.lo &&& c.maskLo) = c.netLo

def inAny (entries : List Cidr) (a : Address) : Bool := entries.any (·.matches a)

/-! ## §2. Rules. -/

/-- Where a rule applies; `check_access_path` refuses a path without its slash. -/
structure RulePath where
  path : Bytes
  isExact : Bool := false
  rooted : path.head? = some slash
  deriving DecidableEq

/-- A rule on the addresses that may ask for a path. -/
structure AccessRule extends RulePath where
  any : Bool := false
  -- logs who would be refused, refuses nobody
  report : Bool := false
  allow : List Cidr := []
  deriving DecidableEq

/-- What is done with the Authorization field of a client let in. -/
inductive Credentials
  | pass
  | strip
  deriving DecidableEq

/-- A rule that asks for a password. -/
structure AuthRule extends RulePath where
  isOpen : Bool := false
  -- the id of the load of its user file
  users : Nat := 0
  skip : List Cidr := []
  plainHttp : Bool := false
  credentials : Credentials := .pass
  forwardUser : Bytes := []
  deriving DecidableEq

/-! ## §3. Locations. -/

inductive HandlerKind
  | static_
  | fastcgi
  | proxy
  | cgi
  | control
  | httparena
  deriving DecidableEq

inductive Method
  | get
  | head
  | post
  | put
  | del
  | patch
  | options
  | trace
  | connect
  | other
  deriving DecidableEq

/-- One element of `try_files`. -/
inductive TryStep
  | uri
  | uriDir
  | fallback (target : Bytes)
  | status (code : Nat)
  deriving DecidableEq

/-- A content type, and the coding the file is stored with. -/
structure ServedType where
  type : Bytes
  encoding : Bytes := []
  deriving DecidableEq

/-- The content types a site adds, by ending and by path. -/
structure MimeTypes where
  endings : List (Bytes × ServedType) := []
  paths : List (Bytes × ServedType) := []
  deriving DecidableEq

/-- A location of a site, as far as requests are routed by it. -/
structure Location where
  id : Nat
  path : Bytes
  isExact : Bool := false
  scriptExact : Bool := false
  isSuffix : Bool := false
  isFinal : Bool := false
  scriptDir : Bytes := []
  root : Bytes := []
  aliasDir : Bytes := []
  index : List Bytes := []
  tryFiles : List TryStep := []
  symlinksDeny : Bool := false
  mimeTypes : MimeTypes := {}
  kind : HandlerKind := .static_
  -- `handler = "deny"`
  deny : Bool := false
  -- `fastcgi.options.path_info`
  pathInfo : Bool := true
  methods : Method → Bool := fun m => m = .get || m = .head || m = .options
  refusedByName : Bytes → Bool := fun _ => false
  -- one of its `deny_suffixes` ends the path
  refusedSuffix : Bytes → Bool := fun _ => false

inductive Encoding
  | zstd
  | br
  | gzip
  deriving DecidableEq

/-- `response_compression` and the codings built from it, as far as a cached file depends on it. -/
structure Compression where
  enabled : Bool := false
  codingsWritten : Bool := false
  minSize : Nat := 1024
  extraTypes : List Bytes := []
  -- the codings offered, and the order that decides a tie
  mask : Encoding → Bool := fun _ => false
  order : List Encoding := [.zstd, .br, .gzip]

/-- A site, as far as its requests are judged and routed. -/
structure Site where
  serverNames : List Bytes := []
  listen : List Bytes := []
  compression : Compression := {}
  access : List AccessRule := []
  auth : List AuthRule := []
  -- `refuse::match` over the site's compiled patterns
  refuse : Bytes → Bool := fun _ => false
  -- `redirect::match`: path, query, a separator was encoded
  redirect : Bytes → Bytes → Bool → Bool := fun _ _ _ => false
  httpRedirect : Bool := false
  -- `redirect_host` answers for this Host field
  redirectHost : Bytes → Bool := fun _ => false
  canonicalRedirect : Bool := false
  encodedSlashesAllow : Bool := false
  locations : List Location
  locations_ne : locations ≠ []
  -- certificate validation over plain HTTP: the site's files and nothing else
  validation : Location :=
    { id := 0, path := bytes "/.well-known/", tryFiles := [.uri, .status 404] }
  validation_static : validation.kind = .static_ := by rfl

/-- The validation location of a site that names none. -/
theorem validation_files :
    ({ id := 0, path := bytes "/.well-known/", tryFiles := [.uri, .status 404] } : Location).kind = .static_ := rfl

theorem rooted_slash : (bytes "/").head? = some slash := by decide

/-! ## §4. Which location serves a path. -/

/-- Where `pat` first starts in `s` (`find`). -/
def findSub (pat : Bytes) : Bytes → Option Nat
  | [] => if pat = [] then some 0 else none
  | c :: cs => if pat.isPrefixOf (c :: cs) then some 0 else (findSub pat cs).map (· + 1)

/-- The end of the first hit of `suffix` that ends the path or stands before a slash. -/
def suffixEnd (suffix : Bytes) : Bytes → Option Nat
  | [] => none
  | c :: cs =>
    if suffix.isPrefixOf (c :: cs) && (((c :: cs).drop suffix.length).head?.all (· = slash)) then
      some suffix.length
    else (suffixEnd suffix cs).map (· + 1)

def suffixHit (path suffix : Bytes) : Bool := (suffixEnd suffix path).isSome

/-- The script a suffix names sits directly in `dir`. -/
def scriptIn (path suffix dir : Bytes) : Bool :=
  match suffixEnd suffix path with
  | none => false
  | some n => dir.isPrefixOf (path.take n) && !((path.take n).drop dir.length).contains slash

/-- The pass of `Router::location`; `suffix` is the suffix location remembered so far. -/
def locationLoop (path : Bytes) (last : Location) : Option Location → List Location → Location
  | suffix, [] => suffix.getD last
  | suffix, loc :: rest =>
    if loc.isExact then
      if path = loc.path then loc
      else if loc.scriptExact && loc.path.isPrefixOf path &&
          (path.drop loc.path.length).head? = some slash then loc
      else locationLoop path last suffix rest
    else if loc.isSuffix then
      if suffix.isNone && suffixHit path loc.path &&
          (loc.scriptDir = [] || scriptIn path loc.path loc.scriptDir) then
        locationLoop path last (some loc) rest
      else locationLoop path last suffix rest
    else if loc.path.isPrefixOf path then
      -- a `final` prefix shields its subtree from suffix locations
      if loc.isFinal then loc else suffix.getD loc
    else locationLoop path last suffix rest

namespace Site

variable (site : Site)

/-- `Router::location`. -/
def location (path : Bytes) : Location :=
  locationLoop path (site.locations.getLast site.locations_ne) none site.locations

end Site

/-! ## §5. The script of a path (`core/script_split.hpp`). -/

/-- The script's length when path info follows it. -/
def phpEnd (path : Bytes) : Option Nat := (findSub (bytes ".php/") path).map (· + 4)

/-- `file_of` and the static handler's `fs_path_of`. -/
def fsPathOf (loc : Location) (path : Bytes) : Bytes :=
  if loc.aliasDir = [] then loc.root ++ path else loc.aliasDir ++ path.drop (loc.path.length - 1)

/-- `cgi_end`: the longest leading part, cut at a slash, that is a file; 0 when none is. -/
def cgiEnd (loc : Location) (isFile : Bytes → Bool) (path : Bytes) : Nat :=
  ((List.range (path.length + 1)).reverse.find? fun cut =>
    cut ≠ 0 && (cut = path.length || path[cut]? = some slash) &&
      isFile (fsPathOf loc (path.take cut))).getD 0

end Agensio.Dispatch
