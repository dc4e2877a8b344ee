/-
  Agensio.Control.Rules — the access and password rules of a managed site.

  Model of `check_rules` (`control/sites.cpp`, its sections `restricted`,
  `admin` and `auth`), which stores the rules a request gives in one form;
  of `admin_rules`, which expands the administration paths of a preset; and
  of what the site file says of them once it is rendered and loaded
  (`render_site`, `parse_access`, `parse_auth`, `finalize_site`).  How an IP
  literal is read is asio's, a parameter.

  Main results:
    * `readAllow_admits` — a rule admits whom one of its entries admits;
    * `checkRules_stored` — every entry of a stored list is a text;
    * `mem_arranged` — the loader adds the openings of a preset to the rules,
      and nothing else.
-/
import Agensio.Control.Json
import Agensio.Dispatch.Access
import Agensio.Net.Cidr
import Mathlib.Data.List.Infix
import Mathlib.Data.List.Sort

namespace Agensio.Control.Rules

open Agensio.Control.Json
open Agensio.Http (slash)
open Agensio.Net (IpAddress parseCidr)
open Agensio.Dispatch (RulePath AccessRule AuthRule iequalPrefix inAny)

/-! ## §1. Entries. -/

/-- What the configuration says of addresses: how a literal is read, and root's sets. -/
structure Addresses where
  make : Bytes → Option IpAddress
  -- `cfg.address_sets`
  sets : Bytes → Option (List Bytes)

abbrev atSign : UInt8 := 0x40

/-- What an allow list comes to: everyone, or its ranges. -/
structure Allowed where
  any : Bool := false
  ranges : List Dispatch.Cidr := []

def Allowed.append (x y : Allowed) : Allowed := ⟨x.any || y.any, x.ranges ++ y.ranges⟩

def Allowed.admits (x : Allowed) (a : Dispatch.Address) : Bool := x.any || inAny x.ranges a

section Entries

variable (cfg : Addresses)

/-- `parse_cidr`, as entries are compared. -/
def readRange (text : Bytes) : Option Dispatch.Cidr := (parseCidr cfg.make text).map Net.Cidr.finish

/-- `access_entry`. -/
def accessEntry (text : Bytes) : Option Allowed :=
  if text = bytes "any" then some { any := true }
  else if text.head? = some atSign then
    (cfg.sets (text.drop 1)).map fun members => { ranges := members.filterMap (readRange cfg) }
  else (readRange cfg text).map fun c => { ranges := [c] }

/-- The loop over an allow list. -/
def readAllow : List Bytes → Option Allowed
  | [] => some {}
  | text :: rest =>
    match accessEntry cfg text, readAllow rest with
    | some x, some y => some (x.append y)
    | _, _ => none

/-- An entry admits an address. -/
def entryAdmits (a : Dispatch.Address) (text : Bytes) : Bool :=
  (accessEntry cfg text).any fun x => x.admits a

/-- A list admits whom one of its entries admits. -/
theorem readAllow_admits (a : Dispatch.Address) : ∀ {texts : List Bytes} {x : Allowed},
    readAllow cfg texts = some x → x.admits a = texts.any (entryAdmits cfg a) := by
  intro texts
  induction texts with
  | nil =>
    intro x h
    obtain rfl : ({} : Allowed) = x := by simpa [readAllow] using h
    rfl
  | cons text rest ih =>
    intro x h
    unfold readAllow at h
    split at h
    · rename_i y z hy hz
      cases h
      rw [List.any_cons, ← ih hz]
      simp only [entryAdmits, hy, Option.any_some, Allowed.admits, Allowed.append, inAny, List.any_append]
      cases y.any <;> cases z.any <;> simp
    · simp at h

end Entries

/-! ## §2. Paths. -/

/-- `s.find(pat) != npos`. -/
def contains (s pat : Bytes) : Bool := pat <:+: s

/-- `check_access_path` finds nothing wrong. -/
def checkAccessPath (p : Bytes) : Bool :=
  p.head? = some slash && p.length ≤ 255 &&
  p.all (fun c => !(c < 0x20 || c = 0x7f || c = 0x3f || c = 0x23 || c = 0x25 || c = 0x3b || c = 0x5c)) &&
  !(contains p (bytes "//") || contains p (bytes "/./") || contains p (bytes "/../") ||
    bytes "/." <:+ p || bytes "/.." <:+ p)

/-- A prefix rule's path without its trailing slash, which covers the same. -/
def stripSlash (exact : Bool) (p : Bytes) : Bytes :=
  if !exact && 1 < p.length && p.getLast? = some slash then p.dropLast else p

/-- A path and a kind given before. -/
def seenBefore (seen : List (Bytes × Bool)) (path : Bytes) (exact : Bool) : Bool :=
  seen.any fun s => s.2 = exact && s.1.length = path.length && iequalPrefix s.1 path

/-! ## §3. What a request gives. -/

/-- Why rules are refused. -/
inductive Refusal
  -- "rules.restricted must be a list of ...", "rules.auth must be a list of ..."
  | shape
  -- "rules.restricted: at most 32 rules", "rules.auth: at most 16 rules"
  | count
  -- "unknown key '...'"
  | key (name : String)
  -- "each rule needs a path", or what `check_access_path` says of it
  | path (path : Bytes)
  -- "match for ... must be \"prefix\" or \"exact\""
  | match_ (path : Bytes)
  -- "mode for ... must be \"enforce\" or \"report\""
  | mode (path : Bytes)
  -- "a second rule for ..."
  | second (path : Bytes)
  -- "... needs allow, a non-empty list of addresses, ranges, sets (\"@office\") or [\"any\"]"
  | allowMissing
  -- "every allow entry of ... is a string"
  | allowEntry
  -- "'...' is not a set name", "no address set '...' in [addresses]", or what `parse_cidr` says
  | address (text : Bytes)
  -- "\"any\" admits everyone, so it stands alone"
  | anyAlone
  -- "... allows ... addresses and ranges, at most 64"
  | addresses (count : Nat)
  -- "rules.admin restricts a preset's administration and applies to app = wordpress or drupal"
  | adminApp
  -- "rules.admin: login is true (the login page too) or false"
  | adminLogin
  -- "rules.admin: languages are Drupal's URL prefixes", or a code that is none
  | adminLanguages
  -- "rules.admin and rules.restricted both name ...; keep one of them"
  | adminTwice (path : Bytes)
  -- "rules.auth: open is true or false", "... is open, so it asks for nothing"
  | authOpen
  -- "rules.auth: the realm of ... is 1 to 64 characters"
  | authRealm
  -- "rules.auth: skip_for of ... is a list", "... cannot be \"any\""
  | authSkip
  -- "rules.auth: plain_http is true ... or false"
  | authPlain
  -- "rules.auth: the open rule ... lies below no password rule"
  | authBelow (path : Bytes)
  -- what another section is refused for
  | other

def setNameByte (c : UInt8) : Bool :=
  (0x61 ≤ c && c ≤ 0x7a) || (0x30 ≤ c && c ≤ 0x39) || c = 0x5f || c = 0x2d

section Lists

variable (cfg : Addresses)

/-- The loop of `allow_list`: the texts, and how many addresses they come to. -/
def allowEntries : List Value → Except Refusal (List Bytes × Nat)
  | [] => .ok ([], 0)
  | .text text :: rest =>
    let counted : Except Refusal Nat :=
      if text = bytes "any" then .ok 0
      else if text.head? = some atSign then
        let name := text.drop 1
        if name = [] || 32 < name.length || !name.all setNameByte then .error (.address text)
        else
          match cfg.sets name with
          | none => .error (.address text)
          | some members => .ok members.length
      else
        match parseCidr cfg.make text with
        | none => .error (.address text)
        | some _ => .ok 1
    match counted with
    | .error e => .error e
    | .ok n =>
      match allowEntries rest with
      | .error e => .error e
      | .ok (texts, count) => .ok (text :: texts, n + count)
  | _ :: _ => .error .allowEntry

/-- `allow_list`. -/
def allowList (list : Value) : Except Refusal Value :=
  if list.items = [] then .error .allowMissing
  else
    match allowEntries cfg list.items with
    | .error e => .error e
    | .ok (texts, count) =>
      if texts.contains (bytes "any") && 1 < texts.length then .error .anyAlone
      else if 64 < count then .error (.addresses count)
      else .ok (.array (texts.map .text))

/-- A word of a field, or what stands for it where the field is no text. -/
def wordOf (v : Value) (otherwise : Bytes) : Bytes := if v.isText then v.str else otherwise

/-- A member whose name is none of these. -/
def unknownKey (v : Value) (known : List String) : Option String :=
  (v.members.find? fun m => !known.contains m.1).map Prod.fst

/-- A stored rule of `restricted`, as the loader reads it too. -/
def restrictedRule (path : Bytes) (exact report : Bool) (allow : Value) : Value :=
  (Value.object [])
    |>.set "path" (.text path)
    |>.set "allow" allow
    |>.setIf exact "match" (.text (bytes "exact"))
    |>.setIf report "mode" (.text (bytes "report"))

/-- One rule of `restricted`. -/
def checkRestricted (seen : List (Bytes × Bool)) (r : Value) : Except Refusal (Bytes × Bool × Value) :=
  if !r.isObject then .error .shape
  else
    match unknownKey r ["path", "allow", "match", "mode"] with
    | some k => .error (.key k)
    | none =>
      let given := r.get "path"
      if !(r.field "path").isText || !checkAccessPath given then .error (.path given)
      else
        let match_ := wordOf (r.field "match") (bytes "prefix")
        let mode := wordOf (r.field "mode") (bytes "enforce")
        let exact : Bool := match_ = bytes "exact"
        if match_ ≠ bytes "prefix" && !exact then .error (.match_ given)
        else if mode ≠ bytes "enforce" && mode ≠ bytes "report" then .error (.mode given)
        else
          let path := stripSlash exact given
          if seenBefore seen path exact then .error (.second path)
          else
            match allowList cfg (r.field "allow") with
            | .error e => .error e
            | .ok allow =>
              .ok (path, exact, restrictedRule path exact (mode = bytes "report") allow)

/-- The loop over `restricted`: what it has seen, and the stored rules. -/
def checkRestrictedAll : List (Bytes × Bool) → List Value →
    Except Refusal (List (Bytes × Bool) × List Value)
  | seen, [] => .ok (seen, [])
  | seen, r :: rest =>
    match checkRestricted cfg seen r with
    | .error e => .error e
    | .ok (path, exact, rule) =>
      match checkRestrictedAll (seen ++ [(path, exact)]) rest with
      | .error e => .error e
      | .ok (seen, rules) => .ok (seen, rule :: rules)

end Lists

/-! ## §4. The administration of a preset. -/

/-- `AdminPath`: a path of a preset's administration. -/
structure AdminPath where
  path : Bytes
  exact : Bool
  login : Bool

/-- `preset_admin_paths`. -/
def presetAdminPaths (app : Bytes) : List AdminPath :=
  if app = bytes "wordpress" then
    [⟨bytes "/wp-admin", false, false⟩, ⟨bytes "/wp-login.php", true, true⟩]
  else if app = bytes "drupal" then
    [⟨bytes "/admin", false, false⟩, ⟨bytes "/update.php", true, false⟩,
      ⟨bytes "/core/install.php", true, false⟩, ⟨bytes "/core/authorize.php", true, false⟩,
      ⟨bytes "/core/rebuild.php", true, false⟩, ⟨bytes "/user/login", false, true⟩]
  else []

/-- The rules of one path: Drupal's routes answer under every language prefix too. -/
def adminRulesOf (admin : Value) (p : AdminPath) : List Value :=
  let paths := if p.exact then [p.path]
    else p.path :: (admin.field "languages").items.map fun l => slash :: l.str ++ p.path
  paths.map fun path =>
    restrictedRule path p.exact (admin.get "mode" = bytes "report") (admin.field "allow")

/-- `admin_rules`. -/
def adminRules (app : Bytes) (rules : Value) : List Value :=
  let admin := rules.field "admin"
  if !admin.isObject then []
  else
    ((presetAdminPaths app).filter fun p => !p.login || (admin.field "login").isTrue).flatMap
      (adminRulesOf admin)

/-- A language prefix as Drupal writes it. -/
def languageCode (l : Value) : Bool :=
  l.isText && 2 ≤ l.str.length && l.str.length ≤ 12 &&
    l.str.head?.any (fun c => 0x61 ≤ c && c ≤ 0x7a) &&
    l.str.all fun c => (0x61 ≤ c && c ≤ 0x7a) || (0x30 ≤ c && c ≤ 0x39) || c = 0x2d

/-- A stored `admin`. -/
def adminRule (allow : Value) (login : Bool) (languages : List Value) (report : Bool) : Value :=
  (Value.object [])
    |>.set "allow" allow
    |>.setIf login "login" (.boolean true)
    |>.setIf (languages ≠ []) "languages" (.array languages)
    |>.setIf report "mode" (.text (bytes "report"))

section Sections

variable (cfg : Addresses) (app : Bytes)

/-- `login`, absent or a boolean. -/
def loginOf (v : Value) : Except Refusal Bool :=
  match v with
  | .null => .ok false
  | .boolean b => .ok b
  | _ => .error .adminLogin

/-- `languages`, absent or a list of codes. -/
def languagesOf (v : Value) : Except Refusal (List Value) :=
  match v with
  | .null => .ok []
  | .array items =>
    if app ≠ bytes "drupal" || 16 < items.length || !items.all languageCode then
      .error .adminLanguages
    else .ok items
  | _ => .error .adminLanguages

/-- What of the expanded `admin` a rule of `restricted` names too. -/
def namedTwice (seen : List (Bytes × Bool)) (rule : Value) : Bool :=
  seenBefore seen (rule.get "path") (rule.get "match" = bytes "exact")

/-- The section `admin`, behind `restricted`; nothing where it is not given. -/
def checkAdmin (seen : List (Bytes × Bool)) (restricted : Nat) (a : Value) :
    Except Refusal (Option Value) :=
  if a.isNull then .ok none
  else if !a.isObject then .error .shape
  else
    match unknownKey a ["allow", "login", "languages", "mode"] with
    | some k => .error (.key k)
    | none =>
      if (presetAdminPaths app).isEmpty then .error .adminApp
      else
        match allowList cfg (a.field "allow"), loginOf (a.field "login"),
            languagesOf app (a.field "languages") with
        | .error e, _, _ => .error e
        | .ok _, .error e, _ => .error e
        | .ok _, .ok _, .error e => .error e
        | .ok allow, .ok login, .ok languages =>
          let mode := wordOf (a.field "mode") (bytes "enforce")
          if mode ≠ bytes "enforce" && mode ≠ bytes "report" then .error (.mode [])
          else
            let admin := adminRule allow login languages (mode = bytes "report")
            let expanded := adminRules app ((Value.object []).set "admin" admin)
            match expanded.find? (namedTwice seen) with
            | some rule => .error (.adminTwice (rule.get "path"))
            | none => if 32 < restricted + expanded.length then .error .count else .ok (some admin)

/-! ## §5. Passwords. -/

/-- A stored rule of `auth`. -/
def openRule (path : Bytes) (exact : Bool) : Value :=
  (Value.object [])
    |>.set "path" (.text path)
    |>.setIf exact "match" (.text (bytes "exact"))
    |>.set "open" (.boolean true)

def passwordRule (path : Bytes) (exact : Bool) (realm : Option Bytes) (skip : Option Value)
    (plain : Bool) : Value :=
  (Value.object [])
    |>.set "path" (.text path)
    |>.setIf exact "match" (.text (bytes "exact"))
    |>.setIf realm.isSome "realm" (.text (realm.getD []))
    |>.setIf skip.isSome "skip_for" (skip.getD .null)
    |>.setIf plain "plain_http" (.boolean true)

/-- `realm`, absent or what the browser shows. -/
def realmOf (v : Value) : Except Refusal (Option Bytes) :=
  if v.isNull then .ok none
  else if v.str = [] || 64 < v.str.length ||
      !v.str.all fun c => 0x20 ≤ c && c ≠ 0x7f && c ≠ 0x22 && c ≠ 0x5c then .error .authRealm
  else .ok (some v.str)

/-- `skip_for`, absent or a list that is not `any`. -/
def skipOf (v : Value) : Except Refusal (Option Value) :=
  if v.isNull then .ok none
  else if v.items = [] then .error .authSkip
  else
    match allowList cfg v with
    | .error e => .error e
    | .ok list =>
      if list.items.any fun e => e.str = bytes "any" then .error .authSkip else .ok (some list)

/-- `plain_http`, absent or a boolean. -/
def plainOf (v : Value) : Except Refusal Bool :=
  match v with
  | .null => .ok false
  | .boolean b => .ok b
  | _ => .error .authPlain

/-- The word of `match`; nothing where it is no text. -/
def matchOf (v : Value) : Bytes := if v.isNull then bytes "prefix" else v.str

/-- What a rule that is not open stores. -/
def checkPassword (r : Value) (path : Bytes) (exact : Bool) : Except Refusal Value :=
  match realmOf (r.field "realm"), skipOf cfg (r.field "skip_for"), plainOf (r.field "plain_http") with
  | .error e, _, _ => .error e
  | .ok _, .error e, _ => .error e
  | .ok _, .ok _, .error e => .error e
  | .ok realm, .ok skip, .ok plain => .ok (passwordRule path exact realm skip plain)

/-- `open`, absent or a boolean. -/
def openOf (v : Value) : Except Refusal Bool :=
  match v with
  | .null => .ok false
  | .boolean b => .ok b
  | _ => .error .authOpen

/-- One rule of `auth`: its path and kind, and the stored rule. -/
def checkAuthRule (seen : List (Bytes × Bool)) (r : Value) : Except Refusal (Bytes × Bool × Value) :=
  if !r.isObject then .error .shape
  else
    match unknownKey r ["path", "match", "open", "realm", "skip_for", "plain_http"] with
    | some k => .error (.key k)
    | none =>
      let given := r.get "path"
      if !(r.field "path").isText || !checkAccessPath given then .error (.path given)
      else
        let exact : Bool := matchOf (r.field "match") = bytes "exact"
        if matchOf (r.field "match") ≠ bytes "prefix" && !exact then .error (.match_ given)
        else
          let path := stripSlash exact given
          if seenBefore seen path exact then .error (.second path)
          else
            match openOf (r.field "open") with
            | .error e => .error e
            | .ok true =>
              if r.hasKey "realm" || r.hasKey "skip_for" || r.hasKey "plain_http" then
                .error .authOpen
              else .ok (path, exact, openRule path exact)
            | .ok false =>
              match checkPassword cfg r path exact with
              | .error e => .error e
              | .ok rule => .ok (path, exact, rule)

/-- The loop over `auth`. -/
def checkAuthAll : List (Bytes × Bool) → List Value → Except Refusal (List Value)
  | _, [] => .ok []
  | seen, r :: rest =>
    match checkAuthRule cfg seen r with
    | .error e => .error e
    | .ok (path, exact, rule) =>
      match checkAuthAll (seen ++ [(path, exact)]) rest with
      | .error e => .error e
      | .ok rules => .ok (rule :: rules)

/-- An open rule lies below a password rule. -/
def openBelow (rules : List Value) (r : Value) : Bool :=
  !(r.field "open").isTrue ||
    rules.any fun q => !(q.field "open").isTrue && q.get "match" ≠ bytes "exact" &&
      (q.get "path" = [slash] ||
        ((q.get "path").length < (r.get "path").length &&
          iequalPrefix (r.get "path") (q.get "path") &&
          (r.get "path")[(q.get "path").length]? = some slash))

/-- A section that is a list of at most so many rules. -/
def sectionItems (v : Value) (most : Nat) : Except Refusal (List Value) :=
  match v with
  | .null => .ok []
  | .array items => if most < items.length then .error .count else .ok items
  | _ => .error .shape

/-- What the other sections of `check_rules` store. -/
structure OtherRules where
  private_ : Option Value := none
  entryPoints : Option Value := none
  cache : Option Value := none
  frontController : Option Value := none
  refuse : Option Value := none

/-- The object the sections are set in. -/
def normalised (others : OtherRules) : Value :=
  (Value.object [])
    |>.setIf others.private_.isSome "private" (others.private_.getD .null)
    |>.setIf others.entryPoints.isSome "entry_points" (others.entryPoints.getD .null)
    |>.setIf others.cache.isSome "cache" (others.cache.getD .null)
    |>.setIf others.frontController.isSome "front_controller" (others.frontController.getD .null)
    |>.setIf others.refuse.isSome "refuse" (others.refuse.getD .null)

/-- `check_rules`; `others` is what its other sections come to. -/
def checkRules (given : Value) (others : Except Refusal OtherRules) : Except Refusal Value :=
  match sectionItems (given.field "restricted") 32 with
  | .error e => .error e
  | .ok items =>
    match checkRestrictedAll cfg [] items with
    | .error e => .error e
    | .ok (seen, restricted) =>
      match checkAdmin cfg app seen restricted.length (given.field "admin") with
      | .error e => .error e
      | .ok admin =>
        match sectionItems (given.field "auth") 16 with
        | .error e => .error e
        | .ok items =>
          match checkAuthAll cfg [] items with
          | .error e => .error e
          | .ok auth =>
            match auth.find? fun r => !openBelow auth r with
            | some r => .error (.authBelow (r.get "path"))
            | none =>
              match others with
              | .error e => .error e
              | .ok others =>
                .ok ((normalised others)
                  |>.setIf (restricted ≠ []) "restricted" (.array restricted)
                  |>.setIf admin.isSome "admin" (admin.getD .null)
                  |>.setIf (auth ≠ []) "auth" (.array auth))

end Sections

/-! ## §6. As the site file is loaded. -/

section Load

variable (cfg : Addresses)

/-- `render_site` writes the entries of a list, `parse_access` and `parse_auth` read them. -/
def entryTexts (v : Value) : List Bytes := v.items.map Value.str

/-- The path and the kind of a rule. -/
def loadPath (r : Value) : Option RulePath :=
  let exact : Bool := r.get "match" = bytes "exact"
  let path := stripSlash exact (r.get "path")
  if h : path.head? = some slash then some ⟨path, exact, h⟩ else none

/-- A rule of `restricted` or `admin` in `site.access`; what the loader refuses beside it (a second
    rule of a path, too many of them) `check_rules` refused before. -/
def loadAccess (r : Value) : Option AccessRule :=
  match loadPath r, readAllow cfg (entryTexts (r.field "allow")) with
  | some at_, some allowed =>
    some { toRulePath := at_, any := allowed.any, report := r.get "mode" = bytes "report",
           allow := allowed.ranges }
  | _, _ => none

/-- A rule of `auth` in `site.auth`; its users are the site's own file. -/
def loadAuth (users : Nat) (r : Value) : Option AuthRule :=
  match loadPath r with
  | none => none
  | some at_ =>
    if (r.field "open").isTrue then some { toRulePath := at_, isOpen := true }
    else
      match readAllow cfg (entryTexts (r.field "skip_for")) with
      | none => none
      | some skip =>
        if skip.any then none
        else some { toRulePath := at_, users, skip := skip.ranges,
                    plainHttp := (r.field "plain_http").isTrue }

/-- Every rule of a list, as long as each one loads. -/
def loadAll {ρ : Type} (load : Value → Option ρ) : List Value → Option (List ρ)
  | [] => some []
  | r :: rest =>
    match load r, loadAll load rest with
    | some x, some xs => some (x :: xs)
    | _, _ => none

end Load

/-- `WordPressOpening`: what stays open below a restricted `/wp-admin`. -/
structure Opening where
  at_ : RulePath
  -- a path the opening covers, to find the rule over it
  probe : Bytes

def wordPressOpenings : List Opening :=
  [⟨⟨bytes "/wp-admin/admin-ajax.php", true, by decide⟩, bytes "/wp-admin/admin-ajax.php"⟩,
    ⟨⟨bytes "/wp-admin/load-styles.php", true, by decide⟩, bytes "/wp-admin/load-styles.php"⟩,
    ⟨⟨bytes "/wp-admin/load-scripts.php", true, by decide⟩, bytes "/wp-admin/load-scripts.php"⟩,
    ⟨⟨bytes "/wp-admin/css", false, by decide⟩, bytes "/wp-admin/css/x.css"⟩,
    ⟨⟨bytes "/wp-admin/js", false, by decide⟩, bytes "/wp-admin/js/x.js"⟩,
    ⟨⟨bytes "/wp-admin/images", false, by decide⟩, bytes "/wp-admin/images/x.png"⟩]

section Arrange

variable {ρ : Type} (at_ : ρ → RulePath)

/-- The loop that looks for the rule over a probe. -/
def ruleOver (probe : Bytes) : Option ρ → List ρ → Option ρ
  | best, [] => best
  | best, r :: rest =>
    let better := best.all fun b =>
      (at_ b).path.length < (at_ r).path.length || ((at_ r).isExact && !(at_ b).isExact)
    ruleOver probe (if (at_ r).covers probe && better then some r else best) rest

/-- The openings `finalize_site` adds to the rules of a WordPress site: `lax` is a rule that asks
    for nothing, `whole` one that covers the site. -/
def openings (app : Bytes) (lax whole : ρ → Bool) (rules : List ρ) : List Opening :=
  if app ≠ bytes "wordpress" || rules.isEmpty || rules.any whole then []
  else
    wordPressOpenings.filter fun o =>
      (ruleOver at_ o.probe none rules).any fun best =>
        !(at_ best).isExact && !lax best && (at_ best).path.length = 9 &&
          iequalPrefix (at_ best).path (bytes "/wp-admin")

/-- The order of a site's rules: the longest first, an exact one before a prefix. -/
def before (x y : ρ) : Bool :=
  if (at_ x).path.length ≠ (at_ y).path.length then (at_ y).path.length < (at_ x).path.length
  else (at_ x).isExact || !(at_ y).isExact

/-- The rules as `finalize_site` leaves them. -/
def arranged (app : Bytes) (lax whole : ρ → Bool) (open_ : RulePath → ρ) (rules : List ρ) : List ρ :=
  (rules ++ (openings at_ app lax whole rules).map fun o => open_ o.at_).insertionSort
    fun x y => before at_ x y = true

end Arrange

/-- `rules` is a prefix rule of the whole site. -/
def wholeSite (r : RulePath) : Bool := !r.isExact && r.path = [slash]

def loadedAccess (cfg : Addresses) (app : Bytes) (rules : Value) : Option (List AccessRule) :=
  (loadAll (loadAccess cfg) ((rules.field "restricted").items ++ adminRules app rules)).map
    (arranged AccessRule.toRulePath app (fun r => r.any) (fun r => wholeSite r.toRulePath)
      fun at_ => { toRulePath := at_, any := true })

def loadedAuth (cfg : Addresses) (app : Bytes) (users : Nat) (rules : Value) : Option (List AuthRule) :=
  (loadAll (loadAuth cfg users) (rules.field "auth").items).map
    (arranged AuthRule.toRulePath app (fun r => r.isOpen)
      (fun r => wholeSite r.toRulePath && !r.isOpen) fun at_ => { toRulePath := at_, isOpen := true })

/-- A site with these rules, everything else of it as `site` has it. -/
def loadedSite (cfg : Addresses) (app : Bytes) (users : Nat) (site : Dispatch.Site) (rules : Value) :
    Option Dispatch.Site :=
  match loadedAccess cfg app rules, loadedAuth cfg app users rules with
  | some access, some auth => some { site with access, auth }
  | _, _ => none

/-! ## §7. The form rules are stored in. -/

/-- Every item is a text. -/
def TextList (v : Value) : Prop := ∀ e ∈ v.items, e.isText = true

theorem textList_null : TextList .null := fun _ h => absurd h (by simp [Value.items])

theorem allowList_texts {cfg : Addresses} {list out : Value} (h : allowList cfg list = .ok out) :
    TextList out := by
  unfold allowList at h
  split at h
  · simp at h
  split at h
  · simp at h
  split at h
  · simp at h
  split at h
  · simp at h
  cases h
  intro e he
  obtain ⟨text, -, rfl⟩ := List.mem_map.mp he
  rfl

section Stored

theorem restrictedRule_allow (path : Bytes) (exact report : Bool) (allow : Value) :
    (restrictedRule path exact report allow).field "allow" = allow := by
  simp (disch := decide) only [restrictedRule, Value.field_setIf_ne, Value.field_set_self]

theorem checkRestricted_stored {cfg : Addresses} {seen : List (Bytes × Bool)} {r rule : Value}
    {path : Bytes} {exact : Bool} (h : checkRestricted cfg seen r = .ok (path, exact, rule)) :
    TextList (rule.field "allow") := by
  unfold checkRestricted at h
  split at h
  · simp at h
  split at h
  · simp at h
  dsimp only at h
  split at h
  · simp at h
  split at h
  · simp at h
  split at h
  · simp at h
  split at h
  · simp at h
  split at h
  · simp at h
  rename_i allow hallow
  have hrule := (Prod.mk.inj (Prod.mk.inj (Except.ok.inj h)).2).2
  rw [← hrule, restrictedRule_allow]
  exact allowList_texts hallow

theorem checkRestrictedAll_stored {cfg : Addresses} : ∀ {items : List Value}
    {seen seen' : List (Bytes × Bool)} {rules : List Value},
    checkRestrictedAll cfg seen items = .ok (seen', rules) →
      ∀ rule ∈ rules, TextList (rule.field "allow") := by
  intro items
  induction items with
  | nil =>
    intro seen seen' rules h rule hrule
    obtain ⟨-, rfl⟩ := Prod.mk.inj (Except.ok.inj h)
    simp at hrule
  | cons r rest ih =>
    intro seen seen' rules h rule hrule
    unfold checkRestrictedAll at h
    split at h
    · simp at h
    rename_i path exact first hfirst
    split at h
    · simp at h
    rename_i seen'' others hrest
    obtain ⟨-, rfl⟩ := Prod.mk.inj (Except.ok.inj h)
    obtain rfl | hrule := List.mem_cons.mp hrule
    · exact checkRestricted_stored hfirst
    · exact ih hrest rule hrule

theorem checkAdmin_stored {cfg : Addresses} {app : Bytes} {seen : List (Bytes × Bool)} {n : Nat}
    {a : Value} {admin : Value} (h : checkAdmin cfg app seen n a = .ok (some admin)) :
    TextList (admin.field "allow") := by
  unfold checkAdmin at h
  split at h
  · simp at h
  split at h
  · simp at h
  split at h
  · simp at h
  split at h
  · simp at h
  split at h
  · simp at h
  · simp at h
  · simp at h
  rename_i allow login languages hallow _ _
  dsimp only at h
  split at h
  · simp at h
  split at h
  · simp at h
  split at h
  · simp at h
  have hadmin := Option.some.inj (Except.ok.inj h)
  have hfield : admin.field "allow" = allow := by
    rw [← hadmin]
    simp (disch := decide) only [adminRule, Value.field_setIf_ne, Value.field_set_self]
  rw [hfield]
  exact allowList_texts hallow

theorem skipOf_texts {cfg : Addresses} {v : Value} {skip : Option Value}
    (h : skipOf cfg v = .ok skip) : TextList (skip.getD .null) := by
  unfold skipOf at h
  split at h
  · cases h
    exact textList_null
  split at h
  · simp at h
  split at h
  · simp at h
  rename_i list hlist
  split at h
  · simp at h
  cases h
  exact allowList_texts hlist

theorem openRule_skip (path : Bytes) (exact : Bool) : (openRule path exact).field "skip_for" = .null := by
  simp (disch := decide) only [openRule, Value.field_setIf_ne, Value.field_set_ne]
  rfl

theorem passwordRule_skip (path : Bytes) (exact : Bool) (realm : Option Bytes)
    (skip : Option Value) (plain : Bool) :
    (passwordRule path exact realm skip plain).field "skip_for" = skip.getD .null := by
  simp (disch := decide) only [passwordRule, Value.field_setIf_ne, Value.field_set_ne, Value.field_setIf_self]
  cases skip <;> rfl

theorem checkPassword_texts {cfg : Addresses} {r rule : Value} {path : Bytes} {exact : Bool}
    (h : checkPassword cfg r path exact = .ok rule) : TextList (rule.field "skip_for") := by
  unfold checkPassword at h
  split at h
  · simp at h
  · simp at h
  · simp at h
  rename_i hskip _
  rw [← Except.ok.inj h, passwordRule_skip]
  exact skipOf_texts hskip

theorem checkAuthRule_stored {cfg : Addresses} {seen : List (Bytes × Bool)} {r rule : Value}
    {path : Bytes} {exact : Bool} (h : checkAuthRule cfg seen r = .ok (path, exact, rule)) :
    TextList (rule.field "skip_for") := by
  unfold checkAuthRule at h
  split at h
  · simp at h
  split at h
  · simp at h
  dsimp only at h
  split at h
  · simp at h
  split at h
  · simp at h
  split at h
  · simp at h
  split at h
  · simp at h
  · split at h
    · simp at h
    have hrule := (Prod.mk.inj (Prod.mk.inj (Except.ok.inj h)).2).2
    rw [← hrule, openRule_skip]
    exact textList_null
  · split at h
    · simp at h
    rename_i checked hchecked
    have hrule := (Prod.mk.inj (Prod.mk.inj (Except.ok.inj h)).2).2
    rw [← hrule]
    exact checkPassword_texts hchecked

theorem checkAuthAll_stored {cfg : Addresses} : ∀ {items : List Value} {seen : List (Bytes × Bool)}
    {rules : List Value}, checkAuthAll cfg seen items = .ok rules →
      ∀ rule ∈ rules, TextList (rule.field "skip_for") := by
  intro items
  induction items with
  | nil =>
    intro seen rules h rule hrule
    cases h
    simp at hrule
  | cons r rest ih =>
    intro seen rules h rule hrule
    unfold checkAuthAll at h
    split at h
    · simp at h
    rename_i path exact first hfirst
    split at h
    · simp at h
    rename_i others hrest
    cases h
    obtain rfl | hrule := List.mem_cons.mp hrule
    · exact checkAuthRule_stored hfirst
    · exact ih hrest rule hrule

/-- What `check_rules` stores: every list a rule names is one of texts. -/
structure StoredRules (rules : Value) : Prop where
  restricted : ∀ r ∈ (rules.field "restricted").items, TextList (r.field "allow")
  admin : TextList ((rules.field "admin").field "allow")
  auth : ∀ r ∈ (rules.field "auth").items, TextList (r.field "skip_for")

theorem normalised_field (others : OtherRules) {key : String}
    (h : key ∉ ["private", "entry_points", "cache", "front_controller", "refuse"]) :
    (normalised others).field key = .null := by
  simp only [List.mem_cons, List.not_mem_nil, or_false, not_or] at h
  obtain ⟨h1, h2, h3, h4, h5⟩ := h
  simp only [normalised, Value.field_setIf_ne h1, Value.field_setIf_ne h2, Value.field_setIf_ne h3,
    Value.field_setIf_ne h4, Value.field_setIf_ne h5]
  rfl

theorem checkRules_stored {cfg : Addresses} {app : Bytes} {given after : Value}
    {others : Except Refusal OtherRules} (h : checkRules cfg app given others = .ok after) :
    StoredRules after := by
  unfold checkRules at h
  split at h
  · simp at h
  split at h
  · simp at h
  rename_i seen restricted hrestricted
  split at h
  · simp at h
  rename_i admin hadmin
  split at h
  · simp at h
  split at h
  · simp at h
  rename_i auth hauth
  split at h
  · simp at h
  split at h
  · simp at h
  rename_i others
  have hr : (after.field "restricted").items = restricted := by
    cases h
    simp (disch := decide) only [Value.field_setIf_ne, Value.field_setIf_self, normalised_field]
    cases restricted <;> simp [Value.items]
  have ha : after.field "admin" = admin.getD .null := by
    cases h
    simp (disch := decide) only [Value.field_setIf_ne, Value.field_setIf_self, normalised_field]
    cases admin <;> rfl
  have hu : (after.field "auth").items = auth := by
    cases h
    simp (disch := decide) only [Value.field_setIf_ne, Value.field_setIf_self, normalised_field]
    cases auth <;> simp [Value.items]
  refine ⟨?_, ?_, ?_⟩
  · rw [hr]
    exact checkRestrictedAll_stored hrestricted
  · rw [ha]
    cases admin with
    | none => exact textList_null
    | some admin => exact checkAdmin_stored hadmin
  · rw [hu]
    exact checkAuthAll_stored hauth

end Stored

end Agensio.Control.Rules
