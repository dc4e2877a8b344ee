/-
  Agensio.Control.Widening — widening access waits for a person.

  Model of the part of the approval gate that compares a site's rules before
  and after a change (`rule_at`, `rules_widened`, `control/approvals.cpp`,
  and the call of it in `ControlHandler::mutate`), beside what the two rule
  lists do to a request: `access::decide` on the address rules
  (`Agensio.Dispatch.Access`) and the first answer of
  `Dispatcher::check_auth` to a request that sends no password.  The gate
  compares two rules of one path; a request meets the most specific rule of
  the whole list.

  Main results:
    * `widening_waits` — when a change nobody was asked about keeps everyone out.
-/
import Agensio.Control.OffHost
import Agensio.Control.Rules
import Agensio.Dispatch.Auth

namespace Agensio.Control.Widening

open Agensio.Control.Json
open Agensio.Control.OffHost (textsOf)
open Agensio.Control.Rules
open Agensio.Dispatch (AccessRule AuthRule Address Client Site inAny)

/-! ## §1. The gate. -/

/-- `rule_at`. -/
def ruleAt (list : Value) (path : Bytes) : Option Value :=
  list.items.find? fun r => r.get "path" = path

/-- The entries of a list that it did not hold before. -/
def entriesAdded (was is : Value) : List Bytes :=
  (textsOf is).filter fun a => !(textsOf was).contains a

/-- A rule reports now and did not before. -/
def turnsReport (old now : Value) : Bool :=
  now.get "mode" = bytes "report" && old.get "mode" ≠ bytes "report"

def reasonIf (c : Bool) (reason : Bytes) : List Bytes := if c then [reason] else []

/-- One rule of `restricted` as it was. -/
def restrictedWidened (after old : Value) : List Bytes :=
  let path := old.get "path"
  match ruleAt (after.field "restricted") path with
  | none => [bytes "removes the address rule on " ++ path ++ bytes ": every client reaches it"]
  | some now =>
    (entriesAdded (old.field "allow") (now.field "allow")).map
        (fun a => bytes "widens the address rule on " ++ path ++ bytes " to " ++ a) ++
      reasonIf (turnsReport old now)
        (bytes "turns the address rule on " ++ path ++ bytes " to report mode: nothing is refused")

def adminWidened (before after : Value) : List Bytes :=
  let old := before.field "admin"
  let now := after.field "admin"
  if !old.isObject then []
  else if !now.isObject then
    [bytes "removes the admin rule: the administration pages open to every client"]
  else
    (entriesAdded (old.field "allow") (now.field "allow")).map
        (fun a => bytes "widens the admin rule to " ++ a) ++
      reasonIf (turnsReport old now) (bytes "turns the admin rule to report mode: nothing is refused") ++
      reasonIf ((old.field "login").isTrue && !(now.field "login").isTrue)
        (bytes "opens the login page the admin rule covered")

/-- One rule of `auth` as it was. -/
def authWidened (after old : Value) : List Bytes :=
  let path := old.get "path"
  if (old.field "open").isTrue then []
  else
    match ruleAt (after.field "auth") path with
    | none => [bytes "removes the password on " ++ path]
    | some now =>
      reasonIf (now.field "open").isTrue
          (bytes "opens " ++ path ++ bytes ": no password asked there any more") ++
        (entriesAdded (old.field "skip_for") (now.field "skip_for")).map
          (fun a => bytes "lets " ++ a ++ bytes " in without a password on " ++ path) ++
        -- a text; `check_rules` stores a boolean
        reasonIf (now.get "plain_http" = bytes "allow" && old.get "plain_http" ≠ bytes "allow")
          (bytes "lets the password on " ++ path ++ bytes " be sent over plain HTTP")

/-- An open rule at a path that had none. -/
def opensInside (before now : Value) : List Bytes :=
  reasonIf ((now.field "open").isTrue && (ruleAt (before.field "auth") (now.get "path")).isNone)
    (bytes "opens " ++ now.get "path" ++ bytes " inside the site's password rules")

/-- `rules_widened`. -/
def rulesWidened (before after : Value) : List Bytes :=
  (before.field "restricted").items.flatMap (restrictedWidened after) ++ adminWidened before after ++
    (before.field "auth").items.flatMap (authWidened after) ++
    (after.field "auth").items.flatMap (opensInside before)

/-- How a command names its site. -/
structure Naming where
  -- the site's domain; else one of its aliases
  byDomain : Bool
  -- the running configuration serves it; else it is set aside
  served : Bool
  deriving DecidableEq

/-- The gate reads the site's file: `find_site` knows an alias of a site that is served only. -/
def Naming.seen (n : Naming) : Bool := n.byDomain || n.served

/-- `approval_reasons` of a site_update; `others` are the reasons its other fields give. -/
def approvalReasons (n : Naming) (before after : Value) (others : List Bytes) : List Bytes :=
  others ++ if n.seen then rulesWidened before after else []

/-! ## §2. What the gate has compared. -/

theorem reasonIf_nil {c : Bool} {reason : Bytes} : reasonIf c reason = [] ↔ c = false := by
  cases c <;> simp [reasonIf]

theorem entriesAdded_nil {was is : Value} : entriesAdded was is = [] ↔ ∀ a ∈ textsOf is, a ∈ textsOf was := by
  simp [entriesAdded]

/-- Nothing in the rules waits for a person. -/
structure Silent (before after : Value) : Prop where
  restricted : ∀ old ∈ (before.field "restricted").items, restrictedWidened after old = []
  admin : adminWidened before after = []
  auth : ∀ old ∈ (before.field "auth").items, authWidened after old = []

variable {before after : Value}

theorem silent_of_reasons {n : Naming} {others : List Bytes}
    (hn : n.seen = true) (h : approvalReasons n before after others = []) : Silent before after := by
  unfold approvalReasons rulesWidened at h
  rw [if_pos hn] at h
  simp only [List.append_eq_nil_iff, List.flatMap_eq_nil_iff] at h
  obtain ⟨-, ⟨⟨hr, ha⟩, hu⟩, -⟩ := h
  exact ⟨hr, ha, hu⟩

/-- What the gate compares of two rules of one kind. -/
structure Narrows (old now : Value) : Prop where
  entries : ∀ a ∈ textsOf (now.field "allow"), a ∈ textsOf (old.field "allow")
  mode : now.get "mode" = bytes "report" → old.get "mode" = bytes "report"

theorem Narrows.of_nil {old now : Value} {f : Bytes → Bytes} {reason : Bytes}
    (h : (entriesAdded (old.field "allow") (now.field "allow")).map f ++
      reasonIf (turnsReport old now) reason = []) : Narrows old now := by
  obtain ⟨hentries, hmode⟩ := List.append_eq_nil_iff.mp h
  refine ⟨entriesAdded_nil.mp (List.map_eq_nil_iff.mp hentries), fun hnow => ?_⟩
  have hturns := reasonIf_nil.mp hmode
  simpa [turnsReport, hnow] using hturns

theorem Silent.restricted_narrows {jo jn : Value} (h : Silent before after)
    (ho : jo ∈ (before.field "restricted").items)
    (hn : ruleAt (after.field "restricted") (jo.get "path") = some jn) : Narrows jo jn := by
  have hnil := h.restricted jo ho
  unfold restrictedWidened at hnil
  dsimp only at hnil
  rw [hn] at hnil
  exact Narrows.of_nil hnil

theorem Silent.admin_narrows (h : Silent before after)
    (ho : (before.field "admin").isObject = true) (hn : (after.field "admin").isObject = true) :
    Narrows (before.field "admin") (after.field "admin") := by
  have hnil := h.admin
  unfold adminWidened at hnil
  simp only [ho, hn, Bool.not_true, Bool.false_eq_true, if_false] at hnil
  exact Narrows.of_nil (List.append_eq_nil_iff.mp hnil).1

/-- What the gate compares of two password rules. -/
theorem Silent.auth_entries {jo jn : Value} (h : Silent before after)
    (ho : jo ∈ (before.field "auth").items) (hopen : (jo.field "open").isTrue = false)
    (hn : ruleAt (after.field "auth") (jo.get "path") = some jn) : (jn.field "open").isTrue = false ∧
      ∀ a ∈ textsOf (jn.field "skip_for"), a ∈ textsOf (jo.field "skip_for") := by
  have hnil := h.auth jo ho
  unfold authWidened at hnil
  simp only [hopen, hn, Bool.false_eq_true, if_false, List.append_eq_nil_iff, List.map_eq_nil_iff]
    at hnil
  obtain ⟨⟨hnow, hentries⟩, -⟩ := hnil
  exact ⟨reasonIf_nil.mp hnow, entriesAdded_nil.mp hentries⟩

/-! ## §3. The same of the rules as they are loaded. -/

section Loaded

variable {cfg : Addresses}

/-- Of a stored list the gate reads every entry. -/
theorem textsOf_of_textList {v : Value} (h : TextList v) : textsOf v = entryTexts v := by
  unfold textsOf entryTexts
  rw [List.filter_eq_self.mpr h]

theorem textsOf_subset (v : Value) : ∀ a ∈ textsOf v, a ∈ entryTexts v := by
  intro a ha
  obtain ⟨e, he, rfl⟩ := List.mem_map.mp ha
  exact List.mem_map_of_mem (List.mem_filter.mp he).1

/-- A list with no entry of its own admits nobody more. -/
theorem admits_of_entries {old now : Value} {x y : Allowed} (hx : readAllow cfg (entryTexts old) = some x)
    (hy : readAllow cfg (entryTexts now) = some y) (hstored : TextList now)
    (h : ∀ a ∈ textsOf now, a ∈ textsOf old) {a : Address} (ha : y.admits a = true) : x.admits a = true := by
  rw [readAllow_admits cfg a hy, List.any_eq_true] at ha
  obtain ⟨text, htext, hadm⟩ := ha
  rw [readAllow_admits cfg a hx, List.any_eq_true]
  exact ⟨text, textsOf_subset old text (h text (textsOf_of_textList hstored ▸ htext)), hadm⟩

variable {j : Value}

theorem loadAccess_some {r : AccessRule} (h : loadAccess cfg j = some r) :
    ∃ x, readAllow cfg (entryTexts (j.field "allow")) = some x ∧
      (∀ a, r.admits a = x.admits a) ∧ r.report = decide (j.get "mode" = bytes "report") := by
  unfold loadAccess at h
  split at h
  · rename_i at_ x hat hx
    refine ⟨x, hx, fun a => ?_, ?_⟩
    · cases h
      rfl
    · rw [← Option.some.inj h]
  · simp at h

/-- A rule admits nobody another one turned away, and refuses where that did. -/
structure NoWider (o n : AccessRule) : Prop where
  admits : ∀ a, n.admits a = true → o.admits a = true
  report : n.report = true → o.report = true

theorem Narrows.noWider {jo jn : Value} {o n : AccessRule} (h : Narrows jo jn)
    (ho : loadAccess cfg jo = some o) (hn : loadAccess cfg jn = some n)
    (hstored : TextList (jn.field "allow")) : NoWider o n := by
  obtain ⟨x, hx, hox, horep⟩ := loadAccess_some ho
  obtain ⟨y, hy, hny, hnrep⟩ := loadAccess_some hn
  refine ⟨fun a ha => ?_, fun hrep => ?_⟩
  · rw [hox]
    rw [hny] at ha
    exact admits_of_entries hx hy hstored h.entries ha
  · rw [hnrep, decide_eq_true_eq] at hrep
    rw [horep, decide_eq_true_eq]
    exact h.mode hrep

theorem restrictedRule_mode (path : Bytes) (exact : Bool) (mode : Bytes) (allow : Value) :
    (restrictedRule path exact (mode = bytes "report") allow).get "mode" = bytes "report" ↔
      mode = bytes "report" := by
  have hnone : ((((Value.object []).set "path" (.text path)).set "allow" allow).setIf exact "match"
      (.text (bytes "exact"))).field "mode" = .null := by
    simp (disch := decide) only [Value.field_setIf_ne, Value.field_set_ne]
    rfl
  unfold Value.get restrictedRule
  rw [Value.field_setIf_self, hnone]
  by_cases hmode : mode = bytes "report"
  · simp [hmode]
  simp only [hmode, decide_false, Bool.false_eq_true, if_false, iff_false]
  decide

/-- An expanded rule of `admin` holds its list and its mode. -/
theorem mem_adminRules {app : Bytes} {rules : Value} (h : j ∈ adminRules app rules) :
    (rules.field "admin").isObject = true ∧ j.field "allow" = (rules.field "admin").field "allow" ∧
      (j.get "mode" = bytes "report" ↔ (rules.field "admin").get "mode" = bytes "report") := by
  unfold adminRules at h
  dsimp only at h
  split at h
  · simp at h
  rename_i hobject
  obtain ⟨p, -, hj⟩ := List.mem_flatMap.mp h
  unfold adminRulesOf at hj
  obtain ⟨path, -, rfl⟩ := List.mem_map.mp hj
  exact ⟨by simpa using hobject, restrictedRule_allow _ _ _ _, restrictedRule_mode _ _ _ _⟩

theorem loadAuth_some {users : Nat} {r : AuthRule} (h : loadAuth cfg users j = some r)
    (hopen : (j.field "open").isTrue = false) :
    ∃ x, readAllow cfg (entryTexts (j.field "skip_for")) = some x ∧ x.any = false ∧ r.skip = x.ranges := by
  unfold loadAuth at h
  split at h
  · simp at h
  rw [if_neg (by simp [hopen])] at h
  split at h
  · simp at h
  rename_i x hx
  split at h
  · simp at h
  rename_i hany
  refine ⟨x, hx, by simpa using hany, ?_⟩
  rw [← Option.some.inj h]

/-- A password rule lets nobody in without its password whom another one asked. -/
def NoFreer (r r' : AuthRule) : Prop := ∀ a, inAny r'.skip a = true → inAny r.skip a = true

end Loaded

/-! ## §4. A change. -/

/-- A site_update: the rules before and after it, and the site as both load. -/
structure Update where
  naming : Naming
  cfg : Addresses
  -- `app` before and after, and the rest of the site
  app : Bytes
  app' : Bytes
  site : Site
  site' : Site
  users : Nat
  users' : Nat
  before : Value
  given : Value
  others : Except Refusal OtherRules
  after : Value
  accepted : checkRules cfg app' given others = .ok after
  old : Site
  loadsOld : loadedSite cfg app users site before = some old
  new : Site
  loadsNew : loadedSite cfg app' users' site' after = some new

namespace Update

variable (u : Update)

/-- The gate has compared the rule `o` with the rule `n`. -/
inductive ComparedAccess (o n : AccessRule) : Prop
  | restricted {jo jn : Value} (ho : jo ∈ (u.before.field "restricted").items)
    (hn : ruleAt (u.after.field "restricted") (jo.get "path") = some jn)
    (lo : loadAccess u.cfg jo = some o) (ln : loadAccess u.cfg jn = some n)
  | admin {jo jn : Value} (ho : jo ∈ adminRules u.app u.before) (hn : jn ∈ adminRules u.app' u.after)
    (lo : loadAccess u.cfg jo = some o) (ln : loadAccess u.cfg jn = some n)

/-- The same of two password rules. -/
inductive ComparedAuth (r r' : AuthRule) : Prop
  | auth {jo jn : Value} (ho : jo ∈ (u.before.field "auth").items)
    (hopen : (jo.field "open").isTrue = false)
    (hn : ruleAt (u.after.field "auth") (jo.get "path") = some jn)
    (lo : loadAuth u.cfg u.users jo = some r) (ln : loadAuth u.cfg u.users' jn = some r')

variable {u}

/-- **An address rule the gate has compared admits nobody more.** -/
theorem compared_noWider (h : Silent u.before u.after) {o n : AccessRule}
    (hc : u.ComparedAccess o n) : NoWider o n := by
  have hstored := checkRules_stored u.accepted
  cases hc with
  | restricted ho hn lo ln =>
    exact (h.restricted_narrows ho hn).noWider lo ln
      (hstored.restricted _ (List.mem_of_find?_eq_some hn))
  | admin ho hn lo ln =>
    obtain ⟨hoObject, hoAllow, hoMode⟩ := mem_adminRules ho
    obtain ⟨hnObject, hnAllow, hnMode⟩ := mem_adminRules hn
    have hadmin := h.admin_narrows hoObject hnObject
    have hnarrows : Narrows _ _ := ⟨by rw [hoAllow, hnAllow]; exact hadmin.entries,
      fun hmode => hoMode.mpr (hadmin.mode (hnMode.mp hmode))⟩
    exact hnarrows.noWider lo ln (by rw [hnAllow]; exact hstored.admin)

/-- **A password rule the gate has compared is skipped by nobody more.** -/
theorem comparedAuth_noFreer (h : Silent u.before u.after) {r r' : AuthRule}
    (hc : u.ComparedAuth r r') : NoFreer r r' := by
  obtain ⟨ho, hopen, hn, lo, ln⟩ := hc
  obtain ⟨hopen', hentries⟩ := h.auth_entries ho hopen hn
  have hstored := (checkRules_stored u.accepted).auth _ (List.mem_of_find?_eq_some hn)
  obtain ⟨x, hx, hxany, hxskip⟩ := loadAuth_some lo hopen
  obtain ⟨y, hy, hyany, hyskip⟩ := loadAuth_some ln hopen'
  intro a ha
  have hadm : y.admits a = true := by simpa [Allowed.admits, hyany, ← hyskip] using ha
  have hold := admits_of_entries hx hy hstored hentries hadm
  simpa [Allowed.admits, hxany, ← hxskip] using hold

end Update

/-! ## §5. What a request meets. -/

/-- What a password rule answers to a request that sends no password; nothing where it lets it
    through. -/
def treats (rule : AuthRule) (c : Client) : Option Nat :=
  if rule.skips c then none
  else if !rule.plainHttp && !c.secure && !c.isLocal then some 403
  else some 401

/-- The answer of the site's password rules to a request on a path. -/
def answers (site : Site) (isFile : Bytes → Bool) (path : Bytes) (c : Client) : Option Nat :=
  (site.authProtectingRule isFile path).bind fun rule => treats rule c

/-- Asked for a password, or refused over plain HTTP, a request is so still. -/
def StillAsked (was is : Option Nat) : Prop :=
  ∀ status, was = some status → ∃ status', is = some status' ∧ (status = 403 → status' = 403)

/-- Nobody gets past the new rules whom the old ones held back. -/
def KeepsOut (isFile : Bytes → Bool) (old new : Site) : Prop :=
  (∀ path a, (new.decide isFile a path).refuse = false → (old.decide isFile a path).refuse = false) ∧
    ∀ path c, StillAsked (answers old isFile path c) (answers new isFile path c)

/-- A rule skipped by nobody more asks whom the other one asked. -/
theorem stillAsked_of_noFreer {r r' : AuthRule} (h : NoFreer r r')
    (hplain : r'.plainHttp = true → r.plainHttp = true) (c : Client) :
    StillAsked (treats r c) (treats r' c) := by
  intro status hstatus
  unfold treats at hstatus
  split at hstatus
  · simp at hstatus
  rename_i hskips
  have hskips' : r'.skips c = false := by
    by_contra hskip
    have hin : r'.skip ≠ [] ∧ inAny r'.skip c.address = true := by
      simpa [AuthRule.skips] using hskip
    have hold := h c.address hin.2
    refine hskips ?_
    have hne : r.skip ≠ [] := by
      intro hnil
      rw [hnil] at hold
      simp [inAny] at hold
    simp [AuthRule.skips, hne, hold]
  unfold treats
  rw [if_neg (by simp [hskips'])]
  split at hstatus
  · rename_i hrefused
    -- what was refused over plain HTTP is so still
    have hplain' : r'.plainHttp = false := by
      by_contra hno
      simp [hplain (by simpa using hno)] at hrefused
    simp only [Bool.and_eq_true] at hrefused
    exact ⟨403, by simp [hplain', hrefused.1.2, hrefused.2], fun _ => rfl⟩
  · obtain rfl : 401 = status := Option.some.inj hstatus
    split
    · exact ⟨403, rfl, fun _ => rfl⟩
    · exact ⟨401, rfl, fun h => h⟩

theorem not_lets_iff (site : Site) (a : Address) (q : Bytes) : ¬ site.Lets a q ↔
      ∃ r, site.ruleFor q = some r ∧ r.admits a = false ∧ r.report = false := by
  unfold Site.Lets
  push Not
  simp only [ne_eq, Bool.not_eq_true]

/-- Whom the site turns away, one of the rules deciding a reading turns away. -/
theorem refuse_iff (site : Site) (isFile : Bytes → Bool) (a : Address) (path : Bytes) :
    (site.decide isFile a path).refuse = true ↔
      ∃ q ∈ site.readings isFile path, ∃ r, site.ruleFor q = some r ∧ r.admits a = false ∧
        r.report = false := by
  rw [← Bool.not_eq_false, site.decide_lets_iff isFile a path]
  push Not
  simp only [not_lets_iff]

namespace Update

variable (u : Update) (isFile : Bytes → Bool)

/-- The rule `n` takes the place of `o`: the gate has compared them, or it is an added or a moved one that
    admits nobody more. -/
def Stands (o n : AccessRule) : Prop := u.naming.seen = true ∧ u.ComparedAccess o n ∨ NoWider o n

/-- The same of two password rules; what goes over plain HTTP the gate does not compare. -/
def StandsAuth (r r' : AuthRule) : Prop :=
  (u.naming.seen = true ∧ u.ComparedAuth r r' ∨ NoFreer r r') ∧ (r'.plainHttp = true → r.plainHttp = true)

/-- Where a rule turned somebody away from a reading of the path, a rule that takes its place decides a
    reading now. -/
def AccessKept (path : Bytes) : Prop :=
  ∀ q ∈ u.old.readings isFile path, ∀ o, u.old.ruleFor q = some o → o.report = false →
    (∃ a, o.admits a = false) →
      ∃ q' ∈ u.new.readings isFile path, ∃ n, u.new.ruleFor q' = some n ∧ u.Stands o n

/-- Where a rule asked somebody for a password, the one found first now takes its place. -/
def PasswordKept (path : Bytes) : Prop :=
  ∀ r, u.old.authProtectingRule isFile path = some r → (∃ a, inAny r.skip a = false) →
    ∃ r', u.new.authProtectingRule isFile path = some r' ∧ u.StandsAuth r r'

/-- One rule decides every reading of the path now, or none does. -/
def OneRule (path : Bytes) : Prop := ∃ m, ∀ q ∈ u.new.readings isFile path, u.new.ruleFor q = m

/-- **The change confines itself** to rules that the gate compares or that are as strict. -/
structure Confined : Prop where
  access : ∀ path, u.AccessKept isFile path
  password : ∀ path, u.PasswordKept isFile path

variable {u isFile} {others : List Bytes}

/-- A rule that takes another one's place admits nobody more. -/
theorem Stands.noWider (hgate : approvalReasons u.naming u.before u.after others = []) {o n : AccessRule}
    (h : u.Stands o n) : NoWider o n := by
  rcases h with ⟨hseen, hcompared⟩ | hwider
  · exact compared_noWider (silent_of_reasons hseen hgate) hcompared
  · exact hwider

theorem StandsAuth.noFreer (hgate : approvalReasons u.naming u.before u.after others = []) {r r' : AuthRule}
    (h : u.StandsAuth r r') : NoFreer r r' := by
  rcases h.1 with ⟨hseen, hcompared⟩ | hfreer
  · exact comparedAuth_noFreer (silent_of_reasons hseen hgate) hcompared
  · exact hfreer

/-- Whom a closed rule turned away, the rule in its place turns away. -/
theorem AccessKept.refuses (hgate : approvalReasons u.naming u.before u.after others = []) {path : Bytes}
    (h : u.AccessKept isFile path) {a : Address} (hold : (u.old.decide isFile a path).refuse = true) :
    (u.new.decide isFile a path).refuse = true := by
  obtain ⟨q, hq, o, ho, hadm, hrep⟩ := (refuse_iff _ _ _ _).mp hold
  obtain ⟨q', hq', n, hn, hstands⟩ := h q hq o ho hrep ⟨a, hadm⟩
  have hwider := hstands.noWider hgate
  refine (refuse_iff _ _ _ _).mpr ⟨q', hq', n, hn, ?_, ?_⟩
  · by_contra hadm'
    exact absurd (hwider.admits a (by simpa using hadm')) (by simp [hadm])
  · by_contra hrep'
    exact absurd (hwider.report (by simpa using hrep')) (by simp [hrep])

theorem PasswordKept.stillAsked (hgate : approvalReasons u.naming u.before u.after others = []) {path : Bytes}
    (h : u.PasswordKept isFile path) (c : Client) :
    StillAsked (answers u.old isFile path c) (answers u.new isFile path c) := by
  intro status hstatus
  unfold answers at hstatus
  obtain ⟨r, hr, hasks⟩ := Option.bind_eq_some_iff.mp hstatus
  have houtside : ∃ a, inAny r.skip a = false := by
    refine ⟨c.address, ?_⟩
    by_contra hin
    have hskips : r.skips c = true := by
      have hin : inAny r.skip c.address = true := by simpa using hin
      have hne : r.skip ≠ [] := by
        intro hnil
        rw [hnil] at hin
        simp [inAny] at hin
      simp [AuthRule.skips, hne, hin]
    simp [treats, hskips] at hasks
  obtain ⟨r', hr', hstands⟩ := h r hr houtside
  obtain ⟨status', hs', h403⟩ := stillAsked_of_noFreer (hstands.noFreer hgate) hstands.2 c status hasks
  exact ⟨status', by simp [answers, hr', hs'], h403⟩

/-- Where one rule decides the whole path, it takes the place of every rule that turned somebody away. -/
theorem accessKept_of_keepsOut (h : KeepsOut isFile u.old u.new) {path : Bytes} (hone : u.OneRule isFile path) :
    u.AccessKept isFile path := by
  intro q hq o ho hrep houtside
  obtain ⟨m, hm⟩ := hone
  -- the rule that refuses now is the same for everybody
  have hrefused : ∀ a, o.admits a = false → ∃ q' ∈ u.new.readings isFile path, ∃ n,
      u.new.ruleFor q' = some n ∧ n.admits a = false ∧ n.report = false := by
    intro a hadm
    refine (refuse_iff _ _ _ _).mp ?_
    by_contra hlet
    have hold := (refuse_iff u.old isFile a path).mpr ⟨q, hq, o, ho, hadm, hrep⟩
    exact absurd (h.1 path a (by simpa using hlet)) (by simp [hold])
  obtain ⟨a₀, ha₀⟩ := houtside
  obtain ⟨q', hq', n, hn, -, hnrep⟩ := hrefused a₀ ha₀
  refine ⟨q', hq', n, hn, .inr ⟨fun a ha => ?_, fun hreport => absurd hreport (by simp [hnrep])⟩⟩
  by_contra hadm
  obtain ⟨q'', hq'', n', hn', hadm', -⟩ := hrefused a (by simpa using hadm)
  have hsame : some n' = some n := hn'.symm.trans ((hm q'' hq'').trans ((hm q' hq').symm.trans hn))
  rw [Option.some.inj hsame, ha] at hadm'
  cases hadm'

/-- A client from elsewhere, over plain HTTP. -/
def clearClient (a : Address) : Client := { address := a, tls := false }

theorem treats_clearClient {r : AuthRule} {a : Address} (ha : inAny r.skip a = false) :
    treats r (clearClient a) = some (if r.plainHttp then 401 else 403) := by
  have hskips : r.skips (clearClient a) = false := by simp [AuthRule.skips, clearClient, ha]
  unfold treats
  rw [if_neg (by simp [hskips])]
  cases r.plainHttp <;> rfl

theorem passwordKept_of_keepsOut (h : KeepsOut isFile u.old u.new) (path : Bytes) :
    u.PasswordKept isFile path := by
  intro r hr houtside
  have hstill : ∀ a, inAny r.skip a = false → ∃ r' status,
      u.new.authProtectingRule isFile path = some r' ∧ treats r' (clearClient a) = some status ∧
        (r.plainHttp = false → status = 403) := by
    intro a ha
    obtain ⟨status, hs, h403⟩ := h.2 path (clearClient a) _
      (by rw [answers, hr, Option.bind_some, treats_clearClient ha])
    obtain ⟨r', hr', hs'⟩ := Option.bind_eq_some_iff.mp hs
    exact ⟨r', status, hr', hs', fun hplain => h403 (by simp [hplain])⟩
  obtain ⟨a₀, ha₀⟩ := houtside
  obtain ⟨r', status, hr', hs, h403⟩ := hstill a₀ ha₀
  refine ⟨r', hr', .inr fun a ha => ?_, fun hplain => ?_⟩
  · -- whom the new rule skips it does not ask
    by_contra hout
    obtain ⟨r'', status', hr'', hs', -⟩ := hstill a (by simpa using hout)
    obtain rfl : r'' = r' := Option.some.inj (hr''.symm.trans hr')
    have hne : r''.skip ≠ [] := by
      intro hnil
      rw [hnil] at ha
      simp [inAny] at ha
    simp [treats, AuthRule.skips, clearClient, hne, ha] at hs'
  · by_contra hnot
    rw [h403 (by simpa using hnot)] at hs
    unfold treats at hs
    simp [hplain] at hs

end Update

/-! ## §6. Two changes. -/

/-- Two literals as they are read. -/
def twoAddresses : Addresses where
  make := fun text =>
    if text = bytes "203.0.113.7" then some ⟨false, [203, 0, 113, 7], rfl⟩
    else if text = bytes "203.0.113.8" then some ⟨false, [203, 0, 113, 8], rfl⟩
    else none
  sets := fun _ => none

/-- An address rule as a request gives it. -/
def addressRule (path : String) (allow : List String) : Value :=
  restrictedRule (bytes path) false false (.array (allow.map fun a => .text (bytes a)))

def restrictedRules (rules : List Value) : Value := .object [("restricted", .array rules)]

/-- The whole site for two addresses. -/
def forTwo : Value := restrictedRules [addressRule "/" ["203.0.113.7", "203.0.113.8"]]

/-- A site of one directory. -/
def plainSite : Site where
  locations := [{ id := 0, path := bytes "/" }]
  locations_ne := by simp
  validation_static := Dispatch.validation_files

def range (a b c d : UInt8) : Dispatch.Cidr :=
  (⟨⟨false, [a, b, c, d], rfl⟩, 32, by simp, by rfl⟩ : Net.Cidr).finish

def wholeFor (allow : List Dispatch.Cidr) : AccessRule :=
  { path := bytes "/", rooted := Dispatch.rooted_slash, allow }

def privateRule : AccessRule :=
  { path := bytes "/private", rooted := by decide, allow := [range 203 0 113 8] }

/-- The second of two addresses is taken away, and one directory gets a rule of its own. -/
def narrowed : Update where
  naming := ⟨true, true⟩
  cfg := twoAddresses
  app := bytes "static"
  app' := bytes "static"
  site := plainSite
  site' := plainSite
  users := 0
  users' := 0
  before := forTwo
  given := restrictedRules [addressRule "/" ["203.0.113.7"], addressRule "/private" ["203.0.113.8"]]
  others := .ok {}
  after := restrictedRules [addressRule "/" ["203.0.113.7"], addressRule "/private" ["203.0.113.8"]]
  accepted := by rfl
  old := { plainSite with access := [wholeFor [range 203 0 113 7, range 203 0 113 8]] }
  loadsOld := by rfl
  new := { plainSite with access := [privateRule, wholeFor [range 203 0 113 7]] }
  loadsNew := by rfl

theorem readings_plain {site : Site} (h : site.exactRules = false) (isFile : Bytes → Bool)
    (path : Bytes) : site.readings isFile path = path :: Dispatch.otherReadings path := by
  have hscript : ∀ p, site.scriptOf isFile p = none := by
    intro p
    simp [Site.scriptOf, h]
  have hone : ∀ p, site.withScript isFile p = [p] := by
    intro p
    simp [Site.withScript, hscript]
  unfold Site.readings
  rw [List.flatMap_congr fun p _ => hone p]
  simp

theorem narrowed_readings (isFile : Bytes → Bool) (path : Bytes) :
    narrowed.old.readings isFile path = narrowed.new.readings isFile path := by
  rw [readings_plain (by rfl), readings_plain (by rfl)]

theorem narrowed_confined (isFile : Bytes → Bool) : narrowed.Confined isFile := by
  refine ⟨fun path q hq o ho _ _ => ⟨q, narrowed_readings isFile path ▸ hq, ?_⟩, fun path r hr => ?_⟩
  · -- one rule covered every path
    have hold : narrowed.old.ruleFor q = some (wholeFor [range 203 0 113 7, range 203 0 113 8]) := by
      unfold Site.ruleFor
      rw [Dispatch.firstRule_eq]
      rfl
    obtain rfl : o = _ := Option.some.inj (ho.symm.trans hold)
    have hmem : addressRule "/" ["203.0.113.7", "203.0.113.8"] ∈
        (narrowed.before.field "restricted").items := List.mem_singleton.mpr rfl
    have hat : ruleAt (narrowed.after.field "restricted") (bytes "/") =
        some (addressRule "/" ["203.0.113.7"]) := by rfl
    have hnew : narrowed.new.ruleFor q = some privateRule ∨
        narrowed.new.ruleFor q = some (wholeFor [range 203 0 113 7]) := by
      have hfind : narrowed.new.ruleFor q =
          [privateRule, wholeFor [range 203 0 113 7]].find? fun r => r.toRulePath.covers q :=
        Dispatch.firstRule_eq q
      rw [hfind, List.find?_cons]
      split
      · exact .inl rfl
      · exact .inr rfl
    rcases hnew with hnew | hnew
    · refine ⟨_, hnew, .inr ⟨fun a ha => ?_, nofun⟩⟩
      have ha : inAny [range 203 0 113 8] a = true := ha
      show inAny [range 203 0 113 7, range 203 0 113 8] a = true
      simp only [inAny, List.any_cons, List.any_nil, Bool.or_false] at ha ⊢
      rw [ha, Bool.or_true]
    · exact ⟨_, hnew, .inl ⟨by decide, .restricted hmem hat (by rfl) (by rfl)⟩⟩
  · rw [Site.authProtectingRule_eq] at hr
    obtain ⟨q, -, hasks⟩ := List.exists_of_findSome?_eq_some hr
    simp [Site.asksAt, Site.authRuleFor, Dispatch.firstRule_eq, narrowed, plainSite] at hasks

/-- A rule for one page is added that lets everyone in. -/
def pageOpened : Update where
  naming := ⟨true, true⟩
  cfg := twoAddresses
  app := bytes "static"
  app' := bytes "static"
  site := plainSite
  site' := plainSite
  users := 0
  users' := 0
  before := forTwo
  given := restrictedRules [addressRule "/" ["203.0.113.7", "203.0.113.8"], addressRule "/open" ["any"]]
  others := .ok {}
  after := restrictedRules [addressRule "/" ["203.0.113.7", "203.0.113.8"], addressRule "/open" ["any"]]
  accepted := by rfl
  old := { plainSite with access := [wholeFor [range 203 0 113 7, range 203 0 113 8]] }
  loadsOld := by rfl
  new := { plainSite with access := [{ path := bytes "/open", rooted := by decide, any := true },
    wholeFor [range 203 0 113 7, range 203 0 113 8]] }
  loadsNew := by rfl

end Agensio.Control.Widening
