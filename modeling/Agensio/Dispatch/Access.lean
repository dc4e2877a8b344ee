/-
  Agensio.Dispatch.Access — which rule decides a path.

  Model of `core/access.hpp`: the cover test, the lookup of the deciding
  rule behind its first-byte bitmap, the other ways an origin may read a
  path, the script a path runs, and the two judgements made of them.
  `decide` asks the deciding rule of EVERY reading for the client's
  address; `auth_protecting_rule` stops at the first reading that falls
  under a rule with a password.

  Main results:
    * `firstRule_eq` — the bitmap never hides a covering rule;
    * `decide_lets_iff` — a path is let through exactly when the deciding
      rule of every reading admits the client or only reports it;
    * `decide_refuse_iff` — with no rule in report mode, a path is refused
      exactly when the deciding rule of some reading turns the client away;
    * `authProtectingRule_eq` — the rule asked is the first one, in reading
      order, that is not open.
-/
import Agensio.Dispatch.Site

namespace Agensio.Dispatch

open Agensio.Http (slash percent normalizeTarget)

/-! ## §1. The cover test. -/

def lower (c : UInt8) : UInt8 := if 0x41 ≤ c && c ≤ 0x5a then c + 32 else c

/-- ASCII case-insensitive `starts_with`. -/
def iequalPrefix : Bytes → Bytes → Bool
  | _, [] => true
  | [], _ :: _ => false
  | a :: as, b :: bs => lower a = lower b && iequalPrefix as bs

namespace RulePath

def covers (r : RulePath) (path : Bytes) : Bool :=
  if r.isExact then path.length = r.path.length && iequalPrefix path r.path
  else if r.path.length = 1 then true
  else iequalPrefix path r.path &&
    (path.length = r.path.length || path[r.path.length]? = some slash)

end RulePath

/-- The byte after the leading slash, folded; 0 for a path without one. -/
def firstByte : Bytes → UInt8
  | _ :: c :: _ => lower c
  | _ => 0

/-- The bitmap of a rule list (`access_first`, `auth_first`): `/` as a prefix sets every bit. -/
def marksFirst (rules : List RulePath) (c : UInt8) : Bool :=
  rules.any fun r => (!r.isExact && r.path = [slash]) || c = firstByte r.path

section Lookup

variable {ρ : Type} (at_ : ρ → RulePath) (rules : List ρ)

/-- `rule_for` and `auth_rule_for`: one bit, then the first rule of the sorted list. -/
def firstRule (path : Bytes) : Option ρ :=
  if marksFirst (rules.map at_) (firstByte path) then rules.find? fun r => (at_ r).covers path
  else none

variable {at_ rules}

theorem firstByte_of_iequalPrefix {path q : Bytes} (h : iequalPrefix path q = true)
    (hq : 2 ≤ q.length) : firstByte path = firstByte q := by
  match path, q with
  | _, [] => simp at hq
  | _, [_] => simp at hq
  | [], _ :: _ :: _ => simp [iequalPrefix] at h
  | [_], _ :: _ :: _ => simp [iequalPrefix] at h
  | _ :: c :: _, _ :: d :: _ =>
    simp only [iequalPrefix, Bool.and_eq_true, decide_eq_true_eq] at h
    exact h.2.1

/-- A rule that covers a path has set the path's bit. -/
theorem covers_marks {r : RulePath} {path : Bytes} (h : r.covers path = true) :
    ((!r.isExact && r.path = [slash]) || firstByte path = firstByte r.path) = true := by
  have hr := r.rooted
  unfold RulePath.covers at h
  match hp : r.path with
  | [] => simp [hp] at hr
  | [c] =>
    rw [hp] at hr h
    obtain rfl : c = slash := by simpa using hr
    cases he : r.isExact with
    | false => simp
    | true =>
      -- an exact rule on the root covers one byte
      rw [he, if_pos rfl] at h
      rw [Bool.and_eq_true, decide_eq_true_eq] at h
      have hl : path.length = 1 := h.1
      match path, hl with
      | [_], _ => simp [firstByte]
  | c :: d :: rest =>
    have hpre : iequalPrefix path r.path = true := by
      split at h
      · rw [Bool.and_eq_true] at h
        exact h.2
      split at h
      · next hlen => simp [hp] at hlen
      rw [Bool.and_eq_true] at h
      exact h.1
    have hb := firstByte_of_iequalPrefix hpre (by simp [hp])
    rw [hp] at hb
    simp [hb]

/-- **The bitmap never hides a covering rule.** -/
theorem firstRule_eq (path : Bytes) :
    firstRule at_ rules path = rules.find? fun r => (at_ r).covers path := by
  unfold firstRule
  split
  · rfl
  next hbit =>
  symm
  rw [List.find?_eq_none]
  intro r hr hc
  apply hbit
  unfold marksFirst
  rw [List.any_map, List.any_eq_true]
  exact ⟨r, hr, covers_marks hc⟩

end Lookup

namespace Site

variable (site : Site)

def ruleFor (path : Bytes) : Option AccessRule := firstRule AccessRule.toRulePath site.access path

def authRuleFor (path : Bytes) : Option AuthRule := firstRule AuthRule.toRulePath site.auth path

end Site

/-! ## §2. The readings of a path. -/

/-- Every segment without its `;parameter`. -/
def stripParameters : Bool → Bytes → Bytes
  | _, [] => []
  | skip, c :: cs =>
    let skip := if c = slash then false else if c = 0x3b then true else skip
    if skip then stripParameters skip cs else c :: stripParameters skip cs

/-- `other_readings`, in the order they are handed out. -/
def otherReadings (path : Bytes) : List Bytes :=
  (if path.contains 0x3b then
    ((normalizeTarget (stripParameters false path)).map Prod.fst).toList else []) ++
  (if path.contains percent then ((normalizeTarget path).map Prod.fst).toList else []) ++
  ((phpEnd path).map path.drop).toList

namespace Site

variable (site : Site)

/-- A rule that refuses some clients names one path alone. -/
def exactRules : Bool :=
  (site.access.any fun r => r.isExact && !r.any) || site.auth.any fun r => r.isExact && !r.isOpen

def cgiLocations : Bool := site.locations.any fun l => l.kind = .cgi

/-- `script_of`: the script `path` runs when that is not the path itself. -/
def scriptOf (isFile : Bytes → Bool) (path : Bytes) : Option Bytes :=
  let dir : Bool := path.getLast? = some slash
  if !site.exactRules || path = [] then none
  else if (phpEnd path).isNone && !dir && !site.cgiLocations then none
  else
    let loc := site.location path
    match loc.kind with
    | .fastcgi =>
      match phpEnd path, loc.pathInfo with
      | some n, true => some (path.take n)
      | _, _ => if dir then some (path ++ loc.index.headD (bytes "index.php")) else none
    | .cgi =>
      let full := if dir then path ++ loc.index.headD (bytes "index.cgi") else path
      let cut := cgiEnd loc isFile full
      if cut = 0 ∨ full.take cut = path then none else some (full.take cut)
    | _ => none

variable (isFile : Bytes → Bool)

/-- A reading, and the script it runs. -/
def withScript (path : Bytes) : List Bytes := path :: (site.scriptOf isFile path).toList

/-- Everything a path is judged as. -/
def readings (path : Bytes) : List Bytes :=
  (path :: otherReadings path).flatMap (site.withScript isFile)

theorem mem_readings_self (path : Bytes) : path ∈ site.readings isFile path := by
  unfold readings withScript
  simp

end Site

/-! ## §3. Access by address. -/

namespace AccessRule

def admits (r : AccessRule) (a : Address) : Bool := r.any || inAny r.allow a

end AccessRule

/-- What the access rules say of a client at a path. -/
structure Decision where
  rule : Option AccessRule := none
  admitted : Bool := false

namespace Decision

def refuse (d : Decision) : Bool := d.rule.any fun r => !r.report

end Decision

namespace Site

variable (site : Site) (isFile : Bytes → Bool) (a : Address)

/-- The lambda `judge` of `decide`. -/
def judge (d : Decision) (p : Bytes) : Decision :=
  if d.refuse then d
  else
    match site.ruleFor p with
    | none => d
    | some r =>
      if r.any then d
      else if r.admits a then { d with admitted := d.admitted || !r.report }
      else if d.rule.isNone || !r.report then { d with rule := some r }
      else d

/-- `judge_all`: a reading, and its script while nothing refuses. -/
def judgeAll (d : Decision) (p : Bytes) : Decision :=
  let d := site.judge a d p
  if d.refuse then d
  else
    match site.scriptOf isFile p with
    | none => d
    | some s => site.judge a d s

/-- `access::decide`. -/
def decide (path : Bytes) : Decision :=
  (otherReadings path).foldl (site.judgeAll isFile a) (site.judgeAll isFile a {} path)

/-- The deciding rule of `p` lets the client in. -/
def Admitted (p : Bytes) : Prop := ∀ r, site.ruleFor p = some r → r.admits a = true

/-- The deciding rule of `p` lets the client in, or only reports it. -/
def Lets (p : Bytes) : Prop :=
  ∀ r, site.ruleFor p = some r → r.admits a = true ∨ r.report = true

variable {site}

/-- No rule of the site only reports. -/
def NoReports (site : Site) : Prop := ∀ r ∈ site.access, r.report = false

theorem report_of_ruleFor (hs : site.NoReports) {p : Bytes} {r : AccessRule}
    (h : site.ruleFor p = some r) : r.report = false := by
  unfold ruleFor at h
  rw [firstRule_eq] at h
  exact hs r (List.mem_of_find?_eq_some h)

theorem refuse_judge (d : Decision) (p : Bytes) :
    (site.judge a d p).refuse = false ↔ d.refuse = false ∧ site.Lets a p := by
  unfold judge
  split
  · next hr => simp [hr]
  next hr =>
  replace hr : d.refuse = false := by simpa using hr
  cases hp : site.ruleFor p with
  | none => simp [hr, Lets, hp]
  | some r =>
    dsimp only
    split
    · next hany => simp [hr, Lets, hp, AccessRule.admits, hany]
    split
    · next hadm =>
      have hsame : ({ d with admitted := d.admitted || !r.report } : Decision).refuse =
          d.refuse := rfl
      simp [hsame, hr, Lets, hp, hadm]
    · next hadm =>
      split
      · have hnew : ({ d with rule := some r } : Decision).refuse = !r.report := rfl
        simp [hnew, hr, Lets, hp, hadm]
      next hnone =>
      -- a rule found before keeps its place before one that reports
      have hrep : r.report = true := by
        simp only [Bool.or_eq_true, not_or, Bool.not_eq_true'] at hnone
        simpa using hnone.2
      simp [hr, Lets, hp, hrep]

theorem refuse_judgeAll (d : Decision) (p : Bytes) : (site.judgeAll isFile a d p).refuse = false ↔
      d.refuse = false ∧ ∀ q ∈ site.withScript isFile p, site.Lets a q := by
  have hfirst := @refuse_judge site a d p
  unfold judgeAll withScript
  dsimp only
  split
  · next hr =>
    have hno : ¬(d.refuse = false ∧ site.Lets a p) := by
      rw [← hfirst, hr]
      simp
    simp only [hr, Bool.true_eq_false, List.mem_cons, forall_eq_or_imp, false_iff]
    tauto
  · cases hq : site.scriptOf isFile p with
    | none => simpa using hfirst
    | some s =>
      simp only [Option.toList_some, List.mem_cons, List.not_mem_nil, or_false, forall_eq_or_imp, forall_eq]
      rw [refuse_judge, hfirst]
      tauto

theorem refuse_foldl (ps : List Bytes) : ∀ d : Decision,
    (ps.foldl (site.judgeAll isFile a) d).refuse = false ↔
      d.refuse = false ∧ ∀ q ∈ ps.flatMap (site.withScript isFile), site.Lets a q := by
  induction ps with
  | nil => intro d; simp
  | cons p ps ih =>
    intro d
    rw [List.foldl_cons, ih, refuse_judgeAll, List.flatMap_cons]
    simp only [List.mem_append, or_imp, forall_and]
    tauto

/-- **A path is let through exactly when the deciding rule of every reading admits the client or
    only reports it.** -/
theorem decide_lets_iff (path : Bytes) : (site.decide isFile a path).refuse = false ↔
      ∀ r ∈ site.readings isFile path, site.Lets a r := by
  unfold decide readings
  rw [refuse_foldl, refuse_judgeAll, List.flatMap_cons]
  simp only [List.mem_append, or_imp, forall_and]
  simp [Decision.refuse]

theorem lets_iff_admitted (hs : site.NoReports) (p : Bytes) : site.Lets a p ↔ site.Admitted a p := by
  constructor
  · intro h r hr
    obtain hadm | hrep := h r hr
    · exact hadm
    · simp [report_of_ruleFor hs hr] at hrep
  · exact fun h r hr => .inl (h r hr)

/-- **Without report mode a path is let through exactly when the deciding rule of every reading
    admits the client.** -/
theorem decide_refuse_iff (hs : site.NoReports) (path : Bytes) : (site.decide isFile a path).refuse = false ↔
      ∀ r ∈ site.readings isFile path, site.Admitted a r := by
  rw [decide_lets_iff]
  simp only [lets_iff_admitted a hs]

/-- The deciding rule in the words of the rule list. -/
theorem admitted_iff {p : Bytes} : site.Admitted a p ↔
      ∀ r, site.access.find? (fun r => r.toRulePath.covers p) = some r → r.admits a = true := by
  unfold Admitted ruleFor
  rw [firstRule_eq]

end Site

/-! ## §4. The password rule. -/

namespace Site

variable (site : Site) (isFile : Bytes → Bool)

/-- The rule of a reading that asks for a password. -/
def asksAt (p : Bytes) : Option AuthRule := (site.authRuleFor p).filter fun r => !r.isOpen

/-- The lambda `judge_all` of `auth_protecting_rule`. -/
def protects (found : Option AuthRule) (p : Bytes) : Option AuthRule :=
  match found with
  | some r => some r
  | none =>
    match site.asksAt p with
    | some r => some r
    | none => (site.scriptOf isFile p).bind site.asksAt

/-- `auth_protecting_rule`. -/
def authProtectingRule (path : Bytes) : Option AuthRule :=
  match site.protects isFile none path with
  | some r => some r
  | none => (otherReadings path).foldl (site.protects isFile) none

variable {site isFile}

theorem protects_none (p : Bytes) :
    site.protects isFile none p = (site.withScript isFile p).findSome? site.asksAt := by
  unfold protects withScript
  cases hp : site.asksAt p with
  | some r => simp [hp]
  | none =>
    cases site.scriptOf isFile p with
    | none => simp [hp]
    | some s =>
      simp only [Option.toList_some, List.findSome?_cons, hp, List.findSome?_nil]
      cases h : site.asksAt s <;> simp [h]

theorem foldl_protects_some (r : AuthRule) (ps : List Bytes) :
    ps.foldl (site.protects isFile) (some r) = some r := by
  induction ps with
  | nil => rfl
  | cons p ps ih => exact ih

theorem foldl_protects (ps : List Bytes) : ps.foldl (site.protects isFile) none =
      (ps.flatMap (site.withScript isFile)).findSome? site.asksAt := by
  induction ps with
  | nil => rfl
  | cons p ps ih =>
    rw [List.foldl_cons, List.flatMap_cons, List.findSome?_append, protects_none]
    cases h : (site.withScript isFile p).findSome? site.asksAt with
    | none => simpa using ih
    | some r => simpa using foldl_protects_some r ps

/-- **The rule asked is the first one, in reading order, that is not open.** -/
theorem authProtectingRule_eq (path : Bytes) :
    site.authProtectingRule isFile path = (site.readings isFile path).findSome? site.asksAt := by
  unfold authProtectingRule readings
  rw [List.flatMap_cons, List.findSome?_append, ← protects_none, ← foldl_protects]
  cases site.protects isFile none path <;> rfl

end Site

end Agensio.Dispatch
