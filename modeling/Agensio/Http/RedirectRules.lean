/-
  Agensio.Http.RedirectRules — the path rules of a site, compiled and matched.

  Model of `core/redirect.hpp`: `compile_from` and `compile_to` read what a
  rule is written as, `index` orders the rules of a site, and `match` takes
  one for a request.  The exact rules of one path stand with the most
  parameters first, then by their text; the prefix rules by their length.

  Main results:
    * `decodedEquals_iff`, `paramsMatch_iff` — what a parameter is compared
      with;
    * `match_iff` — the rule taken is the most specific one;
    * `match_none_iff` — and there is none only when no rule applies;
    * `match_perm` — the written order has no part in it.
-/
import Mathlib.Data.FinEnum
import Mathlib.Data.List.Infix
import Mathlib.Data.List.Sort
import Agensio.Http.Normalised
import Agensio.Http.Redirect

namespace Agensio.Http.Redirect

open Agensio.Lib
open Agensio.Http1 (decimalText lower colon)

/-! ## §1. Escapes. -/

def kMaxRules : Nat := 1000
def kMaxLength : Nat := 2048
def kMaxParams : Nat := 8

/-- `decode`; `none` for a broken escape. -/
def decode : Bytes → Option Bytes
  | [] => some []
  | c :: rest =>
    if c ≠ percent then (decode rest).map (c :: ·)
    else
      match rest with
      | hi :: lo :: rest =>
        match hexVal hi, hexVal lo with
        | some h, some l => (decode rest).map (UInt8.ofNat (h * 16 + l) :: ·)
        | _, _ => none
      | _ => none

/-- `decoded_equals`: as the loop goes along both. -/
def decodedEquals : Bytes → Bytes → Bool
  | [], decoded => decoded = []
  | [c], decoded => decoded = [c]
  | [c, d], decoded => decoded = [c, d]
  | c :: hi :: lo :: rest, decoded =>
    let step := if c = percent then
        match hexVal hi, hexVal lo with
        | some h, some l => some (UInt8.ofNat (h * 16 + l))
        | _, _ => none
      else none
    match decoded with
    | [] => false
    | x :: xs =>
      match step with
      | some d => x = d && decodedEquals rest xs
      | none => x = c && decodedEquals (hi :: lo :: rest) xs

/-- `valid_part`: pchar, `/`, an escape, and in a query or fragment `?` too. -/
def validPart (query : Bool) : Bytes → Bool
  | [] => true
  | c :: rest =>
    if c = percent then
      match rest with
      | hi :: lo :: rest => (hexVal hi).isSome && (hexVal lo).isSome && validPart query rest
      | _ => false
    else (pathChar c || c = slash || (query && c = question)) && validPart query rest

/-! ## §2. `from`. -/

abbrev amp : UInt8 := 0x26
abbrev equals : UInt8 := 0x3d

/-- What `compile_from` reads of a rule. -/
structure From where
  path : Bytes
  params : List (Bytes × Bytes) := []
  deriving DecidableEq

/-- A query parameter as it is written: its name, and its value. -/
def splitPair (pair : Bytes) : Bytes × Bytes :=
  let name := pair.takeWhile (· ≠ equals)
  (name, pair.drop (name.length + 1))

/-- The loop over the parameters of `from`. -/
def compileParams : Nat → Bytes → List (Bytes × Bytes) → Except Bytes (List (Bytes × Bytes))
  | 0, _, params => .ok params
  | n + 1, rest, params =>
    if rest = [] then .ok params
    else
      let pair := rest.takeWhile (· ≠ amp)
      let rest := rest.drop (pair.length + 1)
      match decode (splitPair pair).1, decode (splitPair pair).2 with
      | some name, some value =>
        if name = [] then
          .error (bytes "from's query parameter '" ++ pair ++ bytes "' is not name=value with valid %-escapes")
        else if params.any fun p => p.1 = name then
          .error (bytes "from names the query parameter '" ++ name ++ bytes "' twice")
        else if (params ++ [(name, value)]).length > kMaxParams then
          .error (bytes "from names more than 8 query parameters")
        else compileParams n rest (params ++ [(name, value)])
      | _, _ => .error (bytes "from's query parameter '" ++ pair ++ bytes "' is not name=value with valid %-escapes")

/-- `compile_from`. -/
def compileFrom (text : Bytes) (exact : Bool) : Except Bytes From :=
  if text.head? ≠ some slash then .error (bytes "from must be a path starting with '/' (\"/old-page\")")
  else if text.length > kMaxLength then .error (bytes "from is longer than 2048 bytes")
  else if text.contains fragmentMark then .error (bytes "from cannot name a fragment (#...): browsers never send it")
  else
    let path := text.takeWhile (· ≠ question)
    -- what the path normalises to is named behind the message
    if (normalizeTarget path).map Prod.fst ≠ some path then
      .error (bytes "from must be a normalised path, written as it decodes: no '.', '..' or '//' segments and no %-escapes")
    else if !(text.contains question) then .ok { path }
    else if !exact then .error (bytes "only an exact rule (match = \"exact\") can name query parameters")
    else if text.drop (path.length + 1) = [] then .error (bytes "from ends with '?' and names no query parameter")
    else (compileParams text.length (text.drop (path.length + 1)) []).map fun params => { path, params }

/-! ## §3. `to`. -/

/-- What `compile_to` reads of a rule; every byte is printable. -/
structure Target where
  origin : Bytes
  toPath : Bytes
  toQuery : Bytes
  toFragment : Bytes
  clean : ∀ c ∈ origin ++ toPath ++ toQuery ++ toFragment, 0x20 < c ∧ c < 0x7f
  deriving DecidableEq

def letter (c : UInt8) : Bool := (0x61 ≤ c && c ≤ 0x7a) || (0x41 ≤ c && c ≤ 0x5a)

def digit (c : UInt8) : Bool := 0x30 ≤ c && c ≤ 0x39

/-- The host and the port of an authority, or what is wrong with them. -/
def splitAuthority (authority : Bytes) : Except Bytes (Bytes × Bytes) :=
  if authority.head? = some 0x5b then
    if !(authority.contains 0x5d) then .error (bytes "to's host has an unclosed '['")
    else
      let host := authority.takeWhile (· ≠ 0x5d) ++ [0x5d]
      let port := authority.drop host.length
      if port ≠ [] && port.head? ≠ some colon then .error (bytes "to's host is followed by '" ++ port ++ bytes "'")
      else if !(host.all fun c => (bytes "[]0123456789abcdefABCDEF:.").contains c) then
        .error (bytes "to's IPv6 host is not one")
      else .ok (host, port.drop 1)
  else
    let host := authority.takeWhile (· ≠ colon)
    if host = [] || !(host.all fun c => letter c || digit c || c = dot || c = 0x2d) then
      .error (bytes "to's host '" ++ host ++ bytes "' is not a host name")
    else .ok (host, authority.drop (host.length + 1))

/-- The origin of a target and what follows it; no origin for a path of the site. -/
def splitOrigin (text : Bytes) : Except Bytes (Bytes × Bytes) :=
  let scheme := if bytes "https://" <+: text then bytes "https://" else if bytes "http://" <+: text then bytes "http://" else []
  if scheme ≠ [] then
    let rest := text.drop scheme.length
    let authority := rest.takeWhile fun c => c ≠ slash && c ≠ question && c ≠ fragmentMark
    if authority = [] then .error (bytes "to names no host after " ++ scheme)
    else if authority.contains 0x40 then .error (bytes "to cannot carry a user name or password (user@host)")
    else
      match splitAuthority authority with
      | .error why => .error why
      | .ok (_, port) =>
        if port ≠ [] && (port.length > 5 || !(port.all digit)) then
          .error (bytes "to's port '" ++ port ++ bytes "' is not a number")
        else .ok (scheme ++ authority.map lower, rest.drop authority.length)
  else if bytes "://" <:+: text || text.head? ≠ some slash then
    .error (bytes "to must be a path of this site (\"/new\") or an http:// or https:// URL")
  else if [slash, slash] <+: text then .error (bytes "to cannot start with \"//\": browsers read it as another host")
  else .ok ([], text)

/-- A `.` or `..` segment, as written. -/
def dotSegment (p : Bytes) : Bool :=
  p = [dot] || p = [dot, dot] || bytes "/./" <:+: p || bytes "/../" <:+: p || bytes "/." <:+ p || bytes "/.." <:+ p

/-- `compile_to`. -/
def compileTo (text : Bytes) : Except Bytes Target :=
  if text.length > kMaxLength then .error (bytes "to is longer than 2048 bytes")
  else if text.any fun c => c ≤ 0x20 || 0x7f ≤ c || c = backslash then
    .error (bytes "to holds a space, a control character, a backslash or a byte beyond ASCII: percent-encode it (%20, %C3%A9)")
  else
    match splitOrigin text with
    | .error why => .error why
    | .ok (origin, rest) =>
      let before := rest.takeWhile (· ≠ fragmentMark)
      let toFragment := rest.drop (before.length + 1)
      let toPath := before.takeWhile (· ≠ question)
      let toQuery := before.drop (toPath.length + 1)
      if !(validPart false toPath) || !(validPart true toQuery) || !(validPart true toFragment) then
        .error (bytes "to holds a byte a URL cannot carry as it is, or a broken %-escape: percent-encode it")
      else if dotSegment toPath then
        .error (bytes "to's path has '.' or '..' segments: write the path they lead to")
      else if h : ∀ c ∈ origin ++ toPath ++ toQuery ++ toFragment, 0x20 < c ∧ c < 0x7f then
        .ok ⟨origin, toPath, toQuery, toFragment, h⟩
      else .error []

/-! ## §4. Rules. -/

/-- `RedirectRule`. -/
structure RedirectRule extends Rule where
  text : Bytes
  params : List (Bytes × Bytes) := []

/-- A rule as the loader makes it of a `from` and a `to`; a 410 has no target. -/
structure RedirectRule.Compiled (r : RedirectRule) : Prop where
  compiledFrom : compileFrom r.text r.exact = .ok { path := r.fromPath, params := r.params }
  compiledTo : r.status ≠ 410 → ∃ written target, compileTo written = .ok target ∧ r.origin = target.origin ∧
    r.toPath = target.toPath ∧ r.toQuery = target.toQuery ∧ r.toFragment = target.toFragment

def covers (r : RedirectRule) (path : Bytes) : Bool :=
  r.fromPath.isPrefixOf path &&
    (r.fromPath.getLast? = some slash || path.length = r.fromPath.length || path[r.fromPath.length]? = some slash)

/-- The loop over the parameters of a query, for one that a rule names. -/
def hasParam (name value : Bytes) : Nat → Bytes → Bool
  | 0, _ => false
  | n + 1, rest =>
    if rest = [] then false
    else
      let pair := rest.takeWhile (· ≠ amp)
      if decodedEquals (splitPair pair).1 name && decodedEquals (splitPair pair).2 value then true
      else hasParam name value n (rest.drop (pair.length + 1))

def paramsMatch (r : RedirectRule) (query : Bytes) : Bool := r.params.all fun p => hasParam p.1 p.2 (query.length + 1) query

/-! ## §5. The tables. -/

/-- What a `std::uint16_t` keeps of a number. -/
def u16 (n : Nat) : Nat := n % 65536

/-- The order of the exact rules of one path. -/
def moreSpecific (x y : RedirectRule) : Bool :=
  if x.params.length ≠ y.params.length then x.params.length > y.params.length else x.text ≤ y.text

/-- The bit of a prefix rule's first byte behind the slash. -/
def marksFirst (r : RedirectRule) (c : UInt8) : Bool := !r.exact && r.fromPath ≠ [slash] && r.fromPath[1]? = some c

/-- `RedirectSet`; an index into `rules` is two bytes. -/
structure RedirectSet where
  rules : List RedirectRule
  -- the table of exact rules, by path
  exact : Bytes → List Nat
  prefixes : List Nat
  first : UInt8 → Bool
  rootPrefix : Bool

namespace RedirectSet

variable (set : RedirectSet)

def at_ (i : Nat) (hit : RedirectRule → Bool) : Option RedirectRule := (set.rules[i]?).filter hit

/-- The first rule of a list with a property. -/
def firstOf (members : List Nat) (hit : RedirectRule → Bool) : Option RedirectRule :=
  members.findSome? fun i => set.at_ i hit

end RedirectSet

/-- The indices of the rules of a kind, in the order written. -/
def places (rules : List RedirectRule) (kind : RedirectRule → Bool) : List Nat :=
  (List.range rules.length).filterMap fun i => if (rules[i]?).any kind then some (u16 i) else none

/-- Two indices, compared by the rules there. -/
def byRules (rules : List RedirectRule) (le : RedirectRule → RedirectRule → Bool) (a b : Nat) : Bool :=
  match rules[a]?, rules[b]? with
  | none, _ => true
  | some _, none => false
  | some x, some y => le x y

def index (rules : List RedirectRule) : RedirectSet where
  rules
  exact := fun path =>
    (places rules fun r => r.exact && r.fromPath = path).mergeSort (byRules rules moreSpecific)
  prefixes := (places rules fun r => !r.exact).mergeSort
    (byRules rules fun x y => x.fromPath.length ≥ y.fromPath.length)
  first := fun c => rules.any fun r => marksFirst r c
  rootPrefix := rules.any fun r => !r.exact && r.fromPath = [slash]

def match_ (set : RedirectSet) (path query : Bytes) (encodedSeparator : Bool) : Option RedirectRule :=
  (set.firstOf (set.exact path) fun r => paramsMatch r query).or
    (if set.prefixes = [] || encodedSeparator then none
    -- no prefix rule has the path's first byte
    else if !set.rootPrefix && !((path[1]?).any set.first) then none
    else set.firstOf set.prefixes fun r => covers r path)

/-! ## §6. Parameters. -/

/-- The comparison as one goes along is that of what the part decodes to. -/
theorem decodedEquals_iff : ∀ (raw decoded : Bytes), decodedEquals raw decoded = true ↔ unescape raw = decoded
  | [], decoded => by
    unfold decodedEquals unescape
    rw [decide_eq_true_eq]
    exact eq_comm
  | [c], decoded => by
    unfold decodedEquals unescape
    rw [decide_eq_true_eq]
    exact eq_comm
  | [c, d], decoded => by
    unfold decodedEquals unescape
    rw [decide_eq_true_eq]
    exact eq_comm
  | c :: hi :: lo :: rest, decoded => by
    have ihEscape := decodedEquals_iff rest
    have ihPlain := decodedEquals_iff (hi :: lo :: rest)
    unfold decodedEquals unescape
    cases decoded with
    | nil =>
      refine ⟨fun h => (by cases h), fun h => ?_⟩
      split at h
      · split at h <;> cases h
      · cases h
    | cons x xs =>
      by_cases hc : c = percent
      · rw [if_pos hc, if_pos hc]
        cases hexVal hi with
        | none =>
          rw [Bool.and_eq_true, decide_eq_true_eq, ihPlain, List.cons.injEq]
          exact and_congr_left fun _ => eq_comm
        | some h =>
          cases hexVal lo with
          | none =>
            rw [Bool.and_eq_true, decide_eq_true_eq, ihPlain, List.cons.injEq]
            exact and_congr_left fun _ => eq_comm
          | some l =>
            rw [Bool.and_eq_true, decide_eq_true_eq, ihEscape, List.cons.injEq]
            exact and_congr_left fun _ => eq_comm
      · rw [if_neg hc, if_neg hc, Bool.and_eq_true, decide_eq_true_eq, ihPlain, List.cons.injEq]
        exact and_congr_left fun _ => eq_comm

/-- One of a query's parts, as sent, decodes to this name and this value. -/
def Present (query name value : Bytes) : Prop :=
  ∃ pair ∈ query.splitOn amp, unescape (splitPair pair).1 = name ∧ unescape (splitPair pair).2 = value

/-- The loop over a query's parts; the empty ones have no name. -/
theorem hasParam_iff {name value : Bytes} (hname : name ≠ []) (n : Nat) (query : Bytes) (hn : query.length < n) :
    hasParam name value n query = true ↔ Present query name value := by
  induction n generalizing query with
  | zero => omega
  | succ n ih =>
    unfold hasParam
    have hempty : ∀ pair : Bytes, pair = [] → unescape (splitPair pair).1 ≠ name := by
      rintro _ rfl
      exact fun h => hname h.symm
    split
    · next hnil =>
      subst hnil
      constructor
      · intro h
        cases h
      · rintro ⟨pair, hpair, hn', _⟩
        exact absurd hn' (hempty pair (List.mem_singleton.mp hpair))
    · next hne =>
      dsimp only
      have htest : ∀ pair : Bytes, (decodedEquals (splitPair pair).1 name && decodedEquals (splitPair pair).2 value) = true ↔
          unescape (splitPair pair).1 = name ∧ unescape (splitPair pair).2 = value := by
        intro pair
        rw [Bool.and_eq_true, decodedEquals_iff, decodedEquals_iff]
      by_cases hamp : amp ∈ query
      · have hcut := eq_takeWhile_ne hamp
        have hnot := not_mem_takeWhile_ne amp query
        generalize (query.takeWhile fun x => decide (x ≠ amp)) = pair at hcut hnot ⊢
        generalize query.drop (pair.length + 1) = rest at hcut ⊢
        have hlen := congrArg List.length hcut
        rw [List.length_append, List.length_cons] at hlen
        have hparts : query.splitOn amp = pair :: rest.splitOn amp := by
          rw [hcut, List.splitOn_append_cons_self, List.splitOn_eq_singleton hnot]
          rfl
        unfold Present
        rw [hparts]
        simp only [List.mem_cons, exists_eq_or_imp]
        split
        · next h => exact ⟨fun _ => .inl ((htest pair).mp h), fun _ => rfl⟩
        next h =>
        rw [ih rest (by omega)]
        exact ⟨.inr, fun hor => hor.resolve_left fun hp => h ((htest pair).mpr hp)⟩
      · -- the last part
        have hall : query.takeWhile (fun x => decide (x ≠ amp)) = query := by
          rw [List.takeWhile_eq_self_iff]
          exact fun x hx => decide_eq_true fun hxa => hamp (hxa ▸ hx)
        have hdrop : query.drop (query.length + 1) = [] := List.drop_of_length_le (by omega)
        unfold Present
        rw [hall, hdrop, List.splitOn_eq_singleton hamp]
        simp only [List.mem_singleton, exists_eq_left]
        split
        · next h => exact ⟨fun _ => (htest query).mp h, fun _ => rfl⟩
        next h =>
        constructor
        · intro h'
          cases n <;> cases h'
        · exact fun hp => absurd ((htest query).mpr hp) h

theorem compileParams_named : ∀ (n : Nat) (rest : Bytes) (params out : List (Bytes × Bytes)),
    compileParams n rest params = .ok out → (∀ p ∈ params, p.1 ≠ []) → ∀ p ∈ out, p.1 ≠ [] := by
  intro n
  induction n with
  | zero =>
    intro rest params out h hparams
    cases h
    exact hparams
  | succ n ih =>
    intro rest params out h hparams
    unfold compileParams at h
    split at h
    · cases h
      exact hparams
    dsimp only at h
    split at h
    · split at h
      · cases h
      next hname =>
      split at h
      · cases h
      split at h
      · cases h
      refine ih _ _ out h fun p hp => ?_
      rcases List.mem_append.mp hp with hp | hp
      · exact hparams p hp
      rw [List.mem_singleton.mp hp]
      exact hname
    · cases h

/-- What `compile_from` accepts. -/
theorem compileFrom_ok {text : Bytes} {exact_ : Bool} {out : From} (h : compileFrom text exact_ = .ok out) :
    (normalizeTarget out.path).map Prod.fst = some out.path ∧ (∀ p ∈ out.params, p.1 ≠ []) ∧
      (exact_ = false → out.params = []) := by
  unfold compileFrom at h
  split at h
  · cases h
  split at h
  · cases h
  split at h
  · cases h
  dsimp only at h
  split at h
  · cases h
  next hnorm =>
  rw [not_not] at hnorm
  split at h
  · cases h
    exact ⟨hnorm, fun p hp => absurd hp List.not_mem_nil, fun _ => rfl⟩
  split at h
  · cases h
  next hexact =>
  split at h
  · cases h
  cases hparams : compileParams text.length (text.drop ((text.takeWhile fun x => decide (x ≠ question)).length + 1)) [] with
  | error why =>
    rw [hparams] at h
    cases h
  | ok params =>
    rw [hparams] at h
    cases h
    refine ⟨hnorm, compileParams_named _ _ _ _ hparams fun p hp => absurd hp List.not_mem_nil, fun hf => ?_⟩
    rw [hf] at hexact
    exact absurd rfl hexact

/-- **A rule's parameters match**: each is present in the query. -/
theorem paramsMatch_iff {r : RedirectRule} (h : r.Compiled) (query : Bytes) :
    paramsMatch r query = true ↔ ∀ p ∈ r.params, Present query p.1 p.2 := by
  have hnamed := (compileFrom_ok h.compiledFrom).2.1
  unfold paramsMatch
  rw [List.all_eq_true]
  exact forall₂_congr fun p hp => hasParam_iff (hnamed p hp) _ query (Nat.lt_succ_self _)

/-! ## §7. The rule taken. -/

/-- An exact rule of the path, whose parameters are all present. -/
def Applies (r : RedirectRule) (path query : Bytes) : Prop :=
  r.exact = true ∧ r.fromPath = path ∧ ∀ p ∈ r.params, Present query p.1 p.2

/-- A prefix rule of whole segments in front of the path. -/
def Covers (r : RedirectRule) (path : Bytes) : Prop :=
  r.exact = false ∧ covers r path = true

/-- What a scan of the rules chooses: the exact rule with the most parameters, then the
    smallest text; else, unless a separator was escaped, the longest prefix rule. -/
def Taken (rules : List RedirectRule) (path query : Bytes) (encodedSeparator : Bool) (r : RedirectRule) : Prop :=
  r ∈ rules ∧
    ((Applies r path query ∧ ∀ x ∈ rules, Applies x path query →
        x.params.length < r.params.length ∨ (x.params.length = r.params.length ∧ r.text ≤ x.text)) ∨
      ((∀ x ∈ rules, ¬ Applies x path query) ∧ encodedSeparator = false ∧ Covers r path ∧
        ∀ x ∈ rules, Covers x path → x.fromPath.length ≤ r.fromPath.length))

section Lookup

variable {rules : List RedirectRule}

theorem u16_eq {n : Nat} (h : n < rules.length) (hfew : rules.length ≤ kMaxRules) : u16 n = n := by
  have hmax : kMaxRules = 1000 := rfl
  exact Nat.mod_eq_of_lt (by omega)

theorem mem_places (hfew : rules.length ≤ kMaxRules) (kind : RedirectRule → Bool) (i : Nat) :
    i ∈ places rules kind ↔ ∃ r, rules[i]? = some r ∧ kind r = true := by
  unfold places
  rw [List.mem_filterMap]
  constructor
  · rintro ⟨j, hj, hi⟩
    have hlt := List.mem_range.mp hj
    split at hi
    · next hkind =>
      rw [u16_eq hlt hfew] at hi
      obtain rfl := Option.some.inj hi
      cases hr : rules[j]? with
      | none =>
        rw [hr] at hkind
        cases hkind
      | some r =>
        rw [hr] at hkind
        exact ⟨r, rfl, hkind⟩
    · cases hi
  · rintro ⟨r, hr, hkind⟩
    have hlt := (List.getElem?_eq_some_iff.mp hr).1
    refine ⟨i, List.mem_range.mpr hlt, ?_⟩
    rw [hr, Option.any_some, if_pos hkind, u16_eq hlt hfew]

section Order

variable {le : RedirectRule → RedirectRule → Bool} (htrans : ∀ x y z, le x y = true → le y z = true → le x z = true)
  (htotal : ∀ x y, (le x y || le y x) = true)

include htrans htotal in
theorem byRules_sorted (l : List Nat) :
    (l.mergeSort (byRules rules le)).Pairwise fun a b => byRules rules le a b = true := by
  refine List.pairwise_mergeSort (fun a b c hab hbc => ?_) (fun a b => ?_) l
  · unfold byRules at hab hbc ⊢
    cases ha : rules[a]? with
    | none => rfl
    | some x =>
      cases hb : rules[b]? with
      | none => rw [ha, hb] at hab; cases hab
      | some y =>
        rw [ha, hb] at hab
        cases hc : rules[c]? with
        | none => rw [hb, hc] at hbc; cases hbc
        | some z =>
          rw [hb, hc] at hbc
          exact htrans x y z hab hbc
  · unfold byRules
    cases rules[a]? with
    | none => rfl
    | some x =>
      cases rules[b]? with
      | none => rfl
      | some y => exact htotal x y

include htrans htotal in
/-- What is found first in an ordered table: a rule with the property, before all others. -/
theorem firstOf_sorted (hfew : rules.length ≤ kMaxRules) {set : RedirectSet} (hset : set.rules = rules)
    {kind hit : RedirectRule → Bool} {r : RedirectRule}
    (h : set.firstOf ((places rules kind).mergeSort (byRules rules le)) hit = some r) :
    r ∈ rules ∧ kind r = true ∧ hit r = true ∧ ∀ x ∈ rules, kind x = true → hit x = true → x = r ∨ le r x = true := by
  unfold RedirectSet.firstOf RedirectSet.at_ at h
  rw [hset] at h
  obtain ⟨before, i, after, hcut, hi, hbefore⟩ := List.findSome?_eq_some_iff.mp h
  obtain ⟨hr, hhit⟩ := Option.filter_eq_some_iff.mp hi
  have hsorted := @byRules_sorted rules _ htrans htotal (places rules kind)
  have hmem : ∀ j, j ∈ before ++ i :: after ↔ ∃ x, rules[j]? = some x ∧ kind x = true := by
    intro j
    rw [← hcut, List.mem_mergeSort, mem_places hfew]
  rw [hcut] at hsorted
  obtain ⟨r', hr', hkind⟩ := (hmem i).mp (by simp)
  rw [hr] at hr'
  cases hr'
  refine ⟨List.mem_of_getElem? hr, hkind, hhit, fun x hx hxkind hxhit => ?_⟩
  obtain ⟨j, hj⟩ := List.getElem?_of_mem hx
  rcases List.mem_append.mp ((hmem j).mpr ⟨x, hj, hxkind⟩) with hin | hin
  · have := hbefore j hin
    rw [hj, Option.filter_some, if_pos hxhit] at this
    cases this
  · rcases List.mem_cons.mp hin with rfl | hin
    · rw [hr] at hj
      exact .inl (Option.some.inj hj).symm
    have hle := List.rel_of_pairwise_cons (List.pairwise_append.mp hsorted).2.1 hin
    unfold byRules at hle
    rw [hr, hj] at hle
    exact .inr hle

end Order

theorem firstOf_none {set : RedirectSet} (hset : set.rules = rules) {le : RedirectRule → RedirectRule → Bool}
    (hfew : rules.length ≤ kMaxRules) {kind hit : RedirectRule → Bool}
    (h : set.firstOf ((places rules kind).mergeSort (byRules rules le)) hit = none) :
    ∀ x ∈ rules, kind x = true → hit x = false := by
  intro x hx hkind
  obtain ⟨j, hj⟩ := List.getElem?_of_mem hx
  unfold RedirectSet.firstOf RedirectSet.at_ at h
  rw [hset] at h
  have := List.findSome?_eq_none_iff.mp h j (List.mem_mergeSort.mpr ((mem_places hfew kind j).mpr ⟨x, hj, hkind⟩))
  rw [hj] at this
  cases hhit : hit x with
  | false => rfl
  | true =>
    rw [Option.filter_some, if_pos hhit] at this
    cases this

theorem moreSpecific_iff (x y : RedirectRule) : moreSpecific x y = true ↔
    y.params.length < x.params.length ∨ (y.params.length = x.params.length ∧ x.text ≤ y.text) := by
  unfold moreSpecific
  split
  · next hne =>
    rw [decide_eq_true_eq]
    constructor
    · exact .inl
    · rintro (h | ⟨h, _⟩)
      · exact h
      · exact absurd h.symm hne
  · next heq =>
    rw [not_not] at heq
    rw [decide_eq_true_eq]
    constructor
    · exact fun h => .inr ⟨heq.symm, h⟩
    · rintro (h | ⟨_, h⟩)
      · omega
      · exact h

theorem moreSpecific_trans (x y z : RedirectRule) (hxy : moreSpecific x y = true) (hyz : moreSpecific y z = true) :
    moreSpecific x z = true := by
  rw [moreSpecific_iff] at *
  rcases hxy with hxy | ⟨hxy, htext⟩
  · rcases hyz with hyz | ⟨hyz, _⟩
    · exact .inl (by omega)
    · exact .inl (by omega)
  · rcases hyz with hyz | ⟨hyz, htext'⟩
    · exact .inl (by omega)
    · exact .inr ⟨by omega, List.le_trans htext htext'⟩

theorem moreSpecific_total (x y : RedirectRule) : (moreSpecific x y || moreSpecific y x) = true := by
  rw [Bool.or_eq_true, moreSpecific_iff, moreSpecific_iff]
  rcases Nat.lt_trichotomy x.params.length y.params.length with h | h | h
  · exact .inr (.inl h)
  · rcases List.le_total x.text y.text with ht | ht
    · exact .inl (.inr ⟨h.symm, ht⟩)
    · exact .inr (.inr ⟨h, ht⟩)
  · exact .inl (.inl h)

theorem longer_trans (x y z : RedirectRule) (hxy : decide (x.fromPath.length ≥ y.fromPath.length) = true)
    (hyz : decide (y.fromPath.length ≥ z.fromPath.length) = true) :
    decide (x.fromPath.length ≥ z.fromPath.length) = true := by
  rw [decide_eq_true_eq] at *
  omega

theorem longer_total (x y : RedirectRule) :
    (decide (x.fromPath.length ≥ y.fromPath.length) || decide (y.fromPath.length ≥ x.fromPath.length)) = true := by
  rw [Bool.or_eq_true, decide_eq_true_eq, decide_eq_true_eq]
  omega

theorem RedirectRule.Compiled.from_slash {r : RedirectRule} (h : r.Compiled) : r.fromPath.head? = some slash := by
  have hnorm := (compileFrom_ok h.compiledFrom).1
  by_contra hne
  unfold normalizeTarget at hnorm
  rw [if_pos hne] at hnorm
  cases hnorm

/-- A prefix rule covers no path whose first byte it does not have. -/
theorem marks_of_covers (hcompiled : ∀ r ∈ rules, r.Compiled) {x : RedirectRule} {path : Bytes} (hx : x ∈ rules)
    (hcovers : Covers x path) (hroot : (index rules).rootPrefix = false) : (path[1]?).any (index rules).first = true := by
  have hslash := (hcompiled x hx).from_slash
  obtain ⟨hexact, hcov⟩ := hcovers
  unfold covers at hcov
  rw [Bool.and_eq_true, List.isPrefixOf_iff_prefix] at hcov
  obtain ⟨⟨rest, hrest⟩, _⟩ := hcov
  have hnotroot : x.fromPath ≠ [slash] := by
    intro hfrom
    have : (index rules).rootPrefix = true :=
      List.any_eq_true.mpr ⟨x, hx, by rw [hexact, decide_eq_true hfrom]; rfl⟩
    rw [hroot] at this
    cases this
  cases hfrom : x.fromPath with
  | nil =>
    rw [hfrom] at hslash
    cases hslash
  | cons s tail =>
    rw [hfrom] at hslash hnotroot hrest
    cases hslash
    cases tail with
    | nil => exact absurd rfl hnotroot
    | cons c tail =>
      have hat : path[1]? = some c := by
        rw [← hrest]
        rfl
      rw [hat, Option.any_some]
      refine List.any_eq_true.mpr ⟨x, hx, ?_⟩
      unfold marksFirst
      rw [hexact, hfrom]
      simp

/-- **A rule that is taken is the most specific one.** -/
theorem match_some (hfew : rules.length ≤ kMaxRules) (hcompiled : ∀ r ∈ rules, r.Compiled) {path query : Bytes}
    {encodedSeparator : Bool} {r : RedirectRule} (h : match_ (index rules) path query encodedSeparator = some r) :
    Taken rules path query encodedSeparator r := by
  have hexactkind : ∀ x ∈ rules, Applies x path query ↔ (x.exact && decide (x.fromPath = path)) = true ∧ paramsMatch x query = true := by
    intro x hx
    unfold Applies
    rw [Bool.and_eq_true, decide_eq_true_eq, paramsMatch_iff (hcompiled x hx), and_assoc]
  rcases Option.or_eq_some_iff.mp h with h | ⟨hnone, h⟩
  · obtain ⟨hr, hkind, hhit, hfirst⟩ := firstOf_sorted moreSpecific_trans moreSpecific_total hfew rfl h
    refine ⟨hr, .inl ⟨(hexactkind r hr).mpr ⟨hkind, hhit⟩, fun x hx happlies => ?_⟩⟩
    obtain ⟨hxkind, hxhit⟩ := (hexactkind x hx).mp happlies
    rcases hfirst x hx hxkind hxhit with rfl | hle
    · exact .inr ⟨rfl, List.le_refl _⟩
    · exact (moreSpecific_iff r x).mp hle
  · split at h
    · cases h
    next hprefixes =>
    split at h
    · cases h
    obtain ⟨hr, hkind, hhit, hfirst⟩ := firstOf_sorted longer_trans longer_total hfew rfl h
    rw [Bool.or_eq_true, not_or, Bool.not_eq_true, Bool.not_eq_true] at hprefixes
    refine ⟨hr, .inr ⟨fun x hx happlies => ?_, hprefixes.2, ⟨Bool.not_eq_true' _ ▸ hkind, hhit⟩, fun x hx hcov => ?_⟩⟩
    · obtain ⟨hxkind, hxhit⟩ := (hexactkind x hx).mp happlies
      have := firstOf_none rfl hfew hnone x hx hxkind
      rw [hxhit] at this
      cases this
    · rcases hfirst x hx (by rw [hcov.1]; rfl) hcov.2 with rfl | hle
      · exact le_rfl
      · exact of_decide_eq_true hle

/-- Where no rule is found, none applies. -/
theorem match_none (hfew : rules.length ≤ kMaxRules) (hcompiled : ∀ r ∈ rules, r.Compiled) {path query : Bytes}
    {encodedSeparator : Bool} (h : match_ (index rules) path query encodedSeparator = none) (r : RedirectRule) :
    ¬ Taken rules path query encodedSeparator r := by
  obtain ⟨hexact, hpre⟩ := Option.or_eq_none_iff.mp h
  rintro ⟨hr, ⟨happlies, _⟩ | ⟨_, hseparator, hcov, _⟩⟩
  · have := firstOf_none rfl hfew hexact r hr (by rw [happlies.1, decide_eq_true happlies.2.1]; rfl)
    rw [(paramsMatch_iff (hcompiled r hr) query).mpr happlies.2.2] at this
    cases this
  · have hmem : (places rules fun x => !x.exact) ≠ [] := by
      obtain ⟨i, hi⟩ := List.getElem?_of_mem hr
      exact List.ne_nil_of_mem ((mem_places hfew _ i).mpr ⟨r, hi, by rw [hcov.1]; rfl⟩)
    have hprefixes : (index rules).prefixes ≠ [] := by
      intro hnil
      have hlen := congrArg List.length hnil
      unfold index at hlen
      rw [List.length_mergeSort] at hlen
      exact hmem (List.length_eq_zero_iff.mp hlen)
    rw [if_neg (by simp [hprefixes, hseparator])] at hpre
    split at hpre
    · next hno =>
      rw [Bool.and_eq_true, Bool.not_eq_true', Bool.not_eq_true'] at hno
      rw [marks_of_covers hcompiled hr hcov hno.1] at hno
      cases hno.2
    · have := firstOf_none rfl hfew hpre r hr (by rw [hcov.1]; rfl)
      rw [hcov.2] at this
      cases this

end Lookup

/-! ## §8. No two rules of the same request. -/

/-- The order of parameters by their bytes. -/
def pairLe (a b : Bytes × Bytes) : Bool := a.1 < b.1 || (a.1 = b.1 && a.2 ≤ b.2)

/-- What `check_redirects` tells two rules apart by. -/
def ruleKey (r : RedirectRule) : Bytes :=
  (if r.exact then [equals] else [0x5e]) ++ r.fromPath ++
    (r.params.mergeSort pairLe).flatMap fun p => amp :: p.1 ++ equals :: p.2

/-- No two rules have the same kind, path and parameters. -/
def Distinct (rules : List RedirectRule) : Prop := (rules.map ruleKey).Nodup

section Choice

variable {rules : List RedirectRule} {path query : Bytes} {encodedSeparator : Bool}

variable {r : RedirectRule}

/-- A prefix rule names no parameters. -/
theorem params_of_prefix (h : r.Compiled) (hexact : r.exact = false) : r.params = [] :=
  (compileFrom_ok h.compiledFrom).2.2 hexact

theorem fromPath_front (h : Covers r path) : r.fromPath <+: path := by
  have hcov := h.2
  unfold covers at hcov
  rw [Bool.and_eq_true, List.isPrefixOf_iff_prefix] at hcov
  exact hcov.1

/-- **Only one rule is the most specific**, when no two are of the same request. -/
theorem taken_unique (hcompiled : ∀ r ∈ rules, r.Compiled) (hdistinct : Distinct rules) {x : RedirectRule}
    (hr : Taken rules path query encodedSeparator r) (hx : Taken rules path query encodedSeparator x) : r = x := by
  obtain ⟨hrmem, hr⟩ := hr
  obtain ⟨hxmem, hx⟩ := hx
  refine List.inj_on_of_nodup_map hdistinct hrmem hxmem ?_
  rcases hr with ⟨hrapplies, hrfirst⟩ | ⟨hrnone, _, hrcov, hrlong⟩
  · rcases hx with ⟨hxapplies, hxfirst⟩ | ⟨hxnone, _⟩
    · -- the same text, so the same parameters
      have htext : r.text = x.text := by
        rcases hrfirst x hxmem hxapplies with h | ⟨h, hle⟩
        · rcases hxfirst r hrmem hrapplies with h' | ⟨h', _⟩ <;> omega
        rcases hxfirst r hrmem hrapplies with h' | ⟨_, hle'⟩
        · omega
        · exact List.le_antisymm hle hle'
      have hsame := (hcompiled r hrmem).compiledFrom
      rw [htext, hrapplies.1, ← hxapplies.1, (hcompiled x hxmem).compiledFrom] at hsame
      obtain ⟨hpath, hparams⟩ := From.mk.inj (Except.ok.inj hsame)
      unfold ruleKey
      rw [hpath, hparams, hrapplies.1, hxapplies.1]
    · exact absurd hrapplies (hxnone r hrmem)
  · rcases hx with ⟨hxapplies, _⟩ | ⟨_, _, hxcov, hxlong⟩
    · exact absurd hxapplies (hrnone x hxmem)
    have hlen : r.fromPath.length = x.fromPath.length := by
      have := hrlong x hxmem hxcov
      have := hxlong r hrmem hrcov
      omega
    have hpath : r.fromPath = x.fromPath :=
      (List.prefix_of_prefix_length_le (fromPath_front hrcov) (fromPath_front hxcov) (by omega)).eq_of_length hlen
    unfold ruleKey
    rw [hpath, hrcov.1, hxcov.1, params_of_prefix (hcompiled r hrmem) hrcov.1, params_of_prefix (hcompiled x hxmem) hxcov.1]

/-- **The rule found is the one a scan chooses.** -/
theorem match_iff (hfew : rules.length ≤ kMaxRules) (hcompiled : ∀ r ∈ rules, r.Compiled) (hdistinct : Distinct rules)
    (r : RedirectRule) :
    match_ (index rules) path query encodedSeparator = some r ↔ Taken rules path query encodedSeparator r := by
  constructor
  · exact match_some hfew hcompiled
  · intro htaken
    cases hmatch : match_ (index rules) path query encodedSeparator with
    | none => exact absurd htaken (match_none hfew hcompiled hmatch r)
    | some x => rw [taken_unique hcompiled hdistinct htaken (match_some hfew hcompiled hmatch)]

theorem Taken.perm {rules' : List RedirectRule} (hperm : rules.Perm rules')
    (h : Taken rules path query encodedSeparator r) : Taken rules' path query encodedSeparator r := by
  have hmem : ∀ {x}, x ∈ rules' → x ∈ rules := fun hx => hperm.mem_iff.mpr hx
  obtain ⟨hr, h⟩ := h
  refine ⟨hperm.mem_iff.mp hr, h.imp ?_ ?_⟩
  · rintro ⟨happlies, hfirst⟩
    exact ⟨happlies, fun x hx => hfirst x (hmem hx)⟩
  · rintro ⟨hnone, hseparator, hcov, hlong⟩
    exact ⟨fun x hx => hnone x (hmem hx), hseparator, hcov, fun x hx => hlong x (hmem hx)⟩

/-- **The written order has no part in the choice.** -/
theorem match_perm (hfew : rules.length ≤ kMaxRules) (hcompiled : ∀ r ∈ rules, r.Compiled) (hdistinct : Distinct rules)
    {rules' : List RedirectRule} (hperm : rules.Perm rules') :
    match_ (index rules') path query encodedSeparator = match_ (index rules) path query encodedSeparator := by
  have hfew' : rules'.length ≤ kMaxRules := by
    rw [← hperm.length_eq]
    exact hfew
  have hcompiled' : ∀ r ∈ rules', r.Compiled := fun r hr => hcompiled r (hperm.mem_iff.mpr hr)
  have hdistinct' : Distinct rules' := (hperm.map ruleKey).nodup_iff.mp hdistinct
  refine Option.ext fun r => ?_
  rw [match_iff hfew' hcompiled' hdistinct', match_iff hfew hcompiled hdistinct]
  exact ⟨Taken.perm hperm.symm, Taken.perm hperm⟩

end Choice

end Agensio.Http.Redirect
