/-
  Agensio.Http.Redirect — the Location of a redirect.

  Model of `redirect::write_location` (`core/redirect.hpp`) and of
  `redirect_https` and `redirect_host` (`handlers/dispatch.cpp`).  The path
  rule that answers, if one does, is given; what the loader has checked of
  its target is a field of the rule.

  Main results:
    * `writeLocation_safe` — a rule's Location has no line end that its
      origin does not bring;
    * `redirectHttps_iff`, `redirectHost_iff` — when the Location is one
      line of the answer.
-/
import Agensio.Http.Path
import Agensio.Http1.Rendering

namespace Agensio.Http.Redirect

open Agensio.Http1 (iequals cr lf crlf colon fieldText fieldLines nextLine decimalText noCtl forall_byte)

/-! ## §1. Escaping. -/

/-- RFC 3986 pchar without `%`. -/
def pathChar (c : UInt8) : Bool :=
  (0x61 ≤ c && c ≤ 0x7a) || (0x41 ≤ c && c ≤ 0x5a) || (0x30 ≤ c && c ≤ 0x39) ||
    (bytes "-._~!$&'()*+,;=:@").contains c

def hexDigit (n : Nat) : UInt8 := (bytes "0123456789ABCDEF").getD n 0x30

def appendEscaped (c : UInt8) : Bytes := [percent, hexDigit (c.toNat / 16), hexDigit (c.toNat % 16)]

def appendPath (s : Bytes) : Bytes :=
  s.flatMap fun c => if pathChar c || c = slash then [c] else appendEscaped c

/-- The client's query; a `%` stays when it starts an escape. -/
def appendQuery : Bytes → Bytes
  | [] => []
  | c :: rest =>
    (if pathChar c || c = slash || c = question then [c]
    else if c = percent && (rest[0]?.bind hexVal).isSome && (rest[1]?.bind hexVal).isSome then [percent]
    else appendEscaped c) ++ appendQuery rest

/-! ## §2. A path rule. -/

/-- No byte ends a line. -/
def LineSafe (s : Bytes) : Prop := cr ∉ s ∧ lf ∉ s

instance (s : Bytes) : Decidable (LineSafe s) := inferInstanceAs (Decidable (cr ∉ s ∧ lf ∉ s))

/-- `RedirectRule`, with what `compile_to` has checked of its target. -/
structure Rule where
  fromPath : Bytes
  exact : Bool
  status : Nat
  origin : Bytes
  toPath : Bytes
  toQuery : Bytes
  toFragment : Bytes
  keepRemainder : Bool
  keepQuery : Bool
  target_clean : ∀ c ∈ origin ++ toPath ++ toQuery ++ toFragment, 0x20 < c ∧ c < 0x7f

/-- The path of the target, with what follows the rule's own. -/
def Rule.path (r : Rule) (path : Bytes) : Bytes :=
  if !r.exact && r.keepRemainder && decide (path.length > r.fromPath.length) then
    let rest := path.drop r.fromPath.length
    -- one slash at the join
    if r.toPath.getLast? = some slash && rest.head? = some slash then r.toPath ++ appendPath (rest.drop 1)
    else if r.toPath.getLast? ≠ some slash && rest.head? ≠ some slash then
      r.toPath ++ slash :: appendPath rest
    else r.toPath ++ appendPath rest
  else r.toPath

def Rule.query (r : Rule) (query : Bytes) : Bytes :=
  (if r.toQuery.isEmpty then [] else question :: r.toQuery) ++
    if r.keepQuery && !query.isEmpty then
      (if r.toQuery.isEmpty then question else 0x26) :: appendQuery query
    else []

/-- `write_location`. -/
def Rule.writeLocation (r : Rule) (path query origin : Bytes) : Bytes :=
  (if r.origin.isEmpty then origin else r.origin) ++
    (if (r.path path).isEmpty then [slash] else r.path path) ++ r.query query ++
    if r.toFragment.isEmpty then [] else fragmentMark :: r.toFragment

/-! ## §3. The redirects of a site. -/

structure Site where
  serverNames : List Bytes
  canonical : Bytes := []
  canonicalRedirect : Bool := false
  hstsOn : Bool := false
  httpsPort : Nat := 443
  deriving DecidableEq

/-- `rfind` of one byte. -/
def rfind (s : Bytes) (c : UInt8) : Option Nat :=
  if s.contains c then some (s.length - 1 - s.reverse.idxOf c) else none

/-- What stands before the last one, and behind it. -/
theorem rfind_some {s : Bytes} {c : UInt8} {i : Nat} (h : rfind s c = some i) :
    i < s.length ∧ s = s.take i ++ c :: s.drop (i + 1) ∧ c ∉ s.drop (i + 1) := by
  unfold rfind at h
  split at h
  · next hmem =>
    rw [List.contains_iff_mem, ← List.mem_reverse] at hmem
    obtain ⟨after, before, hs, hafter⟩ := List.eq_append_cons_of_mem hmem
    have hrev : s = before.reverse ++ c :: after.reverse := by
      rw [← List.reverse_reverse s, hs]
      simp
    have hidx : s.reverse.idxOf c = after.length := by
      rw [hs, List.idxOf_append_of_notMem hafter, List.idxOf_cons_self, Nat.add_zero]
    have hi : i = before.reverse.length := by
      rw [← Option.some.inj h, hidx, hrev]
      simp
    subst hi
    have hdrop : s.drop (before.reverse.length + 1) = after.reverse := by
      rw [hrev, ← List.drop_drop, List.drop_left]
      rfl
    have htake : s.take before.reverse.length = before.reverse := by
      rw [hrev, List.take_left]
    rw [hdrop, htake]
    refine ⟨?_, hrev, fun h => hafter (List.mem_reverse.mp h)⟩
    rw [hrev, List.length_append, List.length_cons]
    omega
  · cases h

theorem rfind_none {s : Bytes} {c : UInt8} (h : rfind s c = none) : c ∉ s := by
  unfold rfind at h
  split at h
  · cases h
  · next hmem => exact fun hc => hmem (List.contains_iff_mem.mpr hc)

/-- `split_host`: the name, without a dot at its end, and the port. -/
def splitHost (host : Bytes) : Bytes × Bytes :=
  let bare := match rfind host colon with
    | none => (host, [])
    | some at_ =>
      if (rfind host 0x5d).all (fun bracket => at_ > bracket) then (host.take at_, host.drop (at_ + 1))
      else (host, [])
  (if bare.1.getLast? = some dot then bare.1.dropLast else bare.1, bare.2)

namespace Site

variable (site : Site)

/-- `listed_name`: the site's own spelling. -/
def listedName (name : Bytes) : Option Bytes :=
  site.serverNames.find? fun n => n ≠ bytes "*" && iequals n name

def portText (n : Nat) : Bytes := if n = 443 then [] else colon :: decimalText n

/-- The name `redirect_https` goes to; `none` is the 400. -/
def httpsName (host : Bytes) : Option Bytes :=
  let name := (splitHost (if host.isEmpty then site.serverNames.headD [] else host)).1
  if name.isEmpty || name = bytes "*" then none
  else
    match site.listedName name with
    | none => some name
    | some listed =>
      if site.canonicalRedirect && !(site.hstsOn && listed ≠ site.canonical) then some site.canonical
      else some listed

/-- The name has to learn HSTS first: no rule joins this hop. -/
def sameNameFirst (host : Bytes) : Bool :=
  let name := (splitHost (if host.isEmpty then site.serverNames.headD [] else host)).1
  (site.listedName name).any fun listed =>
    site.canonicalRedirect && site.hstsOn && listed ≠ site.canonical

end Site

def appendTarget (target : Bytes) : Bytes := if target.head? = some slash then target else [slash]

def queryOf (target : Bytes) : Bytes := (target.dropWhile (· ≠ question)).drop 1

/-- The answer's Location: the rule's own, nothing for a 410, else origin and target. -/
def answer (rule : Option Rule) (origin path target : Bytes) : Option Bytes :=
  match rule with
  | none => some (origin ++ appendTarget target)
  | some r => if r.status = 410 then none else some (r.writeLocation path (queryOf target) origin)

namespace Site

variable (site : Site)

/-- `redirect_https`, given the rule `path_rule` finds. -/
def redirectHttps (host target path : Bytes) (rule : Option Rule) : Option Bytes :=
  match site.httpsName host with
  | none => none
  | some name =>
    answer (if site.sameNameFirst host then none else rule)
      (bytes "https://" ++ name ++ portText site.httpsPort) path target

/-- A port is repeated when it is a number. -/
def hostPort (port : Bytes) : Bytes :=
  if !port.isEmpty && port.all (fun c => 0x30 ≤ c && c ≤ 0x39) then colon :: port else []

/-- `redirect_host`; `none` when it does not answer. -/
def redirectHost (https : Bool) (host target path : Bytes) (rule : Option Rule) : Option Bytes :=
  let h := splitHost host
  if h.1.isEmpty || iequals h.1 site.canonical || (site.listedName h.1).isNone then none
  else
    answer rule ((if https then bytes "https://" else bytes "http://") ++ site.canonical ++ hostPort h.2)
      path target

end Site

/-! ## §4. What ends a line. -/

section LineSafe

variable {u v : Bytes}

theorem lineSafe_append : LineSafe (u ++ v) ↔ LineSafe u ∧ LineSafe v := by
  unfold LineSafe
  simp only [List.mem_append, not_or]
  exact ⟨fun h => ⟨⟨h.1.1, h.2.1⟩, h.1.2, h.2.2⟩, fun h => ⟨⟨h.1.1, h.2.1⟩, h.1.2, h.2.2⟩⟩

theorem lineSafe_of_forall (h : ∀ c ∈ u, c ≠ cr ∧ c ≠ lf) : LineSafe u :=
  ⟨fun hc => (h _ hc).1 rfl, fun hc => (h _ hc).2 rfl⟩

theorem lineSafe_of_noCtl (h : noCtl u = true) : LineSafe u :=
  ⟨Http1.notMem_noCtl h (by decide), Http1.notMem_noCtl h (by decide)⟩

theorem byte_safe : ∀ c : UInt8, (pathChar c = true → c ≠ cr ∧ c ≠ lf) ∧
    (appendEscaped c).all (fun d => d ≠ cr && d ≠ lf) = true :=
  forall_byte (by decide +kernel)

theorem pathChar_safe (c : UInt8) (h : pathChar c = true) : c ≠ cr ∧ c ≠ lf := (byte_safe c).1 h

/-- An escape is three printable bytes. -/
theorem appendEscaped_safe {c d : UInt8} (hd : d ∈ appendEscaped c) : d ≠ cr ∧ d ≠ lf := by
  simpa using List.all_eq_true.mp (byte_safe c).2 d hd

theorem appendPath_safe (s : Bytes) : LineSafe (appendPath s) := by
  refine lineSafe_of_forall fun c hc => ?_
  obtain ⟨d, _, hd⟩ := List.mem_flatMap.mp hc
  split at hd
  · rename_i hp
    rw [List.mem_singleton.mp hd]
    rcases (Bool.or_eq_true ..).mp hp with h | h
    · exact pathChar_safe d h
    rw [of_decide_eq_true h]
    decide
  · exact appendEscaped_safe hd

theorem appendQuery_safe (s : Bytes) : LineSafe (appendQuery s) := by
  induction s with
  | nil => exact ⟨nofun, nofun⟩
  | cons c rest ih =>
    unfold appendQuery
    rw [lineSafe_append]
    refine ⟨lineSafe_of_forall fun d hd => ?_, ih⟩
    split at hd
    · rename_i hp
      rw [List.mem_singleton.mp hd]
      simp only [Bool.or_eq_true, decide_eq_true_eq] at hp
      rcases hp with (h | rfl) | rfl
      · exact pathChar_safe c h
      · decide
      · decide
    · split at hd
      · rw [List.mem_singleton.mp hd]
        decide
      · exact appendEscaped_safe hd

/-- A part of a rule's own target. -/
theorem Rule.safe (r : Rule) {w : Bytes}
    (h : ∀ c ∈ w, c ∈ r.origin ++ r.toPath ++ r.toQuery ++ r.toFragment) : LineSafe w := by
  refine lineSafe_of_forall fun c hc => ?_
  have hlt : (0x20 : UInt8) < c := (r.target_clean c (h c hc)).1
  exact ⟨fun he => absurd (he ▸ hlt) (by decide), fun he => absurd (he ▸ hlt) (by decide)⟩

theorem lineSafe_ite {P : Prop} [Decidable P] (hu : LineSafe u) (hv : LineSafe v) :
    LineSafe (if P then u else v) := by
  split
  · exact hu
  · exact hv

theorem lineSafe_cons {c : UInt8} (hc : c ≠ cr ∧ c ≠ lf) (h : LineSafe u) : LineSafe (c :: u) :=
  ⟨List.not_mem_cons_of_ne_of_not_mem hc.1.symm h.1, List.not_mem_cons_of_ne_of_not_mem hc.2.symm h.2⟩

theorem lineSafe_nil : LineSafe [] := ⟨nofun, nofun⟩

/-- **A rule's Location** has no line end but what the origin before it brings. -/
theorem writeLocation_safe (r : Rule) (path query origin : Bytes) :
    LineSafe (r.writeLocation path query origin) ↔ (r.origin ≠ [] ∨ LineSafe origin) := by
  have hpath : LineSafe r.toPath := r.safe fun c hc => by simp [hc]
  have hquery : LineSafe r.toQuery := r.safe fun c hc => by simp [hc]
  have hfrag : LineSafe r.toFragment := r.safe fun c hc => by simp [hc]
  have horigin : LineSafe r.origin := r.safe fun c hc => by simp [hc]
  have hrulePath : LineSafe (r.path path) := by
    unfold Rule.path
    refine lineSafe_ite ?_ hpath
    dsimp only
    refine lineSafe_ite ?_ (lineSafe_ite ?_ ?_)
    · exact lineSafe_append.mpr ⟨hpath, appendPath_safe _⟩
    · exact lineSafe_append.mpr ⟨hpath, lineSafe_cons (by decide) (appendPath_safe _)⟩
    · exact lineSafe_append.mpr ⟨hpath, appendPath_safe _⟩
  have hruleQuery : LineSafe (r.query query) := by
    unfold Rule.query
    refine lineSafe_append.mpr ⟨?_, ?_⟩
    · exact lineSafe_ite lineSafe_nil (lineSafe_cons (by decide) hquery)
    · refine lineSafe_ite (lineSafe_cons ?_ (appendQuery_safe _)) lineSafe_nil
      split <;> decide
  unfold Rule.writeLocation
  rw [lineSafe_append, lineSafe_append, lineSafe_append]
  have hslash : LineSafe (if (r.path path).isEmpty then [slash] else r.path path) :=
    lineSafe_ite (by decide) hrulePath
  have htail : LineSafe (if r.toFragment.isEmpty then [] else fragmentMark :: r.toFragment) :=
    lineSafe_ite lineSafe_nil (lineSafe_cons (by decide) hfrag)
  cases ho : r.origin with
  | nil =>
    rw [if_pos (show ([] : Bytes).isEmpty = true from rfl)]
    exact ⟨fun h => .inr h.1.1.1, fun h => ⟨⟨⟨h.resolve_left fun hn => hn rfl, hslash⟩, hruleQuery⟩, htail⟩⟩
  | cons c cs =>
    rw [if_neg (by simp), ← ho]
    exact ⟨fun _ => .inl (by rw [ho]; exact List.cons_ne_nil c cs),
      fun _ => ⟨⟨⟨horigin, hslash⟩, hruleQuery⟩, htail⟩⟩

end LineSafe

/-! ## §5. One line of the answer. -/

/-- The Location field is read as the one line it was written as, whatever follows. -/
def OneLine (location : Bytes) : Prop :=
  cr ∉ location ∧ ∀ rest, nextLine (fieldLines [(bytes "Location", location)] ++ rest) 0 =
    some (fieldText (bytes "Location", location), (fieldLines [(bytes "Location", location)]).length)

theorem oneLine_iff {location : Bytes} : OneLine location ↔ LineSafe location := by
  have hlines : fieldLines [(bytes "Location", location)] =
      fieldText (bytes "Location", location) ++ crlf := by
    simp [fieldLines]
  constructor
  · rintro ⟨hcr, hline⟩
    refine ⟨hcr, fun hlf => ?_⟩
    -- a line that is taken has no LF in it
    have h := hline []
    unfold nextLine at h
    rw [List.drop_zero] at h
    cases hk : (fieldLines [(bytes "Location", location)] ++ []).findIdx? (· = lf) with
    | none => rw [hk] at h; cases h
    | some k =>
      rw [hk] at h
      injection h with h
      injection h with htake _
      have hmem : lf ∈ fieldText (bytes "Location", location) := by
        unfold fieldText
        simp [hlf]
      rw [← htake] at hmem
      obtain ⟨i, hi, hget⟩ := List.mem_take_iff_getElem.mp hmem
      obtain ⟨hk', hfind, hbefore⟩ := List.findIdx?_eq_some_iff_getElem.mp hk
      have hlt : i < k := by
        have : i < if k > 0 && (fieldLines [(bytes "Location", location)] ++ [])[k - 1]? = some cr
          then k - 1 else k := lt_of_lt_of_le hi (Nat.min_le_left ..)
        split at this <;> omega
      exact hbefore i hlt (by rw [hget]; decide)
  · intro h
    refine ⟨h.1, fun rest => ?_⟩
    have htext : lf ∉ fieldText (bytes "Location", location) := by
      unfold fieldText
      simp only [List.mem_append, List.mem_cons, not_or]
      exact ⟨by decide, by decide, by decide, h.2⟩
    have hdrop : (fieldLines [(bytes "Location", location)] ++ rest).drop 0 =
        fieldText (bytes "Location", location) ++ cr :: lf :: rest := by
      rw [hlines, List.drop_zero, List.append_assoc]
      rfl
    rw [Http1.nextLine_text hdrop htext, hlines, Nat.zero_add, List.length_append]
    rfl

/-- What has to be known of the origin and of the target. -/
def AnswerFits (rule : Option Rule) (origin target : Bytes) : Prop :=
  match rule with
  | none => LineSafe origin ∧ (target.head? = some slash → LineSafe target)
  | some r => r.status = 410 ∨ r.origin ≠ [] ∨ LineSafe origin

theorem answer_iff {rule : Option Rule} {origin path target : Bytes} :
    (∀ location ∈ answer rule origin path target, OneLine location) ↔ AnswerFits rule origin target := by
  unfold answer AnswerFits
  cases rule with
  | none =>
    simp only [Option.mem_def, Option.some.injEq, forall_eq', oneLine_iff, lineSafe_append]
    refine and_congr_right fun _ => ?_
    unfold appendTarget
    split
    · rename_i h
      exact ⟨fun hs _ => hs, fun hs => hs h⟩
    rename_i h
    exact ⟨fun _ hs => absurd hs h, fun _ => by decide⟩
  | some r =>
    dsimp only
    split
    · rename_i h
      simp [h]
    rename_i h
    simp only [Option.mem_def, Option.some.injEq, forall_eq', oneLine_iff, writeLocation_safe, h, false_or]

/-- **`redirect_https`**: the name it goes to, and the target. -/
theorem redirectHttps_iff (site : Site) (host target path : Bytes) (rule : Option Rule) :
    (∀ location ∈ site.redirectHttps host target path rule, OneLine location) ↔ ∀ name ∈ site.httpsName host,
        AnswerFits (if site.sameNameFirst host then none else rule) name target := by
  unfold Site.redirectHttps
  cases site.httpsName host with
  | none => simp
  | some name =>
    have horigin : LineSafe (bytes "https://" ++ name ++ Site.portText site.httpsPort) ↔ LineSafe name := by
      have hport : LineSafe (Site.portText site.httpsPort) := by
        unfold Site.portText
        exact lineSafe_ite lineSafe_nil
          (lineSafe_cons (by decide) (lineSafe_of_noCtl (Http1.noCtl_decimalText _)))
      rw [lineSafe_append, lineSafe_append]
      exact ⟨fun h => h.1.2, fun h => ⟨⟨by decide, h⟩, hport⟩⟩
    have hname : (∀ n ∈ some name, AnswerFits (if site.sameNameFirst host then none else rule) n target) ↔
        AnswerFits (if site.sameNameFirst host then none else rule) name target := by
      simp
    rw [hname]
    dsimp only
    rw [answer_iff]
    unfold AnswerFits
    cases (if site.sameNameFirst host then none else rule) with
    | none => rw [horigin]
    | some r => rw [horigin]

/-- **`redirect_host`**: of the client's host only a port of digits is written. -/
theorem redirectHost_iff (site : Site) (https : Bool) (host target path : Bytes) (rule : Option Rule) :
    (∀ location ∈ site.redirectHost https host target path rule, OneLine location) ↔
      ((splitHost host).1 = [] ∨ iequals (splitHost host).1 site.canonical = true ∨
        site.listedName (splitHost host).1 = none ∨ AnswerFits rule site.canonical target) := by
  have horigin : LineSafe ((if https then bytes "https://" else bytes "http://") ++ site.canonical ++
      Site.hostPort (splitHost host).2) ↔ LineSafe site.canonical := by
    have hport : LineSafe (Site.hostPort (splitHost host).2) := by
      unfold Site.hostPort
      split
      · rename_i h
        rw [Bool.and_eq_true, List.all_eq_true] at h
        refine lineSafe_cons (by decide) (lineSafe_of_forall fun c hc => ?_)
        have hd := h.2 c hc
        exact ⟨fun he => absurd (he ▸ hd) (by decide), fun he => absurd (he ▸ hd) (by decide)⟩
      · exact lineSafe_nil
    rw [lineSafe_append, lineSafe_append]
    exact ⟨fun h => h.1.2, fun h => ⟨⟨lineSafe_ite (by decide) (by decide), h⟩, hport⟩⟩
  unfold Site.redirectHost
  dsimp only
  split
  · rename_i h
    simp only [Bool.or_eq_true, List.isEmpty_iff, Option.isNone_iff_eq_none] at h
    constructor
    · intro _
      rcases h with (h | h) | h
      · exact .inl h
      · exact .inr (.inl h)
      · exact .inr (.inr (.inl h))
    · intro _
      nofun
  · rename_i h
    simp only [Bool.or_eq_true, List.isEmpty_iff, Option.isNone_iff_eq_none, not_or] at h
    rw [answer_iff]
    have hfits : AnswerFits rule ((if https then bytes "https://" else bytes "http://") ++
        site.canonical ++ Site.hostPort (splitHost host).2) target ↔
        AnswerFits rule site.canonical target := by
      unfold AnswerFits
      cases rule with
      | none => rw [horigin]
      | some r => rw [horigin]
    rw [hfits]
    constructor
    · intro hf
      exact .inr (.inr (.inr hf))
    · rintro (h' | h' | h' | h')
      · exact absurd h' h.1.1
      · exact absurd h' h.1.2
      · exact absurd h' h.2
      · exact h'

end Agensio.Http.Redirect
