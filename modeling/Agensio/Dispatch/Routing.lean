/-
  Agensio.Dispatch.Routing — the location of a path, and the script that runs.

  Model of the locations in `finalize_site` (`config.cpp`), of the script
  split of `FcgiHandler::start` (`handlers/fastcgi.cpp`) and of
  `resolve_script` (`handlers/cgi.cpp`).  `Router::location` makes one pass
  over what `finalize_site` sorts; what it picks is said here without the
  pass: exact before all, and the longest of each kind.

  A FastCGI request that buffers its body is launched at the end of it, with
  the path the worker then holds.

  Main results:
    * `routes_and_runs` — both, for every request.
-/
import Agensio.Dispatch.Judged
import Agensio.Http.Normalised

namespace Agensio.Dispatch

open Agensio.Http (slash normalizeTarget)

/-! ## §1. The locations of a site. -/

/-- `.php`, as an exact location's ending. -/
def phpEnding : Bytes := bytes ".php"

/-- What a site gives the location it does not write. -/
structure Defaults where
  root : Bytes := []
  index : List Bytes := []
  tryFiles : List TryStep := []
  symlinksDeny : Bool := false

def Defaults.implicit (d : Defaults) : Location :=
  { id := 0, path := [slash], root := d.root, index := d.index, tryFiles := d.tryFiles, symlinksDeny := d.symlinksDeny }

/-- A location without an id gets the next one. -/
def numbered : Nat → List Location → List Location
  | _, [] => []
  | next, l :: rest =>
    if l.id = 0 then { l with id := next } :: numbered (next + 1) rest else l :: numbered next rest

/-- It decides its script's path-info form too. -/
def withScriptExact (l : Location) : Location :=
  { l with scriptExact := l.isExact && phpEnding.isSuffixOf l.path && (findSub (bytes ".php/") l.path).isNone }

def rank (l : Location) : Nat := if l.isExact then 0 else if l.isSuffix then 1 else 2

/-- The order of the list: by kind, and the longest of a kind first. -/
def before (a b : Location) : Bool :=
  rank a < rank b || (rank a = rank b && a.path.length ≥ b.path.length)

/-- `finalize_site`, as far as it is about the locations. -/
def finalizeLocations (next : Nat) (d : Defaults) (written : List Location) : List Location :=
  let all := if written.any fun l => !l.isExact && l.path = [slash] then written else written ++ [d.implicit]
  ((numbered next all).map withScriptExact).mergeSort before

/-! ## §2. The script a handler runs. -/

/-- What a worker holds of the request it is at (`WorkerState`). -/
structure Scratch where
  path : Bytes
  fsPath : Bytes
  deriving DecidableEq

def Scratch.of (loc : Location) (path : Bytes) : Scratch := { path, fsPath := fsPathOf loc path }

/-- `FcgiHandler::start`: the script and its path info; `none` is the 404. -/
def fcgiStart (loc : Location) (isFile : Bytes → Bool) (path : Bytes) : Option (Scratch × Bytes) :=
  let cut := match phpEnd path, loc.pathInfo with
    | some n, true => (path.take n, path.drop n)
    | _, _ => (path, [])
  let script := if cut.1.getLast? = some slash then cut.1 ++ loc.index.headD (bytes "index.php") else cut.1
  if isFile (fsPathOf loc script) then some (Scratch.of loc script, cut.2) else none

/-- `resolve_script` of a CGI location. -/
def cgiStart (loc : Location) (isFile : Bytes → Bool) (path : Bytes) : Option (Scratch × Bytes) :=
  let full := if path.getLast? = some slash then path ++ loc.index.headD (bytes "index.cgi") else path
  let cut := cgiEnd loc isFile full
  if cut = 0 then none else some (Scratch.of loc (full.take cut), full.drop cut)

namespace Site

variable (site : Site) (isFile : Bytes → Bool)

/-- The file that runs.  A FastCGI request whose body is buffered is launched behind its last
    byte: `later` is what the worker holds then, `none` when it is launched at once.  A CGI
    request keeps its own. -/
def runs (path : Bytes) (later : Option Scratch) : Option Bytes :=
  let loc := site.location path
  match loc.kind with
  | .fastcgi => (fcgiStart loc isFile path).map fun own => (later.getD own.1).fsPath
  | .cgi => (cgiStart loc isFile path).map fun own => own.1.fsPath
  | _ => none

/-- A file that is judged: of the path, or of the script `script_of` finds for it. -/
def JudgedFile (path file : Bytes) : Prop :=
  file = fsPathOf (site.location path) path ∨
    ∃ script, site.scriptOf isFile path = some script ∧ file = fsPathOf (site.location path) script

end Site

/-! ## §3. The pass. -/

/-- The exact location of a path, or of its script. -/
def Location.isDirect (path : Bytes) (l : Location) : Bool :=
  l.isExact && (path = l.path || (l.scriptExact && l.path.isPrefixOf path && (path.drop l.path.length).head? = some slash))

def Location.isPrefixFor (path : Bytes) (l : Location) : Bool := !l.isExact && !l.isSuffix && l.path.isPrefixOf path

def Location.isSuffixFor (path : Bytes) (l : Location) : Bool :=
  !l.isExact && l.isSuffix && (suffixHit path l.path && (l.scriptDir = [] || scriptIn path l.path l.scriptDir))

variable {l : Location} {p : Location → Bool}

theorem rank_direct {path : Bytes} (h : l.isDirect path = true) : rank l = 0 := by
  unfold Location.isDirect at h
  rw [Bool.and_eq_true] at h
  unfold rank
  rw [if_pos h.1]

theorem rank_suffix {path : Bytes} (h : l.isSuffixFor path = true) : rank l = 1 := by
  unfold Location.isSuffixFor at h
  rw [Bool.and_eq_true, Bool.and_eq_true, Bool.not_eq_true'] at h
  unfold rank
  rw [h.1.1, h.1.2]
  rfl

theorem rank_prefix {path : Bytes} (h : l.isPrefixFor path = true) : rank l = 2 := by
  unfold Location.isPrefixFor at h
  rw [Bool.and_eq_true, Bool.and_eq_true, Bool.not_eq_true', Bool.not_eq_true'] at h
  unfold rank
  rw [h.1.1, h.1.2]
  rfl

/-- Nothing of a lower rank stands behind. -/
theorem find_none_of_rank {rest : List Location} (hsorted : ∀ x ∈ rest, rank l ≤ rank x)
    {k : Nat} (hp : ∀ x, p x = true → rank x = k) (hk : k < rank l) : rest.find? p = none := by
  rw [List.find?_eq_none]
  intro x hx hpx
  have := hsorted x hx
  have := hp x hpx
  omega

/-- **The pass is four searches**: what is direct, then the prefix and the suffix. -/
theorem locationLoop_eq (path : Bytes) (last : Location) : ∀ (locs : List Location) (suffix : Option Location),
    locs.Pairwise (fun a b => rank a ≤ rank b) →
    locationLoop path last suffix locs = (locs.find? (·.isDirect path)).getD
      (match locs.find? (·.isPrefixFor path) with
        | some p => if p.isFinal then p else (suffix.or (locs.find? (·.isSuffixFor path))).getD p
        | none => (suffix.or (locs.find? (·.isSuffixFor path))).getD last) := by
  intro locs
  induction locs with
  | nil =>
    intro suffix _
    cases suffix <;> rfl
  | cons l rest ih =>
    intro suffix hsorted
    obtain ⟨hl, hrest⟩ := List.pairwise_cons.mp hsorted
    unfold locationLoop
    by_cases hexact : l.isExact = true
    · have hpre : l.isPrefixFor path = false := by unfold Location.isPrefixFor; rw [hexact]; rfl
      have hsuffix : l.isSuffixFor path = false := by unfold Location.isSuffixFor; rw [hexact]; rfl
      rw [if_pos hexact]
      by_cases hpath : path = l.path
      · have hdirect : l.isDirect path = true := by
          unfold Location.isDirect
          rw [hexact, decide_eq_true hpath]
          rfl
        rw [if_pos hpath]
        simp only [List.find?_cons, hdirect, Option.getD_some]
      · rw [if_neg hpath]
        split
        · next hscript =>
          have hdirect : l.isDirect path = true := by
            unfold Location.isDirect
            rw [hexact, hscript, Bool.or_true]
            rfl
          simp only [List.find?_cons, hdirect, Option.getD_some]
        · next hscript =>
          have hdirect : l.isDirect path = false := by
            unfold Location.isDirect
            rw [hexact, decide_eq_false hpath, eq_false_of_ne_true hscript]
            rfl
          simp only [List.find?_cons, hdirect, hpre, hsuffix]
          exact ih suffix hrest
    · have hexact' : l.isExact = false := eq_false_of_ne_true hexact
      have hdirect : l.isDirect path = false := by unfold Location.isDirect; rw [hexact']; rfl
      rw [if_neg hexact]
      by_cases hkind : l.isSuffix = true
      · have hpre : l.isPrefixFor path = false := by unfold Location.isPrefixFor; rw [hkind, Bool.not_true, Bool.and_false]; rfl
        have hsuffix : l.isSuffixFor path = (suffixHit path l.path && (l.scriptDir = [] || scriptIn path l.path l.scriptDir)) := by
          unfold Location.isSuffixFor
          rw [hexact', hkind]
          rfl
        rw [if_pos hkind, Bool.and_assoc, ← hsuffix]
        simp only [List.find?_cons, hdirect, hpre]
        cases suffix with
        | some s =>
          rw [Option.isNone_some, Bool.false_and, if_neg (by decide), ih (some s) hrest]
          rfl
        | none =>
          rw [Option.isNone_none, Bool.true_and]
          cases l.isSuffixFor path with
          | true =>
            rw [if_pos rfl, ih (some l) hrest]
            rfl
          | false =>
            rw [if_neg (by decide), ih none hrest]
      · have hsuffix : l.isSuffixFor path = false := by
          unfold Location.isSuffixFor
          rw [eq_false_of_ne_true hkind, Bool.and_false]
          rfl
        have hpre : l.isPrefixFor path = l.path.isPrefixOf path := by
          unfold Location.isPrefixFor
          rw [hexact', eq_false_of_ne_true hkind]
          rfl
        rw [if_neg hkind, ← hpre]
        simp only [List.find?_cons, hdirect, hsuffix]
        cases hmatch : l.isPrefixFor path with
        | false =>
          rw [if_neg (by decide), ih suffix hrest]
        | true =>
          -- the prefixes are the last of the list
          have hrank := rank_prefix hmatch
          rw [if_pos rfl, find_none_of_rank hl (fun _ => rank_direct) (by omega),
            find_none_of_rank hl (fun _ => rank_suffix) (by omega), Option.getD_none, Option.or_none]

/-! ## §4. What the list is. -/

theorem before_iff (a b : Location) :
    before a b = true ↔ rank a < rank b ∨ (rank a = rank b ∧ b.path.length ≤ a.path.length) := by
  unfold before
  rw [Bool.or_eq_true, Bool.and_eq_true, decide_eq_true_eq, decide_eq_true_eq, decide_eq_true_eq]

theorem before_trans (a b c : Location) (hab : before a b = true) (hbc : before b c = true) : before a c = true := by
  rw [before_iff] at *
  omega

theorem before_total (a b : Location) : (before a b || before b a) = true := by
  rw [Bool.or_eq_true, before_iff, before_iff]
  omega

theorem numbered_mem {w : Location} : ∀ {n : Nat} {locs : List Location}, w ∈ locs →
    ∃ id, { w with id } ∈ numbered n locs
  | _, [], h => absurd h List.not_mem_nil
  | n, x :: rest, h => by
    unfold numbered
    rcases List.mem_cons.mp h with rfl | h
    · split
      · exact ⟨n, .head _⟩
      · exact ⟨w.id, .head _⟩
    · split
      · obtain ⟨id, hid⟩ := numbered_mem (n := n + 1) h
        exact ⟨id, .tail _ hid⟩
      obtain ⟨id, hid⟩ := numbered_mem (n := n) h
      exact ⟨id, .tail _ hid⟩

section Finalised

variable {next : Nat} {d : Defaults} {written : List Location}

theorem finalize_sorted : (finalizeLocations next d written).Pairwise fun a b => before a b = true :=
  List.pairwise_mergeSort before_trans before_total _

theorem finalize_scriptExact {l : Location} (h : l ∈ finalizeLocations next d written) :
    l.scriptExact = (l.isExact && phpEnding.isSuffixOf l.path && (findSub (bytes ".php/") l.path).isNone) := by
  unfold finalizeLocations at h
  rw [List.mem_mergeSort, List.mem_map] at h
  obtain ⟨w, _, rfl⟩ := h
  rfl

/-- The root is there as a prefix, unless a suffix has its name. -/
theorem finalize_root (h : (∃ l ∈ written, rank l = 2 ∧ l.path = [slash]) ∨ ∀ l ∈ written, rank l = 1 → l.path ≠ [slash]) :
    ∃ l ∈ finalizeLocations next d written, rank l = 2 ∧ l.path = [slash] := by
  have hkept : ∀ {all : List Location}, (∃ w ∈ all, rank w = 2 ∧ w.path = [slash]) →
      ∃ l ∈ ((numbered next all).map withScriptExact).mergeSort before, rank l = 2 ∧ l.path = [slash] := by
    rintro all ⟨w, hw, hrank, hpath⟩
    obtain ⟨id, hid⟩ := numbered_mem (n := next) hw
    refine ⟨withScriptExact { w with id }, ?_, hrank, hpath⟩
    rw [List.mem_mergeSort]
    exact List.mem_map_of_mem hid
  unfold finalizeLocations
  refine hkept ?_
  split
  · next hany =>
    rcases h with h | h
    · exact h
    obtain ⟨l, hl, hroot⟩ := List.any_eq_true.mp hany
    rw [Bool.and_eq_true, Bool.not_eq_true', decide_eq_true_eq] at hroot
    refine ⟨l, hl, ?_, hroot.2⟩
    have hnot := h l hl
    unfold rank at hnot ⊢
    rw [hroot.1, if_neg (by decide)] at hnot ⊢
    split
    · next hsuffix =>
      rw [if_pos hsuffix] at hnot
      exact absurd hroot.2 (hnot rfl)
    · rfl
  · exact ⟨d.implicit, List.mem_append_right _ (List.mem_singleton_self _), rfl, rfl⟩

end Finalised

/-- What is found first of one kind is the longest. -/
theorem find_longest {locs : List Location} (hsorted : locs.Pairwise fun a b => before a b = true)
    {k : Nat} (hp : ∀ x, p x = true → rank x = k) (h : locs.find? p = some l) :
    ∀ x ∈ locs, p x = true → x.path.length ≤ l.path.length := by
  intro x hx hpx
  obtain ⟨hpl, front, rest, rfl, hfront⟩ := List.find?_eq_some_iff_append.mp h
  rcases List.mem_append.mp hx with hx | hx
  · have := hfront x hx
    rw [hpx] at this
    cases this
  · rcases List.mem_cons.mp hx with rfl | hx
    · exact le_rfl
    have hbefore := (before_iff l x).mp (List.rel_of_pairwise_cons (List.pairwise_append.mp hsorted).2.1 hx)
    have := hp l hpl
    have := hp x hpx
    omega

/-! ## §5. The location documented. -/

/-- The first occurrence. -/
theorem findSub_iff {pat : Bytes} (hpat : pat ≠ []) : ∀ {s : Bytes} {i : Nat}, findSub pat s = some i ↔
    pat <+: s.drop i ∧ ∀ j < i, ¬ pat <+: s.drop j
  | [], i => by
    unfold findSub
    rw [if_neg hpat, List.drop_nil, List.prefix_nil]
    exact ⟨fun h => (by cases h), fun h => absurd h.1 hpat⟩
  | c :: cs, i => by
    unfold findSub
    by_cases hhere : pat <+: c :: cs
    · rw [if_pos (List.isPrefixOf_iff_prefix.mpr hhere)]
      constructor
      · intro h
        cases h
        exact ⟨hhere, fun j hj => by omega⟩
      · rintro ⟨_, hfirst⟩
        cases i with
        | zero => rfl
        | succ i => exact absurd hhere (hfirst 0 (by omega))
    · rw [if_neg fun h => hhere (List.isPrefixOf_iff_prefix.mp h)]
      cases i with
      | zero =>
        constructor
        · intro h
          obtain ⟨j, _, hj⟩ := Option.map_eq_some_iff.mp h
          omega
        · exact fun h => absurd h.1 hhere
      | succ i =>
        rw [Option.map_eq_some_iff]
        have ih := findSub_iff hpat (s := cs) (i := i)
        constructor
        · rintro ⟨j, hj, hji⟩
          obtain rfl : j = i := by omega
          obtain ⟨hat, hfirst⟩ := ih.mp hj
          refine ⟨hat, fun k hk => ?_⟩
          cases k with
          | zero => exact hhere
          | succ k => exact hfirst k (by omega)
        · rintro ⟨hat, hfirst⟩
          exact ⟨i, ih.mpr ⟨hat, fun k hk => hfirst (k + 1) (by omega)⟩, rfl⟩

theorem findSub_none_iff {pat : Bytes} (hpat : pat ≠ []) : ∀ {s : Bytes}, findSub pat s = none ↔ ∀ j, ¬ pat <+: s.drop j
  | [] => by
    unfold findSub
    rw [if_neg hpat]
    refine ⟨fun _ j h => hpat ?_, fun _ => rfl⟩
    rw [List.drop_nil, List.prefix_nil] at h
    exact h
  | c :: cs => by
    unfold findSub
    have ih := findSub_none_iff hpat (s := cs)
    by_cases hhere : pat <+: c :: cs
    · rw [if_pos (List.isPrefixOf_iff_prefix.mpr hhere)]
      exact ⟨fun h => (by cases h), fun h => absurd hhere (h 0)⟩
    rw [if_neg fun h => hhere (List.isPrefixOf_iff_prefix.mp h), Option.map_eq_none_iff, ih]
    constructor
    · intro h j
      cases j with
      | zero => exact hhere
      | succ j => exact h j
    · exact fun h j => h (j + 1)

/-- The exact location of a path. -/
def Location.isExactFor (path : Bytes) (l : Location) : Bool := l.isExact && path = l.path

/-- The exact location of the script that a path with path info names. -/
def Location.isScriptFor (path : Bytes) (l : Location) : Bool :=
  l.isExact && (phpEnd path).any fun n => l.path = path.take n

/-- **A script's location takes its path-info form**: where FastCGI cuts. -/
theorem script_iff {own path : Bytes} : (phpEnding.isSuffixOf own && (findSub (bytes ".php/") own).isNone) = true ∧
      own <+: path ∧ (path.drop own.length).head? = some slash ↔ ∃ n, phpEnd path = some n ∧ own = path.take n := by
  have hpat : bytes ".php/" ≠ [] := by decide
  have hcut : bytes ".php/" = phpEnding ++ [slash] := by decide
  have hlen : phpEnding.length = 4 := by decide
  have hlen' : (bytes ".php/").length = 5 := by decide
  unfold phpEnd
  rw [Bool.and_eq_true, List.isSuffixOf_iff_suffix, Option.isNone_iff_eq_none, findSub_none_iff hpat]
  constructor
  · rintro ⟨⟨⟨pre, rfl⟩, hnone⟩, ⟨rest, rfl⟩, hslash⟩
    rw [List.drop_left] at hslash
    obtain ⟨rest, rfl⟩ := List.head?_eq_some_iff.mp hslash
    have hat : findSub (bytes ".php/") (pre ++ phpEnding ++ slash :: rest) = some pre.length := by
      refine (findSub_iff hpat).mpr ⟨?_, fun j hj hin => hnone j ?_⟩
      · rw [List.append_assoc, List.drop_left, hcut]
        exact ⟨rest, by simp⟩
      · -- an earlier one would be inside the location's own path
        rw [List.drop_append_of_le_length (by rw [List.length_append]; omega)] at hin
        refine List.prefix_of_prefix_length_le hin (List.prefix_append _ _) ?_
        rw [List.length_drop, List.length_append]
        omega
    refine ⟨pre.length + 4, by rw [hat]; rfl, ?_⟩
    rw [List.take_left' (by rw [List.length_append, hlen])]
  · rintro ⟨n, hn, rfl⟩
    obtain ⟨i, hi, rfl⟩ := Option.map_eq_some_iff.mp hn
    obtain ⟨⟨post, hpost⟩, hfirst⟩ := (findSub_iff hpat).mp hi
    rw [hcut, List.append_assoc] at hpost
    have hile : i ≤ path.length := by
      by_contra hgt
      rw [List.drop_of_length_le (by omega)] at hpost
      exact absurd (congrArg List.length hpost) (by rw [List.length_append, hlen]; simp)
    have hpath : path = path.take i ++ (phpEnding ++ ([slash] ++ post)) := by
      rw [hpost, List.take_append_drop]
    have htake : path.take (i + 4) = path.take i ++ phpEnding := by
      conv_lhs => rw [hpath]
      rw [← List.append_assoc, List.take_left' (by rw [List.length_append, List.length_take, hlen]; omega)]
    refine ⟨⟨⟨path.take i, htake.symm⟩, fun j hin => ?_⟩, List.take_prefix _ _, ?_⟩
    · have hwithin := hin.length_le
      rw [List.length_drop, List.length_take, hlen'] at hwithin
      refine hfirst j (by omega) (hin.trans ?_)
      rw [List.drop_take]
      exact List.take_prefix _ _
    · rw [htake, List.length_append, List.length_take, hlen, Nat.min_eq_left hile, ← List.drop_drop, ← hpost, ← hlen,
        List.drop_left]
      rfl

/-- What the pass takes as direct. -/
theorem isDirect_iff {path : Bytes}
    (hflag : l.scriptExact = (l.isExact && phpEnding.isSuffixOf l.path && (findSub (bytes ".php/") l.path).isNone)) :
    l.isDirect path = true ↔ l.isExactFor path = true ∨ l.isScriptFor path = true := by
  unfold Location.isDirect Location.isExactFor Location.isScriptFor
  rw [hflag]
  cases l.isExact with
  | false => simp
  | true =>
    rw [Bool.true_and, Bool.true_and, Bool.true_and, Bool.true_and, Bool.or_eq_true]
    refine or_congr_right ?_
    rw [Bool.and_eq_true, Bool.and_eq_true, List.isPrefixOf_iff_prefix, decide_eq_true_eq, and_assoc, script_iff]
    cases phpEnd path with
    | none => simp
    | some n => simp

theorem rank_exact {path : Bytes} (h : l.isExactFor path = true) : rank l = 0 := by
  unfold Location.isExactFor at h
  rw [Bool.and_eq_true] at h
  unfold rank
  rw [if_pos h.1]

theorem rank_script {path : Bytes} (h : l.isScriptFor path = true) : rank l = 0 := by
  unfold Location.isScriptFor at h
  rw [Bool.and_eq_true] at h
  unfold rank
  rw [if_pos h.1]

/-- The longest location with a property; of several, the first in the list. -/
structure Pick (locs : List Location) (p : Location → Bool) (l : Location) : Prop where
  first : locs.find? p = some l
  longest : ∀ x ∈ locs, p x = true → x.path.length ≤ l.path.length

/-- The documented choice: an exact location, else the longest prefix when it is final, else
    the longest suffix, else that prefix. -/
def Documented (locs : List Location) (path : Bytes) (l : Location) : Prop :=
  Pick locs (·.isExactFor path) l ∨
    (∀ x ∈ locs, x.isExactFor path = false) ∧
      (Pick locs (·.isScriptFor path) l ∨
        (∀ x ∈ locs, x.isScriptFor path = false) ∧
          ((Pick locs (·.isPrefixFor path) l ∧ l.isFinal = true) ∨
            (∀ x, Pick locs (·.isPrefixFor path) x → x.isFinal = false) ∧
              (Pick locs (·.isSuffixFor path) l ∨
                (∀ x ∈ locs, x.isSuffixFor path = false) ∧ Pick locs (·.isPrefixFor path) l)))

/-- Some location is one for the path. -/
def Matched (locs : List Location) (path : Bytes) : Prop :=
  ∃ x ∈ locs, (x.isExactFor path || x.isScriptFor path || x.isPrefixFor path || x.isSuffixFor path) = true

theorem find_none_iff {locs : List Location} : locs.find? p = none ↔ ∀ x ∈ locs, p x = false := by
  rw [List.find?_eq_none]
  exact forall₂_congr fun x _ => by rw [Bool.not_eq_true]

section Choice

variable {locs : List Location} (hsorted : locs.Pairwise fun a b => before a b = true)
  (hflag : ∀ l ∈ locs, l.scriptExact = (l.isExact && phpEnding.isSuffixOf l.path && (findSub (bytes ".php/") l.path).isNone))
  {path : Bytes}

include hsorted in
theorem pick_iff {p : Location → Bool} {k : Nat} (hp : ∀ x, p x = true → rank x = k) {l : Location} :
    Pick locs p l ↔ locs.find? p = some l :=
  ⟨Pick.first, fun h => ⟨h, find_longest hsorted hp h⟩⟩

include hsorted hflag in
/-- What is found as direct is the exact location of the path, else of its script. -/
theorem direct_documented {l : Location} (h : locs.find? (·.isDirect path) = some l) : Documented locs path l := by
  have hlong := find_longest hsorted (fun _ => rank_direct) h
  obtain ⟨hdirect, front, rest, hlocs, hfront⟩ := List.find?_eq_some_iff_append.mp h
  have hl : l ∈ locs := List.mem_of_find?_eq_some h
  have hin : ∀ x ∈ front, x.isExactFor path = false ∧ x.isScriptFor path = false := by
    intro x hx
    have hnot := hfront x hx
    rw [Bool.not_eq_true', ← Bool.not_eq_true, isDirect_iff (hflag x (by rw [hlocs]; exact List.mem_append_left _ hx)),
      not_or, Bool.not_eq_true, Bool.not_eq_true] at hnot
    exact hnot
  rcases (isDirect_iff (hflag l hl)).mp hdirect with hexact | hscript
  · refine .inl ((pick_iff hsorted fun _ => rank_exact).mpr ?_)
    exact List.find?_eq_some_iff_append.mpr ⟨hexact, front, rest, hlocs, fun x hx => by rw [(hin x hx).1]; rfl⟩
  by_cases hexists : ∃ x ∈ locs, x.isExactFor path = true
  · -- it would be longer, so it would stand first
    obtain ⟨x, hx, hexact⟩ := hexists
    have hxlen := hlong x hx ((isDirect_iff (hflag x hx)).mpr (.inl hexact))
    unfold Location.isExactFor at hexact
    unfold Location.isScriptFor at hscript
    rw [Bool.and_eq_true, decide_eq_true_eq] at hexact
    rw [Bool.and_eq_true, Option.any_eq_true] at hscript
    obtain ⟨_, n, hn, hown⟩ := hscript
    obtain ⟨_, _, hslash⟩ := script_iff.mpr ⟨n, hn, of_decide_eq_true hown⟩
    rw [List.drop_of_length_le (by rw [hexact.2]; exact hxlen)] at hslash
    cases hslash
  · refine .inr ⟨fun x hx => eq_false_of_ne_true fun heq => hexists ⟨x, hx, heq⟩, .inl ?_⟩
    refine (pick_iff hsorted fun _ => rank_script).mpr ?_
    exact List.find?_eq_some_iff_append.mpr ⟨hscript, front, rest, hlocs, fun x hx => by rw [(hin x hx).2]; rfl⟩

include hsorted hflag in
/-- **The pass picks the documented location**, where there is one at all. -/
theorem documented_iff (last : Location) : Documented locs path (locationLoop path last none locs) ↔ Matched locs path := by
  have hloop := locationLoop_eq path last locs none (hsorted.imp fun {a b} h => by
    have := (before_iff a b).mp h
    omega)
  rw [Option.none_or] at hloop
  constructor
  · have hof : ∀ {p : Location → Bool} {l : Location}, Pick locs p l → ∃ x ∈ locs, p x = true :=
      fun h => ⟨_, List.mem_of_find?_eq_some h.first, List.find?_some h.first⟩
    rintro (h | ⟨_, h | ⟨_, ⟨h, _⟩ | ⟨_, h | ⟨_, h⟩⟩⟩⟩)
    · obtain ⟨x, hx, hp⟩ := hof h
      exact ⟨x, hx, by rw [hp]; rfl⟩
    · obtain ⟨x, hx, hp⟩ := hof h
      exact ⟨x, hx, by rw [hp, Bool.or_true]; rfl⟩
    · obtain ⟨x, hx, hp⟩ := hof h
      exact ⟨x, hx, by rw [hp, Bool.or_true]; rfl⟩
    · obtain ⟨x, hx, hp⟩ := hof h
      exact ⟨x, hx, by rw [hp, Bool.or_true]⟩
    · obtain ⟨x, hx, hp⟩ := hof h
      exact ⟨x, hx, by rw [hp, Bool.or_true]; rfl⟩
  · rintro ⟨x, hx, hmatch⟩
    cases hdirect : locs.find? (·.isDirect path) with
    | some l =>
      rw [hdirect, Option.getD_some] at hloop
      rw [hloop]
      exact direct_documented hsorted hflag hdirect
    | none =>
      rw [hdirect, Option.getD_none] at hloop
      have hnot : ∀ y ∈ locs, y.isExactFor path = false ∧ y.isScriptFor path = false := by
        intro y hy
        have := find_none_iff.mp hdirect y hy
        rw [← Bool.not_eq_true, isDirect_iff (hflag y hy), not_or, Bool.not_eq_true, Bool.not_eq_true] at this
        exact this
      refine .inr ⟨fun y hy => (hnot y hy).1, .inr ⟨fun y hy => (hnot y hy).2, ?_⟩⟩
      have hpickP : ∀ {l}, Pick locs (·.isPrefixFor path) l ↔ locs.find? (·.isPrefixFor path) = some l :=
        pick_iff hsorted fun _ => rank_prefix
      have hpickS : ∀ {l}, Pick locs (·.isSuffixFor path) l ↔ locs.find? (·.isSuffixFor path) = some l :=
        pick_iff hsorted fun _ => rank_suffix
      cases hpre : locs.find? (·.isPrefixFor path) with
      | some p =>
        rw [hpre] at hloop
        dsimp only at hloop
        by_cases hfinal : p.isFinal = true
        · rw [if_pos hfinal] at hloop
          rw [hloop]
          exact .inl ⟨hpickP.mpr hpre, hfinal⟩
        · rw [if_neg hfinal] at hloop
          refine .inr ⟨fun y hy => ?_, ?_⟩
          · rw [hpickP, hpre] at hy
            cases hy
            exact eq_false_of_ne_true hfinal
          · cases hsuffix : locs.find? (·.isSuffixFor path) with
            | some q =>
              rw [hloop, hsuffix]
              exact .inl (hpickS.mpr hsuffix)
            | none =>
              rw [hloop, hsuffix]
              exact .inr ⟨find_none_iff.mp hsuffix, hpickP.mpr hpre⟩
      | none =>
        rw [hpre] at hloop
        rw [(hnot x hx).1, (hnot x hx).2, find_none_iff.mp hpre x hx] at hmatch
        refine .inr ⟨fun y hy => ?_, ?_⟩
        · rw [hpickP, hpre] at hy
          cases hy
        · cases hsuffix : locs.find? (·.isSuffixFor path) with
          | some q =>
            rw [hloop, hsuffix]
            exact .inl (hpickS.mpr hsuffix)
          | none =>
            rw [find_none_iff.mp hsuffix x hx] at hmatch
            cases hmatch

end Choice

/-- A path has a location: the root is a prefix of it. -/
theorem matched_of_root {locs : List Location} (h : ∃ l ∈ locs, rank l = 2 ∧ l.path = [slash]) {path : Bytes}
    (hpath : path.head? = some slash) : Matched locs path := by
  obtain ⟨l, hl, hrank, hroot⟩ := h
  obtain ⟨rest, rfl⟩ := List.head?_eq_some_iff.mp hpath
  have hpre : l.isPrefixFor (slash :: rest) = true := by
    unfold Location.isPrefixFor
    unfold rank at hrank
    rw [hroot]
    split at hrank
    · cases hrank
    next hexact =>
    split at hrank
    · cases hrank
    next hsuffix =>
    rw [eq_false_of_ne_true hexact, eq_false_of_ne_true hsuffix]
    rfl
  exact ⟨l, hl, by rw [hpre, Bool.or_true]; rfl⟩

namespace Site

variable {site : Site} {next : Nat} {d : Defaults} {written : List Location}

/-- The list has the root as a prefix, or no suffix has its name, or one is for the path. -/
def Covered (site : Site) (written : List Location) (path : Bytes) : Prop :=
  (∃ l ∈ written, rank l = 2 ∧ l.path = [slash]) ∨ (∀ l ∈ written, rank l = 1 → l.path ≠ [slash]) ∨
    Matched site.locations path

/-- **The location of a path is the documented one** exactly when the list covers the path. -/
theorem location_documented_iff (hfinal : site.locations = finalizeLocations next d written) {path : Bytes}
    (hpath : path.head? = some slash) : Documented site.locations path (site.location path) ↔ Covered site written path := by
  have hiff : Documented site.locations path _ ↔ Matched _ _ := documented_iff (by rw [hfinal]; exact finalize_sorted)
    (fun l hl => finalize_scriptExact (by rw [← hfinal]; exact hl)) (site.locations.getLast site.locations_ne)
  unfold location
  rw [hiff]
  unfold Covered
  constructor
  · exact fun h => .inr (.inr h)
  · rintro (h | h | h)
    · exact matched_of_root (by rw [hfinal]; exact finalize_root (.inl h)) hpath
    · exact matched_of_root (by rw [hfinal]; exact finalize_root (.inr h)) hpath
    · exact h

end Site

/-! ## §6. The script that runs. -/

namespace Site

variable {site : Site} {isFile : Bytes → Bool} {path : Bytes}

/-- What FastCGI cuts off ends with `.php`. -/
theorem phpEnd_last {n : Nat} (h : phpEnd path = some n) : (path.take n).getLast? ≠ some slash := by
  obtain ⟨hends, _⟩ := script_iff.mpr ⟨n, h, rfl⟩
  rw [Bool.and_eq_true, List.isSuffixOf_iff_suffix] at hends
  obtain ⟨pre, hpre⟩ := hends.1
  rw [← hpre, List.getLast?_append_of_ne_nil _ (by decide)]
  decide

/-- **FastCGI cuts a path where the rules do.** -/
theorem fcgiStart_judged (hexact : site.exactRules = true) (hpath : path ≠ [])
    (hkind : (site.location path).kind = .fastcgi) {own : Scratch} {info : Bytes}
    (h : fcgiStart (site.location path) isFile path = some (own, info)) :
    own = Scratch.of (site.location path) ((site.scriptOf isFile path).getD path) := by
  unfold fcgiStart at h
  unfold scriptOf
  rw [hexact, decide_eq_false hpath]
  dsimp only at h ⊢
  rw [hkind]
  generalize site.location path = loc at h ⊢
  rw [if_neg (by decide)]
  cases hphp : phpEnd path with
  | some n =>
    rw [hphp] at h
    rw [if_neg (by simp)]
    cases hinfo : loc.pathInfo with
    | true =>
      rw [hinfo] at h
      dsimp only at h ⊢
      rw [if_neg (phpEnd_last hphp)] at h
      split at h
      · rw [Option.getD_some]
        exact (Prod.mk.inj (Option.some.inj h)).1.symm
      · cases h
    | false =>
      rw [hinfo] at h
      dsimp only at h ⊢
      by_cases hdir : path.getLast? = some slash
      · rw [if_pos hdir] at h
        rw [if_pos (decide_eq_true hdir), Option.getD_some]
        split at h
        · exact (Prod.mk.inj (Option.some.inj h)).1.symm
        · cases h
      · rw [if_neg hdir] at h
        rw [if_neg (by rw [decide_eq_false hdir]; decide), Option.getD_none]
        split at h
        · exact (Prod.mk.inj (Option.some.inj h)).1.symm
        · cases h
  | none =>
    rw [hphp] at h
    dsimp only at h
    by_cases hdir : path.getLast? = some slash
    · rw [if_pos hdir] at h
      rw [decide_eq_true hdir, if_neg (by simp), if_pos rfl, Option.getD_some]
      split at h
      · exact (Prod.mk.inj (Option.some.inj h)).1.symm
      · cases h
    · rw [if_neg hdir] at h
      rw [decide_eq_false hdir]
      split at h
      · split
        · exact (Prod.mk.inj (Option.some.inj h)).1.symm
        · exact (Prod.mk.inj (Option.some.inj h)).1.symm
      · cases h

theorem cgi_listed (hkind : (site.location path).kind = .cgi) : site.cgiLocations = true :=
  List.any_eq_true.mpr ⟨site.location path, locationLoop_mem (List.getLast_mem _) _ none (fun _ hl => hl) nofun,
    decide_eq_true hkind⟩

/-- **A CGI location cuts a path where the rules do.** -/
theorem cgiStart_judged (hexact : site.exactRules = true) (hpath : path ≠ [])
    (hkind : (site.location path).kind = .cgi) {own : Scratch} {info : Bytes}
    (h : cgiStart (site.location path) isFile path = some (own, info)) :
    own = Scratch.of (site.location path) ((site.scriptOf isFile path).getD path) := by
  have hlisted := cgi_listed hkind
  unfold cgiStart at h
  unfold scriptOf
  rw [hexact, decide_eq_false hpath, hlisted]
  dsimp only at h ⊢
  rw [hkind]
  generalize site.location path = loc at h ⊢
  rw [if_neg (by decide), if_neg (by simp)]
  dsimp only
  by_cases hdir : path.getLast? = some slash
  · rw [if_pos hdir] at h
    rw [if_pos (decide_eq_true hdir)]
    split at h
    · cases h
    next hcut =>
    have hown := (Prod.mk.inj (Option.some.inj h)).1
    split
    · next hsame =>
      rw [Option.getD_none, ← hown, hsame.resolve_left hcut]
    · rw [Option.getD_some, hown]
  · rw [if_neg hdir] at h
    simp only [hdir, decide_false, Bool.false_eq_true, if_false]
    split at h
    · cases h
    next hcut =>
    have hown := (Prod.mk.inj (Option.some.inj h)).1
    split
    · next hsame =>
      rw [Option.getD_none, ← hown, hsame.resolve_left hcut]
    · rw [Option.getD_some, hown]

/-! ## §7. Routing, and what runs. -/

variable (site isFile path)

/-- With an exact rule on the site, only a file that is judged runs. -/
def RunsJudged (later : Option Scratch) : Prop :=
  site.exactRules = true → ∀ file, site.runs isFile path later = some file → site.JudgedFile isFile path file

/-- What the worker holds when a buffered FastCGI request is launched is of a file that is
    judged: no other request has left its own there. -/
def LaterJudged (later : Option Scratch) : Prop :=
  ∀ w, later = some w → site.exactRules = true → (site.location path).kind = .fastcgi →
    (fcgiStart (site.location path) isFile path).isSome = true → site.JudgedFile isFile path w.fsPath

variable {site isFile path}

theorem judgedFile_getD : site.JudgedFile isFile path
    (fsPathOf (site.location path) ((site.scriptOf isFile path).getD path)) := by
  cases hscript : site.scriptOf isFile path with
  | none => exact .inl rfl
  | some script => exact .inr ⟨script, hscript, rfl⟩

/-- **Only what is judged runs**, unless a buffered request finds another's path. -/
theorem runsJudged_iff (hpath : path ≠ []) (later : Option Scratch) :
    site.RunsJudged isFile path later ↔ site.LaterJudged isFile path later := by
  unfold RunsJudged LaterJudged runs
  dsimp only
  constructor
  · rintro h w rfl hexact hkind hstart
    rw [hkind] at h
    obtain ⟨own, hown⟩ := Option.isSome_iff_exists.mp hstart
    exact h hexact w.fsPath (by rw [hown]; rfl)
  · intro h hexact file hfile
    cases hkind : (site.location path).kind with
    | fastcgi =>
      rw [hkind] at hfile
      obtain ⟨⟨own, info⟩, hown, rfl⟩ := Option.map_eq_some_iff.mp hfile
      cases later with
      | none =>
        have hjudged := fcgiStart_judged hexact hpath hkind hown
        dsimp only [Option.getD_none]
        rw [hjudged]
        exact judgedFile_getD
      | some w => exact h w rfl hexact hkind (by rw [hown]; rfl)
    | cgi =>
      rw [hkind] at hfile
      obtain ⟨⟨own, info⟩, hown, rfl⟩ := Option.map_eq_some_iff.mp hfile
      rw [cgiStart_judged hexact hpath hkind hown]
      exact judgedFile_getD
    | static_ => rw [hkind] at hfile; cases hfile
    | proxy => rw [hkind] at hfile; cases hfile
    | control => rw [hkind] at hfile; cases hfile
    | httparena => rw [hkind] at hfile; cases hfile

end Site

/-- **A path gets the documented location, and the script judged is the script run**, exactly
    when the list covers the path and no other request's path is found at the launch. -/
theorem routes_and_runs (site : Site) {next : Nat} {d : Defaults} {written : List Location}
    (hfinal : site.locations = finalizeLocations next d written) (isFile : Bytes → Bool) {target path : Bytes}
    {encodedSeparator : Bool} (hnorm : normalizeTarget target = some (path, encodedSeparator)) (later : Option Scratch) :
    (Documented site.locations path (site.location path) ∧ site.RunsJudged isFile path later) ↔
      (site.Covered written path ∧ site.LaterJudged isFile path later) := by
  have hhead : path.head? = some slash := by
    obtain ⟨segs, last, hpath, _⟩ := Http.normalizeTarget_clean hnorm
    rw [show path = _ from hpath]
    rfl
  have hne : path ≠ [] := by
    rintro rfl
    cases hhead
  rw [Site.location_documented_iff hfinal hhead, Site.runsJudged_iff hne]

/-- A directory, the scripts and a page of its own; the root is added to them. -/
def phpLocations : List Location :=
  [{ id := 0, path := bytes "/app/" }, { id := 1, path := bytes ".php", isSuffix := true, kind := .fastcgi },
    { id := 2, path := bytes "/app/status.php", isExact := true }]

def phpSite : Site where
  locations := finalizeLocations 3 {} phpLocations
  locations_ne := List.ne_nil_of_length_pos (by rw [finalizeLocations, List.length_mergeSort]; decide)
  validation_static := validation_files

theorem routes_and_runs_script :
    Documented phpSite.locations (bytes "/a.php/x") (phpSite.location (bytes "/a.php/x")) ∧
      phpSite.RunsJudged (fun _ => true) (bytes "/a.php/x") none :=
  (@routes_and_runs phpSite _ _ _ rfl (fun _ => true) (bytes "/a.php/x") _ false (by decide +kernel) none).mpr
    ⟨.inr (.inl (by decide)), fun _ h => by cases h⟩

/-- A suffix location with the name of the root, and no prefix. -/
def slashSuffix : Location := { id := 1, path := [slash], isSuffix := true }

def suffixSite : Site where
  locations := [slashSuffix]
  locations_ne := List.cons_ne_nil _ _
  validation_static := validation_files

theorem suffixSite_final : suffixSite.locations = finalizeLocations 2 {} [slashSuffix] := by
  unfold finalizeLocations
  rw [if_pos (by decide)]
  exact (List.mergeSort_singleton (withScriptExact slashSuffix)).symm

/-- The root is no prefix there, so a file of it has no location of its own. -/
theorem root_suffix_not_documented : ¬ ∀ (site : Site) (next : Nat) (d : Defaults) (written : List Location),
    site.locations = finalizeLocations next d written → ∀ (target path : Bytes) (encodedSeparator : Bool),
      normalizeTarget target = some (path, encodedSeparator) → ∀ (isFile : Bytes → Bool) (later : Option Scratch),
        Documented site.locations path (site.location path) ∧ site.RunsJudged isFile path later := by
  intro h
  have hdocumented := (h suffixSite 2 {} [slashSuffix] suffixSite_final (bytes "/x") (bytes "/x") false (by decide +kernel)
    (fun _ => true) none).1
  rcases (Site.location_documented_iff suffixSite_final (by decide)).mp hdocumented with ⟨l, hl, hrank, _⟩ | hnot | ⟨l, hl, hmatch⟩
  · rw [List.mem_singleton.mp hl] at hrank
    cases hrank
  · exact hnot slashSuffix (List.mem_singleton_self _) (by decide) rfl
  rw [List.mem_singleton.mp hl] at hmatch
  exact absurd hmatch (by decide +kernel)

end Agensio.Dispatch
