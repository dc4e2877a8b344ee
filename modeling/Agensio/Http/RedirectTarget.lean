/-
  Agensio.Http.RedirectTarget — the Location a compiled rule writes.

  The bytes of a target are what `compile_to` has checked, those of the path
  and the query come from the client and are escaped again.  A Location
  begins with an origin and a `/`, or with a single `/`, and its path
  decodes to the rule's own path and what follows it of the client's.

  Main results:
    * `redirects_choose_and_write` — these, and what `match` chooses.
-/
import Agensio.Http.RedirectRules

namespace Agensio.Http.Redirect

open Agensio.Lib
open Agensio.Http1 (lower colon forall_byte)

/-! ## §1. Bytes of a Location. -/

/-- Printable, and no backslash. -/
def Printable (c : UInt8) : Prop := 0x20 < c ∧ c < 0x7f ∧ c ≠ backslash

instance (c : UInt8) : Decidable (Printable c) := inferInstanceAs (Decidable (_ ∧ _ ∧ _))

/-- What ends the path of a Location. -/
def inPath (c : UInt8) : Bool := c ≠ question && c ≠ fragmentMark

/-- Every byte, as it is written and as it is read. -/
theorem byte_kinds : ∀ c : UInt8, (pathChar c = true → Printable c ∧ inPath c = true) ∧
      ((hexVal c).isSome = true → Printable c ∧ inPath c = true) ∧
      (appendEscaped c).all (fun d => decide (Printable d) && inPath d) = true ∧
      (Printable c → Printable (lower c)) ∧ hexVal (hexDigit (c.toNat / 16)) = some (c.toNat / 16) ∧
      hexVal (hexDigit (c.toNat % 16)) = some (c.toNat % 16) :=
  forall_byte (by decide +kernel)

theorem pathChar_printable (c : UInt8) (h : pathChar c = true) : Printable c :=
  ((byte_kinds c).1 h).1

theorem appendEscaped_printable (c : UInt8) : ∀ d ∈ appendEscaped c, Printable d := fun d hd =>
  of_decide_eq_true (Bool.and_eq_true_iff.mp (List.all_eq_true.mp (byte_kinds c).2.2.1 d hd)).1

theorem hexVal_printable (c : UInt8) (h : (hexVal c).isSome = true) : Printable c :=
  ((byte_kinds c).2.1 h).1

theorem pathChar_inPath (c : UInt8) (h : pathChar c = true) : inPath c = true :=
  ((byte_kinds c).1 h).2

theorem appendEscaped_inPath (c : UInt8) : ∀ d ∈ appendEscaped c, inPath d = true := fun d hd =>
  (Bool.and_eq_true_iff.mp (List.all_eq_true.mp (byte_kinds c).2.2.1 d hd)).2

theorem hexVal_inPath (c : UInt8) (h : (hexVal c).isSome = true) : inPath c = true :=
  ((byte_kinds c).2.1 h).2

theorem appendPath_cons (c : UInt8) (s : Bytes) :
    appendPath (c :: s) = (if pathChar c || c = slash then [c] else appendEscaped c) ++ appendPath s := rfl

theorem appendPath_forall {P : UInt8 → Prop} (hchar : ∀ c, pathChar c = true → P c) (hslash : P slash)
    (hescaped : ∀ c, ∀ d ∈ appendEscaped c, P d) (s : Bytes) : ∀ d ∈ appendPath s, P d := by
  induction s with
  | nil => exact fun d hd => absurd hd List.not_mem_nil
  | cons c s ih =>
    intro d hd
    rw [appendPath_cons] at hd
    rcases List.mem_append.mp hd with hd | hd
    · split at hd
      · next hc =>
        rw [List.mem_singleton.mp hd]
        rcases (Bool.or_eq_true ..).mp hc with hc | hc
        · exact hchar c hc
        rw [of_decide_eq_true hc]
        exact hslash
      · exact hescaped c d hd
    · exact ih d hd

theorem appendQuery_forall {P : UInt8 → Prop} (hchar : ∀ c, pathChar c = true → P c) (hslash : P slash)
    (hquestion : P question) (hpercent : P percent) (hescaped : ∀ c, ∀ d ∈ appendEscaped c, P d) (s : Bytes) :
    ∀ d ∈ appendQuery s, P d := by
  induction s with
  | nil => exact fun d hd => absurd hd List.not_mem_nil
  | cons c s ih =>
    intro d hd
    unfold appendQuery at hd
    rcases List.mem_append.mp hd with hd | hd
    · split at hd
      · next hc =>
        rw [List.mem_singleton.mp hd]
        simp only [Bool.or_eq_true, decide_eq_true_eq] at hc
        rcases hc with (hc | rfl) | rfl
        · exact hchar c hc
        · exact hslash
        · exact hquestion
      · split at hd
        · rw [List.mem_singleton.mp hd]
          exact hpercent
        · exact hescaped c d hd
    · exact ih d hd

theorem appendQuery_printable (s : Bytes) : ∀ d ∈ appendQuery s, Printable d :=
  appendQuery_forall pathChar_printable (by decide) (by decide) (by decide) appendEscaped_printable s

/-- A checked part of a target: each byte is a character of a URI, or of an escape. -/
theorem validPart_forall {P : UInt8 → Prop} {query : Bool} (hchar : ∀ c, pathChar c = true → P c) (hslash : P slash)
    (hpercent : P percent) (hhex : ∀ c, (hexVal c).isSome = true → P c) (hquery : query = true → P question) :
    ∀ {s : Bytes}, validPart query s = true → ∀ c ∈ s, P c
  | [], _, c, hc => absurd hc List.not_mem_nil
  | d :: rest, h, c, hc => by
    unfold validPart at h
    split at h
    · next hd =>
      split at h
      · next hi lo rest =>
        rw [Bool.and_eq_true, Bool.and_eq_true] at h
        rcases List.mem_cons.mp hc with rfl | hc
        · rw [hd]
          exact hpercent
        rcases List.mem_cons.mp hc with rfl | hc
        · exact hhex _ h.1.1
        rcases List.mem_cons.mp hc with rfl | hc
        · exact hhex _ h.1.2
        · exact validPart_forall hchar hslash hpercent hhex hquery h.2 c hc
      · cases h
    · rw [Bool.and_eq_true, Bool.or_eq_true, Bool.or_eq_true, Bool.and_eq_true, decide_eq_true_eq, decide_eq_true_eq] at h
      rcases List.mem_cons.mp hc with rfl | hc
      · rcases h.1 with (hd | rfl) | ⟨hq, rfl⟩
        · exact hchar _ hd
        · exact hslash
        · exact hquery hq
      · exact validPart_forall hchar hslash hpercent hhex hquery h.2 c hc

theorem validPart_printable {query : Bool} {s : Bytes} (h : validPart query s = true) : ∀ c ∈ s, Printable c :=
  validPart_forall pathChar_printable (by decide) (by decide) hexVal_printable (fun _ => by decide) h

theorem validPart_inPath {s : Bytes} (h : validPart false s = true) : ∀ c ∈ s, inPath c = true :=
  validPart_forall (P := fun c => inPath c = true) pathChar_inPath (by decide) (by decide) hexVal_inPath
    (fun h => by cases h) h

/-! ## §2. Decoding. -/

theorem decode_cons {c : UInt8} (hc : c ≠ percent) (s : Bytes) : decode (c :: s) = (decode s).map (c :: ·) := by
  conv_lhs => unfold decode
  rw [if_pos hc]

theorem decode_escape {hi lo : UInt8} {h l : Nat} (hh : hexVal hi = some h) (hl : hexVal lo = some l) (s : Bytes) :
    decode (percent :: hi :: lo :: s) = (decode s).map (UInt8.ofNat (h * 16 + l) :: ·) := by
  conv_lhs => unfold decode
  rw [if_neg (by simp)]
  dsimp only
  rw [hh, hl]

/-- An escape spells the byte it is written for. -/
theorem decode_appendEscaped (c : UInt8) (s : Bytes) : decode (appendEscaped c ++ s) = (decode s).map (c :: ·) := by
  have hbyte : c.toNat / 16 * 16 + c.toNat % 16 = c.toNat := by omega
  show decode (percent :: hexDigit (c.toNat / 16) :: hexDigit (c.toNat % 16) :: s) = _
  obtain ⟨-, -, -, -, hhi, hlo⟩ := byte_kinds c
  rw [decode_escape hhi hlo, hbyte, UInt8.ofNat_toNat]

/-- **An escaped path decodes to itself.** -/
theorem decode_appendPath (s : Bytes) : decode (appendPath s) = some s := by
  induction s with
  | nil => rfl
  | cons c s ih =>
    rw [appendPath_cons]
    split
    · next hc =>
      have hne : c ≠ percent := by
        rintro rfl
        revert hc
        decide
      rw [List.singleton_append, decode_cons hne, ih]
      rfl
    · rw [decode_appendEscaped, ih]
      rfl

/-- A checked part decodes. -/
theorem decode_validPart {query : Bool} : ∀ {s : Bytes}, validPart query s = true → ∀ t, ∃ d, decode (s ++ t) = (decode t).map (d ++ ·)
    ∧ decode s = some d
  | [], _, t => ⟨[], by simp, rfl⟩
  | c :: rest, h, t => by
    unfold validPart at h
    split at h
    · next hc =>
      split at h
      · next hi lo rest =>
        rw [Bool.and_eq_true, Bool.and_eq_true] at h
        obtain ⟨x, hx⟩ := Option.isSome_iff_exists.mp h.1.1
        obtain ⟨y, hy⟩ := Option.isSome_iff_exists.mp h.1.2
        obtain ⟨d, happend, halone⟩ := decode_validPart h.2 t
        refine ⟨UInt8.ofNat (x * 16 + y) :: d, ?_, ?_⟩
        · rw [hc, List.cons_append, List.cons_append, List.cons_append, decode_escape hx hy, happend, Option.map_map]
          rfl
        · rw [hc, decode_escape hx hy, halone]
          rfl
      · cases h
    · next hc =>
      rw [Bool.and_eq_true] at h
      obtain ⟨d, happend, halone⟩ := decode_validPart h.2 t
      refine ⟨c :: d, ?_, ?_⟩
      · rw [List.cons_append, decode_cons hc, happend, Option.map_map]
        rfl
      · rw [decode_cons hc, halone]
        rfl

/-! ## §3. What is known of a target. -/

/-- A target of the site, or an origin and what is behind it. -/
theorem splitOrigin_ok {text origin rest : Bytes} (h : splitOrigin text = .ok (origin, rest))
    (hprintable : ∀ c ∈ text, Printable c) :
    (origin = [] ∧ rest = text ∧ text.head? = some slash ∧ ¬ [slash, slash] <+: text) ∨
      (origin ≠ [] ∧ (∀ c ∈ origin, Printable c) ∧ ∀ c, rest.head? = some c → c = slash ∨ c = question ∨ c = fragmentMark) := by
  unfold splitOrigin at h
  have hscheme : ∀ c ∈ (if bytes "https://" <+: text then bytes "https://" else if bytes "http://" <+: text then bytes "http://" else []),
      Printable c := by
    split
    · exact forall_mem_of_all (by decide)
    split
    · exact forall_mem_of_all (by decide)
    · exact fun c hc => absurd hc List.not_mem_nil
  dsimp only at h
  generalize (if bytes "https://" <+: text then bytes "https://" else if bytes "http://" <+: text then bytes "http://" else []) =
    scheme at h hscheme
  split at h
  · next hne =>
    split at h
    · cases h
    split at h
    · cases h
    cases hauth : splitAuthority ((text.drop scheme.length).takeWhile fun c => decide (c ≠ slash) && decide (c ≠ question) &&
        decide (c ≠ fragmentMark)) with
    | error why =>
      rw [hauth] at h
      cases h
    | ok parts =>
      rw [hauth] at h
      dsimp only at h
      split at h
      · cases h
      cases Except.ok.inj h
      refine .inr ⟨fun hnil => hne (List.append_eq_nil_iff.mp hnil).1, fun c hc => ?_, fun c hc => ?_⟩
      · rcases List.mem_append.mp hc with hc | hc
        · exact hscheme c hc
        obtain ⟨d, hd, rfl⟩ := List.mem_map.mp hc
        exact (byte_kinds d).2.2.2.1 (hprintable d (List.mem_of_mem_drop (List.takeWhile_subset _ hd)))
      · have hsplit := List.takeWhile_append_dropWhile (p := fun c => decide (c ≠ slash) && decide (c ≠ question) &&
          decide (c ≠ fragmentMark)) (l := text.drop scheme.length)
        have hdrop : (text.drop scheme.length).drop ((text.drop scheme.length).takeWhile fun c => decide (c ≠ slash) &&
            decide (c ≠ question) && decide (c ≠ fragmentMark)).length = (text.drop scheme.length).dropWhile fun c =>
            decide (c ≠ slash) && decide (c ≠ question) && decide (c ≠ fragmentMark) := by
          conv_lhs =>
            arg 2
            rw [← hsplit]
          rw [List.drop_left]
        rw [hdrop] at hc
        have hhead := List.head?_dropWhile_not (fun c : UInt8 => decide (c ≠ slash) && decide (c ≠ question) &&
          decide (c ≠ fragmentMark)) (text.drop scheme.length)
        rw [hc] at hhead
        simp only [Bool.and_eq_false_iff, decide_eq_false_iff_not, not_not] at hhead
        tauto
  · split at h
    · cases h
    next hslash =>
    split at h
    · cases h
    next htwo =>
    cases Except.ok.inj h
    rw [Bool.or_eq_true, not_or, decide_eq_true_eq, decide_eq_true_eq, not_not] at hslash
    exact .inl ⟨rfl, rfl, hslash.2, htwo⟩

/-- What `compile_to` has checked. -/
structure Checked (origin toPath toQuery toFragment : Bytes) : Prop where
  path : validPart false toPath = true
  query : validPart true toQuery = true
  fragment : validPart true toFragment = true
  printable : ∀ c ∈ origin, Printable c
  -- a target of the site is no other host to a browser
  site : origin = [] → ∃ rest, toPath = slash :: rest ∧ rest.head? ≠ some slash
  host : origin ≠ [] → toPath = [] ∨ toPath.head? = some slash

theorem compileTo_ok {text : Bytes} {t : Target} (h : compileTo text = .ok t) :
    Checked t.origin t.toPath t.toQuery t.toFragment := by
  unfold compileTo at h
  split at h
  · cases h
  split at h
  · cases h
  next hbytes =>
  have hprintable : ∀ c ∈ text, Printable c := by
    intro c hc
    rw [List.any_eq_true, not_exists] at hbytes
    have := hbytes c
    rw [not_and, Bool.or_eq_true, Bool.or_eq_true, not_or, not_or, decide_eq_true_eq, decide_eq_true_eq, decide_eq_true_eq,
      UInt8.not_le, UInt8.not_le] at this
    obtain ⟨⟨hlow, hhigh⟩, hback⟩ := this hc
    exact ⟨hlow, hhigh, hback⟩
  cases horigin : splitOrigin text with
  | error why =>
    rw [horigin] at h
    cases h
  | ok parts =>
    obtain ⟨origin, rest⟩ := parts
    rw [horigin] at h
    dsimp only at h
    split at h
    · cases h
    next hvalid =>
    rw [Bool.or_eq_true, Bool.or_eq_true, not_or, not_or, Bool.not_eq_true', Bool.not_eq_true', Bool.not_eq_true',
      Bool.not_eq_false, Bool.not_eq_false, Bool.not_eq_false] at hvalid
    obtain ⟨⟨hpath, hquery⟩, hfragment⟩ := hvalid
    split at h
    · cases h
    split at h
    · next hclean =>
      cases h
      have hhead : ∀ c u, rest = c :: u → c = slash → (rest.takeWhile fun x => decide (x ≠ fragmentMark)).takeWhile
          (fun x => decide (x ≠ question)) = slash :: (u.takeWhile fun x => decide (x ≠ fragmentMark)).takeWhile
            fun x => decide (x ≠ question) := by
        rintro c u rfl rfl
        rfl
      refine ⟨hpath, hquery, hfragment, ?_, fun hnil => ?_, fun hne => ?_⟩
      · rcases splitOrigin_ok horigin hprintable with ⟨hnil, _⟩ | ⟨_, hall, _⟩
        · dsimp only
          rw [hnil]
          exact fun c hc => absurd hc List.not_mem_nil
        · exact hall
      · rcases splitOrigin_ok horigin hprintable with ⟨_, rfl, hslash, htwo⟩ | ⟨hne, _⟩
        · cases rest with
          | nil => cases hslash
          | cons c u =>
            cases hslash
            refine ⟨_, hhead slash u rfl rfl, fun htop => htwo ?_⟩
            rw [List.head?_takeWhile, List.head?_takeWhile, Option.filter_eq_some_iff, Option.filter_eq_some_iff] at htop
            obtain ⟨u', rfl⟩ := List.head?_eq_some_iff.mp htop.1.1
            exact ⟨u', rfl⟩
        · exact absurd hnil hne
      · rcases splitOrigin_ok horigin hprintable with ⟨hnil, _⟩ | ⟨_, _, hstart⟩
        · exact absurd hnil hne
        cases rest with
        | nil => exact .inl rfl
        | cons c u =>
          rcases hstart c rfl with rfl | rfl | rfl
          · exact .inr ((congrArg List.head? (hhead slash u rfl rfl)).trans rfl)
          · exact .inl rfl
          · exact .inl rfl
    · cases h

theorem RedirectRule.Compiled.checked {r : RedirectRule} (h : r.Compiled) (hstatus : r.status ≠ 410) :
    Checked r.origin r.toPath r.toQuery r.toFragment := by
  obtain ⟨written, target, hto, horigin, hpath, hquery, hfragment⟩ := h.compiledTo hstatus
  rw [horigin, hpath, hquery, hfragment]
  exact compileTo_ok hto

/-! ## §4. The Location. -/

/-- A path that has been normalised has no two slashes in a row. -/
theorem clean_no_slashes {path : Bytes} (h : Clean path) (pre post : Bytes) : path ≠ pre ++ slash :: slash :: post := by
  obtain ⟨segs, last, hpath, hsegs, _, hslash⟩ := h
  intro hcut
  have hsplit : path.splitOn slash = [] :: (segs ++ [last]) := by
    rw [hpath, splitOn_cons_self, List.splitOn_intercalate slash hslash (by simp)]
  rw [hcut, List.splitOn_append_cons_self, splitOn_cons_self] at hsplit
  cases hpre : pre.splitOn slash with
  | nil => exact List.splitOn_ne_nil slash pre hpre
  | cons x xs =>
    rw [hpre, List.cons_append] at hsplit
    have htail := (List.cons.inj hsplit).2
    rcases List.eq_nil_or_concat (post.splitOn slash) with hnil | ⟨ys, y, hpost⟩
    · exact List.splitOn_ne_nil slash post hnil
    rw [hpost, List.concat_eq_append, ← List.cons_append, ← List.append_assoc] at htail
    have hmem : ([] : Bytes) ∈ segs := by
      rw [← (List.append_inj' htail rfl).1]
      simp
    have := hsegs [] hmem
    cases this

/-- What follows a rule's own path of the client's. -/
def remainder (r : RedirectRule) (path : Bytes) : Bytes :=
  if !r.exact && r.keepRemainder then path.drop r.fromPath.length else []

/-- A path without one slash at its end, and one without a slash at its front. -/
def withoutLast (p : Bytes) : Bytes := if p.getLast? = some slash then p.dropLast else p

def withoutFirst (p : Bytes) : Bytes := if p.head? = some slash then p.drop 1 else p

/-- **The path of a Location**: the target's, one slash, and the remainder escaped. -/
theorem path_eq (r : RedirectRule) (path : Bytes) : (if (r.path path).isEmpty then [slash] else r.path path) =
    if remainder r path = [] then (if r.toPath = [] then [slash] else r.toPath)
    else withoutLast r.toPath ++ slash :: appendPath (withoutFirst (remainder r path)) := by
  have hempty : remainder r path = [] ↔ ¬ ((!r.exact && r.keepRemainder && decide (path.length > r.fromPath.length)) = true) := by
    unfold remainder
    cases hkeep : !r.exact && r.keepRemainder with
    | false => simp
    | true => simp [List.drop_eq_nil_iff]
  unfold Rule.path
  by_cases hrest : remainder r path = []
  · rw [if_pos hrest, if_neg (hempty.mp hrest)]
    cases r.toPath with
    | nil => rfl
    | cons c cs => rfl
  · have hgo := not_not.mp (fun h => hrest (hempty.mpr h))
    have hrem : remainder r path = path.drop r.fromPath.length := by
      unfold remainder
      rw [Bool.and_eq_true] at hgo
      rw [if_pos hgo.1]
    rw [if_neg hrest, if_pos hgo, hrem]
    rw [hrem] at hrest
    generalize path.drop r.fromPath.length = rest at hrest
    have hlast : r.toPath.getLast? = some slash → r.toPath = r.toPath.dropLast ++ [slash] := by
      intro h
      obtain ⟨front, hfront⟩ := List.getLast?_eq_some_iff.mp h
      rw [hfront, List.dropLast_concat]
    have hjoin : (if (decide (r.toPath.getLast? = some slash) && decide (rest.head? = some slash)) = true then
          r.toPath ++ appendPath (rest.drop 1)
        else if (decide (r.toPath.getLast? ≠ some slash) && decide (rest.head? ≠ some slash)) = true then
          r.toPath ++ slash :: appendPath rest
        else r.toPath ++ appendPath rest) = withoutLast r.toPath ++ slash :: appendPath (withoutFirst rest) := by
      unfold withoutLast withoutFirst
      by_cases hl : r.toPath.getLast? = some slash
      · by_cases hf : rest.head? = some slash
        · simp only [hl, hf, decide_true, Bool.and_self, if_true]
          conv_lhs => rw [hlast hl]
          rw [List.append_assoc]
          rfl
        · simp only [hl, hf, decide_true, decide_false, Bool.and_false, if_true, if_false, ne_eq, not_true_eq_false,
            Bool.false_and, Bool.false_eq_true]
          conv_lhs => rw [hlast hl]
          rw [List.append_assoc]
          rfl
      · by_cases hf : rest.head? = some slash
        · obtain ⟨rest', rfl⟩ := List.head?_eq_some_iff.mp hf
          simp only [hl, decide_false, Bool.false_and, if_false, ne_eq, not_false_eq_true, decide_true, List.head?_cons,
            not_true_eq_false, Bool.and_false, Bool.false_eq_true, if_true, List.drop_one, List.tail_cons]
          rfl
        · simp [hl, hf]
    rw [hjoin, if_neg (by simp)]


/-- What stands behind the path of a Location. -/
def behindPath (r : RedirectRule) (query : Bytes) : Bytes :=
  r.query query ++ if r.toFragment.isEmpty then [] else fragmentMark :: r.toFragment

/-- The path of a Location. -/
def locationPath (r : RedirectRule) (path : Bytes) : Bytes := if (r.path path).isEmpty then [slash] else r.path path

/-- What a Location begins with: the rule's own origin, or the one that is handed over. -/
def beginning (r : RedirectRule) (origin : Bytes) : Bytes := if r.origin.isEmpty then origin else r.origin

theorem writeLocation_eq (r : RedirectRule) (path query origin : Bytes) :
    r.writeLocation path query origin = beginning r origin ++ (locationPath r path ++ behindPath r query) := by
  unfold Rule.writeLocation beginning locationPath behindPath
  rw [List.append_assoc, List.append_assoc]

/-- Behind the path there is a query, a fragment or nothing. -/
theorem behindPath_head (r : RedirectRule) (query : Bytes) :
    ∀ c, (behindPath r query).head? = some c → c = question ∨ c = fragmentMark := by
  intro c hc
  unfold behindPath Rule.query at hc
  by_cases hquery : r.toQuery.isEmpty = true
  · rw [if_pos hquery, if_pos hquery, List.nil_append] at hc
    split at hc
    · exact .inl (Option.some.inj hc).symm
    split at hc
    · cases hc
    · exact .inr (Option.some.inj hc).symm
  · rw [if_neg hquery] at hc
    exact .inl (Option.some.inj hc).symm

section Written

variable {r : RedirectRule} (h : Checked r.origin r.toPath r.toQuery r.toFragment)

theorem mem_withoutLast {p : Bytes} {c : UInt8} (hc : c ∈ withoutLast p) : c ∈ p := by
  unfold withoutLast at hc
  split at hc
  · exact (List.dropLast_sublist p).subset hc
  · exact hc

theorem locationPath_forall {P : UInt8 → Prop} (hpath : ∀ c ∈ r.toPath, P c) (hslash : P slash)
    (happend : ∀ s, ∀ c ∈ appendPath s, P c) (path : Bytes) : ∀ c ∈ locationPath r path, P c := by
  intro c hc
  unfold locationPath at hc
  rw [path_eq] at hc
  split at hc
  · split at hc
    · rw [List.mem_singleton.mp hc]
      exact hslash
    · exact hpath c hc
  · rcases List.mem_append.mp hc with hc | hc
    · exact hpath c (mem_withoutLast hc)
    rcases List.mem_cons.mp hc with rfl | hc
    · exact hslash
    · exact happend _ c hc

include h in
/-- **Every byte of a Location is printable**, and none is a backslash. -/
theorem writeLocation_bytes {origin : Bytes} (horigin : ∀ c ∈ origin, Printable c) (path query : Bytes) :
    ∀ c ∈ r.writeLocation path query origin, Printable c := by
  intro c hc
  rw [writeLocation_eq] at hc
  rcases List.mem_append.mp hc with hc | hc
  · unfold beginning at hc
    split at hc
    · exact horigin c hc
    · exact h.printable c hc
  rcases List.mem_append.mp hc with hc | hc
  · exact locationPath_forall (validPart_printable h.path) (by decide)
      (fun s => appendPath_forall pathChar_printable (by decide) appendEscaped_printable s) path c hc
  unfold behindPath Rule.query at hc
  rcases List.mem_append.mp hc with hc | hc
  · rcases List.mem_append.mp hc with hc | hc
    · split at hc
      · cases hc
      rcases List.mem_cons.mp hc with rfl | hc
      · decide
      · exact validPart_printable h.query c hc
    · split at hc
      · rcases List.mem_cons.mp hc with rfl | hc
        · split <;> decide
        · exact appendQuery_printable query c hc
      · cases hc
  · split at hc
    · cases hc
    rcases List.mem_cons.mp hc with rfl | hc
    · decide
    · exact validPart_printable h.fragment c hc

theorem withoutLast_cons_cons {d : UInt8} {ds : Bytes} (hd : d ≠ slash) :
    ∃ rest, withoutLast (slash :: d :: ds) = slash :: d :: rest := by
  unfold withoutLast
  split
  · next hlast =>
    cases ds with
    | nil => exact absurd (Option.some.inj hlast) hd
    | cons e es => exact ⟨(e :: es).dropLast, rfl⟩
  · exact ⟨ds, rfl⟩

/-- Escaping writes no slash in front where none was. -/
theorem appendPath_head {s : Bytes} (hs : s.head? ≠ some slash) : (appendPath s).head? ≠ some slash := by
  cases s with
  | nil => exact hs
  | cons c cs =>
    rw [appendPath_cons]
    split
    · exact hs
    · exact fun heq => absurd (Option.some.inj heq) (by decide)

/-- The remainder of a normalised path has at most one slash in front. -/
theorem withoutFirst_head {path : Bytes} (hclean : Clean path) (r : RedirectRule) :
    (withoutFirst (remainder r path)).head? ≠ some slash := by
  unfold withoutFirst
  split
  · next hfirst =>
    obtain ⟨rest, hrest⟩ := List.head?_eq_some_iff.mp hfirst
    rw [hrest]
    intro hsecond
    obtain ⟨rest', hrest'⟩ := List.head?_eq_some_iff.mp hsecond
    rw [List.drop_one, List.tail_cons] at hrest'
    rw [hrest'] at hrest
    unfold remainder at hrest
    split at hrest
    · refine clean_no_slashes hclean (path.take r.fromPath.length) rest' ?_
      rw [← hrest, List.take_append_drop]
    · cases hrest
  · assumption

include h in
/-- A slash stands in front of the path; behind an origin of the site, one alone. -/
theorem locationPath_begins {path : Bytes} (hclean : Clean path) : ∃ rest, locationPath r path = slash :: rest ∧
    (r.origin = [] → rest.head? ≠ some slash) := by
  unfold locationPath
  rw [path_eq]
  by_cases horigin : r.origin = []
  · obtain ⟨rest, hpath, hrest⟩ := h.site horigin
    rw [hpath, if_neg (List.cons_ne_nil _ _)]
    split
    · exact ⟨rest, rfl, fun _ => hrest⟩
    cases rest with
    | nil => exact ⟨_, rfl, fun _ => appendPath_head (withoutFirst_head hclean r)⟩
    | cons d ds =>
      obtain ⟨rest, hlast⟩ := @withoutLast_cons_cons _ ds fun heq => hrest (congrArg some heq)
      rw [hlast]
      exact ⟨_, rfl, fun _ => hrest⟩
  · have hnil : ∀ {P : Prop}, r.origin = [] → P := fun heq => absurd heq horigin
    split
    · split
      · exact ⟨[], rfl, hnil⟩
      next hne =>
      obtain ⟨rest, hrest⟩ := List.head?_eq_some_iff.mp ((h.host horigin).resolve_left hne)
      exact ⟨rest, hrest, hnil⟩
    · rcases h.host horigin with hempty | hfirst
      · rw [hempty]
        exact ⟨_, rfl, hnil⟩
      obtain ⟨rest, hrest⟩ := List.head?_eq_some_iff.mp hfirst
      rw [hrest]
      cases rest with
      | nil => exact ⟨_, rfl, hnil⟩
      | cons d ds =>
        unfold withoutLast
        split
        · exact ⟨_, rfl, hnil⟩
        · exact ⟨_, rfl, hnil⟩

include h in
/-- **A Location begins with its origin and a slash**; one without an origin is no other host. -/
theorem writeLocation_begins {path : Bytes} (hclean : Clean path) (query origin : Bytes) :
    ∃ rest, r.writeLocation path query origin = beginning r origin ++ slash :: rest ∧
      (r.origin = [] → rest.head? ≠ some slash ∧ rest.head? ≠ some backslash) := by
  obtain ⟨rest, hrest, hone⟩ := locationPath_begins h hclean
  refine ⟨rest ++ behindPath r query, ?_, fun hnil => ?_⟩
  · rw [writeLocation_eq, hrest]
    rfl
  · have hbehind := behindPath_head r query
    cases rest with
    | nil =>
      rw [List.nil_append]
      constructor
      · intro heq
        rcases hbehind _ heq with hc | hc <;> cases hc
      · intro heq
        rcases hbehind _ heq with hc | hc <;> cases hc
    | cons c cs =>
      refine ⟨hone hnil, fun heq => ?_⟩
      have hprintable := locationPath_forall (validPart_printable h.path) (by decide)
        (fun s => appendPath_forall pathChar_printable (by decide) appendEscaped_printable s) path c (by rw [hrest]; simp)
      exact hprintable.2.2 (Option.some.inj heq)

/-- A checked part without the slash at its end is one. -/
theorem validPart_concat {query : Bool} : ∀ {s : Bytes}, validPart query (s ++ [slash]) = true → validPart query s = true
  | [], _ => rfl
  | c :: rest, hvalid => by
    rw [List.cons_append] at hvalid
    unfold validPart at hvalid ⊢
    split at hvalid
    · next hc =>
      rw [if_pos hc]
      match rest, hvalid with
      | [], hvalid => cases hvalid
      | [hi], hvalid =>
        -- the slash is no digit of an escape
        rw [List.singleton_append] at hvalid
        rw [Bool.and_eq_true, Bool.and_eq_true] at hvalid
        exact absurd hvalid.1.2 (by decide)
      | hi :: lo :: rest, hvalid =>
        rw [List.cons_append, List.cons_append] at hvalid
        rw [Bool.and_eq_true] at hvalid ⊢
        exact ⟨hvalid.1, validPart_concat hvalid.2⟩
    · next hc =>
      rw [if_neg hc]
      rw [Bool.and_eq_true] at hvalid ⊢
      exact ⟨hvalid.1, validPart_concat hvalid.2⟩

theorem validPart_withoutLast {s : Bytes} (hvalid : validPart false s = true) : validPart false (withoutLast s) = true := by
  unfold withoutLast
  split
  · next hlast =>
    obtain ⟨front, hfront⟩ := List.getLast?_eq_some_iff.mp hlast
    rw [hfront] at hvalid ⊢
    rw [List.dropLast_concat]
    exact validPart_concat hvalid
  · exact hvalid

/-- What a path decodes to: the target's, and behind one slash the remainder. -/
def Joined (r : RedirectRule) (path written : Bytes) : Prop :=
  if remainder r path = [] then ∃ d, decode (if r.toPath = [] then [slash] else r.toPath) = some d ∧ decode written = some d
  else ∃ d, decode (withoutLast r.toPath) = some d ∧
    decode written = some (d ++ slash :: withoutFirst (remainder r path))

include h in
theorem locationPath_inPath (path : Bytes) : ∀ c ∈ locationPath r path, inPath c = true :=
  locationPath_forall (P := fun c => inPath c = true) (validPart_inPath h.path) (by decide)
    (fun s => appendPath_forall (P := fun c => inPath c = true) pathChar_inPath (by decide) appendEscaped_inPath s) path

include h in
/-- The path of a Location ends where its query or its fragment begins. -/
theorem takeWhile_locationPath (path query : Bytes) :
    (locationPath r path ++ behindPath r query).takeWhile inPath = locationPath r path := by
  rw [List.takeWhile_append_of_pos (locationPath_inPath h path)]
  cases hbehind : behindPath r query with
  | nil => rw [List.takeWhile_nil, List.append_nil]
  | cons c cs =>
    have hc : inPath c = false := by
      rcases behindPath_head r query c (congrArg List.head? hbehind) with rfl | rfl <;> decide
    rw [List.takeWhile_cons, hc, if_neg (by decide), List.append_nil]

include h in
theorem locationPath_decodes (path : Bytes) : Joined r path (locationPath r path) := by
  unfold Joined locationPath
  rw [path_eq]
  split
  · have hvalid : validPart false (if r.toPath = [] then [slash] else r.toPath) = true := by
      split
      · rfl
      · exact h.path
    obtain ⟨d, _, hd⟩ := decode_validPart hvalid []
    exact ⟨d, hd, hd⟩
  · obtain ⟨d, happend, hd⟩ := decode_validPart (validPart_withoutLast h.path)
      (slash :: appendPath (withoutFirst (remainder r path)))
    refine ⟨d, hd, ?_⟩
    rw [happend, decode_cons (by decide), decode_appendPath]
    rfl

include h in
/-- **The path of a Location decodes** to the target's path and the remainder. -/
theorem writeLocation_decodes (path query origin : Bytes) :
    Joined r path (((r.writeLocation path query origin).drop (beginning r origin).length).takeWhile inPath) := by
  rw [writeLocation_eq, List.drop_left, takeWhile_locationPath h]
  exact locationPath_decodes h path

end Written

/-! ## §5. Redirects. -/

/-- What is wanted of a Location. -/
structure Wanted (r : RedirectRule) (path query origin location : Bytes) : Prop where
  printable : ∀ c ∈ location, Printable c
  begins : ∃ rest, location = beginning r origin ++ slash :: rest ∧
    (r.origin = [] → rest.head? ≠ some slash ∧ rest.head? ≠ some backslash)
  joined : Joined r path ((location.drop (beginning r origin).length).takeWhile inPath)

/-- **The most specific rule is taken, in any order, and writes a Location that is one.** -/
theorem redirects_choose_and_write {rules : List RedirectRule} (hfew : rules.length ≤ kMaxRules)
    (hcompiled : ∀ r ∈ rules, r.Compiled) (hdistinct : Distinct rules) {target path : Bytes} {encodedSeparator : Bool}
    (hnorm : normalizeTarget target = some (path, encodedSeparator)) (query : Bytes) :
    (∀ r, match_ (index rules) path query encodedSeparator = some r ↔ Taken rules path query encodedSeparator r) ∧
      (∀ rules', rules.Perm rules' →
        match_ (index rules') path query encodedSeparator = match_ (index rules) path query encodedSeparator) ∧
      ∀ r ∈ rules, r.status ≠ 410 → ∀ origin, (∀ c ∈ origin, Printable c) →
        Wanted r path query origin (r.writeLocation path query origin) := by
  refine ⟨match_iff hfew hcompiled hdistinct, fun _ => match_perm hfew hcompiled hdistinct, fun r hr hstatus origin horigin => ?_⟩
  have hchecked := (hcompiled r hr).checked hstatus
  exact ⟨writeLocation_bytes hchecked horigin path query,
    writeLocation_begins hchecked (normalizeTarget_clean hnorm) query origin,
    writeLocation_decodes hchecked path query origin⟩

/-- A rule for all that was below one path. -/
def movedRule (from_ to_ : Bytes) (h : ∀ c ∈ [] ++ to_ ++ [] ++ [], 0x20 < c ∧ c < 0x7f) : RedirectRule where
  status := 301
  origin := []
  fromPath := from_
  toPath := to_
  toQuery := []
  toFragment := []
  exact := false
  keepRemainder := true
  keepQuery := true
  target_clean := h
  text := from_

def movedBlog : RedirectRule := movedRule (bytes "/blog") (bytes "/news/") (forall_mem_of_all (by decide))

theorem movedBlog_compiled : movedBlog.Compiled where
  compiledFrom := by decide +kernel
  compiledTo := fun _ => ⟨bytes "/news/", ⟨[], bytes "/news/", [], [], forall_mem_of_all (by decide)⟩, by decide +kernel, rfl, rfl, rfl, rfl⟩

def movedDocs : RedirectRule := movedRule (bytes "/docs") (bytes "/help/") (forall_mem_of_all (by decide))

theorem movedDocs_compiled : movedDocs.Compiled where
  compiledFrom := by decide +kernel
  compiledTo := fun _ => ⟨bytes "/help/", ⟨[], bytes "/help/", [], [], forall_mem_of_all (by decide)⟩, by decide +kernel, rfl, rfl, rfl, rfl⟩

theorem redirects_choose_and_write_moved :
    match_ (index [movedDocs, movedBlog]) (bytes "/blog/a b") [] false = some movedBlog ↔
      Taken [movedDocs, movedBlog] (bytes "/blog/a b") [] false movedBlog :=
  (@redirects_choose_and_write [movedDocs, movedBlog] (by decide)
    (by simp [movedDocs_compiled, movedBlog_compiled]) (by unfold Distinct; decide)
    (bytes "/blog/a%20b") (bytes "/blog/a b") false (by decide +kernel) []).1 movedBlog

example : movedBlog.writeLocation (bytes "/blog/a b") (bytes "page=2") [] = bytes "/news/a%20b?page=2" := by decide +kernel

def movedShop : RedirectRule := movedRule (bytes "/blog") (bytes "/shop/") (forall_mem_of_all (by decide))

theorem movedShop_compiled : movedShop.Compiled where
  compiledFrom := by decide +kernel
  compiledTo := fun _ => ⟨bytes "/shop/", ⟨[], bytes "/shop/", [], [], forall_mem_of_all (by decide)⟩, by decide +kernel, rfl, rfl, rfl, rfl⟩

/-- Two prefix rules of one path: the one written first is taken. -/
theorem match_first (x y : RedirectRule) (hx : x.exact = false ∧ x.fromPath = bytes "/blog")
    (hy : y.exact = false ∧ y.fromPath = bytes "/blog") :
    match_ (index [x, y]) (bytes "/blog") [] false = some x := by
  have hexact : (index [x, y]).exact (bytes "/blog") = [] := by
    have hnone : places [x, y] (fun r => r.exact && decide (r.fromPath = bytes "/blog")) = [] := by
      simp [places, List.range_succ, hx.1, hy.1]
    show (places [x, y] _).mergeSort _ = []
    rw [hnone, List.mergeSort_nil]
  have hprefixes : (index [x, y]).prefixes = [0, 1] := by
    have hboth : places [x, y] (fun r => !r.exact) = [0, 1] := by
      simp [places, List.range_succ, hx.1, hy.1, u16]
    show (places [x, y] _).mergeSort _ = [0, 1]
    rw [hboth]
    -- the two are of one length, so they stay as they are written
    refine List.mergeSort_of_pairwise (List.pairwise_pair.mpr ?_)
    simp [byRules, hx.2, hy.2]
  have hcovers : covers x (bytes "/blog") = true := by
    unfold covers
    rw [hx.2]
    decide
  have hfirst : (index [x, y]).first 0x62 = true := by
    show ([x, y].any fun r => marksFirst r 0x62) = true
    unfold marksFirst
    rw [List.any_cons, hx.1, hx.2]
    rfl
  unfold match_ RedirectSet.firstOf
  rw [hexact, hprefixes, List.findSome?_nil, Option.none_or, if_neg (by decide), if_neg]
  · have hat : (index [x, y]).at_ 0 (fun r => covers r (bytes "/blog")) = some x := by
      show (some x).filter _ = some x
      rw [Option.filter_some, if_pos hcovers]
    rw [List.findSome?_cons, hat]
  · rw [Bool.and_eq_true, not_and]
    intro _
    show ¬ (!((index [x, y]).first 0x62)) = true
    rw [hfirst]
    decide

theorem written_order_counts : ¬ ∀ rules rules' : List RedirectRule, (∀ r ∈ rules, r.Compiled) → rules.Perm rules' →
    ∀ path query encodedSeparator,
      match_ (index rules') path query encodedSeparator = match_ (index rules) path query encodedSeparator := by
  intro h
  have hsame := h [movedBlog, movedShop] [movedShop, movedBlog]
    (fun r hr => by
      rcases List.mem_cons.mp hr with rfl | hr
      · exact movedBlog_compiled
      rw [List.mem_singleton.mp hr]
      exact movedShop_compiled)
    (List.Perm.swap _ _ _) (bytes "/blog") [] false
  rw [match_first _ _ ⟨rfl, rfl⟩ ⟨rfl, rfl⟩, match_first _ _ ⟨rfl, rfl⟩ ⟨rfl, rfl⟩] at hsame
  have hpath := congrArg (fun r : Option RedirectRule => r.map fun r => r.toPath) hsame
  cases hpath

/-! ## §6. A path that is written and read again. -/

theorem percentDecode_appendEscaped {c : UInt8} (hc : isControl c = false) (s : Bytes) :
    percentDecode (appendEscaped c ++ s) =
      (percentDecode s).map fun r => (c :: r.1, c = slash || c = backslash || r.2) := by
  obtain ⟨-, -, -, -, hhi, hlo⟩ := byte_kinds c
  have hbyte : c.toNat / 16 * 16 + c.toNat % 16 = c.toNat := by omega
  show percentDecode (percent :: hexDigit (c.toNat / 16) :: hexDigit (c.toNat % 16) :: s) = _
  rw [percentDecode_escape, hhi, hlo]
  dsimp only
  rw [hbyte, UInt8.ofNat_toNat, hc, if_neg Bool.false_ne_true]

/-- Its bytes come back; a backslash is the one separator that is escaped. -/
theorem percentDecode_appendPath {s : Bytes} (hs : ∀ c ∈ s, isControl c = false) :
    percentDecode (appendPath s) = some (s, decide (backslash ∈ s)) := by
  induction s with
  | nil => rfl
  | cons c s ih =>
    have hc := hs c List.mem_cons_self
    have ih := ih fun d hd => hs d (.tail _ hd)
    rw [appendPath_cons]
    split
    · next hplain =>
      have hne : c ≠ percent ∧ backslash ≠ c := by
        constructor
        · rintro rfl
          revert hplain
          decide
        · rintro rfl
          revert hplain
          decide
      rw [List.singleton_append, percentDecode_cons hne.1, hc, if_neg Bool.false_ne_true, ih]
      simp [hne.2]
    · next hplain =>
      rw [Bool.or_eq_true, not_or, decide_eq_true_eq] at hplain
      rw [percentDecode_appendEscaped hc, ih]
      simp [hplain.2, eq_comm]

theorem pathPart_appendPath (s : Bytes) : pathPart (appendPath s) = appendPath s := by
  refine List.takeWhile_eq_self_iff.mpr fun c hc => ?_
  exact appendPath_forall (P := fun c => inPath c = true) pathChar_inPath (by decide) appendEscaped_inPath s c hc

variable {segs : List Bytes} {last : Bytes}

theorem stays_of_ordinary (hsegs : ∀ s ∈ segs, ordinary s = true) (hlast : last = [] ∨ ordinary last = true)
    (depth : Nat) : Stays depth (segs ++ [last]) := by
  induction segs generalizing depth with
  | nil =>
    rcases hlast with rfl | ho
    · exact (stays_nothing (by decide) (by decide)).mpr (stays_nil depth)
    · exact (stays_ordinary ho).mpr (stays_nil _)
  | cons s segs ih =>
    exact (stays_ordinary (hsegs s List.mem_cons_self)).mpr
      (ih (fun t ht => hsegs t (.tail _ ht)) _)

theorem resolve_of_ordinary (hsegs : ∀ s ∈ segs, ordinary s = true) (st : List Bytes) :
    segs.foldl resolve st = st ++ segs := by
  induction segs generalizing st with
  | nil => exact (List.append_nil st).symm
  | cons s segs ih =>
    rw [List.foldl_cons, resolve_ordinary (hsegs s List.mem_cons_self),
      ih fun t ht => hsegs t (.tail _ ht), List.append_assoc]
    rfl

/-- What remains of segments that name something is the path they make. -/
theorem remaining_of_ordinary {target : Bytes} (htarget : segments target = segs ++ [last])
    (hsegs : ∀ s ∈ segs, ordinary s = true) (hlast : last = [] ∨ ordinary last = true) :
    remaining target = slash :: [slash].intercalate (segs ++ [last]) := by
  have hkept : kept (segs ++ [last]) = resolve segs last := by
    unfold kept
    rw [List.foldl_append, resolve_of_ordinary hsegs]
    rfl
  have hdir : directory (segs ++ [last]) = !ordinary last := by
    unfold directory
    rw [List.getLast?_concat]
    rfl
  unfold remaining
  dsimp only
  rw [htarget, hkept, hdir]
  rcases hlast with rfl | ho
  · rw [resolve_nothing (by decide) (by decide)]
    by_cases hne : segs = []
    · rw [hne]
      rfl
    have hcond : (decide (segs ≠ []) && !ordinary []) = true := by simp [hne, ordinary]
    rw [if_pos hcond, ← joined_eq hne, ← joined_eq (show segs ++ [[]] ≠ [] by simp), joined_append,
      joined_singleton]
  · rw [resolve_ordinary ho, ho, if_neg (by simp), List.append_nil]

/-- The bytes of a path that was read are those of the target, and slashes. -/
theorem mem_remaining {target : Bytes} {c : UInt8} (hc : c ∈ remaining target) :
    c = slash ∨ c ∈ unescape (pathPart target) := by
  have hmem : ∀ s ∈ segments target, c ∈ s → c = slash ∨ c ∈ unescape (pathPart target) := by
    intro s hs hcs
    have hne : segments target ≠ [] := List.ne_nil_of_mem hs
    have hj : c ∈ joined (segments target) := List.mem_flatMap.mpr ⟨s, hs, .tail _ hcs⟩
    rw [joined_eq hne, segments, List.intercalate_splitOn] at hj
    exact (List.mem_cons.mp hj).imp_right List.mem_of_mem_drop
  unfold remaining at hc
  dsimp only at hc
  by_cases hk : kept (segments target) = []
  · rw [hk] at hc
    exact .inl (by simpa [List.intercalate] using hc)
  rw [← joined_eq hk] at hc
  rcases List.mem_append.mp hc with hc | hc
  · obtain ⟨s, hs, hcs⟩ := List.mem_flatMap.mp hc
    rcases List.mem_cons.mp hcs with rfl | hcs
    · exact .inl rfl
    rcases mem_kept hs with hs | ⟨hs, -⟩
    · cases hs
    · exact hmem s hs hcs
  · split at hc
    · exact .inl (List.mem_singleton.mp hc)
    · cases hc

/-- **A path that was read is read again** from what is written of it. -/
theorem normalizeTarget_appendPath {target path : Bytes} {encoded : Bool}
    (h : normalizeTarget target = some (path, encoded)) :
    normalizeTarget (appendPath path) = some (path, decide (backslash ∈ path)) := by
  rw [normalizeTarget_eq_full] at h ⊢
  obtain ⟨hacc, hpath, -⟩ := (normalizeFull_eq target _).mp h
  obtain ⟨segs, last, hwritten, hsegs, hlast, hslash⟩ := remaining_clean target
  dsimp only at hpath
  rw [← hpath] at hwritten
  have hctl : ∀ c ∈ path, isControl c = false := by
    intro c hc
    rw [hpath] at hc
    rcases mem_remaining hc with rfl | hc
    · decide
    · exact hacc.clean c hc
  obtain ⟨hvalid, hclean, hdecoded, hsep⟩ := percentDecode_iff.mp (percentDecode_appendPath hctl)
  -- the segments are those that were kept
  have hsegments : segments (appendPath path) = segs ++ [last] := by
    rw [segments, pathPart_appendPath, ← hdecoded, hwritten, List.drop_one, List.tail_cons,
      List.splitOn_intercalate _ hslash (by simp)]
  have hremaining := remaining_of_ordinary hsegments hsegs hlast
  refine (normalizeFull_eq _ _).mpr ⟨⟨?_, ?_, ?_, ?_⟩, ?_, ?_⟩
  · rw [hwritten]
    rfl
  · rwa [pathPart_appendPath]
  · rwa [pathPart_appendPath]
  · rw [hsegments]
    exact stays_of_ordinary hsegs hlast 0
  · exact hwritten.trans hremaining.symm
  · rwa [pathPart_appendPath]

theorem normalizeTarget_appendPath_dots :
    normalizeTarget (appendPath (bytes "/b c")) = some (bytes "/b c", false) := by
  have h := @normalizeTarget_appendPath (bytes "/a/../b%20c?page=2") (bytes "/b c") false (by decide +kernel)
  exact h.trans (by decide)

end Agensio.Http.Redirect
