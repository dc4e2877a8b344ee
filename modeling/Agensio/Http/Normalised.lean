/-
  Agensio.Http.Normalised — what `normalize_target` accepts, and what it makes of it.

  The path part of a target, decoded once, is a list of segments.  The
  empty ones and `.` are nothing, `..` takes back the one before, and the
  others are kept.  `normalize_target` writes what is kept into one buffer
  with two cursors, and takes a target that needs no work as it is.

  Main results:
    * `normalizeTarget_normalises` — all of it, for every target.
-/
import Agensio.Http.Path
import Agensio.Lib.Splitting

namespace Agensio.Http

open Agensio.Lib

/-! ## §1. What a target means. -/

/-- Up to the first `?` or `#`. -/
def pathPart (target : Bytes) : Bytes := target.takeWhile fun c => c ≠ question && c ≠ fragmentMark

/-- Two hexadecimal digits, and the byte they spell. -/
def Spells (hi lo d : UInt8) : Prop := ∃ h l, hexVal hi = some h ∧ hexVal lo = some l ∧ d = UInt8.ofNat (h * 16 + l)

/-- Every `%` begins a valid escape. -/
def EscapesValid (p : Bytes) : Prop :=
  ∀ pre post, p = pre ++ percent :: post → ∃ hi lo rest d, post = hi :: lo :: rest ∧ Spells hi lo d

/-- The bytes behind the escapes. -/
def unescape : Bytes → Bytes
  | [] => []
  | [c] => [c]
  | [c, d] => [c, d]
  | c :: hi :: lo :: rest =>
    if c = percent then
      match hexVal hi, hexVal lo with
      | some h, some l => UInt8.ofNat (h * 16 + l) :: unescape rest
      | _, _ => c :: unescape (hi :: lo :: rest)
    else c :: unescape (hi :: lo :: rest)

/-- An escape spells a separator. -/
def SeparatorEscaped (p : Bytes) : Prop :=
  ∃ pre hi lo post d, p = pre ++ percent :: hi :: lo :: post ∧ Spells hi lo d ∧ (d = slash ∨ d = backslash)

/-- The segments of a target, decoded. -/
def segments (target : Bytes) : List Bytes := ((unescape (pathPart target)).drop 1).splitOn slash

/-- A segment that names something. -/
def ordinary (seg : Bytes) : Bool := seg ≠ [] && seg ≠ [dot] && seg ≠ [dot, dot]

/-- No prefix of these climbs above what is `depth` segments deep. -/
def Stays (depth : Nat) (segs : List Bytes) : Prop :=
  ∀ pre, pre <+: segs → pre.countP (· = [dot, dot]) ≤ depth + pre.countP ordinary

/-- A segment behind those that are kept. -/
def resolve (kept : List Bytes) (seg : Bytes) : List Bytes :=
  if ordinary seg then kept ++ [seg] else if seg = [dot, dot] then kept.dropLast else kept

/-- The segments that remain. -/
def kept (segs : List Bytes) : List Bytes := segs.foldl resolve []

/-- The last segment was empty, `.` or `..`. -/
def directory (segs : List Bytes) : Bool := segs.getLast?.any fun s => !ordinary s

structure Acceptable (target : Bytes) : Prop where
  rooted : target.head? = some slash
  escapes : EscapesValid (pathPart target)
  clean : ∀ c ∈ unescape (pathPart target), isControl c = false
  stays : Stays 0 (segments target)

/-- `/`, and what remains with a `/` between. -/
def remaining (target : Bytes) : Bytes :=
  let left := kept (segments target)
  slash :: [slash].intercalate left ++ if left ≠ [] && directory (segments target) then [slash] else []

/-- No empty, `.` or `..` segment is inside. -/
def Clean (path : Bytes) : Prop :=
  ∃ segs last, path = slash :: [slash].intercalate (segs ++ [last]) ∧ (∀ s ∈ segs, ordinary s = true) ∧
    (last = [] ∨ ordinary last = true) ∧ ∀ s ∈ segs ++ [last], slash ∉ s

/-- `normalize_target` without the shortcut. -/
def normalizeFull (target : Bytes) : Option (Bytes × Bool) :=
  if target.head? ≠ some slash then none
  else
    let path := (target.takeWhile (· ≠ question)).takeWhile (· ≠ fragmentMark)
    match percentDecode path with
    | none => none
    | some (out, encoded) =>
      match normalizeSegments ((out.drop 1).splitOn slash) [] false with
      | none => none
      | some (w, dir) => some (if w = [] || dir then w ++ [slash] else w, encoded)

/-- What a normalisation is to do. -/
structure Normalises (f : Bytes → Option (Bytes × Bool)) (target : Bytes) : Prop where
  accepts : (f target).isSome = true ↔ Acceptable target
  path : ∀ r, f target = some r → r.1 = remaining target
  encoded : ∀ r, f target = some r → (r.2 = true ↔ SeparatorEscaped (pathPart target))
  clean : ∀ r, f target = some r → Clean r.1

/-! ## §2. Decoding. -/

section Decoding

variable {c hi lo d : UInt8} {cs rest : Bytes}

theorem hexVal_percent : hexVal percent = none := by decide

theorem hexVal_ne_percent {h : Nat} (hh : hexVal c = some h) : c ≠ percent := by
  rintro rfl
  rw [hexVal_percent] at hh
  cases hh

theorem escapesValid_nil : EscapesValid [] := by
  intro pre post h
  simp at h

theorem escapesValid_cons (hc : c ≠ percent) : EscapesValid (c :: cs) ↔ EscapesValid cs := by
  constructor
  · intro h pre post heq
    exact h (c :: pre) post (by rw [heq]; rfl)
  · intro h pre post heq
    cases pre with
    | nil => exact absurd (List.cons.inj heq).1 hc
    | cons c' pre => exact h pre post (List.cons.inj heq).2

theorem escapesValid_escape : EscapesValid (percent :: hi :: lo :: rest) ↔ (∃ d, Spells hi lo d) ∧ EscapesValid rest := by
  constructor
  · intro h
    obtain ⟨hi', lo', rest', d, heq, hd⟩ := h [] (hi :: lo :: rest) rfl
    obtain ⟨rfl, htail⟩ := List.cons.inj heq
    obtain ⟨rfl, rfl⟩ := List.cons.inj htail
    refine ⟨⟨d, hd⟩, fun pre post heq => ?_⟩
    exact h (percent :: hi :: lo :: pre) post (by rw [heq]; rfl)
  · rintro ⟨⟨d, hd⟩, hrest⟩ pre post heq
    obtain ⟨h, l, hh, hl, -⟩ := hd
    match pre, heq with
    | [], heq =>
      obtain ⟨_, rfl⟩ := List.cons.inj heq
      exact ⟨hi, lo, rest, _, rfl, h, l, hh, hl, rfl⟩
    | [_], heq =>
      obtain ⟨_, heq⟩ := List.cons.inj heq
      exact absurd (List.cons.inj heq).1 (hexVal_ne_percent hh)
    | [_, _], heq =>
      obtain ⟨_, heq⟩ := List.cons.inj heq
      obtain ⟨_, heq⟩ := List.cons.inj heq
      exact absurd (List.cons.inj heq).1 (hexVal_ne_percent hl)
    | _ :: _ :: _ :: pre, heq =>
      obtain ⟨_, heq⟩ := List.cons.inj heq
      obtain ⟨_, heq⟩ := List.cons.inj heq
      exact hrest pre post (List.cons.inj heq).2

theorem unescape_cons (hc : c ≠ percent) : unescape (c :: cs) = c :: unescape cs := by
  match cs with
  | [] => rfl
  | [_] => rfl
  | _ :: _ :: _ =>
    conv_lhs => unfold unescape
    rw [if_neg hc]

theorem unescape_escape (h : Spells hi lo d) : unescape (percent :: hi :: lo :: rest) = d :: unescape rest := by
  obtain ⟨h, l, hh, hl, rfl⟩ := h
  conv_lhs => unfold unescape
  rw [if_pos rfl, hh, hl]

theorem separatorEscaped_cons (hc : c ≠ percent) : SeparatorEscaped (c :: cs) ↔ SeparatorEscaped cs := by
  constructor
  · rintro ⟨pre, hi, lo, post, d, heq, hd⟩
    cases pre with
    | nil => exact absurd (List.cons.inj heq).1 hc
    | cons c' pre => exact ⟨pre, hi, lo, post, d, (List.cons.inj heq).2, hd⟩
  · rintro ⟨pre, hi, lo, post, d, rfl, hd⟩
    exact ⟨c :: pre, hi, lo, post, d, rfl, hd⟩

theorem separatorEscaped_nil : ¬ SeparatorEscaped [] := by
  rintro ⟨pre, hi, lo, post, d, heq, -⟩
  simp at heq

theorem Spells.unique {e : UInt8} (h : Spells hi lo d) (h' : Spells hi lo e) : e = d := by
  obtain ⟨a, b, ha, hb, rfl⟩ := h
  obtain ⟨a', b', ha', hb', rfl⟩ := h'
  rw [ha] at ha'
  rw [hb] at hb'
  cases ha'
  cases hb'
  rfl

theorem separatorEscaped_escape (h : Spells hi lo d) :
    SeparatorEscaped (percent :: hi :: lo :: rest) ↔ (d = slash ∨ d = backslash) ∨ SeparatorEscaped rest := by
  constructor
  · rintro ⟨pre, hi', lo', post, e, heq, he, hsep⟩
    obtain ⟨a, b, ha, hb, -⟩ := id h
    match pre, heq with
    | [], heq =>
      obtain ⟨_, heq⟩ := List.cons.inj heq
      obtain ⟨rfl, htail⟩ := List.cons.inj heq
      obtain ⟨rfl, rfl⟩ := List.cons.inj htail
      rw [h.unique he] at hsep
      exact .inl hsep
    | [_], heq =>
      obtain ⟨_, heq⟩ := List.cons.inj heq
      exact absurd (List.cons.inj heq).1 (hexVal_ne_percent ha)
    | [_, _], heq =>
      obtain ⟨_, heq⟩ := List.cons.inj heq
      obtain ⟨_, heq⟩ := List.cons.inj heq
      exact absurd (List.cons.inj heq).1 (hexVal_ne_percent hb)
    | _ :: _ :: _ :: pre, heq =>
      obtain ⟨_, heq⟩ := List.cons.inj heq
      obtain ⟨_, heq⟩ := List.cons.inj heq
      exact .inr ⟨pre, hi', lo', post, e, (List.cons.inj heq).2, he, hsep⟩
  · rintro (hsep | ⟨pre, hi', lo', post, e, rfl, he, hsep⟩)
    · exact ⟨[], hi, lo, rest, d, rfl, h, hsep⟩
    · exact ⟨percent :: hi :: lo :: pre, hi', lo', post, e, rfl, he, hsep⟩

theorem escapesValid_short (h : cs.length < 2) : ¬ EscapesValid (percent :: cs) := by
  intro hv
  obtain ⟨hi, lo, rest, d, rfl, -⟩ := hv [] cs rfl
  simp only [List.length_cons] at h
  omega

theorem percentDecode_escape : percentDecode (percent :: hi :: lo :: rest) =
    match hexVal hi, hexVal lo with
    | some h, some l =>
      let d := UInt8.ofNat (h * 16 + l)
      if isControl d then none
      else (percentDecode rest).map fun r => (d :: r.1, d = slash || d = backslash || r.2)
    | _, _ => none := by
  conv_lhs => unfold percentDecode
  exact if_pos rfl

theorem percentDecode_cons (hc : c ≠ percent) : percentDecode (c :: cs) =
    if isControl c then none else (percentDecode cs).map fun r => (c :: r.1, r.2) := by
  conv_lhs => unfold percentDecode
  rw [if_neg hc]

/-- A byte in front of what is decoded. -/
theorem decoded_cons {o : Option (Bytes × Bool)} {P : Bytes → Bool → Prop} {f : Bool → Bool}
    (hP : ∀ {out enc}, o = some (out, enc) ↔ P out enc) {out : Bytes} {enc : Bool} :
    (if isControl d then none else o.map fun r => (d :: r.1, f r.2)) = some (out, enc) ↔
      isControl d = false ∧ ∃ out' enc', P out' enc' ∧ out = d :: out' ∧ enc = f enc' := by
  cases hctl : isControl d with
  | true => exact ⟨nofun, fun h => nomatch h.1⟩
  | false =>
    rw [if_neg Bool.false_ne_true, Option.map_eq_some_iff]
    constructor
    · rintro ⟨⟨out', enc'⟩, ho, heq⟩
      cases heq
      exact ⟨rfl, out', enc', hP.mp ho, rfl, rfl⟩
    · rintro ⟨_, out', enc', ho, rfl, rfl⟩
      exact ⟨(out', enc'), hP.mpr ho, rfl⟩

/-- **One pass of decoding.** -/
theorem percentDecode_iff : ∀ {p out : Bytes} {encoded : Bool}, percentDecode p = some (out, encoded) ↔
    EscapesValid p ∧ (∀ c ∈ unescape p, isControl c = false) ∧ out = unescape p ∧
      (encoded = true ↔ SeparatorEscaped p)
  | [], out, encoded => by
    constructor
    · intro h
      cases h
      exact ⟨escapesValid_nil, nofun, rfl, nofun, fun h => absurd h separatorEscaped_nil⟩
    · rintro ⟨_, _, rfl, henc⟩
      have : encoded = false := by
        rw [← Bool.not_eq_true, henc]
        exact separatorEscaped_nil
      rw [this]
      rfl
  | c :: cs, out, encoded => by
    by_cases hc : c = percent
    · subst hc
      match cs with
      | [] => exact ⟨nofun, fun h => absurd h.1 (escapesValid_short (by decide))⟩
      | [_] => exact ⟨nofun, fun h => absurd h.1 (escapesValid_short (by simp))⟩
      | hi :: lo :: rest =>
        rw [percentDecode_escape]
        split
        · next h l hh hl =>
          have hd : Spells hi lo (UInt8.ofNat (h * 16 + l)) := ⟨h, l, hh, hl, rfl⟩
          rw [escapesValid_escape, unescape_escape hd, separatorEscaped_escape hd]
          refine (decoded_cons percentDecode_iff).trans ?_
          constructor
          · rintro ⟨hctl, out', enc', ⟨hv, hclean, rfl, henc⟩, rfl, rfl⟩
            refine ⟨⟨⟨_, hd⟩, hv⟩, List.forall_mem_cons.mpr ⟨hctl, hclean⟩, rfl, ?_⟩
            simp only [Bool.or_eq_true, decide_eq_true_eq, henc]
          · rintro ⟨⟨_, hv⟩, hclean, rfl, henc⟩
            obtain ⟨hctl, hclean⟩ := List.forall_mem_cons.mp hclean
            obtain ⟨b, hb⟩ : ∃ b : Bool, b = true ↔ SeparatorEscaped rest := by
              classical exact ⟨decide (SeparatorEscaped rest), decide_eq_true_iff⟩
            refine ⟨hctl, _, b, ⟨hv, hclean, rfl, hb⟩, rfl, Bool.eq_iff_iff.mpr ?_⟩
            rw [henc, Bool.or_eq_true, Bool.or_eq_true, decide_eq_true_eq, decide_eq_true_eq, hb]
        · next hnone =>
          refine ⟨nofun, fun h => ?_⟩
          obtain ⟨⟨_, a, b, ha, hb, _⟩, _⟩ := escapesValid_escape.mp h.1
          exact absurd hb (hnone a b ha)
    · rw [escapesValid_cons hc, unescape_cons hc, separatorEscaped_cons hc, percentDecode_cons hc]
      refine (decoded_cons (f := id) percentDecode_iff).trans ?_
      constructor
      · rintro ⟨hctl, out', enc', ⟨hv, hclean, rfl, henc⟩, rfl, rfl⟩
        exact ⟨hv, List.forall_mem_cons.mpr ⟨hctl, hclean⟩, rfl, henc⟩
      · rintro ⟨hv, hclean, rfl, henc⟩
        obtain ⟨hctl, hclean⟩ := List.forall_mem_cons.mp hclean
        exact ⟨hctl, _, _, ⟨hv, hclean, rfl, henc⟩, rfl, rfl⟩

end Decoding

/-! ## §3. The segments. -/

section Segments

variable {segs st : List Bytes} {seg : Bytes}

/-- What is written of these segments. -/
def joined (st : List Bytes) : Bytes := st.flatMap fun s => slash :: s

theorem joined_append (st st' : List Bytes) : joined (st ++ st') = joined st ++ joined st' := List.flatMap_append

theorem joined_singleton (seg : Bytes) : joined [seg] = slash :: seg := List.append_nil _

theorem joined_eq_nil : joined st = [] ↔ st = [] := by
  cases st with
  | nil => exact ⟨fun _ => rfl, fun _ => rfl⟩
  | cons s st => exact ⟨nofun, nofun⟩

/-- The segment at the end is taken back with its slash. -/
theorem dropSegment_joined (hseg : slash ∉ seg) : dropSegment (joined (st ++ [seg])) = joined st := by
  rw [joined_append, joined_singleton]
  unfold dropSegment
  have hall : ∀ c ∈ seg, decide (c ≠ slash) = true := fun c hc => by
    simp only [ne_eq, decide_eq_true_eq]
    rintro rfl
    exact hseg hc
  have hdrop : (joined st ++ slash :: seg).rdropWhile (fun c => c ≠ slash) = joined st ++ [slash] := by
    unfold List.rdropWhile
    rw [List.reverse_append, List.reverse_cons, List.append_assoc,
      List.dropWhile_append_of_pos (fun c hc => hall c (List.mem_reverse.mp hc))]
    simp
  rw [hdrop, List.dropLast_concat]

theorem stays_nil (depth : Nat) : Stays depth [] := by
  intro pre hpre
  rw [List.prefix_nil.mp hpre]
  exact Nat.zero_le _

variable {depth : Nat}

/-- The prefixes behind a first segment. -/
theorem stays_cons : Stays depth (seg :: segs) ↔ ∀ pre, pre <+: segs →
      (seg :: pre).countP (· = [dot, dot]) ≤ depth + (seg :: pre).countP ordinary := by
  constructor
  · exact fun h pre hpre => h (seg :: pre) (List.cons_prefix_cons.mpr ⟨rfl, hpre⟩)
  · intro h pre hpre
    cases pre with
    | nil => exact Nat.zero_le _
    | cons s pre =>
      obtain ⟨rfl, htail⟩ := List.cons_prefix_cons.mp hpre
      exact h pre htail

theorem ordinary_ne (ho : ordinary seg = true) : seg ≠ [] ∧ seg ≠ [dot] ∧ seg ≠ [dot, dot] := by
  unfold ordinary at ho
  simp only [Bool.and_eq_true, decide_eq_true_eq] at ho
  exact ⟨ho.1.1, ho.1.2, ho.2⟩

theorem stays_ordinary (ho : ordinary seg = true) : Stays depth (seg :: segs) ↔ Stays (depth + 1) segs := by
  rw [stays_cons]
  refine forall₂_congr fun pre _ => ?_
  rw [List.countP_cons_of_neg (by simpa using (ordinary_ne ho).2.2), List.countP_cons_of_pos ho]
  constructor <;> intro h <;> omega

theorem stays_nothing (ho : ordinary seg = false) (hdd : seg ≠ [dot, dot]) :
    Stays depth (seg :: segs) ↔ Stays depth segs := by
  rw [stays_cons]
  refine forall₂_congr fun pre _ => ?_
  rw [List.countP_cons_of_neg (by simpa using hdd), List.countP_cons_of_neg (by rw [ho]; exact Bool.false_ne_true)]

theorem stays_up : Stays depth ([dot, dot] :: segs) ↔ 0 < depth ∧ Stays (depth - 1) segs := by
  have hcount : ∀ pre, ([dot, dot] :: pre).countP (· = [dot, dot]) = pre.countP (· = [dot, dot]) + 1 ∧
      ([dot, dot] :: pre).countP ordinary = pre.countP ordinary := fun pre =>
    ⟨List.countP_cons_of_pos (by simp), List.countP_cons_of_neg (by decide)⟩
  rw [stays_cons]
  constructor
  · intro h
    refine ⟨?_, fun pre hpre => ?_⟩
    · have := h [] (List.nil_prefix)
      rw [(hcount []).1, (hcount []).2] at this
      simp only [List.countP_nil] at this
      omega
    · have := h pre hpre
      rw [(hcount pre).1, (hcount pre).2] at this
      omega
  · rintro ⟨hpos, h⟩ pre hpre
    have := h pre hpre
    rw [(hcount pre).1, (hcount pre).2]
    omega

theorem resolve_ordinary (ho : ordinary seg = true) : resolve st seg = st ++ [seg] := if_pos ho

theorem resolve_up : resolve st [dot, dot] = st.dropLast := rfl

theorem resolve_nothing (ho : ordinary seg = false) (hdd : seg ≠ [dot, dot]) : resolve st seg = st := by
  unfold resolve
  rw [ho, if_neg Bool.false_ne_true, if_neg hdd]

/-- Whether a slash is to follow, behind these segments. -/
def directoryFrom (dir : Bool) (segs : List Bytes) : Bool := (segs.getLast?.map fun s => !ordinary s).getD dir

theorem directoryFrom_cons (dir : Bool) : directoryFrom dir (seg :: segs) = directoryFrom (!ordinary seg) segs := by
  cases segs with
  | nil => rfl
  | cons s segs =>
    unfold directoryFrom
    rw [List.getLast?_cons_cons]
    cases hl : (s :: segs).getLast? with
    | none => simp at hl
    | some l => rfl

/-- **The buffer is the list of the kept segments.** -/
theorem normalizeSegments_joined : ∀ (segs : List Bytes) {st : List Bytes} {dir : Bool} {r : Bytes × Bool},
    (∀ s ∈ st, slash ∉ s) → (∀ s ∈ segs, slash ∉ s) → (normalizeSegments segs (joined st) dir = some r ↔
      Stays st.length segs ∧ r = (joined (segs.foldl resolve st), directoryFrom dir segs))
  | [], st, dir, r, _, _ => by
    constructor
    · intro h
      exact ⟨stays_nil _, (Option.some.inj h).symm⟩
    · rintro ⟨_, rfl⟩
      rfl
  | seg :: segs, st, dir, r, hst, hsegs => by
    have htail : ∀ s ∈ segs, slash ∉ s := fun s hs => hsegs s (.tail _ hs)
    have hseg : slash ∉ seg := hsegs seg List.mem_cons_self
    unfold normalizeSegments
    rw [List.foldl_cons, directoryFrom_cons]
    cases ho : ordinary seg with
    | true =>
      obtain ⟨hne, hdot, hdd⟩ := ordinary_ne ho
      have hmem : ∀ s ∈ st ++ [seg], slash ∉ s := fun s hs => by
        rcases List.mem_append.mp hs with hs | hs
        · exact hst s hs
        rw [List.mem_singleton.mp hs]
        exact hseg
      rw [if_neg (by simp [hne, hdot]), if_neg hdd, stays_ordinary ho, resolve_ordinary ho, ← joined_singleton,
        ← joined_append, normalizeSegments_joined segs hmem htail, List.length_append]
      rfl
    | false =>
      by_cases hdd : seg = [dot, dot]
      · subst hdd
        rw [if_neg (by decide), if_pos rfl, stays_up, resolve_up]
        rcases List.eq_nil_or_concat st with rfl | ⟨st, last, rfl⟩
        · rw [if_pos (joined_eq_nil.mpr rfl)]
          exact ⟨nofun, fun h => absurd h.1.1 (Nat.lt_irrefl 0)⟩
        rw [List.concat_eq_append] at hst ⊢
        have hfront : ∀ s ∈ st, slash ∉ s := fun s hs => hst s (List.mem_append_left _ hs)
        have hlast : slash ∉ last := hst last (List.mem_append_right _ List.mem_cons_self)
        rw [if_neg (by rw [joined_eq_nil]; simp), dropSegment_joined hlast, List.dropLast_concat,
          normalizeSegments_joined segs hfront htail]
        simp
      · have hnothing : seg = [] ∨ seg = [dot] := by
          by_contra hne
          rw [not_or] at hne
          rw [← Bool.not_eq_true] at ho
          exact ho (by simp [ordinary, hne.1, hne.2, hdd])
        rw [if_pos (by simpa using hnothing), stays_nothing ho hdd, resolve_nothing ho hdd,
          normalizeSegments_joined segs hst htail]
        rfl

theorem joined_eq (hne : st ≠ []) : joined st = slash :: [slash].intercalate st := by
  induction st with
  | nil => exact absurd rfl hne
  | cons s st ih =>
    cases st with
    | nil =>
      rw [joined_singleton, List.intercalate_singleton]
    | cons s' st =>
      rw [List.intercalate_cons_cons, show s :: s' :: st = [s] ++ (s' :: st) from rfl, joined_append, joined_singleton,
        ih (List.cons_ne_nil _ _)]
      simp

theorem directoryFrom_false (segs : List Bytes) : directoryFrom false segs = directory segs := by
  unfold directoryFrom directory
  cases segs.getLast? <;> rfl

/-- What is kept are segments that name something. -/
theorem mem_kept : ∀ {segs st : List Bytes} {s : Bytes}, s ∈ segs.foldl resolve st →
    s ∈ st ∨ (s ∈ segs ∧ ordinary s = true)
  | [], _, _, h => .inl h
  | seg :: segs, st, s, h => by
    rcases @mem_kept segs _ _ h with hs | ⟨hs, ho⟩
    · unfold resolve at hs
      split at hs
      · next ho =>
        rcases List.mem_append.mp hs with hs | hs
        · exact .inl hs
        rw [List.mem_singleton.mp hs]
        exact .inr ⟨.head _, ho⟩
      · split at hs
        · exact .inl (List.dropLast_subset _ hs)
        · exact .inl hs
    · exact .inr ⟨.tail _ hs, ho⟩

end Segments

/-! ## §4. The whole. -/

section Whole

variable {target : Bytes}

theorem takeWhile_pathPart (target : Bytes) :
    (target.takeWhile (· ≠ question)).takeWhile (· ≠ fragmentMark) = pathPart target := by
  unfold pathPart
  induction target with
  | nil => rfl
  | cons c cs ih =>
    by_cases hq : c = question
    · subst hq
      rfl
    by_cases hf : c = fragmentMark
    · subst hf
      rfl
    simp [hq, hf]
    simpa using ih

/-- What is written out. -/
theorem written_eq (segs : List Bytes) :
    (if joined (kept segs) = [] || directory segs then joined (kept segs) ++ [slash] else joined (kept segs)) =
      slash :: [slash].intercalate (kept segs) ++ if kept segs ≠ [] && directory segs then [slash] else [] := by
  by_cases hk : kept segs = []
  · rw [hk]
    rfl
  rw [joined_eq hk]
  cases hdir : directory segs with
  | true => simp [hk]
  | false => simp [hk]

theorem not_mem_segments (target : Bytes) : ∀ s ∈ segments target, slash ∉ s := fun _ hs => not_mem_of_mem_splitOn hs

/-- No empty, `.` or `..` segment is left inside. -/
theorem remaining_clean (target : Bytes) : Clean (remaining target) := by
  have hkept : ∀ s ∈ kept (segments target), slash ∉ s ∧ ordinary s = true := fun s hs => by
    rcases mem_kept hs with hs | ⟨hs, ho⟩
    · cases hs
    · exact ⟨not_mem_segments target s hs, ho⟩
  unfold remaining
  dsimp only
  by_cases hk : kept (segments target) = []
  · rw [hk]
    exact ⟨[], [], rfl, nofun, .inl rfl, by simp⟩
  cases hdir : directory (segments target) with
  | true =>
    refine ⟨kept (segments target), [], ?_, fun s hs => (hkept s hs).2, .inl rfl, fun s hs => ?_⟩
    · rw [← joined_eq hk, ← joined_eq (by simp), joined_append, joined_singleton]
      simp [hk]
    · rcases List.mem_append.mp hs with hs | hs
      · exact (hkept s hs).1
      rw [List.mem_singleton.mp hs]
      exact List.not_mem_nil
  | false =>
    rcases List.eq_nil_or_concat (kept (segments target)) with hnil | ⟨front, last, hcat⟩
    · exact absurd hnil hk
    rw [List.concat_eq_append] at hcat
    rw [hcat] at hkept ⊢
    refine ⟨front, last, ?_, fun s hs => (hkept s (List.mem_append_left _ hs)).2,
      .inr (hkept last (List.mem_append_right _ List.mem_cons_self)).2, fun s hs => (hkept s hs).1⟩
    simp

/-- **The full path** does what a normalisation is to do. -/
theorem normalizeFull_eq (target : Bytes) : ∀ r, normalizeFull target = some r ↔
    Acceptable target ∧ r.1 = remaining target ∧ (r.2 = true ↔ SeparatorEscaped (pathPart target)) := by
  rintro ⟨out, encoded⟩
  unfold normalizeFull
  by_cases hroot : target.head? = some slash
  · rw [if_neg (not_not.mpr hroot)]
    dsimp only
    rw [takeWhile_pathPart]
    constructor
    · intro h
      split at h
      · cases h
      next d enc hdec =>
      obtain ⟨hv, hclean, rfl, henc⟩ := percentDecode_iff.mp hdec
      split at h
      · cases h
      next w dir hsegs =>
      obtain ⟨hstays, heq⟩ := (@normalizeSegments_joined (segments target) [] _ (w, dir) nofun
        (not_mem_segments target)).mp hsegs
      cases heq
      cases h
      refine ⟨⟨hroot, hv, hclean, hstays⟩, ?_, henc⟩
      rw [directoryFrom_false]
      exact written_eq _
    · rintro ⟨⟨_, hv, hclean, hstays⟩, rfl, henc⟩
      rw [percentDecode_iff.mpr ⟨hv, hclean, rfl, henc⟩]
      dsimp only
      have hsegs := (@normalizeSegments_joined (segments target) [] false _ nofun
        (not_mem_segments target)).mpr ⟨hstays, rfl⟩
      rw [show normalizeSegments (((unescape (pathPart target)).drop 1).splitOn slash) [] false = _ from hsegs]
      rw [directoryFrom_false]
      exact congrArg some (Prod.ext (written_eq _) rfl)
  · rw [if_pos hroot]
    exact ⟨nofun, fun h => absurd h.1.rooted hroot⟩

/-- The segments of a path that needs no work: none of them begins with a dot, and all but the
    last are there. -/
def PlainSegments : List Bytes → Prop
  | [] => True
  | [last] => last.head? ≠ some dot
  | seg :: rest => seg ≠ [] ∧ seg.head? ≠ some dot ∧ PlainSegments rest

theorem plainSegments_cons {seg s : Bytes} {rest : List Bytes} : PlainSegments (seg :: s :: rest) ↔
    seg ≠ [] ∧ seg.head? ≠ some dot ∧ PlainSegments (s :: rest) := .rfl

theorem ordinary_of_head {seg : Bytes} (hne : seg ≠ []) (hdot : seg.head? ≠ some dot) : ordinary seg = true := by
  unfold ordinary
  simp only [Bool.and_eq_true, decide_eq_true_eq]
  refine ⟨⟨hne, ?_⟩, ?_⟩ <;> rintro rfl <;> exact hdot rfl

/-- Nothing is taken out of such segments. -/
theorem normalizeSegments_plain : ∀ {segs : List Bytes}, segs ≠ [] → PlainSegments segs → ∀ w dir, ∃ w' dir',
    normalizeSegments segs w dir = some (w', dir') ∧
      (if w' = [] || dir' then w' ++ [slash] else w') = w ++ slash :: [slash].intercalate segs
  | [], hne, _ => absurd rfl hne
  | [last], _, hp => by
    intro w dir
    by_cases hl : last = []
    · subst hl
      exact ⟨w, true, rfl, by simp⟩
    have ho := ordinary_of_head hl hp
    obtain ⟨_, hdot, hdd⟩ := ordinary_ne ho
    refine ⟨w ++ slash :: last, false, ?_, by simp⟩
    unfold normalizeSegments
    rw [if_neg (by simp [hl, hdot]), if_neg hdd]
    rfl
  | seg :: s :: rest, _, hp => by
    intro w dir
    obtain ⟨hne, hhead, hrest⟩ := plainSegments_cons.mp hp
    obtain ⟨_, hdot, hdd⟩ := ordinary_ne (ordinary_of_head hne hhead)
    obtain ⟨w', dir', hw, heq⟩ := normalizeSegments_plain (List.cons_ne_nil s rest) hrest (w ++ slash :: seg) false
    refine ⟨w', dir', ?_, ?_⟩
    · unfold normalizeSegments
      rw [if_neg (by simp [hne, hdot]), if_neg hdd]
      exact hw
    · rw [heq, List.intercalate_cons_cons]
      simp

/-- What the shortcut sees: there are no escapes, and no `//` or `/.`. -/
theorem plainPath_some : ∀ {target : Bytes} {n : Nat}, plainPath target = some n →
    target.take n = pathPart target ∧ (∀ c ∈ pathPart target, c ≠ percent ∧ isControl c = false) ∧
      ∀ pre post, pathPart target = pre ++ slash :: post → post.head? ≠ some slash ∧ post.head? ≠ some dot
  | [], n, h => by
    refine ⟨by simp [pathPart], nofun, fun pre post heq => ?_⟩
    simp [pathPart] at heq
  | c :: cs, n, h => by
    unfold plainPath at h
    split at h
    · next hend =>
      cases h
      have hnil : pathPart (c :: cs) = [] := by
        unfold pathPart
        rw [List.takeWhile_cons_of_neg]
        simp only [Bool.or_eq_true, decide_eq_true_eq] at hend
        simp only [ne_eq, Bool.and_eq_true, decide_eq_true_eq]
        tauto
      rw [hnil]
      exact ⟨rfl, nofun, fun pre post heq => absurd heq (by simp)⟩
    · next hend =>
      have hcons : pathPart (c :: cs) = c :: pathPart cs := by
        unfold pathPart
        rw [List.takeWhile_cons_of_pos]
        simp only [Bool.or_eq_true, decide_eq_true_eq, not_or] at hend
        simpa using hend
      split at h
      · cases h
      next hclean =>
      split at h
      · cases h
      next hnext =>
      obtain ⟨m, hm, rfl⟩ := Option.map_eq_some_iff.mp h
      obtain ⟨htake, hbytes, hslash⟩ := plainPath_some hm
      rw [hcons]
      refine ⟨by rw [List.take_succ_cons, htake], List.forall_mem_cons.mpr ⟨?_, hbytes⟩, ?_⟩
      · simpa using hclean
      · intro pre post heq
        cases pre with
        | nil =>
          obtain ⟨rfl, rfl⟩ := List.cons.inj heq
          -- the path goes on as the target does, or ends
          have hhead : ∀ b, b ≠ question → b ≠ fragmentMark → (pathPart cs).head? = some b → cs.head? = some b := by
            intro b _ _ hb
            cases cs with
            | nil => cases hb
            | cons d ds =>
              unfold pathPart at hb
              rw [List.takeWhile_cons] at hb
              split at hb
              · exact hb
              · cases hb
          simp only [Bool.and_eq_true, decide_eq_true_eq, Bool.or_eq_true, not_and, not_or] at hnext
          have := hnext trivial
          exact ⟨fun hb => this.1 (hhead _ (by decide) (by decide) hb),
            fun hb => this.2 (hhead _ (by decide) (by decide) hb)⟩
        | cons c' pre => exact hslash pre post (List.cons.inj heq).2

/-- The segments of such a path. -/
theorem plainSegments_of : ∀ {segs : List Bytes}, segs ≠ [] →
    (∀ pre post, slash :: [slash].intercalate segs = pre ++ slash :: post →
      post.head? ≠ some slash ∧ post.head? ≠ some dot) → PlainSegments segs
  | [], hne, _ => absurd rfl hne
  | [last], _, h => by
    have := (h [] _ rfl).2
    rwa [List.intercalate_singleton] at this
  | seg :: s :: rest, _, h => by
    rw [List.intercalate_cons_cons] at h
    have hfirst := h [] _ rfl
    refine ⟨?_, ?_, plainSegments_of (List.cons_ne_nil s rest) fun pre post heq => ?_⟩
    · rintro rfl
      exact hfirst.1 rfl
    · intro hdot
      cases seg with
      | nil => cases hdot
      | cons d seg => exact hfirst.2 hdot
    · refine h (slash :: seg ++ pre) post ?_
      simp only [List.cons_append, List.nil_append, List.append_assoc, ← heq]

theorem unescape_plain : ∀ {p : Bytes}, (∀ c ∈ p, c ≠ percent) → unescape p = p
  | [], _ => rfl
  | c :: cs, h => by
    obtain ⟨hc, hcs⟩ := List.forall_mem_cons.mp h
    rw [unescape_cons hc, unescape_plain hcs]

/-- **The shortcut gives what the full path gives.** -/
theorem normalizeFull_plain {n : Nat} (hroot : target.head? = some slash) (h : plainPath target = some n) :
    normalizeFull target = some (target.take n, false) := by
  obtain ⟨htake, hbytes, hslash⟩ := plainPath_some h
  have hun := unescape_plain fun c hc => (hbytes c hc).1
  have hnone : ∀ {pre post : Bytes}, pathPart target ≠ pre ++ percent :: post := by
    intro pre post heq
    exact (hbytes percent (by rw [heq]; simp)).1 rfl
  have hdec : percentDecode (pathPart target) = some (pathPart target, false) := by
    refine percentDecode_iff.mpr ⟨fun pre post heq => absurd heq hnone, fun c hc => ?_, hun.symm, ?_⟩
    · rw [hun] at hc
      exact (hbytes c hc).2
    · refine ⟨nofun, ?_⟩
      rintro ⟨pre, hi, lo, post, d, heq, _⟩
      exact absurd heq hnone
  obtain ⟨rest, hrest⟩ : ∃ rest, pathPart target = slash :: rest := by
    cases target with
    | nil => cases hroot
    | cons c cs =>
      cases hroot
      exact ⟨_, List.takeWhile_cons_of_pos (by decide)⟩
  have hinter : [slash].intercalate (rest.splitOn slash) = rest := List.intercalate_splitOn slash
  have hplain : PlainSegments (rest.splitOn slash) := by
    refine plainSegments_of (List.splitOn_ne_nil _ _) fun pre post heq => hslash pre post ?_
    rw [hrest, ← heq, hinter]
  obtain ⟨w, dir, hsegs, hw⟩ := normalizeSegments_plain (List.splitOn_ne_nil _ _) hplain [] false
  unfold normalizeFull
  rw [if_neg (not_not.mpr hroot)]
  dsimp only
  rw [takeWhile_pathPart, hdec]
  dsimp only
  rw [hrest, List.drop_succ_cons, List.drop_zero, hsegs]
  dsimp only
  rw [hw, hinter, htake, hrest]
  rfl

/-- The two ways through `normalize_target` agree. -/
theorem normalizeTarget_eq_full (target : Bytes) : normalizeTarget target = normalizeFull target := by
  unfold normalizeTarget
  by_cases hroot : target.head? = some slash
  · rw [if_neg (not_not.mpr hroot)]
    cases hplain : plainPath target with
    | some n => exact (normalizeFull_plain hroot hplain).symm
    | none =>
      unfold normalizeFull
      exact (if_neg (not_not.mpr hroot)).symm
  · unfold normalizeFull
    rw [if_pos hroot, if_pos hroot]

theorem normalizeTarget_clean {r : Bytes × Bool} (h : normalizeTarget target = some r) : Clean r.1 := by
  rw [normalizeTarget_eq_full] at h
  rw [((normalizeFull_eq target r).mp h).2.1]
  exact remaining_clean target

/-- **One decode, and dot-segment removal**, by the shortcut or by the full path, for every target. -/
theorem normalizeTarget_normalises (target : Bytes) :
    Normalises normalizeTarget target ∧ normalizeTarget target = normalizeFull target := by
  refine ⟨?_, normalizeTarget_eq_full target⟩
  have hspec := normalizeFull_eq target
  rw [← normalizeTarget_eq_full] at hspec
  refine ⟨⟨fun h => ?_, fun ha => ?_⟩, fun r hr => ((hspec r).mp hr).2.1, fun r hr => ((hspec r).mp hr).2.2,
    fun r hr => normalizeTarget_clean hr⟩
  · obtain ⟨r, hr⟩ := Option.isSome_iff_exists.mp h
    exact ((hspec r).mp hr).1
  · classical
    rw [(hspec (remaining target, decide (SeparatorEscaped (pathPart target)))).mpr ⟨ha, rfl, decide_eq_true_iff⟩]
    rfl

end Whole

end Agensio.Http
