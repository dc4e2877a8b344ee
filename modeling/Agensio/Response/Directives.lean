/-
  Agensio.Response.Directives — what a Cache-Control value says.

  Model of `core/private_cache.hpp`: a value is cut into its directives at
  the commas that stand outside quotes, and three of them restrict a cache.
  `covers` compares the restrictions of two values; no-store holds all three.

  Main results:
    * `restrictions_private` — a value written after `private, ` is private;
    * `Restrictions.covers_mono` — more restrictions cover more, less needs less.
-/
import Agensio.Http1.Parser

namespace Agensio.Response

open Agensio.Http1 (iequals trim comma lower)

abbrev quote : UInt8 := 0x22
abbrev backslash : UInt8 := 0x5c
abbrev equalsSign : UInt8 := 0x3d

/-! ## §1. The directives of a value. -/

/-- The text up to the next comma outside quotes, and what follows that comma; `escaped` when the
    byte before was a backslash inside quotes. -/
def cut (quoted escaped : Bool) : Bytes → Bytes × Bytes
  | [] => ([], [])
  | c :: rest =>
    if !quoted && c = comma then ([], rest)
    else
      let r := if escaped then cut quoted false rest
        else if c = quote then cut (!quoted) false rest
        else cut quoted (c = backslash && quoted) rest
      (c :: r.1, r.2)

/-- The directives of at most `fuel` parts. -/
def directivesFrom : Nat → Bytes → List Bytes
  | 0, _ => []
  | _ + 1, [] => []
  | fuel + 1, c :: cs =>
    let d := trim (cut false false (c :: cs)).1
    (if d = [] then [] else [d]) ++ directivesFrom fuel (cut false false (c :: cs)).2

/-- `for_each_directive`: the directives, trimmed, the empty ones skipped. -/
def directives (value : Bytes) : List Bytes := directivesFrom value.length value

def directiveName (d : Bytes) : Bytes := d.takeWhile (· ≠ equalsSign)

/-- The text after the `=`, without quotes around it. -/
def directiveArg (d : Bytes) : Bytes :=
  let arg := d.drop ((directiveName d).length + 1)
  if 2 ≤ arg.length && arg.head? = some quote && arg.getLast? = some quote then arg.tail.dropLast
  else arg

/-! ## §2. Restrictions. -/

/-- `kNoStore`, `kPrivate`, `kNoCache`. -/
structure Restrictions where
  noStore : Bool := false
  priv : Bool := false
  noCache : Bool := false
  deriving DecidableEq

namespace Restrictions

def union (a b : Restrictions) : Restrictions :=
  ⟨a.noStore || b.noStore, a.priv || b.priv, a.noCache || b.noCache⟩

/-- Some bit is set. -/
def any (a : Restrictions) : Bool := a.noStore || a.priv || a.noCache

/-- `covers`: the rule's value holds what the application's says. -/
def covers (rule application : Restrictions) : Bool :=
  rule.noStore ||
    ((!application.noStore || rule.noStore) && (!application.priv || rule.priv) &&
      (!application.noCache || rule.noCache))

end Restrictions

/-- One directive of `restrictions`. -/
def restriction (qualified : Bool) (d : Bytes) : Restrictions :=
  if iequals (directiveName d) (bytes "no-store") then { noStore := true }
  else if d.contains equalsSign && !qualified then {}
  else if iequals (directiveName d) (bytes "private") then { priv := true }
  else if iequals (directiveName d) (bytes "no-cache") then { noCache := true }
  else {}

def unionOf (rs : List Restrictions) : Restrictions := rs.foldr Restrictions.union {}

/-- `restrictions`. -/
def restrictions (value : Bytes) (qualified : Bool) : Restrictions :=
  unionOf ((directives value).map (restriction qualified))

/-- `shared_only_field`. -/
def sharedOnlyField (name : Bytes) : Bool :=
  let suffix := bytes "-cache-control"
  (suffix.length < name.length && iequals (name.drop (name.length - suffix.length)) suffix) ||
    iequals name (bytes "surrogate-control") || iequals name (bytes "edge-control")

/-- A directive a protected answer keeps. -/
def keptDirective (d : Bytes) : Bool :=
  !([bytes "public", bytes "s-maxage", bytes "proxy-revalidate", bytes "private"].any
    fun w => iequals (directiveName d) w)

/-- `keep_directives`: the kept directives of a value, behind those kept already. -/
def keepDirectives (value kept : Bytes) : Bytes :=
  ((directives value).filter keptDirective).foldl
    (fun k d => if k = [] then d else k ++ bytes ", " ++ d) kept

/-- The number of an argument is above zero; what is not a number counts as one. -/
def aboveZero (arg : Bytes) : Bool := arg.any (· ≠ 0x30)

/-- `shared_lifetime`. -/
def sharedLifetime (value : Bytes) : Bool :=
  let ds := directives value
  let has (w : Bytes) := ds.any fun d => iequals (directiveName d) w
  let above (w : Bytes) := ds.any fun d => iequals (directiveName d) w && aboveZero (directiveArg d)
  !(restrictions value false).any &&
    (has (bytes "public") || above (bytes "stale-while-revalidate") ||
      above (bytes "stale-if-error") ||
      if has (bytes "s-maxage") then above (bytes "s-maxage") else above (bytes "max-age"))

/-! ## §3. Covering. -/

namespace Restrictions

variable {a b c : Restrictions}

theorem covers_iff : a.covers b = true ↔ a.noStore = true ∨
    ((b.noStore = true → a.noStore = true) ∧ (b.priv = true → a.priv = true) ∧
      (b.noCache = true → a.noCache = true)) := by
  simp only [covers, Bool.or_eq_true, Bool.and_eq_true, Bool.not_eq_true']
  constructor
  · rintro (h | ⟨⟨h₁, h₂⟩, h₃⟩)
    · exact .inl h
    · exact .inr ⟨fun h => h₁.resolve_left (by simp [h]), fun h => h₂.resolve_left (by simp [h]),
        fun h => h₃.resolve_left (by simp [h])⟩
  · rintro (h | ⟨h₁, h₂, h₃⟩)
    · exact .inl h
    · refine .inr ⟨⟨?_, ?_⟩, ?_⟩
      · cases hb : b.noStore with
        | false => exact .inl rfl
        | true => exact .inr (h₁ hb)
      · cases hb : b.priv with
        | false => exact .inl rfl
        | true => exact .inr (h₂ hb)
      · cases hb : b.noCache with
        | false => exact .inl rfl
        | true => exact .inr (h₃ hb)

theorem covers_refl (a : Restrictions) : a.covers a = true :=
  covers_iff.mpr (.inr ⟨id, id, id⟩)

/-- Nothing is covered by anything. -/
theorem covers_of_not_any (h : b.any = false) : a.covers b = true := by
  simp only [any, Bool.or_eq_false_iff] at h
  rw [covers_iff]
  refine .inr ⟨?_, ?_, ?_⟩ <;> simp [h.1.1, h.1.2, h.2]

/-- Every bit of `a` is a bit of `b`. -/
def Sub (a b : Restrictions) : Prop :=
  (a.noStore = true → b.noStore = true) ∧ (a.priv = true → b.priv = true) ∧
    (a.noCache = true → b.noCache = true)

theorem Sub.refl (a : Restrictions) : a.Sub a := ⟨id, id, id⟩

theorem Sub.trans (h₁ : a.Sub b) (h₂ : b.Sub c) : a.Sub c :=
  ⟨fun h => h₂.1 (h₁.1 h), fun h => h₂.2.1 (h₁.2.1 h), fun h => h₂.2.2 (h₁.2.2 h)⟩

theorem sub_union_left (a b : Restrictions) : a.Sub (a.union b) := by
  refine ⟨?_, ?_, ?_⟩ <;> intro h <;> simp [union, h]

theorem sub_union_right (a b : Restrictions) : b.Sub (a.union b) := by
  refine ⟨?_, ?_, ?_⟩ <;> intro h <;> simp [union, h]

theorem union_sub (h₁ : a.Sub c) (h₂ : b.Sub c) : (a.union b).Sub c := by
  simp only [Sub, union, Bool.or_eq_true]
  exact ⟨fun h => h.elim h₁.1 h₂.1, fun h => h.elim h₁.2.1 h₂.2.1, fun h => h.elim h₁.2.2 h₂.2.2⟩

/-- More restrictions cover more, and less needs less. -/
theorem covers_mono {a' b' : Restrictions} (h : a.covers b = true) (ha : a.Sub a') (hb : b'.Sub b) :
    a'.covers b' = true := by
  rw [covers_iff] at h ⊢
  rcases h with h | h
  · exact .inl (ha.1 h)
  exact .inr ⟨fun hb' => ha.1 (h.1 (hb.1 hb')), fun hb' => ha.2.1 (h.2.1 (hb.2.1 hb')),
    fun hb' => ha.2.2 (h.2.2 (hb.2.2 hb'))⟩

theorem any_of_sub (h : a.Sub b) (ha : a.any = true) : b.any = true := by
  simp only [any, Bool.or_eq_true] at ha ⊢
  rcases ha with (ha | ha) | ha
  · exact .inl (.inl (h.1 ha))
  · exact .inl (.inr (h.2.1 ha))
  · exact .inr (h.2.2 ha)

/-- A value without a restriction covers only what has none. -/
theorem not_any_of_covers (h : a.covers b = true) (ha : a.any = false) : b.any = false := by
  by_contra hb
  have hb' : b.any = true := by simpa using hb
  simp only [any, Bool.or_eq_false_iff] at ha
  rw [covers_iff] at h
  rcases h with h | ⟨h₁, h₂, h₃⟩
  · rw [ha.1.1] at h
    cases h
  simp only [any, Bool.or_eq_true] at hb'
  rcases hb' with (hb' | hb') | hb'
  · rw [ha.1.1] at h₁; cases h₁ hb'
  · rw [ha.1.2] at h₂; cases h₂ hb'
  · rw [ha.2] at h₃; cases h₃ hb'

end Restrictions

/-! ## §4. The restrictions of a value. -/

theorem sub_unionOf {rs : List Restrictions} {r : Restrictions} (h : r ∈ rs) : r.Sub (unionOf rs) := by
  induction rs with
  | nil => cases h
  | cons x rs ih =>
    rcases List.mem_cons.mp h with rfl | h
    · exact Restrictions.sub_union_left _ _
    · exact (ih h).trans (Restrictions.sub_union_right _ _)

theorem unionOf_sub {rs : List Restrictions} {r : Restrictions} (h : ∀ x ∈ rs, x.Sub r) :
    (unionOf rs).Sub r := by
  induction rs with
  | nil => exact ⟨nofun, nofun, nofun⟩
  | cons x rs ih =>
    exact Restrictions.union_sub (h x (.head _))
      (ih fun y hy => h y (.tail _ hy))

/-- A qualified directive counts only when asked to. -/
theorem restriction_mono (d : Bytes) : (restriction false d).Sub (restriction true d) := by
  unfold restriction
  split
  · exact Restrictions.Sub.refl _
  split
  · exact ⟨nofun, nofun, nofun⟩
  simp only [Bool.not_true, Bool.and_false, Bool.false_eq_true, if_false]
  exact Restrictions.Sub.refl _

theorem restrictions_mono (v : Bytes) : (restrictions v false).Sub (restrictions v true) := by
  refine unionOf_sub fun x hx => ?_
  obtain ⟨d, hd, rfl⟩ := List.mem_map.mp hx
  exact (restriction_mono d).trans (sub_unionOf (List.mem_map_of_mem hd))

/-- Plain text ends at its comma. -/
theorem cut_plain {s : Bytes} (h : s.all (fun c => c ≠ comma && c ≠ quote) = true) (rest : Bytes) :
    cut false false (s ++ comma :: rest) = (s, rest) := by
  induction s with
  | nil => rfl
  | cons c s ih =>
    rw [List.all_cons, Bool.and_eq_true, Bool.and_eq_true, decide_eq_true_eq, decide_eq_true_eq] at h
    obtain ⟨⟨hc, hq⟩, hs⟩ := h
    rw [List.cons_append]
    unfold cut
    simp [hc, hq, ih hs]

/-- **A value that begins with `private` forbids shared caches.** -/
theorem restrictions_private (rest : Bytes) :
    (restrictions (bytes "private, " ++ rest) false).priv = true := by
  have htext : bytes "private, " ++ rest = bytes "private" ++ comma :: (0x20 :: rest) := by
    rw [show bytes "private, " = bytes "private" ++ [comma, 0x20] by decide]
    simp
  have hmem : bytes "private" ∈ directives (bytes "private, " ++ rest) := by
    have hcut := cut_plain (s := bytes "private") (by decide) (0x20 :: rest)
    have hlen : (bytes "private" ++ comma :: (0x20 :: rest)).length = (rest.length + 8) + 1 := by
      rw [List.length_append, show (bytes "private").length = 7 by decide]
      simp only [List.length_cons]
      omega
    have hcons : ∃ c cs, bytes "private" ++ comma :: (0x20 :: rest) = c :: cs :=
      ⟨0x70, bytes "rivate" ++ comma :: (0x20 :: rest), by
        rw [show bytes "private" = 0x70 :: bytes "rivate" by decide]; rfl⟩
    unfold directives
    rw [htext, hlen]
    obtain ⟨c, cs, hc⟩ := hcons
    rw [hc] at hcut ⊢
    unfold directivesFrom
    rw [hcut]
    exact List.mem_append_left _ (List.mem_singleton.mpr (show bytes "private" = trim (bytes "private") by decide))
  exact (sub_unionOf (List.mem_map_of_mem hmem)).2.1 (by decide)

end Agensio.Response
