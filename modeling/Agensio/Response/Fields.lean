/-
  Agensio.Response.Fields — the rules applied to an application's answer.

  Model of `core/response_fields.hpp` as `apply_upstream_result`
  (`handlers/upstream_common.cpp`) uses it: the answer's cache fields are
  read first (`note_cache`), then it is settled which cache decisions give
  way, then each field is kept or dropped and the rules' own lines follow.
  Behind a password the guard decides the cache fields instead.

  A mask is the set of its bits; the loader admits no more names than a mask
  has bits (`names.size() > 64`).

  Main results:
    * `seenOf_stands` — which decisions give way;
    * `keptFields_eq`, `addedLines_eq` — what is kept and what is added, as a function
      of the decisions and the answer.
-/
import Agensio.Response.Resolved

namespace Agensio.Response

open Agensio.Codec (Field)
open Agensio.Http1 (iequals lower)

/-! ## §1. The set of a place. -/

abbrev cacheControlName : Bytes := bytes "cache-control"
abbrev expiresName : Bytes := bytes "expires"

/-- A resolved set: one decision for a name. -/
structure HeaderSet where
  fields : List FieldDecision
  distinct : fields.Pairwise fun a b => a.named b.name = false

namespace HeaderSet

variable (hs : HeaderSet)

/-- A decision on a cache field, Expires or with a lifetime. -/
def cacheWatch : Bool := hs.fields.any fun d => d.cacheField || d.expires || d.lifetime

/-- `find`: the decision for a name. -/
def find (name : Bytes) : Option Nat := hs.fields.findIdx? (·.named name)

end HeaderSet

/-! ## §2. The upstream loop. -/

/-- What the loop knows of an application's answer. -/
structure Upstream where
  present : Nat → Bool := fun _ => false
  carried : Nat → Bool := fun _ => false
  cacheControl : Restrictions := {}
  cdn : Restrictions := {}
  hasCacheControl : Bool := false
  personal : Bool := false
  stands : Nat → Bool := fun _ => false
  cacheControlKept : Bool := false

/-- The mask with a bit set. -/
def setBit (mask : Nat → Bool) (i : Nat) : Nat → Bool := fun j => j = i || mask j

/-- A member of Vary that makes the answer one user's. -/
def personalMember (m : Bytes) : Bool :=
  m = bytes "*" || iequals m (bytes "cookie") || iequals m (bytes "authorization")

section Loop

variable (hs : HeaderSet)

/-- The decision of this name is carried. -/
def Upstream.carry (u : Upstream) (name : Bytes) : Upstream :=
  match hs.find name with
  | some i => { u with carried := setBit u.carried i }
  | none => u

/-- `note_cache`. -/
def noteCache (u : Upstream) (f : Field) : Upstream :=
  if iequals f.1 (bytes "set-cookie") then { u with personal := true }
  else if iequals f.1 (bytes "vary") then
    { u with personal := u.personal || (directives f.2).any personalMember }
  else if iequals f.1 cacheControlName then
    { u with hasCacheControl := true, cacheControl := u.cacheControl.union (restrictions f.2 true) }.carry hs f.1
  else if sharedOnlyField f.1 then
    { u with cdn := u.cdn.union (restrictions f.2 true) }.carry hs f.1
  else if iequals f.1 expiresName then u.carry hs f.1
  else u

/-- What the application said where the decision speaks. -/
def Upstream.said (u : Upstream) (i : Nat) (d : FieldDecision) : Restrictions :=
  if d.cacheControl then u.cacheControl
  else if d.expires then u.cacheControl.union u.cdn
  else u.cdn.union (if u.carried i then {} else u.cacheControl)

/-- One round of `settle`: the mask of those that give way, and whether Cache-Control is decided. -/
def settleStep (u : Upstream) (acc : (Nat → Bool) × Bool) (x : FieldDecision × Nat) :
    (Nat → Bool) × Bool :=
  let d := x.1
  if !(d.cacheField || d.expires) || d.ownOnly then acc
  else if d.verb = .fallback && u.carried x.2 then acc
  else if d.verb = .remove && !u.carried x.2 then acc
  else
    let gives := (u.said x.2 d).any && !d.restricts.covers (u.said x.2 d)
    let stands := if gives then setBit acc.1 x.2 else acc.1
    (stands, if d.cacheControl then d.verb ≠ .fallback && !stands x.2 else acc.2)

/-- `settle`. -/
def settle (u : Upstream) : Upstream :=
  let r := hs.fields.zipIdx.foldl (settleStep u) (u.stands, false)
  { u with stands := r.1, cacheControlKept := u.hasCacheControl && !r.2 }

/-- `keep_upstream`. -/
def keepUpstream (guarded : Bool) (u : Upstream) (name : Bytes) : Bool × Upstream :=
  match hs.find name with
  | none => (true, u)
  | some i =>
    match hs.fields[i]? with
    | none => (true, u)
    | some d =>
      if (guarded && d.cacheField) || d.ownOnly || u.stands i then (true, u)
      else if d.verb ≠ .fallback then (false, u)
      else (true, { u with present := setBit u.present i })

/-- The fields kept, in order. -/
def keepFields (guarded : Bool) : Upstream → List Field → List Field × Upstream
  | u, [] => ([], u)
  | u, f :: fs =>
    let k := keepUpstream hs guarded u f.1
    let r := keepFields guarded k.2 fs
    (if k.1 then f :: r.1 else r.1, r.2)

/-- The variables of `append_upstream`. -/
structure Lines where
  out : List Field := []
  needsPrivate : Bool := false
  ccSent : Bool := false

def appendStep (guarded : Bool) (u : Upstream) (l : Lines) (x : FieldDecision × Nat) : Lines :=
  let d := x.1
  let l := if d.verb = .remove && d.cacheControl && !guarded && !u.stands x.2 then
    { l with needsPrivate := true } else l
  if d.verb = .remove || (guarded && d.cacheField) || d.ownOnly || u.stands x.2 then l
  else if d.verb = .fallback && u.present x.2 then l
  else if u.personal && d.lifetime then
    if !d.cacheControl then { l with needsPrivate := true }
    else { l with out := l.out ++ [(d.name, d.privateValue)], ccSent := true }
  else { l with out := l.out ++ [(d.name, d.value)], ccSent := l.ccSent || d.cacheControl }

/-- `append_upstream`: the rules' own lines. -/
def ruleLines (guarded : Bool) (u : Upstream) : List Field :=
  let l := hs.fields.zipIdx.foldl (appendStep guarded u) {}
  l.out ++ if u.personal && l.needsPrivate && !l.ccSent && !u.cacheControlKept then
    [(bytes "Cache-Control", bytes "private")] else []

/-- What was read of the answer before the loop: `fields` are the application's and the location's
    own, `authorized` when the request carried Authorization. -/
def seenOf (guarded authorized : Bool) (fields : List Field) : Upstream :=
  if hs.cacheWatch && !guarded then
    let u := fields.foldl (noteCache hs) {}
    settle hs { u with personal := u.personal || authorized }
  else {}

/-- A field the guard takes off an answer behind a password. -/
def guardField (f : Field) : Bool := iequals f.1 cacheControlName || sharedOnlyField f.1

/-- The guard's own line: private, and what the browser needs. -/
def guardLine (fields : List Field) : Field :=
  let kept := (fields.filter fun f => iequals f.1 cacheControlName).foldl
    (fun k f => keepDirectives f.2 k) []
  (bytes "Cache-Control", bytes "private" ++ if kept = [] then [] else bytes ", " ++ kept)

/-- The fields kept of the answer. -/
def keptFields (guarded authorized : Bool) (fields : List Field) : List Field :=
  (keepFields hs guarded (seenOf hs guarded authorized fields) fields).1

/-- The lines the rules add to it. -/
def addedLines (guarded authorized : Bool) (fields : List Field) : List Field :=
  ruleLines hs guarded (keepFields hs guarded (seenOf hs guarded authorized fields) fields).2

/-- The answer's fields as they are sent. -/
def sentAnswer (guarded authorized : Bool) (fields : List Field) : List Field :=
  let kept := keptFields hs guarded authorized fields
  (if guarded then kept.filter (!guardField ·) else kept) ++ addedLines hs guarded authorized fields ++
    if guarded then [guardLine kept] else []

end Loop

/-! ## §3. Names and decisions. -/

theorem sharedOnlyField_congr {a b : Bytes} (h : iequals a b = true) :
    sharedOnlyField a = sharedOnlyField b := by
  have hm := iequals_iff.mp h
  have hlen : a.length = b.length := by simpa using congrArg List.length hm
  have hi : ∀ (k : Nat) (w : Bytes), iequals (a.drop k) w = iequals (b.drop k) w := by
    intro k w
    unfold iequals
    rw [List.map_drop, List.map_drop, hm]
  have h0 : ∀ w : Bytes, iequals a w = iequals b w := fun w => hi 0 w
  unfold sharedOnlyField
  simp only [hlen, hi, h0]

theorem iequals_congr {a b : Bytes} (h : iequals a b = true) (w : Bytes) : iequals a w = iequals b w := by
  unfold iequals
  rw [iequals_iff.mp h]

/-- The kinds of cache fields are apart. -/
theorem not_shared_of_cacheControl {n : Bytes} (h : iequals n cacheControlName = true) :
    sharedOnlyField n = false := by
  rw [sharedOnlyField_congr h]
  decide

theorem not_shared_of_expires {n : Bytes} (h : iequals n expiresName = true) : sharedOnlyField n = false := by
  rw [sharedOnlyField_congr h]
  decide

theorem not_expires_of_cacheControl {n : Bytes} (h : iequals n cacheControlName = true) :
    iequals n expiresName = false := by
  rw [iequals_congr h]
  decide

namespace HeaderSet

variable {hs : HeaderSet} {name : Bytes} {i : Nat} {d : FieldDecision}

/-- Two decisions for one name are one. -/
theorem eq_of_named {a b : FieldDecision} {i j : Nat} (ha : hs.fields[i]? = some a) (hb : hs.fields[j]? = some b)
    (h : a.named b.name = true) : i = j := by
  obtain ⟨hi, rfl⟩ := List.getElem?_eq_some_iff.mp ha
  obtain ⟨hj, rfl⟩ := List.getElem?_eq_some_iff.mp hb
  have hsymm : iequals hs.fields[j].name hs.fields[i].name = true := iequals_iff.mpr (iequals_iff.mp h).symm
  rcases Nat.lt_trichotomy i j with hlt | heq | hlt
  · rw [List.pairwise_iff_getElem.mp hs.distinct i j hi hj hlt] at h
    cases h
  · exact heq
  have := List.pairwise_iff_getElem.mp hs.distinct j i hj hi hlt
  rw [FieldDecision.named, hsymm] at this
  cases this

theorem find_eq_some_iff : hs.find name = some i ↔ ∃ d, hs.fields[i]? = some d ∧ d.named name = true := by
  unfold HeaderSet.find
  rw [List.findIdx?_eq_some_iff_getElem]
  constructor
  · rintro ⟨hi, hn, -⟩
    exact ⟨hs.fields[i], List.getElem?_eq_getElem hi, hn⟩
  · rintro ⟨d, hd, hn⟩
    obtain ⟨hi, rfl⟩ := List.getElem?_eq_some_iff.mp hd
    refine ⟨hi, hn, ?_⟩
    intro j hj hjn
    have heq : j = i := hs.eq_of_named (List.getElem?_eq_getElem (by omega)) hd
      (iequals_iff.mpr ((iequals_iff.mp hjn).trans (iequals_iff.mp hn).symm))
    omega

theorem find_eq_none_iff : hs.find name = none ↔ ∀ d ∈ hs.fields, d.named name = false := by
  unfold HeaderSet.find
  rw [List.findIdx?_eq_none_iff]

theorem find_named (hd : hs.fields[i]? = some d) (hn : d.named name = true) : hs.find name = some i :=
  find_eq_some_iff.mpr ⟨d, hd, hn⟩

theorem watch_of (hd : hs.fields[i]? = some d) (h : d.cacheField = true ∨ d.expires = true) :
    hs.cacheWatch = true := by
  refine List.any_eq_true.mpr ⟨d, List.mem_of_getElem? hd, ?_⟩
  rcases h with h | h <;> simp [h]

end HeaderSet

/-! ## §4. What is read of the answer. -/

section Reading

variable {hs : HeaderSet}

theorem union_assoc (a b c : Restrictions) : (a.union b).union c = a.union (b.union c) := by
  simp [Restrictions.union, Bool.or_assoc]

@[simp] theorem empty_union (a : Restrictions) : Restrictions.union {} a = a := by
  simp [Restrictions.union]

@[simp] theorem union_empty (a : Restrictions) : a.union {} = a := by
  simp [Restrictions.union]

/-- The restrictions of the fields of a kind, taken together. -/
def bitsOf (fs : List Field) (kind : Bytes → Bool) : Restrictions :=
  unionOf ((fs.filter fun f => kind f.1).map fun f => restrictions f.2 true)

theorem bitsOf_cons (f : Field) (fs : List Field) (kind : Bytes → Bool) : bitsOf (f :: fs) kind =
    (if kind f.1 then restrictions f.2 true else {}).union (bitsOf fs kind) := by
  unfold bitsOf
  rw [List.filter_cons]
  split
  · rfl
  · rw [empty_union]

theorem sub_bitsOf {fs : List Field} {kind : Bytes → Bool} {f : Field} (hf : f ∈ fs) (hk : kind f.1 = true) :
    (restrictions f.2 true).Sub (bitsOf fs kind) :=
  sub_unionOf (List.mem_map_of_mem (List.mem_filter.mpr ⟨hf, hk⟩))

theorem bitsOf_sub {fs gs : List Field} {kind kind' : Bytes → Bool}
    (h : ∀ f ∈ fs, kind f.1 = true → f ∈ gs ∧ kind' f.1 = true) : (bitsOf fs kind).Sub (bitsOf gs kind') := by
  refine unionOf_sub ?_
  intro r hr
  obtain ⟨f, hf, rfl⟩ := List.mem_map.mp hr
  obtain ⟨hf, hk⟩ := List.mem_filter.mp hf
  obtain ⟨hg, hk'⟩ := h f hf hk
  exact sub_bitsOf hg hk'

/-- A field that makes the answer one user's. -/
def personalField (f : Field) : Bool :=
  iequals f.1 (bytes "set-cookie") || (iequals f.1 (bytes "vary") && (directives f.2).any personalMember)

/-- A field whose decision is noted as carried. -/
def carriedField (n : Bytes) : Bool := iequals n cacheControlName || sharedOnlyField n || iequals n expiresName

/-- One field is read. -/
theorem noteCache_spec (hs : HeaderSet) (u : Upstream) (f : Field) : (noteCache hs u f).cacheControl =
        u.cacheControl.union (if iequals f.1 cacheControlName then restrictions f.2 true else {}) ∧
      (noteCache hs u f).cdn = u.cdn.union (if sharedOnlyField f.1 then restrictions f.2 true else {}) ∧
      (noteCache hs u f).personal = (u.personal || personalField f) ∧
      (∀ i, (noteCache hs u f).carried i =
        (u.carried i || (carriedField f.1 && decide (hs.find f.1 = some i)))) ∧
      (noteCache hs u f).stands = u.stands := by
  have hcarry : ∀ (w : Upstream) (n : Bytes), (w.carry hs n).cacheControl = w.cacheControl ∧
      (w.carry hs n).cdn = w.cdn ∧ (w.carry hs n).personal = w.personal ∧ (w.carry hs n).stands = w.stands ∧
      ∀ i, (w.carry hs n).carried i = (w.carried i || decide (hs.find n = some i)) := by
    intro w n
    unfold Upstream.carry
    cases hfind : hs.find n with
    | none => simp
    | some j =>
      refine ⟨rfl, rfl, rfl, rfl, ?_⟩
      intro i
      simp only [setBit, Option.some.injEq]
      rw [Bool.or_comm]
      congr 1
      exact decide_eq_decide.mpr eq_comm
  unfold noteCache personalField carriedField
  split
  · next h =>
    rw [iequals_congr h, sharedOnlyField_congr h, iequals_congr h expiresName, h]
    simp [show iequals (bytes "set-cookie") cacheControlName = false by decide,
      show sharedOnlyField (bytes "set-cookie") = false by decide,
      show iequals (bytes "set-cookie") expiresName = false by decide]
  · next hcookie =>
    split
    · next h =>
      rw [iequals_congr h, sharedOnlyField_congr h, iequals_congr h expiresName, h]
      simp [show iequals (bytes "vary") cacheControlName = false by decide,
        show sharedOnlyField (bytes "vary") = false by decide,
        show iequals (bytes "vary") expiresName = false by decide,
        hcookie]
    · next hvary =>
      have hp : (iequals f.1 (bytes "set-cookie") ||
          (iequals f.1 (bytes "vary") && (directives f.2).any personalMember)) = false := by
        simp [hcookie, hvary]
      rw [hp, Bool.or_false]
      split
      · next h =>
        obtain ⟨h₁, h₂, h₃, h₄, h₅⟩ := hcarry
          { u with hasCacheControl := true, cacheControl := u.cacheControl.union (restrictions f.2 true) } f.1
        rw [not_shared_of_cacheControl h]
        exact ⟨h₁, h₂.trans (union_empty _).symm, h₃, fun i => (h₅ i).trans (by simp [h]), h₄⟩
      · next hcc =>
        split
        · next h =>
          obtain ⟨h₁, h₂, h₃, h₄, h₅⟩ := hcarry { u with cdn := u.cdn.union (restrictions f.2 true) } f.1
          exact ⟨h₁.trans (union_empty _).symm, h₂, h₃, fun i => (h₅ i).trans (by simp [h]), h₄⟩
        · next hsh =>
          split
          · next h =>
            obtain ⟨h₁, h₂, h₃, h₄, h₅⟩ := hcarry u f.1
            exact ⟨h₁.trans (union_empty _).symm, h₂.trans (union_empty _).symm, h₃,
              fun i => (h₅ i).trans (by simp [h]), h₄⟩
          · next hex => simp [hcc, hsh, hex]

/-- **All fields are read.** -/
theorem noteAll_spec (hs : HeaderSet) (fs : List Field) : ∀ u : Upstream,
    (fs.foldl (noteCache hs) u).cacheControl = u.cacheControl.union (bitsOf fs fun n => iequals n cacheControlName) ∧
      (fs.foldl (noteCache hs) u).cdn = u.cdn.union (bitsOf fs sharedOnlyField) ∧
      (fs.foldl (noteCache hs) u).personal = (u.personal || fs.any personalField) ∧
      (∀ i, (fs.foldl (noteCache hs) u).carried i =
        (u.carried i || fs.any fun f => carriedField f.1 && decide (hs.find f.1 = some i))) ∧
      (fs.foldl (noteCache hs) u).stands = u.stands := by
  induction fs with
  | nil => intro u; simp [bitsOf, unionOf]
  | cons f fs ih =>
    intro u
    obtain ⟨h₁, h₂, h₃, h₄, h₅⟩ := noteCache_spec hs u f
    obtain ⟨i₁, i₂, i₃, i₄, i₅⟩ := ih (noteCache hs u f)
    rw [List.foldl_cons]
    refine ⟨?_, ?_, ?_, ?_, ?_⟩
    · rw [i₁, h₁, bitsOf_cons, union_assoc]
    · rw [i₂, h₂, bitsOf_cons, union_assoc]
    · rw [i₃, h₃, List.any_cons, Bool.or_assoc]
    · intro i
      rw [i₄, h₄, List.any_cons, Bool.or_assoc]
    · rw [i₅, h₅]

end Reading

/-! ## §5. What gives way, what is kept and what is added. -/

section Deciding

variable {hs : HeaderSet} {u : Upstream} {i : Nat} {d : FieldDecision} {guarded : Bool} {n : Bytes}

/-- The decision gives way to what the application said. -/
def givesWay (u : Upstream) (i : Nat) (d : FieldDecision) : Bool :=
  (d.cacheField || d.expires) && !d.ownOnly && !(d.verb = .fallback && u.carried i) &&
    !(d.verb = .remove && !u.carried i) && (u.said i d).any && !d.restricts.covers (u.said i d)

theorem settleStep_fst (acc : (Nat → Bool) × Bool) (x : FieldDecision × Nat) (j : Nat) :
    (settleStep u acc x).1 j = (acc.1 j || (decide (j = x.2) && givesWay u x.2 x.1)) := by
  unfold settleStep givesWay
  dsimp only
  split
  · next h =>
    rw [Bool.or_eq_true, Bool.not_eq_true'] at h
    rcases h with h | h <;> simp [h]
  · next h =>
    rw [Bool.or_eq_true, Bool.not_eq_true', not_or, Bool.not_eq_false, Bool.not_eq_true] at h
    split
    · next hf =>
      rw [Bool.and_eq_true, decide_eq_true_eq] at hf
      simp [hf.1, hf.2]
    · next hf =>
      split
      · next hr =>
        rw [Bool.and_eq_true, decide_eq_true_eq, Bool.not_eq_true'] at hr
        simp [hr.1, hr.2]
      · next hr =>
        rw [Bool.not_eq_true] at hf hr
        rw [h.1, h.2, hf, hr]
        simp only [Bool.not_false, Bool.and_true, Bool.true_and]
        split
        · next hg => rw [hg, setBit, Bool.and_true, Bool.or_comm]
        · next hg => rw [Bool.eq_false_iff.mpr hg, Bool.and_false, Bool.or_false]

theorem foldl_settleStep (L : List (FieldDecision × Nat)) : ∀ (acc : (Nat → Bool) × Bool) (j : Nat),
    (L.foldl (settleStep u) acc).1 j =
      (acc.1 j || L.any fun x => decide (j = x.2) && givesWay u x.2 x.1) := by
  induction L with
  | nil => intro acc j; simp
  | cons x L ih =>
    intro acc j
    rw [List.foldl_cons, ih, settleStep_fst, List.any_cons, Bool.or_assoc]

/-- **Which decisions give way.** -/
theorem settle_stands (h0 : u.stands = fun _ => false) (hd : hs.fields[i]? = some d) :
    (settle hs u).stands i = givesWay u i d := by
  have hfold : (settle hs u).stands i = (u.stands i || hs.fields.zipIdx.any fun x =>
      decide (i = x.2) && givesWay u x.2 x.1) := foldl_settleStep _ _ _
  rw [hfold, h0, Bool.false_or, Bool.eq_iff_iff, List.any_eq_true]
  constructor
  · rintro ⟨x, hx, hg⟩
    rw [Bool.and_eq_true, decide_eq_true_eq] at hg
    have hget := List.mem_zipIdx_iff_getElem?.mp hx
    rw [← hg.1, hd] at hget
    rw [Option.some.inj hget, hg.1]
    exact hg.2
  · intro hg
    exact ⟨(d, i), List.mem_zipIdx_iff_getElem?.mpr hd, by simpa using hg⟩

/-- A field of this name goes out. -/
def keeps (hs : HeaderSet) (guarded : Bool) (u : Upstream) (n : Bytes) : Bool :=
  (keepUpstream hs guarded u n).1

theorem keepUpstream_some (hfind : hs.find n = some i) (hd : hs.fields[i]? = some d) :
    keepUpstream hs guarded u n =
      if (guarded && d.cacheField) || d.ownOnly || u.stands i then (true, u)
      else if d.verb ≠ .fallback then (false, u)
      else (true, { u with present := setBit u.present i }) := by
  unfold keepUpstream
  rw [hfind]
  dsimp only
  rw [hd]

/-- A default of the rules is answered by a field of this name. -/
def answers (hs : HeaderSet) (guarded : Bool) (u : Upstream) (n : Bytes) (i : Nat) : Bool :=
  decide (hs.find n = some i) && ((hs.fields[i]?).any fun d =>
    !((guarded && d.cacheField) || d.ownOnly || u.stands i) && d.verb = .fallback)

theorem keepUpstream_snd (n : Bytes) : (keepUpstream hs guarded u n).2 =
    { u with present := fun i => u.present i || answers hs guarded u n i } := by
  unfold answers
  cases hfind : hs.find n with
  | none => simp [keepUpstream, hfind]
  | some j =>
    obtain ⟨d, hd, -⟩ := HeaderSet.find_eq_some_iff.mp hfind
    rw [keepUpstream_some hfind hd]
    have hbit : ∀ b : Bool, ((hs.fields[j]?).any fun d =>
        !((guarded && d.cacheField) || d.ownOnly || u.stands j) && d.verb = .fallback) = b →
        (fun i => u.present i || (decide (some j = some i) && ((hs.fields[i]?).any fun d =>
          !((guarded && d.cacheField) || d.ownOnly || u.stands i) && d.verb = .fallback))) =
        if b then setBit u.present j else u.present := by
      intro b hb
      funext i
      by_cases hij : j = i
      · subst hij
        rw [decide_eq_true rfl, Bool.true_and, hb]
        cases b <;> simp [setBit]
      · have : ¬ i = j := fun h => hij h.symm
        cases b <;> simp [hij, setBit, this]
    split
    · next h =>
      rw [hbit false (by rw [hd, Option.any_some, h]; rfl)]
      rfl
    · next h =>
      split
      · next hv =>
        rw [hbit false (by rw [hd, Option.any_some, decide_eq_false hv, Bool.and_false])]
        rfl
      · next hv =>
        rw [ne_eq, not_not] at hv
        rw [hbit true (by rw [hd, Option.any_some, Bool.eq_false_iff.mpr h, hv]; rfl)]
        rfl

theorem keepUpstream_congr (n : Bytes) (mask : Nat → Bool) :
    (keepUpstream hs guarded { u with present := mask } n).1 = (keepUpstream hs guarded u n).1 := by
  cases hfind : hs.find n with
  | none => simp [keepUpstream, hfind]
  | some j =>
    obtain ⟨d, hd, -⟩ := HeaderSet.find_eq_some_iff.mp hfind
    rw [keepUpstream_some hfind hd, keepUpstream_some hfind hd]
    split
    · rfl
    · split <;> rfl

/-- **What is kept, and which defaults are answered.** -/
theorem keepFields_eq (fs : List Field) : ∀ u : Upstream,
    keepFields hs guarded u fs = (fs.filter fun f => keeps hs guarded u f.1,
      { u with present := fun i => u.present i || fs.any fun f => answers hs guarded u f.1 i }) := by
  induction fs with
  | nil => intro u; simp [keepFields]
  | cons f fs ih =>
    intro u
    unfold keepFields
    dsimp only
    rw [keepUpstream_snd, ih]
    have hkeep : ∀ n, keeps hs guarded { u with present := fun i => u.present i || answers hs guarded u f.1 i } n =
        keeps hs guarded u n := fun n => keepUpstream_congr n _
    simp only [hkeep, Prod.mk.injEq, List.filter_cons, List.any_cons]
    refine ⟨rfl, ?_⟩
    simp only [Bool.or_assoc]
    rfl

/-- The line a decision adds. -/
def lineOf (guarded : Bool) (u : Upstream) (x : FieldDecision × Nat) : Option Field :=
  if x.1.verb = .remove || (guarded && x.1.cacheField) || x.1.ownOnly || u.stands x.2 then none
  else if x.1.verb = .fallback && u.present x.2 then none
  else if u.personal && x.1.lifetime then
    if x.1.cacheControl then some (x.1.name, x.1.privateValue) else none
  else some (x.1.name, x.1.value)

theorem foldl_appendStep (L : List (FieldDecision × Nat)) : ∀ l : Lines,
    (L.foldl (appendStep guarded u) l).out = l.out ++ L.filterMap (lineOf guarded u) := by
  induction L with
  | nil => intro l; simp
  | cons x L ih =>
    intro l
    have hstep : (appendStep guarded u l x).out = l.out ++ (lineOf guarded u x).toList := by
      unfold appendStep lineOf
      dsimp only
      -- the first test only notes that a private line may be needed
      generalize hl' : (if x.1.verb = .remove && x.1.cacheControl && !guarded && !u.stands x.2 then
        { l with needsPrivate := true } else l) = l'
      have hout : l'.out = l.out := by
        rw [← hl']
        split <;> rfl
      split
      · simp [hout]
      split
      · simp [hout]
      split
      · cases x.1.cacheControl with
        | true => simp [hout]
        | false => simp [hout]
      · simp [hout]
    rw [List.foldl_cons, ih, hstep, List.filterMap_cons]
    cases lineOf guarded u x with
    | none => simp
    | some f => simp

/-- The line added where the rules leave one user's answer without a Cache-Control. -/
def privateLine : Field := (bytes "Cache-Control", bytes "private")

/-- **The lines added**: those of the decisions, and perhaps the private one. -/
theorem ruleLines_eq (hs : HeaderSet) (guarded : Bool) (u : Upstream) : ∃ extra : List Field, ruleLines hs guarded u =
    hs.fields.zipIdx.filterMap (lineOf guarded u) ++ extra ∧
      (extra = [] ∨ (extra = [privateLine] ∧ u.personal = true)) := by
  unfold ruleLines
  dsimp only
  rw [foldl_appendStep]
  split
  · next h =>
    simp only [Bool.and_eq_true] at h
    exact ⟨_, rfl, .inr ⟨rfl, h.1.1.1⟩⟩
  · exact ⟨_, rfl, .inl rfl⟩

end Deciding

/-! ## §6. The answer as a function of the rules and the fields. -/

section Answer

variable {hs : HeaderSet} {fields : List Field} {guarded authorized : Bool} {i : Nat} {d : FieldDecision}

/-- The restrictions of the application's Cache-Control. -/
def ccOf (fields : List Field) : Restrictions := bitsOf fields fun n => iequals n cacheControlName

/-- Those of its fields only shared caches read. -/
def cdnOf (fields : List Field) : Restrictions := bitsOf fields sharedOnlyField

/-- The answer is one user's. -/
def onesUser (authorized : Bool) (fields : List Field) : Bool := fields.any personalField || authorized

/-- The answer carries the decision's field. -/
def FieldDecision.carriedBy (d : FieldDecision) (fields : List Field) : Bool := fields.any fun f => d.named f.1

/-- What the application said where a decision speaks. -/
def FieldDecision.against (d : FieldDecision) (fields : List Field) : Restrictions :=
  if d.cacheControl then ccOf fields
  else if d.expires then (ccOf fields).union (cdnOf fields)
  else (cdnOf fields).union (if d.carriedBy fields then {} else ccOf fields)

/-- The decision gives way to the answer's restrictions. -/
def FieldDecision.yields (d : FieldDecision) (fields : List Field) : Bool :=
  (d.cacheField || d.expires) && !d.ownOnly && !(d.verb = .fallback && d.carriedBy fields) &&
    !(d.verb = .remove && !d.carriedBy fields) && (d.against fields).any && !d.restricts.covers (d.against fields)

/-- The decision is left aside: the guard's, not for an application's answers, or given way. -/
def FieldDecision.aside (d : FieldDecision) (guarded : Bool) (fields : List Field) : Bool :=
  (guarded && d.cacheField) || d.ownOnly || (!guarded && d.yields fields)

/-- The line the decision adds. -/
def FieldDecision.adds (d : FieldDecision) (guarded authorized : Bool) (fields : List Field) : Option Field :=
  if d.verb = .remove || d.aside guarded fields then none
  else if d.verb = .fallback && d.carriedBy fields then none
  else if !guarded && onesUser authorized fields && d.lifetime then
    if d.cacheControl then some (d.name, d.privateValue) else none
  else some (d.name, d.value)

theorem carriedField_of_named {n : Bytes} (hn : d.named n = true) :
    carriedField n = (d.cacheField || d.expires) := by
  unfold carriedField FieldDecision.cacheField FieldDecision.expires FieldDecision.cacheControl
  rw [iequals_congr hn, sharedOnlyField_congr hn, iequals_congr hn]

/-- A decision of the set is the one its index names. -/
theorem decide_find (hd : hs.fields[i]? = some d) (n : Bytes) : decide (hs.find n = some i) = d.named n := by
  rw [Bool.eq_iff_iff, decide_eq_true_eq]
  constructor
  · intro h
    obtain ⟨e, he, hn⟩ := HeaderSet.find_eq_some_iff.mp h
    rw [hd] at he
    rwa [Option.some.inj he]
  · exact HeaderSet.find_named hd

theorem seenOf_guarded : seenOf hs true authorized fields = {} := by
  unfold seenOf
  simp

/-- **The decisions that give way** are settled before the loop. -/
theorem seenOf_stands (hd : hs.fields[i]? = some d) :
    (seenOf hs guarded authorized fields).stands i = (!guarded && d.yields fields) := by
  cases guarded with
  | true => rw [seenOf_guarded]; rfl
  | false =>
    by_cases hw : hs.cacheWatch = true
    · obtain ⟨h₁, h₂, -, h₄, h₅⟩ := noteAll_spec hs fields {}
      have hopen : (seenOf hs false authorized fields).stands i =
          givesWay { fields.foldl (noteCache hs) {} with
            personal := (fields.foldl (noteCache hs) {}).personal || authorized } i d := by
        unfold seenOf
        rw [hw]
        exact settle_stands (u := { fields.foldl (noteCache hs) {} with
          personal := (fields.foldl (noteCache hs) {}).personal || authorized }) h₅ hd
      rw [hopen, Bool.not_false, Bool.true_and]
      unfold givesWay FieldDecision.yields
      by_cases hk : (d.cacheField || d.expires) = true
      · -- the bit of a cache decision says whether the answer carries its field
        have hcarried : (fields.foldl (noteCache hs) {}).carried i = d.carriedBy fields := by
          rw [h₄, Bool.false_or]
          unfold FieldDecision.carriedBy
          congr 1
          funext f
          rw [decide_find hd]
          cases hn : d.named f.1 with
          | false => rw [Bool.and_false]
          | true => rw [carriedField_of_named hn, hk]; rfl
        have hsaid : ∀ u : Upstream, u.cacheControl = ccOf fields → u.cdn = cdnOf fields →
            u.carried i = d.carriedBy fields → u.said i d = d.against fields := by
          intro u hc hcdn hcar
          unfold Upstream.said FieldDecision.against
          rw [hc, hcdn, hcar]
        have hs' := hsaid { fields.foldl (noteCache hs) {} with
          personal := (fields.foldl (noteCache hs) {}).personal || authorized }
          (h₁.trans (empty_union _)) (h₂.trans (empty_union _)) hcarried
        rw [hs']
        rw [hcarried]
      · rw [Bool.not_eq_true] at hk
        rw [hk]
        simp
    · have hk : (d.cacheField || d.expires) = false := by
        by_contra h
        rw [Bool.not_eq_false, Bool.or_eq_true] at h
        exact hw (HeaderSet.watch_of hd h)
      unfold seenOf FieldDecision.yields
      rw [Bool.eq_false_iff.mpr hw, hk]
      simp

/-- What is known of one user's answer, where a lifetime asks. -/
theorem seenOf_personal (hd : hs.fields[i]? = some d) (hl : d.lifetime = true) :
    (seenOf hs guarded authorized fields).personal = (!guarded && onesUser authorized fields) := by
  cases guarded with
  | true => rw [seenOf_guarded]; rfl
  | false =>
    have hw : hs.cacheWatch = true :=
      List.any_eq_true.mpr ⟨d, List.mem_of_getElem? hd, by rw [hl, Bool.or_true]⟩
    obtain ⟨-, -, h₃, -, -⟩ := noteAll_spec hs fields {}
    unfold seenOf onesUser
    rw [hw]
    show ((fields.foldl (noteCache hs) {}).personal || authorized) = _
    rw [h₃]
    simp

theorem onesUser_of_seen (h : (seenOf hs guarded authorized fields).personal = true) :
    guarded = false ∧ onesUser authorized fields = true := by
  unfold seenOf at h
  split at h
  · next hw =>
    rw [Bool.and_eq_true, Bool.not_eq_true'] at hw
    obtain ⟨-, -, h₃, -, -⟩ := noteAll_spec hs fields {}
    have h' : ((fields.foldl (noteCache hs) {}).personal || authorized) = true := h
    rw [h₃, Bool.false_or] at h'
    exact ⟨hw.2, h'⟩
  · cases h

theorem seenOf_present : (seenOf hs guarded authorized fields).present i = false := by
  have hnote : ∀ (fs : List Field) (u : Upstream), (fs.foldl (noteCache hs) u).present = u.present := by
    intro fs
    induction fs with
    | nil => intro u; rfl
    | cons f fs ih =>
      intro u
      have hcarry : ∀ w : Upstream, (w.carry hs f.1).present = w.present := by
        intro w
        unfold Upstream.carry
        split <;> rfl
      rw [List.foldl_cons, ih]
      unfold noteCache
      repeat' split
      all_goals first | rfl | exact hcarry _
  unfold seenOf
  split
  · show (fields.foldl (noteCache hs) {}).present i = false
    rw [hnote]
  · rfl

/-- **The fields kept**, by the decision on each name. -/
theorem keptFields_eq : keptFields hs guarded authorized fields =
    fields.filter fun f => hs.fields.all fun d => !d.named f.1 || d.aside guarded fields || d.verb = .fallback := by
  unfold keptFields
  rw [keepFields_eq]
  refine List.filter_congr fun f _ => ?_
  unfold keeps
  rw [Bool.eq_iff_iff, List.all_eq_true]
  cases hfind : hs.find f.1 with
  | none =>
    have hno := HeaderSet.find_eq_none_iff.mp hfind
    constructor
    · intro _ d hd
      rw [hno d hd]
      rfl
    · intro _
      simp [keepUpstream, hfind]
  | some j =>
    obtain ⟨d, hd, hn⟩ := HeaderSet.find_eq_some_iff.mp hfind
    rw [keepUpstream_some hfind hd, seenOf_stands hd]
    -- the decision found is the only one on this name
    have honly : ∀ e ∈ hs.fields, e.named f.1 = true → e = d := by
      intro e he hen
      obtain ⟨k, hk⟩ := List.mem_iff_getElem?.mp he
      have := HeaderSet.find_named hk hen
      rw [hfind] at this
      rw [← Option.some.inj this, hd] at hk
      exact (Option.some.inj hk).symm
    have haside : ((guarded && d.cacheField) || d.ownOnly || (!guarded && d.yields fields)) = d.aside guarded fields := rfl
    rw [haside]
    constructor
    · intro h e he
      cases hen : e.named f.1 with
      | false => rfl
      | true =>
        rw [honly e he hen]
        by_cases ha : d.aside guarded fields = true
        · simp [ha]
        rw [if_neg ha] at h
        split at h
        · cases h
        · next hv => simp [not_not.mp hv]
    · intro h
      have hd' := h d (List.mem_of_getElem? hd)
      rw [hn] at hd'
      simp only [Bool.not_true, Bool.false_or, Bool.or_eq_true, decide_eq_true_eq] at hd'
      split
      · rfl
      next ha =>
      rw [if_neg (not_not.mpr (hd'.resolve_left ha))]

theorem answers_eq (hd : hs.fields[i]? = some d) (n : Bytes) :
    answers hs guarded (seenOf hs guarded authorized fields) n i =
      (d.named n && (!d.aside guarded fields && d.verb = .fallback)) := by
  unfold answers
  rw [decide_find hd, hd, Option.any_some, seenOf_stands hd]
  rfl

/-- The line of a decision, from the bits it reads. -/
theorem lineOf_eq {u : Upstream} (hstands : u.stands i = (!guarded && d.yields fields))
    (hpresent : u.present i = (d.carriedBy fields && (!d.aside guarded fields && d.verb = .fallback)))
    (hpersonal : d.lifetime = true → u.personal = (!guarded && onesUser authorized fields)) :
    lineOf guarded u (d, i) = d.adds guarded authorized fields := by
  have haside : (decide (d.verb = .remove) || guarded && d.cacheField || d.ownOnly || u.stands i) =
      (decide (d.verb = .remove) || d.aside guarded fields) := by
    unfold FieldDecision.aside
    rw [hstands]
    simp only [Bool.or_assoc]
  unfold lineOf FieldDecision.adds
  rw [haside]
  split
  · rfl
  next ha =>
  rw [Bool.or_eq_true, not_or] at ha
  have hfall : (decide (d.verb = .fallback) && u.present i) =
      (decide (d.verb = .fallback) && d.carriedBy fields) := by
    rw [hpresent, Bool.eq_false_iff.mpr ha.2]
    cases decide (d.verb = .fallback) <;> simp
  rw [hfall]
  split
  · rfl
  cases hl : d.lifetime with
  | false => simp
  | true => rw [hpersonal hl]

theorem lineOf_seen (hd : hs.fields[i]? = some d) :
    lineOf guarded (keepFields hs guarded (seenOf hs guarded authorized fields) fields).2 (d, i) =
      d.adds guarded authorized fields := by
  rw [keepFields_eq]
  refine lineOf_eq (seenOf_stands hd) ?_ (seenOf_personal hd)
  show ((seenOf hs guarded authorized fields).present i || _) = _
  rw [seenOf_present, Bool.false_or]
  unfold FieldDecision.carriedBy
  rw [List.and_any_distrib_right]
  congr 1
  funext f
  rw [answers_eq hd]

/-- **The lines added**: one by each decision that adds one, and perhaps the private one. -/
theorem addedLines_eq (hs : HeaderSet) (guarded authorized : Bool) (fields : List Field) :
    ∃ extra : List Field, addedLines hs guarded authorized fields =
    hs.fields.filterMap (·.adds guarded authorized fields) ++ extra ∧
      (extra = [] ∨ (extra = [privateLine] ∧ guarded = false ∧ onesUser authorized fields = true)) := by
  obtain ⟨extra, hlines, hextra⟩ := ruleLines_eq hs guarded
    (keepFields hs guarded (seenOf hs guarded authorized fields) fields).2
  refine ⟨extra, ?_, ?_⟩
  · unfold addedLines
    rw [hlines]
    congr 1
    have hzip : hs.fields.filterMap (·.adds guarded authorized fields) =
        hs.fields.zipIdx.filterMap fun x => x.1.adds guarded authorized fields := by
      conv_lhs => rw [← List.zipIdx_map_fst 0 hs.fields]
      rw [List.filterMap_map]
      rfl
    rw [hzip]
    refine List.filterMap_congr fun x hx => ?_
    exact lineOf_seen (List.mem_zipIdx_iff_getElem?.mp hx)
  · rcases hextra with h | ⟨h, hp⟩
    · exact .inl h
    rw [keepFields_eq] at hp
    exact .inr ⟨h, onesUser_of_seen hp⟩

end Answer

end Agensio.Response
