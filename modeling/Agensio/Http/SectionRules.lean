/-
  Agensio.Http.SectionRules — which field sections are requests.

  `sink_field` over a whole section and `finish_request` after it, against
  the rules for a request's fields: stated on the list of names and values,
  with no mention of how the sink keeps its notes.

  Two things the sink does are outside the statements: it takes a second
  `:method`, `:scheme` or `:path` when the first was empty, and the last of
  several `content-length` numbers (`SlipFree` leaves both out).

  Main results:
    * `section_assembled` — a section is accepted exactly when it obeys the
      rules, and its fields are then all in the request.
-/
import Agensio.Proxy.Assembled
import Mathlib.Data.List.Induction

namespace Agensio.Http

open Agensio.Codec (Field)
open Agensio.Proxy (Sunk sinkSection)
open Assembly (pseudoName)

/-! ## §1. The rules. -/

/-- The values of a name, in order. -/
def valuesOf (name : Bytes) (fs : List Field) : List Bytes := (fs.filter (·.1 = name)).map Prod.snd

/-- The pseudo-headers of a request. -/
def requestPseudo : List Bytes := [bytes ":method", bytes ":scheme", bytes ":path", bytes ":authority"]

/-- The number of a content-length line. -/
def lengthOf (v : Bytes) : Option Nat := if v.isEmpty || v.length > 19 then none else parseLength v 0

/-- The fields that are no pseudo-headers and no crumbs. -/
def otherFields (fs : List Field) : List Field :=
  fs.filter fun f => !pseudoName f.1 && decide (f.1 ≠ bytes "cookie")

/-- The field slots of a section: all crumbs share one. -/
def slotCount (fs : List Field) : Nat := (otherFields fs).length + min 1 (valuesOf (bytes "cookie") fs).length

instance (f : Field) : Decidable (Passes f) := inferInstanceAs (Decidable (brokenRule false f.1 f.2 = none))

/-- Every field on its own, and after the ones before it. -/
structure Orderly (fs : List Field) : Prop where
  order : fs.Pairwise fun f g => pseudoName g.1 = true → pseudoName f.1 = true
  known : ∀ f ∈ fs, pseudoName f.1 = true → f.1 ∈ requestPseudo
  passes : ∀ f ∈ fs, pseudoName f.1 = false → Passes f
  authority : (valuesOf (bytes ":authority") fs).length ≤ 1
  host : (valuesOf (bytes "host") fs).length ≤ 1

/-- The pseudo-headers a request must have. -/
def required : List Bytes := [bytes ":method", bytes ":scheme", bytes ":path"]

/-- The rules of the protocol. -/
structure Rules (fs : List Field) : Prop where
  orderly : Orderly fs
  once : ∀ name ∈ required, (valuesOf name fs).length = 1
  agree : ∀ x ∈ valuesOf (bytes ":authority") fs, ∀ y ∈ valuesOf (bytes "host") fs, x ≠ [] → y ≠ [] → x = y
  length : ∃ k, ∀ v ∈ valuesOf (bytes "content-length") fs, lengthOf v = some k

/-- The rules, and what the server asks for beyond them: nothing of the three is empty, a path is
absolute (or `*` for OPTIONS), a host is named, and the fields fit. -/
structure Accepts (fs : List Field) : Prop where
  rules : Rules fs
  present : ∀ name ∈ required, ∀ v ∈ valuesOf name fs, v ≠ []
  target : ∀ m ∈ valuesOf (bytes ":method") fs, ∀ p ∈ valuesOf (bytes ":path") fs,
    if p = bytes "*" then m = bytes "OPTIONS" else p.head? = some 0x2f
  named : ∃ x ∈ valuesOf (bytes ":authority") fs ++ valuesOf (bytes "host") fs, x ≠ []
  fits : slotCount fs ≤ kCapacity

/-- No empty value of a pseudo-header that must be there is followed by another, and no two
content-lengths are different numbers. -/
structure SlipFree (fs : List Field) : Prop where
  first : ∀ name ∈ required, ∀ v ∈ (valuesOf name fs).dropLast, v ≠ []
  lengths : ∀ v ∈ valuesOf (bytes "content-length") fs, ∀ w ∈ valuesOf (bytes "content-length") fs,
    ∀ j k, lengthOf v = some j → lengthOf w = some k → j = k

/-- What a request holds of its section; a handler finds its host among the fields where there is
room for it. -/
structure Delivered (fs : List Field) (req : Request) : Prop where
  cookie : req.headers.filter (·.1 = bytes "cookie")
    = if valuesOf (bytes "cookie") fs = [] then []
      else [(bytes "cookie", (bytes "; ").intercalate (valuesOf (bytes "cookie") fs))]
  others : req.headers.filter (·.1 ≠ bytes "cookie")
    = otherFields fs ++
      (if valuesOf (bytes "host") fs = [] ∧ slotCount fs < kCapacity then [(bytes "host", req.host)] else [])

/-! ## §2. A section and one more field. -/

section OneMore

variable (fs : List Field) (n v name : Bytes)

theorem valuesOf_same : valuesOf n (fs ++ [(n, v)]) = valuesOf n fs ++ [v] := by
  simp [valuesOf]

theorem valuesOf_other (h : n ≠ name) : valuesOf name (fs ++ [(n, v)]) = valuesOf name fs := by
  simp [valuesOf, h]

theorem otherFields_keep (hp : pseudoName n = false) (hc : n ≠ bytes "cookie") :
    otherFields (fs ++ [(n, v)]) = otherFields fs ++ [(n, v)] := by
  simp [otherFields, hp, hc]

theorem otherFields_skip (h : pseudoName n = true ∨ n = bytes "cookie") :
    otherFields (fs ++ [(n, v)]) = otherFields fs := by
  rcases h with h | h <;> simp [otherFields, h]

/-- A pseudo-header uses no slot. -/
theorem slotCount_pseudo (hp : pseudoName n = true) : slotCount (fs ++ [(n, v)]) = slotCount fs := by
  have hne : n ≠ bytes "cookie" := by
    rintro rfl
    cases hp
  unfold slotCount
  rw [otherFields_skip fs n v (.inl hp), valuesOf_other fs n v _ hne]

theorem slotCount_keep (hp : pseudoName n = false) (hc : n ≠ bytes "cookie") :
    slotCount (fs ++ [(n, v)]) = slotCount fs + 1 := by
  unfold slotCount
  rw [otherFields_keep fs n v hp hc, valuesOf_other fs n v _ hc, List.length_append]
  simp
  omega

theorem slotCount_cookie : slotCount (fs ++ [(bytes "cookie", v)])
    = if valuesOf (bytes "cookie") fs = [] then slotCount fs + 1 else slotCount fs := by
  unfold slotCount
  rw [otherFields_skip fs _ v (.inr rfl), valuesOf_same, List.length_append]
  split
  · next h => rw [h]; simp
  next h =>
  have := List.length_pos_iff.mpr h
  simp
  omega

end OneMore

/-! ## §3. The sink's notes. -/

/-- The last of some values, empty when there is none. -/
def lastOf (vs : List Bytes) : Bytes := vs.getLast?.getD []

theorem lastOf_append (vs : List Bytes) (v : Bytes) : lastOf (vs ++ [v]) = v := by
  simp [lastOf]

/-- The notes on the pseudo-headers. -/
structure PseudoNoted (fs : List Field) (seen : RequestSeen) : Prop where
  method : seen.method = lastOf (valuesOf (bytes ":method") fs)
  scheme : seen.scheme = lastOf (valuesOf (bytes ":scheme") fs)
  path : seen.path = lastOf (valuesOf (bytes ":path") fs)
  authority : seen.authority = lastOf (valuesOf (bytes ":authority") fs)
  pseudo : seen.pseudo &&& 8 ≠ 0 ↔ valuesOf (bytes ":authority") fs ≠ []

/-- The notes on the other fields. -/
structure FieldsNoted (fs : List Field) (a : Assembly) : Prop where
  host : a.seen.host = lastOf (valuesOf (bytes "host") fs)
  hostField : a.seen.hostField = true ↔ valuesOf (bytes "host") fs ≠ []
  cookies : a.seen.cookies = (valuesOf (bytes "cookie") fs).length
  firstCookie : ∀ v, (valuesOf (bytes "cookie") fs).head? = some v → a.seen.firstCookie = v
  join : 1 < a.seen.cookies → a.cookie = (bytes "; ").intercalate (valuesOf (bytes "cookie") fs)
  overflow : a.seen.overflow = true ↔ kCapacity < slotCount fs
  others : a.seen.overflow = false → a.req.headers.filter (·.1 ≠ bytes "cookie") = otherFields fs
  crumb : a.seen.overflow = false → a.req.headers.filter (·.1 = bytes "cookie")
    = ((valuesOf (bytes "cookie") fs).take 1).map fun v => (bytes "cookie", v)

/-- The sink's notes after a section in which it found nothing bad. -/
structure Noted (fs : List Field) (a : Assembly) : Prop where
  regular : a.seen.regular = fs.any fun f => !pseudoName f.1
  pseudo : PseudoNoted fs a.seen
  fields : FieldsNoted fs a

theorem noted_nil : Noted [] {} where
  regular := rfl
  pseudo := ⟨rfl, rfl, rfl, rfl, by decide⟩
  fields := ⟨rfl, by decide, rfl, fun _ h => (by cases h), nofun, by decide, fun _ => rfl,
    fun _ => rfl⟩

variable {fs : List Field} {a : Assembly} {n v : Bytes}

/-- The headers are as many as the slots. -/
theorem FieldsNoted.length (h : FieldsNoted fs a) (ho : a.seen.overflow = false) :
    a.req.headers.length = slotCount fs := by
  have hsplit := List.length_eq_length_filter_add (l := a.req.headers) (fun f : Field => decide (f.1 = bytes "cookie"))
  have hnot : a.req.headers.filter (fun f => !decide (f.1 = bytes "cookie"))
      = a.req.headers.filter (·.1 ≠ bytes "cookie") := by
    refine List.filter_congr fun f _ => ?_
    by_cases hf : f.1 = bytes "cookie" <;> simp [hf]
  rw [hsplit, hnot, h.others ho, h.crumb ho]
  unfold slotCount
  simp
  omega

/-- A field that is none of the four leaves the notes on them. -/
theorem PseudoNoted.regular (h : PseudoNoted fs a.seen) (hp : pseudoName n = false) :
    PseudoNoted (fs ++ [(n, v)]) a.seen := by
  have hne : ∀ name, pseudoName name = true → valuesOf name (fs ++ [(n, v)]) = valuesOf name fs := by
    intro name hname
    refine valuesOf_other fs n v name ?_
    rintro rfl
    rw [hp] at hname
    cases hname
  refine ⟨?_, ?_, ?_, ?_, ?_⟩
  · rw [hne _ (by decide)]
    exact h.method
  · rw [hne _ (by decide)]
    exact h.scheme
  · rw [hne _ (by decide)]
    exact h.path
  · rw [hne _ (by decide)]
    exact h.authority
  · rw [hne _ (by decide)]
    exact h.pseudo

/-- A pseudo-header leaves the notes on the fields. -/
theorem FieldsNoted.pseudo (h : FieldsNoted fs a) (hp : pseudoName n = true) :
    FieldsNoted (fs ++ [(n, v)]) a := by
  have hne : ∀ name, pseudoName name = false → valuesOf name (fs ++ [(n, v)]) = valuesOf name fs := by
    intro name hname
    refine valuesOf_other fs n v name ?_
    rintro rfl
    rw [hp] at hname
    cases hname
  have hhost := hne (bytes "host") (by decide)
  have hcookie := hne (bytes "cookie") (by decide)
  have hslot := slotCount_pseudo fs n v hp
  have hother := otherFields_skip fs n v (.inl hp)
  refine ⟨?_, ?_, ?_, ?_, ?_, ?_, ?_, ?_⟩
  · rw [hhost]
    exact h.host
  · rw [hhost]
    exact h.hostField
  · rw [hcookie]
    exact h.cookies
  · rw [hcookie]
    exact h.firstCookie
  · rw [hcookie]
    exact h.join
  · rw [hslot]
    exact h.overflow
  · rw [hother]
    exact h.others
  · rw [hcookie]
    exact h.crumb

/-- A header added where there is room. -/
theorem addHeader_headers (ho : (a.addHeader n v).seen.overflow = false) :
    a.seen.overflow = false ∧ (a.addHeader n v).req.headers = a.req.headers ++ [(n, v)] := by
  unfold Assembly.addHeader at ho ⊢
  split
  · next hfull =>
    rw [if_pos hfull] at ho
    cases ho
  · next hroom =>
    rw [if_neg hroom] at ho
    exact ⟨ho, rfl⟩

variable {b : Assembly} {vs : List Bytes}

/-- There is no room from the hundred-and-first slot on. -/
theorem addHeader_overflow (h : FieldsNoted fs a) (ho : b.seen.overflow = a.seen.overflow)
    (hr : b.req = a.req) : (b.addHeader n v).seen.overflow = true ↔ kCapacity < slotCount fs + 1 := by
  have hover := h.overflow
  unfold Assembly.addHeader
  rw [hr]
  cases hf : a.seen.overflow with
  | true =>
    rw [hf] at hover ho
    have := hover.mp rfl
    split
    · exact ⟨fun _ => by omega, fun _ => rfl⟩
    · exact ⟨fun _ => by omega, fun _ => ho⟩
  | false =>
    have hlen := h.length hf
    split
    · exact ⟨fun _ => by omega, fun _ => rfl⟩
    refine ⟨fun h => ?_, fun hlt => by omega⟩
    have : b.seen.overflow = true := h
    rw [ho, hf] at this
    cases this

/-- A field that is no crumb takes the next slot. -/
theorem FieldsNoted.add (h : FieldsNoted fs a) (hp : pseudoName n = false) (hc : n ≠ bytes "cookie")
    (hcookie : b.cookie = a.cookie) (hr : b.req = a.req)
    (hb : b.seen = { a.seen with hostField := b.seen.hostField, host := b.seen.host })
    (hhost : b.seen.host = lastOf (valuesOf (bytes "host") (fs ++ [(n, v)])))
    (hfield : b.seen.hostField = true ↔ valuesOf (bytes "host") (fs ++ [(n, v)]) ≠ []) :
    FieldsNoted (fs ++ [(n, v)]) (b.addHeader n v) := by
  have hkeep : (b.addHeader n v).seen = { b.seen with overflow := (b.addHeader n v).seen.overflow } ∧
      (b.addHeader n v).cookie = b.cookie := by
    unfold Assembly.addHeader
    split <;> exact ⟨rfl, rfl⟩
  have hcrumbs := valuesOf_other fs n v (bytes "cookie") hc
  have hbo : b.seen.overflow = a.seen.overflow := by rw [hb]
  refine ⟨?_, ?_, ?_, ?_, ?_, ?_, ?_, ?_⟩
  · rw [hkeep.1]
    exact hhost
  · rw [hkeep.1]
    exact hfield
  · rw [hkeep.1, hb, hcrumbs]
    exact h.cookies
  · rw [hkeep.1, hb, hcrumbs]
    exact h.firstCookie
  · rw [hkeep.1, hb, hcrumbs, hkeep.2, hcookie]
    exact h.join
  · rw [slotCount_keep fs n v hp hc]
    exact addHeader_overflow h hbo hr
  · intro ho
    obtain ⟨hbefore, heq⟩ := addHeader_headers ho
    rw [heq, otherFields_keep fs n v hp hc, List.filter_append, hr, h.others (hbo.symm.trans hbefore)]
    simp [hc]
  · intro ho
    obtain ⟨hbefore, heq⟩ := addHeader_headers ho
    rw [heq, hcrumbs, List.filter_append, hr, h.crumb (hbo.symm.trans hbefore)]
    simp [hc]

/-- One more crumb at the end of a join. -/
theorem intercalate_concat (sep : Bytes) (h : vs ≠ []) (v : Bytes) :
    sep.intercalate (vs ++ [v]) = sep.intercalate vs ++ sep ++ v := by
  induction vs with
  | nil => exact absurd rfl h
  | cons w ws ih =>
    rw [List.cons_append, List.intercalate_cons_of_ne_nil (by simp)]
    by_cases hw : ws = []
    · subst hw
      rw [List.nil_append, List.intercalate_singleton, List.intercalate_singleton]
    rw [ih hw, List.intercalate_cons_of_ne_nil hw]
    simp only [List.append_assoc]

/-- A crumb: the first one takes a slot, the others go behind it. -/
theorem FieldsNoted.sinkCookie (h : FieldsNoted fs a) :
    FieldsNoted (fs ++ [(bytes "cookie", v)]) (a.sinkCookie (bytes "cookie") v) := by
  have hhost := valuesOf_other fs (bytes "cookie") v (bytes "host") (by decide)
  have hcrumbs := valuesOf_same fs (bytes "cookie") v
  have hother := otherFields_skip fs (bytes "cookie") v (.inr rfl)
  have hslot := slotCount_cookie fs v
  have hcount := h.cookies
  unfold Assembly.sinkCookie
  cases hvs : valuesOf (bytes "cookie") fs with
  | nil =>
    rw [hvs] at hcount hcrumbs hslot
    simp only [List.length_nil] at hcount
    rw [if_neg (by omega)]
    rw [if_pos rfl] at hslot
    generalize hb : ({ a with seen := { a.seen with cookies := a.seen.cookies + 1, firstCookie := v } } : Assembly) = b
    have hbo : b.seen.overflow = a.seen.overflow := by rw [← hb]
    have hbr : b.req = a.req := by rw [← hb]
    have hkeep : (b.addHeader (bytes "cookie") v).seen
        = { b.seen with overflow := (b.addHeader (bytes "cookie") v).seen.overflow } := by
      unfold Assembly.addHeader
      split <;> rfl
    refine ⟨?_, ?_, ?_, ?_, ?_, ?_, ?_, ?_⟩
    · rw [hkeep, hhost, ← hb]
      exact h.host
    · rw [hkeep, hhost, ← hb]
      exact h.hostField
    · rw [hkeep, hcrumbs, ← hb]
      show a.seen.cookies + 1 = 1
      omega
    · intro w hw
      rw [hcrumbs] at hw
      rw [hkeep, ← hb]
      exact Option.some.inj hw
    · intro hlt
      rw [hkeep, ← hb] at hlt
      have : 1 < a.seen.cookies + 1 := hlt
      omega
    · rw [hslot]
      exact addHeader_overflow h hbo hbr
    · intro ho
      obtain ⟨hbefore, heq⟩ := addHeader_headers ho
      rw [heq, hother, List.filter_append, hbr, h.others (hbo.symm.trans hbefore)]
      simp
    · intro ho
      obtain ⟨hbefore, heq⟩ := addHeader_headers ho
      rw [heq, hcrumbs, List.filter_append, hbr, h.crumb (hbo.symm.trans hbefore), hvs]
      simp
  | cons w ws =>
    rw [hvs] at hcount hcrumbs hslot
    simp only [List.length_cons] at hcount
    rw [if_pos (by omega)]
    rw [if_neg (by simp)] at hslot
    refine ⟨?_, ?_, ?_, ?_, ?_, ?_, ?_, ?_⟩
    · rw [hhost]
      exact h.host
    · rw [hhost]
      exact h.hostField
    · rw [hcrumbs, hcount]
      simp
    · intro x hx
      rw [hcrumbs] at hx
      exact h.firstCookie x (by rw [hvs]; exact hx)
    · intro _
      show (if a.seen.cookies + 1 = 2 then a.seen.firstCookie else a.cookie) ++ bytes "; " ++ v = _
      rw [hcrumbs, intercalate_concat _ (by simp)]
      congr 2
      cases ws with
      | nil =>
        rw [if_pos (by rw [hcount]; rfl), h.firstCookie w (by rw [hvs]; rfl), List.intercalate_singleton]
      | cons x xs =>
        rw [if_neg (by rw [hcount, List.length_cons]; omega), h.join (by rw [hcount, List.length_cons]; omega), hvs]
    · rw [hslot]
      exact h.overflow
    · rw [hother]
      exact h.others
    · intro ho
      rw [hcrumbs]
      have hcrumb := h.crumb ho
      rw [hvs] at hcrumb
      simpa using hcrumb

theorem lastOf_valuesOf (fs : List Field) (n v name : Bytes) :
    lastOf (valuesOf name (fs ++ [(n, v)])) = if n = name then v else lastOf (valuesOf name fs) := by
  by_cases hn : n = name
  · subst hn
    rw [if_pos rfl, valuesOf_same, lastOf_append]
  · rw [if_neg hn, valuesOf_other fs n v name hn]

/-- One of the four is noted in its slot. -/
theorem PseudoNoted.set (h : PseudoNoted fs a.seen) {seen : RequestSeen}
    (hm : seen.method = if n = bytes ":method" then v else a.seen.method)
    (hs : seen.scheme = if n = bytes ":scheme" then v else a.seen.scheme)
    (hp : seen.path = if n = bytes ":path" then v else a.seen.path)
    (ha : seen.authority = if n = bytes ":authority" then v else a.seen.authority)
    (hbit : seen.pseudo &&& 8 ≠ 0 ↔ n = bytes ":authority" ∨ a.seen.pseudo &&& 8 ≠ 0) :
    PseudoNoted (fs ++ [(n, v)]) seen := by
  refine ⟨?_, ?_, ?_, ?_, ?_⟩
  · rw [hm, lastOf_valuesOf, h.method]
  · rw [hs, lastOf_valuesOf, h.scheme]
  · rw [hp, lastOf_valuesOf, h.path]
  · rw [ha, lastOf_valuesOf, h.authority]
  · rw [hbit, h.pseudo]
    by_cases hn : n = bytes ":authority"
    · subst hn
      rw [valuesOf_same]
      simp
    · rw [valuesOf_other fs n v _ hn]
      simp [hn]

/-! ## §4. What the sink finds bad. -/

/-- The sink finds nothing bad: the rules for each field, and a second value of a pseudo-header that
must be there only after empty ones. -/
structure Admitted (fs : List Field) : Prop where
  orderly : Orderly fs
  first : ∀ name ∈ required, ∀ v ∈ (valuesOf name fs).dropLast, v = []

/-- A field the sink takes after `fs`. -/
def Next (fs : List Field) (n v : Bytes) : Prop :=
  if pseudoName n then
    (∀ f ∈ fs, pseudoName f.1 = true) ∧
      (n ∈ required ∧ lastOf (valuesOf n fs) = [] ∨ n = bytes ":authority" ∧ valuesOf n fs = [])
  else Passes (n, v) ∧ (n = bytes "host" → valuesOf n fs = [])

/-- A bit beside the one of `:authority`. -/
theorem or_and_eight (x : Nat) {k : Nat} (hk : k &&& 8 = 0) : (x ||| k) &&& 8 = x &&& 8 := by
  rw [Nat.and_or_distrib_right, hk, Nat.or_zero]

theorem noted_regular (h : Noted fs a) : a.seen.regular = true ↔ ¬∀ f ∈ fs, pseudoName f.1 = true := by
  rw [h.regular, List.any_eq_true]
  push Not
  simp

/-- A field with a bad section before it, or a rule broken, leaves it bad. -/
theorem sinkEvery_bad (hb : a.seen.bad = true) : (a.sinkEvery n v).seen.bad = true := by
  have hadd : ∀ (b : Assembly) (n v : Bytes), b.seen.bad = true → (b.addHeader n v).seen.bad = true := by
    intro b n v h
    unfold Assembly.addHeader
    split <;> exact h
  unfold Assembly.sinkEvery
  split
  · unfold Assembly.sinkPseudo
    repeat' split
    all_goals first | exact hb | rfl
  · split
    · rfl
    unfold Assembly.keep Assembly.sinkCookie
    dsimp only
    repeat' split
    all_goals first | exact hb | rfl | exact hadd _ _ _ hb

/-- The pseudo-headers. -/
theorem sinkPseudo_spec (h : Noted fs a) (hb : a.seen.bad = false) (hp : pseudoName n = true) :
    (Next fs n v → (a.sinkPseudo n v).seen.bad = false ∧ Noted (fs ++ [(n, v)]) (a.sinkPseudo n v)) ∧
      (¬Next fs n v → (a.sinkPseudo n v).seen.bad = true) := by
  unfold Next
  rw [if_pos hp]
  -- a slot of a pseudo-header is written, the rest of the notes stand
  have hset : ∀ seen : RequestSeen, PseudoNoted (fs ++ [(n, v)]) seen →
      seen = { a.seen with
        method := seen.method, scheme := seen.scheme, path := seen.path, authority := seen.authority,
        pseudo := seen.pseudo } →
      Noted (fs ++ [(n, v)]) { a with seen := seen } := by
    intro seen hn hs
    refine ⟨?_, hn, ?_⟩
    · rw [hs, List.any_append]
      rw [h.regular]
      simp [hp]
    · have hf := h.fields.pseudo (v := v) hp
      rw [hs]
      exact ⟨hf.host, hf.hostField, hf.cookies, hf.firstCookie, hf.join, hf.overflow, hf.others, hf.crumb⟩
  unfold Assembly.sinkPseudo
  by_cases hreg : a.seen.regular = true
  · rw [if_pos hreg]
    have hno := (noted_regular h).mp hreg
    exact ⟨fun hnext => absurd hnext.1 hno, fun _ => rfl⟩
  rw [if_neg hreg]
  have hall : ∀ f ∈ fs, pseudoName f.1 = true := by
    by_contra hno
    exact hreg ((noted_regular h).mpr hno)
  by_cases hm : n = bytes ":method"
  · subst hm
    rw [if_pos rfl, ← h.pseudo.method]
    by_cases he : a.seen.method = []
    · rw [if_neg (by simp [he])]
      refine ⟨fun _ => ⟨hb, hset _ (h.pseudo.set rfl rfl rfl rfl ?_) rfl⟩,
        fun hno => absurd ⟨hall, .inl ⟨by decide, he⟩⟩ hno⟩
      rw [or_and_eight _ (by decide)]
      exact ⟨.inr, fun hor => hor.resolve_left (by decide)⟩
    · rw [if_pos (by simp [he])]
      refine ⟨fun hnext => ?_, fun _ => rfl⟩
      rcases hnext.2 with ⟨-, hempty⟩ | ⟨hauth, -⟩
      · exact absurd hempty he
      · cases hauth
  rw [if_neg hm]
  by_cases hs : n = bytes ":scheme"
  · subst hs
    rw [if_pos rfl, ← h.pseudo.scheme]
    by_cases he : a.seen.scheme = []
    · rw [if_neg (by simp [he])]
      refine ⟨fun _ => ⟨hb, hset _ (h.pseudo.set rfl rfl rfl rfl ?_) rfl⟩,
        fun hno => absurd ⟨hall, .inl ⟨by decide, he⟩⟩ hno⟩
      rw [or_and_eight _ (by decide)]
      exact ⟨.inr, fun hor => hor.resolve_left (by decide)⟩
    · rw [if_pos (by simp [he])]
      refine ⟨fun hnext => ?_, fun _ => rfl⟩
      rcases hnext.2 with ⟨-, hempty⟩ | ⟨hauth, -⟩
      · exact absurd hempty he
      · cases hauth
  rw [if_neg hs]
  by_cases hpath : n = bytes ":path"
  · subst hpath
    rw [if_pos rfl, ← h.pseudo.path]
    by_cases he : a.seen.path = []
    · rw [if_neg (by simp [he])]
      refine ⟨fun _ => ⟨hb, hset _ (h.pseudo.set rfl rfl rfl rfl ?_) rfl⟩,
        fun hno => absurd ⟨hall, .inl ⟨by decide, he⟩⟩ hno⟩
      rw [or_and_eight _ (by decide)]
      exact ⟨.inr, fun hor => hor.resolve_left (by decide)⟩
    · rw [if_pos (by simp [he])]
      refine ⟨fun hnext => ?_, fun _ => rfl⟩
      rcases hnext.2 with ⟨-, hempty⟩ | ⟨hauth, -⟩
      · exact absurd hempty he
      · cases hauth
  rw [if_neg hpath]
  have hnot : n ∉ required := by simp [required, hm, hs, hpath]
  by_cases hauth : n = bytes ":authority"
  · subst hauth
    rw [if_pos rfl]
    by_cases he : valuesOf (bytes ":authority") fs = []
    · have hslot : a.seen.authority = [] := by rw [h.pseudo.authority, he]; rfl
      have hbit : a.seen.pseudo &&& 8 = 0 := by
        by_contra hne
        exact absurd he (h.pseudo.pseudo.mp hne)
      rw [if_neg (by simp [hslot, hbit])]
      refine ⟨fun _ => ⟨hb, hset _ (h.pseudo.set rfl rfl rfl rfl ?_) rfl⟩,
        fun hno => absurd ⟨hall, .inr ⟨rfl, he⟩⟩ hno⟩
      refine ⟨fun _ => .inl rfl, fun _ => ?_⟩
      rw [Nat.and_or_distrib_right, hbit]
      decide
    · rw [if_pos (by simp [h.pseudo.pseudo.mpr he])]
      refine ⟨fun hnext => ?_, fun _ => rfl⟩
      rcases hnext.2 with ⟨hreq, -⟩ | ⟨-, hempty⟩
      · exact absurd hreq hnot
      · exact absurd hempty he
  · rw [if_neg hauth]
    refine ⟨fun hnext => ?_, fun _ => rfl⟩
    rcases hnext.2 with ⟨hreq, -⟩ | ⟨ha, -⟩
    · exact absurd hreq hnot
    · exact absurd ha hauth

theorem addHeader_notes (b : Assembly) (n v : Bytes) :
    (b.addHeader n v).seen = { b.seen with overflow := (b.addHeader n v).seen.overflow } := by
  unfold Assembly.addHeader
  split <;> rfl

/-- A field whose rules have passed. -/
theorem keep_spec (h : Noted fs a) (hb : a.seen.bad = false) (hp : pseudoName n = false)
    (hreg : b = { a with seen := { a.seen with regular := true } }) :
    ((n = bytes "host" → valuesOf n fs = []) →
      (b.keep n v).seen.bad = false ∧ Noted (fs ++ [(n, v)]) (b.keep n v)) ∧
      (¬(n = bytes "host" → valuesOf n fs = []) → (b.keep n v).seen.bad = true) := by
  have hany : (true : Bool) = (fs ++ [(n, v)]).any fun f => !pseudoName f.1 := by
    simp [hp]
  have hpn : PseudoNoted (fs ++ [(n, v)]) a.seen := h.pseudo.regular hp
  have hf : FieldsNoted fs b := by
    rw [hreg]
    exact ⟨h.fields.host, h.fields.hostField, h.fields.cookies, h.fields.firstCookie, h.fields.join,
      h.fields.overflow, h.fields.others, h.fields.crumb⟩
  -- a header added keeps the notes on the pseudo-headers
  have hadd : ∀ c : Assembly, c.seen.bad = false → c.seen.regular = true → PseudoNoted (fs ++ [(n, v)]) c.seen →
      FieldsNoted (fs ++ [(n, v)]) (c.addHeader n v) →
      (c.addHeader n v).seen.bad = false ∧ Noted (fs ++ [(n, v)]) (c.addHeader n v) := by
    intro c hc hr hcp hcf
    have hn := addHeader_notes c n v
    refine ⟨by rw [hn]; exact hc, ?_, ?_, hcf⟩
    · rw [hn, ← hany]
      exact hr
    · rw [hn]
      exact ⟨hcp.method, hcp.scheme, hcp.path, hcp.authority, hcp.pseudo⟩
  unfold Assembly.keep
  by_cases hh : n = bytes "host"
  · subst hh
    rw [if_pos rfl]
    by_cases he : valuesOf (bytes "host") fs = []
    · have hfield : b.seen.hostField = false := by
        cases hx : b.seen.hostField with
        | false => rfl
        | true => exact absurd he (hf.hostField.mp hx)
      rw [if_neg (by simp [hfield])]
      refine ⟨fun _ => hadd _ (by rw [hreg]; exact hb) (by rw [hreg]) ?_ ?_, fun hno => absurd (fun _ => he) hno⟩
      · rw [hreg]
        exact ⟨hpn.method, hpn.scheme, hpn.path, hpn.authority, hpn.pseudo⟩
      · refine hf.add hp (by decide) rfl rfl rfl ?_ ?_
        · rw [lastOf_valuesOf, if_pos rfl]
        · rw [valuesOf_same]
          simp
    · rw [if_pos (hf.hostField.mpr he)]
      exact ⟨fun hnone => absurd (hnone rfl) he, fun _ => rfl⟩
  · rw [if_neg hh]
    refine ⟨fun _ => ?_, fun hno => absurd (fun he => absurd he hh) hno⟩
    by_cases hc : n = bytes "cookie"
    · subst hc
      rw [if_pos rfl]
      have hcf : FieldsNoted (fs ++ [(bytes "cookie", v)]) (b.sinkCookie (bytes "cookie") v) := hf.sinkCookie
      unfold Assembly.sinkCookie at hcf ⊢
      dsimp only at hcf ⊢
      split at hcf
      · next hmore =>
        rw [if_pos hmore]
        refine ⟨by rw [hreg]; exact hb, ?_, ?_, hcf⟩
        · rw [hreg]
          exact hany
        · rw [hreg]
          exact ⟨hpn.method, hpn.scheme, hpn.path, hpn.authority, hpn.pseudo⟩
      · next hfirst =>
        rw [if_neg hfirst]
        refine hadd _ (by rw [hreg]; exact hb) (by rw [hreg]) ?_ hcf
        rw [hreg]
        exact ⟨hpn.method, hpn.scheme, hpn.path, hpn.authority, hpn.pseudo⟩
    · rw [if_neg hc]
      refine hadd b (by rw [hreg]; exact hb) (by rw [hreg]) ?_ ?_
      · rw [hreg]
        exact ⟨hpn.method, hpn.scheme, hpn.path, hpn.authority, hpn.pseudo⟩
      · refine hf.add hp hc rfl rfl rfl ?_ ?_
        · rw [valuesOf_other fs n v _ hh]
          exact hf.host
        · rw [valuesOf_other fs n v _ hh]
          exact hf.hostField

/-- One field: taken and noted, or found bad. -/
theorem sinkEvery_spec (h : Noted fs a) (hb : a.seen.bad = false) :
    (Next fs n v → (a.sinkEvery n v).seen.bad = false ∧ Noted (fs ++ [(n, v)]) (a.sinkEvery n v)) ∧
      (¬Next fs n v → (a.sinkEvery n v).seen.bad = true) := by
  cases hp : pseudoName n with
  | true =>
    unfold Assembly.sinkEvery
    rw [if_pos hp]
    exact sinkPseudo_spec h hb hp
  | false =>
    unfold Assembly.sinkEvery Next
    rw [if_neg (by simp [hp]), if_neg (by simp [hp])]
    cases hr : brokenRule false n v with
    | some reason =>
      refine ⟨fun hnext => ?_, fun _ => rfl⟩
      have hpass : brokenRule false n v = none := hnext.1
      rw [hr] at hpass
      cases hpass
    | none =>
      obtain ⟨hyes, hno⟩ := keep_spec (v := v) h hb hp rfl
      exact ⟨fun hnext => hyes hnext.2, fun hnext => hno fun hh => hnext ⟨hr, hh⟩⟩

/-- Some values are all empty when the last one and those before it are. -/
theorem all_empty_iff (vs : List Bytes) : (∀ v ∈ vs, v = []) ↔ (∀ v ∈ vs.dropLast, v = []) ∧ lastOf vs = [] := by
  induction vs using List.reverseRecOn with
  | nil => simp [lastOf]
  | append_singleton vs v _ =>
    rw [List.dropLast_concat, lastOf_append]
    simp [or_imp, forall_and]

/-- A name that occurs at most once, with one more field. -/
theorem once_append (name : Bytes) : (valuesOf name (fs ++ [(n, v)])).length ≤ 1 ↔
      (valuesOf name fs).length ≤ 1 ∧ (n = name → valuesOf name fs = []) := by
  by_cases hn : n = name
  · subst hn
    rw [valuesOf_same, List.length_append, List.length_singleton]
    constructor
    · intro h
      have hzero : (valuesOf n fs).length = 0 := by omega
      exact ⟨by omega, fun _ => List.length_eq_zero_iff.mp hzero⟩
    · rintro ⟨-, h⟩
      rw [h rfl]
      simp
  · rw [valuesOf_other fs n v name hn]
    exact ⟨fun h => ⟨h, fun he => absurd he hn⟩, And.left⟩

/-- Only empty values before the last one, with one more field. -/
theorem first_append (name : Bytes) : (∀ w ∈ (valuesOf name (fs ++ [(n, v)])).dropLast, w = []) ↔
      (∀ w ∈ (valuesOf name fs).dropLast, w = []) ∧ (n = name → lastOf (valuesOf name fs) = []) := by
  by_cases hn : n = name
  · subst hn
    rw [valuesOf_same, List.dropLast_concat, all_empty_iff]
    exact ⟨fun h => ⟨h.1, fun _ => h.2⟩, fun h => ⟨h.1, h.2 rfl⟩⟩
  · rw [valuesOf_other fs n v name hn]
    exact ⟨fun h => ⟨h, fun he => absurd he hn⟩, And.left⟩

/-- The rules on a section with one more field. -/
theorem admitted_append : Admitted (fs ++ [(n, v)]) ↔ Admitted fs ∧ Next fs n v := by
  have hsplit : n ∈ requestPseudo ↔ n ∈ required ∨ n = bytes ":authority" := by
    simp [requestPseudo, required, or_assoc]
  constructor
  · rintro ⟨⟨horder, hknown, hpasses, hauth, hhost⟩, hfirst⟩
    rw [List.pairwise_append] at horder
    rw [once_append] at hauth hhost
    have hold : Admitted fs :=
      ⟨⟨horder.1, fun f hf => hknown f (List.mem_append_left _ hf), fun f hf => hpasses f (List.mem_append_left _ hf),
        hauth.1, hhost.1⟩, fun name hname => (first_append name).mp (hfirst name hname) |>.1⟩
    refine ⟨hold, ?_⟩
    unfold Next
    split
    · next hp =>
      refine ⟨fun f hf => horder.2.2 f hf (n, v) (by simp) hp, ?_⟩
      rcases hsplit.mp (hknown (n, v) (by simp) hp) with hreq | ha
      · exact .inl ⟨hreq, ((first_append n).mp (hfirst n hreq)).2 rfl⟩
      refine .inr ⟨ha, ?_⟩
      rw [ha]
      exact hauth.2 ha
    · next hp =>
      refine ⟨hpasses (n, v) (by simp) (by simpa using hp), fun hh => ?_⟩
      rw [hh]
      exact hhost.2 hh
  · rintro ⟨⟨⟨horder, hknown, hpasses, hauth, hhost⟩, hfirst⟩, hnext⟩
    unfold Next at hnext
    have hmem : ∀ {P : Field → Prop}, (∀ f ∈ fs, P f) → P (n, v) → ∀ f ∈ fs ++ [(n, v)], P f := by
      intro P hall hnew f hf
      rcases List.mem_append.mp hf with hf | hf
      · exact hall f hf
      · exact List.mem_singleton.mp hf ▸ hnew
    refine ⟨⟨?_, hmem hknown ?_, hmem hpasses ?_, (once_append _).mpr ⟨hauth, ?_⟩,
      (once_append _).mpr ⟨hhost, ?_⟩⟩, fun name hname => (first_append name).mpr ⟨hfirst name hname, ?_⟩⟩
    · rw [List.pairwise_append]
      refine ⟨horder, (by simp), fun f hf g hg hp => ?_⟩
      rw [List.mem_singleton.mp hg] at hp
      rw [if_pos hp] at hnext
      exact hnext.1 f hf
    · intro hp
      rw [if_pos hp] at hnext
      exact hsplit.mpr (hnext.2.imp And.left And.left)
    · intro hp
      rw [if_neg (by rw [hp]; simp)] at hnext
      exact hnext.1
    · rintro rfl
      rw [if_pos (by decide)] at hnext
      rcases hnext.2 with ⟨hreq, -⟩ | ⟨-, hnone⟩
      · exact absurd hreq (by decide)
      · exact hnone
    · rintro rfl
      rw [if_neg (by decide)] at hnext
      exact hnext.2 rfl
    · rintro rfl
      have hp : pseudoName n = true := by
        have : ∀ name ∈ required, pseudoName name = true := by decide
        exact this n hname
      rw [if_pos hp] at hnext
      rcases hnext.2 with ⟨-, hempty⟩ | ⟨ha, -⟩
      · exact hempty
      rw [ha] at hname
      exact absurd hname (by decide)

/-- The sink over the names and values of a section. -/
def sinkAll (fs : List Field) : Assembly := fs.foldl (fun a f => a.sinkEvery f.1 f.2) {}

/-- **What the sink makes of a section.** -/
theorem sinkAll_spec (fs : List Field) :
    (Admitted fs → (sinkAll fs).seen.bad = false ∧ Noted fs (sinkAll fs)) ∧
      (¬Admitted fs → (sinkAll fs).seen.bad = true) := by
  induction fs using List.reverseRecOn with
  | nil =>
    refine ⟨fun _ => ⟨rfl, noted_nil⟩, fun h => absurd ?_ h⟩
    exact ⟨⟨List.Pairwise.nil, nofun, nofun, Nat.zero_le _, Nat.zero_le _⟩, fun _ _ _ h => by cases h⟩
  | append_singleton fs f ih =>
    obtain ⟨n, v⟩ := f
    have hone : sinkAll (fs ++ [(n, v)]) = (sinkAll fs).sinkEvery n v := by
      unfold sinkAll
      rw [List.foldl_append]
      rfl
    rw [hone, admitted_append]
    by_cases hfs : Admitted fs
    · obtain ⟨hb, hn⟩ := ih.1 hfs
      obtain ⟨hyes, hno⟩ := sinkEvery_spec (v := v) (n := n) hn hb
      exact ⟨fun h => hyes h.2, fun h => hno fun hnext => h ⟨hfs, hnext⟩⟩
    · exact ⟨fun h => absurd h.1 hfs, fun _ => sinkEvery_bad (ih.2 hfs)⟩

/-! ## §5. The end of the section. -/

/-- The rules on the whole section, from the sink's notes. -/
theorem incomplete_iff (seen : RequestSeen) :
    seen.incomplete = none ↔ (seen.method ≠ [] ∧ seen.scheme ≠ []) ∧ seen.path ≠ [] ∧
      (if seen.path = bytes "*" then seen.method = bytes "OPTIONS" else seen.path.head? = some 0x2f) ∧
      (seen.authority ≠ [] ∨ seen.host ≠ []) ∧
      (seen.authority ≠ [] → seen.host ≠ [] → seen.authority = seen.host) := by
  unfold RequestSeen.incomplete
  by_cases hparts : seen.method.isEmpty || seen.scheme.isEmpty || seen.path.isEmpty
  · rw [if_pos hparts]
    simp only [Bool.or_eq_true, List.isEmpty_iff] at hparts
    refine ⟨(nofun), fun h => ?_⟩
    rcases hparts with (hm | hs) | hp
    · exact absurd hm h.1.1
    · exact absurd hs h.1.2
    · exact absurd hp h.2.1
  rw [if_neg hparts]
  simp only [Bool.or_eq_true, List.isEmpty_iff, not_or] at hparts
  by_cases htarget : (if seen.path = bytes "*" then seen.method ≠ bytes "OPTIONS" else seen.path.head? ≠ some 0x2f)
  · rw [if_pos htarget]
    refine ⟨(nofun), fun h => ?_⟩
    have hpos := h.2.2.1
    split at htarget
    · next hstar => exact absurd (by simpa [hstar] using hpos) htarget
    · next hstar => exact absurd (by simpa [hstar] using hpos) htarget
  rw [if_neg htarget]
  have htarget' : if seen.path = bytes "*" then seen.method = bytes "OPTIONS" else seen.path.head? = some 0x2f := by
    split
    · next hstar =>
      rw [if_pos hstar] at htarget
      exact not_not.mp htarget
    · next hstar =>
      rw [if_neg hstar] at htarget
      exact not_not.mp htarget
  by_cases hnone : seen.authority = []
  · by_cases hhost : seen.host = []
    · rw [if_pos (by simp [hnone, hhost])]
      refine ⟨(nofun), fun h => ?_⟩
      rcases h.2.2.2.1 with ha | hh
      · exact absurd hnone ha
      · exact absurd hhost hh
    · rw [if_neg (by simp [hhost]), if_neg (by simp [hnone])]
      exact ⟨fun _ => ⟨hparts.1, hparts.2, htarget', .inr hhost, fun ha => absurd hnone ha⟩, fun _ => rfl⟩
  · rw [if_neg (by simp [hnone])]
    by_cases hdiffer : seen.host ≠ [] ∧ seen.authority ≠ seen.host
    · rw [if_pos (by simp [hnone, hdiffer.1, hdiffer.2])]
      exact ⟨(nofun), fun h => absurd (h.2.2.2.2 hnone hdiffer.1) hdiffer.2⟩
    rw [if_neg (by
      intro hd
      simp only [Bool.and_eq_true, Bool.not_eq_eq_eq_not, Bool.not_true, List.isEmpty_eq_false_iff,
        decide_eq_true_eq] at hd
      exact hdiffer ⟨hd.1.2, hd.2⟩)]
    refine ⟨fun _ => ⟨hparts.1, hparts.2, htarget', .inl hnone, fun _ hh => ?_⟩, fun _ => rfl⟩
    by_contra hne
    exact hdiffer ⟨hh, hne⟩

/-- The content-lengths of the fields are numbers. -/
theorem interest_ok (hs : List Field) (req : Request) (length : Option Nat) :
    (interest hs req length).1 = .ok ↔
      ∀ v ∈ valuesOf (bytes "content-length") hs, (lengthOf v).isSome = true := by
  have hskip : ∀ (n v : Bytes) (fs : List Field), n ≠ bytes "content-length" →
      valuesOf (bytes "content-length") ((n, v) :: fs) = valuesOf (bytes "content-length") fs := by
    intro n v fs hn
    simp [valuesOf, hn]
  have hcons : ∀ (v : Bytes) (fs : List Field), valuesOf (bytes "content-length") ((bytes "content-length", v) :: fs)
      = v :: valuesOf (bytes "content-length") fs := by
    intro v fs
    simp [valuesOf]
  fun_induction interest hs req length with
  | case1 => simp [valuesOf]
  | case2 fs req length v ih => rw [hskip _ _ _ (by decide)]; exact ih
  | case3 fs req length v _ ih => rw [hskip _ _ _ (by decide)]; exact ih
  | case4 fs req length v _ _ ih => rw [hskip _ _ _ (by decide)]; exact ih
  | case5 fs req length v _ _ _ ih => rw [hskip _ _ _ (by decide)]; exact ih
  | case6 fs req length v _ _ _ _ ih => rw [hskip _ _ _ (by decide)]; exact ih
  | case7 v fs req length hbad _ _ _ _ _ =>
    rw [hcons]
    have : lengthOf v = none := if_pos hbad
    simp [this]
  | case8 v fs req length hfine hnone _ _ _ _ _ =>
    rw [hcons]
    have : lengthOf v = none := (if_neg hfine).trans hnone
    simp [this]
  | case9 v fs req length hfine k hk _ _ _ _ _ ih =>
    rw [hcons]
    have : lengthOf v = some k := (if_neg hfine).trans hk
    simp [this, ih]
  | case10 fs req length n v _ _ _ _ _ hn ih => rw [hskip _ _ _ hn]; exact ih

/-- What `finish_request` needs to answer ok. -/
theorem finish_ok_iff (protocol : Bytes) :
    (finishRequest a protocol).1 = .ok ↔ a.seen.bad = false ∧ a.seen.incomplete = none ∧
      ∀ v ∈ valuesOf (bytes "content-length") (Proxy.Assembly.finished a), (lengthOf v).isSome = true := by
  unfold finishRequest
  by_cases hb : a.seen.bad = true
  · rw [if_pos hb, if_pos hb]
    exact ⟨(nofun), fun h => absurd hb (by rw [h.1]; simp)⟩
  rw [if_neg hb]
  have hgood : a.seen.bad = false := by simpa using hb
  cases hinc : a.seen.incomplete with
  | some reason =>
    rw [if_pos rfl]
    exact ⟨(nofun), fun h => by cases h.2.1⟩
  | none =>
    rw [if_neg hb, interest_ok]
    exact ⟨fun h => ⟨hgood, rfl, h⟩, fun h => h.2.2⟩

/-- The join changes no other field. -/
theorem filter_joinCookie (cookie : Bytes) (hs : List Field) :
    (joinCookie cookie hs).filter (·.1 ≠ bytes "cookie") = hs.filter (·.1 ≠ bytes "cookie") := by
  induction hs with
  | nil => rfl
  | cons f fs ih =>
    unfold joinCookie
    split
    · next hf => simp [hf]
    · rw [List.filter_cons, List.filter_cons, ih]

/-- …and puts the joined crumbs into their one slot. -/
theorem filter_cookie_join (cookie v : Bytes) {hs : List Field}
    (h : hs.filter (·.1 = bytes "cookie") = [(bytes "cookie", v)]) :
    (joinCookie cookie hs).filter (·.1 = bytes "cookie") = [(bytes "cookie", cookie)] := by
  induction hs with
  | nil => cases h
  | cons f fs ih =>
    rw [List.filter_cons] at h
    unfold joinCookie
    by_cases hf : f.1 = bytes "cookie"
    · rw [if_pos (by simpa using hf)] at h
      rw [if_pos hf, List.filter_cons, if_pos (by simpa using hf), hf]
      congr 1
      exact (List.cons.inj h).2
    · rw [if_neg (by simpa using hf)] at h
      rw [if_neg hf, List.filter_cons, if_neg (by simpa using hf)]
      exact ih h

/-- The joined fields. -/
theorem FieldsNoted.joined (h : FieldsNoted fs a) (ho : a.seen.overflow = false) :
    (Proxy.Assembly.joined a).filter (·.1 ≠ bytes "cookie") = otherFields fs ∧
      (Proxy.Assembly.joined a).filter (·.1 = bytes "cookie")
        = (if valuesOf (bytes "cookie") fs = [] then []
           else [(bytes "cookie", (bytes "; ").intercalate (valuesOf (bytes "cookie") fs))]) ∧
      (Proxy.Assembly.joined a).length = slotCount fs := by
  have hothers := h.others ho
  have hcrumb := h.crumb ho
  have hlen := h.length ho
  have hcount := h.cookies
  unfold Proxy.Assembly.joined
  by_cases hmany : a.seen.cookies > 1
  · rw [if_pos hmany]
    have hjoin := h.join hmany
    cases hvs : valuesOf (bytes "cookie") fs with
    | nil =>
      rw [hvs] at hcount
      rw [hcount] at hmany
      cases hmany
    | cons v vs =>
      rw [hvs] at hcrumb hjoin
      refine ⟨(filter_joinCookie ..).trans hothers, ?_, ?_⟩
      · rw [if_neg (by simp), ← hjoin]
        exact filter_cookie_join a.cookie v (by simpa using hcrumb)
      · rw [← hlen]
        simpa using congrArg List.length (Proxy.map_fst_joinCookie a.cookie a.req.headers)
  · rw [if_neg hmany]
    refine ⟨hothers, ?_, hlen⟩
    rw [hcrumb]
    match hvs : valuesOf (bytes "cookie") fs with
    | [] => rfl
    | [v] => rw [if_neg (by simp), List.intercalate_singleton]; rfl
    | v :: w :: vs =>
      rw [hvs, List.length_cons, List.length_cons] at hcount
      omega

/-- The fields a handler finds. -/
theorem FieldsNoted.finished (h : FieldsNoted fs a) (ho : a.seen.overflow = false) :
    (Proxy.Assembly.finished a).filter (·.1 = bytes "cookie")
        = (if valuesOf (bytes "cookie") fs = [] then []
           else [(bytes "cookie", (bytes "; ").intercalate (valuesOf (bytes "cookie") fs))]) ∧
      (Proxy.Assembly.finished a).filter (·.1 ≠ bytes "cookie") = otherFields fs ++
          (if valuesOf (bytes "host") fs = [] ∧ slotCount fs < kCapacity then
            [(bytes "host", Proxy.RequestSeen.name a.seen)] else []) := by
  obtain ⟨hothers, hcrumb, hlen⟩ := h.joined ho
  have hcond : (!a.seen.hostField && decide ((Proxy.Assembly.joined a).length < kCapacity)) = true ↔
      valuesOf (bytes "host") fs = [] ∧ slotCount fs < kCapacity := by
    rw [hlen]
    have := h.hostField
    cases hf : a.seen.hostField <;> simp_all
  have hne : bytes "host" ≠ bytes "cookie" := by decide
  unfold Proxy.Assembly.finished
  by_cases hadd : valuesOf (bytes "host") fs = [] ∧ slotCount fs < kCapacity
  · rw [if_pos (hcond.mpr hadd), if_pos hadd, List.filter_append, List.filter_append, hothers, hcrumb]
    constructor
    · simp [hne]
    · simp [hne]
  · rw [if_neg (fun hc => hadd (hcond.mp hc)), if_neg hadd, hothers, hcrumb, List.append_nil]
    exact ⟨rfl, rfl⟩

/-- Leaving crumbs and pseudo-headers out leaves the values of another name. -/
theorem valuesOf_filter (name : Bytes) (hn : name ≠ bytes "cookie") (hs : List Field) :
    valuesOf name (hs.filter (·.1 ≠ bytes "cookie")) = valuesOf name hs := by
  unfold valuesOf
  rw [List.filter_filter]
  congr 1
  refine List.filter_congr fun f _ => ?_
  by_cases hf : f.1 = name
  · simp [hf, hn]
  · simp [hf]

theorem valuesOf_otherFields (name : Bytes) (hn : name ≠ bytes "cookie") (hp : pseudoName name = false)
    (fs : List Field) : valuesOf name (otherFields fs) = valuesOf name fs := by
  unfold valuesOf otherFields
  rw [List.filter_filter]
  congr 1
  refine List.filter_congr fun f _ => ?_
  by_cases hf : f.1 = name
  · simp [hf, hn, hp]
  · simp [hf]

/-- The content-lengths of the request are those of the section. -/
theorem FieldsNoted.lengths (h : FieldsNoted fs a) (ho : a.seen.overflow = false) :
    valuesOf (bytes "content-length") (Proxy.Assembly.finished a) = valuesOf (bytes "content-length") fs := by
  rw [← valuesOf_filter _ (by decide), (h.finished ho).2]
  have happend : ∀ xs ys, valuesOf (bytes "content-length") (xs ++ ys)
      = valuesOf (bytes "content-length") xs ++ valuesOf (bytes "content-length") ys := by
    intro xs ys
    simp [valuesOf]
  rw [happend, valuesOf_otherFields _ (by decide) (by decide)]
  have hhost : valuesOf (bytes "content-length") [(bytes "host", Proxy.RequestSeen.name a.seen)] = [] := by
    simp [valuesOf, show bytes "host" ≠ bytes "content-length" by decide]
  split
  · rw [hhost, List.append_nil]
  · exact List.append_nil _

/-! ## §6. Which sections are requests. -/

/-- Values that are empty but for the last one, and not empty but for the last one. -/
theorem single_of (he : ∀ v ∈ vs.dropLast, v = []) (hn : ∀ v ∈ vs.dropLast, v ≠ [])
    (hl : lastOf vs ≠ []) : vs = [lastOf vs] := by
  have hnone : vs.dropLast = [] := by
    refine List.eq_nil_iff_forall_not_mem.mpr fun v hv => ?_
    exact hn v hv (he v hv)
  cases hlast : vs.getLast? with
  | none => exact absurd (by simp [lastOf, hlast]) hl
  | some v =>
    have hsplit := List.dropLast_append_getLast? v hlast
    rw [hnone, List.nil_append] at hsplit
    rw [← hsplit]
    rfl

/-- A value of a name that occurs at most once is the last one. -/
theorem eq_lastOf (h : vs.length ≤ 1) {v : Bytes} (hv : v ∈ vs) : v = lastOf vs := by
  match vs, h with
  | [], _ => cases hv
  | [w], _ => exact List.mem_singleton.mp hv

theorem lastOf_mem (h : lastOf vs ≠ []) : lastOf vs ∈ vs := by
  unfold lastOf at h ⊢
  cases hl : vs.getLast? with
  | none =>
    rw [hl] at h
    exact absurd rfl h
  | some v => exact List.mem_of_getLast? hl

/-- Numbers that never differ are one number. -/
theorem one_number (hok : ∀ v ∈ vs, (lengthOf v).isSome = true)
    (hsame : ∀ v ∈ vs, ∀ w ∈ vs, ∀ j k, lengthOf v = some j → lengthOf w = some k → j = k) :
    ∃ k, ∀ v ∈ vs, lengthOf v = some k := by
  cases vs with
  | nil => exact ⟨0, nofun⟩
  | cons v vs =>
    obtain ⟨k, hk⟩ := Option.isSome_iff_exists.mp (hok v List.mem_cons_self)
    refine ⟨k, fun w hw => ?_⟩
    obtain ⟨j, hj⟩ := Option.isSome_iff_exists.mp (hok w hw)
    rw [hj, hsame w hw v List.mem_cons_self j k hj hk]

/-- An accepted section obeys the rules. -/
theorem accepts_of_ok {protocol : Bytes} (hs : SlipFree fs) (ho : (sinkAll fs).seen.overflow = false)
    (hok : (finishRequest (sinkAll fs) protocol).1 = .ok) : Accepts fs := by
  obtain ⟨hgood, hinc, hlen⟩ := (finish_ok_iff protocol).mp hok
  have hadm : Admitted fs := by
    by_contra hno
    rw [(sinkAll_spec fs).2 hno] at hgood
    cases hgood
  obtain ⟨-, hnoted⟩ := (sinkAll_spec fs).1 hadm
  obtain ⟨⟨hm, hsch⟩, hp, htarget, hname, hagree⟩ := (incomplete_iff _).mp hinc
  rw [hnoted.pseudo.method] at hm
  rw [hnoted.pseudo.scheme] at hsch
  rw [hnoted.pseudo.path] at hp
  rw [hnoted.pseudo.method, hnoted.pseudo.path] at htarget
  rw [hnoted.pseudo.authority, hnoted.fields.host] at hname hagree
  rw [hnoted.fields.lengths ho] at hlen
  -- each of the three occurs once, and not empty
  have hlast : ∀ name ∈ required, lastOf (valuesOf name fs) ≠ [] := by
    intro name hmem
    simp only [required, List.mem_cons, List.not_mem_nil, or_false] at hmem
    rcases hmem with rfl | rfl | rfl
    · exact hm
    · exact hsch
    · exact hp
  have hone : ∀ name ∈ required, valuesOf name fs = [lastOf (valuesOf name fs)] := fun name hmem =>
    single_of (hadm.first name hmem) (hs.first name hmem) (hlast name hmem)
  have horderly := hadm.orderly
  have hvalue : ∀ name ∈ required, ∀ v ∈ valuesOf name fs, v = lastOf (valuesOf name fs) := fun name hmem v hv =>
    eq_lastOf (by rw [hone name hmem]; exact le_rfl) hv
  refine ⟨⟨horderly, fun name hmem => by rw [hone name hmem]; rfl, ?_, one_number hlen hs.lengths⟩, ?_, ?_, ?_, ?_⟩
  · intro x hx y hy hxne hyne
    rw [eq_lastOf horderly.authority hx] at hxne ⊢
    rw [eq_lastOf horderly.host hy] at hyne ⊢
    exact hagree hxne hyne
  · intro name hmem v hv
    rw [hvalue name hmem v hv]
    exact hlast name hmem
  · intro m hmem p hpmem
    rw [hvalue _ (by decide) m hmem, hvalue _ (by decide) p hpmem]
    exact htarget
  · rcases hname with ha | hh
    · exact ⟨_, List.mem_append_left _ (lastOf_mem ha), ha⟩
    · exact ⟨_, List.mem_append_right _ (lastOf_mem hh), hh⟩
  · by_contra hlt
    have := hnoted.fields.overflow.mpr (by omega)
    rw [ho] at this
    cases this

/-- A section that obeys the rules is accepted. -/
theorem ok_of_accepts (protocol : Bytes) (h : Accepts fs) :
    (sinkAll fs).seen.overflow = false ∧ (finishRequest (sinkAll fs) protocol).1 = .ok := by
  have hone : ∀ name ∈ required, valuesOf name fs = [lastOf (valuesOf name fs)] := by
    intro name hmem
    obtain ⟨v, hv⟩ := List.length_eq_one_iff.mp (h.rules.once name hmem)
    rw [hv]
    rfl
  have hlast : ∀ name ∈ required, lastOf (valuesOf name fs) ∈ valuesOf name fs := by
    intro name hmem
    rw [hone name hmem]
    exact List.mem_singleton_self _
  have hadm : Admitted fs := by
    refine ⟨h.rules.orderly, fun name hmem v hv => ?_⟩
    rw [hone name hmem] at hv
    cases hv
  obtain ⟨hgood, hnoted⟩ := (sinkAll_spec fs).1 hadm
  have hover : (sinkAll fs).seen.overflow = false := by
    cases ho : (sinkAll fs).seen.overflow with
    | false => rfl
    | true =>
      have := hnoted.fields.overflow.mp ho
      have := h.fits
      omega
  refine ⟨hover, (finish_ok_iff protocol).mpr ⟨hgood, (incomplete_iff _).mpr ⟨⟨?_, ?_⟩, ?_, ?_, ?_, ?_⟩, ?_⟩⟩
  · rw [hnoted.pseudo.method]
    exact h.present _ (by decide) _ (hlast _ (by decide))
  · rw [hnoted.pseudo.scheme]
    exact h.present _ (by decide) _ (hlast _ (by decide))
  · rw [hnoted.pseudo.path]
    exact h.present _ (by decide) _ (hlast _ (by decide))
  · rw [hnoted.pseudo.method, hnoted.pseudo.path]
    exact h.target _ (hlast _ (by decide)) _ (hlast _ (by decide))
  · obtain ⟨x, hx, hne⟩ := h.named
    rw [hnoted.pseudo.authority, hnoted.fields.host]
    rcases List.mem_append.mp hx with hx | hx
    · rw [eq_lastOf h.rules.orderly.authority hx] at hne
      exact .inl hne
    rw [eq_lastOf h.rules.orderly.host hx] at hne
    exact .inr hne
  · rw [hnoted.pseudo.authority, hnoted.fields.host]
    exact fun ha hh => h.rules.agree _ (lastOf_mem ha) _ (lastOf_mem hh) ha hh
  · obtain ⟨k, hk⟩ := h.rules.length
    rw [hnoted.fields.lengths hover]
    intro v hv
    rw [hk v hv]
    rfl

/-- The name and the value of a decoded field. -/
def pair (f : Sunk) : Field := (f.name, f.value)

/-- Marks and static pairs change nothing. -/
theorem sinkSection_eq (fs : List Sunk) : sinkSection {} fs = sinkAll (fs.map pair) := by
  unfold sinkSection sinkAll
  rw [List.foldl_map]
  congr 1
  funext a f
  exact Assembly.sinkField_eq_sinkEvery f.mark_means f.static_clean

/-- A section becomes a request exactly when it obeys the rules, with all its fields. -/
theorem section_assembled (fs : List Sunk) (protocol : Bytes) (hs : SlipFree (fs.map pair)) :
    ((sinkSection {} fs).seen.overflow = false ∧ (finishRequest (sinkSection {} fs) protocol).1 = .ok ↔
      Accepts (fs.map pair)) ∧
    ((sinkSection {} fs).seen.overflow = false → (finishRequest (sinkSection {} fs) protocol).1 = .ok →
      Delivered (fs.map pair) (finishRequest (sinkSection {} fs) protocol).2.1.req) := by
  rw [sinkSection_eq]
  refine ⟨⟨fun h => accepts_of_ok hs h.1 h.2, ok_of_accepts protocol⟩, fun ho hok => ?_⟩
  have hadm : Admitted (fs.map pair) := by
    by_contra hno
    have hgood := ((finish_ok_iff protocol).mp hok).1
    rw [(sinkAll_spec _).2 hno] at hgood
    cases hgood
  obtain ⟨-, hnoted⟩ := (sinkAll_spec _).1 hadm
  obtain ⟨hcookie, hothers⟩ := hnoted.fields.finished ho
  obtain ⟨-, hheaders, -, -, hhost⟩ := Proxy.finishRequest_ok hok
  exact ⟨by rw [hheaders]; exact hcookie, by rw [hheaders, hhost]; exact hothers⟩

/-- A literal. -/
def literal (name value : String) : Sunk where
  name := bytes name
  value := bytes value
  staticTable := false
  checked := none
  static_clean := by intro h; cases h
  mark_means := by intro h; cases h

/-- A request with its crumbs apart. -/
def crumbled : List Sunk :=
  [literal ":method" "GET", literal ":scheme" "https", literal ":path" "/", literal ":authority" "a",
   literal "cookie" "x=1", literal "accept" "b", literal "cookie" "y=2"]

theorem section_assembled_crumbled :
    Delivered (crumbled.map pair) (finishRequest (sinkSection {} crumbled) (bytes "HTTP/2.0")).2.1.req :=
  (section_assembled crumbled (bytes "HTTP/2.0") ⟨by decide, nofun⟩).2 (by decide) (by decide)

/-- The rules of the protocol alone let a path through that the server refuses. -/
theorem relative_path : ¬∀ (fs : List Sunk) (protocol : Bytes),
      (finishRequest (sinkSection {} fs) protocol).1 = .ok ↔ Rules (fs.map pair) := by
  intro hall
  have hrules : Rules
      ([literal ":method" "GET", literal ":scheme" "https", literal ":path" "x", literal ":authority" "a"].map pair) :=
    ⟨⟨by decide, by decide, by decide, by decide, by decide⟩, by decide, (fun _ _ _ hy => by cases hy), 0, nofun⟩
  cases (hall _ (bytes "HTTP/2.0")).mpr hrules

end Agensio.Http
