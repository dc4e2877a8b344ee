/-
  Agensio.Proxy.Assembled — what is known of a request from HTTP/2 or HTTP/3.

  A field section is a list of decoded fields, each with what the sink is
  told about it; a mark and a static pair mean what `Http.FieldMarks` shows
  they mean.  From the sections that `sink_field` and `finish_request` accept
  follows what the head for an origin relies on: lower-case names, no
  connection-specific field, one cookie and one host at most.

  Main results:
    * `Sunk.section_sound` — the sink keeps the invariant along a section;
    * `accepted_assembled` — the request of an accepted section.
-/
import Agensio.Proxy.Head

namespace Agensio.Proxy

open Agensio.Codec (Field)
open Agensio.Http
open Agensio.Http1 (iequals lower isTchar isToken hostName named values)

/-! ## §1. A decoded section. -/

/-- A decoded field, where it came from and the mark it came with. -/
structure Sunk where
  name : Bytes
  value : Bytes
  staticTable : Bool := false
  checked : Option Bool := none
  static_clean : staticTable = true → Assembly.Clean (name, value)
  mark_means : checked = some true → Passes (name, value)

/-- The sink over a section. -/
def sinkSection (a : Assembly) (fs : List Sunk) : Assembly :=
  fs.foldl (fun a f => (a.sinkField f.name f.value f.staticTable f.checked).1) a

/-- A section and the request `finish_request` makes of it. -/
def assembles (fs : List Sunk) (protocol : Bytes) (req : Http.Request) : Prop :=
  (finishRequest (sinkSection {} fs) protocol).1 = .ok ∧
    (finishRequest (sinkSection {} fs) protocol).2.1.req = req

/-! ## §2. The sink's invariant. -/

/-- What holds of the fields kept so far. -/
structure Sound (a : Assembly) : Prop where
  names : ∀ f ∈ a.req.headers, validName f.1 = true ∧ connectionSpecific f.1 = false
  cookies : a.req.headers.countP (·.1 = cookieName) ≤ min a.seen.cookies 1
  hosts : a.req.headers.countP (·.1 = hostName) ≤ a.seen.hostField.toNat
  host : ∀ f ∈ a.req.headers, f.1 = hostName → f.2 = a.seen.host

variable {a : Assembly} {n v : Bytes}

theorem Sound.addHeader (hs : Sound a) (hn : validName n = true ∧ connectionSpecific n = false)
    (hcookie : n = cookieName → a.req.headers.countP (·.1 = cookieName) = 0 ∧ 1 ≤ a.seen.cookies)
    (hhost : n = hostName → a.req.headers.countP (·.1 = hostName) = 0 ∧ a.seen.hostField = true ∧
      v = a.seen.host) : Sound (a.addHeader n v) := by
  unfold Assembly.addHeader
  split
  · exact ⟨hs.names, hs.cookies, hs.hosts, hs.host⟩
  have hmem : ∀ {P : Field → Prop}, (∀ f ∈ a.req.headers, P f) → P (n, v) →
      ∀ f ∈ a.req.headers ++ [(n, v)], P f := by
    intro P hold hnew f hf
    rcases List.mem_append.mp hf with hf | hf
    · exact hold f hf
    · exact List.mem_singleton.mp hf ▸ hnew
  refine ⟨hmem hs.names hn, ?_, ?_, hmem hs.host fun h => (hhost h).2.2⟩
  · show (a.req.headers ++ [(n, v)]).countP (·.1 = cookieName) ≤ min a.seen.cookies 1
    rw [List.countP_append, List.countP_singleton]
    have hold := hs.cookies
    by_cases hc : n = cookieName
    · have := hcookie hc
      rw [if_pos (decide_eq_true hc)]
      omega
    · rw [if_neg (by simpa using hc)]
      omega
  · show (a.req.headers ++ [(n, v)]).countP (·.1 = hostName) ≤ a.seen.hostField.toNat
    rw [List.countP_append, List.countP_singleton]
    have hold := hs.hosts
    by_cases hh : n = hostName
    · have := hhost hh
      rw [if_pos (decide_eq_true hh), this.1, this.2.1]
      decide
    · rw [if_neg (by simpa using hh)]
      omega

theorem Sound.keep (hs : Sound a) (hn : validName n = true ∧ connectionSpecific n = false) :
    Sound (a.keep n v) := by
  unfold Assembly.keep
  split
  · rename_i hhost
    split
    · exact ⟨hs.names, hs.cookies, hs.hosts, hs.host⟩
    -- the first host: none is there yet
    rename_i hf
    have hzero : a.req.headers.countP (·.1 = hostName) = 0 := by
      have h := hs.hosts
      rw [Bool.eq_false_iff.mpr hf] at h
      exact Nat.le_zero.mp h
    have hs' : Sound { a with seen := { a.seen with hostField := true, host := v } } := by
      refine ⟨hs.names, hs.cookies, ?_, ?_⟩
      · show a.req.headers.countP (·.1 = hostName) ≤ 1
        omega
      · intro f hf' hname
        exact absurd (decide_eq_true hname) (List.countP_eq_zero.mp hzero f hf')
    exact hs'.addHeader hn (fun hc => absurd (hhost.symm.trans hc) (by decide))
      fun _ => ⟨hzero, rfl, rfl⟩
  · rename_i hhost
    split
    · rename_i hcookie
      unfold Assembly.sinkCookie
      dsimp only
      split
      · refine ⟨hs.names, ?_, hs.hosts, hs.host⟩
        show a.req.headers.countP (·.1 = cookieName) ≤ min (a.seen.cookies + 1) 1
        have := hs.cookies
        omega
      · -- the first crumb takes the slot
        rename_i hfirst
        have hzero : a.req.headers.countP (·.1 = cookieName) = 0 := by
          have := hs.cookies
          omega
        have hs' : Sound { a with seen := { a.seen with cookies := a.seen.cookies + 1, firstCookie := v } } := by
          refine ⟨hs.names, ?_, hs.hosts, hs.host⟩
          show a.req.headers.countP (·.1 = cookieName) ≤ min (a.seen.cookies + 1) 1
          omega
        exact hs'.addHeader hn (fun _ => ⟨hzero, Nat.le_add_left ..⟩) fun hh => absurd hh hhost
    · rename_i hcookie
      exact hs.addHeader hn (fun hc => absurd hc hcookie) fun hh => absurd hh hhost

theorem brokenRule_none (h : brokenRule false n v = none) :
    validName n = true ∧ connectionSpecific n = false := by
  unfold brokenRule at h
  split_ifs at h with h₁ h₂ h₃ h₄
  simp only [Bool.not_false, Bool.true_and, Bool.not_eq_true', Bool.not_eq_false] at h₁
  exact ⟨h₁, Bool.eq_false_iff.mpr h₃⟩

/-- **One field more.** -/
theorem Sound.sinkEvery (hs : Sound a) : Sound (a.sinkEvery n v) := by
  have hseen : ∀ seen, seen.cookies = a.seen.cookies → seen.hostField = a.seen.hostField →
      seen.host = a.seen.host → Sound { a with seen := seen } := by
    intro seen h₁ h₂ h₃
    exact ⟨hs.names, by rw [h₁]; exact hs.cookies, by rw [h₂]; exact hs.hosts,
      fun f hf hn => by rw [h₃]; exact hs.host f hf hn⟩
  unfold Assembly.sinkEvery
  split
  · unfold Assembly.sinkPseudo Assembly.refuse
    split_ifs <;> exact hseen _ rfl rfl rfl
  dsimp only
  have hs' := hseen { a.seen with regular := true } rfl rfl rfl
  cases hb : brokenRule false n v with
  | some reason => exact ⟨hs'.names, hs'.cookies, hs'.hosts, hs'.host⟩
  | none => exact hs'.keep (brokenRule_none hb)

/-- **The whole section.** -/
theorem Sunk.section_sound (fs : List Sunk) (hs : Sound a) : Sound (sinkSection a fs) := by
  unfold sinkSection
  induction fs generalizing a with
  | nil => exact hs
  | cons f fs ih =>
    rw [List.foldl_cons, Assembly.sinkField_eq_sinkEvery f.mark_means f.static_clean]
    exact ih hs.sinkEvery

/-! ## §3. The request of an accepted section. -/

/-- What the head for the origin relies on. -/
structure FromSection (req : Http.Request) : Prop where
  method : req.methodName ≠ []
  target : req.target ≠ []
  names : ∀ f ∈ req.headers, validName f.1 = true ∧ connectionSpecific f.1 = false
  cookies : req.headers.countP (·.1 = cookieName) ≤ 1
  hosts : req.headers.countP (·.1 = hostName) ≤ 1
  host : req.host ≠ [] ∧ ∀ f ∈ req.headers, f.1 = hostName → f.2 = [] ∨ f.2 = req.host

/-- A join changes no name. -/
theorem map_fst_joinCookie (cookie : Bytes) (fs : List Field) :
    (joinCookie cookie fs).map Prod.fst = fs.map Prod.fst := by
  induction fs with
  | nil => rfl
  | cons f fs ih =>
    unfold joinCookie
    split
    · rfl
    · rw [List.map_cons, List.map_cons, ih]

/-- …and no value but a cookie's. -/
theorem mem_joinCookie {cookie : Bytes} {fs : List Field} {f : Field}
    (hf : f ∈ joinCookie cookie fs) (hn : f.1 ≠ cookieName) : f ∈ fs := by
  induction fs with
  | nil => exact hf
  | cons g gs ih =>
    unfold joinCookie at hf
    split at hf
    · rename_i hg
      rcases List.mem_cons.mp hf with rfl | hf
      · exact absurd hg hn
      · exact .tail _ hf
    · rcases List.mem_cons.mp hf with rfl | hf
      · exact .head _
      · exact .tail _ (ih hf)

theorem countP_fst {fs gs : List Field} (h : fs.map Prod.fst = gs.map Prod.fst) (name : Bytes) :
    fs.countP (·.1 = name) = gs.countP (·.1 = name) := by
  have hcomp : ∀ l : List Field, l.countP (·.1 = name) = (l.map Prod.fst).countP (· = name) := by
    intro l
    rw [List.countP_map]
    rfl
  rw [hcomp, hcomp, h]

/-- The fields of interest are copies. -/
theorem interest_kept (fs : List Field) (req : Http.Request) (length : Option Nat) :
    (interest fs req length).2.1.headers = req.headers ∧
      (interest fs req length).2.1.methodName = req.methodName ∧
      (interest fs req length).2.1.target = req.target ∧ (interest fs req length).2.1.host = req.host := by
  fun_induction interest fs req length with
  | case1 => exact ⟨rfl, rfl, rfl, rfl⟩
  | case7 => exact ⟨rfl, rfl, rfl, rfl⟩
  | case8 => exact ⟨rfl, rfl, rfl, rfl⟩
  | _ => assumption

/-- The rules on the whole section. -/
theorem incomplete_none {seen : RequestSeen} (h : seen.incomplete = none) :
    seen.method ≠ [] ∧ seen.path ≠ [] ∧ (seen.authority = [] → seen.host ≠ []) ∧
      (seen.authority ≠ [] → seen.host ≠ [] → seen.host = seen.authority) := by
  unfold RequestSeen.incomplete at h
  split at h
  · cases h
  rename_i hparts
  by_cases habs : (if seen.path = bytes "*" then seen.method ≠ bytes "OPTIONS"
    else seen.path.head? ≠ some 0x2f)
  · rw [if_pos habs] at h
    cases h
  rw [if_neg habs] at h
  split at h
  · cases h
  rename_i h₂
  split at h
  · cases h
  rename_i h₃
  simp only [Bool.or_eq_true, List.isEmpty_iff, not_or] at hparts
  refine ⟨hparts.1.1, hparts.2, fun ha hh => h₂ (by rw [ha, hh]; rfl), fun ha hh => ?_⟩
  by_contra hne
  refine h₃ ?_
  rw [List.isEmpty_eq_false_iff.mpr ha, List.isEmpty_eq_false_iff.mpr hh]
  exact decide_eq_true fun he => hne he.symm

/-- The name the request is for. -/
def RequestSeen.name (seen : RequestSeen) : Bytes :=
  if seen.authority.isEmpty then seen.host else seen.authority

theorem RequestSeen.name_spec {seen : RequestSeen} (h : seen.incomplete = none) :
    RequestSeen.name seen ≠ [] ∧ (seen.host = [] ∨ seen.host = RequestSeen.name seen) := by
  obtain ⟨_, _, h₁, h₂⟩ := incomplete_none h
  unfold RequestSeen.name
  by_cases ha : seen.authority = []
  · rw [ha]
    exact ⟨h₁ ha, .inr rfl⟩
  rw [List.isEmpty_eq_false_iff.mpr ha, if_neg (by decide)]
  refine ⟨ha, ?_⟩
  by_cases hh : seen.host = []
  · exact .inl hh
  · exact .inr (h₂ ha hh)

/-- The fields with the crumbs joined. -/
def Assembly.joined (a : Assembly) : List Field :=
  if a.seen.cookies > 1 then joinCookie a.cookie a.req.headers else a.req.headers

/-- …and with the host that handlers expect. -/
def Assembly.finished (a : Assembly) : List Field :=
  if !a.seen.hostField && (Assembly.joined a).length < kCapacity then
    Assembly.joined a ++ [(bytes "host", RequestSeen.name a.seen)] else Assembly.joined a

/-- An accepted section passed the rules, and its request is made of what was kept. -/
theorem finishRequest_ok {protocol : Bytes} (h : (finishRequest a protocol).1 = .ok) :
    a.seen.incomplete = none ∧ (finishRequest a protocol).2.1.req.headers = Assembly.finished a ∧
      (finishRequest a protocol).2.1.req.methodName = a.seen.method ∧
      (finishRequest a protocol).2.1.req.target = a.seen.path ∧
      (finishRequest a protocol).2.1.req.host = RequestSeen.name a.seen := by
  unfold finishRequest at h ⊢
  dsimp only at h ⊢
  by_cases hbad : a.seen.bad = true
  · rw [if_pos hbad, if_pos hbad] at h
    cases h
  rw [if_neg hbad] at h ⊢
  cases hinc : a.seen.incomplete with
  | some reason =>
    rw [hinc] at h
    cases h
  | none =>
    rw [hinc] at h
    dsimp only at h ⊢
    rw [if_neg hbad]
    refine ⟨rfl, ?_⟩
    exact interest_kept _ _ _

/-- What is kept of a sound assembly, the joined crumbs included. -/
theorem Sound.joined (hs : Sound a) :
    (∀ f ∈ Assembly.joined a, validName f.1 = true ∧ connectionSpecific f.1 = false) ∧
      (Assembly.joined a).countP (·.1 = cookieName) ≤ 1 ∧
      (Assembly.joined a).countP (·.1 = hostName) ≤ a.seen.hostField.toNat ∧
      ∀ f ∈ Assembly.joined a, f.1 = hostName → f.2 = a.seen.host := by
  have hfst : (Assembly.joined a).map Prod.fst = a.req.headers.map Prod.fst := by
    unfold Assembly.joined
    split
    · exact map_fst_joinCookie ..
    · rfl
  refine ⟨?_, ?_, ?_, ?_⟩
  · intro f hf
    have hmem : f.1 ∈ a.req.headers.map Prod.fst := hfst ▸ List.mem_map_of_mem hf
    obtain ⟨g, hg, hgf⟩ := List.mem_map.mp hmem
    rw [← hgf]
    exact hs.names g hg
  · rw [countP_fst hfst]
    exact Nat.le_trans hs.cookies (Nat.min_le_right ..)
  · rw [countP_fst hfst]
    exact hs.hosts
  · intro f hf hn
    refine hs.host f ?_ hn
    unfold Assembly.joined at hf
    split at hf
    · exact mem_joinCookie hf (by rw [hn]; decide)
    · exact hf

/-- **The request of an accepted section.** -/
theorem accepted_assembled {fs : List Sunk} {protocol : Bytes} {req : Http.Request}
    (h : assembles fs protocol req) : FromSection req := by
  have hs : Sound (sinkSection {} fs) :=
    Sunk.section_sound fs ⟨nofun, Nat.zero_le _, Nat.zero_le _, nofun⟩
  obtain ⟨hok, rfl⟩ := h
  generalize sinkSection {} fs = a at hs hok
  obtain ⟨hinc, hheaders, hmethod, htarget, hname⟩ := finishRequest_ok hok
  obtain ⟨hm, hp, _, _⟩ := incomplete_none hinc
  obtain ⟨hne, hhost⟩ := RequestSeen.name_spec hinc
  obtain ⟨j₁, j₂, j₃, j₄⟩ := hs.joined
  refine ⟨hmethod ▸ hm, htarget ▸ hp, ?_, ?_, ?_, hname ▸ hne, ?_⟩
  all_goals
    rw [hheaders]
    unfold Assembly.finished
    generalize RequestSeen.name a.seen = host at *
    split
  · intro f hf
    rcases List.mem_append.mp hf with hf | hf
    · exact j₁ f hf
    rw [List.mem_singleton.mp hf]
    exact ⟨show validName (bytes "host") = true by decide,
      show connectionSpecific (bytes "host") = false by decide⟩
  · exact j₁
  · rw [List.countP_append, List.countP_singleton]
    exact j₂
  · exact j₂
  · -- a host is added only where none was
    rename_i hroom
    rw [Bool.and_eq_true, Bool.not_eq_true'] at hroom
    rw [hroom.1] at j₃
    rw [List.countP_append, Nat.le_zero.mp j₃]
    exact Nat.le_refl 1
  · exact Nat.le_trans j₃ (Bool.toNat_le _)
  · intro f hf hn
    rcases List.mem_append.mp hf with hf | hf
    · rw [j₄ f hf hn, hname]
      exact hhost
    rw [List.mem_singleton.mp hf, hname]
    exact .inr rfl
  · intro f hf hn
    rw [j₄ f hf hn, hname]
    exact hhost

end Agensio.Proxy
