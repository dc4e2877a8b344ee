/-
  Agensio.Dispatch.Judged — no path is reached around its rules.

  A handler runs, or a file is answered, for a path that was judged: no
  refuse pattern takes it, the deciding access rule of every reading admits
  the client, and the deciding password rule of every reading is open or
  was passed.  An index answered in its directory's place counts as if it
  were asked for by its own name.

  Two selections in the source fall short of that.  `auth_protecting_rule`
  asks one rule where two readings may fall under two; and `index_lookup`
  compares the rules of the index path itself with the directory's, not
  those of its other readings.  `Judging` is the condition under which
  neither shows.

  Main results:
    * `served_paths_judged` — over every run whose steps meet the condition.
-/
import Agensio.Dispatch.Password

namespace Agensio.Dispatch

open Agensio.Http (slash)

/-! ## §1. A judged path. -/

/-- The log has a check of this rule that let the client in. -/
def Passed (log : List Check) (a : AuthRule) : Prop := ∃ c ∈ log, c.rule = a ∧ c.allowed = true

/-- Path `p` of `site`, read on a file system, for a client at `addr` with these checks behind
    it. -/
structure Judged (site : Site) (isFile : Bytes → Bool) (addr : Address) (log : List Check)
    (p : Bytes) : Prop where
  unrefused : site.refuseDecide p = false
  access : ∀ r ∈ site.readings isFile p, ∀ a,
    site.access.find? (fun a => a.toRulePath.covers r) = some a → a.admits addr = true
  auth : ∀ r ∈ site.readings isFile p, ∀ a,
    site.auth.find? (fun a => a.toRulePath.covers r) = some a → a.isOpen = true ∨ Passed log a

namespace Site

variable (site : Site) (isFile : Bytes → Bool)

/-- The password rules of the readings of `p` are one. -/
def OneRule (p : Bytes) : Prop :=
  ∀ r ∈ site.readings isFile p,
    ((site.asksAt r).all fun a => site.authProtectingRule isFile p = some a) = true

instance (p : Bytes) : Decidable (site.OneRule isFile p) :=
  inferInstanceAs (Decidable (∀ r ∈ site.readings isFile p, _ = true))

/-- Every other reading of the index path is refused by no pattern and is decided by the rules of
    some reading of the directory. -/
def Agrees (dir own : Bytes) : Prop :=
  (∀ r ∈ otherReadings own, site.refuse r = false) ∧
    ∀ r ∈ site.readings isFile own, r = own ∨
      ∃ d ∈ site.readings isFile dir, site.ruleFor r = site.ruleFor d ∧
        site.authRuleFor r = site.authRuleFor d

instance (dir own : Bytes) : Decidable (site.Agrees isFile dir own) :=
  inferInstanceAs (Decidable ((∀ r ∈ otherReadings own, _) ∧ ∀ r ∈ site.readings isFile own, _))

variable {site isFile} {addr : Address} {log : List Check} {p : Bytes}

/-- **What the guards of a round have established.** -/
theorem judged_of_guards (hrep : site.NoReports) (hrefuse : site.refuseDecide p = false)
    (hdecide : (site.decide isFile addr p).refuse = false) (hone : site.OneRule isFile p)
    (hauth : ∀ a, site.authProtectingRule isFile p = some a → Passed log a) :
    Judged site isFile addr log p where
  unrefused := hrefuse
  access := by
    intro r hr
    rw [← admitted_iff]
    exact (decide_refuse_iff isFile addr hrep p).mp hdecide r hr
  auth := by
    intro r hr a ha
    by_cases hopen : a.isOpen = true
    · exact .inl hopen
    have hasks : site.asksAt r = some a := by
      unfold asksAt authRuleFor
      rw [firstRule_eq, ha]
      simp [hopen]
    have hrule := hone r hr
    rw [hasks, Option.all_some, decide_eq_true_eq] at hrule
    exact .inr (hauth a hrule)

/-- **What `index_lookup` carries over from the directory to its index.** -/
theorem judged_index {dir name : Bytes} (h : Judged site isFile addr log dir)
    (hc : site.Chosen dir name) (ha : site.Agrees isFile dir (dir ++ name)) :
    Judged site isFile addr log (dir ++ name) := by
  -- every reading of the index is decided as some reading of the directory is
  have hread : ∀ r ∈ site.readings isFile (dir ++ name), ∃ d ∈ site.readings isFile dir,
      site.ruleFor r = site.ruleFor d ∧ site.authRuleFor r = site.authRuleFor d := by
    intro r hr
    rcases ha.2 r hr with rfl | hd
    · exact ⟨dir, site.mem_readings_self isFile dir, hc.access, hc.auth⟩
    · exact hd
  refine ⟨?_, ?_, ?_⟩
  · unfold refuseDecide
    rw [hc.unrefused, Bool.false_or, List.any_eq_false]
    intro r hr
    rw [ha.1 r hr]
    exact Bool.false_ne_true
  · intro r hr a hra
    obtain ⟨d, hd, hrule, -⟩ := hread r hr
    unfold ruleFor at hrule
    rw [firstRule_eq, firstRule_eq] at hrule
    exact h.access d hd a (hrule.symm.trans hra)
  · intro r hr a hra
    obtain ⟨d, hd, -, hrule⟩ := hread r hr
    unfold authRuleFor at hrule
    rw [firstRule_eq, firstRule_eq] at hrule
    exact h.auth d hd a (hrule.symm.trans hra)

end Site

/-! ## §2. The location of a path is one of the site's. -/

theorem locationLoop_mem {path : Bytes} {last : Location} {all : List Location} (hlast : last ∈ all) :
    ∀ (locs : List Location) (suffix : Option Location), (∀ l ∈ locs, l ∈ all) →
      (∀ l, suffix = some l → l ∈ all) → locationLoop path last suffix locs ∈ all := by
  -- what is remembered, and what is still to come, are of the list
  have hgetD : ∀ (suffix : Option Location) (d : Location), d ∈ all →
      (∀ l, suffix = some l → l ∈ all) → suffix.getD d ∈ all := by
    intro suffix d hd hs
    cases suffix with
    | none => exact hd
    | some l => exact hs l rfl
  intro locs
  induction locs with
  | nil =>
    intro suffix _ hs
    exact hgetD suffix last hlast hs
  | cons loc rest ih =>
    intro suffix hl hs
    have hloc : loc ∈ all := hl loc (.head _)
    have hrest : ∀ l ∈ rest, l ∈ all := fun l hm => hl l (.tail _ hm)
    unfold locationLoop
    split
    · split
      · exact hloc
      split
      · exact hloc
      · exact ih suffix hrest hs
    split
    · split
      · apply ih (some loc) hrest
        intro l he
        cases he
        exact hloc
      · exact ih suffix hrest hs
    split
    · split
      · exact hloc
      · exact hgetD suffix loc hloc hs
    · exact ih suffix hrest hs

namespace Site

variable {site : Site}

theorem location_mem (path : Bytes) : site.location path ∈ site.served := by
  have hmem : site.location path ∈ site.locations := by
    apply locationLoop_mem (List.getLast_mem _)
    · exact fun _ hl => hl
    · intro l hl
      cases hl
  unfold served
  split
  · exact .tail _ hmem
  · exact hmem

end Site

/-! ## §3. The stages of a request. -/

section Stages

variable {K : Crypto} (srv : Server K)

/-- What the request's stage says of its paths. -/
def StageOk (q : Req) : Stage → Prop
  | .located loc path _ _ => ∃ k site, q.site = some k ∧ srv.sites[k]? = some site ∧
      loc ∈ site.served ∧ Judged site q.seen.isFile q.client.address q.log path
  | .handed _ path => ∃ k site, q.site = some k ∧ srv.sites[k]? = some site ∧
      Judged site q.seen.isFile q.client.address q.log path
  | .served path name => ∃ k site, q.site = some k ∧ srv.sites[k]? = some site ∧
      Judged site q.seen.isFile q.client.address q.log path ∧
      ∀ n, name = some n → Judged site q.seen.isFile q.client.address q.log (path ++ n)
  | _ => True

/-- An index in the cache was chosen under the site whose location it was found in. -/
def FilesOk (files : List CachedFile) : Prop :=
  ∀ e ∈ files, ∀ n, e.name = some n → ∃ (k : Nat) (site : Site) (loc : Location),
    srv.sites[k]? = some site ∧ loc ∈ site.served ∧ loc.id = e.id ∧ site.Chosen e.path n

/-- What every step keeps: each stage and each cached index is judged. -/
structure JudgedInv (w : Worker K) : Prop where
  reqs : ∀ i q, w.reqs i = some q → StageOk srv q q.stage
  files : FilesOk srv w.files

variable {srv} {q : Req} {site : Site} {path : Bytes} {k : Nat}

theorem stageOk_enter (hk : q.site = some k) (hsite : srv.sites[k]? = some site) {loc : Location}
    (hl : loc ∈ site.served) (hj : Judged site q.seen.isFile q.client.address q.log path) (hops : Nat)
    (allowed : Bool) : StageOk srv q (enter loc path hops allowed) := by
  unfold enter
  split
  · exact ⟨k, site, hk, hsite, hl, hj⟩
  · exact ⟨k, site, hk, hsite, hj⟩

theorem stageOk_routeTo (hk : q.site = some k) (hsite : srv.sites[k]? = some site)
    (hj : Judged site q.seen.isFile q.client.address q.log path) (encoded : Bool) :
    StageOk srv q (routeTo q.toArrival site path encoded) := by
  have hl : (if (site.httpRedirect && q.plain) = true then site.validation else site.location path) ∈
      site.served := by
    split
    · next hv =>
      rw [Bool.and_eq_true] at hv
      rw [Site.served, if_pos hv.1]
      exact .head _
    · exact Site.location_mem path
  unfold routeTo
  dsimp only
  generalize (if (site.httpRedirect && q.plain) = true then site.validation else site.location path) =
    loc at hl
  split
  · trivial
  split
  · trivial
  split
  · trivial
  split
  · trivial
  · exact stageOk_enter hk hsite hl hj _ _

theorem stageOk_hopTo (hk : q.site = some k) (hsite : srv.sites[k]? = some site)
    (hj : Judged site q.seen.isFile q.client.address q.log path) (hops : Nat) :
    StageOk srv q (hopTo q.toArrival site path hops) := by
  unfold hopTo
  split
  · trivial
  · exact stageOk_enter hk hsite (Site.location_mem path) hj _ _

/-- The preflight that is let past the password is answered here. -/
theorem routeTo_of_skipsAuth {a : Arrival} (h : skipsAuth a site path = true) (encoded : Bool) :
    ∃ answer, routeTo a site path encoded = .answered answer := by
  unfold skipsAuth Arrival.corsPreflight at h
  simp only [Bool.and_eq_true, decide_eq_true_eq] at h
  obtain ⟨⟨⟨hm, -⟩, -⟩, hkind⟩ := h
  have hl : (if (site.httpRedirect && a.plain) = true then site.validation else site.location path).kind
      = .static_ := by
    split
    · exact site.validation_static
    · exact hkind
  unfold routeTo
  dsimp only
  generalize (if (site.httpRedirect && a.plain) = true then site.validation else site.location path) =
    loc at hl
  split
  · exact ⟨_, rfl⟩
  split
  · exact ⟨_, rfl⟩
  split
  · exact ⟨_, rfl⟩
  rw [if_pos (by rw [hm, hl]; rfl)]
  exact ⟨_, rfl⟩

end Stages

/-! ## §4. One round. -/

section Rounds

variable {K : Crypto} {srv : Server K} {w : Worker K} {i : Nat} {q : Req} {site : Site}

/-- A stage that hands nothing out. -/
def Stage.Quiet : Stage → Prop
  | .verifying => True
  | .answered _ => True
  | _ => False

theorem Stage.Quiet.ok {st : Stage} (h : st.Quiet) : StageOk srv q st := by
  cases st with
  | verifying => trivial
  | answered a => trivial
  | _ => exact h.elim

/-- A check goes on only past a rule that let the client in. -/
theorem askRule_round (srv : Server K) (w : Worker K) (i : Nat) (q : Req) (rule : AuthRule) :
    (askRule srv w i q rule).worker.reqs = w.reqs ∧ (askRule srv w i q rule).worker.files = w.files ∧
    (askRule srv w i q rule).req.toArrival = q.toArrival ∧ (askRule srv w i q rule).req.seen = q.seen ∧
    (((askRule srv w i q rule).stop = none ∧ Passed (askRule srv w i q rule).req.log rule) ∨
      ∃ st, (askRule srv w i q rule).stop = some st ∧ st.Quiet) := by
  unfold askRule
  dsimp only
  split
  · exact ⟨rfl, rfl, rfl, rfl, .inl ⟨rfl, _, .head _, rfl, rfl⟩⟩
  · exact ⟨rfl, rfl, rfl, rfl, .inr ⟨_, rfl, trivial⟩⟩
  · exact ⟨rfl, rfl, rfl, rfl, .inr ⟨_, rfl, trivial⟩⟩

variable {go : Stage} {a : Arrival}

/-- The round's request takes its place; the others keep theirs. -/
theorem JudgedInv.finish (h : JudgedInv srv w) {r : Round K} (hr : r.worker.reqs = w.reqs)
    (hfiles : FilesOk srv r.worker.files)
    (hgo : StageOk srv r.req (r.stop.getD go)) : JudgedInv srv (r.finish i go) := by
  refine ⟨?_, hfiles⟩
  intro j s hs
  unfold Round.finish at hs
  dsimp only at hs
  rw [hr] at hs
  by_cases hj : j = i
  · rw [hj, Function.update_self] at hs
    cases hs
    cases hst : r.stop.getD go <;> rw [hst] at hgo <;> exact hgo
  · rw [Function.update_of_ne hj] at hs
    exact h.reqs j s hs

/-- A round that ends without a path. -/
theorem JudgedInv.quiet (h : JudgedInv srv w) (hgo : go.Quiet) :
    JudgedInv srv (Round.finish ⟨w, q, none⟩ i go) := h.finish rfl h.files hgo.ok

/-- The password rule of a path whose other guards let it through. -/
theorem JudgedInv.guard (h : JudgedInv srv w) {disk : Disk} (hseen : q.seen = disk) {path : Bytes}
    (hrep : site.NoReports) (hrefuse : site.refuseDecide path = false)
    (hdecide : (site.decide disk.isFile q.client.address path).refuse = false)
    (hone : site.OneRule disk.isFile path) (hgo : ∀ r : Req, r.toArrival = q.toArrival → r.seen = disk →
      Judged site disk.isFile q.client.address r.log path → StageOk srv r go) :
    JudgedInv srv ((guardAuth srv w i q site disk path).finish i go) := by
  unfold guardAuth
  split
  · next hnone =>
    apply h.finish rfl h.files
    apply hgo q rfl hseen
    apply Site.judged_of_guards hrep hrefuse hdecide hone
    intro a ha
    rw [hnone] at ha
    cases ha
  · next rule hrule =>
    obtain ⟨hreqs, hfiles, harr, hs, hstop⟩ := askRule_round srv w i q rule
    apply h.finish hreqs (hfiles ▸ h.files)
    rcases hstop with ⟨hnone, hpassed⟩ | ⟨st, hst, hquiet⟩
    · rw [hnone]
      apply hgo _ harr (hs.trans hseen)
      apply Site.judged_of_guards hrep hrefuse hdecide hone
      intro a ha
      rw [hrule] at ha
      cases ha
      exact hpassed
    · rw [hst]
      exact hquiet.ok

theorem routePath_site {path : Bytes} {encoded : Bool} (h : routePath srv a = .ok (site, path, encoded)) :
    ∃ k, a.site = some k ∧ srv.sites[k]? = some site := by
  unfold routePath at h
  split at h
  · cases h
  split at h
  · split at h <;> cases h
  split at h
  · cases h
  split at h
  · cases h
  split at h
  · cases h
  next hsite =>
  split at h
  · cases h
  cases h
  exact Option.bind_eq_some_iff.mp hsite

/-- The guards of `route` before the password. -/
theorem routeEarly_none {disk : Disk} {path : Bytes} {encoded : Bool}
    (h : routeEarly a site disk path encoded = none) :
    site.refuseDecide path = false ∧ (site.decide disk.isFile a.client.address path).refuse = false := by
  unfold routeEarly at h
  dsimp only at h
  split at h
  · cases h
  split at h
  · cases h
  split at h
  · cases h
  next hrefuse =>
  split at h
  · cases h
  split at h
  · cases h
  next hdecide => exact ⟨by simpa using hrefuse, by simpa using hdecide⟩

theorem hopEarly_none {disk : Disk} {path : Bytes} {hops : Nat} (h : hopEarly a site disk path hops = none) :
    site.refuseDecide path = false ∧ (site.decide disk.isFile a.client.address path).refuse = false := by
  unfold hopEarly at h
  split at h
  · cases h
  split at h
  · cases h
  next hrefuse =>
  split at h
  · cases h
  next hdecide => exact ⟨by simpa using hrefuse, by simpa using hdecide⟩

end Rounds

/-! ## §5. The condition, and the worker. -/

section Run

variable {K : Crypto} (srv : Server K)

/-- The index the request's next round answers with, in place of its directory. -/
def indexAhead (w : Worker K) (q : Req) (disk : Disk) : Option (Site × Bytes × Bytes) :=
  match q.stage, q.site.bind fun k => srv.sites[k]? with
  | .located loc path _ allowed, some site =>
    match site.serveLocation w.files loc disk path allowed with
    | .file (some name) => some (site, path, name)
    | _ => none
  | _, _ => none

/-- The path ahead of request `i` falls under one password rule, and the index ahead of it is
    read as its directory is. -/
def JudgesAhead (w : Worker K) (i : Nat) (disk : Disk) : Prop :=
  ∀ q ∈ (w.reqs i).toList,
    (∀ p ∈ (pathAhead srv w q disk).toList, p.1.OneRule disk.isFile p.2) ∧
    ∀ p ∈ (indexAhead srv w q disk).toList, p.1.Agrees q.seen.isFile p.2.1 (p.2.1 ++ p.2.2)

instance (w : Worker K) (i : Nat) (disk : Disk) : Decidable (JudgesAhead srv w i disk) :=
  inferInstanceAs (Decidable (∀ q ∈ (w.reqs i).toList,
    (∀ p ∈ (pathAhead srv w q disk).toList, p.1.OneRule disk.isFile p.2) ∧
    ∀ p ∈ (indexAhead srv w q disk).toList, p.1.Agrees q.seen.isFile p.2.1 (p.2.1 ++ p.2.2)))

/-- The condition on a step: its round meets one rule at a time. -/
def Judging (w : Worker K) : Label → Prop
  | .route i disk => JudgesAhead srv w i disk
  | .serve i disk _ => JudgesAhead srv w i disk
  | _ => True

instance (w : Worker K) : ∀ l, Decidable (Judging srv w l)
  | .route i disk => inferInstanceAs (Decidable (JudgesAhead srv w i disk))
  | .serve i disk _ => inferInstanceAs (Decidable (JudgesAhead srv w i disk))
  | .tick | .read | .arrive _ | .finish _ | .full _ | .close _ | .evict _ _ =>
    inferInstanceAs (Decidable True)

variable {srv} {w : Worker K} {i : Nat} {q : Req} {disk : Disk}

theorem JudgesAhead.oneRule (h : JudgesAhead srv w i disk) (hq : w.reqs i = some q) {site : Site}
    {path : Bytes} (hp : pathAhead srv w q disk = some (site, path)) : site.OneRule disk.isFile path :=
  (h q (by simp [hq])).1 (site, path) (by simp [hp])

variable {loc : Location}

theorem JudgesAhead.agrees (h : JudgesAhead srv w i disk) (hq : w.reqs i = some q) {site : Site}
    {path name : Bytes} {hops : Nat} {allowed : Bool} (hstage : q.stage = .located loc path hops allowed)
    (hsite : (q.site.bind fun k => srv.sites[k]?) = some site)
    (hserve : site.serveLocation w.files loc disk path allowed = .file (some name)) :
    site.Agrees q.seen.isFile path (path ++ name) := by
  apply (h q (by simp [hq])).2 (site, path, name)
  unfold indexAhead
  rw [hstage, hsite]
  dsimp only
  rw [hserve]
  exact List.mem_singleton_self _

/-- A file that a lookup found, or that is cached, and its index if it is one. -/
theorem JudgedInv.chosen (h : JudgedInv srv w) {k : Nat} {site : Site}
    {path : Bytes} {name : Bytes} (hsite : srv.sites[k]? = some site) (hl : loc ∈ site.served)
    (hs : site.Serves w.files loc path (.file (some name))) : site.Chosen path name := by
  generalize hf : Served.file (some name) = f at hs
  cases hs with
  | done _ => cases hf
  | redirect _ => cases hf
  | cached he hid hp =>
    -- the entry's location is this one, so its site is this one
    rename_i e
    have hname : e.name = some name := (Served.file.inj hf).symm
    obtain ⟨k', site', loc', hsite', hl', hid', hc⟩ := h.files e he name hname
    obtain rfl : k = k' := srv.ids k k' site site' hsite hsite' loc hl loc' hl' (hid.symm.trans hid'.symm)
    rw [hsite] at hsite'
    cases hsite'
    rw [← hp]
    exact hc
  | looked hlook =>
    cases hf
    cases hlook with
    | index _ hc => exact hc

theorem JudgedInv.route (h : JudgedInv srv w) (hrep : ∀ s ∈ srv.sites, s.NoReports)
    (hq : w.reqs i = some q) (hstage : q.stage = .routing) (hok : JudgesAhead srv w i disk) :
    JudgedInv srv (Dispatch.route srv w i q disk) := by
  unfold Dispatch.route
  dsimp only
  cases hpath : routePath srv q.toArrival with
  | error a => exact h.quiet trivial
  | ok t =>
    obtain ⟨site, path, encoded⟩ := t
    obtain ⟨k, hk, hsite⟩ := routePath_site hpath
    dsimp only
    cases hearly : routeEarly q.toArrival site disk path encoded with
    | some a => exact h.quiet trivial
    | none =>
      dsimp only
      split
      · next hskip =>
        obtain ⟨answer, ha⟩ := routeTo_of_skipsAuth hskip encoded
        rw [ha]
        exact h.quiet trivial
      · next hskip =>
        obtain ⟨hrefuse, hdecide⟩ := routeEarly_none hearly
        have hone := hok.oneRule hq (pathAhead_route hstage hpath hearly (by simpa using hskip))
        have hsr := hrep site (List.mem_of_getElem? hsite)
        apply h.guard (q := { q with seen := disk }) rfl hsr hrefuse hdecide hone
        intro r harr hseen hj
        have hkr : r.site = some k := by
          rw [harr]
          exact hk
        have hjr : Judged site r.seen.isFile r.client.address r.log path := by
          rw [hseen, harr]
          exact hj
        have hgo := stageOk_routeTo hkr hsite hjr encoded
        rw [harr] at hgo
        exact hgo

theorem JudgedInv.serve (h : JudgedInv srv w) (hrep : ∀ s ∈ srv.sites, s.NoReports)
    (hq : w.reqs i = some q) {site : Site} {path : Bytes} {hops : Nat}
    {allowed : Bool} (hstage : q.stage = .located loc path hops allowed)
    (hsite : (q.site.bind fun k => srv.sites[k]?) = some site) (hok : JudgesAhead srv w i disk)
    (keep : Bool) : JudgedInv srv (serveStatic srv w i q site loc path hops allowed disk keep) := by
  have hnow := h.reqs i q hq
  rw [hstage] at hnow
  obtain ⟨k, site', hk, hsite', hl, hj⟩ := hnow
  obtain rfl : site' = site := by
    rw [hk, Option.bind_some, hsite'] at hsite
    exact Option.some.inj hsite
  have hserves : site'.Serves w.files loc path
      (site'.serveLocation w.files loc disk path allowed) := Site.serveLocation_serves _ _
  unfold serveStatic
  cases hserve : site'.serveLocation w.files loc disk path allowed with
  | done a => exact h.quiet trivial
  | file name =>
    rw [hserve] at hserves
    have hindex : ∀ n, name = some n → site'.Chosen path n := by
      intro n hn
      exact h.chosen hsite' hl (hn ▸ hserves)
    apply h.finish rfl
    · split
      · intro e he n hn
        rcases List.mem_cons.mp he with rfl | he
        · exact ⟨k, site', loc, hsite', hl, rfl, hindex n hn⟩
        · exact h.files e he n hn
      · exact h.files
    · refine ⟨k, site', hk, hsite', hj, ?_⟩
      intro n hn
      exact Site.judged_index hj (hindex n hn) (hok.agrees hq hstage hsite (hn ▸ hserve))
  | redirect path' =>
    dsimp only
    cases hearly : hopEarly q.toArrival site' disk path' (hops + 1) with
    | some a => exact h.quiet trivial
    | none =>
      obtain ⟨hrefuse, hdecide⟩ := hopEarly_none hearly
      have hone := hok.oneRule hq (pathAhead_serve hstage hsite hserve hearly)
      have hsr := hrep site' (List.mem_of_getElem? hsite')
      apply h.guard (q := { q with seen := disk }) rfl hsr hrefuse hdecide hone
      intro r harr hseen hj'
      have hkr : r.site = some k := by
        rw [harr]
        exact hk
      have hjr : Judged site' r.seen.isFile r.client.address r.log path' := by
        rw [hseen, harr]
        exact hj'
      have hgo := stageOk_hopTo hkr hsite' hjr (hops + 1)
      rw [harr] at hgo
      exact hgo

theorem JudgedInv.resume (h : JudgedInv srv w) (r : AuthResult) {jobs : List (Nat × Job K)}
    {cache : Cache K} :
    JudgedInv srv (Dispatch.resume { w with jobs := jobs, cache := cache } i r) := by
  unfold Dispatch.resume
  cases hq : w.reqs i with
  | none => exact ⟨h.reqs, h.files⟩
  | some q =>
    refine ⟨?_, h.files⟩
    intro j s hs
    dsimp only at hs
    by_cases hj : j = i
    · rw [hj, Function.update_self] at hs
      cases hs
      trivial
    · rw [Function.update_of_ne hj] at hs
      exact h.reqs j s hs

/-- **One step that meets the condition.** -/
theorem JudgedInv.step (hrep : ∀ s ∈ srv.sites, s.NoReports) {w w' : Worker K} {l : Label}
    (h : JudgedInv srv w) (hok : Judging srv w l) (hs : Dispatch.step srv w l = some w') :
    JudgedInv srv w' := by
  cases l with
  | tick =>
    cases hs
    exact ⟨h.reqs, h.files⟩
  | read =>
    cases hs
    exact ⟨h.reqs, h.files⟩
  | arrive a =>
    cases hs
    refine ⟨?_, h.files⟩
    intro j s hs
    dsimp only at hs
    by_cases hj : j = w.next
    · rw [hj, Function.update_self] at hs
      cases hs
      trivial
    · rw [Function.update_of_ne hj] at hs
      exact h.reqs j s hs
  | route i disk =>
    unfold Dispatch.step at hs
    dsimp only at hs
    cases hq : w.reqs i with
    | none => rw [hq] at hs; cases hs
    | some q =>
      rw [hq] at hs
      dsimp only at hs
      split at hs
      · next hstage =>
        cases hs
        exact h.route hrep hq hstage hok
      · cases hs
  | serve i disk keep =>
    unfold Dispatch.step at hs
    dsimp only at hs
    cases hq : w.reqs i with
    | none => rw [hq] at hs; cases hs
    | some q =>
      rw [hq] at hs
      dsimp only at hs
      split at hs
      · next loc path hops allowed site hstage hsite =>
        cases hs
        exact h.serve hrep hq hstage hsite hok keep
      · cases hs
  | finish i =>
    unfold Dispatch.step at hs
    dsimp only at hs
    split at hs
    · cases hs
    cases hs
    exact h.resume _
  | full i =>
    unfold Dispatch.step at hs
    dsimp only at hs
    split at hs
    · cases hs
    cases hs
    exact h.resume _
  | close i =>
    cases hs
    refine ⟨?_, h.files⟩
    intro j s hs
    dsimp only at hs
    by_cases hj : j = i
    · rw [hj, Function.update_self] at hs
      cases hs
    rw [Function.update_of_ne hj] at hs
    exact h.reqs j s hs
  | evict id path =>
    cases hs
    exact ⟨h.reqs, fun e he => h.files e (List.mem_filter.mp he).1⟩

/-- The paths a stage answers for: the location's, the handler's or the file's, and the index it is. -/
def Stage.Reaches : Stage → Bytes → Prop
  | .located _ path _ _, p => p = path
  | .handed _ path, p => p = path
  | .served path name, p => p = path ∨ ∃ n, name = some n ∧ p = path ++ n
  | _, _ => False

/-- **Rules cannot be stepped around.**  No rule of a site only reports; in every run whose steps
    meet the condition, a path whose handler was run, or whose file was answered, is judged: `refuse`
    does not take it, and for every reading of it the first access rule that covers the reading
    admits the client and the first password rule that does is open or was passed. -/
theorem served_paths_judged (srv : Server K) (hrep : ∀ s ∈ srv.sites, s.NoReports) (t : Nat)
    {ls : List Label} {w : Worker K} (hrun : Lib.run (Dispatch.step srv) (Worker.start K t) ls = some w)
    (hok : Lib.Meets (Dispatch.step srv) (Judging srv) (Worker.start K t) ls) :
    ∀ i q k site, w.reqs i = some q → q.site = some k → srv.sites[k]? = some site →
      ∀ p, q.stage.Reaches p → Judged site q.seen.isFile q.client.address q.log p := by
  have h₀ : JudgedInv srv (Worker.start K t) := by
    refine ⟨?_, ?_⟩
    · intro i q hq
      cases hq
    · intro e he
      cases he
  have hinv : JudgedInv srv w :=
    Lib.run_invariant (fun _ _ _ hi hc hs => JudgedInv.step hrep hi hc hs) h₀ hrun hok
  intro i q k site hq hk hsite p hp
  have hst := hinv.reqs i q hq
  have hone : ∀ k' site', q.site = some k' → srv.sites[k']? = some site' → site' = site := by
    intro k' site' hk' hsite'
    rw [hk] at hk'
    cases hk'
    exact Option.some.inj (hsite'.symm.trans hsite)
  cases hstage : q.stage with
  | located loc path hops allowed =>
    rw [hstage] at hst hp
    obtain ⟨k', site', hk', hsite', -, hj⟩ := hst
    cases hone _ _ hk' hsite'
    cases hp
    exact hj
  | handed loc path =>
    rw [hstage] at hst hp
    obtain ⟨k', site', hk', hsite', hj⟩ := hst
    cases hone _ _ hk' hsite'
    cases hp
    exact hj
  | served path name =>
    rw [hstage] at hst hp
    obtain ⟨k', site', hk', hsite', hj, hi⟩ := hst
    cases hone _ _ hk' hsite'
    rcases hp with rfl | ⟨n, hn, rfl⟩
    · exact hj
    · exact hi n hn
  | _ =>
    rw [hstage] at hp
    exact hp.elim

end Run

/-! ## §6. Two readings, two rules. -/

namespace Demo

/-- A front controller behind Alice's password, its control panel behind Bob's. -/
def panel : Site where
  auth := [{ path := bytes "/cp", rooted := by decide, users := 2 },
    { path := bytes "/", rooted := rooted_slash, users := 1 }]
  locations := [{ id := 1, path := bytes "/", kind := .fastcgi }]
  locations_ne := List.cons_ne_nil _ _
  validation_static := validation_files

/-- Alice's password in front of one page. -/
def page : Site where
  auth := [{ path := bytes "/a/index.html", isExact := true, rooted := by decide, users := 1 }]
  locations := [{ id := 2, path := bytes "/", root := bytes "/srv", index := [bytes "index.html"] }]
  locations_ne := List.cons_ne_nil _ _
  validation_static := validation_files

def panelServer : Server crypto where
  sites := [panel, page]
  load := fun id => if id = 2 then bobFile else aliceFile
  ids := by
    intro i j s t hi hj l hl m hm he
    match i, j with
    | 0, 0 => rfl
    | 1, 1 => rfl
    | 0, 1 =>
      cases hi
      cases hj
      obtain rfl := List.mem_singleton.mp hl
      obtain rfl := List.mem_singleton.mp hm
      cases he
    | 1, 0 =>
      cases hi
      cases hj
      obtain rfl := List.mem_singleton.mp hl
      obtain rfl := List.mem_singleton.mp hm
      cases he
    | 0, j + 2 => cases hj
    | 1, j + 2 => cases hj
    | i + 2, _ => cases hi

/-- What request 0 reached in the end, and its checks. -/
def reached (ls : List Label) : Option (Bytes × Option Bytes × List (Bytes × Bool)) :=
  ((Lib.run (step panelServer) (Worker.start crypto 0) ls).bind fun w => w.reqs 0).bind fun q =>
    match q.stage with
    | .handed _ path => some (path, none, q.log.map fun c => (c.rule.path, c.allowed))
    | .served path name => some (path, name, q.log.map fun c => (c.rule.path, c.allowed))
    | _ => none

theorem reached_spec {ls : List Label} {path : Bytes} {name : Option Bytes}
    {log : List (Bytes × Bool)} (h : reached ls = some (path, name, log)) :
    ∃ w q, Lib.run (step panelServer) (Worker.start crypto 0) ls = some w ∧ w.reqs 0 = some q ∧
      q.stage.Reaches (path ++ name.getD []) ∧ (q.log.map fun c => (c.rule.path, c.allowed)) = log := by
  obtain ⟨q, hq, hval⟩ := Option.bind_eq_some_iff.mp h
  obtain ⟨w, hw, hq⟩ := Option.bind_eq_some_iff.mp hq
  refine ⟨w, q, hw, hq, ?_⟩
  split at hval
  · next hst =>
    cases hval
    exact ⟨by rw [hst]; exact List.append_nil _, rfl⟩
  · next hst =>
    cases hval
    refine ⟨?_, rfl⟩
    rw [hst]
    cases name with
    | none => exact .inl (List.append_nil _)
    | some n => exact .inr ⟨n, rfl, rfl⟩
  · cases hval

end Demo

/-- Alice on the front controller's home page, which one rule protects. -/
theorem served_paths_judged_home : Demo.reached (Demo.run 0 (bytes "/index.php") []) =
        some (bytes "/index.php", none, [(bytes "/", true), (bytes "/", false)]) ∧
      ∃ w, Lib.run (step Demo.panelServer) (Worker.start Demo.crypto 0)
          (Demo.run 0 (bytes "/index.php") []) = some w ∧
        ∀ q, w.reqs 0 = some q → q.site = some 0 → ∀ p, q.stage.Reaches p →
          Judged Demo.panel q.seen.isFile q.client.address q.log p := by
  refine ⟨by decide +kernel, ?_⟩
  obtain ⟨w, hw⟩ := Option.isSome_iff_exists.mp (show (Lib.run (step Demo.panelServer)
    (Worker.start Demo.crypto 0) (Demo.run 0 (bytes "/index.php") [])).isSome = true by decide +kernel)
  have hrep : ∀ s ∈ Demo.panelServer.sites, s.NoReports := by
    intro s hs r hr
    rcases List.mem_cons.mp hs with rfl | hs
    · cases hr
    obtain rfl := List.mem_singleton.mp hs
    cases hr
  have hall := served_paths_judged Demo.panelServer hrep 0 hw (by decide +kernel)
  exact ⟨w, hw, fun q hq hk => hall 0 q 0 Demo.panel hq hk rfl⟩

/-- The first password rule of the list that covers `r` has to be open or passed. -/
theorem passed_of_judged {site : Site} {isFile : Bytes → Bool} {addr : Address} {log : List Check}
    {p r : Bytes} {a : AuthRule} (h : Judged site isFile addr log p) (hr : r ∈ otherReadings p)
    (ha : site.auth.find? (fun a => a.toRulePath.covers r) = some a) (hopen : a.isOpen = false) :
    (a.path, true) ∈ log.map fun c => (c.rule.path, c.allowed) := by
  have hmem : r ∈ site.readings isFile p := by
    unfold Site.readings Site.withScript
    exact List.mem_flatMap.mpr ⟨r, .tail _ hr, .head _⟩
  rcases h.auth r hmem a ha with ho | ⟨c, hc, rfl, hall⟩
  · rw [hopen] at ho
    cases ho
  · exact List.mem_map.mpr ⟨c, hc, by rw [hall]⟩

/-- `/index.php/cp` reaches the control panel with Alice's password alone; and the directory
    `/a;x/` answers with the page that `/a;x/index.html` would have to show a password for. -/
theorem panel_reached_around_its_rule :
    (∃ ls w q p, Lib.run (step Demo.panelServer) (Worker.start Demo.crypto 0) ls = some w ∧
      w.reqs 0 = some q ∧ q.stage.Reaches p ∧ ¬Judged Demo.panel q.seen.isFile q.client.address q.log p) ∧
    ∃ ls w q p, Lib.run (step Demo.panelServer) (Worker.start Demo.crypto 0) ls = some w ∧
      w.reqs 0 = some q ∧ q.stage.Reaches p ∧ ¬Judged Demo.page q.seen.isFile q.client.address q.log p := by
  constructor
  · obtain ⟨w, q, hw, hq, hreach, hlog⟩ := Demo.reached_spec (show
      Demo.reached (Demo.run 0 (bytes "/index.php/cp") []) =
        some (bytes "/index.php/cp", none, [(bytes "/", true), (bytes "/", false)]) by decide +kernel)
    refine ⟨_, w, q, _, hw, hq, hreach, ?_⟩
    intro hj
    -- the part after the script is Bob's
    have hmem := passed_of_judged hj (r := bytes "/cp") (by decide +kernel)
      (a := { path := bytes "/cp", rooted := by decide, users := 2 }) (by decide +kernel) rfl
    rw [hlog] at hmem
    revert hmem
    decide +kernel
  · obtain ⟨w, q, hw, hq, hreach, hlog⟩ := Demo.reached_spec (show
      Demo.reached [.arrive (Demo.alice 1 (bytes "/a;x/")), .route 0 {}, .serve 0 Demo.disk true] =
        some (bytes "/a;x/", some (bytes "index.html"), []) by decide +kernel)
    refine ⟨_, w, q, _, hw, hq, hreach, ?_⟩
    intro hj
    -- without its parameter the index is the page
    have hmem := passed_of_judged hj (r := bytes "/a/index.html") (by decide +kernel)
      (a := { path := bytes "/a/index.html", isExact := true, rooted := by decide, users := 1 })
      (by decide +kernel) rfl
    rw [hlog] at hmem
    cases hmem

end Agensio.Dispatch
