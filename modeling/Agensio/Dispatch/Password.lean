/-
  Agensio.Dispatch.Password — whose password was checked.

  A request may meet several password rules: the one of its own path, the
  ones of the paths `index` and `try_files` send it on to, and all of them
  again after a verification.  What a rule is owed is that the login the
  client sent stands in THAT RULE'S user file; what the client is owed is
  that a login which stands in the file of every rule met is never turned
  away with a 401.

  The result of a verification belongs to the request, not to the rule that
  asked, and a rule that strips the Authorization field strips it for the
  rules after it too.  `Fits` is the condition under which neither shows: a
  rule about to be asked finds the field as the client sent it, and a
  verified result is one for its own file.

  Main results:
    * `login_stands_in_rule` — over every run whose steps fit.
-/
import Agensio.Lib.Runs
import Agensio.Dispatch.Dispatcher

namespace Agensio.Dispatch

/-! ## §1. A login that stands in a file. -/

namespace UserFile

variable {f : UserFile} {u : User}

theorem named?_of_mem (hu : u ∈ f.users) : f.named? u.name = some u := by
  unfold named?
  have hn := f.named
  generalize f.users = us at hu hn
  induction us with
  | nil => cases hu
  | cons v vs ih =>
    rw [List.map_cons, List.nodup_cons] at hn
    rw [List.find?_cons]
    rcases List.mem_cons.mp hu with rfl | hu
    · simp
    have hne : v.name ≠ u.name := fun h => hn.1 (h ▸ List.mem_map_of_mem hu)
    simp only [hne, decide_false]
    exact ih hu hn.2

theorem mem_of_named? {name : Bytes} (h : f.named? name = some u) : u ∈ f.users ∧ u.name = name := by
  unfold named? at h
  exact ⟨List.mem_of_find?_eq_some h, by simpa using List.find?_some h⟩

theorem foldl_expires_of_notMem {name : Bytes} (us : List User) (e : Nat) (h : name ∉ us.map User.name) :
    us.foldl (fun e u => if u.name = name then u.expires else e) e = e := by
  induction us generalizing e with
  | nil => rfl
  | cons v vs ih =>
    rw [List.map_cons, List.mem_cons, not_or] at h
    rw [List.foldl_cons, if_neg (fun hv => h.1 hv.symm)]
    exact ih e h.2

/-- A name is listed once, so its last line is its only one. -/
theorem lastExpires_of_mem (hu : u ∈ f.users) : f.lastExpires u.name = u.expires := by
  unfold lastExpires
  have hn := f.named
  generalize 0 = e
  generalize f.users = us at hu hn
  induction us generalizing e with
  | nil => cases hu
  | cons v vs ih =>
    rw [List.map_cons, List.nodup_cons] at hn
    rw [List.foldl_cons]
    rcases List.mem_cons.mp hu with rfl | hu
    · rw [if_pos rfl]
      exact foldl_expires_of_notMem vs _ hn.1
    · exact ih _ hu hn.2

end UserFile

section Stands

variable {K : Crypto}

variable (K) in
/-- The login in `value` is an unlocked user's of the file, unexpired at `t`. -/
def Stands (f : UserFile) (value : Bytes) (t : Nat) : Prop :=
  ∃ user password, parseBasic value = .ok user password ∧
    ∃ u ∈ f.users, u.name = user ∧ u.locked = false ∧ K.verify password u.hash = true ∧
      u.unexpired t = true

variable (K) in
/-- It stood in the file at some moment of the request. -/
def Stood (f : UserFile) (value : Bytes) (since clock : Nat) : Prop :=
  ∃ t, since ≤ t ∧ t ≤ clock ∧ Stands K f value t

variable {f : UserFile} {value : Bytes}

variable {s t : Nat}

theorem User.unexpired_mono {u : User} (h : u.unexpired t = true) (hst : s ≤ t) : u.unexpired s = true := by
  simp only [User.unexpired, Bool.or_eq_true, decide_eq_true_eq] at h ⊢
  omega

/-- What stands stood before: no line is opened by waiting. -/
theorem Stands.mono (h : Stands K f value t) (hst : s ≤ t) : Stands K f value s := by
  obtain ⟨user, password, hp, u, hu, hn, hl, hv, hx⟩ := h
  exact ⟨user, password, hp, u, hu, hn, hl, hv, User.unexpired_mono hx hst⟩

theorem Stood.mono {since clock clock' : Nat} (h : Stood K f value since clock)
    (hc : clock ≤ clock') : Stood K f value since clock' := by
  obtain ⟨t, h₁, h₂, hs⟩ := h
  exact ⟨t, h₁, h₂.trans hc, hs⟩

theorem not_stands_mono (h : ¬Stands K f value s) (hst : s ≤ t) :
    ¬Stands K f value t := fun hc => h (hc.mono hst)

/-- A login is remembered no longer than its line lasts. -/
theorem unexpired_of_lt_remember {u : User} {now : Nat} (ht : t < rememberUntil now u.expires) :
    u.unexpired t = true := by
  unfold rememberUntil at ht
  unfold User.unexpired
  by_cases hx : u.expires = 0
  · simp [hx]
  rw [if_neg hx] at ht
  have : t < u.expires := lt_of_lt_of_le ht (min_le_right _ _)
  simp [this]

/-- The job of a login ends well exactly when the login stands. -/
theorem finishJob_verified_iff {cache : Cache K} {clock : Nat} {user password : Bytes}
    (hp : parseBasic value = .ok user password) :
    (finishJob cache clock (jobFor f user password)).1 = .verified ↔ Stands K f value clock := by
  have hstands : Stands K f value clock ↔
      ∃ u ∈ f.users, u.name = user ∧ u.locked = false ∧ K.verify password u.hash = true ∧
        u.unexpired clock = true := by
    constructor
    · rintro ⟨user', password', hp', hu⟩
      rw [hp] at hp'
      cases hp'
      exact hu
    · intro hu
      exact ⟨user, password, hp, hu⟩
  rw [hstands]
  have hjob : (finishJob cache clock (jobFor f user password)).1 = .verified ↔
      ((f.named? user).isSome && !(f.named? user).any User.locked &&
        K.verify password (f.hashFor user) &&
        (((f.named? user).map User.expires).getD 0 = 0 ||
          clock < ((f.named? user).map User.expires).getD 0)) = true := by
    unfold finishJob jobFor
    split
    · next h => exact ⟨fun _ => h, fun _ => rfl⟩
    · next h => exact ⟨fun hc => (by cases hc), fun hc => absurd hc h⟩
  rw [hjob]
  constructor
  · intro h
    cases hu : f.named? user with
    | none => simp [hu] at h
    | some u =>
      obtain ⟨hmem, hname⟩ := UserFile.mem_of_named? hu
      simp only [hu, UserFile.hashFor, Option.isSome_some, Option.any_some, Option.map_some,
        Option.getD_some, Bool.true_and, Bool.and_eq_true, Bool.not_eq_true'] at h
      exact ⟨u, hmem, hname, h.1.1, h.1.2, h.2⟩
  · rintro ⟨u, hmem, rfl, hl, hv, hx⟩
    have hu := UserFile.named?_of_mem hmem
    simp only [hu, UserFile.hashFor, Option.isSome_some, Option.any_some, Option.map_some,
      Option.getD_some, Bool.true_and, Bool.and_eq_true, Bool.not_eq_true']
    exact ⟨⟨hl, hv⟩, hx⟩

/-- A login found in the cache stands. -/
theorem stands_of_remembered {cache : Cache K} (hc : cache.Sound) {now : Nat}
    {user password : Bytes} {u : User} (hu : remembered now cache f user password = some u) :
    u ∈ f.users ∧ u.name = user ∧ u.locked = false ∧ K.verify password u.hash = true ∧
      u.unexpired now = true := by
  unfold remembered at hu
  rw [Option.filter_eq_some_iff] at hu
  obtain ⟨hn, hu⟩ := hu
  obtain ⟨hmem, hname⟩ := UserFile.mem_of_named? hn
  simp only [Bool.and_eq_true, Bool.not_eq_true'] at hu
  have hv := hc.find hu.2
  rw [UserFile.hashFor, hn] at hv
  exact ⟨hmem, hname, hu.1.1, hv, hu.1.2⟩

end Stands

/-! ## §2. What one round asks. -/

section Rounds

variable {K : Crypto} (srv : Server K)

/-- The rule the request's next round asks. -/
def ruleAhead (w : Worker K) (q : Req) (disk : Disk) : Option AuthRule :=
  (pathAhead srv w q disk).bind fun p => p.1.authProtectingRule disk.isFile p.2

/-- A stage the password rules had no part in. -/
def Stage.Silent : Stage → Prop
  | .verifying => False
  | .answered (.auth _) => False
  | _ => True

theorem Stage.silent_enter (loc : Location) (path : Bytes) (hops : Nat) (allowed : Bool) :
    (enter loc path hops allowed).Silent := by
  unfold enter
  split <;> trivial

theorem Stage.silent_routeTo (q : Arrival) (site : Site) (path : Bytes) (encoded : Bool) :
    (routeTo q site path encoded).Silent := by
  unfold routeTo
  dsimp only
  generalize (if (site.httpRedirect && q.plain) = true then _ else _) = loc
  split
  · trivial
  split
  · trivial
  split
  · trivial
  split
  · trivial
  · exact silent_enter _ _ _ _

theorem Stage.silent_hopTo (q : Arrival) (site : Site) (path : Bytes) (hops : Nat) :
    (hopTo q site path hops).Silent := by
  unfold hopTo
  split
  · trivial
  · exact silent_enter _ _ _ _

/-- What a round makes of the worker: nothing was asked, or the rule ahead was. -/
def Rounds (w : Worker K) (i : Nat) (q : Req) (disk : Disk) (w' : Worker K) : Prop :=
  ∃ seen,
    (∃ files go, go.Silent ∧
      w' = Round.finish ⟨{ w with files := files }, { q with seen := seen }, none⟩ i go) ∨
    ∃ rule go, go.Silent ∧ ruleAhead srv w q disk = some rule ∧
      w' = (askRule srv w i { q with seen := seen } rule).finish i go

variable {srv} {w : Worker K} {i : Nat} {q : Req} {a₀ : Arrival} {disk : Disk}

variable {a : Answer} {site : Site} {path : Bytes}

/-- An answer that is not a password rule's. -/
theorem Stage.silent_answered (h : ∀ s, a ≠ .auth s) : (Stage.answered a).Silent := by
  cases a with
  | auth s => exact absurd rfl (h s)
  | _ => trivial

theorem routePath_silent (h : routePath srv a₀ = .error a) : ∀ s, a ≠ .auth s := by
  intro s hs
  subst hs
  unfold routePath at h
  repeat' split at h
  all_goals cases h

theorem routeEarly_silent {encoded : Bool}
    (h : routeEarly a₀ site disk path encoded = some a) : ∀ s, a ≠ .auth s := by
  intro s hs
  subst hs
  unfold routeEarly at h
  dsimp only at h
  repeat' split at h
  all_goals cases h

theorem hopEarly_silent {hops : Nat} (h : hopEarly a₀ site disk path hops = some a) : ∀ s, a ≠ .auth s := by
  intro s hs
  subst hs
  unfold hopEarly at h
  repeat' split at h
  all_goals cases h

/-- **A round of `route` asks the rule ahead or none.** -/
theorem rounds_route (hstage : q.stage = .routing) : Rounds srv w i q disk (route srv w i q disk) := by
  refine ⟨disk, ?_⟩
  unfold route
  dsimp only
  cases hpath : routePath srv q.toArrival with
  | error a => exact .inl ⟨w.files, _, Stage.silent_answered (routePath_silent hpath), rfl⟩
  | ok t =>
    obtain ⟨site, path, encoded⟩ := t
    dsimp only
    cases hearly : routeEarly q.toArrival site disk path encoded with
    | some a => exact .inl ⟨w.files, _, Stage.silent_answered (routeEarly_silent hearly), rfl⟩
    | none =>
      dsimp only
      split
      · exact .inl ⟨w.files, _, Stage.silent_routeTo .., rfl⟩
      next hskip =>
      unfold guardAuth
      cases hrule : site.authProtectingRule disk.isFile path with
      | none => exact .inl ⟨w.files, _, Stage.silent_routeTo .., rfl⟩
      | some rule =>
        refine .inr ⟨rule, _, Stage.silent_routeTo .., ?_, rfl⟩
        unfold ruleAhead
        rw [pathAhead_route hstage hpath hearly (by simpa using hskip)]
        exact hrule

/-- **A round of `serve_static` asks the rule ahead or none.** -/
theorem rounds_serve {loc : Location} {hops : Nat} {allowed keep : Bool}
    (hstage : q.stage = .located loc path hops allowed)
    (hsite : (q.site.bind fun k => srv.sites[k]?) = some site) :
    Rounds srv w i q disk (serveStatic srv w i q site loc path hops allowed disk keep) := by
  have hserves : site.Serves w.files loc path (site.serveLocation w.files loc disk path allowed) :=
    Site.serveLocation_serves _ _
  unfold serveStatic
  cases hserve : site.serveLocation w.files loc disk path allowed with
  | done a =>
    rw [hserve] at hserves
    cases hserves with
    | done ha => exact ⟨q.seen, .inl ⟨w.files, _, Stage.silent_answered ha, rfl⟩⟩
  | file name => exact ⟨q.seen, .inl ⟨_, .served path name, trivial, rfl⟩⟩
  | redirect path' =>
    refine ⟨disk, ?_⟩
    dsimp only
    cases hearly : hopEarly q.toArrival site disk path' (hops + 1) with
    | some a => exact .inl ⟨w.files, _, Stage.silent_answered (hopEarly_silent hearly), rfl⟩
    | none =>
      unfold guardAuth
      cases hrule : site.authProtectingRule disk.isFile path' with
      | none => exact .inl ⟨w.files, _, Stage.silent_hopTo .., rfl⟩
      | some rule =>
        refine .inr ⟨rule, _, Stage.silent_hopTo .., ?_, rfl⟩
        unfold ruleAhead
        rw [pathAhead_serve hstage hsite hserve hearly]
        exact hrule

end Rounds

/-! ## §3. The condition. -/

section Fit

variable {K : Crypto} (srv : Server K)

/-- The request has already been let in by this load. -/
def Req.LetIn (q : Req) (users : Nat) : Prop :=
  ∃ c ∈ q.log, c.allowed = true ∧ c.skipped = false ∧ c.rule.users = users

instance (q : Req) (users : Nat) : Decidable (q.LetIn users) :=
  inferInstanceAs (Decidable (∃ c ∈ q.log, _))

/-- A rule that will ask finds the field as the client sent it, and a verified result is one for
    its own file. -/
def Fits (q : Req) (rule : AuthRule) : Prop :=
  rule.skips q.ask.client = false →
    q.ask.authorization = q.authorization ∧
      (q.ask.auth.result = .verified → q.asked = some rule.users ∨ q.LetIn rule.users)

instance (q : Req) (rule : AuthRule) : Decidable (Fits q rule) :=
  inferInstanceAs (Decidable (_ → _))

/-- The rule ahead of request `i`, if there is one, fits. -/
def FitsAhead (w : Worker K) (i : Nat) (disk : Disk) : Prop :=
  ∀ p ∈ ((w.reqs i).bind fun q => (ruleAhead srv w q disk).map fun rule => (q, rule)).toList,
    Fits p.1 p.2

instance (w : Worker K) (i : Nat) (disk : Disk) : Decidable (FitsAhead srv w i disk) :=
  inferInstanceAs (Decidable (∀ p ∈ Option.toList (_ : Option (Req × AuthRule)), Fits p.1 p.2))

/-- The condition on a step: its round fits. -/
def Fitting (w : Worker K) : Label → Prop
  | .route i disk => FitsAhead srv w i disk
  | .serve i disk _ => FitsAhead srv w i disk
  | _ => True

instance (w : Worker K) : ∀ l, Decidable (Fitting srv w l)
  | .route i disk => inferInstanceAs (Decidable (FitsAhead srv w i disk))
  | .serve i disk _ => inferInstanceAs (Decidable (FitsAhead srv w i disk))
  | .tick | .read | .arrive _ | .finish _ | .full _ | .close _ | .evict _ _ =>
    inferInstanceAs (Decidable True)

variable {srv}

theorem FitsAhead.fits {w : Worker K} {i : Nat} {disk : Disk} {q : Req} {rule : AuthRule}
    (h : FitsAhead srv w i disk) (hq : w.reqs i = some q)
    (hr : ruleAhead srv w q disk = some rule) : Fits q rule := by
  apply h (q, rule)
  rw [hq, Option.bind_some, hr]
  exact List.mem_singleton_self _

end Fit

/-! ## §4. The histories agree with the user files. -/

section Invariant

variable {K : Crypto} (srv : Server K)

/-- A remembered login stands for as long as it is remembered. -/
def AuthMemo.Ok (m : AuthMemo) : Prop :=
  ∀ t, t < m.until_ → Stands K (srv.load m.usersId) m.value t

/-- A check of the request asked a file the login does not stand in. -/
def Req.TurnedAway (q : Req) (clock : Nat) : Prop :=
  ∃ c ∈ q.log, c.skipped = false ∧ ¬Stands K (srv.load c.rule.users) q.authorization clock

/-- Every rule that let the client in found its login in that rule's own file. -/
def Req.Vouched (q : Req) (clock : Nat) : Prop :=
  ∀ c ∈ q.log, c.allowed = true → c.skipped = false →
    Stood K (srv.load c.rule.users) q.authorization q.since clock

/-- What a request knows agrees with the user files. -/
structure Req.Ok (now clock : Nat) (q : Req) : Prop where
  since : q.since ≤ now
  allowed : q.Vouched srv clock
  verified : q.ask.auth.result = .verified →
    ∃ f, q.asked = some f ∧ Stood K (srv.load f) q.authorization q.since clock
  failed : q.ask.auth.result = .failed → q.TurnedAway srv clock
  challenged : q.stage = .answered (.auth 401) → q.TurnedAway srv clock

/-- Request `q` waits for the pool to check this login against the load `f`. -/
structure Req.Awaits (q : Req) (f : Nat) (user password : Bytes) : Prop where
  stage : q.stage = .verifying
  asked : q.asked = some f
  logged : ∃ c ∈ q.log, c.skipped = false ∧ c.rule.users = f
  login : parseBasic q.authorization = .ok user password

/-- What every step keeps. -/
structure Inv (w : Worker K) : Prop where
  now_le : w.now ≤ w.clock
  cache : w.cache.Sound
  memos : ∀ c, (w.memos c).Ok srv
  reqs : ∀ i q, w.reqs i = some q → i < w.next ∧ q.Ok srv w.now w.clock
  jobs : ∀ p ∈ w.jobs, p.1 < w.next ∧ ∃ f user password,
    p.2 = jobFor (srv.load f) user password ∧
      ∀ q, w.reqs p.1 = some q → q.Awaits f user password

variable {srv}

theorem Req.TurnedAway.mono {q : Req} {clock clock' : Nat} (h : q.TurnedAway srv clock)
    (hc : clock ≤ clock') : q.TurnedAway srv clock' := by
  obtain ⟨c, hmem, hs, hn⟩ := h
  exact ⟨c, hmem, hs, not_stands_mono hn hc⟩

theorem Req.Ok.mono {q : Req} {now now' clock clock' : Nat} (h : q.Ok srv now clock)
    (hn : now ≤ now') (hc : clock ≤ clock') : q.Ok srv now' clock' where
  since := h.since.trans hn
  allowed := fun c hmem ha hs => (h.allowed c hmem ha hs).mono hc
  verified := fun hv => by
    obtain ⟨f, hf, hst⟩ := h.verified hv
    exact ⟨f, hf, hst.mono hc⟩
  failed := fun hv => (h.failed hv).mono hc
  challenged := fun hv => (h.challenged hv).mono hc

/-! ### One check. -/

section Checked

variable {now clock : Nat} {cache : Cache K} {memo memo' : AuthMemo} {q : Req} {rule : AuthRule}
  {o : AuthOutcome K} {ask' : Asking}

theorem checked_result (h : Checked srv.load now cache memo q.ask rule o ask' memo') :
    ask'.auth.result = q.ask.auth.result := by
  cases h <;> first
    | rfl
    | (unfold Asking.strip; split <;> rfl)

/-- A verified result the rule may use is a login of its own file. -/
theorem stood_of_verified (hq : q.Ok srv now clock) (hf : Fits q rule)
    (hs : rule.skips q.ask.client = false) (hr : q.ask.auth.result = .verified) :
    Stood K (srv.load rule.users) q.authorization q.since clock := by
  rcases (hf hs).2 hr with ha | ⟨c, hc, ha, hcs, hu⟩
  · obtain ⟨f, hf', hst⟩ := hq.verified hr
    rw [ha] at hf'
    cases hf'
    exact hst
  · rw [← hu]
    exact hq.allowed c hc ha hcs

/-- What a rule remembers stands. -/
theorem ok_remember {user password : Bytes} {u : User}
    (hp : parseBasic q.ask.authorization = .ok user password)
    (hu : u ∈ (srv.load rule.users).users) (hname : u.name = user) (hl : u.locked = false)
    (hv : K.verify password u.hash = true) : (remember q.ask rule now user u.expires).Ok srv := by
  intro t ht
  exact ⟨user, password, hp, u, hu, hname, hl, hv, unexpired_of_lt_remember ht⟩

theorem checked_memo (hm : memo.Ok srv) (hc : cache.Sound) (hq : q.Ok srv now clock)
    (hf : Fits q rule) (h : Checked srv.load now cache memo q.ask rule o ask' memo') : memo'.Ok srv := by
  cases h with
  | verified hs hp hr =>
    obtain ⟨t, -, -, user, password, hp', u, hu, hname, hl, hv, -⟩ := stood_of_verified hq hf hs hr
    rw [← (hf hs).1, hp] at hp'
    cases hp'
    rw [← hname, UserFile.lastExpires_of_mem hu, hname]
    exact ok_remember hp hu hname hl hv
  | cached hs hp hr hu =>
    obtain ⟨hmem, hname, hl, hv, -⟩ := stands_of_remembered hc hu
    exact ok_remember hp hmem hname hl hv
  | _ => exact hm

/-- **A rule that lets a client in found its login in its own file.** -/
theorem checked_allowed (hnow : now ≤ clock) (hm : memo.Ok srv) (hc : cache.Sound)
    (hq : q.Ok srv now clock) (hf : Fits q rule)
    (h : Checked srv.load now cache memo q.ask rule .allowed ask' memo')
    (hs : rule.skips q.ask.client = false) : Stood K (srv.load rule.users) q.authorization q.since clock := by
  cases h with
  | skipped hs' => rw [hs] at hs'; cases hs'
  | memo _ hh =>
    simp only [AuthMemo.hits, Bool.and_eq_true, decide_eq_true_eq] at hh
    have hst := hm now hh.1.1.2
    rw [hh.1.1.1.2, hh.1.2, (hf hs).1] at hst
    exact ⟨now, hq.since, hnow, hst⟩
  | verified _ _ hr => exact stood_of_verified hq hf hs hr
  | cached _ hp _ hu =>
    have hu' := stands_of_remembered hc hu
    rw [(hf hs).1] at hp
    exact ⟨now, hq.since, hnow, _, _, hp, _, hu'⟩

/-- A 401 is for a login that does not stand. -/
theorem checked_challenged (hq : q.Ok srv now clock) (hf : Fits q rule)
    (h : Checked srv.load now cache memo q.ask rule (.answered 401) ask' memo') :
    (rule.skips q.ask.client = false ∧ ¬Stands K (srv.load rule.users) q.authorization clock) ∨
      q.TurnedAway srv clock := by
  cases h with
  | unreadable hs hp =>
    refine .inl ⟨hs, ?_⟩
    rintro ⟨user, password, hp', -⟩
    rw [← (hf hs).1] at hp'
    exact hp user password hp'
  | failed hs _ hr => exact .inr (hq.failed hr)

theorem checked_pending {job : Job K}
    (h : Checked srv.load now cache memo q.ask rule (.pending job) ask' memo') :
    rule.skips q.ask.client = false ∧ ∃ user password,
      parseBasic q.ask.authorization = .ok user password ∧ q.ask.auth.result = .unasked ∧
        job = jobFor (srv.load rule.users) user password := by
  cases h with
  | pending hs hp hr => exact ⟨hs, _, _, hp, hr, rfl⟩

end Checked

/-! ### One round. -/

/-- A request that is not waiting has no job. -/
theorem Inv.no_job {w : Worker K} (h : Inv srv w) {i : Nat} {q : Req} (hq : w.reqs i = some q)
    (hstage : q.stage ≠ .verifying) : ∀ p ∈ w.jobs, p.1 ≠ i := by
  rintro p hp rfl
  obtain ⟨-, f, user, password, -, hw⟩ := h.jobs p hp
  exact hstage (hw q hq).stage

/-- The other requests and their jobs are as they were. -/
theorem Inv.update {w : Worker K} (h : Inv srv w) {i : Nat} {q q' : Req} (hq : w.reqs i = some q)
    (hfree : ∀ p ∈ w.jobs, p.1 ≠ i) (files : List CachedFile) {memos : Nat → AuthMemo}
    (hm : ∀ c, (memos c).Ok srv) (hq' : q'.Ok srv w.now w.clock) :
    Inv srv { w with memos := memos, files := files, reqs := Function.update w.reqs i (some q') } where
  now_le := h.now_le
  cache := h.cache
  memos := hm
  reqs := by
    intro j r hr
    dsimp only at hr
    by_cases hj : j = i
    · subst hj
      rw [Function.update_self] at hr
      cases hr
      exact ⟨(h.reqs j q hq).1, hq'⟩
    · rw [Function.update_of_ne hj] at hr
      exact h.reqs j r hr
  jobs := by
    intro p hp
    obtain ⟨hlt, f, user, password, hjob, hw⟩ := h.jobs p hp
    refine ⟨hlt, f, user, password, hjob, ?_⟩
    intro r hr
    dsimp only at hr
    rw [Function.update_of_ne (hfree p hp)] at hr
    exact hw r hr

/-- A round that asks nobody. -/
theorem Inv.silent {w : Worker K} (h : Inv srv w) {i : Nat} {q : Req} (hq : w.reqs i = some q)
    (hstage : q.stage ≠ .verifying) (seen : Disk) (files : List CachedFile) {go : Stage} (hgo : go.Silent) :
    Inv srv (Round.finish ⟨{ w with files := files }, { q with seen := seen }, none⟩ i go) := by
  have hok := (h.reqs i q hq).2
  refine h.update hq (h.no_job hq hstage) files h.memos ⟨hok.since, hok.allowed, hok.verified, hok.failed, ?_⟩
  intro hc
  obtain rfl : go = .answered (.auth 401) := hc
  exact hgo.elim

/-- A round that asks a rule that fits. -/
theorem Inv.ask {w : Worker K} (h : Inv srv w) {i : Nat} {q₀ q : Req} (hq : w.reqs i = some q₀)
    (hstage : q₀.stage ≠ .verifying) (hok : q.Ok srv w.now w.clock) {rule : AuthRule}
    (hf : Fits q rule) {go : Stage} (hgo : go.Silent) : Inv srv ((askRule srv w i q rule).finish i go) := by
  obtain ⟨o, ask', memo', hr⟩ : ∃ o ask' memo', checkAuth srv.load srv.verifier w.now w.cache
      w.jobs.length (w.memos q.conn) q.ask rule = (o, ask', memo') := ⟨_, _, _, rfl⟩
  have hcheck := checkAuth_spec _ _ _ _ _ _ _ _ hr
  have hres := checked_result hcheck
  have hmemo := checked_memo (h.memos _) h.cache hok hf hcheck
  have hmemos : ∀ c, (Function.update w.memos q.conn memo' c).Ok srv := by
    intro c
    by_cases hc : c = q.conn
    · rw [hc, Function.update_self]
      exact hmemo
    rw [Function.update_of_ne hc]
    exact h.memos c
  cases o with
  | allowed =>
    have hround : (askRule srv w i q rule).finish i go = { w with
        memos := Function.update w.memos q.conn memo'
        reqs := Function.update w.reqs i (some { q with
          ask := ask', log := ⟨rule, rule.skips q.ask.client, true⟩ :: q.log, stage := go }) } := by
      simp only [askRule, hr, Round.finish]
      rfl
    rw [hround]
    refine h.update hq (h.no_job hq hstage) w.files hmemos ⟨hok.since, ?_, ?_, ?_, ?_⟩
    · intro c hc ha hs
      rcases List.mem_cons.mp hc with rfl | hc
      · have hst := checked_allowed h.now_le (h.memos _) h.cache hok hf hcheck hs
        exact hst
      · exact hok.allowed c hc ha hs
    · exact fun hv => hok.verified (hres.symm.trans hv)
    · intro hv
      obtain ⟨c, hc, hn⟩ := hok.failed (hres.symm.trans hv)
      exact ⟨c, .tail _ hc, hn⟩
    · intro hc
      obtain rfl : go = .answered (.auth 401) := hc
      exact hgo.elim
  | answered status =>
    have hround : (askRule srv w i q rule).finish i go = { w with
        memos := Function.update w.memos q.conn memo'
        reqs := Function.update w.reqs i (some { q with
          ask := ask', log := ⟨rule, rule.skips q.ask.client, false⟩ :: q.log,
          stage := .answered (.auth status) }) } := by
      simp only [askRule, hr, Round.finish]
      rfl
    rw [hround]
    refine h.update hq (h.no_job hq hstage) w.files hmemos ⟨hok.since, ?_, ?_, ?_, ?_⟩
    · intro c hc ha hs
      rcases List.mem_cons.mp hc with rfl | hc
      · cases ha
      · exact hok.allowed c hc ha hs
    · exact fun hv => hok.verified (hres.symm.trans hv)
    · intro hv
      obtain ⟨c, hc, hn⟩ := hok.failed (hres.symm.trans hv)
      exact ⟨c, .tail _ hc, hn⟩
    · intro hc
      obtain rfl : status = 401 := by
        cases hc
        rfl
      rcases checked_challenged hok hf hcheck with ⟨hs, hn⟩ | ⟨c, hmem, hn⟩
      · exact ⟨_, .head _, hs, hn⟩
      · exact ⟨c, .tail _ hmem, hn⟩
  | pending job =>
    have hround : (askRule srv w i q rule).finish i go = { w with
        memos := Function.update w.memos q.conn memo'
        jobs := (i, job) :: w.jobs
        reqs := Function.update w.reqs i (some { q with
          ask := ask', log := ⟨rule, rule.skips q.ask.client, false⟩ :: q.log,
          asked := some rule.users, stage := .verifying }) } := by
      simp only [askRule, hr, Round.finish]
      rfl
    rw [hround]
    obtain ⟨hs, user, password, hp, hun, rfl⟩ := checked_pending hcheck
    have hq' : Req.Ok srv w.now w.clock { q with
        ask := ask', log := ⟨rule, rule.skips q.ask.client, false⟩ :: q.log,
        asked := some rule.users, stage := .verifying } := by
      refine ⟨hok.since, ?_, ?_, ?_, ?_⟩
      · intro c hc ha hcs
        rcases List.mem_cons.mp hc with rfl | hc
        · cases ha
        · exact hok.allowed c hc ha hcs
      · intro hv
        cases hun.symm.trans (hres.symm.trans hv)
      · intro hv
        cases hun.symm.trans (hres.symm.trans hv)
      · intro hc
        cases hc
    have hupd := h.update hq (h.no_job hq hstage) w.files hmemos hq'
    refine ⟨hupd.now_le, hupd.cache, hupd.memos, hupd.reqs, ?_⟩
    intro p hmem
    rcases List.mem_cons.mp hmem with rfl | hmem
    · refine ⟨(h.reqs i q₀ hq).1, rule.users, user, password, rfl, ?_⟩
      intro r hr
      dsimp only at hr
      rw [Function.update_self] at hr
      cases hr
      exact ⟨rfl, rfl, ⟨_, .head _, hs, rfl⟩, (hf hs).1 ▸ hp⟩
    · exact hupd.jobs p hmem

/-! ### The completions. -/

/-- A verification ends: the request routes again with its result. -/
theorem Inv.resume {w : Worker K} (h : Inv srv w) {i : Nat} (hfree : ∀ p ∈ w.jobs, p.1 ≠ i)
    {r : AuthResult} (hv : r = .verified → ∀ q, w.reqs i = some q →
      ∃ f, q.asked = some f ∧ Stands K (srv.load f) q.authorization w.clock)
    (hf : r = .failed → ∀ q, w.reqs i = some q → q.TurnedAway srv w.clock) : Inv srv (resume w i r) := by
  unfold Dispatch.resume
  cases hq : w.reqs i with
  | none => exact h
  | some q =>
    have hok := (h.reqs i q hq).2
    refine h.update hq hfree w.files h.memos ⟨hok.since, hok.allowed, ?_, ?_, ?_⟩
    · intro hr
      obtain ⟨f, ha, hst⟩ := hv hr q hq
      exact ⟨f, ha, w.clock, hok.since.trans h.now_le, le_refl _, hst⟩
    · intro hr
      exact hf hr q hq
    · intro hc
      cases hc

/-- The request's verification is taken off the list. -/
theorem Inv.drop {w : Worker K} (h : Inv srv w) (i : Nat) {cache : Cache K} (hc : cache.Sound) :
    Inv srv { w with jobs := Lib.dropAt w.jobs i, cache := cache } :=
  ⟨h.now_le, hc, h.memos, h.reqs, fun p hp => h.jobs p (Lib.mem_dropAt.mp hp).1⟩

theorem finishJob_sound {cache : Cache K} (hc : cache.Sound) (clock : Nat) (f : UserFile)
    (user password : Bytes) : (finishJob cache clock (jobFor f user password)).2.Sound := by
  unfold finishJob
  split
  · next hok =>
    simp only [Bool.and_eq_true] at hok
    exact hc.insert hok.1.2 _
  · exact hc

theorem finishJob_failed {cache : Cache K} {clock : Nat} {job : Job K}
    (h : (finishJob cache clock job).1 = .failed) : (finishJob cache clock job).1 ≠ .verified := by
  rw [h]
  exact fun hc => by cases hc

theorem Inv.finish {w : Worker K} (h : Inv srv w) {i : Nat} {job : Job K} (hl : w.jobs.lookup i = some job) :
    Inv srv (Dispatch.resume { w with
      jobs := Lib.dropAt w.jobs i, cache := (finishJob w.cache w.clock job).2 } i
      (finishJob w.cache w.clock job).1) := by
  obtain ⟨-, f, user, password, rfl, hw⟩ := h.jobs _ (Lib.mem_of_lookup hl)
  apply (h.drop i (finishJob_sound h.cache w.clock _ user password)).resume
  · intro p hp
    exact (Lib.mem_dropAt.mp hp).2
  · intro hr q hq
    have haw := hw q hq
    exact ⟨f, haw.asked, (finishJob_verified_iff haw.login).mp hr⟩
  · intro hr q hq
    have haw := hw q hq
    obtain ⟨c, hc, hs, hu⟩ := haw.logged
    refine ⟨c, hc, hs, ?_⟩
    intro hst
    rw [hu] at hst
    exact finishJob_failed hr ((finishJob_verified_iff haw.login).mpr hst)

/-! ### The worker. -/

theorem Inv.rounds {w w' : Worker K} (h : Inv srv w) {i : Nat} {q : Req} {disk : Disk}
    (hq : w.reqs i = some q) (hstage : q.stage ≠ .verifying) (hfit : FitsAhead srv w i disk)
    (hr : Rounds srv w i q disk w') : Inv srv w' := by
  obtain ⟨seen, ⟨files, go, hgo, rfl⟩ | ⟨rule, go, hgo, hrule, rfl⟩⟩ := hr
  · exact h.silent hq hstage seen files hgo
  have hok := (h.reqs i q hq).2
  have hok' : Req.Ok srv w.now w.clock { q with seen := seen } :=
    ⟨hok.since, hok.allowed, hok.verified, hok.failed, hok.challenged⟩
  have hfits : Fits q rule := hfit.fits hq hrule
  exact h.ask hq hstage hok' hfits hgo

/-- **One step that fits.** -/
theorem Inv.step {w w' : Worker K} {l : Label} (h : Inv srv w) (hfit : Fitting srv w l)
    (hs : step srv w l = some w') : Inv srv w' := by
  cases l with
  | tick =>
    cases hs
    have hc : w.clock ≤ w.clock + 1 := Nat.le_succ _
    refine ⟨h.now_le.trans hc, h.cache, h.memos, ?_, h.jobs⟩
    intro i q hq
    exact ⟨(h.reqs i q hq).1, (h.reqs i q hq).2.mono le_rfl hc⟩
  | read =>
    cases hs
    refine ⟨le_refl _, h.cache, h.memos, ?_, h.jobs⟩
    intro i q hq
    exact ⟨(h.reqs i q hq).1, (h.reqs i q hq).2.mono h.now_le le_rfl⟩
  | arrive a =>
    cases hs
    refine ⟨le_refl _, h.cache, h.memos, ?_, ?_⟩
    · intro i q hq
      dsimp only at hq ⊢
      by_cases hi : i = w.next
      · subst hi
        rw [Function.update_self] at hq
        cases hq
        refine ⟨Nat.lt_succ_self _, le_refl _, ?_, ?_, ?_, ?_⟩
        · intro c hc
          cases hc
        all_goals
          intro hc
          cases hc
      · rw [Function.update_of_ne hi] at hq
        have hold := h.reqs i q hq
        exact ⟨Nat.lt_succ_of_lt hold.1, hold.2.mono h.now_le le_rfl⟩
    · intro p hp
      obtain ⟨hlt, f, user, password, hjob, hw⟩ := h.jobs p hp
      refine ⟨Nat.lt_succ_of_lt hlt, f, user, password, hjob, ?_⟩
      intro q hq
      dsimp only at hq
      rw [Function.update_of_ne hlt.ne] at hq
      exact hw q hq
  | route i disk =>
    unfold Dispatch.step at hs
    dsimp only at hs
    cases hq : w.reqs i with
    | none => rw [hq] at hs; cases hs
    | some q =>
      rw [hq] at hs
      dsimp only at hs
      split at hs
      · next hstage =>
        cases hs
        exact h.rounds hq (by rw [hstage]; exact nofun) hfit (rounds_route hstage)
      · cases hs
  | serve i disk keep =>
    unfold Dispatch.step at hs
    dsimp only at hs
    cases hq : w.reqs i with
    | none => rw [hq] at hs; cases hs
    | some q =>
      rw [hq] at hs
      dsimp only at hs
      split at hs
      · next loc path hops allowed site hstage hsite =>
        cases hs
        exact h.rounds hq (by rw [hstage]; exact nofun) hfit
          (rounds_serve hstage hsite)
      · cases hs
  | finish i =>
    unfold Dispatch.step at hs
    dsimp only at hs
    split at hs
    · cases hs
    next hl =>
    cases hs
    exact h.finish hl
  | full i =>
    unfold Dispatch.step at hs
    dsimp only at hs
    split at hs
    · cases hs
    cases hs
    apply (h.drop i h.cache).resume
    · intro p hp
      exact (Lib.mem_dropAt.mp hp).2
    all_goals
      intro hc
      cases hc
  | close i =>
    cases hs
    refine ⟨h.now_le, h.cache, h.memos, ?_, ?_⟩
    · intro j q hq
      dsimp only at hq
      by_cases hj : j = i
      · rw [hj, Function.update_self] at hq
        cases hq
      rw [Function.update_of_ne hj] at hq
      exact h.reqs j q hq
    · intro p hp
      obtain ⟨hlt, f, user, password, hjob, hw⟩ := h.jobs p hp
      refine ⟨hlt, f, user, password, hjob, ?_⟩
      intro q hq
      dsimp only at hq
      by_cases hj : p.1 = i
      · rw [hj, Function.update_self] at hq
        cases hq
      rw [Function.update_of_ne hj] at hq
      exact hw q hq
  | evict id path =>
    cases hs
    exact ⟨h.now_le, h.cache, h.memos, h.reqs, h.jobs⟩

theorem inv_start (t : Nat) : Inv srv (Worker.start K t) := by
  refine ⟨le_refl _, Cache.sound_empty, ?_, ?_, ?_⟩
  · intro c s hs
    exact absurd hs (Nat.not_lt_zero s)
  · intro i q hq
    cases hq
  · intro p hp
    cases hp

/-- **A password check belongs to the rule that asked for it.**  In every run whose steps fit:
    a rule that let the client in, other than through `skip_for`, found the login the client sent
    in its own user file; and a 401 is for a login that does not stand in the file of some rule
    the request met. -/
theorem login_stands_in_rule (srv : Server K) (t : Nat) {ls : List Label} {w : Worker K}
    (hrun : Lib.run (step srv) (Worker.start K t) ls = some w)
    (hfit : Lib.Meets (step srv) (Fitting srv) (Worker.start K t) ls) : ∀ i q, w.reqs i = some q →
      (∀ c ∈ q.log, c.allowed = true → c.skipped = false →
        Stood K (srv.load c.rule.users) q.authorization q.since w.clock) ∧ (q.stage = .answered (.auth 401) →
        ∃ c ∈ q.log, c.skipped = false ∧ ¬Stands K (srv.load c.rule.users) q.authorization w.clock) := by
  have hinv : Inv srv w :=
    Lib.run_invariant (fun _ _ _ hi hok hs => Inv.step hi hok hs) (inv_start t) hrun hfit
  intro i q hq
  exact ⟨(hinv.reqs i q hq).2.allowed, (hinv.reqs i q hq).2.challenged⟩

end Invariant

/-! ## §5. Two files on one chain. -/

namespace Demo

/-- Keys are the logins themselves; of two sha512crypt hashes, each for its own password. -/
def crypto : Crypto where
  Key := Bytes × Bytes × Bytes
  cacheKey := fun u h p => (u, h, p)
  set := fun k => k.1.headD 0
  verify := fun p h =>
    (p = bytes "secret" && h = aliceHash) || (p = bytes "hunter2" && h = bobHash)
  cacheKey_inj := by
    intro u h p u' h' p' e
    cases e
    exact ⟨rfl, rfl, rfl⟩
where
  aliceHash : Bytes := bytes "$6$saltsalt$TVLlQcbpFVof5W3Yz4DTP6gRstiNuHwwTt6GLc1E5n0U0aDehy0S5knV8wiOQSpT0Y77vwPZN.Pq.H91p5hVO1"
  bobHash : Bytes := bytes "$6$saltbob1$qEkl42QNONcXhJVOc2NsMeyGdHUMYqQjT29xiu0hXdfHmnPFQklRbVTFVCQVSpsVrQSBPi4/8ul.aKVDee85B."

def aliceFile : UserFile where
  users := [{ name := bytes "alice", hash := crypto.aliceHash }]
  users_ne := List.cons_ne_nil _ _
  named := by decide

def bobFile : UserFile where
  users := [{ name := bytes "bob", hash := crypto.bobHash }]
  users_ne := List.cons_ne_nil _ _
  named := by decide

/-- Alice's password in front of the site, Bob's in front of its home page. -/
def twoFiles : Site where
  auth := [{ path := bytes "/index.html", isExact := true, rooted := by decide, users := 2 },
    { path := bytes "/", rooted := rooted_slash, users := 1 }]
  locations := [{ id := 1, path := bytes "/", root := bytes "/srv/a", index := [bytes "index.html"] }]
  locations_ne := List.cons_ne_nil _ _
  validation_static := validation_files

/-- One password, stripped, and a fallback for what is not there. -/
def stripped : Site where
  auth := [{ path := bytes "/", rooted := rooted_slash, users := 1, credentials := .strip }]
  locations := [{ id := 2, path := bytes "/", root := bytes "/srv/b",
                  tryFiles := [.uri, .fallback (bytes "/index.html")] }]
  locations_ne := List.cons_ne_nil _ _
  validation_static := validation_files

def server : Server crypto where
  sites := [twoFiles, stripped]
  load := fun id => if id = 2 then bobFile else aliceFile
  ids := by
    intro i j s t hi hj l hl m hm he
    match i, j with
    | 0, 0 => rfl
    | 1, 1 => rfl
    | 0, 1 =>
      cases hi
      cases hj
      obtain rfl := List.mem_singleton.mp hl
      obtain rfl := List.mem_singleton.mp hm
      cases he
    | 1, 0 =>
      cases hi
      cases hj
      obtain rfl := List.mem_singleton.mp hl
      obtain rfl := List.mem_singleton.mp hm
      cases he
    | 0, j + 2 => cases hj
    | 1, j + 2 => cases hj
    | i + 2, _ => cases hi

/-- Every path is a file. -/
def disk : Disk where
  opened := fun _ => some .regular
  stat := fun _ => some .regular

def alice (site : Nat) (target : Bytes) : Arrival where
  conn := 0
  site := some site
  host := bytes "example.com"
  target := target
  client := { address := ⟨false, 0, 0⟩ }
  authorization := bytes "Basic YWxpY2U6c2VjcmV0"

/-- A first login, and the request's way after it. -/
def run (site : Nat) (target : Bytes) (after : List Label) : List Label :=
  [.arrive (alice site target), .route 0 {}, .finish 0, .route 0 {}] ++ after

/-- The checks of request 0, the last first. -/
def log (ls : List Label) : Option (List (Nat × Bool × Bool)) :=
  ((Lib.run (step server) (Worker.start crypto 0) ls).bind fun w => w.reqs 0).map fun q =>
    q.log.map fun c => (c.rule.users, c.skipped, c.allowed)

end Demo

/-- A page below Alice's rule: her first login is verified, and stands. -/
theorem login_stands_in_rule_alice : Demo.log (Demo.run 0 (bytes "/a.html") [.serve 0 Demo.disk true]) =
        some [(1, false, true), (1, false, false)] ∧
      ∃ w, Lib.run (step Demo.server) (Worker.start Demo.crypto 0)
          (Demo.run 0 (bytes "/a.html") [.serve 0 Demo.disk true]) = some w ∧
        ∀ q, w.reqs 0 = some q → ∀ c ∈ q.log, c.allowed = true → c.skipped = false →
          Stood Demo.crypto (Demo.server.load c.rule.users) q.authorization q.since w.clock := by
  refine ⟨by decide +kernel, ?_⟩
  obtain ⟨w, hw⟩ := Option.isSome_iff_exists.mp (show (Lib.run (step Demo.server)
    (Worker.start Demo.crypto 0) (Demo.run 0 (bytes "/a.html") [.serve 0 Demo.disk true])).isSome = true
    by decide +kernel)
  have hall := login_stands_in_rule Demo.server 0 hw (by decide +kernel)
  exact ⟨w, hw, fun q hq => (hall 0 q hq).1⟩

/-- Alice, verified against her own file, is let in by Bob's when `/` is sent on to its index;
    and the login that just passed the only rule of the second site ends in a 401 once it is
    stripped and the request falls back to another path. -/
theorem alice_passes_bob_and_is_turned_away :
    (¬∀ ls w, Lib.run (step Demo.server) (Worker.start Demo.crypto 0) ls = some w →
      ∀ i q, w.reqs i = some q → ∀ c ∈ q.log, c.allowed = true → c.skipped = false →
        Stood Demo.crypto (Demo.server.load c.rule.users) q.authorization q.since w.clock) ∧
    ¬∀ ls w, Lib.run (step Demo.server) (Worker.start Demo.crypto 0) ls = some w →
      ∀ i q, w.reqs i = some q → q.stage = .answered (.auth 401) → ∃ c ∈ q.log, c.skipped = false ∧
          ¬Stands Demo.crypto (Demo.server.load c.rule.users) q.authorization w.clock := by
  constructor
  · intro h
    have hread : ((Lib.run (step Demo.server) (Worker.start Demo.crypto 0)
        (Demo.run 0 (bytes "/") [.serve 0 Demo.disk true])).bind fun w => w.reqs 0).map
          (fun q => (q.log.map fun c => (c.rule.users, c.skipped, c.allowed), q.authorization)) =
        some ([(2, false, true), (1, false, true), (1, false, false)],
          bytes "Basic YWxpY2U6c2VjcmV0") := by decide +kernel
    obtain ⟨q, hq, hlog⟩ := Option.map_eq_some_iff.mp hread
    obtain ⟨w, hw, hq⟩ := Option.bind_eq_some_iff.mp hq
    rw [Prod.mk.injEq] at hlog
    obtain ⟨c, hc, hcv⟩ := List.mem_map.mp (hlog.1 ▸ List.mem_cons_self ..)
    simp only [Prod.mk.injEq] at hcv
    obtain ⟨t, -, -, user, password, hp, u, hu, hname, -⟩ := h _ w hw 0 q hq c hc hcv.2.2 hcv.2.1
    -- the login names Alice, the file Bob alone
    rw [hlog.2, show parseBasic (bytes "Basic YWxpY2U6c2VjcmV0") =
      .ok (bytes "alice") (bytes "secret") by decide +kernel] at hp
    cases hp
    rw [hcv.1] at hu
    obtain rfl := List.mem_singleton.mp hu
    cases hname
  · intro h
    have hread : ((Lib.run (step Demo.server) (Worker.start Demo.crypto 0)
        (Demo.run 1 (bytes "/a") [.serve 0 {} true])).bind fun w => (w.reqs 0).map fun q => (q, w.clock)).map
          (fun p => (p.1.log.map fun c => c.rule.users, p.1.authorization, p.2,
            match p.1.stage with
            | .answered a => some a
            | _ => none)) =
        some ([1, 1, 1], bytes "Basic YWxpY2U6c2VjcmV0", 0, some (.auth 401)) := by decide +kernel
    obtain ⟨⟨q, clock⟩, hpair, hlog⟩ := Option.map_eq_some_iff.mp hread
    obtain ⟨w, hw, hpair⟩ := Option.bind_eq_some_iff.mp hpair
    obtain ⟨q', hreq, he⟩ := Option.map_eq_some_iff.mp hpair
    cases he
    simp only [Prod.mk.injEq] at hlog
    obtain ⟨hlog, hval, hclock, hstage⟩ := hlog
    have hanswer : q.stage = .answered (.auth 401) := by
      split at hstage
      · next a ha =>
        cases hstage
        exact ha
      · cases hstage
    obtain ⟨c, hc, -, hn⟩ := h _ w hw 0 q hreq hanswer
    apply hn
    have husers : c.rule.users = 1 := by
      have := List.mem_map_of_mem (f := fun c : Check => c.rule.users) hc
      rw [hlog] at this
      simpa using this
    rw [husers, hval, hclock]
    exact ⟨bytes "alice", bytes "secret", by decide +kernel, _, List.mem_singleton_self _, rfl,
      by decide, by decide +kernel, by decide⟩

end Agensio.Dispatch
