/-
  Agensio.Upstream.Attempts — no request is executed twice, and failover ends.

  What a run of an exchange may write and try: a request that may not be
  repeated has its head written to one connection, any other is written
  again only while nothing of an answer was read, and each member is tried
  once, with one resend.  The mask of the members that were tried is 32 bits
  wide; the members from 32 on are never in it.

  Main results:
    * `once_iff` — the groups over which every run is so.
-/
import Mathlib.Data.List.Perm.Subperm
import Agensio.Upstream.Moves

namespace Agensio.Upstream.Exchange

open Agensio.Lib

/-! ## §1. What is asked of a run. -/

/-- The request may be repeated: a GET or HEAD without a body. -/
def repeatable (getOrHead : Bool) (rest : Rest) (bodySize : Nat) : Bool :=
  getOrHead && rest ≠ .stream && bodySize = 0

/-- A request that may not be repeated is written once. -/
structure Once (mayRepeat : Bool) (s : Exchange) : Prop where
  /-- The head is written to one connection. -/
  single : mayRepeat = false → ∀ w ∈ s.written, ∀ w' ∈ s.written, w.1 = w'.1
  /-- The head is written while no byte of an answer has been read. -/
  unread : ∀ w ∈ s.written, w.2 = false
  /-- Each member is tried once, and once more on a fresh connection. -/
  once : s.log.Nodup
  ends : s.log.length ≤ 2 * max 1 s.group.length

/-! ## §2. One connection. -/

/-- While nothing was written the request may move on; then it may not. -/
structure Single (s : Exchange) : Prop where
  none : s.sentAny = false → s.written = []
  own : ∀ w ∈ s.written, w.1 = s.attempt
  queued : s.phase = .queued → s.sentAny = false

variable {s t : Exchange} {fair : Prop} {env : Env} {acts : List Action}

theorem Single.congr (h : Single s) (hsent : t.sentAny = s.sentAny) (hwritten : t.written = s.written)
    (hlog : t.log = s.log) (hphase : t.phase = .queued → s.phase = .queued) : Single t where
  none hs := by
    rw [hwritten]
    exact h.none (hsent ▸ hs)
  own w hw := by
    rw [hwritten] at hw
    rw [h.own w hw]
    exact congrArg List.length hlog.symm
  queued hp := by
    rw [hsent]
    exact h.queued (hphase hp)

/-- What a request that may not be repeated keeps. -/
def SingleIf (s : Exchange) : Prop := s.retryOk = false → Single s

theorem slotted_single (s : Exchange) (reused : Bool) (hs : SingleIf s) (hphase : s.phase = .queued) :
    SingleIf (s.slotted reused) := by
  intro hretry
  -- nothing was written before the slot
  have hnone := (hs hretry).none ((hs hretry).queued hphase)
  refine ⟨fun _ => hnone, ?_, ?_⟩
  · show ∀ w ∈ s.written, _
    rw [hnone]
    nofun
  · cases reused <;> exact nofun

theorem move_single (hs : SingleIf s) (h : Move fair env s acts t) : SingleIf t := by
  intro hretry
  cases h with
  | quiet hq _ =>
    rw [hq.retryOk] at hretry
    exact (hs hretry).congr hq.sentAny hq.written hq.log fun hp => hq.phase ▸ hp
  | sendHead hphase =>
    have hold := hs hretry
    refine ⟨nofun, ?_, ?_⟩
    · intro w hw
      rcases List.mem_cons.mp hw with rfl | hw
      · rfl
      · exact hold.own w hw
    · intro hp
      have hp : s.phase = .queued := hp
      rw [hphase] at hp
      cases hp
  | proceed p hp =>
    refine (hs hretry).congr rfl rfl rfl fun hq => ?_
    rcases hp with ⟨_, rfl⟩ | ⟨_, rfl⟩ <;> cases hq
  | headWritten o p _ _ _ _ hp =>
    refine (hs hretry).congr rfl rfl rfl fun hq => ?_
    rcases hp with rfl | rfl <;> cases hq
  | data o n _ _ => exact (hs hretry).congr rfl rfl rfl id
  | resend hok _ _ _ _ =>
    rw [hok] at hretry
    cases hretry
  | moveTo why next hnext _ _ =>
    rw [moveTo_fst] at hretry ⊢
    have hold := hs hretry
    -- it moves on since nothing was sent
    have hsent : s.sentAny = false := by
      cases hsent : s.sentAny with
      | false => rfl
      | true => exact absurd ⟨hsent, .inl hretry⟩ (nextAddress_spec hnext).2.2
    have hnone := hold.none hsent
    refine ⟨fun _ => hnone, ?_, fun _ => rfl⟩
    rw [hnone]
    nofun
  | close p c f d _ hp =>
    refine (hs hretry).congr rfl rfl rfl fun hq => ?_
    have hq : p = .queued := hq
    rw [hq] at hp
    cases hp
  | leave p c f _ hp _ =>
    refine (hs hretry).congr rfl rfl rfl fun hq => ?_
    have hq : p = .queued := hq
    rw [hq] at hp
    cases hp
  | forget _ => exact (hs hretry).congr rfl rfl rfl nofun

/-! ## §3. Nothing was read. -/

/-- A byte of an answer is read where the answer is received, behind a head of this attempt. -/
structure Unread (s : Exchange) : Prop where
  seen : s.seen = true → s.phase = .receiving ∨ s.phase.over = true
  sent : s.phase = .sendingBody ∨ s.phase = .receiving → s.sentAny = true
  written : ∀ w ∈ s.written, w.2 = false
  past : ∀ o ∈ s.ops, o.attempt ≤ s.attempt
  head : s.phase.holds = true → ∀ o ∈ s.ops, o.op = .writeHead → o.attempt = s.attempt → s.sentAny = true

/-- The exchange is over or queued, and what was started stays as it was. -/
theorem Unread.rest (h : Unread s) (hphase : t.phase.holds = false)
    (hseen : t.seen = true → t.phase.over = true) (hwritten : t.written = s.written) (hops : t.ops = s.ops)
    (hlog : t.log = s.log) : Unread t where
  seen hs := .inr (hseen hs)
  sent hp := by
    rcases hp with hp | hp <;> rw [hp] at hphase <;> cases hphase
  written := by
    rw [hwritten]
    exact h.written
  past := by
    rw [hops]
    intro o ho
    rw [show t.attempt = s.attempt from congrArg List.length hlog]
    exact h.past o ho
  head hp := by
    rw [hphase] at hp
    cases hp

/-- A new attempt begins; nothing that is in flight is its own. -/
theorem Unread.begin (h : Unread s) (hseen : s.seen = false) (hs : t.seen = s.seen)
    (hphase : t.phase = .connecting ∨ t.phase = .sending) (hwritten : t.written = s.written) (hops : t.ops = s.ops)
    (hlog : t.attempt = s.attempt + 1) : Unread t where
  seen hse := by
    rw [hs, hseen] at hse
    cases hse
  sent hp := by
    rcases hphase with h | h <;> rw [h] at hp <;> rcases hp with hp | hp <;> cases hp
  written := by
    rw [hwritten]
    exact h.written
  past := by
    rw [hops, hlog]
    intro o ho
    exact Nat.le_succ_of_le (h.past o ho)
  head _ o ho _ hown := by
    rw [hops] at ho
    have := h.past o ho
    omega

theorem Phase.not_holds_of_over {p : Phase} (h : p.over = true) : p.holds = false := by
  cases p with
  | finished | failed | cancelled => rfl
  | queued | connecting | sending | sendingBody | receiving => cases h

theorem slotted_unread (s : Exchange) (reused : Bool) (hs : Unread s) (hphase : s.phase = .queued) :
    Unread (s.slotted reused) := by
  have hseen : s.seen = false := by
    cases hse : s.seen with
    | false => rfl
    | true =>
      rcases hs.seen hse with hp | hp <;> rw [hphase] at hp <;> cases hp
  refine hs.begin hseen rfl ?_ rfl rfl (List.length_append ..)
  cases reused
  · exact .inl rfl
  · exact .inr rfl

/-- **What every orderly move keeps.** -/
theorem move_unread (hf : fair) (hs : Unread s) (h : Move fair env s acts t) : Unread t := by
  cases h with
  | quiet hq _ =>
    have hattempt : t.attempt = s.attempt := congrArg List.length hq.log
    constructor
    · rw [hq.seen, hq.phase]
      exact hs.seen
    · rw [hq.phase, hq.sentAny]
      exact hs.sent
    · rw [hq.written]
      exact hs.written
    · intro o ho
      rw [hattempt]
      rcases hq.ops o ho with ho | ⟨hown, _⟩
      · exact hs.past o ho
      · exact Nat.le_of_eq hown
    · rw [hq.phase, hq.sentAny, hattempt]
      intro hp o ho hop hown
      rcases hq.ops o ho with ho | ⟨_, hne⟩
      · exact hs.head hp o ho hop hown
      · exact absurd hop hne
  | sendHead hphase =>
    -- this is where the head is written: nothing has been read
    have hseen : s.seen = false := by
      cases hse : s.seen with
      | false => rfl
      | true =>
        rcases hs.seen hse with hp | hp <;> rw [hphase] at hp <;> cases hp
    refine ⟨hs.seen, fun _ => rfl, ?_, ?_, fun _ _ _ _ _ => rfl⟩
    · intro w hw
      rcases List.mem_cons.mp hw with rfl | hw
      · exact hseen
      · exact hs.written w hw
    · intro o ho
      rcases List.mem_append.mp ho with ho | ho
      · exact hs.past o ho
      rw [List.mem_singleton.mp ho]
      exact Nat.le_refl _
  | proceed p hp =>
    have hholds : s.phase.holds = true := by
      rcases hp with ⟨h, _⟩ | ⟨h, _⟩ <;> rw [h] <;> rfl
    refine ⟨fun hse => ?_, fun hpost => ?_, hs.written, hs.past, fun _ => hs.head hholds⟩
    · have hrec := hs.seen hse
      rcases hp with ⟨h, _⟩ | ⟨h, _⟩ <;> rw [h] at hrec <;> rcases hrec with hr | hr <;> cases hr
    · rcases hp with ⟨_, rfl⟩ | ⟨h, _⟩
      · rcases hpost with hq | hq <;> cases hq
      · exact hs.sent (.inl h)
  | headWritten o p ho hop hown hphase hp =>
    have hsent : s.sentAny = true := hs.head (by rw [hphase]; rfl) o ho hop (hown hf)
    refine ⟨fun hse => ?_, fun _ => hsent, hs.written, fun o' ho' => hs.past o' (List.mem_of_mem_erase ho'),
      fun _ _ _ _ _ => hsent⟩
    have hrec := hs.seen hse
    rw [hphase] at hrec
    rcases hrec with hr | hr <;> cases hr
  | data o n ho hphase =>
    have hops : ∀ o' ∈ s.ops.erase o, o' ∈ s.ops := fun _ => List.mem_of_mem_erase
    exact ⟨fun _ => .inl hphase, hs.sent, hs.written, fun o' ho' => hs.past o' (hops o' ho'),
      fun hp o' ho' => hs.head hp o' (hops o' ho')⟩
  | resend hretry _ hbytes hphase hcounted =>
    have hseen : s.seen = false := by
      cases hse : s.seen with
      | false => rfl
      | true =>
        rcases hphase with hp | hp
        · rcases hs.seen hse with hr | hr <;> rw [hp] at hr <;> cases hr
        have := hcounted hf hp hse
        omega
    exact hs.begin hseen rfl (.inl rfl) rfl rfl (List.length_append ..)
  | moveTo why next hnext hholds hcounted =>
    rw [moveTo_fst]
    -- once a byte was read and counted there is no moving on
    refine hs.rest rfl (fun hse => ?_) rfl rfl rfl
    rcases hs.seen hse with hp | hp
    · exact absurd ⟨hs.sent (.inr hp), .inr (hcounted hf hp hse)⟩ (nextAddress_spec hnext).2.2
    rw [(Phase.not_over_of_holds hholds).1] at hp
    cases hp
  | close p c f d _ hp => exact hs.rest (Phase.not_holds_of_over hp) (fun _ => hp) rfl rfl rfl
  | leave p c f _ hp _ => exact hs.rest (Phase.not_holds_of_over hp) (fun _ => hp) rfl rfl rfl
  | forget _ => exact hs.rest rfl (fun _ => rfl) rfl rfl rfl

/-! ## §4. Each member once. -/

/-- The members tried are in the mask, and the one to be tried next was not tried before. -/
structure Tried (s : Exchange) : Prop where
  small : s.group.length ≤ 32
  log : ∀ a ∈ s.log, ∀ m, a.member = some m → m < s.group.length ∧ masked s.tried m = true
  now : ∀ m, s.member = some m → m < s.group.length ∧ masked s.tried m = true
  nowNone : s.member = none → s.group = []
  logNone : ∀ a ∈ s.log, a.member = none → s.group = []
  fresh : s.phase = .queued → s.attempts = 0 ∧ ∀ a ∈ s.log, a.member ≠ s.member
  resend : s.attempts ≤ 1 → ⟨s.member, true⟩ ∉ s.log
  nodup : s.log.Nodup

theorem Tried.congr (h : Tried s) (hgroup : t.group = s.group) (hlog : t.log = s.log)
    (hmember : t.member = s.member) (htried : t.tried = s.tried) (hattempts : t.attempts = s.attempts)
    (hphase : t.phase = .queued → s.phase = .queued) : Tried t := by
  constructor
  · rw [hgroup]
    exact h.small
  · rw [hgroup, hlog, htried]
    exact h.log
  · rw [hgroup, hmember, htried]
    exact h.now
  · rw [hgroup, hmember]
    exact h.nowNone
  · rw [hgroup, hlog]
    exact h.logNone
  · intro hp
    rw [hattempts, hlog, hmember]
    exact h.fresh (hphase hp)
  · rw [hattempts, hmember, hlog]
    exact h.resend
  · rw [hlog]
    exact h.nodup

theorem slotted_tried (s : Exchange) (reused : Bool) (hs : Tried s) (hphase : s.phase = .queued) :
    Tried (s.slotted reused) := by
  obtain ⟨_, hfresh⟩ := hs.fresh hphase
  refine ⟨hs.small, ?_, hs.now, hs.nowNone, ?_, ?_, ?_, ?_⟩
  · intro a ha m hm
    rcases List.mem_append.mp ha with ha | ha
    · exact hs.log a ha m hm
    rw [List.mem_singleton.mp ha] at hm
    exact hs.now m hm
  · intro a ha hm
    rcases List.mem_append.mp ha with ha | ha
    · exact hs.logNone a ha hm
    rw [List.mem_singleton.mp ha] at hm
    exact hs.nowNone hm
  · cases reused <;> exact nofun
  · intro _ hmem
    rcases List.mem_append.mp hmem with hmem | hmem
    · exact hfresh _ hmem rfl
    have hkind : true = false := congrArg Attempt.resend (List.mem_singleton.mp hmem)
    cases hkind
  · -- no earlier attempt was with this member
    refine hs.nodup.append (List.nodup_singleton _) ?_
    intro a ha ha'
    rw [List.mem_singleton.mp ha'] at ha
    exact hfresh _ ha rfl

/-- **What every move keeps.** -/
theorem move_tried (hs : Tried s) (h : Move fair env s acts t) : Tried t := by
  cases h with
  | quiet hq _ => exact hs.congr hq.group hq.log hq.member hq.tried hq.attempts fun hp => hq.phase ▸ hp
  | sendHead _ => exact hs.congr rfl rfl rfl rfl rfl id
  | proceed p hp =>
    refine hs.congr rfl rfl rfl rfl rfl fun hq => ?_
    rcases hp with ⟨_, rfl⟩ | ⟨_, rfl⟩ <;> cases hq
  | headWritten o p _ _ _ _ hp =>
    refine hs.congr rfl rfl rfl rfl rfl fun hq => ?_
    rcases hp with rfl | rfl <;> cases hq
  | data o n _ _ => exact hs.congr rfl rfl rfl rfl rfl id
  | resend _ hattempts _ _ _ =>
    have hfree := hs.resend (Nat.le_of_eq hattempts)
    refine ⟨hs.small, ?_, hs.now, hs.nowNone, ?_, nofun, ?_, ?_⟩
    · intro a ha m hm
      rcases List.mem_append.mp ha with ha | ha
      · exact hs.log a ha m hm
      rw [List.mem_singleton.mp ha] at hm
      exact hs.now m hm
    · intro a ha hm
      rcases List.mem_append.mp ha with ha | ha
      · exact hs.logNone a ha hm
      rw [List.mem_singleton.mp ha] at hm
      exact hs.nowNone hm
    · intro htwo
      have htwo : s.attempts + 1 ≤ 1 := htwo
      omega
    · refine hs.nodup.append (List.nodup_singleton _) ?_
      intro a ha ha'
      rw [List.mem_singleton.mp ha'] at ha
      exact hfree ha
  | moveTo why next hnext _ _ =>
    rw [moveTo_fst]
    obtain ⟨hlt, hfree, _⟩ := nextAddress_spec hnext
    have hin : next < 32 := Nat.lt_of_lt_of_le hlt hs.small
    -- a member that was tried is in the mask, and this one is not
    have hnew : ∀ a ∈ s.log, a.member ≠ some next := by
      intro a ha hm
      have := (hs.log a ha next hm).2
      rw [hfree] at this
      cases this
    refine ⟨hs.small, ?_, ?_, nofun, hs.logNone, fun _ => ⟨rfl, hnew⟩, fun _ hmem => hnew _ hmem rfl, hs.nodup⟩
    · intro a ha m hm
      obtain ⟨hm', hmask⟩ := hs.log a ha m hm
      exact ⟨hm', masked_mark_of_masked hmask⟩
    · rintro m ⟨⟩
      exact ⟨hlt, masked_mark_self hin⟩
  | close p c f d _ hp =>
    refine hs.congr rfl rfl rfl rfl rfl fun hq => ?_
    have hq : p = .queued := hq
    rw [hq] at hp
    cases hp
  | leave p c f _ hp _ =>
    refine hs.congr rfl rfl rfl rfl rfl fun hq => ?_
    have hq : p = .queued := hq
    rw [hq] at hp
    cases hp
  | forget _ => exact hs.congr rfl rfl rfl rfl rfl nofun

/-- All the attempts there can be over a group of `n`. -/
def allAttempts (n : Nat) : List Attempt :=
  (if n = 0 then [none] else (List.range n).map some).flatMap fun m => [⟨m, false⟩, ⟨m, true⟩]

theorem length_allAttempts (n : Nat) : (allAttempts n).length = 2 * max 1 n := by
  have hpairs : ∀ ms : List (Option Nat),
      (ms.flatMap fun m => ([⟨m, false⟩, ⟨m, true⟩] : List Attempt)).length = 2 * ms.length := by
    intro ms
    induction ms with
    | nil => rfl
    | cons m ms ih =>
      rw [List.flatMap_cons, List.length_append, ih, List.length_cons, List.length_cons, List.length_cons,
        List.length_nil]
      omega
  unfold allAttempts
  rw [hpairs]
  split
  · next h => rw [h]; rfl
  rw [List.length_map, List.length_range]
  omega

/-- Attempts that are all different are not many. -/
theorem Tried.ends (h : Tried s) : s.log.length ≤ 2 * max 1 s.group.length := by
  have hsub : s.log ⊆ allAttempts s.group.length := by
    intro a ha
    obtain ⟨m, resend⟩ := a
    refine List.mem_flatMap.mpr ⟨m, ?_, ?_⟩
    · cases m with
      | none =>
        rw [h.logNone _ ha rfl]
        exact List.mem_singleton_self _
      | some m =>
        have hlt := (h.log _ ha m rfl).1
        rw [if_neg (by omega)]
        exact List.mem_map.mpr ⟨m, List.mem_range.mpr hlt, rfl⟩
    · cases resend with
      | false => exact .head _
      | true => exact .tail _ (List.mem_singleton_self _)
  rw [← length_allAttempts]
  exact (List.subperm_of_subset h.nodup hsub).length_le

/-! ## §5. Runs. -/

theorem Move.group (h : Move fair env s acts t) : t.group = s.group ∧ t.retryOk = s.retryOk := by
  cases h with
  | quiet hq _ => exact ⟨hq.group, hq.retryOk⟩
  | moveTo why next =>
    rw [moveTo_fst]
    exact ⟨rfl, rfl⟩
  | sendHead | proceed | headWritten | data | resend | close | leave | forget => exact ⟨rfl, rfl⟩

/-- All that is kept, step by step. -/
structure Kept (group : List Address) (mayRepeat : Bool) (s : Exchange) : Prop where
  decoding : s.decoding = true → s.phase = .receiving
  members : s.group = group
  retryOk : s.retryOk = mayRepeat
  single : SingleIf s
  unread : Unread s
  tried : group.length ≤ 32 → Tried s

theorem next_kept {group : List Address} {mayRepeat : Bool} {l : Label} (hs : Kept group mayRepeat s)
    (hl : s.Orderly l) (h : s.next l = some t) : Kept group mayRepeat t := by
  have hdec := next_decoding hs.decoding h
  obtain ⟨st, hst, rfl⟩ := Option.map_eq_some_iff.mp h
  have hconst : st.1.group = s.group ∧ st.1.retryOk = s.retryOk := by
    refine step_keeps (I := fun u => u.group = s.group ∧ u.retryOk = s.retryOk) (fun _ _ hu _ => hu) ?_ hs.decoding
      ⟨rfl, rfl⟩ hst
    intro u a v hu hm
    exact ⟨hm.group.1.trans hu.1, hm.group.2.trans hu.2⟩
  exact
    { decoding := hdec
      members := hconst.1.trans hs.members
      retryOk := hconst.2.trans hs.retryOk
      single := step_keeps slotted_single (fun _ _ _ hi hm => move_single hi hm) hs.decoding hs.single hst
      unread := step_keeps slotted_unread (fun _ _ _ hi hm => move_unread hl hi hm) hs.decoding hs.unread hst
      tried := fun hsmall =>
        step_keeps slotted_tried (fun _ _ _ hi hm => move_tried hi hm) hs.decoding (hs.tried hsmall) hst }

section Runs

variable (group : List Address) (getOrHead : Bool) (rest : Rest) (bodySize : Nat) (buffering : Bool)

/-- The exchange with the member the rotation picks. -/
def opened (health : Nat → Health) (now start : Nat) : Exchange :=
  begun group getOrHead rest bodySize buffering (pick group.length health now start none 0)

theorem pickFrom_isSome {health : Nat → Health} {now : Nat} {is : List Nat} : ∀ {fallback : Option Nat},
    is ≠ [] ∨ fallback.isSome = true → (pickFrom health now 0 is fallback).isSome = true := by
  induction is with
  | nil =>
    intro fallback h
    exact h.resolve_left fun hne => hne rfl
  | cons i is ih =>
    intro fallback _
    have hfree : masked 0 i = false := by
      unfold masked
      simp
    unfold pickFrom
    rw [hfree, if_neg Bool.false_ne_true]
    split
    · rfl
    refine ih (.inr ?_)
    cases fallback with
    | none => rfl
    | some f =>
      dsimp only
      split <;> rfl

/-- A group with a member has one to begin with. -/
theorem pick_isSome (health : Nat → Health) (now start : Nat) {n : Nat} (hpos : 0 < n) :
    (pick n health now start none 0).isSome = true := by
  unfold pick
  refine pickFrom_isSome (.inl fun hnil => ?_)
  have := congrArg List.length hnil
  rw [List.length_map, List.length_range, List.length_nil] at this
  omega

theorem opened_kept (health : Nat → Health) (now start : Nat) :
    Kept group (repeatable getOrHead rest bodySize) (opened group getOrHead rest bodySize buffering health now start) where
  decoding := nofun
  members := rfl
  retryOk := rfl
  single _ := ⟨fun _ => rfl, nofun, fun _ => rfl⟩
  unread := ⟨nofun, fun hp => (by rcases hp with hp | hp <;> cases hp), nofun, nofun, nofun⟩
  tried hsmall := by
    refine ⟨hsmall, nofun, ?_, ?_, nofun, fun _ => ⟨rfl, nofun⟩, nofun, List.nodup_nil⟩
    · intro m hm
      have hm : pick group.length health now start none 0 = some m := hm
      have hlt := (pick_spec hm).1
      refine ⟨hlt, ?_⟩
      have hbegun : opened group getOrHead rest bodySize buffering health now start =
          begun group getOrHead rest bodySize buffering (some m) := by
        unfold opened
        rw [hm]
      rw [hbegun]
      exact masked_mark_self (Nat.lt_of_lt_of_le hlt hsmall)
    · intro hm
      have hm : pick group.length health now start none 0 = none := hm
      by_contra hne
      have hpos : 0 < group.length := List.length_pos_iff.mpr hne
      have hsome := pick_isSome health now start hpos
      rw [hm] at hsome
      cases hsome

/-- What is kept is what was asked for. -/
theorem Kept.once {group : List Address} {mayRepeat : Bool} {s : Exchange} (h : Kept group mayRepeat s)
    (hsmall : s.group.length ≤ 32) : Once mayRepeat s where
  single hnot w hw w' hw' := by
    have hsingle := h.single (h.retryOk.trans hnot)
    rw [hsingle.own w hw, hsingle.own w' hw']
  unread := h.unread.written
  once := (h.tried (h.members ▸ hsmall)).nodup
  ends := (h.tried (h.members ▸ hsmall)).ends

end Runs

/-! ## §6. A member that is not in the mask. -/

/-- All members are down, and member 32 has been for the longest. -/
def longDown (i : Nat) : Health := { failures := 3, downUntil := 1, marked := if i = 32 then 0 else 1 }

theorem pickFrom_longDown (tried : BitVec 32) {is : List Nat} : ∀ {fallback : Option Nat},
    fallback = some 32 ∨ 32 ∈ is → pickFrom longDown 0 tried is fallback = some 32 := by
  induction is with
  | nil =>
    intro fallback h
    exact h.resolve_right nofun
  | cons i is ih =>
    intro fallback h
    unfold pickFrom
    split
    · next hmask =>
      -- 32 is never in the mask
      refine ih (h.imp_right fun hmem => ?_)
      rcases List.mem_cons.mp hmem with hi | hmem
      · rw [← hi] at hmask
        cases hmask
      · exact hmem
    · have hdown : ¬ (longDown i).downUntil ≤ 0 := Nat.not_succ_le_zero 0
      rw [if_neg hdown]
      by_cases hi : i = 32
      · subst hi
        refine ih (.inl ?_)
        cases fallback with
        | none => rfl
        | some f =>
          by_cases hf : f = 32
          · rw [hf]
            rfl
          have hlonger : (longDown 32).marked < (longDown f).marked := by simp [longDown, hf]
          exact if_pos hlonger
      · rcases h with rfl | hmem
        · have hshorter : ¬ (longDown i).marked < (longDown 32).marked := by simp [longDown]
          exact ih (.inl (if_neg hshorter))
        rcases List.mem_cons.mp hmem with heq | hmem
        · exact absurd heq.symm hi
        · exact ih (.inr hmem)

/-- Behind a failure of member 32 the next one is member 32. -/
theorem pick_again {n : Nat} (hn : 32 < n) (tried : BitVec 32) : pick n longDown 0 0 (some 32) tried = some 32 := by
  refine pickFrom_longDown tried (.inr ?_)
  refine List.mem_map.mpr ⟨(n - 1) % n, List.mem_range.mpr (Nat.mod_lt _ (by omega)), ?_⟩
  rw [← Nat.add_mod, show 32 + 1 + (n - 1) = n + 32 by omega, Nat.add_mod_left, Nat.mod_eq_of_lt hn]

theorem pick_first {n : Nat} (hn : 32 < n) : pick n (fun _ => {}) 0 32 none 0 = some 32 := by
  obtain ⟨m, rfl⟩ : ∃ m, n = m + 1 := ⟨n - 1, by omega⟩
  show pickFrom (fun _ => {}) 0 0 ((List.range (m + 1)).map fun k => (32 % (m + 1) + k) % (m + 1)) none = some 32
  rw [List.range_succ_eq_map, List.map_cons, Nat.add_zero, Nat.mod_mod, Nat.mod_eq_of_lt hn]
  rfl

/-- A world in which a socket opens, with this health. -/
def world (health : Nat → Health) : Env := ⟨health, 0, true, true, some 0, false, false, false⟩

/-- The connect to member 32 fails, and member 32 is tried. -/
def again : List Label :=
  [(world fun _ => {}, .slot false), (world longDown, .completed ⟨.connect, 1⟩ (.error .other)),
    (world fun _ => {}, .slot false)]

theorem connect_opens {env : Env} (h : env.opens = true) :
    s.connect env = ({ s with phase := .connecting }.start .connect, []) := by
  unfold connect
  rw [h]
  rfl

section Again

variable (group : List Address) (getOrHead : Bool) (rest : Rest) (bodySize : Nat) (buffering : Bool)

theorem run_again (hn : 32 < group.length) :
    ∃ s, run next (opened group getOrHead rest bodySize buffering (fun _ => {}) 0 32) again = some s ∧
      s.log = [⟨some 32, false⟩, ⟨some 32, false⟩] ∧
      Meets next Orderly (opened group getOrHead rest bodySize buffering (fun _ => {}) 0 32) again := by
  obtain ⟨s₀, hs₀⟩ : ∃ s₀, s₀ = opened group getOrHead rest bodySize buffering (fun _ => {}) 0 32 := ⟨_, rfl⟩
  have hmember : s₀.member = some 32 := by
    rw [hs₀]
    exact pick_first hn
  have hgroup : s₀.group = group := by rw [hs₀]; rfl
  have hphase : s₀.phase = .queued := by rw [hs₀]; rfl
  have hops : s₀.ops = [] := by rw [hs₀]; rfl
  have hlog : s₀.log = [] := by rw [hs₀]; rfl
  have hsent : s₀.sentAny = false := by rw [hs₀]; rfl
  rw [← hs₀]
  -- the first slot
  obtain ⟨s₁, hs₁⟩ : ∃ s₁ : Exchange, s₁ =
    { s₀ with attempts := s₀.attempts + 1, conn := some false, log := [⟨some 32, false⟩], phase := .connecting,
              member := some 32, ops := [⟨.connect, 1⟩] } := ⟨_, rfl⟩
  have h₁ : s₀.next (world fun _ => {}, .slot false) = some s₁ := by
    unfold next step onSlot
    dsimp only
    rw [if_neg fun h => h hphase, if_neg Bool.false_ne_true, connect_opens rfl]
    unfold start attempt
    rw [hlog, hops, hmember, hs₁]
    rfl
  -- its connect fails
  obtain ⟨s₂, hs₂⟩ : ∃ s₂ : Exchange, s₂ = (({ s₁ with ops := [] } : Exchange).moveTo (world longDown) 32).1 := ⟨_, rfl⟩
  have hnext : ({ s₁ with ops := [] } : Exchange).nextAddress (world longDown) .connectError = some 32 := by
    unfold nextAddress
    rw [hs₁]
    rw [hgroup, hsent, if_neg (by simp; omega), if_neg (by decide), if_neg (by simp)]
    exact pick_again hn _
  have h₂ : s₁.next (world longDown, .completed ⟨.connect, 1⟩ (.error .other)) = some s₂ := by
    have hin : (⟨.connect, 1⟩ : Started) ∈ s₁.ops := by
      rw [hs₁]
      exact List.mem_singleton_self _
    have hrest : s₁.ops.erase ⟨.connect, 1⟩ = [] := by
      rw [hs₁]
      rfl
    unfold next step
    dsimp only
    rw [if_pos hin, hrest]
    unfold completed onConnect
    dsimp only
    have hconn : s₁.phase = .connecting := by rw [hs₁]
    rw [if_neg fun h => h hconn]
    rcases fail_cases (world longDown) ({ s₁ with ops := [] } : Exchange) .connectError with
      ⟨hover, _⟩ | ⟨_, m, hm, heq⟩ | ⟨_, hnone, _⟩
    · rw [hconn] at hover
      cases hover
    · rw [hnext] at hm
      cases hm
      rw [heq, hs₂]
      rfl
    · rw [hnext] at hnone
      cases hnone
  -- and the slot after it is for the same member
  obtain ⟨s₃, h₃, hlog₃⟩ : ∃ s₃, s₂.next (world fun _ => {}, .slot false) = some s₃ ∧
      s₃.log = [⟨some 32, false⟩, ⟨some 32, false⟩] := by
    have hqueued : s₂.phase = .queued := by rw [hs₂]; rfl
    refine ⟨({ s₂ with attempts := s₂.attempts + 1, conn := some false, log := s₂.log ++ [Attempt.mk s₂.member false],
                       phase := .connecting } : Exchange).start .connect, ?_, ?_⟩
    · unfold next step onSlot
      dsimp only
      rw [if_neg fun h => h hqueued, if_neg Bool.false_ne_true]
      rfl
    · rw [hs₂, moveTo_fst]
      rw [hs₁]
      rfl
  refine ⟨s₃, ?_, hlog₃, ?_⟩
  · unfold again
    rw [run_cons_of_step h₁, run_cons_of_step h₂, run_cons_of_step h₃, run_nil]
  · unfold again
    rw [meets_cons_of_step h₁, meets_cons_of_step h₂, meets_cons_of_step h₃]
    refine ⟨trivial, ⟨nofun, fun _ hp => ?_⟩, trivial, trivial⟩
    rw [hs₁] at hp
    cases hp

/-- **No request is executed twice and failover ends**, over the groups that the mask is wide enough
    for and over no others. -/
theorem once_iff : (∀ health now start ls s,
      run next (opened group getOrHead rest bodySize buffering health now start) ls = some s →
      Meets next Orderly (opened group getOrHead rest bodySize buffering health now start) ls →
      Once (repeatable getOrHead rest bodySize) s) ↔ group.length ≤ 32 := by
  constructor
  · intro h
    by_contra hlarge
    obtain ⟨s, hrun, hlog, hmeets⟩ := run_again group getOrHead rest bodySize buffering
      (Nat.lt_of_not_le hlarge)
    have hnodup := (h _ _ _ _ s hrun hmeets).once
    rw [hlog] at hnodup
    exact absurd hnodup (by decide)
  · intro hsmall health now start ls s hrun hmeets
    have hkept : Kept group (repeatable getOrHead rest bodySize) s :=
      run_invariant (fun _ _ _ hi hl hn => next_kept hi hl hn)
        (opened_kept group getOrHead rest bodySize buffering health now start) hrun hmeets
    exact hkept.once (hkept.members ▸ hsmall)

/-- Thirty-three origins of one network. -/
def thirtyThree : List Address :=
  (List.range 33).map fun i =>
    let name := bytes ("10.0.0." ++ toString i ++ ":80")
    ⟨false, name, name⟩

/-- The last of thirty-three origins is tried twice. -/
theorem member_tried_twice : ¬ ∀ group getOrHead rest bodySize buffering health now start ls s,
    run next (opened group getOrHead rest bodySize buffering health now start) ls = some s →
    Once (repeatable getOrHead rest bodySize) s := by
  intro h
  obtain ⟨s, hrun, hlog, _⟩ := run_again thirtyThree true .nothing 0 true (by simp [thirtyThree])
  have hnodup := (h _ _ _ _ _ _ _ _ _ s hrun).once
  rw [hlog] at hnodup
  exact absurd hnodup (by decide)

end Again

end Agensio.Upstream.Exchange
