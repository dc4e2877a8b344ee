/-
  Agensio.Upstream.Slots — the slots of an upstream, over all its exchanges.

  Model of `limit_for`, `acquire`, `grant`, `release` and `dequeue` of
  `UpstreamPool` (`upstream/client.cpp`), and of a pool with its exchanges.
  What an exchange asks of the pool waits in `calls`, the newest first, so
  that a grant inside a release is made before what was asked after it.  A
  grant hands out a kept connection or a fresh one, which of the two is not
  said.  An exchange is dropped when nothing refers to it.

  `granted` is not in the program: it records every grant, with what was
  active behind it.

  Main results:
    * `slots_conserved` — the slots in every run in which no exchange that
      holds one is dropped, or cancelled while it gives one back.
-/
import Agensio.Lib.Assoc
import Agensio.Upstream.Moves

namespace Agensio.Upstream.Pool

open Agensio.Lib

/-! ## §1. The pool. -/

/-- `UpstreamOptions`; `reserved` is the share of `max_connections` that `priority_reserve` keeps. -/
structure Options where
  maxConnections : Nat
  reserved : Nat
  queueDepth : Nat
  deriving DecidableEq

/-- `limit_for`. -/
def limitFor (o : Options) (priority : Bool) : Nat :=
  if priority then o.maxConnections else if o.maxConnections > o.reserved then o.maxConnections - o.reserved else 0

structure Waiter where
  id : Nat
  priority : Bool
  deriving DecidableEq

/-- `UpstreamPool::Upstream`. -/
structure UpstreamSlots where
  queue : List Waiter := []
  active : Nat := 0
  deriving DecidableEq

inductive Verdict
  | granted
  | queued
  | refused
  deriving DecidableEq

namespace UpstreamSlots

/-- `acquire`, up to the call of the exchange. -/
def acquire (o : Options) (u : UpstreamSlots) (w : Waiter) : UpstreamSlots × Verdict :=
  if u.active < limitFor o w.priority then ({ u with active := u.active + 1 }, .granted)
  else if u.queue.length ≥ o.queueDepth then (u, .refused)
  else ({ u with queue := u.queue ++ [w] }, .queued)

/-- `release`, up to the call of the exchange whose turn it is. -/
def release (o : Options) (u : UpstreamSlots) : UpstreamSlots × Option Waiter :=
  let u := if u.active > 0 then { u with active := u.active - 1 } else u
  match u.queue.find? Waiter.priority with
  | some w =>
    if u.active ≥ limitFor o true then (u, none)
    else ({ queue := u.queue.eraseP Waiter.priority, active := u.active + 1 }, some w)
  | none =>
    match u.queue with
    | [] => (u, none)
    | w :: queue =>
      if u.active < limitFor o false then ({ queue := queue, active := u.active + 1 }, some w) else (u, none)

/-- `dequeue`. -/
def dequeue (u : UpstreamSlots) (id : Nat) : UpstreamSlots := { u with queue := u.queue.eraseP fun w => w.id = id }

end UpstreamSlots

/-! ## §2. A pool and its exchanges. -/

/-- What an exchange asks of the pool, and what the pool asks of an exchange. -/
inductive Call
  | acquire (id : Nat) (key : Bytes)
  | release (key : Bytes)
  | dequeue (id : Nat) (key : Bytes)
  | slot (id : Nat) (key : Bytes)
  deriving DecidableEq

/-- What an exchange asks of the pool. -/
def callOf (id : Nat) : Action → Option Call
  | .acquire key => some (.acquire id key)
  | .release key => some (.release key)
  | .dequeue key => some (.dequeue id key)
  | _ => none

def callsOf (id : Nat) (acts : List Action) : List Call := acts.filterMap (callOf id)

structure Listed where
  ex : Exchange
  priority : Bool

/-- The pools of a worker and the exchanges that use them. -/
structure World where
  upstreams : Bytes → UpstreamSlots := fun _ => {}
  exchanges : List (Nat × Listed) := []
  calls : List Call := []
  granted : List (Bytes × Bool × Nat) := []

/-- What an exchange is begun with. -/
structure Asked where
  group : List Address
  getOrHead : Bool
  rest : Rest
  bodySize : Nat
  buffering : Bool
  first : Option Nat
  priority : Bool

def Asked.exchange (a : Asked) : Exchange :=
  .begun a.group a.getOrHead a.rest a.bodySize a.buffering a.first

/-- The call is, or becomes, a slot of this exchange. -/
def Call.asks (id : Nat) : Call → Bool
  | .acquire i _ | .slot i _ => i = id
  | _ => false

def Call.acquires (id : Nat) : Call → Bool
  | .acquire i _ => i = id
  | _ => false

namespace World

section

variable (w : World)

def put (key : Bytes) (u : UpstreamSlots) : World :=
  { w with upstreams := fun k => if k = key then u else w.upstreams k }

/-- The exchange has done this, and asks for that. -/
def after (id : Nat) (m : Listed) (st : Exchange.Step) : World :=
  { w with exchanges := setAt w.exchanges id { m with ex := st.1 }, calls := callsOf id st.2 ++ w.calls }

/-- A grant. -/
def grant (key : Bytes) (u : UpstreamSlots) (x : Waiter) : World :=
  { w.put key u with calls := .slot x.id key :: w.calls, granted := (key, x.priority, u.active) :: w.granted }

/-- Nothing refers to the exchange: no operation in flight, no place in a queue, no call. -/
def unreferenced (id : Nat) (m : Listed) : Bool :=
  m.ex.ops.isEmpty && !m.ex.inData && !w.calls.any (Call.asks id) &&
    !(w.upstreams m.ex.poolKey).queue.any fun x => x.id = id

/-- The call of the pool that is next; `reused` says whether a grant finds a kept connection. -/
def perform (opts : Bytes → Options) (env : Env) (reused : Bool) : Option World :=
  match w.calls with
  | [] => none
  | call :: calls =>
    let w := { w with calls := calls }
    match call with
    | .acquire id key =>
      match w.exchanges.lookup id with
      | none => some w
      | some m =>
        match (w.upstreams key).acquire (opts key) ⟨id, m.priority⟩ with
        | (u, .granted) => some (w.grant key u ⟨id, m.priority⟩)
        | (u, .queued) => some (w.put key u)
        | (_, .refused) => some (w.after id m m.ex.onQueueRefused)
    | .release key =>
      match (w.upstreams key).release (opts key) with
      | (u, some x) => some (w.grant key u x)
      | (u, none) => some (w.put key u)
    | .dequeue id key => some (w.put key ((w.upstreams key).dequeue id))
    | .slot id _ =>
      match w.exchanges.lookup id with
      | none => some w
      | some m => some (w.after id m (m.ex.onSlot env reused))

end

inductive Happening
  | begin (id : Nat) (a : Asked)
  /-- An event of an exchange that the pool has no part in. -/
  | event (id : Nat) (env : Env) (ev : Exchange.Event)
  | call (env : Env) (reused : Bool)
  /-- The last reference to an exchange is gone (`~UpstreamRequest`). -/
  | drop (id : Nat)

/-- One step of a worker; `none` where it cannot happen. -/
def step (opts : Bytes → Options) (w : World) : Happening → Option World
  | .begin id a =>
    if id ∈ w.exchanges.map Prod.fst then none
    else
      some { w with exchanges := (id, ⟨a.exchange, a.priority⟩) :: w.exchanges,
                    calls := .acquire id a.exchange.poolKey :: w.calls }
  | .event id env ev =>
    match ev with
    | .slot _ | .refused => none
    | ev =>
      -- nothing else happens to an exchange while it asks for a slot
      if w.calls.any (Call.acquires id) then none
      else
        match w.exchanges.lookup id with
        | none => none
        | some m => (m.ex.step env ev).map (w.after id m)
  | .call env reused => w.perform opts env reused
  | .drop id =>
    match w.exchanges.lookup id with
    | none => none
    | some m => if w.unreferenced id m then some { w with exchanges := dropAt w.exchanges id } else none

end World

/-! ## §3. What is conserved. -/

/-- The slots of `key` that an exchange holds. -/
def held (key : Bytes) (m : Listed) : Nat := if m.ex.phase.holds = true ∧ m.ex.poolKey = key then 1 else 0

def holders (w : World) (key : Bytes) : Nat := total (held key) w.exchanges

/-- **The slots are conserved.** -/
structure Conserved (opts : Bytes → Options) (w : World) : Prop where
  /-- At rest, what is active is held by an exchange. -/
  active : w.calls = [] → ∀ key, (w.upstreams key).active = holders w key
  bound : ∀ key, (w.upstreams key).active ≤ (opts key).maxConnections
  granted : ∀ g ∈ w.granted, g.2.2 ≤ limitFor (opts g.1) g.2.1
  /-- Nobody waits for a slot that is free. -/
  waiting : ∀ key, ∀ x ∈ (w.upstreams key).queue, limitFor (opts key) x.priority ≤ (w.upstreams key).active

/-- An exchange that is dropped holds no slot, and none is cancelled while it gives its slot back for the
    next member to be tried. -/
def DropsNone (w : World) : World.Happening → Prop
  | .drop id => ∀ m, w.exchanges.lookup id = some m → m.ex.phase.holds = false
  | .event _ env _ | .call env _ => env.cancelsInRelease = false
  | .begin .. => True

/-! ## §4. The accounts. -/

/-- The call accounts for a slot of `key`. -/
def Call.takes (key : Bytes) : Call → Bool
  | .slot _ k | .release k => k = key
  | _ => false

/-- The call is for a slot of `key`, for this exchange. -/
def Call.names (id : Nat) (key : Bytes) : Call → Prop
  | .acquire i k | .slot i k => i = id ∧ k = key
  | _ => False

/-- How often the exchange is on its way to a slot of `key`. -/
def asked (w : World) (id : Nat) (key : Bytes) : Nat :=
  w.calls.countP (Call.asks id) + (w.upstreams key).queue.countP fun x => x.id = id

/-- What every step keeps. -/
structure Inv (opts : Bytes → Options) (w : World) : Prop where
  nodup : (w.exchanges.map Prod.fst).Nodup
  decoding : ∀ id m, w.exchanges.lookup id = some m → m.ex.decoding = true → m.ex.phase = .receiving
  active : ∀ key, (w.upstreams key).active = holders w key + w.calls.countP (Call.takes key)
  named : ∀ id key, (∃ c ∈ w.calls, c.names id key) → ∃ m, w.exchanges.lookup id = some m ∧ m.ex.poolKey = key
  queued : ∀ key, ∀ x ∈ (w.upstreams key).queue, ∃ m, w.exchanges.lookup x.id = some m ∧ m.ex.poolKey = key
  once : ∀ id m, w.exchanges.lookup id = some m → asked w id m.ex.poolKey ≤ if m.ex.phase.holds then 0 else 1
  bound : ∀ key, (w.upstreams key).active ≤ (opts key).maxConnections
  granted : ∀ g ∈ w.granted, g.2.2 ≤ limitFor (opts g.1) g.2.1
  waiting : ∀ key, ∀ x ∈ (w.upstreams key).queue, limitFor (opts key) x.priority ≤ (w.upstreams key).active

theorem Inv.conserved {opts : Bytes → Options} {w : World} (h : Inv opts w) : Conserved opts w where
  active hcalls key := by
    rw [h.active key, hcalls]
    rfl
  bound := h.bound
  granted := h.granted
  waiting := h.waiting

theorem limitFor_le (o : Options) (priority : Bool) : limitFor o priority ≤ o.maxConnections := by
  unfold limitFor
  split
  · exact Nat.le_refl _
  split
  · omega
  · omega

/-- The order of the calls does not matter to the accounts. -/
theorem Inv.perm {opts : Bytes → Options} {w : World} (h : Inv opts w) {calls : List Call} (hp : w.calls.Perm calls) :
    Inv opts { w with calls := calls } where
  nodup := h.nodup
  decoding := h.decoding
  active key := by
    rw [← hp.countP_eq]
    exact h.active key
  named id key := by
    rintro ⟨c, hc, hn⟩
    exact h.named id key ⟨c, hp.mem_iff.mpr hc, hn⟩
  queued := h.queued
  once id m hm := by
    have := h.once id m hm
    unfold asked at this ⊢
    rw [← hp.countP_eq]
    exact this
  bound := h.bound
  granted := h.granted
  waiting := h.waiting

/-! ## §5. What an exchange does to the accounts. -/

theorem Call.asks_iff {c : Call} {id : Nat} : c.asks id = true ↔ ∃ key, c.names id key := by
  cases c with
  | acquire i k =>
    show decide (i = id) = true ↔ ∃ key, i = id ∧ k = key
    rw [decide_eq_true_eq]
    exact ⟨fun h => ⟨k, h, rfl⟩, fun ⟨_, h, _⟩ => h⟩
  | slot i k =>
    show decide (i = id) = true ↔ ∃ key, i = id ∧ k = key
    rw [decide_eq_true_eq]
    exact ⟨fun h => ⟨k, h, rfl⟩, fun ⟨_, h, _⟩ => h⟩
  | release k => exact ⟨nofun, fun ⟨_, h⟩ => h.elim⟩
  | dequeue i k => exact ⟨nofun, fun ⟨_, h⟩ => h.elim⟩

section Accounts

variable {opts : Bytes → Options} {w : World} {id : Nat} {m : Listed}

theorem Inv.no_call_of_holds (h : Inv opts w) (hm : w.exchanges.lookup id = some m) (hholds : m.ex.phase.holds = true) :
    w.calls.countP (Call.asks id) = 0 ∧ (w.upstreams m.ex.poolKey).queue.countP (fun x => x.id = id) = 0 := by
  have := h.once id m hm
  unfold asked at this
  rw [hholds, if_pos rfl] at this
  omega

/-- An exchange that holds a slot is in no queue. -/
theorem Inv.not_queued_of_holds (h : Inv opts w) (hm : w.exchanges.lookup id = some m)
    (hholds : m.ex.phase.holds = true) (key : Bytes) : ∀ x ∈ (w.upstreams key).queue, x.id ≠ id := by
  intro x hx heq
  obtain ⟨m', hm', hkey⟩ := h.queued key x hx
  rw [heq, hm] at hm'
  cases hm'
  have hnone := (h.no_call_of_holds hm hholds).2
  rw [hkey] at hnone
  exact List.countP_eq_zero.mp hnone x hx (by simpa using heq)

/-- The exchange changes, and asks for something. -/
theorem Inv.after_of (h : Inv opts w) (hm : w.exchanges.lookup id = some m) {t : Exchange} {calls : List Call}
    (hdec : t.decoding = true → t.phase = .receiving)
    (hsum : ∀ key, held key { m with ex := t } + calls.countP (Call.takes key) = held key m)
    (hnames : ∀ c ∈ calls, ∀ i key, c.names i key → i = id ∧ key = t.poolKey)
    (hcase : (t.poolKey = m.ex.poolKey ∧ calls.countP (Call.asks id) = 0 ∧
        (t.phase.holds = true → m.ex.phase.holds = true)) ∨
      (m.ex.phase.holds = true ∧ t.phase.holds = false ∧ calls.countP (Call.asks id) ≤ 1)) :
    Inv opts { w with exchanges := setAt w.exchanges id { m with ex := t }, calls := calls ++ w.calls } where
  nodup := by
    rw [keys_setAt]
    exact h.nodup
  decoding i m' hm' hd := by
    by_cases hi : i = id
    · subst hi
      rw [lookup_setAt_self hm] at hm'
      cases hm'
      exact hdec hd
    · rw [lookup_setAt_ne hi] at hm'
      exact h.decoding i m' hm' hd
  active key := by
    have hold := h.active key
    have htotal := total_setAt (held key) h.nodup hm { m with ex := t }
    have := hsum key
    show (w.upstreams key).active = total (held key) (setAt w.exchanges id { m with ex := t }) + _
    rw [List.countP_append]
    unfold holders at hold
    omega
  named i key := by
    rintro ⟨c, hc, hn⟩
    rcases List.mem_append.mp (show c ∈ calls ++ w.calls from hc) with hc | hc
    · obtain ⟨rfl, rfl⟩ := hnames c hc i key hn
      exact ⟨_, lookup_setAt_self hm _, rfl⟩
    obtain ⟨m', hm', hkey⟩ := h.named i key ⟨c, hc, hn⟩
    by_cases hi : i = id
    · subst hi
      rw [hm] at hm'
      cases hm'
      refine ⟨_, lookup_setAt_self hm _, ?_⟩
      rcases hcase with ⟨hsame, _, _⟩ | ⟨hholds, _, _⟩
      · exact hsame.trans hkey
      -- it holds a slot, so no call is for it
      have hnone := (h.no_call_of_holds hm hholds).1
      exact absurd (Call.asks_iff.mpr ⟨key, hn⟩) (List.countP_eq_zero.mp hnone c (by assumption))
    · refine ⟨m', ?_, hkey⟩
      rw [lookup_setAt_ne hi]
      exact hm'
  queued key x hx := by
    obtain ⟨m', hm', hkey⟩ := h.queued key x hx
    by_cases hi : x.id = id
    · rw [hi, hm] at hm'
      cases hm'
      refine ⟨_, by rw [hi]; exact lookup_setAt_self hm _, ?_⟩
      rcases hcase with ⟨hsame, _, _⟩ | ⟨hholds, _, _⟩
      · exact hsame.trans hkey
      · exact absurd hi (h.not_queued_of_holds hm hholds key x hx)
    · refine ⟨m', ?_, hkey⟩
      rw [lookup_setAt_ne hi]
      exact hm'
  once i m' hm' := by
    by_cases hi : i = id
    · subst hi
      rw [lookup_setAt_self hm] at hm'
      cases hm'
      show (calls ++ w.calls).countP (Call.asks i) + (w.upstreams t.poolKey).queue.countP (fun x => x.id = i) ≤
        if t.phase.holds then 0 else 1
      rw [List.countP_append]
      rcases hcase with ⟨hsame, hnone, hmono⟩ | ⟨hholds, hnot, hone⟩
      · have hold := h.once i m hm
        unfold asked at hold
        rw [hsame, hnone]
        cases ht : t.phase.holds with
        | true =>
          rw [hmono ht, if_pos rfl] at hold
          omega
        | false =>
          rw [if_neg Bool.false_ne_true]
          split at hold <;> omega
      · have hcalls := (h.no_call_of_holds hm hholds).1
        have hqueue : (w.upstreams t.poolKey).queue.countP (fun x => x.id = i) = 0 :=
          List.countP_eq_zero.mpr fun x hx => by
            simpa using h.not_queued_of_holds hm hholds t.poolKey x hx
        rw [hnot, if_neg Bool.false_ne_true]
        omega
    · rw [lookup_setAt_ne hi] at hm'
      have hnone : calls.countP (Call.asks i) = 0 := by
        refine List.countP_eq_zero.mpr fun c hc hasks => ?_
        obtain ⟨key, hn⟩ := Call.asks_iff.mp hasks
        exact hi (hnames c hc i key hn).1
      have hold := h.once i m' hm'
      unfold asked at hold ⊢
      rw [List.countP_append, hnone, Nat.zero_add]
      exact hold
  bound := h.bound
  granted := h.granted
  waiting := h.waiting

end Accounts

/-- What a move does to the slot of its exchange, and asks of the pool for it. -/
theorem move_slots {fair : Prop} {env : Env} {s t : Exchange} {acts : List Action} (id : Nat)
    (hcalm : env.cancelsInRelease = false) (h : Exchange.Move fair env s acts t) :
    (t.poolKey = s.poolKey ∧ t.phase.holds = s.phase.holds ∧ callsOf id acts = []) ∨
    (s.phase.holds = true ∧ t.phase.holds = false ∧ callsOf id acts = [.release s.poolKey]) ∨
    (s.phase.holds = true ∧ t.phase.holds = false ∧ callsOf id acts = [.release s.poolKey, .acquire id t.poolKey]) ∨
    (t.poolKey = s.poolKey ∧ s.phase.holds = false ∧ t.phase.holds = false ∧
      callsOf id acts = [.dequeue id s.poolKey]) := by
  have hover : ∀ p : Phase, p.over = true → p.holds = false := by
    intro p hp
    cases p with
    | finished | failed | cancelled => rfl
    | queued | connecting | sending | sendingBody | receiving => cases hp
  cases h with
  | quiet hq hacts =>
    refine .inl ⟨?_, by rw [hq.phase], ?_⟩
    · unfold Exchange.poolKey Exchange.address
      rw [hq.member, hq.group]
    · refine List.filterMap_eq_nil_iff.mpr fun a ha => ?_
      have := hacts a ha
      cases a with
      | acquire | release | dequeue => cases this
      | markFailure | markSuccess | sendHead | startRead | deliver => rfl
  | sendHead hphase => exact .inl ⟨rfl, rfl, rfl⟩
  | proceed p hp =>
    refine .inl ⟨rfl, ?_, rfl⟩
    rcases hp with ⟨h, rfl⟩ | ⟨h, rfl⟩
    · exact (show Phase.holds .sending = s.phase.holds by rw [h]; rfl)
    · exact (show Phase.holds .receiving = s.phase.holds by rw [h]; rfl)
  | headWritten o p _ _ _ hphase hp =>
    refine .inl ⟨rfl, ?_, rfl⟩
    rw [hphase]
    rcases hp with rfl | rfl <;> rfl
  | data o n _ _ => exact .inl ⟨rfl, rfl, rfl⟩
  | resend _ _ _ hphase _ =>
    refine .inl ⟨rfl, ?_, rfl⟩
    rcases hphase with h | h <;> rw [h] <;> rfl
  | moveTo why next _ hholds _ =>
    refine .inr (.inr (.inl ⟨hholds, ?_, ?_⟩))
    · rfl
    have hnot : s.phase ≠ .queued := (Exchange.Phase.not_over_of_holds hholds).2
    unfold Exchange.moveTo Exchange.giveSlot
    dsimp only
    rw [if_neg hnot, hcalm, if_neg Bool.false_ne_true]
    rfl
  | close p c f d hholds hp => exact .inr (.inl ⟨hholds, hover p hp, rfl⟩)
  | leave p c f hphase hp hacts =>
    have hs : s.phase.holds = false := by
      rw [hphase]
      rfl
    rcases hacts with rfl | rfl
    · exact .inl ⟨rfl, (hover p hp).trans hs.symm, rfl⟩
    · exact .inr (.inr (.inr ⟨rfl, hs, hover p hp, rfl⟩))
  | forget hphase => exact .inl ⟨rfl, (hover _ hphase).symm, rfl⟩

theorem held_of_not (key : Bytes) {m : Listed} (h : m.ex.phase.holds = false) : held key m = 0 := by
  unfold held
  rw [h, if_neg fun hc => Bool.false_ne_true hc.1]

theorem held_of_holds (key : Bytes) {m : Listed} (h : m.ex.phase.holds = true) :
    held key m = if m.ex.poolKey = key then 1 else 0 := by
  unfold held
  rw [h]
  simp only [true_and]

section Moves

variable {opts : Bytes → Options} {id : Nat} {fair : Prop} {env : Env}

theorem Inv.move {w : World} {m : Listed} (h : Inv opts w) (hm : w.exchanges.lookup id = some m)
    {acts : List Action} {t : Exchange} (hcalm : env.cancelsInRelease = false)
    (hmove : Exchange.Move fair env m.ex acts t) : Inv opts (w.after id m (t, acts)) := by
  have hdec := hmove.decoding (h.decoding id m hm)
  unfold World.after
  rcases move_slots id hcalm hmove with ⟨hkey, hholds, hcalls⟩ | ⟨hs, ht, hcalls⟩ | ⟨hs, ht, hcalls⟩ |
    ⟨hkey, hs, ht, hcalls⟩
  · rw [hcalls]
    refine h.after_of hm hdec ?_ nofun (.inl ⟨hkey, rfl, fun ht => hholds ▸ ht⟩)
    intro key
    unfold held
    rw [hkey, hholds]
    rfl
  · -- the slot goes back
    rw [hcalls]
    refine h.after_of hm hdec ?_ ?_ (.inr ⟨hs, ht, Nat.zero_le _⟩)
    · intro key
      rw [held_of_not key ht, held_of_holds key hs, List.countP_singleton]
      simp [Call.takes]
    · intro c hc i key hn
      rw [List.mem_singleton.mp hc] at hn
      exact hn.elim
  · -- the slot goes back, and one of the other member is asked for
    rw [hcalls]
    refine h.after_of hm hdec ?_ ?_ (.inr ⟨hs, ht, ?_⟩)
    · intro key
      rw [held_of_not key ht, held_of_holds key hs, List.countP_cons, List.countP_singleton]
      simp [Call.takes]
    · intro c hc i key hn
      rcases List.mem_cons.mp hc with rfl | hc
      · exact hn.elim
      rw [List.mem_singleton.mp hc] at hn
      exact ⟨hn.1.symm, hn.2.symm⟩
    · simp [Call.asks]
  · rw [hcalls]
    refine h.after_of hm hdec ?_ ?_ (.inl ⟨hkey, rfl, fun hc => ?_⟩)
    · intro key
      rw [held_of_not key ht, held_of_not key hs]
      rfl
    · intro c hc i key hn
      rw [List.mem_singleton.mp hc] at hn
      exact hn.elim
    · rw [ht] at hc
      cases hc

/-- **The accounts are kept by whatever an exchange does.** -/
theorem Inv.moves {s t : Exchange} {acts : List Action} (hcalm : env.cancelsInRelease = false)
    (hmoves : Exchange.Moves fair env s acts t) :
    ∀ {w : World} {priority : Bool}, Inv opts w → w.exchanges.lookup id = some ⟨s, priority⟩ →
      Inv opts (w.after id ⟨s, priority⟩ (t, acts)) := by
  induction hmoves with
  | nil =>
    intro w priority h hm
    unfold World.after
    rw [setAt_self h.nodup hm]
    exact h
  | @cons s m t a b hmove _ ih =>
    intro w priority h hm
    have hnext := ih (h.move hm hcalm hmove) (lookup_setAt_self hm _)
    unfold World.after at hnext ⊢
    rw [setAt_setAt] at hnext
    refine hnext.perm ?_
    unfold callsOf
    rw [List.filterMap_append, ← List.append_assoc]
    exact List.Perm.append_right _ List.perm_append_comm

end Moves

/-! ## §6. What the pool does to the accounts. -/

section Rules

variable {o : Options} {u : UpstreamSlots}

theorem acquire_cases (o : Options) (u : UpstreamSlots) (x : Waiter) :
    (u.active < limitFor o x.priority ∧ u.acquire o x = ({ u with active := u.active + 1 }, .granted)) ∨
    (limitFor o x.priority ≤ u.active ∧ u.acquire o x = ({ u with queue := u.queue ++ [x] }, .queued)) ∨
    u.acquire o x = (u, .refused) := by
  unfold UpstreamSlots.acquire
  split
  · next h => exact .inl ⟨h, rfl⟩
  split
  · exact .inr (.inr rfl)
  · next h _ => exact .inr (.inl ⟨Nat.not_lt.mp h, rfl⟩)

/-- The first waiter of a kind, and the queue without it. -/
theorem find_eraseP {p : Waiter → Bool} {queue : List Waiter} {x : Waiter} (h : queue.find? p = some x) :
    p x = true ∧ queue.Perm (x :: queue.eraseP p) := by
  obtain ⟨hp, before, behind, rfl, hnot⟩ := List.find?_eq_some_iff_append.mp h
  refine ⟨hp, ?_⟩
  rw [List.eraseP_append_right _ (fun y hy => by simpa using hnot y hy), List.eraseP_cons_of_pos hp]
  exact List.perm_middle

/-- A slot that is given back is free, or goes to a waiter. -/
theorem release_cases (hactive : 0 < u.active) (hbound : u.active ≤ o.maxConnections) :
    (u.release o = ({ u with active := u.active - 1 }, none) ∧
      ∀ x ∈ u.queue, limitFor o x.priority ≤ u.active - 1) ∨
    ∃ x queue, u.release o = ({ queue := queue, active := u.active }, some x) ∧ u.queue.Perm (x :: queue) ∧
      u.active ≤ limitFor o x.priority := by
  unfold UpstreamSlots.release
  rw [if_pos hactive]
  dsimp only
  have hback : u.active - 1 + 1 = u.active := Nat.sub_add_cancel hactive
  split
  · next x hx =>
    obtain ⟨hpriority, hperm⟩ := find_eraseP hx
    split
    · next hfull =>
      -- no limit is above that of the priority waiters
      refine .inl ⟨rfl, fun y _ => ?_⟩
      exact Nat.le_trans (limitFor_le o y.priority) hfull
    · rw [hback]
      refine .inr ⟨x, _, rfl, hperm, ?_⟩
      rw [hpriority]
      exact hbound
  · next hnone =>
    have hordinary : ∀ x ∈ u.queue, x.priority = false := fun x hx => by
      simpa using List.find?_eq_none.mp hnone x hx
    split
    · next hempty =>
      refine .inl ⟨rfl, fun x hx => ?_⟩
      rw [hempty] at hx
      cases hx
    · next x queue hqueue =>
      have hx : x ∈ u.queue := by
        rw [hqueue]
        exact .head _
      split
      · next hfree =>
        rw [hback]
        refine .inr ⟨x, queue, rfl, by rw [hqueue], ?_⟩
        rw [hordinary x hx]
        omega
      · next hfull =>
        refine .inl ⟨rfl, fun y hy => ?_⟩
        rw [hordinary y hy]
        omega

end Rules

section Pool

variable {opts : Bytes → Options} {w : World}

/-- Calls and queues change, with the grants; the exchanges do not. -/
theorem Inv.of_accounts (h : Inv opts w) (upstreams : Bytes → UpstreamSlots) (calls : List Call)
    (granted : List (Bytes × Bool × Nat))
    (hactive : ∀ key, (upstreams key).active + w.calls.countP (Call.takes key) =
      (w.upstreams key).active + calls.countP (Call.takes key))
    (hnamed : ∀ id key, (∃ c ∈ calls, c.names id key) ∨ (∃ x ∈ (upstreams key).queue, x.id = id) →
      (∃ c ∈ w.calls, c.names id key) ∨ ∃ x ∈ (w.upstreams key).queue, x.id = id)
    (honce : ∀ id m, w.exchanges.lookup id = some m →
      calls.countP (Call.asks id) + (upstreams m.ex.poolKey).queue.countP (fun x => x.id = id) ≤
        asked w id m.ex.poolKey) (hbound : ∀ key, (upstreams key).active ≤ (opts key).maxConnections)
    (hgranted : ∀ g ∈ granted, g.2.2 ≤ limitFor (opts g.1) g.2.1)
    (hwaiting : ∀ key, ∀ x ∈ (upstreams key).queue, limitFor (opts key) x.priority ≤ (upstreams key).active) :
    Inv opts { w with upstreams := upstreams, calls := calls, granted := granted } := by
  have hlisted : ∀ id key, (∃ c ∈ calls, c.names id key) ∨ (∃ x ∈ (upstreams key).queue, x.id = id) →
      ∃ m, w.exchanges.lookup id = some m ∧ m.ex.poolKey = key := by
    intro id key hc
    rcases hnamed id key hc with hc | ⟨x, hx, rfl⟩
    · exact h.named id key hc
    · exact h.queued key x hx
  exact {
    nodup := h.nodup
    decoding := h.decoding
    active := fun key => by
      have := hactive key
      have := h.active key
      show (upstreams key).active = holders w key + calls.countP (Call.takes key)
      omega
    named := fun id key hc => hlisted id key (.inl hc)
    queued := fun key x hx => hlisted x.id key (.inr ⟨x, hx, rfl⟩)
    once := fun id m hm => Nat.le_trans (honce id m hm) (h.once id m hm)
    bound := hbound
    granted := hgranted
    waiting := hwaiting }

/-- The pool hears of an upstream; the calls behind the one that is performed are `calls`. -/
theorem Inv.of_put (h : Inv opts w) (key : Bytes) (u : UpstreamSlots) (calls : List Call)
    (granted : List (Bytes × Bool × Nat)) (hactive : u.active + w.calls.countP (Call.takes key) =
      (w.upstreams key).active + calls.countP (Call.takes key))
    (hother : ∀ k, k ≠ key → calls.countP (Call.takes k) = w.calls.countP (Call.takes k))
    (hcalls : ∀ id k, (∃ c ∈ calls, c.names id k) →
      (∃ c ∈ w.calls, c.names id k) ∨ ∃ x ∈ (w.upstreams k).queue, x.id = id)
    (hqueue : ∀ x ∈ u.queue, (∃ c ∈ w.calls, c.names x.id key) ∨ ∃ y ∈ (w.upstreams key).queue, y.id = x.id)
    (honce : ∀ id, calls.countP (Call.asks id) + u.queue.countP (fun x => x.id = id) ≤ asked w id key)
    (hasks : ∀ id k, (∃ m, w.exchanges.lookup id = some m ∧ m.ex.poolKey = k) → k ≠ key →
      calls.countP (Call.asks id) ≤ w.calls.countP (Call.asks id))
    (hbound : u.active ≤ (opts key).maxConnections)
    (hgranted : ∀ g ∈ granted, g.2.2 ≤ limitFor (opts g.1) g.2.1)
    (hwaiting : ∀ x ∈ u.queue, limitFor (opts key) x.priority ≤ u.active) :
    Inv opts { w.put key u with calls := calls, granted := granted } := by
  have hself : (w.put key u).upstreams key = u := if_pos rfl
  have hne : ∀ {k}, k ≠ key → (w.put key u).upstreams k = w.upstreams k := fun hk => if_neg hk
  refine h.of_accounts (w.put key u).upstreams calls granted ?_ ?_ ?_ ?_ hgranted ?_
  · intro k
    by_cases hk : k = key
    · rw [hk, hself]
      exact hactive
    · rw [hne hk, hother k hk]
  · rintro id k (hc | ⟨x, hx, rfl⟩)
    · exact hcalls id k hc
    · by_cases hk : k = key
      · rw [hk, hself] at hx
        rw [hk]
        exact hqueue x hx
      · rw [hne hk] at hx
        exact .inr ⟨x, hx, rfl⟩
  · intro id m hm
    by_cases hk : m.ex.poolKey = key
    · rw [hk, hself]
      exact honce id
    rw [hne hk]
    exact Nat.add_le_add_right (hasks id _ ⟨m, hm, rfl⟩ hk) _
  · intro k
    by_cases hk : k = key
    · rw [hk, hself]
      exact hbound
    rw [hne hk]
    exact h.bound k
  · intro k x hx
    by_cases hk : k = key
    · rw [hk, hself] at hx ⊢
      exact hwaiting x hx
    rw [hne hk] at hx ⊢
    exact h.waiting k x hx

/-- The call is made, and nothing comes of it. -/
theorem Inv.tail (h : Inv opts w) {c : Call} {calls : List Call} (hcalls : w.calls = c :: calls)
    (htakes : ∀ key, c.takes key = false) : Inv opts { w with calls := calls } := by
  refine h.of_accounts w.upstreams calls w.granted ?_ ?_ ?_ h.bound h.granted h.waiting
  · intro key
    rw [hcalls, List.countP_cons_of_neg (by rw [htakes]; exact Bool.false_ne_true)]
  · rintro id key (⟨c, hc, hn⟩ | hx)
    · refine .inl ⟨c, ?_, hn⟩
      rw [hcalls]
      exact .tail _ hc
    · exact .inr hx
  · intro id m _
    unfold asked
    rw [hcalls, List.countP_cons]
    omega

section Calls

variable {calls : List Call} {id : Nat} {key : Bytes}

/-- A slot is granted to one who asks. -/
theorem Inv.acquire_granted (h : Inv opts w) (hcalls : w.calls = .acquire id key :: calls) {priority : Bool}
    (hfree : (w.upstreams key).active < limitFor (opts key) priority) :
    Inv opts (({ w with calls := calls } : World).grant key
      { w.upstreams key with active := (w.upstreams key).active + 1 } ⟨id, priority⟩) := by
  have hle := limitFor_le (opts key) priority
  refine h.of_put key _ (.slot id key :: calls) _ ?_ ?_ ?_ ?_ ?_ ?_ ?_ ?_ ?_
  · rw [hcalls, List.countP_cons_of_neg (by simp [Call.takes]), List.countP_cons_of_pos (by simp [Call.takes])]
    show (w.upstreams key).active + 1 + _ = _
    omega
  · intro k hk
    rw [hcalls, List.countP_cons_of_neg (by simpa [Call.takes] using Ne.symm hk),
      List.countP_cons_of_neg (by simp [Call.takes])]
  · rintro i k ⟨c, hc, hn⟩
    refine .inl ?_
    rw [hcalls]
    rcases List.mem_cons.mp hc with rfl | hc
    · exact ⟨_, .head _, hn⟩
    · exact ⟨c, .tail _ hc, hn⟩
  · exact fun x hx => .inr ⟨x, hx, rfl⟩
  · intro i
    unfold asked
    exact Nat.le_of_eq (by rw [hcalls]; rfl)
  · intro i k _ _
    exact Nat.le_of_eq (by rw [hcalls]; rfl)
  · show (w.upstreams key).active + 1 ≤ _
    omega
  · intro g hg
    rcases List.mem_cons.mp hg with rfl | hg
    · exact hfree
    · exact h.granted g hg
  · intro x hx
    have := h.waiting key x hx
    show _ ≤ (w.upstreams key).active + 1
    omega

/-- One who asks takes a place in the queue. -/
theorem Inv.acquire_queued (h : Inv opts w) (hcalls : w.calls = .acquire id key :: calls) {priority : Bool}
    (hfull : limitFor (opts key) priority ≤ (w.upstreams key).active) :
    Inv opts (({ w with calls := calls } : World).put key
      { w.upstreams key with queue := (w.upstreams key).queue ++ [⟨id, priority⟩] }) := by
  have hold : ∀ c ∈ calls, c ∈ w.calls := fun c hc => by
    rw [hcalls]
    exact .tail _ hc
  refine h.of_put key _ calls w.granted ?_ ?_ ?_ ?_ ?_ ?_ (h.bound key) h.granted ?_
  · rw [hcalls, List.countP_cons_of_neg (by simp [Call.takes])]
  · intro k _
    rw [hcalls, List.countP_cons_of_neg (by simp [Call.takes])]
  · exact fun i k ⟨c, hc, hn⟩ => .inl ⟨c, hold c hc, hn⟩
  · intro x hx
    rcases List.mem_append.mp hx with hx | hx
    · exact .inr ⟨x, hx, rfl⟩
    rw [List.mem_singleton.mp hx]
    refine .inl ⟨.acquire id key, ?_, rfl, rfl⟩
    rw [hcalls]
    exact .head _
  · intro i
    unfold asked
    rw [hcalls, List.countP_append, List.countP_singleton, List.countP_cons]
    show calls.countP _ + ((w.upstreams key).queue.countP _ + if decide (id = i) = true then 1 else 0) ≤
      calls.countP _ + (if decide (id = i) = true then 1 else 0) + (w.upstreams key).queue.countP _
    omega
  · intro i k _ _
    rw [hcalls, List.countP_cons]
    omega
  · intro x hx
    rcases List.mem_append.mp hx with hx | hx
    · exact h.waiting key x hx
    rw [List.mem_singleton.mp hx]
    exact hfull

/-- Something is given back, so something was held. -/
theorem Inv.active_pos (h : Inv opts w) (hcalls : w.calls = .release key :: calls) :
    0 < (w.upstreams key).active := by
  rw [h.active key, hcalls, List.countP_cons_of_pos (by simp [Call.takes])]
  omega

/-- A slot is given back, and is free. -/
theorem Inv.release_free (h : Inv opts w) (hcalls : w.calls = .release key :: calls)
    (hwaiting : ∀ x ∈ (w.upstreams key).queue, limitFor (opts key) x.priority ≤ (w.upstreams key).active - 1) :
    Inv opts (({ w with calls := calls } : World).put key
      { w.upstreams key with active := (w.upstreams key).active - 1 }) := by
  have hpos := h.active_pos hcalls
  have hbound := h.bound key
  have hnot : ∀ i, ¬ (Call.release key).asks i = true := fun _ => Bool.false_ne_true
  refine h.of_put key _ calls w.granted ?_ ?_ ?_ ?_ ?_ ?_ ?_ h.granted hwaiting
  · rw [hcalls, List.countP_cons_of_pos (by simp [Call.takes])]
    show (w.upstreams key).active - 1 + _ = _
    omega
  · intro k hk
    rw [hcalls, List.countP_cons_of_neg (by simpa [Call.takes] using Ne.symm hk)]
  · rintro i k ⟨c, hc, hn⟩
    refine .inl ⟨c, ?_, hn⟩
    rw [hcalls]
    exact .tail _ hc
  · exact fun x hx => .inr ⟨x, hx, rfl⟩
  · intro i
    unfold asked
    exact Nat.le_of_eq (by rw [hcalls, List.countP_cons_of_neg (hnot i)])
  · intro i k _ _
    exact Nat.le_of_eq (by rw [hcalls, List.countP_cons_of_neg (hnot i)])
  · show (w.upstreams key).active - 1 ≤ _
    omega

/-- A slot is given back, and goes to a waiter. -/
theorem Inv.release_granted (h : Inv opts w) (hcalls : w.calls = .release key :: calls) {x : Waiter}
    {queue : List Waiter} (hperm : (w.upstreams key).queue.Perm (x :: queue))
    (hlimit : (w.upstreams key).active ≤ limitFor (opts key) x.priority) :
    Inv opts (({ w with calls := calls } : World).grant key
      { queue := queue, active := (w.upstreams key).active } x) := by
  have hnot : ∀ i, ¬ (Call.release key).asks i = true := fun _ => Bool.false_ne_true
  have hx : x ∈ (w.upstreams key).queue := hperm.mem_iff.mpr List.mem_cons_self
  have hqueue : ∀ y ∈ queue, y ∈ (w.upstreams key).queue := fun y hy =>
    hperm.mem_iff.mpr (.tail _ hy)
  refine h.of_put key _ (.slot x.id key :: calls) _ ?_ ?_ ?_ ?_ ?_ ?_ (h.bound key) ?_ ?_
  · rw [hcalls, List.countP_cons, List.countP_cons]
    rfl
  · intro k _
    rw [hcalls, List.countP_cons, List.countP_cons]
    rfl
  · rintro i k ⟨c, hc, hn⟩
    rcases List.mem_cons.mp hc with rfl | hc
    · obtain ⟨rfl, rfl⟩ := hn
      exact .inr ⟨x, hx, rfl⟩
    refine .inl ⟨c, ?_, hn⟩
    rw [hcalls]
    exact .tail _ hc
  · exact fun y hy => .inr ⟨y, hqueue y hy, rfl⟩
  · intro i
    unfold asked
    rw [hcalls, List.countP_cons_of_neg (hnot i), hperm.countP_eq, List.countP_cons, List.countP_cons]
    show calls.countP _ + (if decide (x.id = i) = true then 1 else 0) + queue.countP _ ≤
      calls.countP _ + (queue.countP _ + if decide (x.id = i) = true then 1 else 0)
    omega
  · rintro i k ⟨m, hm, hkey⟩ hk
    -- the waiter waits at this upstream alone
    have hne : x.id ≠ i := by
      rintro rfl
      obtain ⟨m', hm', hkey'⟩ := h.queued key x hx
      rw [hm] at hm'
      cases hm'
      exact hk (hkey.symm.trans hkey')
    exact Nat.le_of_eq (by
      rw [hcalls, List.countP_cons_of_neg (hnot i), List.countP_cons_of_neg (by simpa [Call.asks] using hne)])
  · intro g hg
    rcases List.mem_cons.mp hg with rfl | hg
    · exact hlimit
    · exact h.granted g hg
  · exact fun y hy => h.waiting key y (hqueue y hy)

/-- A place in the queue is given up. -/
theorem Inv.dequeued (h : Inv opts w) (hcalls : w.calls = .dequeue id key :: calls) :
    Inv opts (({ w with calls := calls } : World).put key ((w.upstreams key).dequeue id)) := by
  have hnot : ∀ i, ¬ (Call.dequeue id key).asks i = true := fun _ => Bool.false_ne_true
  have hsub : ((w.upstreams key).dequeue id).queue.Sublist (w.upstreams key).queue := List.eraseP_sublist
  refine h.of_put key _ calls w.granted ?_ ?_ ?_ ?_ ?_ ?_ (h.bound key) h.granted ?_
  · rw [hcalls, List.countP_cons_of_neg (by simp [Call.takes])]
    rfl
  · intro k _
    rw [hcalls, List.countP_cons_of_neg (by simp [Call.takes])]
  · rintro i k ⟨c, hc, hn⟩
    refine .inl ⟨c, ?_, hn⟩
    rw [hcalls]
    exact .tail _ hc
  · exact fun x hx => .inr ⟨x, hsub.subset hx, rfl⟩
  · intro i
    unfold asked
    rw [hcalls, List.countP_cons_of_neg (hnot i)]
    exact Nat.add_le_add_left hsub.countP_le _
  · intro i k _ _
    exact Nat.le_of_eq (by rw [hcalls, List.countP_cons_of_neg (hnot i)])
  · exact fun x hx => h.waiting key x (hsub.subset hx)

/-- An exchange that does not wait for it gives its slot back. -/
theorem Inv.slot_returned (h : Inv opts w) (hcalls : w.calls = .slot id key :: calls) :
    Inv opts { w with calls := .release key :: calls } := by
  refine h.of_accounts w.upstreams (.release key :: calls) w.granted ?_ ?_ ?_ h.bound h.granted h.waiting
  · intro k
    rw [hcalls, List.countP_cons, List.countP_cons]
    rfl
  · rintro i k (⟨c, hc, hn⟩ | hx)
    · refine .inl ?_
      rw [hcalls]
      rcases List.mem_cons.mp hc with rfl | hc
      · exact hn.elim
      · exact ⟨c, .tail _ hc, hn⟩
    · exact .inr hx
  · intro i m _
    unfold asked
    have hnot : ¬ (Call.release key).asks i = true := Bool.false_ne_true
    rw [hcalls, List.countP_cons_of_neg hnot, List.countP_cons]
    omega

/-- An exchange gets the slot it waits for. -/
theorem Inv.slotted (h : Inv opts w) (hcalls : w.calls = .slot id key :: calls) {m : Listed}
    (hm : w.exchanges.lookup id = some m) (hkey : m.ex.poolKey = key) (hphase : m.ex.phase = .queued) (reused : Bool) :
    Inv opts { w with exchanges := setAt w.exchanges id { m with ex := m.ex.slotted reused }, calls := calls } := by
  have hholds : (m.ex.slotted reused).phase.holds = true := by
    cases reused <;> rfl
  have hfree : m.ex.phase.holds = false := by
    rw [hphase]
    rfl
  -- it was on its way to this one slot, and to no other
  have hone := h.once id m hm
  unfold asked at hone
  rw [hfree, if_neg Bool.false_ne_true, hcalls, List.countP_cons_of_pos (by simp [Call.asks])] at hone
  exact {
    nodup := by
      rw [keys_setAt]
      exact h.nodup
    decoding := fun i m' hm' hd => by
      by_cases hi : i = id
      · subst hi
        rw [lookup_setAt_self hm] at hm'
        cases hm'
        have := h.decoding i m hm hd
        rw [hphase] at this
        cases this
      · rw [lookup_setAt_ne hi] at hm'
        exact h.decoding i m' hm' hd
    active := fun k => by
      have hold := h.active k
      have htotal := total_setAt (held k) h.nodup hm { m with ex := m.ex.slotted reused }
      rw [held_of_not k hfree, held_of_holds (m := { m with ex := m.ex.slotted reused }) k hholds] at htotal
      have hsame : (m.ex.slotted reused).poolKey = key := hkey
      rw [hcalls, List.countP_cons] at hold
      unfold holders at hold
      rw [hsame] at htotal
      simp only [Call.takes, decide_eq_true_eq] at hold
      show (w.upstreams k).active = total (held k) (setAt w.exchanges id _) + calls.countP (Call.takes k)
      omega
    named := fun i k ⟨c, hc, hn⟩ => by
      obtain ⟨m', hm', hkey'⟩ := h.named i k ⟨c, by rw [hcalls]; exact .tail _ hc, hn⟩
      by_cases hi : i = id
      · subst hi
        rw [hm] at hm'
        cases hm'
        exact ⟨_, lookup_setAt_self hm _, hkey'⟩
      · rw [lookup_setAt_ne hi]
        exact ⟨m', hm', hkey'⟩
    queued := fun k x hx => by
      obtain ⟨m', hm', hkey'⟩ := h.queued k x hx
      by_cases hi : x.id = id
      · rw [hi, hm] at hm'
        cases hm'
        rw [hi]
        exact ⟨_, lookup_setAt_self hm _, hkey'⟩
      · rw [lookup_setAt_ne hi]
        exact ⟨m', hm', hkey'⟩
    once := fun i m' hm' => by
      by_cases hi : i = id
      · subst hi
        rw [lookup_setAt_self hm] at hm'
        cases hm'
        show calls.countP (Call.asks i) + (w.upstreams m.ex.poolKey).queue.countP (fun x => x.id = i) ≤ _
        omega
      · rw [lookup_setAt_ne hi] at hm'
        have hold := h.once i m' hm'
        unfold asked at hold
        rw [hcalls, List.countP_cons_of_neg (by simpa [Call.asks] using Ne.symm hi)] at hold
        exact hold
    bound := h.bound
    granted := h.granted
    waiting := h.waiting }

end Calls

/-- **A call keeps the accounts.** -/
theorem Inv.perform (h : Inv opts w) {env : Env} {reused : Bool} {t : World}
    (hcalm : env.cancelsInRelease = false) (hp : w.perform opts env reused = some t) : Inv opts t := by
  unfold World.perform at hp
  split at hp
  · cases hp
  next c calls hcalls =>
  cases c with
  | acquire id key =>
    dsimp only at hp
    split at hp
    · cases hp
      exact h.tail hcalls fun _ => rfl
    next m hm =>
    rcases acquire_cases (opts key) (w.upstreams key) ⟨id, m.priority⟩ with ⟨hfree, heq⟩ | ⟨hfull, heq⟩ | heq
    · rw [heq] at hp
      cases hp
      exact h.acquire_granted hcalls hfree
    · rw [heq] at hp
      cases hp
      exact h.acquire_queued hcalls hfull
    · rw [heq] at hp
      cases hp
      have hmoves : Exchange.Moves (m.ex.Orderly (env, .refused)) env m.ex m.ex.onQueueRefused.2 m.ex.onQueueRefused.1 :=
        Exchange.step_moves (h.decoding id m hm) nofun rfl
      exact (h.tail hcalls fun _ => rfl).moves hcalm hmoves hm
  | release key =>
    dsimp only at hp
    rcases release_cases (h.active_pos hcalls) (h.bound key) with ⟨heq, hwaiting⟩ | ⟨x, queue, heq, hperm, hlimit⟩
    · rw [heq] at hp
      cases hp
      exact h.release_free hcalls hwaiting
    · rw [heq] at hp
      cases hp
      exact h.release_granted hcalls hperm hlimit
  | dequeue id key =>
    cases hp
    exact h.dequeued hcalls
  | slot id key =>
    obtain ⟨m, hm, hkey⟩ := h.named id key ⟨.slot id key, by rw [hcalls]; exact .head _, rfl, rfl⟩
    dsimp only at hp
    rw [hm] at hp
    cases hp
    have hcases : _ ∨ (_ ∧ Exchange.Moves True env _ _ _) := Exchange.onSlot_cases env m.ex reused
    unfold World.after
    rcases hcases with ⟨_, heq⟩ | ⟨hphase, hmoves⟩
    · rw [heq]
      rw [setAt_self h.nodup hm, hkey]
      exact h.slot_returned hcalls
    · have hafter := (h.slotted hcalls hm hkey hphase reused).moves hcalm hmoves (lookup_setAt_self hm _)
      unfold World.after at hafter
      rw [setAt_setAt] at hafter
      exact hafter

/-- An exchange is begun, under a number of its own. -/
theorem Inv.begin (h : Inv opts w) {id : Nat} (hid : id ∉ w.exchanges.map Prod.fst) (a : Asked) :
    Inv opts { w with exchanges := (id, ⟨a.exchange, a.priority⟩) :: w.exchanges,
                      calls := .acquire id a.exchange.poolKey :: w.calls } := by
  have hfresh : ∀ {i m}, w.exchanges.lookup i = some m → i ≠ id := by
    rintro i m hm rfl
    exact hid (List.mem_map_of_mem (mem_of_lookup hm))
  have hself : ((id, (⟨a.exchange, a.priority⟩ : Listed)) :: w.exchanges).lookup id = some ⟨a.exchange, a.priority⟩ := by
    rw [List.lookup_cons, beq_self_eq_true]
  have hne : ∀ {i}, i ≠ id →
      ((id, (⟨a.exchange, a.priority⟩ : Listed)) :: w.exchanges).lookup i = w.exchanges.lookup i := fun hi => by
    rw [List.lookup_cons, beq_false_of_ne hi]
  exact {
    nodup := List.nodup_cons.mpr ⟨hid, h.nodup⟩
    decoding := fun i m hm hd => by
      by_cases hi : i = id
      · subst hi
        rw [hself] at hm
        cases hm
        cases hd
      · rw [hne hi] at hm
        exact h.decoding i m hm hd
    active := fun key => by
      have hold := h.active key
      show (w.upstreams key).active = total (held key) ((id, ⟨a.exchange, a.priority⟩) :: w.exchanges) + _
      rw [total_cons, held_of_not key rfl, Nat.zero_add, List.countP_cons_of_neg Bool.false_ne_true]
      exact hold
    named := fun i key ⟨c, hc, hn⟩ => by
      rcases List.mem_cons.mp hc with rfl | hc
      · obtain ⟨rfl, rfl⟩ := hn
        exact ⟨_, hself, rfl⟩
      obtain ⟨m, hm, hkey⟩ := h.named i key ⟨c, hc, hn⟩
      rw [hne (hfresh hm)]
      exact ⟨m, hm, hkey⟩
    queued := fun key x hx => by
      obtain ⟨m, hm, hkey⟩ := h.queued key x hx
      rw [hne (hfresh hm)]
      exact ⟨m, hm, hkey⟩
    once := fun i m hm => by
      by_cases hi : i = id
      · subst hi
        rw [hself] at hm
        cases hm
        -- nothing has been said of the number so far
        have hcalls : w.calls.countP (Call.asks i) = 0 := List.countP_eq_zero.mpr fun c hc hasks => by
          obtain ⟨key, hn⟩ := Call.asks_iff.mp hasks
          obtain ⟨m, hm, _⟩ := h.named i key ⟨c, hc, hn⟩
          exact hfresh hm rfl
        have hqueue : (w.upstreams a.exchange.poolKey).queue.countP (fun x => x.id = i) = 0 :=
          List.countP_eq_zero.mpr fun x hx heq => by
            obtain ⟨m, hm, _⟩ := h.queued _ x hx
            exact hfresh hm (by simpa using heq)
        show (Call.acquire i a.exchange.poolKey :: w.calls).countP (Call.asks i) +
          (w.upstreams a.exchange.poolKey).queue.countP (fun x => x.id = i) ≤ 1
        exact Nat.le_of_eq (by rw [List.countP_cons_of_pos (by simp [Call.asks]), hcalls, hqueue])
      · rw [hne hi] at hm
        have hold := h.once i m hm
        unfold asked at hold ⊢
        rw [List.countP_cons_of_neg (by simpa [Call.asks] using Ne.symm hi)]
        exact hold
    bound := h.bound
    granted := h.granted
    waiting := h.waiting }

/-- An exchange that holds no slot is dropped, with nothing that refers to it. -/
theorem Inv.drop (h : Inv opts w) {id : Nat} {m : Listed} (hm : w.exchanges.lookup id = some m)
    (hfree : m.ex.phase.holds = false) (hun : w.unreferenced id m = true) :
    Inv opts { w with exchanges := dropAt w.exchanges id } := by
  unfold World.unreferenced at hun
  simp only [Bool.and_eq_true, Bool.not_eq_true'] at hun
  obtain ⟨⟨_, hcalls⟩, hqueue⟩ := hun
  have hlookup : ∀ {i m'}, (dropAt w.exchanges id).lookup i = some m' → w.exchanges.lookup i = some m' := by
    intro i m' hm'
    by_cases hi : i = id
    · rw [hi, lookup_dropAt_self] at hm'
      cases hm'
    · rwa [lookup_dropAt_ne hi] at hm'
  exact {
    nodup := keys_dropAt_nodup h.nodup id
    decoding := fun i m' hm' => h.decoding i m' (hlookup hm')
    active := fun key => by
      have hold := h.active key
      have htotal := total_dropAt (held key) h.nodup hm
      rw [held_of_not key hfree] at htotal
      unfold holders at hold
      show (w.upstreams key).active = total (held key) (dropAt w.exchanges id) + w.calls.countP (Call.takes key)
      omega
    named := fun i key ⟨c, hc, hn⟩ => by
      have hi : i ≠ id := by
        rintro rfl
        exact List.any_eq_false.mp hcalls c hc (Call.asks_iff.mpr ⟨key, hn⟩)
      rw [lookup_dropAt_ne hi]
      exact h.named i key ⟨c, hc, hn⟩
    queued := fun key x hx => by
      obtain ⟨m', hm', hkey⟩ := h.queued key x hx
      have hi : x.id ≠ id := by
        intro heq
        rw [heq, hm] at hm'
        cases hm'
        rw [hkey] at hqueue
        exact List.any_eq_false.mp hqueue x hx (by simpa using heq)
      rw [lookup_dropAt_ne hi]
      exact ⟨m', hm', hkey⟩
    once := fun i m' hm' => h.once i m' (hlookup hm')
    bound := h.bound
    granted := h.granted
    waiting := h.waiting }

/-- **A step keeps the accounts.** -/
theorem Inv.step (h : Inv opts w) {l : World.Happening} (hl : DropsNone w l) {t : World}
    (hs : w.step opts l = some t) : Inv opts t := by
  unfold World.step at hs
  split at hs
  · next id a =>
    split at hs
    · cases hs
    next hid =>
    cases hs
    exact h.begin hid a
  · next id env ev =>
    split at hs
    · cases hs
    · cases hs
    next hslot _ =>
    split at hs
    · cases hs
    split at hs
    · cases hs
    next m hm =>
    obtain ⟨st, hst, rfl⟩ := Option.map_eq_some_iff.mp hs
    exact h.moves hl (Exchange.step_moves (h.decoding id m hm) (fun reused heq => hslot reused heq) hst) hm
  · exact h.perform hl hs
  · next id =>
    split at hs
    · cases hs
    next m hm =>
    split at hs
    · next hun =>
      cases hs
      exact h.drop hm (hl m hm) hun
    · cases hs

end Pool

/-! ## §7. Runs. -/

theorem empty_inv (opts : Bytes → Options) : Inv opts {} where
  nodup := List.nodup_nil
  decoding id m hm := by cases hm
  active _ := rfl
  named id key h := by
    obtain ⟨c, hc, _⟩ := h
    cases hc
  queued key x hx := by cases hx
  once id m hm := by cases hm
  bound _ := Nat.zero_le _
  granted g hg := by cases hg
  waiting key x hx := by cases hx

/-- **The slots of every upstream are conserved**, in every run in which no exchange that holds one
    is dropped, or cancelled while it gives one back to move on. -/
theorem slots_conserved (opts : Bytes → Options) {ls : List World.Happening} {w : World}
    (hrun : run (World.step opts) {} ls = some w) (hdrops : Meets (World.step opts) DropsNone {} ls) :
    Conserved opts w :=
  (run_invariant (fun _ _ _ h hl hs => h.step hl hs) (empty_inv opts) hrun hdrops).conserved

section Leak

/-- As much of the answer is pending as may be. -/
def backpressed : Env where
  health _ := {}
  now := 0
  opens := true
  tlsReady := true
  spillGot := none
  highWater := true
  eofEnds := false
  cancelsInRelease := false

def onlyOrigin : Bytes → Options := fun _ => ⟨8, 2, 16⟩

def streamed : Asked where
  group := [⟨false, bytes "a:80", bytes "a:80"⟩]
  getOrHead := true
  rest := .nothing
  bodySize := 0
  buffering := false
  first := some 0
  priority := false

/-- An answer that is streamed, up to where the exchange waits for its reader. -/
def untilFull : List World.Happening :=
  [.begin 1 streamed, .call backpressed false, .call backpressed false,
   .event 1 backpressed (.completed ⟨.connect, 1⟩ (.ok 0)), .event 1 backpressed (.completed ⟨.writeHead, 1⟩ (.ok 0)),
   .event 1 backpressed (.completed ⟨.read, 1⟩ (.ok 60)), .event 1 backpressed (.feedHead 60 true),
   .event 1 backpressed (.decodeEnd true)]

def oneEach : Bytes → Options := fun _ => ⟨1, 0, 16⟩

/-- A request that waits for the slot of the first of these origins gets it when the connect of the one before
    fails, which goes on to the second origin and is cancelled in the middle of its answer. -/
def handedOver : List World.Happening :=
  [.begin 1 { streamed with group := [⟨false, bytes "a:80", bytes "a:80"⟩, ⟨false, bytes "b:80", bytes "b:80"⟩] },
   .call backpressed false, .call backpressed false, .begin 2 streamed, .call backpressed false,
   .event 1 backpressed (.completed ⟨.connect, 1⟩ (.error .other)), .call backpressed false, .call backpressed false,
   .call backpressed false, .call backpressed true, .event 1 backpressed (.completed ⟨.writeHead, 2⟩ (.ok 0)),
   .event 1 backpressed .cancel, .call backpressed false,
   .event 1 backpressed (.completed ⟨.read, 2⟩ (.error .operationAborted)), .drop 1]

theorem slots_conserved_handedOver : ∃ w, run (World.step oneEach) {} handedOver = some w ∧
    Conserved oneEach w ∧ (w.upstreams (bytes "a:80")).active = 1 ∧ (w.upstreams (bytes "b:80")).active = 0 ∧
      w.granted.length = 3 := by
  refine ⟨_, rfl, @slots_conserved oneEach handedOver _ rfl ?_, rfl, rfl, rfl⟩
  refine ⟨trivial, rfl, rfl, trivial, rfl, rfl, rfl, rfl, rfl, rfl, rfl, rfl, rfl, rfl, ?_, trivial⟩
  intro m hm
  cases hm
  rfl

/-- The reader goes away, and the slot stays taken. -/
theorem dropped_reader_leaks : ¬ ∀ opts ls w, run (World.step opts) {} ls = some w → Conserved opts w := by
  intro h
  have hactive := (h onlyOrigin (untilFull ++ [.drop 1]) _ rfl).active rfl (bytes "a:80")
  cases hactive

end Leak

end Agensio.Upstream.Pool
