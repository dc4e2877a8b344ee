/-
  Agensio.Quic.Endpoint — the table of connection ids.

  Model of `Endpoint::add_cid`, `retire`, `unmap`, `map` and `dispatch`
  (`quic/udp.hpp`) with what a connection does to its own ids
  (`quic/connection.hpp`: the constructor, `on_handshake_complete`,
  RETIRE_CONNECTION_ID, `issue_cids`, `unregister`).  The table is a map from
  the first eight bytes of an id to a connection; a connection is a number,
  the order in which it was accepted.  What a datagram makes its connection
  do is a list of events, any list: those that touch the ids are run as the
  code runs them, the others only change the connection's state.

  Main results:
    * `ids_lead_home` — the same over every run, and what `dispatch` then does
      with a datagram addressed to such an id;
    * `shared_key_takes_over` — an id that shares its first eight bytes with
      a live connection's id takes its entry over.
-/
import Agensio.Quic.Link
import Agensio.Quic.PeerIds

namespace Agensio.Quic

/-! ## §1. Ids, connections and the table. -/

/-- A connection id is its bytes. -/
abbrev Cid := Bytes

def kOurCidLen : Nat := 8
def kMaxCidsIssued : Nat := 64

/-- `Cid::key`: the first eight bytes of the zero-filled array. -/
def Cid.key (cid : Cid) : Bytes := (cid ++ List.replicate kOurCidLen 0).take kOurCidLen

/-- What `random_bytes` gives for one id. -/
abbrev Random := Fin 7 → UInt8

/-- An id of ours: the worker's number, then seven random bytes. -/
def ourCid (worker : UInt8) (rnd : Random) : Cid := worker :: List.ofFn rnd

/-- The ids of a `QuicConnection`; `registered_` is what `our_cids()` and `owns` read. -/
structure ConnIds where
  state : State := .closed
  registered : List Cid := []
  ourCids : List (Nat × Cid) := []
  ourCidSeqNext : Nat := 1
  initialDcid : Cid := []

/-- A worker's endpoint: its table and the connections it accepted. -/
structure Endpoint where
  worker : UInt8 := 0
  table : Bytes → Option Nat := fun _ => none
  conns : Nat → ConnIds := fun _ => {}
  allocated : Nat := 0

/-- A long header, as far as `dispatch` reads it. -/
structure LongHeader where
  version : Nat := 1
  type : LongType := .initial
  dcid : Cid
  hasToken : Bool := false
  dcid_le : dcid.length ≤ kMaxCidLen

/-- A datagram by its first header; a short one has the id's length fixed. -/
inductive Datagram where
  | unparsable
  | long (h : LongHeader)
  | short (dcid : Cid) (hlen : dcid.length = kOurCidLen)

inductive RetryMode where
  | never | auto | always
  deriving DecidableEq

/-- What else decides whether an Initial is accepted, and the new connection's random bytes
    (`none`: the accept callback answers with no connection). -/
structure Gate where
  atCeiling : Bool := false
  tokenOpens : Bool := false
  retry : RetryMode := .never
  halfOpen : Nat := 0
  halfOpenBudget : Nat := 1024
  accepts : Option Random

namespace Endpoint

variable (ep : Endpoint)

def addCid (cid : Cid) (p : Nat) : Endpoint :=
  { ep with table := Function.update ep.table cid.key (some p) }

/-- Only the connection's own entry. -/
def unmap (cid : Cid) (p : Nat) : Endpoint :=
  if ep.table cid.key = some p then { ep with table := Function.update ep.table cid.key none } else ep

/-- `map`: never over another connection's id. -/
def map (known added : Cid) : Option Endpoint :=
  match ep.table known.key with
  | none => none
  | some p =>
    if (ep.table added.key).isSome then none
    else some { ep with table := Function.update ep.table added.key (some p) }

def setConn (p : Nat) (c : ConnIds) : Endpoint := { ep with conns := Function.update ep.conns p c }

/-- `retire`: every id it has is unmapped. -/
def retire (p : Nat) : Endpoint := (ep.conns p).registered.foldl (fun ep cid => ep.unmap cid p) ep

/-! ## §2. What a connection does to its ids. -/

/-- The loop of `issue_cids` with `n` ids still wanted. -/
def issueLoop (p : Nat) (rnd : Nat → Random) : Nat → Endpoint → Endpoint
  | 0, ep => ep
  | n + 1, ep =>
    let c := ep.conns p
    if c.ourCidSeqNext ≥ kMaxCidsIssued then ep
    else
      let cid := ourCid ep.worker (rnd c.ourCidSeqNext)
      match c.registered with
      | [] => ep
      | known :: _ =>
        match ep.map known cid with
        | none => ep
        | some ep =>
          issueLoop p rnd n (ep.setConn p { c with
            ourCidSeqNext := c.ourCidSeqNext + 1
            ourCids := c.ourCids ++ [(c.ourCidSeqNext, cid)]
            registered := c.registered ++ [cid] })

/-- `issue_cids`, with the peer's `active_connection_id_limit`. -/
def issueCids (p : Nat) (limit : Nat) (rnd : Nat → Random) : Endpoint :=
  issueLoop p rnd (min limit kMaxActiveCids - (ep.conns p).ourCids.length) ep

def unregister (p : Nat) (cid : Cid) : Endpoint :=
  let c := ep.conns p
  if cid ∈ c.registered then
    (ep.setConn p { c with registered := c.registered.erase cid }).unmap cid p
  else ep

/-- What one datagram, timer or call may do to a connection's ids and state. -/
inductive IdEvent where
  /-- `on_handshake_complete`. -/
  | handshakeComplete (limit : Nat) (rnd : Nat → Random)
  /-- RETIRE_CONNECTION_ID of `seq` in a packet that came to `currentDcid`. -/
  | retireConnectionId (seq : Nat) (currentDcid : Cid) (limit : Nat) (rnd : Nat → Random)
  /-- Closing, draining or closed. -/
  | leave (state : State)

def onHandshakeComplete (p : Nat) (limit : Nat) (rnd : Nat → Random) : Endpoint :=
  let c := ep.conns p
  let ep := ep.setConn p { c with state := .established }
  (ep.unregister p c.initialDcid).issueCids p limit rnd

def onRetireConnectionId (p : Nat) (seq : Nat) (currentDcid : Cid) (limit : Nat)
    (rnd : Nat → Random) : Endpoint :=
  let c := ep.conns p
  if seq ≥ c.ourCidSeqNext then ep.setConn p { c with state := .closing }
  else
    match c.ourCids.find? (·.1 = seq) with
    | none => ep  -- retired already: a retransmission
    | some (_, gone) =>
      if gone = currentDcid then ep.setConn p { c with state := .closing }
      else
        let ep := ep.setConn p { c with ourCids := c.ourCids.eraseP (·.1 = seq) }
        (ep.unregister p gone).issueCids p limit rnd

/-- Events come to a connection that reads packets, the last one to any that is not closed. -/
def event (p : Nat) : IdEvent → Endpoint
  | .handshakeComplete limit rnd =>
    if (ep.conns p).state = .handshaking then ep.onHandshakeComplete p limit rnd else ep
  | .retireConnectionId seq current limit rnd =>
    if (ep.conns p).state = .handshaking ∨ (ep.conns p).state = .established then
      ep.onRetireConnectionId p seq current limit rnd
    else ep
  | .leave state =>
    if (ep.conns p).state = .closed ∨ state = .handshaking ∨ state = .established then ep
    else ep.setConn p { ep.conns p with state := state }

def events (p : Nat) (evs : List IdEvent) : Endpoint := evs.foldl (fun ep e => ep.event p e) ep

/-! ## §3. Datagrams. -/

/-- The connection a datagram is given to, from the table alone. -/
def route : Datagram → Option Nat
  | .unparsable => none
  | .long h =>
    if h.version ≠ 1 then none
    else if kOurCidLen ≤ h.dcid.length then
      (ep.table h.dcid.key).filter fun p => h.dcid ∈ (ep.conns p).registered
    else none
  | .short dcid _ => (ep.table dcid.key).filter fun p => dcid ∈ (ep.conns p).registered

/-- The rest of the accept path's tests: the random bytes when the callback is asked and
    answers with a connection. -/
def admits (len : Nat) (h : LongHeader) (gate : Gate) : Option Random :=
  if h.version ≠ 1 || h.type ≠ .initial || len < kMinInitialDatagram || h.dcid.length < 8 then none
  else if gate.atCeiling then none
  else if h.hasToken && !gate.tokenOpens then none
  else if !h.hasToken && (gate.retry = .always ||
      (gate.retry = .auto && gate.halfOpen ≥ gate.halfOpenBudget / 2)) then none
  else if gate.halfOpen ≥ gate.halfOpenBudget then none
  else gate.accepts

/-- The accept callback: the connection with its two ids, each added. -/
def accept (dcid : Cid) (rnd : Random) : Endpoint :=
  let ours := ourCid ep.worker rnd
  let p := ep.allocated
  let c : ConnIds :=
    { state := .handshaking, registered := [ours, dcid], ourCids := [(0, ours)], initialDcid := dcid }
  let ep := { ep.setConn p c with allocated := p + 1 }
  c.registered.foldl (fun ep cid => ep.addCid cid p) ep

/-- The ids a datagram makes a new connection with, if it makes one. -/
def brings (len : Nat) (pkt : Datagram) (gate : Gate) : Option (Cid × Random) :=
  if len < 1 + kOurCidLen then none
  else
    match pkt with
    | .long h =>
      match ep.route (.long h) with
      | some _ => none
      | none => (admits len h gate).map fun rnd => (h.dcid, rnd)
    | _ => none

/-- `dispatch`, up to `receive`: the connection the datagram goes to. -/
def dispatch (len : Nat) (pkt : Datagram) (gate : Gate) : Endpoint × Option Nat :=
  if len < 1 + kOurCidLen then (ep, none)
  else
    match ep.route pkt with
    | some p => (ep, some p)
    | none =>
      match ep.brings len pkt gate with
      | none => (ep, none)
      | some (dcid, rnd) => (ep.accept dcid rnd, some ep.allocated)

/-- What may happen to an endpoint. -/
inductive Label where
  /-- A datagram, and what its packets make the connection do. -/
  | datagram (len : Nat) (pkt : Datagram) (gate : Gate) (evs : List IdEvent)
  /-- A timer or a call of the application. -/
  | wake (p : Nat) (evs : List IdEvent)
  /-- The end of a wake-up: a connection that is closed is retired. -/
  | settle (p : Nat)

def step : Label → Option Endpoint
  | .datagram len pkt gate evs =>
    match ep.dispatch len pkt gate with
    | (ep, none) => some ep
    | (ep, some p) =>
      if (ep.conns p).state = .closed ∨ (ep.conns p).state = .draining then some ep
      else some (ep.events p evs)
  | .wake p evs => some (ep.events p evs)
  | .settle p => some (if (ep.conns p).state = .closed then ep.retire p else ep)

/-! ## §4. Every id leads to its connection. -/

/-- The connection is accepted and not closed. -/
def isOpen (ep : Endpoint) (p : Nat) : Prop := (ep.conns p).state ≠ .closed

instance (ep : Endpoint) (p : Nat) : Decidable (ep.isOpen p) :=
  inferInstanceAs (Decidable ((ep.conns p).state ≠ .closed))

/-- What every run keeps. -/
structure Inv (ep : Endpoint) : Prop where
  leads : ∀ p, ep.isOpen p → ∀ cid ∈ (ep.conns p).registered, ep.table cid.key = some p
  keys : ∀ p, ep.isOpen p → ((ep.conns p).registered.map Cid.key).Nodup
  long : ∀ p, ep.isOpen p → ∀ cid ∈ (ep.conns p).registered, kOurCidLen ≤ cid.length
  /-- Only what was accepted is open. -/
  accepted : ∀ p, ep.isOpen p → p < ep.allocated

/-- No open connection owns an id with this key. -/
def Free (ep : Endpoint) (k : Bytes) : Prop :=
  ∀ p, ep.isOpen p → ∀ cid ∈ (ep.conns p).registered, cid.key ≠ k

/-- A new connection's two ids have keys of their own, and none that is in use. -/
def Fresh (ep : Endpoint) : Label → Prop
  | .datagram len pkt gate _ => ∀ dcid rnd, ep.brings len pkt gate = some (dcid, rnd) →
      (ourCid ep.worker rnd).key ≠ dcid.key ∧ ep.Free (ourCid ep.worker rnd).key ∧ ep.Free dcid.key
  | _ => True

/-- `Free` and `Fresh` as tests over what was accepted. -/
def freeB (ep : Endpoint) (k : Bytes) : Bool :=
  (List.range ep.allocated).all fun p =>
    (ep.conns p).state = .closed || (ep.conns p).registered.all fun cid => cid.key ≠ k

def freshB (ep : Endpoint) : Label → Bool
  | .datagram len pkt gate _ =>
    match ep.brings len pkt gate with
    | none => true
    | some (dcid, rnd) =>
      (ourCid ep.worker rnd).key ≠ dcid.key && ep.freeB (ourCid ep.worker rnd).key && ep.freeB dcid.key
  | _ => true

variable {ep ep' : Endpoint} {p : Nat} {cid : Cid}

theorem ourCid_length (worker : UInt8) (rnd : Random) : (ourCid worker rnd).length = kOurCidLen := by
  unfold ourCid
  rw [List.length_cons, List.length_ofFn]
  rfl

variable {k : Bytes}

theorem Inv.free_of_none (h : ep.Inv) (hk : ep.table k = none) : ep.Free k := by
  intro p hp cid hc he
  have := h.leads p hp cid hc
  rw [he, hk] at this
  cases this

theorem setConn_self (c : ConnIds) : (ep.setConn p c).conns p = c := Function.update_self _ _ _

theorem setConn_of_ne {q : Nat} (hq : q ≠ p) (c : ConnIds) : (ep.setConn p c).conns q = ep.conns q :=
  Function.update_of_ne hq _ _

/-- A change that opens nothing and adds no id. -/
theorem Inv.setConn (h : ep.Inv) {c : ConnIds} (hr : c.registered.Sublist (ep.conns p).registered)
    (hs : c.state ≠ .closed → ep.isOpen p) : (ep.setConn p c).Inv := by
  have hreg : ∀ q, ((ep.setConn p c).conns q).registered.Sublist (ep.conns q).registered := by
    intro q
    by_cases hq : q = p
    · subst hq
      rw [setConn_self]
      exact hr
    · rw [setConn_of_ne hq]
  have hopen : ∀ q, (ep.setConn p c).isOpen q → ep.isOpen q := by
    intro q hq
    unfold isOpen at hq
    by_cases hqp : q = p
    · subst hqp
      rw [setConn_self] at hq
      exact hs hq
    · rw [setConn_of_ne hqp] at hq
      exact hq
  refine ⟨fun q hq cid hc => ?_, fun q hq => ?_, fun q hq cid hc => ?_, fun q hq => ?_⟩
  · exact h.leads q (hopen q hq) cid ((hreg q).subset hc)
  · exact ((hreg q).map _).nodup (h.keys q (hopen q hq))
  · exact h.long q (hopen q hq) cid ((hreg q).subset hc)
  · exact h.accepted q (hopen q hq)

/-- An entry that no open connection needs may be removed. -/
theorem Inv.erase (h : ep.Inv) (hk : ep.Free k) :
    { ep with table := Function.update ep.table k none }.Inv := by
  refine ⟨fun q hq cid hc => ?_, h.keys, h.long, h.accepted⟩
  show Function.update ep.table k none cid.key = some q
  rw [Function.update_of_ne (hk q hq cid hc)]
  exact h.leads q hq cid hc

/-- `unmap` of an id its connection does not own any more. -/
theorem Inv.unmap (h : ep.Inv) (hp : ep.isOpen p → ∀ c ∈ (ep.conns p).registered, c.key ≠ cid.key) :
    (ep.unmap cid p).Inv := by
  unfold Endpoint.unmap
  split
  · rename_i ht
    apply h.erase
    intro q hq c hc he
    by_cases hqp : q = p
    · subst hqp
      exact hp hq c hc he
    have := h.leads q hq c hc
    rw [he, ht] at this
    exact hqp (Option.some.inj this).symm
  · exact h

theorem unmap_conns (cid : Cid) (p : Nat) : (ep.unmap cid p).conns = ep.conns := by
  unfold Endpoint.unmap
  split <;> rfl

/-- **A retired connection takes nothing with it.** -/
theorem Inv.retire (h : ep.Inv) (hp : ¬ ep.isOpen p) : (ep.retire p).Inv := by
  unfold Endpoint.retire
  -- on its ids: each `unmap` finds the connection closed
  generalize (ep.conns p).registered = cids
  induction cids generalizing ep with
  | nil => exact h
  | cons cid cids ih =>
    rw [List.foldl_cons]
    apply ih (h.unmap fun ho => absurd ho hp)
    unfold isOpen at hp ⊢
    rw [unmap_conns]
    exact hp

/-- **An id given up.** -/
theorem Inv.unregister (h : ep.Inv) : (ep.unregister p cid).Inv := by
  unfold Endpoint.unregister
  dsimp only
  split
  · rename_i hmem
    have hinv : (ep.setConn p { ep.conns p with
        registered := (ep.conns p).registered.erase cid }).Inv :=
      h.setConn List.erase_sublist id
    apply hinv.unmap
    intro ho d hd
    unfold isOpen at ho
    rw [setConn_self] at ho hd
    -- what is left has other keys, since the keys were distinct
    have hnd := h.keys p ho
    have hperm := ((List.perm_cons_erase hmem).map Cid.key).nodup_iff.mp hnd
    rw [List.map_cons, List.nodup_cons] at hperm
    intro he
    exact hperm.1 (he ▸ List.mem_map_of_mem hd)
  · exact h

/-- **An id added by `map`**: under the connection its first id leads to, and over nothing. -/
theorem Inv.addId (h : ep.Inv) (ho : ep.isOpen p) (hnone : ep.table cid.key = none)
    (hlen : kOurCidLen ≤ cid.length) {c : ConnIds} (hr : c.registered = (ep.conns p).registered ++ [cid]) :
    ({ ep with table := Function.update ep.table cid.key (some p) }.setConn p c).Inv := by
  have hfree := h.free_of_none hnone
  have hother : ∀ q, q ≠ p →
      ({ ep with table := Function.update ep.table cid.key (some p) }.setConn p c).conns q =
        ep.conns q := fun q hq => Function.update_of_ne hq _ _
  refine ⟨fun q hq d hd => ?_, fun q hq => ?_, fun q hq d hd => ?_, fun q hq => ?_⟩
  · show Function.update ep.table cid.key (some p) d.key = some q
    by_cases hqp : q = p
    · subst hqp
      rw [setConn_self, hr] at hd
      rcases List.mem_append.mp hd with hd | hd
      · rw [Function.update_of_ne (hfree q ho d hd)]
        exact h.leads q ho d hd
      · rw [List.mem_singleton.mp hd, Function.update_self]
    · unfold isOpen at hq
      rw [hother q hqp] at hq hd
      rw [Function.update_of_ne (hfree q hq d hd)]
      exact h.leads q hq d hd
  · by_cases hqp : q = p
    · subst hqp
      rw [setConn_self, hr, List.map_append, List.nodup_append]
      refine ⟨h.keys q ho, List.nodup_singleton _, ?_⟩
      intro k hk k' hk' he
      obtain ⟨d, hd, rfl⟩ := List.mem_map.mp hk
      rw [List.map_singleton, List.mem_singleton] at hk'
      exact hfree q ho d hd (he.trans hk')
    · unfold isOpen at hq
      rw [hother q hqp] at hq ⊢
      exact h.keys q hq
  · by_cases hqp : q = p
    · subst hqp
      rw [setConn_self, hr] at hd
      rcases List.mem_append.mp hd with hd | hd
      · exact h.long q ho d hd
      rw [List.mem_singleton.mp hd]
      exact hlen
    · unfold isOpen at hq
      rw [hother q hqp] at hq hd
      exact h.long q hq d hd
  · by_cases hqp : q = p
    · exact hqp ▸ h.accepted p ho
    unfold isOpen at hq
    rw [hother q hqp] at hq
    exact h.accepted q hq

theorem Inv.issueLoop {rnd : Nat → Random} (n : Nat) (h : ep.Inv) (ho : ep.isOpen p) :
    (issueLoop p rnd n ep).Inv := by
  -- on the ids still wanted
  induction n generalizing ep with
  | zero => exact h
  | succ n ih =>
    unfold Endpoint.issueLoop
    dsimp only
    split
    · exact h
    split
    · exact h
    rename_i known rest hreg
    split
    · exact h
    rename_i ep₁ hmap
    unfold Endpoint.map at hmap
    rw [h.leads p ho known (by rw [hreg]; exact .head _)] at hmap
    dsimp only at hmap
    split at hmap
    · cases hmap
    rename_i hnone
    cases hmap
    rw [Bool.not_eq_true, Option.isSome_eq_false_iff, Option.isNone_iff_eq_none] at hnone
    apply ih
    · exact h.addId ho hnone (Nat.le_of_eq (ourCid_length _ _).symm) (by rw [hreg])
    · unfold isOpen
      rw [setConn_self]
      exact ho

theorem unregister_state (p : Nat) (cid : Cid) :
    ((ep.unregister p cid).conns p).state = (ep.conns p).state := by
  unfold Endpoint.unregister
  dsimp only
  split
  · rw [unmap_conns, setConn_self]
  · rfl

/-- **One event of a connection.** -/
theorem Inv.event (h : ep.Inv) (e : IdEvent) : (ep.event p e).Inv := by
  cases e with
  | handshakeComplete limit rnd =>
    unfold Endpoint.event
    dsimp only
    split
    · rename_i hs
      have ho : ep.isOpen p := by unfold isOpen; rw [hs]; exact nofun
      unfold onHandshakeComplete issueCids
      apply Inv.issueLoop
      · apply Inv.unregister
        exact h.setConn (List.Sublist.refl _) fun _ => ho
      · unfold isOpen
        rw [unregister_state, setConn_self]
        exact nofun
    · exact h
  | retireConnectionId seq current limit rnd =>
    unfold Endpoint.event
    dsimp only
    split
    · rename_i hs
      have ho : ep.isOpen p := by
        unfold isOpen
        rcases hs with hs | hs <;> rw [hs] <;> exact nofun
      unfold onRetireConnectionId
      dsimp only
      split
      · exact h.setConn (List.Sublist.refl _) fun _ => ho
      split
      · exact h
      split
      · exact h.setConn (List.Sublist.refl _) fun _ => ho
      unfold issueCids
      apply Inv.issueLoop
      · apply Inv.unregister
        exact h.setConn (List.Sublist.refl _) fun _ => ho
      · unfold isOpen
        rw [unregister_state, setConn_self]
        exact ho
    · exact h
  | leave state =>
    unfold Endpoint.event
    dsimp only
    split
    · exact h
    rename_i hs
    exact h.setConn (List.Sublist.refl _) fun _ hc => hs (.inl hc)

theorem Inv.events (h : ep.Inv) (evs : List IdEvent) : (ep.events p evs).Inv := by
  unfold Endpoint.events
  induction evs generalizing ep with
  | nil => exact h
  | cons e evs ih =>
    rw [List.foldl_cons]
    exact ih (h.event e)

/-- **An accepted connection**, when its keys are its own. -/
theorem Inv.accept {dcid : Cid} {rnd : Random} (h : ep.Inv) (hlen : kOurCidLen ≤ dcid.length)
    (hne : (ourCid ep.worker rnd).key ≠ dcid.key) (hours : ep.Free (ourCid ep.worker rnd).key)
    (hdcid : ep.Free dcid.key) : (ep.accept dcid rnd).Inv := by
  have hself : (ep.accept dcid rnd).conns ep.allocated = _ := Function.update_self _ _ _
  have hother : ∀ q, q ≠ ep.allocated → (ep.accept dcid rnd).conns q = ep.conns q := fun q hq =>
    Function.update_of_ne hq _ _
  have htable : (ep.accept dcid rnd).table = Function.update (Function.update ep.table
      (ourCid ep.worker rnd).key (some ep.allocated)) dcid.key (some ep.allocated) := rfl
  refine ⟨fun q hq d hd => ?_, fun q hq => ?_, fun q hq d hd => ?_, fun q hq => ?_⟩
  · rw [htable]
    by_cases hqp : q = ep.allocated
    · rw [hqp, hself] at hd
      rcases List.mem_cons.mp hd with rfl | hd
      · rw [Function.update_of_ne hne, Function.update_self, hqp]
      · rw [List.mem_singleton.mp hd, Function.update_self, hqp]
    · unfold isOpen at hq
      rw [hother q hqp] at hq hd
      rw [Function.update_of_ne (hdcid q hq d hd), Function.update_of_ne (hours q hq d hd)]
      exact h.leads q hq d hd
  · by_cases hqp : q = ep.allocated
    · rw [hqp, hself]
      simpa using hne
    · unfold isOpen at hq
      rw [hother q hqp] at hq ⊢
      exact h.keys q hq
  · by_cases hqp : q = ep.allocated
    · rw [hqp, hself] at hd
      rcases List.mem_cons.mp hd with rfl | hd
      · exact (Nat.le_of_eq (ourCid_length _ _).symm)
      rw [List.mem_singleton.mp hd]
      exact hlen
    · unfold isOpen at hq
      rw [hother q hqp] at hq hd
      exact h.long q hq d hd
  · show q < ep.allocated + 1
    by_cases hqp : q = ep.allocated
    · omega
    unfold isOpen at hq
    rw [hother q hqp] at hq
    exact Nat.lt_succ_of_lt (h.accepted q hq)

theorem brings_long {len : Nat} {pkt : Datagram} {gate : Gate} {dcid : Cid} {rnd : Random}
    (h : ep.brings len pkt gate = some (dcid, rnd)) : kOurCidLen ≤ dcid.length := by
  unfold brings at h
  split at h
  · cases h
  split at h
  · rename_i hd
    split at h
    · cases h
    obtain ⟨r, hr, he⟩ := Option.map_eq_some_iff.mp h
    cases he
    unfold admits at hr
    split at hr
    · cases hr
    rename_i hno
    simp only [Bool.or_eq_true, decide_eq_true_eq, not_or] at hno
    exact Nat.not_lt.mp hno.2
  · cases h

/-- **One step**, its new connection's keys being its own. -/
theorem step_inv {l : Label} (h : ep.Inv) (hf : ep.Fresh l) (hs : ep.step l = some ep') : ep'.Inv := by
  cases l with
  | datagram len pkt gate evs =>
    have hd : (ep.dispatch len pkt gate).1.Inv := by
      unfold dispatch
      split
      · exact h
      split
      · exact h
      split
      · exact h
      rename_i dcid rnd hb
      obtain ⟨h₁, h₂, h₃⟩ := hf dcid rnd hb
      exact h.accept (brings_long hb) h₁ h₂ h₃
    unfold step at hs
    dsimp only at hs
    split at hs
    · rename_i heq
      cases hs
      rw [heq] at hd
      exact hd
    · rename_i heq
      rw [heq] at hd
      split at hs
      · cases hs
        exact hd
      cases hs
      exact hd.events evs
  | wake p evs =>
    cases hs
    exact h.events evs
  | settle p =>
    cases hs
    split
    · rename_i hc
      exact h.retire fun ho => ho hc
    · exact h

theorem Inv.free_of_test (h : ep.Inv) (hk : ep.freeB k = true) : ep.Free k := by
  intro p ho cid hc
  have := List.all_eq_true.mp hk p (List.mem_range.mpr (h.accepted p ho))
  rw [Bool.or_eq_true, decide_eq_true_eq] at this
  exact of_decide_eq_true (List.all_eq_true.mp (this.resolve_left ho) cid hc)

/-- A run that passes the test meets the condition. -/
theorem Inv.meets_of_test {ls : List Label} (h : ep.Inv)
    (hm : Lib.Meets step (fun ep l => ep.freshB l = true) ep ls) : Lib.Meets step Fresh ep ls := by
  induction ls generalizing ep with
  | nil => trivial
  | cons l ls ih =>
    have hf : ep.Fresh l := by
      cases l with
      | datagram len pkt gate evs =>
        intro dcid rnd hb
        have ht := hm.1
        unfold freshB at ht
        dsimp only at ht
        rw [hb] at ht
        simp only [Bool.and_eq_true, decide_eq_true_eq] at ht
        exact ⟨ht.1.1, h.free_of_test ht.1.2, h.free_of_test ht.2⟩
      | wake p evs => trivial
      | settle p => trivial
    refine ⟨hf, ?_⟩
    have hrest := hm.2
    cases hs : ep.step l with
    | none => trivial
    | some t =>
      rw [hs] at hrest
      exact ih (step_inv h hf hs) hrest

/-- A worker's endpoint, without connections. -/
def initial (worker : UInt8) : Endpoint := { worker := worker }

theorem initial_inv (worker : UInt8) : (initial worker).Inv :=
  ⟨fun _ ho => absurd rfl ho, fun _ ho => absurd rfl ho, fun _ ho => absurd rfl ho,
    fun _ ho => absurd rfl ho⟩

/-- A datagram addressed to `cid`: a long header of this version, or a short one. -/
def AddressedTo (cid : Cid) : Datagram → Prop
  | .unparsable => False
  | .long h => h.version = 1 ∧ h.dcid = cid
  | .short dcid _ => dcid = cid

/-- **In every run whose new connections bring keys of their own, every id an open connection
    owns leads to it**: the table has it, and `dispatch` gives it what is addressed to it. -/
theorem ids_lead_home {worker : UInt8} {ls : List Label}
    (hrun : Lib.run step (initial worker) ls = some ep) (hok : Lib.Meets step Fresh (initial worker) ls)
    (ho : ep.isOpen p) (hc : cid ∈ (ep.conns p).registered) : ep.table cid.key = some p ∧
      ∀ len pkt gate, 1 + kOurCidLen ≤ len → AddressedTo cid pkt →
        ep.dispatch len pkt gate = (ep, some p) := by
  have hinv : ep.Inv := Lib.run_invariant (fun _ _ _ h hf hs => step_inv h hf hs)
    (initial_inv worker) hrun hok
  have ht := hinv.leads p ho cid hc
  refine ⟨ht, fun len pkt gate hlen hto => ?_⟩
  have hroute : ep.route pkt = some p := by
    cases pkt with
    | unparsable => exact hto.elim
    | long h =>
      obtain ⟨hv, hd⟩ := hto
      unfold route
      dsimp only
      rw [if_neg (not_not.mpr hv), hd, if_pos (hinv.long p ho cid hc), ht]
      exact Option.filter_eq_some_iff.mpr ⟨rfl, decide_eq_true hc⟩
    | short dcid hlen =>
      unfold route
      dsimp only
      rw [show dcid = cid from hto, ht]
      exact Option.filter_eq_some_iff.mpr ⟨rfl, decide_eq_true hc⟩
  unfold dispatch
  rw [if_neg (by omega), hroute]

/-- A client's first Initial, under an id of its choice. -/
def firstInitial : Datagram :=
  .long { dcid := [9, 9, 9, 9, 9, 9, 9, 9], dcid_le := by decide }

/-- An Initial to the id the first connection took, with a byte behind it. -/
def copiedInitial : Datagram :=
  .long { dcid := [0, 1, 1, 1, 1, 1, 1, 1, 7], dcid_le := by decide }

/-- Two connections, the second under an id that begins with the first one's. -/
def copiedRun : List Label :=
  [.datagram 1200 firstInitial { accepts := some fun _ => 1 } [],
   .datagram 1200 copiedInitial { accepts := some fun _ => 2 } []]

/-- Two connections under ids of their own; the first completes its handshake. -/
def apartRun : List Label :=
  [.datagram 1200 firstInitial { accepts := some fun _ => 1 } [],
   .datagram 1200 (.long { dcid := [8, 8, 8, 8, 8, 8, 8, 8, 7], dcid_le := by decide })
     { accepts := some fun _ => 2 } [],
   .datagram 1200 firstInitial { accepts := none } [.handshakeComplete 2 fun n _ => UInt8.ofNat (n + 2)]]

/-- **Otherwise an id may stop leading to its connection**: the second connection has the
    entry of the first one's id, and what is addressed to it is for nobody. -/
theorem shared_key_takes_over : ¬ ∀ ls ep, Lib.run step (initial 0) ls = some ep → ∀ p, ep.isOpen p →
      ∀ cid ∈ (ep.conns p).registered, ep.table cid.key = some p := by
  intro h
  have hopen : ∃ ep, Lib.run step (initial 0) copiedRun = some ep ∧ ep.isOpen 0 ∧
      [0, 1, 1, 1, 1, 1, 1, 1] ∈ (ep.conns 0).registered ∧
      ep.table (Cid.key [0, 1, 1, 1, 1, 1, 1, 1]) = some 1 :=
    ⟨_, rfl, by decide +kernel, by decide +kernel, by decide +kernel⟩
  obtain ⟨ep, hrun, ho, hc, ht⟩ := hopen
  have := h copiedRun ep hrun 0 ho _ hc
  rw [ht] at this
  cases this

/-- Two connections apart, the first established with a second id of its own. -/
theorem ids_lead_home_apart : ∃ ep, Lib.run step (initial 0) apartRun = some ep ∧
      ep.table (Cid.key [0, 3, 3, 3, 3, 3, 3, 3]) = some 0 :=
  have hm : Lib.Meets step Fresh (initial 0) apartRun :=
    (initial_inv 0).meets_of_test (by decide +kernel)
  ⟨_, rfl, (@ids_lead_home _ 0 [0, 3, 3, 3, 3, 3, 3, 3] 0 apartRun rfl hm (by decide +kernel)
    (by decide +kernel)).1⟩

end Endpoint

end Agensio.Quic
