/-
  Agensio.Quic.View — what the connection's invariants look at.

  The invariants of the ready list, of the connection's credit and of
  the stream windows read a few fields each.  `Conn.view` is the record
  of all of them; an operation that keeps the view keeps every such
  invariant, and this module says ONCE which operations do.

  The operations of the ready list change only links and flags
  (`LinkOnly`): they keep whatever does not read those.
-/
import Agensio.Quic.Walk

namespace Agensio.Quic

/-! ## §1. The view. -/

structure StreamView where
  isOpen : Bool
  id : Nat
  ready : Bool
  nextReady : Option Ptr
  highest : Nat
  consumed : Nat
  maxRecv : Nat

def QuicStream.view (s : QuicStream) : StreamView where
  isOpen := s.isOpen
  id := s.id
  ready := s.ready
  nextReady := s.nextReady
  highest := s.highest
  consumed := s.consumed
  maxRecv := s.maxRecv

structure View where
  limits : Limits
  dataReceived : Nat
  dataConsumed : Nat
  ourMaxData : Nat
  readyHead : Option Ptr
  readyTail : Option Ptr
  streams : Ptr → StreamView
  active : List Ptr
  pool : List Ptr
  allocated : Nat

namespace Conn

def view (c : Conn) : View where
  limits := c.limits
  dataReceived := c.dataReceived
  dataConsumed := c.dataConsumed
  ourMaxData := c.ourMaxData
  readyHead := c.readyHead
  readyTail := c.readyTail
  streams := fun p => (c.streams p).view
  active := c.active
  pool := c.pool
  allocated := c.allocated

@[simp] theorem streams_modify_self (c : Conn) (p : Ptr) (f : QuicStream → QuicStream) :
    (c.modify p f).streams p = f (c.streams p) := by
  unfold modify
  exact Function.update_self ..

variable {p : Ptr} {c c' a b k : Conn} {id : Nat}

theorem streams_modify_of_ne (c : Conn) (f : QuicStream → QuicStream) {q : Ptr} (h : q ≠ p) :
    (c.modify p f).streams q = c.streams q := by
  unfold modify
  exact Function.update_of_ne h ..

/-- A projection that the change of one stream keeps is kept everywhere. -/
theorem proj_modify {β : Type} (g : QuicStream → β) (c : Conn) (p q : Ptr)
    (f : QuicStream → QuicStream) (h : g (f (c.streams p)) = g (c.streams p)) :
    g ((c.modify p f).streams q) = g (c.streams q) := by
  by_cases hq : q = p
  · subst hq
    rw [streams_modify_self]
    exact h
  · rw [streams_modify_of_ne c f hq]

theorem view_modify (c : Conn) (p : Ptr) (f : QuicStream → QuicStream)
    (h : (f (c.streams p)).view = (c.streams p).view) : (c.modify p f).view = c.view := by
  have hs : (fun q => ((c.modify p f).streams q).view) = fun q => (c.streams q).view := by
    funext q
    exact proj_modify QuicStream.view c p q f h
  unfold view
  rw [hs]
  rfl

theorem active_of_view (h : c'.view = c.view) : c'.active = c.active :=
  congrArg View.active h

theorem pool_of_view (h : c'.view = c.view) : c'.pool = c.pool :=
  congrArg View.pool h

theorem allocated_of_view (h : c'.view = c.view) : c'.allocated = c.allocated :=
  congrArg View.allocated h

theorem stream_of_view (h : c'.view = c.view) (p : Ptr) : (c'.streams p).view = (c.streams p).view :=
  congrFun (congrArg View.streams h) p

theorem isOpen_of_view (h : c'.view = c.view) (p : Ptr) : (c'.streams p).isOpen = (c.streams p).isOpen :=
  congrArg StreamView.isOpen (stream_of_view h p)

/-! ## §2. The history of the stream ids. -/

/-- How many ids of a kind were opened, as far as the highest one tells. -/
def openedCount (c : Conn) (bidi : Bool) : Nat := if bidi then c.openedBidi else c.openedUni

/-- The closed bitmap of a kind. -/
def closedMap (c : Conn) (bidi : Bool) : BitVec kClosedWindow :=
  if bidi then c.closedMapBidi else c.closedMapUni

/-- `knownClosed` reads the count and the bitmap. -/
theorem knownClosed_iff (c : Conn) (bidi : Bool) (index : Nat) :
    c.knownClosed bidi index = true ↔ index < c.openedCount bidi ∧
      (c.openedCount bidi - 1 - index ≥ kClosedWindow ∨
        (c.closedMap bidi).getLsbD (c.openedCount bidi - 1 - index) = true) := by
  show (decide _ && (decide _ || _)) = true ↔ _
  rw [Bool.and_eq_true, Bool.or_eq_true, decide_eq_true_eq, decide_eq_true_eq]
  rfl

/-- What was opened stays opened; an id known as closed stays known. -/
structure Grows (c c' : Conn) : Prop where
  opened : ∀ bidi, c.openedCount bidi ≤ c'.openedCount bidi
  closed : ∀ bidi index, c.knownClosed bidi index = true → c'.knownClosed bidi index = true

theorem Grows.refl (c : Conn) : Grows c c := ⟨fun _ => Nat.le_refl _, fun _ _ h => h⟩

theorem Grows.trans (h : Grows a b) (h' : Grows b c) : Grows a c :=
  ⟨fun bidi => Nat.le_trans (h.opened bidi) (h'.opened bidi),
    fun bidi index hk => h'.closed bidi index (h.closed bidi index hk)⟩

/-- The counts and the bitmaps are as before. -/
theorem Grows.of_eq (ho : ∀ bidi, c'.openedCount bidi = c.openedCount bidi)
    (hm : ∀ bidi, c'.closedMap bidi = c.closedMap bidi) : Grows c c' := by
  refine ⟨fun bidi => Nat.le_of_eq (ho bidi).symm, fun bidi index hk => ?_⟩
  rw [knownClosed_iff] at hk ⊢
  rw [ho, hm]
  exact hk

theorem Grows.modify (c : Conn) (p : Ptr) (f : QuicStream → QuicStream) : Grows c (c.modify p f) :=
  Grows.of_eq (fun _ => rfl) fun _ => rfl

theorem Grows.setActive (c : Conn) (ps : List Ptr) : Grows c (c.setActive ps) :=
  Grows.of_eq (fun _ => rfl) fun _ => rfl

theorem Grows.setPool (c : Conn) (ps : List Ptr) : Grows c (c.setPool ps) :=
  Grows.of_eq (fun _ => rfl) fun _ => rfl

theorem Grows.setAllocated (c : Conn) (n : Nat) : Grows c (c.setAllocated n) :=
  Grows.of_eq (fun _ => rfl) fun _ => rfl

theorem Grows.setCredit (c : Conn) (ps : List Ptr) : Grows c (c.setCredit ps) :=
  Grows.of_eq (fun _ => rfl) fun _ => rfl

@[simp] theorem credit_modify (c : Conn) (p : Ptr) (f : QuicStream → QuicStream) :
    (c.modify p f).credit = c.credit := rfl

@[simp] theorem credit_setActive (c : Conn) (ps : List Ptr) : (c.setActive ps).credit = c.credit := rfl

@[simp] theorem credit_setPool (c : Conn) (ps : List Ptr) : (c.setPool ps).credit = c.credit := rfl

@[simp] theorem credit_setAllocated (c : Conn) (n : Nat) : (c.setAllocated n).credit = c.credit := rfl

/-- The bitmap of a kind moves with its count. -/
theorem grows_of_shift (kind : Bool) {index : Nat}
    (hlt : c.openedCount kind < index + 1) (ho : c'.openedCount kind = index + 1)
    (hm : c'.closedMap kind = if index + 1 - c.openedCount kind ≥ kClosedWindow then 0
      else c.closedMap kind <<< (index + 1 - c.openedCount kind))
    (ho' : ∀ bidi, bidi ≠ kind → c'.openedCount bidi = c.openedCount bidi)
    (hm' : ∀ bidi, bidi ≠ kind → c'.closedMap bidi = c.closedMap bidi) : Grows c c' := by
  refine ⟨fun bidi => ?_, fun bidi i hk => ?_⟩
  · by_cases hb : bidi = kind
    · rw [hb, ho]
      omega
    · exact Nat.le_of_eq (ho' bidi hb).symm
  · rw [knownClosed_iff] at hk ⊢
    by_cases hb : bidi = kind
    · rw [hb] at hk ⊢
      obtain ⟨hi, hk⟩ := hk
      refine ⟨by omega, ?_⟩
      rw [ho, hm]
      by_cases hfar : index + 1 - 1 - i ≥ kClosedWindow
      · exact .inl hfar
      refine .inr ?_
      rw [if_neg (by omega), BitVec.getLsbD_shiftLeft]
      have hback : index + 1 - 1 - i - (index + 1 - c.openedCount kind) =
          c.openedCount kind - 1 - i := by omega
      rw [hback]
      have hbit := hk.resolve_left (by omega)
      simp only [hbit, Bool.and_true, Bool.and_eq_true, decide_eq_true_eq,
        Bool.not_eq_true', decide_eq_false_iff_not]
      omega
    · rw [ho' bidi hb, hm' bidi hb]
      exact hk

theorem noteOpened_grows (c : Conn) (bidi : Bool) (index : Nat) : Grows c (c.noteOpened bidi index) := by
  unfold noteOpened
  cases bidi with
  | true =>
    rw [if_pos rfl]
    split
    · next h =>
      refine grows_of_shift true h rfl rfl ?_ ?_ <;> intro bidi hb <;>
        rw [Bool.eq_false_iff.mpr hb] <;> rfl
    · exact Grows.refl c
  | false =>
    rw [if_neg Bool.false_ne_true]
    split
    · next h =>
      refine grows_of_shift false h rfl rfl ?_ ?_ <;> intro bidi hb <;>
        rw [Bool.ne_false_iff.mp hb] <;> rfl
    · exact Grows.refl c

theorem noteOpened_opened (c : Conn) (bidi : Bool) (index : Nat) :
    index < (c.noteOpened bidi index).openedCount bidi := by
  unfold noteOpened
  cases bidi with
  | true =>
    rw [if_pos rfl]
    split
    · exact Nat.lt_succ_self index
    · next h => exact Nat.lt_of_not_le fun hle => h (Nat.lt_succ_of_le hle)
  | false =>
    rw [if_neg Bool.false_ne_true]
    split
    · exact Nat.lt_succ_self index
    · next h => exact Nat.lt_of_not_le fun hle => h (Nat.lt_succ_of_le hle)

/-- The bitmap of the kind of `id` with the bit of `id` set. -/
def markedMap (c : Conn) (id : Nat) : BitVec kClosedWindow :=
  let opened := c.openedCount (streamIsBidi id)
  if id / 4 < opened ∧ opened - 1 - id / 4 < kClosedWindow then
    c.closedMap (streamIsBidi id) ||| BitVec.twoPow kClosedWindow (opened - 1 - id / 4)
  else c.closedMap (streamIsBidi id)

theorem countClosed_books (c : Conn) (id : Nat) :
    (∀ bidi, (c.countClosed id).openedCount bidi = c.openedCount bidi) ∧
    (c.countClosed id).closedMap (streamIsBidi id) = c.markedMap id ∧
    ∀ bidi, bidi ≠ streamIsBidi id → (c.countClosed id).closedMap bidi = c.closedMap bidi := by
  unfold countClosed markedMap closedMap openedCount
  cases hb : streamIsBidi id with
  | true =>
    rw [if_pos rfl]
    refine ⟨fun _ => rfl, rfl, ?_⟩
    intro bidi hne
    rw [Bool.eq_false_iff.mpr hne]
    rfl
  | false =>
    rw [if_neg Bool.false_ne_true]
    refine ⟨fun _ => rfl, rfl, ?_⟩
    intro bidi hne
    rw [Bool.ne_false_iff.mp hne]
    rfl

theorem markedMap_bit (c : Conn) (id : Nat) {i : Nat}
    (h : (c.closedMap (streamIsBidi id)).getLsbD i = true) : (c.markedMap id).getLsbD i = true := by
  unfold markedMap
  dsimp only
  split
  · rw [BitVec.getLsbD_or, h, Bool.true_or]
  · exact h

theorem countClosed_grows (c : Conn) (id : Nat) : Grows c (c.countClosed id) := by
  obtain ⟨ho, hm, hm'⟩ := countClosed_books c id
  refine ⟨fun bidi => Nat.le_of_eq (ho bidi).symm, fun bidi i hk => ?_⟩
  rw [knownClosed_iff] at hk ⊢
  rw [ho]
  refine ⟨hk.1, hk.2.imp (fun h => h) fun hbit => ?_⟩
  by_cases hb : bidi = streamIsBidi id
  · rw [hb] at hbit ⊢
    rw [hm]
    exact markedMap_bit c id hbit
  · rw [hm' bidi hb]
    exact hbit

/-- A stream that is counted as closed is known as closed. -/
theorem countClosed_known (c : Conn) (id : Nat) (h : id / 4 < c.openedCount (streamIsBidi id)) :
    (c.countClosed id).knownClosed (streamIsBidi id) (id / 4) = true := by
  obtain ⟨ho, hm, -⟩ := countClosed_books c id
  rw [knownClosed_iff, ho, hm]
  refine ⟨h, ?_⟩
  by_cases hfar : c.openedCount (streamIsBidi id) - 1 - id / 4 ≥ kClosedWindow
  · exact .inl hfar
  refine .inr ?_
  unfold markedMap
  rw [if_pos ⟨h, Nat.lt_of_not_le hfar⟩, BitVec.getLsbD_or, BitVec.getLsbD_twoPow]
  simp only [decide_true, Bool.and_true, Bool.or_eq_true, decide_eq_true_eq]
  omega

/-! ## §3. Quiet operations. -/

/-- How the connection closed, if it did. -/
def closeInfo (c : Conn) : State × Bool × Nat × String :=
  (c.state, c.closeApp, c.closeCode, c.closeReason)

/-- The view is as before, no credit is due that was not, and at most the connection began to
    close. -/
structure Quiet (c c' : Conn) : Prop where
  view : c'.view = c.view
  ending : c'.closeInfo = c.closeInfo ∨ (c.ended = false ∧ c'.state = .closing)
  credit : c'.credit ⊆ c.credit
  grows : Grows c c'

/-- The fields an invariant can read are as before. -/
theorem Quiet.of_eq (hv : c'.view = c.view) (hi : c'.closeInfo = c.closeInfo)
    (hc : c'.credit = c.credit) (ho : ∀ bidi, c'.openedCount bidi = c.openedCount bidi)
    (hm : ∀ bidi, c'.closedMap bidi = c.closedMap bidi) : Quiet c c' :=
  ⟨hv, .inl hi, fun _ h => hc ▸ h, Grows.of_eq ho hm⟩

theorem Quiet.refl (c : Conn) : Quiet c c :=
  Quiet.of_eq rfl rfl rfl (fun _ => rfl) fun _ => rfl

theorem ended_eq_false : c.ended = false ↔ c.state = .handshaking ∨ c.state = .established := by
  unfold ended
  cases c.state <;> simp

theorem ended_of_closeInfo (h : c'.closeInfo = c.closeInfo) : c'.ended = c.ended := by
  have hs : c'.state = c.state := congrArg Prod.fst h
  unfold ended
  rw [hs]

theorem ending_trans (h : b.closeInfo = a.closeInfo ∨ (a.ended = false ∧ b.state = .closing))
    (h' : c.closeInfo = b.closeInfo ∨ (b.ended = false ∧ c.state = .closing)) :
    c.closeInfo = a.closeInfo ∨ (a.ended = false ∧ c.state = .closing) := by
  rcases h with he | ⟨ho, hs⟩
  · rcases h' with he' | ⟨ho', hs'⟩
    · exact .inl (he'.trans he)
    · exact .inr ⟨(ended_of_closeInfo he) ▸ ho', hs'⟩
  · rcases h' with he' | ⟨ho', -⟩
    · exact .inr ⟨ho, (congrArg Prod.fst he').trans hs⟩
    rw [ended_eq_false, hs] at ho'
    simp at ho'

theorem Quiet.trans (h : Quiet a b) (h' : Quiet b c) : Quiet a c :=
  ⟨h'.view.trans h.view, ending_trans h.ending h'.ending, fun _ hm => h.credit (h'.credit hm),
    h.grows.trans h'.grows⟩

/-- One stream changes in fields the view does not show. -/
theorem Quiet.modify (c : Conn) (p : Ptr) (f : QuicStream → QuicStream)
    (h : (f (c.streams p)).view = (c.streams p).view) : Quiet c (c.modify p f) :=
  Quiet.of_eq (view_modify c p f h) rfl rfl (fun _ => rfl) fun _ => rfl

theorem quiet_setControl (c : Conn) (ps : List Ptr) : Quiet c (c.setControl ps) :=
  Quiet.of_eq rfl rfl rfl (fun _ => rfl) fun _ => rfl

theorem quiet_setCredit (c : Conn) {ps : List Ptr} (h : ps ⊆ c.credit) : Quiet c (c.setCredit ps) :=
  ⟨rfl, .inl rfl, h, Grows.of_eq (fun _ => rfl) fun _ => rfl⟩

theorem quiet_addSent (c : Conn) (n : Nat) : Quiet c (c.addSent n) :=
  Quiet.of_eq rfl rfl rfl (fun _ => rfl) fun _ => rfl

theorem quiet_applyPeerParams (c : Conn) (tp : PeerParams) : Quiet c (c.applyPeerParams tp) :=
  Quiet.of_eq rfl rfl rfl (fun _ => rfl) fun _ => rfl

theorem quiet_fail (c : Conn) (code frameType : Nat) (reason : String) :
    Quiet c (c.fail code frameType reason) := by
  unfold fail
  split
  · exact Quiet.refl c
  next h =>
  exact ⟨rfl, .inr ⟨by simpa using h, rfl⟩, fun _ hm => hm,
    Grows.of_eq (fun _ => rfl) fun _ => rfl⟩

theorem quiet_close (c : Conn) (appError : Bool) (code : Nat) (reason : String) :
    Quiet c (c.close appError code reason) := by
  unfold close
  split
  · exact Quiet.refl c
  next h =>
  exact ⟨rfl, .inr ⟨by simpa using h, rfl⟩, fun _ hm => hm,
    Grows.of_eq (fun _ => rfl) fun _ => rfl⟩

theorem quiet_glitch (c : Conn) : Quiet c c.glitch := by
  have hcount : Quiet c c.countGlitch :=
    Quiet.of_eq rfl rfl rfl (fun _ => rfl) fun _ => rfl
  unfold glitch
  split
  · exact hcount.trans (quiet_fail _ _ _ _)
  · exact hcount

theorem quiet_countReset (c : Conn) (sec : Int) : Quiet c (c.countReset sec).1 := by
  have hnote : Quiet c (c.noteReset sec) :=
    Quiet.of_eq rfl rfl rfl (fun _ => rfl) fun _ => rfl
  unfold countReset
  split
  · exact hnote.trans (quiet_close _ _ _ _)
  · exact hnote

theorem quiet_countClosed (c : Conn) (id : Nat) : Quiet c (c.countClosed id) := by
  have hgrows := countClosed_grows c id
  unfold countClosed at hgrows ⊢
  split
  · next hb =>
    rw [if_pos hb] at hgrows
    exact ⟨rfl, .inl rfl, fun _ hm => hm, hgrows⟩
  · next hb =>
    rw [if_neg hb] at hgrows
    exact ⟨rfl, .inl rfl, fun _ hm => hm, hgrows⟩

theorem quiet_noteOpened (c : Conn) (bidi : Bool) (index : Nat) : Quiet c (c.noteOpened bidi index) := by
  have hgrows := noteOpened_grows c bidi index
  unfold noteOpened at hgrows ⊢
  cases bidi with
  | true =>
    rw [if_pos rfl] at hgrows ⊢
    split
    · next h =>
      rw [if_pos h] at hgrows
      exact ⟨rfl, .inl rfl, fun _ hm => hm, hgrows⟩
    · exact Quiet.refl c
  | false =>
    rw [if_neg Bool.false_ne_true] at hgrows ⊢
    split
    · next h =>
      rw [if_pos h] at hgrows
      exact ⟨rfl, .inl rfl, fun _ hm => hm, hgrows⟩
    · exact Quiet.refl c

theorem quiet_streamStopSending (c : Conn) (p : Ptr) (code : Nat) : Quiet c (c.streamStopSending p code) := by
  unfold streamStopSending
  split
  · exact Quiet.refl c
  · exact (Quiet.modify c p _ rfl).trans (quiet_setControl _ _)

theorem quiet_appendHead (c : Conn) (p : Ptr) (data : Bytes) : Quiet c (c.appendHead p data) :=
  Quiet.modify c p _ rfl

theorem quiet_answer (c : Conn) (p : Ptr) (a : Answer) : Quiet c (c.answer p a) :=
  Quiet.modify c p _ rfl

theorem view_store (s : QuicStream) (offset : Nat) (data : Bytes) : (s.store offset data).view = s.view := by
  unfold QuicStream.store
  split <;> rfl

theorem quiet_storeData (c : Conn) (p : Ptr) (offset : Nat) (data : Bytes) :
    Quiet c (c.storeData p offset data) := by
  unfold storeData
  split
  · exact Quiet.refl c
  split
  · exact Quiet.modify c p _ (view_store _ offset data)
  · exact Quiet.refl c

theorem view_trimAcked (s : QuicStream) : (trimAcked s).view = s.view := by
  unfold trimAcked
  dsimp only
  split <;> rfl

theorem view_settleAcked (s : QuicStream) : (settleAcked s).view = s.view := by
  unfold settleAcked
  split
  · exact view_trimAcked s
  · split <;> rfl

theorem quiet_applyAcked (c : Conn) (it : SentItem) : Quiet c (c.applyAcked it) := by
  cases it with
  | stream id offset len fin =>
    unfold applyAcked
    dsimp only
    split
    · exact Quiet.refl c
    split
    · exact Quiet.refl c
    · exact Quiet.modify c _ _ (view_settleAcked _)
  | _ => exact Quiet.refl c

theorem quiet_maxDataTurn (c : Conn) (room : Nat) : Quiet c (c.maxDataTurn room).conn := by
  unfold maxDataTurn
  dsimp only
  split
  · exact Quiet.of_eq rfl rfl rfl (fun _ => rfl) fun _ => rfl
  · exact Quiet.refl c

theorem quiet_maxStreamsTurn (c : Conn) (room : Nat) (eliciting : Bool) :
    Quiet c (c.maxStreamsTurn room eliciting).conn := by
  unfold maxStreamsTurn
  dsimp only
  split
  · exact Quiet.of_eq rfl rfl rfl (fun _ => rfl) fun _ => rfl
  · exact Quiet.refl c

theorem quiet_creditTurn (c : Conn) (room : Nat) : Quiet c (c.creditTurn room).conn := by
  unfold creditTurn
  split
  · exact Quiet.refl c
  next p rest hcredit =>
  have hrest : rest ⊆ c.credit := by
    rw [hcredit]
    exact List.subset_cons_self p rest
  dsimp only
  split
  · exact quiet_setCredit c hrest
  split
  · exact Quiet.refl c
  · exact (Quiet.modify c p _ rfl).trans (quiet_setCredit _ hrest)

theorem quiet_putReset (c : Conn) (p : Ptr) (room : Nat) : Quiet c (c.putReset p room).1 := by
  unfold putReset
  dsimp only
  split
  · exact Quiet.refl c
  split
  · exact Quiet.refl c
  dsimp only
  exact Quiet.modify c p _ rfl

theorem quiet_putStop (c : Conn) (p : Ptr) (room : Nat) : Quiet c (c.putStop p room).1 := by
  unfold putStop
  dsimp only
  split
  · exact Quiet.refl c
  split
  · exact Quiet.refl c
  dsimp only
  exact Quiet.modify c p _ rfl

/-- What copying does to a stream is not in the view. -/
theorem view_copyStreamBytes {read : ReadAt} {s s' : QuicStream} {offset len : Nat} {data : Bytes}
    (h : s.copyStreamBytes read offset len = some (data, s')) : s'.view = s.view := by
  obtain ⟨_, _, _, rfl⟩ := QuicStream.copyStreamBytes_chunk h
  rfl

/-! ## §4. What the other operations can do. -/

/-- Opening one of the application's streams. -/
theorem openOwn_cases (c : Conn) (p : Ptr) (head : Bytes) (trim : Bool) : Quiet c (c.openOwn p head trim) ∨
      ∃ (k : Conn) (id maxSend : Nat), Quiet c k ∧ streamIsClient id = false ∧
        Quiet (k.modify p fun s => { s with id := id, isOpen := true, maxSend := maxSend })
          (c.openOwn p head trim) := by
  have hbegin : Quiet c (c.beginOwn p head trim) := Quiet.modify c p _ rfl
  unfold openOwn openUniStream
  by_cases h : (c.beginOwn p head trim).nextUniIndex ≥ (c.beginOwn p head trim).peerMaxStreamsUni
  · rw [if_pos h]
    exact .inl hbegin
  rw [if_neg h]
  have hodd : ∀ n : Nat, (n * 4 + 3) &&& 1 = 1 := by
    intro n
    rw [Nat.and_one_is_mod]
    omega
  refine .inr ⟨(c.beginOwn p head trim).setUniIndex ((c.beginOwn p head trim).nextUniIndex + 1),
    _, _, hbegin.trans (Quiet.of_eq rfl rfl rfl (fun _ => rfl) fun _ => rfl), ?_, Quiet.modify _ p _ rfl⟩
  simp [streamIsClient, hodd]

/-- What `incoming_stream` can do: fail, know the id as closed, find the stream, or open it. -/
theorem incomingStream_cases (c : Conn) (id : Nat) : (∃ code reason,
      (reason = "frame for a server-initiated stream" ∨ reason = "stream beyond MAX_STREAMS") ∧
      c.incomingStream id = (c.fail code 0 reason, none)) ∨ c.incomingStream id = (c, none) ∨
    (∃ p, streamIsClient id = true ∧ c.findStream id = some p ∧ c.incomingStream id = (c, some p)) ∨
    (streamIsClient id = true ∧ c.findStream id = none ∧ id / 4 < c.advertised (streamIsBidi id) ∧
      c.knownClosed (streamIsBidi id) (id / 4) = false ∧
      c.incomingStream id = ((c.openStream id).1, some (c.openStream id).2)) := by
  unfold incomingStream
  split
  · exact .inl ⟨_, _, .inl rfl, rfl⟩
  next hclient =>
  dsimp only
  split
  · exact .inl ⟨_, _, .inr rfl, rfl⟩
  next hlimit =>
  cases hf : c.findStream id with
  | some p => exact .inr (.inr (.inl ⟨p, by simpa using hclient, rfl, rfl⟩))
  | none =>
    dsimp only
    split
    · exact .inr (.inl rfl)
    next hclosed =>
    exact .inr (.inr (.inr ⟨by simpa using hclient, rfl, Nat.lt_of_not_le hlimit,
      by simpa using hclosed, rfl⟩))

/-- A stream that is found is open, active or one of ours, and has the id. -/
theorem findStream_some (h : c.findStream id = some p) :
    p ∈ c.active ++ ownStreams ∧ (c.streams p).isOpen = true ∧ (c.streams p).id = id := by
  unfold findStream at h
  have hp := List.find?_some h
  simp only [Bool.and_eq_true, beq_iff_eq] at hp
  exact ⟨List.mem_of_find?_eq_some h, hp⟩

/-! ## §5. The operations of the ready list. -/

/-- Only the links, the flags, the head and the tail differ. -/
def LinkOnly (c c' : Conn) : Prop :=
  ∃ (h t : Option Ptr) (r : Ptr → Bool) (n : Ptr → Option Ptr), c' = { c with
    readyHead := h, readyTail := t
    streams := fun q => { c.streams q with ready := r q, nextReady := n q } }

theorem LinkOnly.refl (c : Conn) : LinkOnly c c :=
  ⟨c.readyHead, c.readyTail, fun q => (c.streams q).ready, fun q => (c.streams q).nextReady, rfl⟩

theorem LinkOnly.trans (hab : LinkOnly a b) (hbc : LinkOnly b c) : LinkOnly a c := by
  obtain ⟨h, t, r, n, rfl⟩ := hab
  obtain ⟨h', t', r', n', rfl⟩ := hbc
  exact ⟨h', t', r', n', rfl⟩

theorem LinkOnly.setHead (c : Conn) (h : Option Ptr) : LinkOnly c (c.setReadyHead h) :=
  ⟨h, c.readyTail, fun q => (c.streams q).ready, fun q => (c.streams q).nextReady, rfl⟩

theorem LinkOnly.setTail (c : Conn) (t : Option Ptr) : LinkOnly c (c.setReadyTail t) :=
  ⟨c.readyHead, t, fun q => (c.streams q).ready, fun q => (c.streams q).nextReady, rfl⟩

theorem LinkOnly.setFlag (c : Conn) (p : Ptr) (r : Bool) : LinkOnly c (c.setFlag p r) := by
  refine ⟨c.readyHead, c.readyTail, Function.update (fun q => (c.streams q).ready) p r,
    Function.update (fun q => (c.streams q).nextReady) p none, ?_⟩
  unfold Conn.setFlag modify
  congr 1
  funext q
  by_cases hq : q = p
  · subst hq
    simp
  · simp [Function.update_of_ne hq]

theorem LinkOnly.setNext (c : Conn) (p : Ptr) (n : Option Ptr) : LinkOnly c (c.setNext p n) := by
  refine ⟨c.readyHead, c.readyTail, fun q => (c.streams q).ready,
    Function.update (fun q => (c.streams q).nextReady) p n, ?_⟩
  unfold Conn.setNext modify
  congr 1
  funext q
  by_cases hq : q = p
  · subst hq
    simp
  · simp [Function.update_of_ne hq]

theorem enqueue_linkOnly (c : Conn) (p : Ptr) : LinkOnly c (c.enqueue p) := by
  unfold enqueue
  split
  · exact LinkOnly.refl c
  refine LinkOnly.trans ?_ (LinkOnly.setTail _ _)
  refine (LinkOnly.setFlag c p true).trans ?_
  split
  · exact LinkOnly.setNext _ _ _
  · exact LinkOnly.setHead _ _

theorem unlink_linkOnly (c : Conn) (p : Ptr) (prev : Option Ptr) : LinkOnly c (c.unlink p prev) := by
  have hlink : ∀ after, LinkOnly c (c.linkPast prev after) := by
    intro after
    cases prev with
    | some r => exact LinkOnly.setNext c r after
    | none => exact LinkOnly.setHead c after
  unfold unlink
  dsimp only
  split
  · exact (hlink _).trans (LinkOnly.setTail _ _)
  · exact hlink _

theorem dequeue_linkOnly (c : Conn) (p : Ptr) : LinkOnly c (c.dequeue p) := by
  unfold dequeue
  split
  · exact LinkOnly.refl c
  split
  · exact LinkOnly.setFlag c p false
  · exact (unlink_linkOnly c p _).trans (LinkOnly.setFlag _ p false)

theorem rotate_linkOnly (c : Conn) : LinkOnly c c.rotate := by
  unfold rotate
  split
  · split
    · exact LinkOnly.refl c
    exact (((LinkOnly.setHead c _).trans (LinkOnly.setNext _ _ _)).trans
      (LinkOnly.setNext _ _ _)).trans (LinkOnly.setTail _ _)
  · exact LinkOnly.refl c

/-! ## §6. The operations of the receive side. -/

/-- An operation of the receive side on the stream `p`: the table, the ready list and the identity
    of every stream are as before, and so is every other stream; the offsets of `p` and the
    connection's credit may differ, and a limit of `p` may be due. -/
structure ReceiveOp (p : Ptr) (c c' : Conn) : Prop where
  active : c'.active = c.active
  pool : c'.pool = c.pool
  allocated : c'.allocated = c.allocated
  readyHead : c'.readyHead = c.readyHead
  readyTail : c'.readyTail = c.readyTail
  limits : c'.limits = c.limits
  isOpen : ∀ q, (c'.streams q).isOpen = (c.streams q).isOpen
  id : ∀ q, (c'.streams q).id = (c.streams q).id
  ready : ∀ q, (c'.streams q).ready = (c.streams q).ready
  nextReady : ∀ q, (c'.streams q).nextReady = (c.streams q).nextReady
  others : ∀ q, q ≠ p → (c'.streams q).view = (c.streams q).view
  credit : c'.credit ⊆ p :: c.credit
  grows : Grows c c'

theorem ReceiveOp.of_quiet (p : Ptr) (hq : Quiet c c') : ReceiveOp p c c' where
  active := active_of_view hq.view
  pool := pool_of_view hq.view
  allocated := allocated_of_view hq.view
  readyHead := congrArg View.readyHead hq.view
  readyTail := congrArg View.readyTail hq.view
  limits := congrArg View.limits hq.view
  isOpen := isOpen_of_view hq.view
  id := fun q => congrArg StreamView.id (stream_of_view hq.view q)
  ready := fun q => congrArg StreamView.ready (stream_of_view hq.view q)
  nextReady := fun q => congrArg StreamView.nextReady (stream_of_view hq.view q)
  others := fun q _ => stream_of_view hq.view q
  credit := fun _ hm => .tail _ (hq.credit hm)
  grows := hq.grows

theorem ReceiveOp.trans (h : ReceiveOp p a b) (h' : ReceiveOp p b c) : ReceiveOp p a c where
  active := h'.active.trans h.active
  pool := h'.pool.trans h.pool
  allocated := h'.allocated.trans h.allocated
  readyHead := h'.readyHead.trans h.readyHead
  readyTail := h'.readyTail.trans h.readyTail
  limits := h'.limits.trans h.limits
  isOpen := fun q => (h'.isOpen q).trans (h.isOpen q)
  id := fun q => (h'.id q).trans (h.id q)
  ready := fun q => (h'.ready q).trans (h.ready q)
  nextReady := fun q => (h'.nextReady q).trans (h.nextReady q)
  others := fun q hq => (h'.others q hq).trans (h.others q hq)
  credit := fun q hq => by
    rcases List.mem_cons.mp (h'.credit hq) with rfl | hm
    · exact .head _
    · exact h.credit hm
  grows := h.grows.trans h'.grows

/-- One stream changes in what a receive operation may change. -/
theorem ReceiveOp.modify (c : Conn) (p : Ptr) (f : QuicStream → QuicStream)
    (ho : (f (c.streams p)).isOpen = (c.streams p).isOpen) (hi : (f (c.streams p)).id = (c.streams p).id)
    (hr : (f (c.streams p)).ready = (c.streams p).ready)
    (hn : (f (c.streams p)).nextReady = (c.streams p).nextReady) :
    ReceiveOp p c (c.modify p f) where
  active := rfl
  pool := rfl
  allocated := rfl
  readyHead := rfl
  readyTail := rfl
  isOpen := fun q => proj_modify QuicStream.isOpen c p q f ho
  id := fun q => proj_modify QuicStream.id c p q f hi
  ready := fun q => proj_modify QuicStream.ready c p q f hr
  nextReady := fun q => proj_modify QuicStream.nextReady c p q f hn
  limits := rfl
  others := fun q hq => by rw [streams_modify_of_ne c f hq]
  credit := fun _ hm => .tail _ hm
  grows := Grows.modify c p f

theorem modify_modify (c : Conn) (p : Ptr) (f g : QuicStream → QuicStream) :
    (c.modify p f).modify p g = c.modify p fun s => g (f s) := by
  unfold modify
  simp

/-- The stream with its limit moved and due. -/
def granted (maxRecv : Nat) (s : QuicStream) : QuicStream :=
  { s with maxRecv := maxRecv, creditDue := true }

/-- A grant: the limit of one stream, and that it is due. -/
theorem grant_eq (c : Conn) (p : Ptr) (maxRecv : Nat) :
    ∃ ps, ps ⊆ p :: c.credit ∧ c.grant p maxRecv = (c.modify p (granted maxRecv)).setCredit ps := by
  unfold grant
  cases hdue : (c.streams p).creditDue with
  | true =>
    refine ⟨c.credit, fun _ hm => .tail _ hm, ?_⟩
    have hsame : granted maxRecv (c.streams p) = { c.streams p with maxRecv := maxRecv } := by
      unfold granted
      rw [← hdue]
    unfold modify setCredit
    rw [hsame]
    rfl
  | false =>
    refine ⟨p :: c.credit, fun _ hm => hm, ?_⟩
    rw [if_neg Bool.false_ne_true, modify_modify]
    rfl

theorem streams_grant (c : Conn) (p : Ptr) (maxRecv : Nat) :
    (c.grant p maxRecv).streams p = granted maxRecv (c.streams p) := by
  obtain ⟨ps, -, he⟩ := grant_eq c p maxRecv
  rw [he]
  exact streams_modify_self c p (granted maxRecv)

theorem grant_receive (c : Conn) (p : Ptr) (maxRecv : Nat) : ReceiveOp p c (c.grant p maxRecv) := by
  obtain ⟨ps, hps, he⟩ := grant_eq c p maxRecv
  have hset : ReceiveOp p c (c.modify p (granted maxRecv)) :=
    ReceiveOp.modify c p _ rfl rfl rfl rfl
  rw [he]
  exact ⟨hset.active, hset.pool, hset.allocated, hset.readyHead, hset.readyTail, hset.limits,
    hset.isOpen, hset.id, hset.ready, hset.nextReady, hset.others, hps, hset.grows.trans (Grows.setCredit ..)⟩

theorem consume_receive (c : Conn) (p : Ptr) (n : Nat) : ReceiveOp p c (c.modify p fun s => s.consume n) := by
  refine ReceiveOp.modify c p _ ?_ ?_ ?_ ?_ <;> unfold QuicStream.consume <;> split <;> rfl

/-- **The operations of the receive side are such operations.** -/
theorem receive_walk (p : Ptr) : Walk p (ReceiveOp p) where
  refl := fun c => .of_quiet p (Quiet.refl c)
  trans := ReceiveOp.trans
  apart := by
    rintro c c' ⟨_, _, _, _, _, _, _, _, _, _, _, _, rfl⟩
    exact ⟨rfl, rfl, rfl, rfl, rfl, rfl, fun _ => rfl, fun _ => rfl, fun _ => rfl, fun _ => rfl,
      fun _ _ => rfl, fun _ hm => .tail _ hm, Grows.of_eq (fun _ => rfl) fun _ => rfl⟩
  receive := by
    rintro c f ⟨_, _, _, _, _, _, _, _, _, _, he⟩
    exact ReceiveOp.modify c p f (by rw [he]) (by rw [he]) (by rw [he]) (by rw [he])

theorem streamConsumed_receive (c : Conn) (p : Ptr) (n : Nat) : ReceiveOp p c (c.streamConsumed p n) :=
  (receive_walk p).streamConsumed (fun c => grant_receive c p) n

theorem streamWindow_receive (c : Conn) (p : Ptr) (window : Nat) : ReceiveOp p c (c.streamWindow p window) :=
  (receive_walk p).streamWindow (fun c => grant_receive c p) window

/-! ## §7. What a frame, a loss and a packetiser round can do. -/

/-- At most the reset budget was counted. -/
def Noted (c k : Conn) : Prop :=
  ∃ (second : Int) (n : Nat), k = { c with resetSecond := second, resetsInSecond := n }

theorem Noted.refl (c : Conn) : Noted c c := ⟨c.resetSecond, c.resetsInSecond, rfl⟩

theorem Noted.quiet (h : Noted c k) : Quiet c k := by
  obtain ⟨_, _, rfl⟩ := h
  exact Quiet.of_eq rfl rfl rfl (fun _ => rfl) fun _ => rfl

theorem Noted.closeInfo (h : Noted c k) : k.closeInfo = c.closeInfo := by
  obtain ⟨_, _, rfl⟩ := h
  rfl

/-- The table and its books read none of the budget. -/
theorem Noted.findStream (h : Noted c k) (id : Nat) : k.findStream id = c.findStream id := by
  obtain ⟨_, _, rfl⟩ := h
  rfl

theorem Noted.advertised (h : Noted c k) (bidi : Bool) : k.advertised bidi = c.advertised bidi := by
  obtain ⟨_, _, rfl⟩ := h
  rfl

theorem Noted.knownClosed (h : Noted c k) (bidi : Bool) (index : Nat) :
    k.knownClosed bidi index = c.knownClosed bidi index := by
  obtain ⟨_, _, rfl⟩ := h
  rfl

/-- A reset within the budget is counted and nothing else. -/
theorem countReset_noted {sec : Int} (h : c.countReset sec = (c', true)) : Noted c c' := by
  unfold countReset at h
  split at h
  · cases congrArg Prod.snd h
  obtain ⟨rfl, -⟩ := Prod.mk.inj h
  exact ⟨_, _, rfl⟩

/-- The stream a frame is for: found, or opened for it. -/
inductive Found (c : Conn) (id : Nat) : Conn → Ptr → Prop where
  | found {k : Conn} {p : Ptr} (hn : Noted c k) (hf : k.findStream id = some p) : Found c id k p
  | opened {k : Conn} (hn : Noted c k) (hc : streamIsClient id = true)
      (hf : k.findStream id = none) (hl : id / 4 < k.advertised (streamIsBidi id))
      (hk : k.knownClosed (streamIsBidi id) (id / 4) = false) :
      Found c id (k.openStream id).1 (k.openStream id).2

/-- `incoming_stream` gives a stream, or nothing happens but a close. -/
theorem incomingStream_found {k' : Conn} {r : Option Ptr} (hn : Noted c k)
    (h : k.incomingStream id = (k', r)) :
    (r = none ∧ Quiet c k') ∨ ∃ p, r = some p ∧ streamIsClient id = true ∧ Found c id k' p := by
  rcases incomingStream_cases k id with
    ⟨code, reason, -, he⟩ | he | ⟨p, hc, hf, he⟩ | ⟨hc, hf, hl, hk, he⟩
  · rw [he] at h
    cases h
    exact .inl ⟨rfl, hn.quiet.trans (quiet_fail _ _ _ _)⟩
  · rw [he] at h
    cases h
    exact .inl ⟨rfl, hn.quiet⟩
  · rw [he] at h
    cases h
    exact .inr ⟨p, rfl, hc, Found.found hn hf⟩
  · rw [he] at h
    cases h
    exact .inr ⟨_, rfl, hc, Found.opened hn hc hf hl hk⟩

theorem sendStream_found {k' : Conn} {r : Option Ptr} (hn : Noted c k) (h : k.sendStream id = (k', r)) :
    (r = none ∧ Quiet c k') ∨ ∃ p, r = some p ∧ Found c id k' p := by
  unfold sendStream at h
  split at h
  · rcases incomingStream_found hn h with hr | ⟨p, hr, -, hf⟩
    · exact .inl hr
    · exact .inr ⟨p, hr, hf⟩
  · cases h
    cases hf : k.findStream id with
    | none => exact .inl ⟨rfl, hn.quiet⟩
    | some p => exact .inr ⟨p, rfl, Found.found hn hf⟩

/-- **What a frame can do.**  Bookkeeping only; wake the blocked streams; drain; touch a stream
    and perhaps queue it; or one of the two that charge bytes. -/
inductive FrameEffect (c : Conn) : Frame → Conn → Prop where
  | quiet {f : Frame} {c' : Conn} (hq : Quiet c c') : FrameEffect c f c'
  | wake {f : Frame} {k : Conn} (hq : Quiet c k) : FrameEffect c f k.wakeBlocked
  | drain {f : Frame} : FrameEffect c f c.drain
  | touch {f : Frame} {id : Nat} {k c' : Conn} {p : Ptr} (hf : Found c id k p) (hq : Quiet k c') :
      FrameEffect c f c'
  | queue {f : Frame} {id : Nat} {k k' : Conn} {p : Ptr} (hf : Found c id k p) (hq : Quiet k k') :
      FrameEffect c f (k'.enqueue p)
  | reset {id code finalSize : Nat} {k : Conn} {p : Ptr} (hc : streamIsClient id = true)
      (hf : Found c id k p) :
      FrameEffect c (.resetStream id code finalSize)
        (k.applyReset p (.resetStream id code finalSize) code finalSize)
  | data {id offset : Nat} {data : Bytes} {fin : Bool} {k : Conn} {p : Ptr}
      (hc : streamIsClient id = true) (hf : Found c id k p) :
      FrameEffect c (.stream id offset data fin)
        (k.applyStreamFrame p (.stream id offset data fin) offset data fin)

theorem handleFrame_effect (c : Conn) (f : Frame) (sec : Int) : FrameEffect c f (c.handleFrame f sec) := by
  cases f with
  | resetStream id code finalSize =>
    unfold handleFrame
    have hcount := quiet_countReset c sec
    cases hr : c.countReset sec with
    | mk c₁ go =>
      rw [hr] at hcount
      cases go with
      | false => exact .quiet hcount
      | true =>
        dsimp only
        cases hi : c₁.incomingStream id with
        | mk c₂ r =>
          rcases incomingStream_found (countReset_noted hr) hi with ⟨rfl, hq⟩ | ⟨p, rfl, hc, hf⟩
          · exact .quiet hq
          · exact .reset hc hf
  | stopSending id code =>
    unfold handleFrame
    dsimp only
    split
    · exact .quiet (quiet_fail _ _ _ _)
    have hcount := quiet_countReset c sec
    cases hr : c.countReset sec with
    | mk c₁ go =>
      rw [hr] at hcount
      cases go with
      | false => exact .quiet hcount
      | true =>
        dsimp only
        cases hi : c₁.sendStream id with
        | mk c₂ r =>
          rcases sendStream_found (countReset_noted hr) hi with ⟨rfl, hq⟩ | ⟨p, rfl, hf⟩
          · exact .quiet hq
          dsimp only
          split
          · exact .touch hf (Quiet.refl _)
          · exact .touch hf (Quiet.modify c₂ p _ rfl)
  | maxData v =>
    unfold handleFrame
    dsimp only
    split
    · exact .wake (Quiet.of_eq rfl rfl rfl (fun _ => rfl) fun _ => rfl)
    · exact .quiet (quiet_glitch c)
  | maxStreamData id v =>
    unfold handleFrame
    dsimp only
    split
    · exact .quiet (quiet_fail _ _ _ _)
    cases hi : c.sendStream id with
    | mk c₂ r =>
      rcases sendStream_found (Noted.refl c) hi with ⟨rfl, hq⟩ | ⟨p, rfl, hf⟩
      · exact .quiet hq
      dsimp only
      split
      · split
        · exact .queue hf (Quiet.modify c₂ p _ rfl)
        · exact .touch hf (Quiet.modify c₂ p _ rfl)
      · exact .touch hf (quiet_glitch c₂)
  | maxStreamsBidi v =>
    unfold handleFrame
    dsimp only
    split
    · exact .quiet (quiet_fail _ _ _ _)
    split
    · exact .quiet (Quiet.of_eq rfl rfl rfl (fun _ => rfl) fun _ => rfl)
    · exact .quiet (quiet_glitch c)
  | maxStreamsUni v =>
    unfold handleFrame
    dsimp only
    split
    · exact .quiet (quiet_fail _ _ _ _)
    split
    · exact .quiet (Quiet.of_eq rfl rfl rfl (fun _ => rfl) fun _ => rfl)
    · exact .quiet (quiet_glitch c)
  | stream id offset data fin =>
    unfold handleFrame
    dsimp only
    cases hi : c.incomingStream id with
    | mk c₂ r =>
      rcases incomingStream_found (Noted.refl c) hi with ⟨rfl, hq⟩ | ⟨p, rfl, hc, hf⟩
      · exact .quiet hq
      · exact .data hc hf
  | connectionClose => exact .drain

/-- **What a loss can do.**  Bookkeeping only, queue a stream, or grant its limit again. -/
inductive LossEffect (c : Conn) : Conn → Prop where
  | quiet {c' : Conn} (hq : Quiet c c') : LossEffect c c'
  | queue {k : Conn} {p : Ptr} (hq : Quiet c k) : LossEffect c (k.enqueue p)
  | grant {p : Ptr} (ho : (c.streams p).isOpen = true) :
      LossEffect c (c.grant p (c.streams p).maxRecv)

theorem applyLost_effect (c : Conn) (it : SentItem) : LossEffect c (c.applyLost it) := by
  cases it with
  | stream id offset len fin =>
    unfold applyLost
    dsimp only
    split
    · exact .quiet (Quiet.refl c)
    next p _ =>
    split
    · exact .quiet (Quiet.refl c)
    have hq : Quiet c (c.modify p fun s => noteLost s offset len fin) := Quiet.modify c p _ rfl
    split
    · exact .queue hq
    · exact .quiet hq
  | maxData => exact .quiet (Quiet.of_eq rfl rfl rfl (fun _ => rfl) fun _ => rfl)
  | maxStreams => exact .quiet (Quiet.of_eq rfl rfl rfl (fun _ => rfl) fun _ => rfl)
  | maxStreamData id =>
    unfold applyLost
    dsimp only
    split
    · exact .quiet (Quiet.refl c)
    split
    · next h => exact .grant (by simp_all)
    · exact .quiet (Quiet.refl c)
  | resetStream id =>
    unfold applyLost
    dsimp only
    split
    · exact .quiet (Quiet.refl c)
    split
    · exact .quiet ((Quiet.modify c _ _ rfl).trans (quiet_setControl _ _))
    · exact .quiet (Quiet.refl c)
  | stopSending id =>
    unfold applyLost
    dsimp only
    split
    · exact .quiet (Quiet.refl c)
    split
    · exact .quiet ((Quiet.modify c _ _ rfl).trans (quiet_setControl _ _))
    · exact .quiet (Quiet.refl c)

/-- A control round is bookkeeping, and may take the stream off the ready list. -/
theorem controlTurn_effect (c : Conn) (room : Nat) : Quiet c (c.controlTurn room).conn ∨
      ∃ k p, Quiet c k ∧ (c.controlTurn room).conn = k.dequeue p := by
  unfold controlTurn
  split
  · exact .inl (Quiet.refl c)
  next p rest _ =>
  have hreset := quiet_putReset c p room
  cases hr : c.putReset p room with
  | mk c₁ r =>
    obtain ⟨fs, ok⟩ := r
    rw [hr] at hreset
    cases ok with
    | false => exact .inl hreset
    | true =>
      dsimp only
      have hstop := quiet_putStop c₁ p (room - (fs.map OutFrame.size).sum)
      cases hs : c₁.putStop p (room - (fs.map OutFrame.size).sum) with
      | mk c₂ r₂ =>
        obtain ⟨gs, ok₂⟩ := r₂
        rw [hs] at hstop
        have hboth := hreset.trans hstop
        cases ok₂ with
        | false => exact .inl hboth
        | true =>
          dsimp only
          have hpop := hboth.trans (quiet_setControl c₂ rest)
          split
          · exact .inr ⟨_, p, hpop.trans (Quiet.modify _ p _ rfl), rfl⟩
          · exact .inl hpop

theorem countClosed_closeInfo (c : Conn) (id : Nat) : (c.countClosed id).closeInfo = c.closeInfo := by
  unfold countClosed
  split <;> rfl

/-- `stream_closed` takes the stream off the lists, keeps books, and marks it closed.  A client
    stream is known as closed from then on. -/
theorem streamClosed_effect (c : Conn) (p : Ptr) :
    ∃ k : Conn, Quiet (c.dequeue p) k ∧ k.closeInfo = (c.dequeue p).closeInfo ∧ p ∉ k.credit ∧
      (∀ id, (c.streams p).id = id → streamIsClient id = true →
        id / 4 < (c.dequeue p).openedCount (streamIsBidi id) →
        k.knownClosed (streamIsBidi id) (id / 4) = true) ∧
      c.streamClosed p = k.modify p fun s => { s with isOpen := false } := by
  unfold streamClosed
  dsimp only
  have hforget : ∀ k : Conn, Quiet k ((k.setControl (k.control.filter (· ≠ p))).setCredit
      (k.credit.filter (· ≠ p))) := fun k =>
    (quiet_setControl k _).trans (quiet_setCredit _ fun _ hm => (List.mem_filter.mp hm).1)
  have hgone : ∀ ps : List Ptr, p ∉ ps.filter (· ≠ p) := by
    intro ps hm
    simpa using (List.mem_filter.mp hm).2
  split
  · next hclient =>
    refine ⟨_, ?_, ?_, ?_, ?_, rfl⟩
    · exact (hforget _).trans (quiet_countClosed _ _)
    · exact countClosed_closeInfo _ _
    · exact fun hm => hgone _ ((quiet_countClosed _ _).credit hm)
    · rintro id rfl _ hlt
      exact countClosed_known _ _ hlt
  · next hclient =>
    refine ⟨_, ?_, ?_, ?_, ?_, rfl⟩
    · exact hforget _
    · rfl
    · exact hgone _
    · rintro id rfl hc _
      exact absurd hc hclient

/-- **What a round of the STREAM loop can do.**  Nothing; take the head off the list; move it to
    the tail; or, its source failed, reset it. -/
inductive StreamEffect (c : Conn) (room : Nat) (read : ReadAt) : Turn → Prop where
  | stop {t : Turn} (hc : t.conn = c) (hm : t.more = false) : StreamEffect c room read t
  | drop {t : Turn} {k : Conn} {p : Ptr} (hh : c.readyHead = some p) (hq : Quiet c k)
      (hc : t.conn = k.dequeue p) : StreamEffect c room read t
  | turn {t : Turn} {k : Conn} {p : Ptr} (hh : c.readyHead = some p) (hq : Quiet c k)
      (hc : t.conn = k.rotate) : StreamEffect c room read t
  | failed {t : Turn} {p : Ptr} (hh : c.readyHead = some p) (hf : c.sourceFails p room read = true)
      (hc : t.conn = (c.streamReset p h3InternalError).dequeue p) : StreamEffect c room read t

theorem quiet_markSent (c : Conn) (p : Ptr) (b take : Nat) (resend : Bool) :
    Quiet c (c.markSent p b take resend) := by
  unfold markSent
  split
  · exact Quiet.modify c p _ rfl
  split
  · exact (quiet_addSent c take).trans (Quiet.modify _ p _ rfl)
  · exact Quiet.refl c

theorem quiet_markFin (c : Conn) (p : Ptr) (fin : Bool) : Quiet c (c.markFin p fin) := by
  unfold markFin
  split
  · exact Quiet.modify c p _ rfl
  · exact Quiet.refl c

theorem noteSent_effect (c : Conn) (p : Ptr) (b take : Nat) (resend fin : Bool) :
    ∃ k, Quiet c k ∧ (c.noteSent p b take resend fin = k.rotate ∨
      c.noteSent p b take resend fin = k.dequeue p) := by
  refine ⟨(c.markSent p b take resend).markFin p fin,
    (quiet_markSent c p b take resend).trans (quiet_markFin _ p fin), ?_⟩
  unfold noteSent
  dsimp only
  split
  · exact .inl rfl
  · exact .inr rfl

theorem streamTurn_effect (c : Conn) (room : Nat) (read : ReadAt) :
    StreamEffect c room read (c.streamTurn room read) := by
  unfold streamTurn
  cases hh : c.readyHead with
  | none => exact .stop rfl rfl
  | some p =>
    dsimp only
    split
    · exact .stop rfl rfl
    next hroom =>
    cases hp : c.pick (c.streams p)
        (room - streamHeaderSize (c.streams p).id (c.streams p).total 65535) with
    | blocked =>
      unfold blockStream
      dsimp only
      split
      · exact .drop hh (Quiet.refl c) rfl
      · exact .drop hh (Quiet.modify c p _ rfl) rfl
    | idle => exact .drop hh (Quiet.refl c) rfl
    | send b take resend =>
      dsimp only
      split
      · exact .stop rfl rfl
      next hfit =>
      cases hcopy : (c.streams p).copyStreamBytes read b take with
      | none =>
        refine .failed hh ?_ rfl
        unfold sourceFails
        dsimp only
        rw [hp]
        simp only [hcopy, Option.isNone_none, Bool.and_true, Bool.and_eq_true, decide_eq_true_eq]
        omega
      | some r =>
        obtain ⟨data, s'⟩ := r
        have hq : Quiet c (c.modify p fun _ => s') :=
          Quiet.modify c p _ (view_copyStreamBytes hcopy)
        obtain ⟨k, hk, he | he⟩ := noteSent_effect (c.modify p fun _ => s') p b take resend
          ((c.streams p).fin && b + take == (c.streams p).total)
        · exact .turn hh (hq.trans hk) he
        · exact .drop hh (hq.trans hk) he

/-! ## §8. What a step can do. -/

/-- **What a step can do.**  Every label's guard and its effect, sorted by what the invariants
    have to say about it. -/
inductive StepEffect (c : Conn) : Op → Conn → Prop where
  | quiet {op : Op} {c' : Conn} (hq : Quiet c c') : StepEffect c op c'
  | establish (hs : c.state = .handshaking) :
      StepEffect c .handshakeComplete (c.setState .established)
  | finish (hs : c.state = .closing ∨ c.state = .draining) :
      StepEffect c .finish (c.setState .closed)
  | openOwn {p : Ptr} {head : Bytes} {trim : Bool} (hp : p ∈ ownStreams)
      (ho : (c.streams p).isOpen = false) :
      StepEffect c (.openUniStream p head trim) (c.openOwn p head trim)
  | ready {p : Ptr} : StepEffect c (.streamReady p) (c.enqueue p)
  | consumed {p : Ptr} {n : Nat} (hp : p ∈ c.active) (ho : (c.streams p).isOpen = true)
      (hn : n ≤ (c.streams p).available) :
      StepEffect c (.streamConsumed p n) (c.streamConsumed p n)
  | window {p : Ptr} {w : Nat} (ho : (c.streams p).isOpen = true) :
      StepEffect c (.streamWindow p w) (c.streamWindow p w)
  | reset {p : Ptr} {code : Nat} (ho : (c.streams p).isOpen = true) :
      StepEffect c (.streamReset p code) (c.streamReset p code)
  | closeStream {p : Ptr} (hp : p ∈ c.active) (ho : (c.streams p).isOpen = true) :
      StepEffect c (.closeStream p) (c.closeStream p)
  | frame {f : Frame} {sec : Int} {c' : Conn} (ha : c.ended = false) (he : FrameEffect c f c') :
      StepEffect c (.frame f sec) c'
  | lost {it : SentItem} {c' : Conn} (ha : c.ended = false) (he : LossEffect c c') :
      StepEffect c (.lost it) c'
  | unqueue {room : Nat} {k : Conn} {p : Ptr} (hq : Quiet c k) :
      StepEffect c (.controlTurn room) (k.dequeue p)
  | turn {room : Nat} {read : ReadAt} {t : Turn} (he : StreamEffect c room read t) :
      StepEffect c (.streamTurn room read) t.conn

theorem step_effect {op : Op} (hs : c.step op = some c') : StepEffect c op c' := by
  cases op with
  | streamReady p =>
    cases hs
    exact .ready
  | close appError code reason =>
    cases hs
    exact .quiet (quiet_close ..)
  | _ =>
    simp only [step, Option.ite_none_right_eq_some, Option.ite_none_left_eq_some,
      Option.some.injEq, Bool.not_eq_true] at hs
    obtain ⟨hg, rfl⟩ := hs
    first
      | exact .establish hg
      | exact .finish hg
      | exact .openOwn hg.1 hg.2
      | exact .consumed hg.1 hg.2.1 hg.2.2
      | exact .window hg
      | exact .reset hg
      | exact .closeStream hg.1 hg.2
      | exact .frame hg (handleFrame_effect ..)
      | exact .lost hg (applyLost_effect ..)
      | exact .turn (streamTurn_effect ..)
      | exact .quiet (quiet_applyPeerParams ..)
      | exact .quiet (quiet_appendHead ..)
      | exact .quiet (quiet_answer ..)
      | exact .quiet (quiet_streamStopSending ..)
      | exact .quiet (quiet_applyAcked ..)
      | exact .quiet (quiet_maxDataTurn ..)
      | exact .quiet (quiet_creditTurn ..)
      | exact .quiet (quiet_maxStreamsTurn ..)
      | rcases controlTurn_effect c _ with hq | ⟨k, p, hq, he⟩
        · exact .quiet hq
        · rw [he]
          exact .unqueue hq

/-! ## §9. Operations that leave the receive side alone. -/

/-- Everything of the view but the links is as before, and at most the connection began to
    close. -/
structure SameReceive (c c' : Conn) : Prop where
  ending : c'.closeInfo = c.closeInfo ∨ (c.ended = false ∧ c'.state = .closing)
  limits : c'.limits = c.limits
  dataReceived : c'.dataReceived = c.dataReceived
  dataConsumed : c'.dataConsumed = c.dataConsumed
  ourMaxData : c'.ourMaxData = c.ourMaxData
  active : c'.active = c.active
  pool : c'.pool = c.pool
  allocated : c'.allocated = c.allocated
  isOpen : ∀ p, (c'.streams p).isOpen = (c.streams p).isOpen
  id : ∀ p, (c'.streams p).id = (c.streams p).id
  highest : ∀ p, (c'.streams p).highest = (c.streams p).highest
  consumed : ∀ p, (c'.streams p).consumed = (c.streams p).consumed
  maxRecv : ∀ p, (c'.streams p).maxRecv = (c.streams p).maxRecv
  credit : c'.credit ⊆ c.credit
  grows : Grows c c'

theorem SameReceive.of_quiet (h : Quiet c c') : SameReceive c c' where
  ending := h.ending
  limits := congrArg View.limits h.view
  dataReceived := congrArg View.dataReceived h.view
  dataConsumed := congrArg View.dataConsumed h.view
  ourMaxData := congrArg View.ourMaxData h.view
  active := active_of_view h.view
  pool := pool_of_view h.view
  allocated := allocated_of_view h.view
  isOpen := isOpen_of_view h.view
  id := fun p => congrArg StreamView.id (stream_of_view h.view p)
  highest := fun p => congrArg StreamView.highest (stream_of_view h.view p)
  consumed := fun p => congrArg StreamView.consumed (stream_of_view h.view p)
  maxRecv := fun p => congrArg StreamView.maxRecv (stream_of_view h.view p)
  credit := h.credit
  grows := h.grows

theorem SameReceive.of_linkOnly (h : LinkOnly c c') : SameReceive c c' := by
  obtain ⟨_, _, _, _, rfl⟩ := h
  exact ⟨.inl rfl, rfl, rfl, rfl, rfl, rfl, rfl, rfl, fun _ => rfl, fun _ => rfl, fun _ => rfl,
    fun _ => rfl, fun _ => rfl, fun _ hm => hm, Grows.of_eq (fun _ => rfl) fun _ => rfl⟩

theorem SameReceive.trans (h : SameReceive a b) (h' : SameReceive b c) : SameReceive a c where
  ending := ending_trans h.ending h'.ending
  limits := h'.limits.trans h.limits
  dataReceived := h'.dataReceived.trans h.dataReceived
  dataConsumed := h'.dataConsumed.trans h.dataConsumed
  ourMaxData := h'.ourMaxData.trans h.ourMaxData
  active := h'.active.trans h.active
  pool := h'.pool.trans h.pool
  allocated := h'.allocated.trans h.allocated
  isOpen := fun p => (h'.isOpen p).trans (h.isOpen p)
  id := fun p => (h'.id p).trans (h.id p)
  highest := fun p => (h'.highest p).trans (h.highest p)
  consumed := fun p => (h'.consumed p).trans (h.consumed p)
  maxRecv := fun p => (h'.maxRecv p).trans (h.maxRecv p)
  credit := fun _ hm => h.credit (h'.credit hm)
  grows := h.grows.trans h'.grows

theorem streamReset_sameReceive (c : Conn) (p : Ptr) (code : Nat) : SameReceive c (c.streamReset p code) := by
  unfold streamReset
  split
  · exact SameReceive.of_quiet (Quiet.refl c)
  refine SameReceive.trans ?_ (SameReceive.of_quiet (quiet_setControl _ _))
  exact ⟨.inl rfl, rfl, rfl, rfl, rfl, rfl, rfl, rfl,
    fun q => proj_modify QuicStream.isOpen c p q _ rfl,
    fun q => proj_modify QuicStream.id c p q _ rfl,
    fun q => proj_modify QuicStream.highest c p q _ rfl,
    fun q => proj_modify QuicStream.consumed c p q _ rfl,
    fun q => proj_modify QuicStream.maxRecv c p q _ rfl, fun _ hm => hm,
    Grows.of_eq (fun _ => rfl) fun _ => rfl⟩

theorem wakeBlocked_sameReceive (c : Conn) : SameReceive c c.wakeBlocked := by
  refine wakeBlocked_of (fun c => .of_quiet (Quiet.refl c)) SameReceive.trans fun k p => ?_
  unfold wakeOne
  dsimp only
  split
  · exact (SameReceive.of_quiet (Quiet.modify k p _ rfl)).trans
      (SameReceive.of_linkOnly (enqueue_linkOnly _ p))
  · exact SameReceive.of_quiet (Quiet.refl k)

/-- A round of the STREAM loop leaves the receive side alone, also when it resets a stream. -/
theorem streamEffect_sameReceive {room : Nat} {read : ReadAt} {t : Turn}
    (he : StreamEffect c room read t) : SameReceive c t.conn := by
  cases he with
  | stop hc _ =>
    rw [hc]
    exact SameReceive.of_quiet (Quiet.refl c)
  | drop _ hq hc =>
    rw [hc]
    exact (SameReceive.of_quiet hq).trans (SameReceive.of_linkOnly (dequeue_linkOnly _ _))
  | turn _ hq hc =>
    rw [hc]
    exact (SameReceive.of_quiet hq).trans (SameReceive.of_linkOnly (rotate_linkOnly _))
  | failed _ _ hc =>
    rw [hc]
    exact (streamReset_sameReceive c _ _).trans (SameReceive.of_linkOnly (dequeue_linkOnly _ _))

end Conn

end Agensio.Quic
