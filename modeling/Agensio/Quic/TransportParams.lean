/-
  Agensio.Quic.TransportParams — what each side declares in the handshake.

  Model of `append_param`, `encode_transport_params` and
  `decode_transport_params` (`quic/transport_params.hpp`).  The extension is
  a run of parameters, each an id, a length and that many bytes; the decoder
  keeps a bit for each id below 64 that it has seen, and skips the ids it
  does not know.

  Main results:
    * `transport_params` — the two together.
-/
import Agensio.Quic.PeerIds
import Agensio.Quic.Varint
import Mathlib.Data.List.Nodup
import Mathlib.Data.Nat.Bitwise

namespace Agensio.Quic

/-! ## §1. The parameters. -/

/-- `Cid`: at most twenty bytes. -/
structure PacketCid where
  bytes : Bytes
  short : bytes.length ≤ kMaxCidLen
  deriving DecidableEq

namespace PacketCid

def empty : PacketCid := ⟨[], Nat.zero_le _⟩

/-- `Cid::assign`. -/
def assign (p : Bytes) : PacketCid :=
  ⟨p.take kMaxCidLen, by rw [List.length_take]; exact Nat.min_le_left _ _⟩

theorem assign_bytes (c : PacketCid) : assign c.bytes = c := by
  obtain ⟨bytes, short⟩ := c
  simp only [assign, PacketCid.mk.injEq]
  exact List.take_of_length_le short

end PacketCid

/-- The parameters of one side. -/
structure TransportParams where
  originalDcid : PacketCid := .empty
  hasOriginalDcid : Bool := false
  maxIdleTimeout : Nat := 0
  statelessResetToken : Vector UInt8 16 := .replicate 16 0
  hasResetToken : Bool := false
  maxUdpPayloadSize : Nat := 65527
  initialMaxData : Nat := 0
  initialMaxStreamDataBidiLocal : Nat := 0
  initialMaxStreamDataBidiRemote : Nat := 0
  initialMaxStreamDataUni : Nat := 0
  initialMaxStreamsBidi : Nat := 0
  initialMaxStreamsUni : Nat := 0
  ackDelayExponent : Nat := 3
  maxAckDelay : Nat := 25
  disableActiveMigration : Bool := false
  activeConnectionIdLimit : Nat := 2
  initialScid : PacketCid := .empty
  hasInitialScid : Bool := false
  retryScid : PacketCid := .empty
  hasRetryScid : Bool := false
  deriving DecidableEq

/-! The ids. -/
namespace tp

abbrev originalDcid : Nat := 0x00
abbrev maxIdleTimeout : Nat := 0x01
abbrev statelessResetToken : Nat := 0x02
abbrev maxUdpPayloadSize : Nat := 0x03
abbrev initialMaxData : Nat := 0x04
abbrev initialMaxStreamDataBidiLocal : Nat := 0x05
abbrev initialMaxStreamDataBidiRemote : Nat := 0x06
abbrev initialMaxStreamDataUni : Nat := 0x07
abbrev initialMaxStreamsBidi : Nat := 0x08
abbrev initialMaxStreamsUni : Nat := 0x09
abbrev ackDelayExponent : Nat := 0x0a
abbrev maxAckDelay : Nat := 0x0b
abbrev disableActiveMigration : Nat := 0x0c
abbrev preferredAddress : Nat := 0x0d
abbrev activeConnectionIdLimit : Nat := 0x0e
abbrev initialScid : Nat := 0x0f
abbrev retryScid : Nat := 0x10

end tp

/-- `append_param_bytes`. -/
def appendParamBytes (id : Nat) (value : Bytes) : Bytes :=
  writeVarint id ++ writeVarint value.length ++ value

/-- `append_param`. -/
def appendParam (id value : Nat) : Bytes :=
  writeVarint id ++ writeVarint (varintSize value) ++ writeVarint value

theorem appendParam_eq (id value : Nat) : appendParam id value = appendParamBytes id (writeVarint value) := by
  rw [appendParam, appendParamBytes, length_writeVarint]

namespace TransportParams

/-- `encode_transport_params`. -/
def encode (t : TransportParams) : Bytes :=
  (if t.hasOriginalDcid then appendParamBytes tp.originalDcid t.originalDcid.bytes else []) ++
  ((if t.maxIdleTimeout ≠ 0 then appendParam tp.maxIdleTimeout t.maxIdleTimeout else []) ++
  ((if t.hasResetToken then
    appendParamBytes tp.statelessResetToken t.statelessResetToken.toList else []) ++
  (appendParam tp.maxUdpPayloadSize t.maxUdpPayloadSize ++
  (appendParam tp.initialMaxData t.initialMaxData ++
  (appendParam tp.initialMaxStreamDataBidiLocal t.initialMaxStreamDataBidiLocal ++
  (appendParam tp.initialMaxStreamDataBidiRemote t.initialMaxStreamDataBidiRemote ++
  (appendParam tp.initialMaxStreamDataUni t.initialMaxStreamDataUni ++
  (appendParam tp.initialMaxStreamsBidi t.initialMaxStreamsBidi ++
  (appendParam tp.initialMaxStreamsUni t.initialMaxStreamsUni ++
  ((if t.ackDelayExponent ≠ 3 then appendParam tp.ackDelayExponent t.ackDelayExponent else []) ++
  ((if t.maxAckDelay ≠ 25 then appendParam tp.maxAckDelay t.maxAckDelay else []) ++
  ((if t.disableActiveMigration then
    writeVarint tp.disableActiveMigration ++ writeVarint 0 else []) ++
  (appendParam tp.activeConnectionIdLimit t.activeConnectionIdLimit ++
  ((if t.hasInitialScid then appendParamBytes tp.initialScid t.initialScid.bytes else []) ++
  (if t.hasRetryScid then appendParamBytes tp.retryScid t.retryScid.bytes else [])))))))))))))))

/-! ## §2. The decoder. -/

/-- `integer`: one varint that fills the value. -/
def integer (v : Bytes) : Option Nat :=
  match readVarint v v.length with
  | some (x, n) => if n = v.length then some x else none
  | none => none

/-- An integer parameter within its bounds. -/
def bounded (v : Bytes) (ok : Nat → Bool) : Option Nat := (integer v).filter ok

/-- The `switch` of `decode_transport_params` on the id. -/
def param (t : TransportParams) (id : Nat) (v : Bytes) : Option TransportParams :=
  match id with
  -- server-only
  | 0x00 => none
  | 0x02 => none
  | 0x0d => none
  | 0x10 => none
  | 0x01 => (integer v).map fun x => { t with maxIdleTimeout := x }
  | 0x03 => (bounded v fun x => !decide (x < 1200)).map fun x => { t with maxUdpPayloadSize := x }
  | 0x04 => (integer v).map fun x => { t with initialMaxData := x }
  | 0x05 => (integer v).map fun x => { t with initialMaxStreamDataBidiLocal := x }
  | 0x06 => (integer v).map fun x => { t with initialMaxStreamDataBidiRemote := x }
  | 0x07 => (integer v).map fun x => { t with initialMaxStreamDataUni := x }
  | 0x08 => (bounded v fun x => !decide (x > 2 ^ 60)).map fun x => { t with initialMaxStreamsBidi := x }
  | 0x09 => (bounded v fun x => !decide (x > 2 ^ 60)).map fun x => { t with initialMaxStreamsUni := x }
  | 0x0a => (bounded v fun x => !decide (x > 20)).map fun x => { t with ackDelayExponent := x }
  | 0x0b => (bounded v fun x => !decide (x ≥ 2 ^ 14)).map fun x => { t with maxAckDelay := x }
  | 0x0c => if v.length ≠ 0 then none else some { t with disableActiveMigration := true }
  | 0x0e => (bounded v fun x => !decide (x < 2)).map fun x => { t with activeConnectionIdLimit := x }
  | 0x0f =>
    if v.length > kMaxCidLen then none
    else some { t with initialScid := .assign v, hasInitialScid := true }
  | _ => some t

/-- What one parameter does to the bits seen and the values. -/
def accept (seen : Nat) (t : TransportParams) (id : Nat) (v : Bytes) :
    Option (Nat × TransportParams) :=
  if id < 64 then
    if seen.testBit id then none
    else (param t id v).map fun t' => (seen ||| 2 ^ id, t')
  else (param t id v).map fun t' => (seen, t')

/-- The loop of `decode_transport_params`; each pass takes at least one byte. -/
def decodeLoop : (fuel : Nat) → Bytes → (seen : Nat) → TransportParams → Option TransportParams
  | 0, _, _, _ => none
  | fuel + 1, p, seen, t =>
    if p = [] then some t
    else
      match readFrameHeader p with
      | none => none
      | some (id, len, k) =>
        if len > p.length - k then none
        else
          match accept seen t id ((p.drop k).take len) with
          | none => none
          | some (seen', t') => decodeLoop fuel (p.drop (k + len)) seen' t'

/-- `decode_transport_params`. -/
def decode (p : Bytes) (t : TransportParams) : Option TransportParams :=
  decodeLoop (p.length + 1) p 0 t

/-! ## §3. The run of parameters. -/

/-- `p` is a run of parameters, each an id and the bytes of its value. -/
inductive Params : Bytes → List (Nat × Bytes) → Prop
  | nil : Params [] []
  | cons {p : Bytes} {id len k : Nat} {es : List (Nat × Bytes)}
      (header : readFrameHeader p = some (id, len, k)) (fits : len ≤ p.length - k)
      (rest : Params (p.drop (k + len)) es) : Params p ((id, (p.drop k).take len) :: es)

/-- The loop over parameters already cut apart. -/
def absorb : List (Nat × Bytes) → (seen : Nat) → TransportParams → Option TransportParams
  | [], _, t => some t
  | (id, v) :: es, seen, t =>
    match accept seen t id v with
    | none => none
    | some (seen', t') => absorb es seen' t'

variable {id x : Nat} {t t' : TransportParams} {e : Nat × Bytes}

theorem readFrameHeader_le {p : Bytes} {len k : Nat} (h : readFrameHeader p = some (id, len, k)) :
    0 < k ∧ k ≤ p.length :=
  frameHeader.le_length h

/-- **The loop** cuts the parameters apart and takes them one by one. -/
theorem decodeLoop_iff {fuel : Nat} {p : Bytes} {seen : Nat} (hfuel : p.length < fuel) :
    decodeLoop fuel p seen t = some t' ↔ ∃ es, Params p es ∧ absorb es seen t = some t' := by
  induction fuel generalizing p seen t with
  | zero => omega
  | succ fuel ih =>
    unfold decodeLoop
    by_cases hnil : p = []
    · subst hnil
      rw [if_pos rfl]
      constructor
      · intro h
        exact ⟨[], .nil, h⟩
      · intro h
        obtain ⟨es, hp, habsorb⟩ := h
        cases hp with
        | nil => exact habsorb
        | cons header _ _ => simp [readFrameHeader, readVarint] at header
    · rw [if_neg hnil]
      cases hh : readFrameHeader p with
      | none =>
        constructor
        · intro h
          simp at h
        · intro h
          obtain ⟨es, hp, -⟩ := h
          cases hp with
          | nil => exact absurd rfl hnil
          | cons header _ _ => cases hh.symm.trans header
      | some x =>
        obtain ⟨id, len, k⟩ := x
        dsimp only
        have hk := readFrameHeader_le hh
        -- the parameters of `p` are this one and those of the rest
        have hcut : ∀ es, Params p es ↔ len ≤ p.length - k ∧
            ∃ es', es = (id, (p.drop k).take len) :: es' ∧ Params (p.drop (k + len)) es' := by
          intro es
          constructor
          · intro hp
            cases hp with
            | nil => exact absurd rfl hnil
            | cons header fits rest =>
              obtain ⟨rfl, rfl, rfl⟩ : id = _ ∧ len = _ ∧ k = _ := by
                simpa using hh.symm.trans header
              exact ⟨fits, _, rfl, rest⟩
          · intro h
            obtain ⟨fits, es', rfl, rest⟩ := h
            exact .cons hh fits rest
        by_cases hlen : len > p.length - k
        · rw [if_pos hlen]
          constructor
          · intro h
            simp at h
          · intro h
            obtain ⟨es, hp, -⟩ := h
            have := ((hcut es).mp hp).1
            omega
        · rw [if_neg hlen]
          have hshort : (p.drop (k + len)).length < fuel := by
            rw [List.length_drop]
            omega
          cases ha : accept seen t id ((p.drop k).take len) with
          | none =>
            constructor
            · intro h
              simp at h
            · intro h
              obtain ⟨es, hp, habsorb⟩ := h
              obtain ⟨-, es', rfl, -⟩ := (hcut es).mp hp
              simp only [absorb, ha] at habsorb
              simp at habsorb
          | some y =>
            obtain ⟨seen', t₁⟩ := y
            rw [ih hshort]
            constructor
            · intro h
              obtain ⟨es', hp, habsorb⟩ := h
              refine ⟨_, (hcut _).mpr ⟨by omega, es', rfl, hp⟩, ?_⟩
              simp only [absorb, ha]
              exact habsorb
            · intro h
              obtain ⟨es, hp, habsorb⟩ := h
              obtain ⟨-, es', rfl, hp'⟩ := (hcut es).mp hp
              simp only [absorb, ha] at habsorb
              exact ⟨es', hp', habsorb⟩

/-! ## §4. What a parameter may be. -/

/-- The parameters only a server declares. -/
def ServerOnly (id : Nat) : Prop :=
  id = tp.originalDcid ∨ id = tp.statelessResetToken ∨ id = tp.preferredAddress ∨ id = tp.retryScid

/-- The parameters that are numbers. -/
def IntegerId (id : Nat) : Prop :=
  id = tp.maxIdleTimeout ∨ id = tp.maxUdpPayloadSize ∨ id = tp.initialMaxData ∨
  id = tp.initialMaxStreamDataBidiLocal ∨ id = tp.initialMaxStreamDataBidiRemote ∨
  id = tp.initialMaxStreamDataUni ∨ id = tp.initialMaxStreamsBidi ∨ id = tp.initialMaxStreamsUni ∨
  id = tp.ackDelayExponent ∨ id = tp.maxAckDelay ∨ id = tp.activeConnectionIdLimit

/-- The range of a number (RFC 9000 18.2). -/
def InRange (id x : Nat) : Prop :=
  (id = tp.maxUdpPayloadSize → 1200 ≤ x) ∧
  (id = tp.initialMaxStreamsBidi → x ≤ 2 ^ 60) ∧
  (id = tp.initialMaxStreamsUni → x ≤ 2 ^ 60) ∧
  (id = tp.ackDelayExponent → x ≤ 20) ∧
  (id = tp.maxAckDelay → x < 2 ^ 14) ∧
  (id = tp.activeConnectionIdLimit → 2 ≤ x)

/-- The value is one varint, whole. -/
def IsVarint (v : Bytes) (x : Nat) : Prop := readVarint v v.length = some (x, v.length)

/-- A parameter a client may declare, an unknown one among them. -/
structure Legal (e : Nat × Bytes) : Prop where
  client : ¬ ServerOnly e.1
  number : IntegerId e.1 → ∃ x, IsVarint e.2 x ∧ InRange e.1 x
  flag : e.1 = tp.disableActiveMigration → e.2 = []
  short : e.1 = tp.initialScid → e.2.length ≤ kMaxCidLen

/-- The ids the decoder knows. -/
def known (id : Nat) : Bool := decide (id ≤ tp.retryScid)

theorem integer_iff (v : Bytes) (x : Nat) : integer v = some x ↔ IsVarint v x := by
  unfold integer IsVarint
  cases h : readVarint v v.length with
  | none => simp
  | some y =>
    obtain ⟨z, n⟩ := y
    by_cases hn : n = v.length
    · simp [hn]
    · simp [hn]

theorem integer_isSome (v : Bytes) : (integer v).isSome ↔ ∃ x, IsVarint v x := by
  rw [Option.isSome_iff_exists]
  exact exists_congr fun x => integer_iff v x

theorem bounded_isSome (v : Bytes) (ok : Nat → Bool) :
    (bounded v ok).isSome ↔ ∃ x, IsVarint v x ∧ ok x = true := by
  unfold bounded
  rw [Option.isSome_iff_exists]
  apply exists_congr
  intro x
  rw [Option.filter_eq_some_iff, integer_iff]

theorem legal_number (h : IntegerId id) (v : Bytes) : Legal (id, v) ↔ ∃ x, IsVarint v x ∧ InRange id x := by
  constructor
  · intro hl
    exact hl.number h
  · intro hx
    refine ⟨?_, fun _ => hx, ?_, ?_⟩
    · obtain rfl | rfl | rfl | rfl | rfl | rfl | rfl | rfl | rfl | rfl | rfl := h <;>
        simp [ServerOnly]
    · obtain rfl | rfl | rfl | rfl | rfl | rfl | rfl | rfl | rfl | rfl | rfl := h <;> simp
    · obtain rfl | rfl | rfl | rfl | rfl | rfl | rfl | rfl | rfl | rfl | rfl := h <;> simp

theorem not_legal_serverOnly (h : ServerOnly id) (v : Bytes) : ¬ Legal (id, v) := by
  intro hl
  exact hl.client h

/-- The numbers without a range of their own. -/
theorem isSome_integer (h : IntegerId id) (hany : ∀ x, InRange id x) (v : Bytes) :
    (integer v).isSome ↔ Legal (id, v) := by
  rw [integer_isSome, legal_number h]
  exact exists_congr fun x => ⟨fun hx => ⟨hx, hany x⟩, fun hx => hx.1⟩

/-- The numbers with one. -/
theorem isSome_bounded (h : IntegerId id) {ok : Nat → Bool}
    (hrange : ∀ x, ok x = true ↔ InRange id x) (v : Bytes) : (bounded v ok).isSome ↔ Legal (id, v) := by
  rw [bounded_isSome, legal_number h]
  exact exists_congr fun x => and_congr_right' (hrange x)

/-- **A parameter is taken** exactly when it is legal. -/
theorem param_isSome (t : TransportParams) (id : Nat) (v : Bytes) :
    (param t id v).isSome ↔ Legal (id, v) := by
  unfold param
  split
  iterate 4 exact iff_of_false (by simp) (not_legal_serverOnly (by simp [ServerOnly]) v)
  iterate 10
    rw [Option.isSome_map]
    first
      | exact isSome_integer (by simp [IntegerId]) (by simp [InRange]) v
      | exact isSome_bounded (by simp [IntegerId]) (by simp [InRange]) v
  · -- the flag has no value
    constructor
    · intro h
      refine ⟨by simp [ServerOnly], by simp [IntegerId], fun _ => ?_, by simp⟩
      by_contra hne
      rw [if_pos (by simpa using hne)] at h
      simp at h
    · intro h
      have hv : v = [] := h.flag rfl
      simp [hv]
  · rw [Option.isSome_map]
    refine isSome_bounded (by simp [IntegerId]) (fun x => ?_) v
    rw [Bool.not_eq_true', decide_eq_false_iff_not, Nat.not_lt]
    exact ⟨fun h => ⟨nofun, nofun, nofun, nofun, nofun, fun _ => h⟩, fun h => h.2.2.2.2.2 rfl⟩
  · -- the id of the peer
    constructor
    · intro h
      refine ⟨by simp [ServerOnly], by simp [IntegerId], by simp, fun _ => ?_⟩
      by_contra hlong
      rw [if_pos (by simpa using hlong)] at h
      simp at h
    · intro h
      have hv : v.length ≤ kMaxCidLen := h.short rfl
      rw [if_neg (by omega)]
      rfl
  · -- an unknown id
    apply iff_of_true rfl
    simp only [imp_false] at *
    refine ⟨?_, ?_, ?_, ?_⟩
    · show ¬ (id = 0 ∨ id = 2 ∨ id = 13 ∨ id = 16)
      omega
    · show (id = 1 ∨ id = 3 ∨ id = 4 ∨ id = 5 ∨ id = 6 ∨ id = 7 ∨ id = 8 ∨ id = 9 ∨ id = 10 ∨
        id = 11 ∨ id = 14) → _
      omega
    · show id = 12 → _
      omega
    · show id = 15 → _
      omega

theorem param_unknown (t : TransportParams) (h : known id = false) (v : Bytes) : param t id v = some t := by
  have hid : 0x10 < id := by simpa [known] using h
  unfold param
  split <;> first | rfl | omega

/-! ## §5. What is accepted. -/

/-- A parameter taken. -/
def assign (t : TransportParams) (e : Nat × Bytes) : TransportParams := (param t e.1 e.2).getD t

theorem param_eq (t : TransportParams) (e : Nat × Bytes) (h : Legal e) :
    param t e.1 e.2 = some (assign t e) := by
  obtain ⟨t', ht⟩ := Option.isSome_iff_exists.mp ((param_isSome t e.1 e.2).mpr h)
  rw [assign, ht]
  rfl

theorem param_none (t : TransportParams) (e : Nat × Bytes) (h : ¬ Legal e) : param t e.1 e.2 = none := by
  rw [← Option.not_isSome_iff_eq_none, param_isSome]
  exact h

/-- The ids that have a bit. -/
def marks (es : List (Nat × Bytes)) : List Nat := (es.map (·.1)).filter fun id => decide (id < 64)

theorem testBit_mark (seen : Nat) (id i : Nat) :
    (seen ||| 2 ^ id).testBit i = true ↔ seen.testBit i = true ∨ i = id := by
  rw [Nat.testBit_or, Nat.testBit_two_pow, Bool.or_eq_true, decide_eq_true_eq]
  exact or_congr_right eq_comm

/-- **The parameters are taken** when each is legal and no id below 64 is there twice. -/
theorem absorb_iff (es : List (Nat × Bytes)) (seen : Nat) (t t' : TransportParams) :
    absorb es seen t = some t' ↔
      (∀ e ∈ es, Legal e) ∧ (∀ id ∈ marks es, seen.testBit id = false) ∧ (marks es).Nodup ∧
      t' = es.foldl assign t := by
  induction es generalizing seen t with
  | nil =>
    simp only [absorb, marks, List.map_nil, List.filter_nil, List.not_mem_nil, false_imp_iff,
      implies_true, List.nodup_nil, List.foldl_nil, true_and, Option.some.injEq]
    exact eq_comm
  | cons e es ih =>
    obtain ⟨id, v⟩ := e
    by_cases hl : Legal (id, v)
    · have hp := param_eq t (id, v) hl
      by_cases hid : id < 64
      · have hmarks : marks ((id, v) :: es) = id :: marks es := by
          simp [marks, hid]
        by_cases hseen : seen.testBit id = true
        · have hnone : absorb ((id, v) :: es) seen t = none := by
            simp only [absorb, accept, if_pos hid, if_pos hseen]
          rw [hnone, hmarks]
          constructor
          · intro h
            simp at h
          · intro h
            have := h.2.1 id (.head _)
            rw [hseen] at this
            simp at this
        · have hstep : absorb ((id, v) :: es) seen t =
              absorb es (seen ||| 2 ^ id) (assign t (id, v)) := by
            simp only [absorb, accept, if_pos hid, if_neg hseen, hp, Option.map_some]
          rw [hstep, ih, hmarks, List.nodup_cons, List.foldl_cons]
          constructor
          · intro h
            obtain ⟨hlegal, hfree, hnodup, ht⟩ := h
            refine ⟨?_, ?_, ⟨?_, hnodup⟩, ht⟩
            · intro e he
              rcases List.mem_cons.mp he with rfl | he
              · exact hl
              · exact hlegal e he
            · intro i hi
              rcases List.mem_cons.mp hi with rfl | hi
              · simpa using hseen
              have := hfree i hi
              simp only [← Bool.not_eq_true, testBit_mark, not_or] at this ⊢
              exact this.1
            · intro hmem
              have := hfree id hmem
              rw [← Bool.not_eq_true, testBit_mark] at this
              exact this (.inr rfl)
          · intro h
            obtain ⟨hlegal, hfree, ⟨hnew, hnodup⟩, ht⟩ := h
            refine ⟨fun e he => hlegal e (.tail _ he), ?_, hnodup, ht⟩
            intro i hi
            rw [← Bool.not_eq_true, testBit_mark, not_or]
            refine ⟨?_, ?_⟩
            · have := hfree i (.tail _ hi)
              simpa using this
            · intro heq
              exact hnew (heq ▸ hi)
      · have hmarks : marks ((id, v) :: es) = marks es := by
          simp [marks, hid]
        have hstep : absorb ((id, v) :: es) seen t = absorb es seen (assign t (id, v)) := by
          simp only [absorb, accept, if_neg hid, hp, Option.map_some]
        rw [hstep, ih, hmarks, List.foldl_cons]
        constructor
        · intro h
          refine ⟨?_, h.2⟩
          intro e he
          rcases List.mem_cons.mp he with rfl | he
          · exact hl
          · exact h.1 e he
        · intro h
          exact ⟨fun e he => h.1 e (.tail _ he), h.2⟩
    · have hp := param_none t (id, v) hl
      have hnone : absorb ((id, v) :: es) seen t = none := by
        simp only [absorb, accept, hp, Option.map_none, ite_self]
      rw [hnone]
      constructor
      · intro h
        simp at h
      · intro h
        exact absurd (h.1 _ List.mem_cons_self) hl

/-- The unknown parameters are skipped. -/
theorem foldl_known (es : List (Nat × Bytes)) (t : TransportParams) :
    es.foldl assign t = (es.filter fun e => known e.1).foldl assign t := by
  induction es generalizing t with
  | nil => rfl
  | cons e es ih =>
    cases hk : known e.1 with
    | true =>
      simp only [List.filter_cons, hk, if_true, List.foldl_cons]
      exact ih _
    | false =>
      have hsame : assign t e = t := by
        rw [assign, param_unknown t hk]
        rfl
      simp only [List.filter_cons, hk, Bool.false_eq_true, if_false, List.foldl_cons, hsame]
      exact ih t

/-- **What is accepted**: a run of legal parameters, no id below 64 twice; the values are those of
the parameters known. -/
theorem decode_iff (p : Bytes) (t t' : TransportParams) :
    decode p t = some t' ↔ ∃ es, Params p es ∧ (∀ e ∈ es, Legal e) ∧ (marks es).Nodup ∧
      t' = (es.filter fun e => known e.1).foldl assign t := by
  unfold decode
  rw [decodeLoop_iff (Nat.lt_succ_self _)]
  apply exists_congr
  intro es
  rw [absorb_iff, foldl_known]
  simp only [Nat.zero_testBit, implies_true, true_and]

/-! ## §6. What a client declares is read back. -/

/-- Every value within its range; a length of twenty bytes is in the type of an id. -/
structure Proper (t : TransportParams) : Prop where
  idle : t.maxIdleTimeout ≤ kVarintMax
  payload : 1200 ≤ t.maxUdpPayloadSize ∧ t.maxUdpPayloadSize ≤ kVarintMax
  data : t.initialMaxData ≤ kVarintMax
  bidiLocal : t.initialMaxStreamDataBidiLocal ≤ kVarintMax
  bidiRemote : t.initialMaxStreamDataBidiRemote ≤ kVarintMax
  uni : t.initialMaxStreamDataUni ≤ kVarintMax
  streamsBidi : t.initialMaxStreamsBidi ≤ 2 ^ 60
  streamsUni : t.initialMaxStreamsUni ≤ 2 ^ 60
  exponent : t.ackDelayExponent ≤ 20
  delay : t.maxAckDelay < 2 ^ 14
  limit : 2 ≤ t.activeConnectionIdLimit ∧ t.activeConnectionIdLimit ≤ kVarintMax

/-- None of the fields only a server declares. -/
def ClientOnly (t : TransportParams) : Prop :=
  t.hasOriginalDcid = false ∧ t.hasResetToken = false ∧ t.hasRetryScid = false

/-- The values declared: the fields that are not are at their defaults. -/
def declared (t : TransportParams) : TransportParams :=
  { t with
    originalDcid := .empty, hasOriginalDcid := false
    statelessResetToken := .replicate 16 0, hasResetToken := false
    initialScid := if t.hasInitialScid then t.initialScid else .empty
    retryScid := .empty, hasRetryScid := false }

/-- What a client writes, in order: whether it is written, the id and the value. -/
def items (t : TransportParams) : List (Bool × Nat × Bytes) :=
  [(decide (t.maxIdleTimeout ≠ 0), tp.maxIdleTimeout, writeVarint t.maxIdleTimeout),
   (true, tp.maxUdpPayloadSize, writeVarint t.maxUdpPayloadSize),
   (true, tp.initialMaxData, writeVarint t.initialMaxData),
   (true, tp.initialMaxStreamDataBidiLocal, writeVarint t.initialMaxStreamDataBidiLocal),
   (true, tp.initialMaxStreamDataBidiRemote, writeVarint t.initialMaxStreamDataBidiRemote),
   (true, tp.initialMaxStreamDataUni, writeVarint t.initialMaxStreamDataUni),
   (true, tp.initialMaxStreamsBidi, writeVarint t.initialMaxStreamsBidi),
   (true, tp.initialMaxStreamsUni, writeVarint t.initialMaxStreamsUni),
   (decide (t.ackDelayExponent ≠ 3), tp.ackDelayExponent, writeVarint t.ackDelayExponent),
   (decide (t.maxAckDelay ≠ 25), tp.maxAckDelay, writeVarint t.maxAckDelay),
   (t.disableActiveMigration, tp.disableActiveMigration, []),
   (true, tp.activeConnectionIdLimit, writeVarint t.activeConnectionIdLimit),
   (t.hasInitialScid, tp.initialScid, t.initialScid.bytes)]

/-- The parameters written. -/
def written (l : List (Bool × Nat × Bytes)) : List (Nat × Bytes) := (l.filter (·.1)).map (·.2)

def flatten (l : List (Bool × Nat × Bytes)) : Bytes :=
  (written l).flatMap fun e => appendParamBytes e.1 e.2

theorem flatten_cons (b : Bool) (e : Nat × Bytes) (l : List (Bool × Nat × Bytes)) :
    flatten ((b, e) :: l) = (if b then appendParamBytes e.1 e.2 else []) ++ flatten l := by
  cases b <;> rfl

theorem encode_eq (h : ClientOnly t) : t.encode = flatten (items t) := by
  obtain ⟨hd, ht, hr⟩ := h
  unfold encode
  simp only [hd, ht, hr, Bool.false_eq_true, if_false, List.nil_append]
  simp only [items, flatten_cons, if_true, ← appendParam_eq, decide_eq_true_eq]
  simp only [appendParamBytes, flatten, written, List.filter_nil, List.map_nil, List.flatMap_nil,
    List.length_nil, List.append_nil]

/-- A written parameter is cut off as it was written. -/
theorem params_write {v rest : Bytes} {es : List (Nat × Bytes)} (hid : id ≤ kVarintMax)
    (hv : v.length ≤ kVarintMax) (h : Params rest es) :
    Params (appendParamBytes id v ++ rest) ((id, v) :: es) := by
  have hhead : readFrameHeader (appendParamBytes id v ++ rest) =
      some (id, v.length, varintSize id + varintSize v.length) := by
    unfold readFrameHeader appendParamBytes
    rw [List.append_assoc, List.append_assoc, readVarint_writeVarint hid _ (by simp)]
    dsimp only
    rw [List.drop_left' (length_writeVarint id), readVarint_writeVarint hv _ (by simp)]
  have hsplit : appendParamBytes id v ++ rest = (writeVarint id ++ writeVarint v.length) ++ (v ++ rest) := by
    simp [appendParamBytes]
  have hlen : (writeVarint id ++ writeVarint v.length).length = varintSize id + varintSize v.length := by
    simp
  have hdrop : (appendParamBytes id v ++ rest).drop (varintSize id + varintSize v.length) = v ++ rest := by
    rw [hsplit, List.drop_left' hlen]
  have hrest : (appendParamBytes id v ++ rest).drop (varintSize id + varintSize v.length + v.length) =
      rest := by
    rw [← List.drop_drop, hdrop, List.drop_left]
  have hvalue : ((appendParamBytes id v ++ rest).drop (varintSize id + varintSize v.length)).take
      v.length = v := by
    rw [hdrop, List.take_left]
  have hcons := @Params.cons _ _ _ _ es hhead (by rw [hsplit]; simp; omega) (by rw [hrest]; exact h)
  rw [hvalue] at hcons
  exact hcons

theorem params_flatMap {es : List (Nat × Bytes)} (h : ∀ e ∈ es, e.1 ≤ kVarintMax ∧ e.2.length ≤ kVarintMax) :
    Params (es.flatMap fun e => appendParamBytes e.1 e.2) es := by
  induction es with
  | nil => exact .nil
  | cons e es ih =>
    rw [List.flatMap_cons]
    have he := h e List.mem_cons_self
    exact params_write he.1 he.2 (ih fun e he => h e (.tail _ he))

theorem isVarint_write (h : x ≤ kVarintMax) : IsVarint (writeVarint x) x := by
  have := readVarint_writeVarint h [] le_rfl
  rw [List.append_nil] at this
  rw [IsVarint, length_writeVarint]
  exact this

theorem integer_write (h : x ≤ kVarintMax) : integer (writeVarint x) = some x :=
  (integer_iff _ _).mpr (isVarint_write h)

theorem legal_write (h : IntegerId id) (hx : x ≤ kVarintMax) (hr : InRange id x) :
    Legal (id, writeVarint x) :=
  (legal_number h _).mpr ⟨x, isVarint_write hx, hr⟩

theorem legal_items (h : Proper t) : ∀ e ∈ items t, Legal e.2 := by
  have hmax : 2 ^ 60 ≤ kVarintMax := by decide
  have hsb := h.streamsBidi
  have hsu := h.streamsUni
  have he := h.exponent
  have hd := h.delay
  intro e hmem
  simp only [items, List.mem_cons, List.not_mem_nil, or_false] at hmem
  obtain rfl | rfl | rfl | rfl | rfl | rfl | rfl | rfl | rfl | rfl | rfl | rfl | rfl := hmem
  · exact legal_write (by simp [IntegerId]) h.idle (by simp [InRange])
  · exact legal_write (by simp [IntegerId]) h.payload.2 (by simp [InRange, h.payload.1])
  · exact legal_write (by simp [IntegerId]) h.data (by simp [InRange])
  · exact legal_write (by simp [IntegerId]) h.bidiLocal (by simp [InRange])
  · exact legal_write (by simp [IntegerId]) h.bidiRemote (by simp [InRange])
  · exact legal_write (by simp [IntegerId]) h.uni (by simp [InRange])
  · exact legal_write (by simp [IntegerId]) (by omega) (by simpa [InRange] using hsb)
  · exact legal_write (by simp [IntegerId]) (by omega) (by simpa [InRange] using hsu)
  · exact legal_write (by simp [IntegerId]) (by omega) (by simpa [InRange] using he)
  · exact legal_write (by simp [IntegerId]) (by omega) (by simpa [InRange] using hd)
  · exact ⟨by simp [ServerOnly], by simp [IntegerId], fun _ => rfl, by simp⟩
  · exact legal_write (by simp [IntegerId]) h.limit.2 (by simp [InRange, h.limit.1])
  · exact ⟨by simp [ServerOnly], by simp [IntegerId], by simp, fun _ => t.initialScid.short⟩

theorem length_items (t : TransportParams) : ∀ e ∈ items t, e.2.1 ≤ kVarintMax ∧ e.2.2.length ≤ kVarintMax := by
  have hsize : ∀ x, varintSize x ≤ kVarintMax := by
    intro x
    have := varintSize_cases x
    unfold kVarintMax
    omega
  have hscid : t.initialScid.bytes.length ≤ kVarintMax :=
    Nat.le_trans t.initialScid.short (by decide)
  intro e hmem
  simp only [items, List.mem_cons, List.not_mem_nil, or_false] at hmem
  obtain rfl | rfl | rfl | rfl | rfl | rfl | rfl | rfl | rfl | rfl | rfl | rfl | rfl := hmem
  all_goals
    refine ⟨Nat.le_of_ble_eq_true rfl, ?_⟩
    first
      | exact hscid
      | exact Nat.zero_le _
      | rw [length_writeVarint]; exact hsize _

theorem mem_written {l : List (Bool × Nat × Bytes)} (h : e ∈ written l) : ∃ x ∈ l, x.2 = e := by
  obtain ⟨x, hx, rfl⟩ := List.mem_map.mp h
  exact ⟨x, (List.mem_filter.mp hx).1, rfl⟩

/-- The ids written go up. -/
theorem marks_written (t : TransportParams) : (marks (written (items t))).Nodup := by
  have hall : ((items t).map fun x => x.2.1).Nodup := by
    show [0x01, 0x03, 0x04, 0x05, 0x06, 0x07, 0x08, 0x09, 0x0a, 0x0b, 0x0c, 0x0e, 0x0f].Nodup
    decide
  have hsub : ((written (items t)).map (·.1)).Sublist ((items t).map fun x => x.2.1) := by
    rw [written, List.map_map]
    exact List.filter_sublist.map _
  exact (hall.sublist hsub).filter _

/-- One thing a client may write, taken. -/
def pick (t : TransportParams) (x : Bool × Nat × Bytes) : TransportParams :=
  if x.1 then assign t x.2 else t

theorem foldl_written (l : List (Bool × Nat × Bytes)) (t : TransportParams) :
    (written l).foldl assign t = l.foldl pick t := by
  induction l generalizing t with
  | nil => rfl
  | cons x l ih =>
    obtain ⟨b, e⟩ := x
    cases b with
    | true => exact ih (assign t e)
    | false => exact ih t

theorem pick_true (t : TransportParams) (e : Nat × Bytes) : pick t (true, e) = assign t e := rfl

/-- A number always written is set. -/
theorem pick_param (h : param t e.1 e.2 = some t') : pick t (true, e) = t' := by
  simp [pick, assign, h]

/-- A number written when it is not the default is set in any case. -/
theorem pick_optional {c : Prop} [Decidable c]
    (h : param t e.1 e.2 = some t') (hdefault : ¬ c → t = t') : pick t (decide c, e) = t' := by
  by_cases hc : c
  · rw [decide_eq_true hc]
    exact pick_param h
  simp only [pick, decide_eq_false hc, Bool.false_eq_true, if_false]
  exact hdefault hc

theorem bounded_write {ok : Nat → Bool} (h : x ≤ kVarintMax) (hok : ok x = true) :
    bounded (writeVarint x) ok = some x := by
  rw [bounded, integer_write h, Option.filter_some, if_pos hok]

/-- **Round trip.**  What a client declares is read back. -/
theorem decode_encode (h : Proper t) (hclient : ClientOnly t) : decode t.encode {} = some (declared t) := by
  have hmax : 2 ^ 60 ≤ kVarintMax := by decide
  have hpay := h.payload.1
  have hsb := h.streamsBidi
  have hsu := h.streamsUni
  have he := h.exponent
  have hd := h.delay
  have hlim := h.limit.1
  rw [decode_iff]
  refine ⟨written (items t), ?_, ?_, marks_written t, ?_⟩
  · rw [encode_eq hclient]
    apply params_flatMap
    intro e he
    obtain ⟨x, hx, rfl⟩ := mem_written he
    exact length_items t x hx
  · intro e he
    obtain ⟨x, hx, rfl⟩ := mem_written he
    exact legal_items h x hx
  · rw [← foldl_known, foldl_written]
    have wpay : (bounded (writeVarint t.maxUdpPayloadSize) fun x => !decide (x < 1200)) =
        some t.maxUdpPayloadSize := bounded_write h.payload.2 (by simpa using hpay)
    have wsb : (bounded (writeVarint t.initialMaxStreamsBidi) fun x => !decide (x > 2 ^ 60)) =
        some t.initialMaxStreamsBidi := bounded_write (hsb.trans hmax) (by simpa using hsb)
    have wsu : (bounded (writeVarint t.initialMaxStreamsUni) fun x => !decide (x > 2 ^ 60)) =
        some t.initialMaxStreamsUni := bounded_write (hsu.trans hmax) (by simpa using hsu)
    have wexp : (bounded (writeVarint t.ackDelayExponent) fun x => !decide (x > 20)) =
        some t.ackDelayExponent := bounded_write (Nat.le_trans he (by decide)) (by simpa using he)
    have wdel : (bounded (writeVarint t.maxAckDelay) fun x => !decide (x ≥ 2 ^ 14)) =
        some t.maxAckDelay := bounded_write (Nat.le_trans hd.le (by decide)) (by simpa using hd)
    have wlim : (bounded (writeVarint t.activeConnectionIdLimit) fun x => !decide (x < 2)) =
        some t.activeConnectionIdLimit := bounded_write h.limit.2 (by simp; omega)
    -- each field in turn, from the defaults on
    have idle : ∀ t₀ : TransportParams, t₀.maxIdleTimeout = 0 →
        pick t₀ (decide (t.maxIdleTimeout ≠ 0), tp.maxIdleTimeout, writeVarint t.maxIdleTimeout) =
          { t₀ with maxIdleTimeout := t.maxIdleTimeout } := by
      intro t₀ h₀
      have hset : param t₀ tp.maxIdleTimeout (writeVarint t.maxIdleTimeout) =
          some { t₀ with maxIdleTimeout := t.maxIdleTimeout } := by
        simp only [param, integer_write h.idle, Option.map_some]
      apply pick_optional hset
      intro hc
      rw [not_not.mp hc, ← h₀]
    have exponent : ∀ t₀ : TransportParams, t₀.ackDelayExponent = 3 →
        pick t₀ (decide (t.ackDelayExponent ≠ 3), tp.ackDelayExponent, writeVarint t.ackDelayExponent) =
          { t₀ with ackDelayExponent := t.ackDelayExponent } := by
      intro t₀ h₀
      have hset : param t₀ tp.ackDelayExponent (writeVarint t.ackDelayExponent) =
          some { t₀ with ackDelayExponent := t.ackDelayExponent } := by
        simp only [param, wexp, Option.map_some]
      apply pick_optional hset
      intro hc
      rw [not_not.mp hc, ← h₀]
    have delay : ∀ t₀ : TransportParams, t₀.maxAckDelay = 25 →
        pick t₀ (decide (t.maxAckDelay ≠ 25), tp.maxAckDelay, writeVarint t.maxAckDelay) =
          { t₀ with maxAckDelay := t.maxAckDelay } := by
      intro t₀ h₀
      have hset : param t₀ tp.maxAckDelay (writeVarint t.maxAckDelay) =
          some { t₀ with maxAckDelay := t.maxAckDelay } := by
        simp only [param, wdel, Option.map_some]
      apply pick_optional hset
      intro hc
      rw [not_not.mp hc, ← h₀]
    have flag : ∀ t₀ : TransportParams, t₀.disableActiveMigration = false →
        pick t₀ (t.disableActiveMigration, tp.disableActiveMigration, []) =
          { t₀ with disableActiveMigration := t.disableActiveMigration } := by
      intro t₀ h₀
      cases hf : t.disableActiveMigration with
      | true => exact pick_param rfl
      | false =>
        show t₀ = _
        rw [← h₀]
    have scid : ∀ t₀ : TransportParams, t₀.initialScid = .empty → t₀.hasInitialScid = false →
        pick t₀ (t.hasInitialScid, tp.initialScid, t.initialScid.bytes) =
          { t₀ with
            initialScid := if t.hasInitialScid then t.initialScid else .empty
            hasInitialScid := t.hasInitialScid } := by
      intro t₀ hempty h₀
      have hshort : ¬ t.initialScid.bytes.length > kMaxCidLen := Nat.not_lt.mpr t.initialScid.short
      cases hs : t.hasInitialScid with
      | true =>
        apply pick_param
        simp only [param, if_neg hshort, PacketCid.assign_bytes, if_true]
      | false =>
        show t₀ = _
        rw [if_neg (by simp), ← hempty, ← h₀]
    -- the others are always written
    simp only [items, List.foldl_cons, List.foldl_nil, idle, exponent, delay, flag, scid, pick_true,
      assign, param, wpay, wsb, wsu, wlim, integer_write h.data, integer_write h.bidiLocal,
      integer_write h.bidiRemote, integer_write h.uni, Option.map_some, Option.getD_some]
    rfl

/-- **Transport parameters.**  What a client may declare is read back; and what is accepted, from
any values, is a run of parameters, each id below 64 at most once, none that only a server sends,
each number one varint within its range, the flag empty, the id at most twenty bytes; the unknown
ones change nothing. -/
theorem transport_params :
    (∀ t : TransportParams, Proper t → ClientOnly t → decode t.encode {} = some (declared t)) ∧
    (∀ (p : Bytes) (t t' : TransportParams), decode p t = some t' ↔
      ∃ es, Params p es ∧ (∀ e ∈ es, Legal e) ∧ (marks es).Nodup ∧
        t' = (es.filter fun e => known e.1).foldl assign t) ∧
    (∀ (t : TransportParams) (id : Nat) (v : Bytes), tp.retryScid < id →
      Legal (id, v) ∧ assign t (id, v) = t) := by
  refine ⟨fun t h hclient => decode_encode h hclient, decode_iff, ?_⟩
  intro t id v hid
  have hk : known id = false := by
    rw [known, decide_eq_false_iff_not]
    omega
  have hp := param_unknown t hk v
  constructor
  · rw [← param_isSome t, hp]
    rfl
  · rw [assign, hp]
    rfl

/-- A client's parameters as an implementation declares them. -/
theorem transport_params_client : let t : TransportParams :=
      { maxIdleTimeout := 30000, initialMaxData := 1048576, maxAckDelay := 20
        initialScid := ⟨[1, 2, 3, 4], by decide⟩, hasInitialScid := true }
    decode t.encode {} = some t :=
  transport_params.1 _
    ⟨by decide, ⟨by decide, by decide⟩, by decide, by decide, by decide, by decide, by decide,
      by decide, by decide, by decide, ⟨by decide, by decide⟩⟩ ⟨rfl, rfl, rfl⟩

/-- An unknown parameter that is there twice is refused, where its id is below 64. -/
theorem unknown_twice : ∃ p es, Params p es ∧ (∀ e ∈ es, known e.1 = false) ∧ ∀ t, decode p t = none :=
  ⟨[0x3f, 0, 0x3f, 0], [(0x3f, []), (0x3f, [])],
    @Params.cons _ 0x3f 0 2 _ rfl (by decide) (@Params.cons _ 0x3f 0 2 _ rfl (by decide) .nil),
    by decide, fun _ => rfl⟩

end TransportParams

end Agensio.Quic
