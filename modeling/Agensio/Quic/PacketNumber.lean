/-
  Agensio.Quic.PacketNumber — truncated packet numbers.

  Model of `pn_length`, `write_pn` and `decode_pn` (`quic/packet.hpp`) on
  64-bit words, and of the loop of `receive` that reads the bytes back
  (`quic/connection.hpp`).  A sender writes as many low bytes as twice the
  number of packets in flight needs, and a receiver takes the number with
  those low bytes that is nearest to the next one it expects.

  Main results:
    * `packet_number_recovered` — a receiver that is not too far ahead reads
      the number that was sent, and always one of 62 bits.
-/
import Agensio.Bytes
import Mathlib.Data.Nat.Bitwise
import Mathlib.Tactic.Ring

namespace Agensio.Quic.PacketNumber

/-! ## §1. The words. -/

/-- `pn_length`. -/
def pnLength (pn largestAcked : UInt64) (anyAcked : Bool) : Nat :=
  let unacked := if anyAcked then pn - largestAcked else pn + 1
  -- at least twice the number in flight
  let range := unacked * 2 + 1
  if range < 0x100 then 1
  else if range < 0x10000 then 2
  else if range < 0x1000000 then 3
  else 4

/-- `write_pn`. -/
def writePn (pn : UInt64) (len : Nat) : Bytes :=
  (List.range len).map fun i => (pn >>> UInt64.ofNat (8 * (len - 1 - i))).toUInt8

/-- The loop of `receive` over the bytes of a number. -/
def readTruncated (stored : Bytes) : UInt64 := stored.foldl (fun t b => (t <<< 8) ||| b.toUInt64) 0

/-- The number with the high bits of `expected`. -/
def candidate (expected truncated : UInt64) (pnBits : Nat) : UInt64 :=
  let mask := ((1 : UInt64) <<< UInt64.ofNat pnBits) - 1
  (expected &&& ~~~mask) ||| truncated

/-- `decode_pn`. -/
def decodePn (largestReceived : UInt64) (anyReceived : Bool) (truncated : UInt64) (pnBits : Nat) :
    UInt64 :=
  if !anyReceived then truncated
  else
    let expected := largestReceived + 1
    let win := (1 : UInt64) <<< UInt64.ofNat pnBits
    let hwin := win / 2
    let c := candidate expected truncated pnBits
    if c + hwin ≤ expected ∧ c < ((1 : UInt64) <<< 62) - win then c + win
    else if expected + hwin < c ∧ win ≤ c then c - win
    else c

/-! ## §2. The window. -/

/-- The bits a number is cut to: one to four bytes. -/
def Width (b : Nat) : Prop := b = 8 ∨ b = 16 ∨ b = 24 ∨ b = 32

variable {b e t : Nat}

theorem Width.le (h : Width b) : 8 ≤ b ∧ b ≤ 32 := by
  unfold Width at h
  omega

theorem win_toNat (h : Width b) : ((1 : UInt64) <<< UInt64.ofNat b).toNat = 2 ^ b := by
  obtain rfl | rfl | rfl | rfl := h <;> decide

/-- The high bits of a word. -/
theorem and_not_mask (e b : Nat) (he : e < 2 ^ 64) (hb : b ≤ 64) :
    e &&& (2 ^ 64 - 1 - (2 ^ b - 1)) = 2 ^ b * (e / 2 ^ b) := by
  have hmask : 2 ^ 64 - 1 - (2 ^ b - 1) = 2 ^ b * (2 ^ (64 - b) - 1) := by
    rw [Nat.mul_sub, ← Nat.pow_add, Nat.add_sub_cancel' hb]
    have := Nat.two_pow_pos b
    omega
  rw [hmask]
  apply Nat.eq_of_testBit_eq
  intro i
  rw [Nat.testBit_and, Nat.testBit_two_pow_mul, Nat.testBit_two_pow_mul, Nat.testBit_two_pow_sub_one,
    Nat.testBit_div_two_pow]
  by_cases hi : b ≤ i
  · have hsum : i - b + b = i := by omega
    rw [hsum]
    by_cases h64 : i < 64
    · simp [hi, show i - b < 64 - b by omega]
    -- a word has no bit there
    have hbit : e.testBit i = false :=
      Nat.testBit_lt_two_pow (Nat.lt_of_lt_of_le he (Nat.pow_le_pow_right (by omega) (by omega)))
    simp [hbit]
  · simp [hi]

/-- **The number tried first** has the high bits of the one expected and the low ones given. -/
theorem candidate_toNat (h : Width b) (e t : UInt64) (ht : t.toNat < 2 ^ b) :
    (candidate e t b).toNat = 2 ^ b * (e.toNat / 2 ^ b) + t.toNat := by
  have hmask : (((1 : UInt64) <<< UInt64.ofNat b) - 1).toNat = 2 ^ b - 1 := by
    obtain rfl | rfl | rfl | rfl := h <;> decide
  have hsize : UInt64.size = 2 ^ 64 := rfl
  unfold candidate
  rw [UInt64.toNat_or, UInt64.toNat_and, UInt64.toNat_not, hmask, hsize]
  rw [and_not_mask e.toNat b (UInt64.toNat_lt e) (by have := h.le; omega),
    Nat.two_pow_add_eq_or_of_lt ht]

/-- The unbounded numbers the words of `decodePn` stand for. -/
def tried (expected truncated pnBits : Nat) : Nat := 2 ^ pnBits * (expected / 2 ^ pnBits) + truncated

/-- No sum that `decodePn` takes leaves the 64 bits. -/
def NoWrap (largestReceived truncated pnBits : Nat) : Prop :=
  largestReceived + 1 < 2 ^ 64 ∧
  tried (largestReceived + 1) truncated pnBits < 2 ^ 64 ∧
  tried (largestReceived + 1) truncated pnBits + 2 ^ pnBits < 2 ^ 64 ∧
  tried (largestReceived + 1) truncated pnBits + 2 ^ pnBits / 2 < 2 ^ 64 ∧
  largestReceived + 1 + 2 ^ pnBits / 2 < 2 ^ 64

theorem tried_lt (h : Width b) (he : e < 2 ^ 62) (ht : t < 2 ^ b) : tried e t b < 2 ^ 62 := by
  unfold tried
  -- the windows tile the numbers of 62 bits
  obtain rfl | rfl | rfl | rfl := h <;> omega

theorem noWrap (h : Width b) {r : Nat} (hr : r < 2 ^ 62 - 1) (ht : t < 2 ^ b) : NoWrap r t b := by
  have hc := tried_lt h (show r + 1 < 2 ^ 62 by omega) ht
  have hb : 2 ^ b ≤ 2 ^ 32 := Nat.pow_le_pow_right (by omega) h.le.2
  unfold NoWrap
  omega

/-- `decodePn` on unbounded numbers. -/
def nearest (expected truncated pnBits : Nat) : Nat :=
  let c := tried expected truncated pnBits
  if c + 2 ^ pnBits / 2 ≤ expected ∧ c < 2 ^ 62 - 2 ^ pnBits then c + 2 ^ pnBits
  else if expected + 2 ^ pnBits / 2 < c ∧ 2 ^ pnBits ≤ c then c - 2 ^ pnBits
  else c

/-- **The words compute the unbounded numbers**: nothing wraps. -/
theorem decodePn_toNat (h : Width b) (r t : UInt64) (hr : r.toNat < 2 ^ 62 - 1)
    (ht : t.toNat < 2 ^ b) : (decodePn r true t b).toNat = nearest (r.toNat + 1) t.toNat b := by
  obtain ⟨hnext, hc, hwin, hhalf, hexp⟩ := noWrap h hr ht
  have hb : 2 ^ b ≤ 2 ^ 32 := Nat.pow_le_pow_right (by omega) h.le.2
  have hexpected : (r + 1).toNat = r.toNat + 1 := by
    rw [UInt64.toNat_add]
    exact Nat.mod_eq_of_lt hnext
  have hwindow : ((1 : UInt64) <<< UInt64.ofNat b).toNat = 2 ^ b := win_toNat h
  have hhwin : ((1 : UInt64) <<< UInt64.ofNat b / 2).toNat = 2 ^ b / 2 := by
    rw [UInt64.toNat_div, hwindow]
    rfl
  have hcand : (candidate (r + 1) t b).toNat = tried (r.toNat + 1) t.toNat b := by
    rw [candidate_toNat h _ _ ht, hexpected]
    rfl
  have hlimit : ((1 : UInt64) <<< 62 - (1 : UInt64) <<< UInt64.ofNat b).toNat = 2 ^ 62 - 2 ^ b := by
    rw [UInt64.toNat_sub_of_le, hwindow]
    · rfl
    · rw [UInt64.le_iff_toNat_le, hwindow]
      have : ((1 : UInt64) <<< 62).toNat = 2 ^ 62 := rfl
      omega
  have hsum : (candidate (r + 1) t b + (1 : UInt64) <<< UInt64.ofNat b).toNat =
      tried (r.toNat + 1) t.toNat b + 2 ^ b := by
    rw [UInt64.toNat_add, hcand, hwindow]
    exact Nat.mod_eq_of_lt hwin
  have hlow : (candidate (r + 1) t b + (1 : UInt64) <<< UInt64.ofNat b / 2).toNat =
      tried (r.toNat + 1) t.toNat b + 2 ^ b / 2 := by
    rw [UInt64.toNat_add, hcand, hhwin]
    exact Nat.mod_eq_of_lt hhalf
  have hhigh : (r + 1 + (1 : UInt64) <<< UInt64.ofNat b / 2).toNat = r.toNat + 1 + 2 ^ b / 2 := by
    rw [UInt64.toNat_add, hexpected, hhwin]
    exact Nat.mod_eq_of_lt hexp
  unfold decodePn nearest
  simp only [Bool.not_true, Bool.false_eq_true, if_false, UInt64.le_iff_toNat_le,
    UInt64.lt_iff_toNat_lt, hlow, hexpected, hcand, hlimit, hhigh, hwindow]
  split
  · exact hsum
  split
  · rename_i hbelow
    rw [UInt64.toNat_sub_of_le _ _ (by rw [UInt64.le_iff_toNat_le, hwindow, hcand]; exact hbelow.2),
      hwindow, hcand]
  · exact hcand

/-! ## §3. The number nearest to the one expected. -/

/-- A number of 62 bits inside the window round the one expected is the one found. -/
theorem nearest_eq {n : Nat} (h : Width b) (hn : n < 2 ^ 62) (hlow : e < n + 2 ^ b / 2)
    (hhigh : n < e + 2 ^ b / 2) : nearest e (n % 2 ^ b) b = n := by
  unfold nearest tried
  dsimp only
  obtain rfl | rfl | rfl | rfl := h
  all_goals
    split
    · omega
    · split <;> omega

theorem nearest_lt (h : Width b) (he : e < 2 ^ 62) (ht : t < 2 ^ b) : nearest e t b < 2 ^ 62 := by
  have hc := tried_lt h he ht
  unfold nearest
  dsimp only
  split
  · omega
  · split <;> omega

/-! ## §4. The stored bytes. -/

variable (pn : UInt64)

theorem writePn_succ (len : Nat) :
    writePn pn (len + 1) = (pn >>> UInt64.ofNat (8 * len)).toUInt8 :: writePn pn len := by
  unfold writePn
  rw [List.range_succ_eq_map, List.map_cons, List.map_map]
  congr 1
  apply List.map_congr_left
  intro i _
  simp only [Function.comp, Nat.add_sub_cancel, Nat.succ_eq_add_one, Nat.sub_sub, Nat.add_comm 1 i]

@[simp] theorem length_writePn (len : Nat) : (writePn pn len).length = len := by
  simp [writePn]

/-- The byte stored `len` places before the last. -/
theorem stored_byte {len : Nat} (h : len < 8) :
    (pn >>> UInt64.ofNat (8 * len)).toUInt8.toNat = pn.toNat / 2 ^ (8 * len) % 256 := by
  rw [UInt64.toNat_toUInt8, UInt64.toNat_shiftRight, UInt64.toNat_ofNat',
    Nat.mod_eq_of_lt (show 8 * len < 2 ^ 64 by omega), Nat.mod_eq_of_lt (show 8 * len < 64 by omega),
    Nat.shiftRight_eq_div_pow]

/-- A byte more below those read. -/
theorem read_byte (t : UInt64) (b : UInt8) (ht : t.toNat < 2 ^ 56) :
    ((t <<< 8) ||| b.toUInt64).toNat = t.toNat * 256 + b.toNat := by
  have hshift : (t <<< 8).toNat = 2 ^ 8 * t.toNat := by
    rw [UInt64.toNat_shiftLeft, show (8 : UInt64).toNat % 64 = 8 by rfl, Nat.shiftLeft_eq]
    omega
  have hb : b.toNat < 2 ^ 8 := UInt8.toNat_lt b
  rw [UInt64.toNat_or, hshift, UInt8.toNat_toUInt64, ← Nat.two_pow_add_eq_or_of_lt hb]
  omega

theorem foldl_writePn (len : Nat) (hlen : len ≤ 4) (t : UInt64) (ht : t.toNat < 2 ^ (64 - 8 * len)) :
    ((writePn pn len).foldl (fun (t : UInt64) (b : UInt8) => (t <<< 8) ||| b.toUInt64) t).toNat =
      t.toNat * 2 ^ (8 * len) + pn.toNat % 2 ^ (8 * len) := by
  -- on the bytes left, the number read so far shifted past all of them
  induction len generalizing t with
  | zero => simp [writePn, Nat.mod_one]
  | succ len ih =>
    have h56 : t.toNat < 2 ^ 56 :=
      Nat.lt_of_lt_of_le ht (Nat.pow_le_pow_right (by omega) (by omega))
    have hstep := read_byte t (pn >>> UInt64.ofNat (8 * len)).toUInt8 h56
    rw [stored_byte pn (by omega)] at hstep
    have hpow : 2 ^ (64 - 8 * len) = 2 ^ (64 - 8 * (len + 1)) * 256 := by
      rw [show 64 - 8 * len = 64 - 8 * (len + 1) + 8 by omega, Nat.pow_add]
    have hmod : pn.toNat % 2 ^ (8 * (len + 1)) =
        2 ^ (8 * len) * (pn.toNat / 2 ^ (8 * len) % 256) + pn.toNat % 2 ^ (8 * len) := by
      rw [show 8 * (len + 1) = 8 * len + 8 by omega, Nat.pow_add, Nat.mod_mul]
      exact Nat.add_comm _ _
    rw [writePn_succ, List.foldl_cons, ih (by omega), hstep, hmod,
      show 8 * (len + 1) = 8 * len + 8 by omega, Nat.pow_add]
    · ring
    · rw [hstep, hpow]
      omega

/-- **The bytes stored** hold the number modulo their width. -/
theorem readTruncated_writePn {len : Nat} (h : len ≤ 4) :
    (readTruncated (writePn pn len)).toNat = pn.toNat % 2 ^ (8 * len) := by
  unfold readTruncated
  rw [foldl_writePn pn len h 0 (Nat.two_pow_pos _)]
  simp

/-! ## §5. Every number is recovered. -/

/-- The numbers from the largest acknowledged on, or all of them up to `pn`. -/
def outstanding (pn largestAcked : UInt64) (anyAcked : Bool) : Nat :=
  if anyAcked then pn.toNat - largestAcked.toNat else pn.toNat + 1

/-- What a sender may have in flight: a number above the largest acknowledged one, fewer than
`2 ^ 31 - 1` between. -/
def Sendable (pn largestAcked : UInt64) : Bool → Prop
  | true => largestAcked < pn ∧ pn.toNat - largestAcked.toNat - 1 < 2 ^ 31 - 1
  | false => pn.toNat < 2 ^ 31 - 1

theorem pnLength_width (pn la : UInt64) (anyAcked : Bool) : Width (8 * pnLength pn la anyAcked) := by
  unfold pnLength Width
  dsimp only
  split_ifs <;> omega

/-- Twice the numbers outstanding fit the length chosen. -/
theorem outstanding_lt {pn la : UInt64} {anyAcked : Bool} (hpn : pn.toNat < 2 ^ 62)
    (h : Sendable pn la anyAcked) : outstanding pn la anyAcked < 2 ^ (8 * pnLength pn la anyAcked) / 2 := by
  have hunacked : (if anyAcked then pn - la else pn + 1).toNat = outstanding pn la anyAcked := by
    unfold outstanding
    cases anyAcked with
    | true =>
      have hle : la ≤ pn := UInt64.le_of_lt h.1
      exact UInt64.toNat_sub_of_le _ _ hle
    | false =>
      have hsum : (pn + 1).toNat = (pn.toNat + 1) % 2 ^ 64 := UInt64.toNat_add pn 1
      rw [Nat.mod_eq_of_lt (by omega)] at hsum
      exact hsum
  have hsmall : outstanding pn la anyAcked < 2 ^ 31 := by
    unfold outstanding
    cases anyAcked with
    | true =>
      have := h.2
      simp only [if_true]
      omega
    | false =>
      have : pn.toNat < 2 ^ 31 - 1 := h
      simp only [Bool.false_eq_true, if_false]
      omega
  have hrange : ((if anyAcked then pn - la else pn + 1) * 2 + 1).toNat =
      outstanding pn la anyAcked * 2 + 1 := by
    rw [UInt64.toNat_add, UInt64.toNat_mul, hunacked]
    have htwo : (2 : UInt64).toNat = 2 := rfl
    have hone : (1 : UInt64).toNat = 1 := rfl
    rw [htwo, hone]
    omega
  unfold pnLength
  simp only [UInt64.lt_iff_toNat_lt, hrange]
  have h1 : (0x100 : UInt64).toNat = 2 ^ 8 := rfl
  have h2 : (0x10000 : UInt64).toNat = 2 ^ 16 := rfl
  have h3 : (0x1000000 : UInt64).toNat = 2 ^ 24 := rfl
  rw [h1, h2, h3]
  split_ifs <;> omega

/-- A receiver the number can reach: one that has read nothing while nothing is acknowledged, or
one that has read the largest acknowledged and is not half a window ahead of the number. -/
def Reached (pn largestAcked : UInt64) (anyAcked : Bool) (largestReceived : UInt64) : Bool → Prop
  | false => anyAcked = false
  | true =>
    largestReceived.toNat < 2 ^ 62 - 1 ∧ (anyAcked = true → largestAcked ≤ largestReceived) ∧
    largestReceived.toNat + 1 < pn.toNat + 2 ^ (8 * pnLength pn largestAcked anyAcked - 1)

theorem decodePn_sent {pn la r : UInt64} {anyAcked anyReceived : Bool} (hpn : pn.toNat < 2 ^ 62)
    (hsend : Sendable pn la anyAcked) (hrecv : Reached pn la anyAcked r anyReceived) :
    decodePn r anyReceived (readTruncated (writePn pn (pnLength pn la anyAcked)))
      (8 * pnLength pn la anyAcked) = pn := by
  have hw := pnLength_width pn la anyAcked
  have hout := outstanding_lt hpn hsend
  have htrunc := readTruncated_writePn pn (show pnLength pn la anyAcked ≤ 4 by have := hw.le; omega)
  have hlt : pn.toNat % 2 ^ (8 * pnLength pn la anyAcked) < 2 ^ (8 * pnLength pn la anyAcked) :=
    Nat.mod_lt _ (Nat.two_pow_pos _)
  apply UInt64.toNat_inj.mp
  cases anyReceived with
  | false =>
    -- nothing is acknowledged, so the whole number is stored
    have hacked : anyAcked = false := hrecv
    subst hacked
    have hwhole : pn.toNat < 2 ^ (8 * pnLength pn la false) := by
      simp only [outstanding, Bool.false_eq_true, if_false] at hout
      omega
    rw [Nat.mod_eq_of_lt hwhole] at htrunc
    exact htrunc
  | true =>
    obtain ⟨hr, hla, hahead⟩ := hrecv
    rw [decodePn_toNat hw r _ hr (by rw [htrunc]; exact hlt), htrunc]
    have hhalf : 2 ^ (8 * pnLength pn la anyAcked - 1) = 2 ^ (8 * pnLength pn la anyAcked) / 2 := by
      obtain h | h | h | h := hw <;> rw [h] <;> rfl
    rw [hhalf] at hahead
    apply nearest_eq hw hpn hahead
    unfold outstanding at hout
    cases anyAcked with
    | true =>
      have hle : la.toNat ≤ r.toNat := UInt64.le_iff_toNat_le.mp (hla rfl)
      simp only [if_true] at hout
      omega
    | false =>
      simp only [Bool.false_eq_true, if_false] at hout
      omega

/-- **Truncated packet numbers are recovered.**  For a number of 62 bits above the largest
acknowledged one, or with none acknowledged, with fewer than `2 ^ 31 - 1` numbers between: the
length chosen is the number of bytes stored, and a receiver the number can reach decodes them to
the number, no sum wrapping on either side.  Whatever fits its bits decodes to 62 bits. -/
theorem packet_number_recovered : (∀ (pn largestAcked largestReceived : UInt64) (anyAcked anyReceived : Bool),
      pn.toNat < 2 ^ 62 → Sendable pn largestAcked anyAcked →
      Reached pn largestAcked anyAcked largestReceived anyReceived →
      let len := pnLength pn largestAcked anyAcked
      let truncated := readTruncated (writePn pn len)
      (writePn pn len).length = len ∧ truncated.toNat = pn.toNat % 2 ^ (8 * len) ∧
      decodePn largestReceived anyReceived truncated (8 * len) = pn ∧
      outstanding pn largestAcked anyAcked * 2 + 1 < 2 ^ 64 ∧
      (anyReceived = true → NoWrap largestReceived.toNat truncated.toNat (8 * len))) ∧
    (∀ (largestReceived truncated : UInt64) (anyReceived : Bool) (pnBits : Nat), Width pnBits →
      largestReceived.toNat < 2 ^ 62 - 1 → truncated.toNat < 2 ^ pnBits →
      (decodePn largestReceived anyReceived truncated pnBits).toNat < 2 ^ 62) := by
  constructor
  · intro pn la r anyAcked anyReceived hpn hsend hrecv
    have hw := pnLength_width pn la anyAcked
    have htrunc :=
      readTruncated_writePn pn (show pnLength pn la anyAcked ≤ 4 by have := hw.le; omega)
    refine ⟨length_writePn _ _, htrunc, decodePn_sent hpn hsend hrecv, ?_, ?_⟩
    · have hout := outstanding_lt hpn hsend
      have hb : 2 ^ (8 * pnLength pn la anyAcked) ≤ 2 ^ 32 :=
        Nat.pow_le_pow_right (by omega) hw.le.2
      omega
    · intro hany
      subst hany
      apply noWrap hw hrecv.1
      rw [htrunc]
      exact Nat.mod_lt _ (Nat.two_pow_pos _)
  · intro r t anyReceived b hw hr ht
    cases anyReceived with
    | false =>
      have hb : 2 ^ b ≤ 2 ^ 32 := Nat.pow_le_pow_right (by omega) hw.le.2
      show t.toNat < 2 ^ 62
      omega
    | true =>
      rw [decodePn_toNat hw r t hr ht]
      exact nearest_lt hw (by omega) ht

/-- A number a window past the largest acknowledged one, read by a receiver that lags. -/
theorem packet_number_recovered_lag :
    decodePn 0xa82f30ea true (readTruncated (writePn 0xa82f9b32 (pnLength 0xa82f9b32 0xa82f30ea true)))
      (8 * pnLength 0xa82f9b32 0xa82f30ea true) = 0xa82f9b32 ∧
    (decodePn 0xa82f30ea true 0x9b32 16).toNat < 2 ^ 62 :=
  ⟨(packet_number_recovered.1 0xa82f9b32 0xa82f30ea 0xa82f30ea true true (by decide)
      ⟨by decide, by decide⟩ ⟨by decide, fun _ => by decide, by decide⟩).2.2.1,
    packet_number_recovered.2 0xa82f30ea 0x9b32 true 16 (.inr (.inl rfl)) (by decide) (by decide)⟩

end Agensio.Quic.PacketNumber
