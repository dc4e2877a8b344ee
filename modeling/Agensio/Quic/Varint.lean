/-
  Agensio.Quic.Varint — variable-length integers.

  Model of `read_varint` and `write_varint` of `quic/varint.hpp`.  The
  reader is given a pointer and an end: here the bytes in memory from the
  pointer on and the number of them before the end, which a caller can get
  wrong.  `frameHeader` is the header of an HTTP/3 frame, a type and a
  length.

  Main result: `readVarint_writeVarint` — a number of 62 bits is read back
  from the bytes written, whatever follows them.
-/
import Agensio.Bytes
import Agensio.Lib.FrameStream

namespace Agensio.Quic

open Agensio.Lib

/-- The length of a varint, from its first byte. -/
def varintLen (b : UInt8) : Nat := 2 ^ (b.toNat / 64)

/-- `read_varint`: the value and the number of bytes, none when they are not all before the end. -/
def readVarint : Bytes → (room : Nat) → Option (Nat × Nat)
  | [], _ => none
  | b :: rest, room =>
    if room < varintLen b then none
    else some ((rest.take (varintLen b - 1)).foldl (fun v c => v * 256 + c.toNat) (b.toNat % 64),
      varintLen b)

theorem readVarint_cons (b : UInt8) (rest : Bytes) (room : Nat) : readVarint (b :: rest) room =
      if room < varintLen b then none
      else some ((rest.take (varintLen b - 1)).foldl (fun v c => v * 256 + c.toNat) (b.toNat % 64),
        varintLen b) := rfl

theorem varintLen_pos (b : UInt8) : 0 < varintLen b := Nat.two_pow_pos _

variable {p : Bytes} {room v n : Nat}

theorem readVarint_le (h : readVarint p room = some (v, n)) : 0 < n ∧ n ≤ room := by
  cases p with
  | nil => simp [readVarint] at h
  | cons b rest =>
    rw [readVarint_cons] at h
    split at h
    · simp at h
    next hroom =>
      simp only [Option.some.injEq, Prod.mk.injEq] at h
      rw [← h.2]
      exact ⟨varintLen_pos b, by omega⟩

/-- A varint is read from its own bytes. -/
theorem readVarint_stable (h : readVarint p room = some (v, n))
    (hroom : room ≤ p.length) (q : Bytes) (room' : Nat) (hn : n ≤ room') :
    readVarint (p.take n ++ q) room' = some (v, n) := by
  cases p with
  | nil => simp [readVarint] at h
  | cons b rest =>
    rw [readVarint_cons] at h
    split at h
    · simp at h
    next hlt =>
      simp only [Option.some.injEq, Prod.mk.injEq] at h
      obtain ⟨hv, rfl⟩ := h
      obtain ⟨m, hm⟩ : ∃ m, varintLen b = m + 1 := ⟨varintLen b - 1, by have := varintLen_pos b; omega⟩
      rw [hm, List.take_succ_cons, List.cons_append, readVarint_cons, if_neg (by omega), ← hv, hm,
        Nat.add_sub_cancel]
      -- the bytes after the first are the same
      have htake : (rest.take m ++ q).take m = rest.take m := by
        rw [List.take_append_of_le_length]
        · rw [List.take_take, Nat.min_self]
        · rw [List.length_take]
          simp only [List.length_cons] at hroom
          omega
      rw [htake]

/-- No part of a varint is one. -/
theorem readVarint_prompt (h : readVarint p room = some (v, n))
    {j : Nat} (hj : j < n) : readVarint (p.take j) j = none := by
  cases p with
  | nil => simp [readVarint] at h
  | cons b rest =>
    rw [readVarint_cons] at h
    split at h
    · simp at h
    next hlt =>
      simp only [Option.some.injEq, Prod.mk.injEq] at h
      cases j with
      | zero => rfl
      | succ j =>
        rw [List.take_succ_cons, readVarint_cons, if_pos (by omega)]

/-- A frame header: two varints, the type and the length of the payload. -/
def readFrameHeader (p : Bytes) : Option (Nat × Nat × Nat) :=
  match readVarint p p.length with
  | none => none
  | some (type, n) =>
    match readVarint (p.drop n) (p.length - n) with
    | none => none
    | some (len, m) => some (type, len, n + m)

theorem readFrameHeader_cases {type len k : Nat} (h : readFrameHeader p = some (type, len, k)) :
    ∃ n m, readVarint p p.length = some (type, n) ∧
      readVarint (p.drop n) (p.length - n) = some (len, m) ∧ k = n + m := by
  unfold readFrameHeader at h
  split at h
  · simp at h
  next type' n hn =>
    split at h
    · simp at h
    next len' m hm =>
      simp only [Option.some.injEq, Prod.mk.injEq] at h
      obtain ⟨rfl, rfl, rfl⟩ := h
      exact ⟨n, m, hn, hm, rfl⟩

/-- The header of HTTP/3 frames. -/
def frameHeader : HeaderReader UInt8 Nat where
  read := readFrameHeader
  read_nil := rfl
  le_length := by
    intro p type len k h
    obtain ⟨n, m, hn, hm, rfl⟩ := readFrameHeader_cases h
    have := readVarint_le hn
    have := readVarint_le hm
    omega
  stable := by
    intro p type len k h q
    obtain ⟨n, m, hn, hm, rfl⟩ := readFrameHeader_cases h
    have hnle := readVarint_le hn
    have hmle := readVarint_le hm
    have hsplit : p.take (n + m) ++ q = p.take n ++ ((p.drop n).take m ++ q) := by
      rw [List.take_add, List.append_assoc]
    have hlen : (p.take n).length = n := by
      rw [List.length_take]
      omega
    have hdroplen : ((p.drop n).take m).length = m := by
      rw [List.length_take, List.length_drop]
      omega
    unfold readFrameHeader
    rw [hsplit, readVarint_stable hn (Nat.le_refl _) _ _ (by simp only [List.length_append]; omega)]
    show (match readVarint ((p.take n ++ ((p.drop n).take m ++ q)).drop n) _ with
      | none => none
      | some (len, m) => some (type, len, n + m)) = _
    rw [List.drop_left' hlen, readVarint_stable hm (Nat.le_of_eq (List.length_drop).symm) _ _
        (by simp only [List.length_append]; omega)]
  prompt := by
    intro p type len k h j hj
    obtain ⟨n, m, hn, hm, rfl⟩ := readFrameHeader_cases h
    have hnle := readVarint_le hn
    have hmle := readVarint_le hm
    have hjlen : (p.take j).length = j := by
      rw [List.length_take]
      omega
    unfold readFrameHeader
    rw [hjlen]
    rcases Nat.lt_or_ge j n with hlt | hge
    · -- the type is cut
      rw [readVarint_prompt hn hlt]
    -- the type is whole, the length is cut
    have htype : readVarint (p.take j) j = some (type, n) := by
      have hst := readVarint_stable hn (Nat.le_refl _) ((p.drop n).take (j - n)) j hge
      rw [← List.take_add, Nat.add_sub_cancel' hge] at hst
      exact hst
    rw [htype]
    show (match readVarint ((p.take j).drop n) (j - n) with
      | none => none
      | some (len, m) => some (type, len, n + m)) = none
    rw [List.drop_take, readVarint_prompt hm (by omega)]

/-! ## Writing. -/

/-- `kVarintMax`. -/
def kVarintMax : Nat := 2 ^ 62 - 1

/-- `varint_size`. -/
def varintSize (v : Nat) : Nat :=
  if v < 64 then 1 else if v < 16384 then 2 else if v < 1073741824 then 4 else 8

/-- `write_varint_fixed`: `v` in `n` bytes. -/
def writeVarintFixed (v : Nat) : (n : Nat) → Bytes
  | 1 => [UInt8.ofNat v]
  | 2 => [UInt8.ofNat (0x40 ||| v >>> 8), UInt8.ofNat v]
  | 4 => [UInt8.ofNat (0x80 ||| v >>> 24), UInt8.ofNat (v >>> 16), UInt8.ofNat (v >>> 8), UInt8.ofNat v]
  | _ => UInt8.ofNat (0xc0 ||| v >>> 56) ::
      (List.range 7).map fun i => UInt8.ofNat (v >>> (8 * (7 - (i + 1))))

/-- `write_varint`, and `append_varint` to a string. -/
def writeVarint (v : Nat) : Bytes := writeVarintFixed v (varintSize v)

/-- The four sizes, with the numbers that take each. -/
theorem varintSize_cases (v : Nat) : (v < 64 ∧ varintSize v = 1) ∨ (64 ≤ v ∧ v < 16384 ∧ varintSize v = 2) ∨
    (16384 ≤ v ∧ v < 1073741824 ∧ varintSize v = 4) ∨ (1073741824 ≤ v ∧ varintSize v = 8) := by
  unfold varintSize
  split_ifs <;> omega

@[simp] theorem length_writeVarint (v : Nat) : (writeVarint v).length = varintSize v := by
  unfold writeVarint
  obtain ⟨-, h⟩ | ⟨-, -, h⟩ | ⟨-, -, h⟩ | ⟨-, h⟩ := varintSize_cases v <;> rw [h] <;> rfl

/-- The first byte of a written number: the size over the high bits. -/
theorem lead_byte (k h : Nat) (hk : k < 4) (hh : h < 64) :
    (UInt8.ofNat (64 * k ||| h)).toNat = 64 * k + h := by
  have hor := Nat.two_pow_add_eq_or_of_lt (show h < 2 ^ 6 by omega) k
  rw [show 64 * k ||| h = 64 * k + h by rw [← hor], UInt8.toNat_ofNat']
  omega

/-- **A number of 62 bits is read back**, whatever follows and however much room is left after. -/
theorem readVarint_writeVarint (hv : v ≤ kVarintMax) (rest : Bytes) (hroom : varintSize v ≤ room) :
    readVarint (writeVarint v ++ rest) room = some (v, varintSize v) := by
  unfold kVarintMax at hv
  unfold writeVarint
  obtain ⟨hlt, h⟩ | ⟨-, hlt, h⟩ | ⟨-, hlt, h⟩ | ⟨-, h⟩ := varintSize_cases v
  · rw [h] at hroom ⊢
    have hlead : (UInt8.ofNat v).toNat = v := by
      rw [UInt8.toNat_ofNat']
      omega
    have hlen : varintLen (UInt8.ofNat v) = 1 := by
      rw [varintLen, hlead, Nat.div_eq_of_lt hlt]
      rfl
    show readVarint (UInt8.ofNat v :: rest) room = _
    rw [readVarint_cons, hlen, if_neg (by omega), hlead, Nat.mod_eq_of_lt hlt]
    rfl
  · rw [h] at hroom ⊢
    have hlead := lead_byte 1 (v >>> 8) (by omega) (by rw [Nat.shiftRight_eq_div_pow]; omega)
    rw [Nat.shiftRight_eq_div_pow] at hlead
    have hlen : varintLen (UInt8.ofNat (0x40 ||| v >>> 8)) = 2 := by
      rw [varintLen, Nat.shiftRight_eq_div_pow, hlead]
      have hdiv : (64 * 1 + v / 2 ^ 8) / 64 = 1 := by omega
      rw [hdiv]
      rfl
    show readVarint (UInt8.ofNat (0x40 ||| v >>> 8) :: UInt8.ofNat v :: rest) room = _
    rw [readVarint_cons, hlen, if_neg (by omega), Nat.shiftRight_eq_div_pow, hlead]
    simp only [Nat.add_one_sub_one, List.take_succ_cons, List.take_zero, List.foldl_cons,
      List.foldl_nil, UInt8.toNat_ofNat', Option.some.injEq, Prod.mk.injEq, and_true]
    omega
  · rw [h] at hroom ⊢
    have hlead := lead_byte 2 (v >>> 24) (by omega) (by rw [Nat.shiftRight_eq_div_pow]; omega)
    rw [Nat.shiftRight_eq_div_pow] at hlead
    have hlen : varintLen (UInt8.ofNat (0x80 ||| v >>> 24)) = 4 := by
      rw [varintLen, Nat.shiftRight_eq_div_pow, hlead]
      have hdiv : (64 * 2 + v / 2 ^ 24) / 64 = 2 := by omega
      rw [hdiv]
      rfl
    show readVarint (UInt8.ofNat (0x80 ||| v >>> 24) :: UInt8.ofNat (v >>> 16) ::
      UInt8.ofNat (v >>> 8) :: UInt8.ofNat v :: rest) room = _
    rw [readVarint_cons, hlen, if_neg (by omega), Nat.shiftRight_eq_div_pow v 24, hlead]
    simp only [Nat.reduceSub, List.take_succ_cons, List.take_zero, List.foldl_cons,
      List.foldl_nil, UInt8.toNat_ofNat', Nat.shiftRight_eq_div_pow, Option.some.injEq,
      Prod.mk.injEq, and_true]
    omega
  · rw [h] at hroom ⊢
    have hlead := lead_byte 3 (v >>> 56) (by omega) (by rw [Nat.shiftRight_eq_div_pow]; omega)
    rw [Nat.shiftRight_eq_div_pow] at hlead
    have hlen : varintLen (UInt8.ofNat (0xc0 ||| v >>> 56)) = 8 := by
      rw [varintLen, Nat.shiftRight_eq_div_pow, hlead]
      have hdiv : (64 * 3 + v / 2 ^ 56) / 64 = 3 := by omega
      rw [hdiv]
      rfl
    show readVarint (UInt8.ofNat (0xc0 ||| v >>> 56) :: UInt8.ofNat (v >>> 48) ::
      UInt8.ofNat (v >>> 40) :: UInt8.ofNat (v >>> 32) :: UInt8.ofNat (v >>> 24) ::
      UInt8.ofNat (v >>> 16) :: UInt8.ofNat (v >>> 8) :: UInt8.ofNat (v >>> 0) :: rest) room = _
    rw [readVarint_cons, hlen, if_neg (by omega), Nat.shiftRight_eq_div_pow v 56, hlead]
    simp only [Nat.reduceSub, List.take_succ_cons, List.take_zero, List.foldl_cons,
      List.foldl_nil, UInt8.toNat_ofNat', Nat.shiftRight_eq_div_pow, Option.some.injEq,
      Prod.mk.injEq, and_true]
    omega

end Agensio.Quic
