/-
  Agensio.Codec.Strings — string literals.

  A string goes out Huffman coded when that is shorter: a flag bit, the
  length of the coded bytes as a prefixed integer, the bytes (RFC 7541
  5.2, RFC 9204 4.1.2).  HPACK and QPACK write it in the same way
  (`append_string` of both files, and the literal name of
  `append_literal`) with other prefixes and flags.

  Main results:
    * `huffmanDecode_limit` — a limit on the output only refuses;
    * `huffmanDecode_length` — a symbol has at most 30 bits, so the string
      bounds the coded length;
    * `prefixedString_append` — what is read or refused is so whatever
      follows.
-/
import Agensio.Lib.Framing
import Agensio.Codec.Integer
import Agensio.Codec.Huffman

namespace Agensio.Codec

open Agensio.Lib

/-! ## §1. The writer and the reader. -/

/-- A string literal under `flags` and a `prefixBits`-bit length; `hBit` marks Huffman coding. -/
def stringLiteral (prefixBits : Nat) (flags hBit : UInt8) (s : Bytes) : Bytes :=
  let huff := huffmanSize s
  if huff < s.length then appendInteger huff prefixBits (flags ||| hBit) ++ huffmanEncode s
  else appendInteger s.length prefixBits flags ++ s

inductive StrStatus where
  | malformed
  | tooLarge
  | incomplete
  deriving DecidableEq

/-- `Decoder::read_string` of `http3/qpack.cpp`: the string and the bytes behind it. -/
def readString (in_ : Bytes) (huffman : Bool) (len maxOut : Nat) :
    Except StrStatus (Bytes × Bytes) :=
  if len > in_.length then .error .incomplete
  else if huffman then
    match huffmanDecode (in_.take len) maxOut with
    | .ok s => .ok (s, in_.drop len)
    | .error .malformed => .error .malformed
    | .error .tooLarge => .error .tooLarge
  else if len > maxOut then .error .tooLarge
  else .ok (in_.take len, in_.drop len)

/-- `prefixed_string`. -/
def prefixedString (prefixBits : Nat) (hBit : UInt8) (maxOut : Nat) :
    Bytes → Except StrStatus (Bytes × Bytes)
  | [] => .error .incomplete
  | b :: bs =>
    match readInteger prefixBits (b :: bs) with
    | none => .error .incomplete
    | some (len, rest) => readString rest (b &&& hBit ≠ 0) len maxOut

theorem prefixedString_cons (prefixBits : Nat) (hBit : UInt8) (maxOut : Nat) (b : UInt8) (bs : Bytes) :
    prefixedString prefixBits hBit maxOut (b :: bs) =
      match readInteger prefixBits (b :: bs) with
      | none => .error .incomplete
      | some (len, rest) => readString rest (b &&& hBit ≠ 0) len maxOut := rfl

/-! ## §2. Limits. -/

variable {maxOut len : Nat} {bs in_ s : Bytes} {huffman : Bool}

/-- The most that `len` coded bytes can come to, one more than that. -/
def huffmanRoom (len : Nat) : Nat := len * 8 / 5 + 1

/-- A limit on the output makes no other string: it refuses the longer ones. -/
theorem huffmanDecode_limit (in_ : Bytes) (maxOut : Nat) :
    huffmanDecode in_ maxOut = huffmanDecode in_ (huffmanRoom in_.length) ∨
      (huffmanDecode in_ maxOut = .error .tooLarge ∧
        ∀ s, huffmanDecode in_ (huffmanRoom in_.length) = .ok s → maxOut < s.length) := by
  -- five bits a symbol: no coded string exceeds the room
  have hroom : ¬ Exceeds (huffmanRoom in_.length) (bytesBits in_) := by
    intro hex
    have hfive := hex.five_mul_lt
    rw [length_bytesBits] at hfive
    unfold huffmanRoom at hfive
    omega
  have hfit : ∀ s, Decodes in_ s → huffmanDecode in_ (huffmanRoom in_.length) = .ok s := by
    intro s hs
    rcases huffmanDecode_spec in_ (huffmanRoom in_.length) with ⟨s', hs', -, heq⟩ | ⟨hnone, -, -⟩ | ⟨hex, -⟩
    · rw [heq, hs'.unique hs]
    · exact absurd hs (hnone s)
    · exact absurd hex hroom
  rcases huffmanDecode_spec in_ maxOut with ⟨s, hs, -, heq⟩ | ⟨hnone, -, heq⟩ | ⟨hex, heq⟩
  · exact .inl (heq.trans (hfit s hs).symm)
  · rcases huffmanDecode_spec in_ (huffmanRoom in_.length) with ⟨s, hs, -⟩ | ⟨-, -, heq'⟩ | ⟨hex, -⟩
    · exact absurd hs (hnone s)
    · exact .inl (heq.trans heq'.symm)
    · exact absurd hex hroom
  · exact .inr ⟨heq, fun s hs => hex.decodes ((huffmanDecode_ok_iff ..).mp hs).1⟩

theorem huffmanDecode_le (h : huffmanDecode in_ maxOut = .ok s) :
    s.length ≤ maxOut ∧ s.length ≤ huffmanRoom in_.length := by
  obtain ⟨⟨pad, -, hbits⟩, hmax⟩ := (huffmanDecode_ok_iff ..).mp h
  have hlen := congrArg List.length hbits
  rw [length_bytesBits, List.length_append, length_flatMap_codeBits] at hlen
  have hfive := five_mul_length_le s
  unfold huffmanRoom
  omega

/-- A coded string is no longer than thirty bits a symbol and the padding. -/
theorem huffmanDecode_length (h : huffmanDecode in_ maxOut = .ok s) : 8 * in_.length ≤ 30 * s.length + 7 := by
  obtain ⟨⟨pad, hpad, hbits⟩, -⟩ := (huffmanDecode_ok_iff ..).mp h
  have hcodes : ∀ s : Bytes, (s.flatMap codeBits).length ≤ 30 * s.length := by
    intro s
    induction s with
    | nil => exact Nat.zero_le _
    | cons c s ih =>
      have hle := (huffmanCode_bounds c).2.1
      rw [List.flatMap_cons, List.length_append, codeBits, length_bitsOf, List.length_cons]
      omega
  have hlen := congrArg List.length hbits
  rw [length_bytesBits, List.length_append, List.length_replicate] at hlen
  have hle := hcodes s
  omega

/-! ## §3. Bytes that need not be a written literal. -/

/-- More bytes behind a string and what follows it. -/
def followedBy (more : Bytes) : Except StrStatus (Bytes × Bytes) → Except StrStatus (Bytes × Bytes)
  | .error e => .error e
  | .ok (s, rest) => .ok (s, rest ++ more)

/-- What is read or refused is so whatever follows. -/
theorem readString_append (hlen : len ≤ in_.length) (more : Bytes) :
    readString (in_ ++ more) huffman len maxOut = followedBy more (readString in_ huffman len maxOut) := by
  have hin : ¬ len > in_.length := Nat.not_lt.mpr hlen
  have hmore : ¬ len > (in_ ++ more).length := by
    rw [List.length_append]
    omega
  unfold readString
  rw [if_neg hin, if_neg hmore, List.take_append_of_le_length hlen, List.drop_append_of_le_length hlen]
  cases huffman with
  | true =>
    rw [if_pos rfl, if_pos rfl]
    cases huffmanDecode (in_.take len) maxOut with
    | ok s => rfl
    | error e => cases e <;> rfl
  | false =>
    rw [if_neg Bool.false_ne_true, if_neg Bool.false_ne_true]
    by_cases hmax : len > maxOut
    · rw [if_pos hmax, if_pos hmax]
      rfl
    rw [if_neg hmax, if_neg hmax]
    rfl

theorem readString_incomplete :
    readString in_ huffman len maxOut = .error .incomplete ↔ in_.length < len := by
  unfold readString
  by_cases hlen : len > in_.length
  · rw [if_pos hlen]
    exact iff_of_true rfl hlen
  rw [if_neg hlen]
  refine iff_of_false ?_ hlen
  split
  · split
    · simp
    · simp
    · simp
  · split
    · simp
    · simp

theorem prefixedString_append {prefixBits : Nat} {hBit : UInt8}
    (h : prefixedString prefixBits hBit maxOut bs ≠ .error .incomplete) (more : Bytes) :
    prefixedString prefixBits hBit maxOut (bs ++ more) =
      followedBy more (prefixedString prefixBits hBit maxOut bs) := by
  cases bs with
  | nil => exact absurd rfl h
  | cons b bs =>
    rw [prefixedString_cons] at h ⊢
    rw [List.cons_append, prefixedString_cons]
    cases hint : readInteger prefixBits (b :: bs) with
    | none =>
      rw [hint] at h
      exact absurd rfl h
    | some x =>
      obtain ⟨len, rest⟩ := x
      rw [hint] at h
      have hmore := (readInteger_append hint more).1
      rw [List.cons_append] at hmore
      rw [hmore]
      dsimp only at h ⊢
      refine readString_append ?_ more
      by_contra hlt
      exact h (readString_incomplete.mpr (by omega))

theorem readString_ok {rest : Bytes} (h : readString in_ huffman len maxOut = .ok (s, rest)) :
    len ≤ in_.length ∧ rest = in_.drop len ∧ s.length ≤ maxOut ∧ len ≤ 4 * s.length := by
  unfold readString at h
  by_cases hlen : len > in_.length
  · rw [if_pos hlen] at h
    simp at h
  rw [if_neg hlen] at h
  have htake : (in_.take len).length = len := by
    rw [List.length_take]
    omega
  cases huffman with
  | true =>
    rw [if_pos rfl] at h
    split at h
    next s' hs' =>
      cases Except.ok.inj h
      have hlong := huffmanDecode_length hs'
      rw [htake] at hlong
      exact ⟨by omega, rfl, (huffmanDecode_le hs').1, by omega⟩
    · simp at h
    · simp at h
  | false =>
    rw [if_neg (by simp)] at h
    by_cases hmax : len > maxOut
    · rw [if_pos hmax] at h
      simp at h
    rw [if_neg hmax] at h
    cases Except.ok.inj h
    rw [htake]
    exact ⟨by omega, rfl, by omega, by omega⟩

/-- A string that is read was declared with at most four bytes a symbol, and takes its bytes. -/
theorem prefixedString_ok {prefixBits : Nat} {hBit : UInt8} {rest : Bytes}
    (h : prefixedString prefixBits hBit maxOut bs = .ok (s, rest)) :
    s.length ≤ maxOut ∧ (∃ len body, readInteger prefixBits bs = some (len, body) ∧
      len ≤ 4 * s.length ∧ body.length = len + rest.length) ∧ ∃ m, m ≠ [] ∧ bs = m ++ rest := by
  cases bs with
  | nil => simp [prefixedString] at h
  | cons b bs =>
    rw [prefixedString_cons] at h
    cases hint : readInteger prefixBits (b :: bs) with
    | none =>
      rw [hint] at h
      simp at h
    | some x =>
      obtain ⟨len, body⟩ := x
      rw [hint] at h
      obtain ⟨hlen, rfl, hmax, hfour⟩ := readString_ok h
      obtain ⟨-, m, hm, hbs⟩ := readInteger_append hint []
      refine ⟨hmax, ⟨len, body, rfl, hfour, ?_⟩, m ++ body.take len, ?_, ?_⟩
      · rw [List.length_drop]
        omega
      · intro hnil
        exact hm (List.append_eq_nil_iff.mp hnil).1
      · rw [hbs, List.append_assoc, List.take_append_drop]

end Agensio.Codec
