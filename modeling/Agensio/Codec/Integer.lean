/-
  Agensio.Codec.Integer — prefixed integers.

  Model of `append_integer` and `read_integer` of `http/field_codec.cpp`
  (RFC 7541 5.1, RFC 9204 4.1.1).  The writer takes any 64-bit value, the
  reader refuses what is above 2^32 - 1 or does not end.

  Main results:
    * `readInteger_iff` — what is read is the exact value of the bytes in
      front, whatever follows;
    * `readInteger_appendInteger` — a written number comes back;
    * `Fits.waits` — a number that can still be completed has at most five
      bytes.
-/
import Agensio.Bytes
import Mathlib.Data.Nat.Bitwise
import Mathlib.Tactic.Ring

namespace Agensio.Codec

/-! ## §1. The writer and the reader. -/

/-- The largest value an `N`-bit prefix holds, `(1u << prefix_bits) - 1`. -/
def prefixMax (prefixBits : Nat) : Nat := 2 ^ prefixBits - 1

/-- The loop of `append_integer`: seven bits at a time, the lowest first.  Every round divides, so
    the value itself is fuel enough. -/
def appendGroups : Nat → Nat → Bytes
  | 0, value => [UInt8.ofNat value]
  | fuel + 1, value =>
    if value ≥ 128 then UInt8.ofNat ((value &&& 0x7f) ||| 0x80) :: appendGroups fuel (value >>> 7)
    else [UInt8.ofNat value]

/-- `append_integer`: the bytes appended. -/
def appendInteger (value prefixBits : Nat) (flags : UInt8) : Bytes :=
  let max := prefixMax prefixBits
  if value < max then [flags ||| UInt8.ofNat value]
  else (flags ||| UInt8.ofNat max) :: appendGroups (value - max) (value - max)

/-- The loop of `read_integer`. -/
def readGroups : Bytes → Nat → Nat → Option (Nat × Bytes)
  | [], _, _ => none
  | b :: rest, shift, acc =>
    if shift > 28 then none
    else
      let acc' := acc + ((b.toNat &&& 0x7f) <<< shift)
      if b &&& 0x80 = 0 then some (acc', rest) else readGroups rest (shift + 7) acc'

/-- `read_integer`: the value and the bytes behind it. -/
def readInteger (prefixBits : Nat) : Bytes → Option (Nat × Bytes)
  | [] => none
  | b :: rest =>
    let max := prefixMax prefixBits
    let v := b.toNat &&& max
    if v < max then some (v, rest)
    else
      match readGroups rest 0 max with
      | none => none
      | some (acc, rest') => if acc > 0xffffffff then none else some (acc, rest')

/-! ## §2. What is read. -/

/-- Groups of seven bits, and nothing behind the last one. -/
def Ends : Bytes → Prop
  | [] => False
  | b :: bs => if b.toNat < 128 then bs = [] else Ends bs

def groupsValue : Bytes → Nat
  | [] => 0
  | b :: bs => b.toNat % 128 + 128 * groupsValue bs

/-- The bytes are a number under a prefix, and this is its value. -/
def Exact (prefixBits : Nat) : Bytes → Nat → Prop
  | [], _ => False
  | b :: groups, v =>
    if b.toNat % 2 ^ prefixBits < prefixMax prefixBits then groups = [] ∧ v = b.toNat % 2 ^ prefixBits
    else Ends groups ∧ groups.length ≤ 5 ∧ v = prefixMax prefixBits + groupsValue groups ∧ v < 2 ^ 32

variable {bs rest m : Bytes} {shift acc v prefixBits : Nat}

theorem byte_and_0x80 (b : UInt8) : b &&& 0x80 = 0 ↔ b.toNat < 128 := by
  have hall : ∀ n : Fin 256, UInt8.ofNat n.val &&& 0x80 = 0 ↔ n.val < 128 := by decide +kernel
  have hb := hall ⟨b.toNat, b.toNat_lt⟩
  rwa [UInt8.ofNat_toNat] at hb

theorem readGroups_cons (b : UInt8) (rest : Bytes) (shift acc : Nat) :
    readGroups (b :: rest) shift acc = if shift > 28 then none
      else if b.toNat < 128 then some (acc + 2 ^ shift * (b.toNat % 128), rest)
      else readGroups rest (shift + 7) (acc + 2 ^ shift * (b.toNat % 128)) := by
  have hand : b.toNat &&& 0x7f = b.toNat % 128 := Nat.and_two_pow_sub_one_eq_mod b.toNat 7
  rw [readGroups, hand, Nat.shiftLeft_eq, Nat.mul_comm]
  simp only [byte_and_0x80]

/-- **The loop** reads the groups up to the last one, at most five. -/
theorem readGroups_iff : readGroups bs shift acc = some (v, rest) ↔
    ∃ m, bs = m ++ rest ∧ Ends m ∧ 7 * m.length + shift ≤ 35 ∧ v = acc + 2 ^ shift * groupsValue m := by
  induction bs generalizing shift acc with
  | nil =>
    refine ⟨nofun, ?_⟩
    rintro ⟨m, hm, he, -⟩
    obtain ⟨rfl, -⟩ := List.append_eq_nil_iff.mp hm.symm
    exact he.elim
  | cons b bs ih =>
    have hnext (m : Bytes) : acc + 2 ^ shift * (b.toNat % 128) + 2 ^ (shift + 7) * groupsValue m =
        acc + 2 ^ shift * groupsValue (b :: m) := by
      rw [groupsValue, Nat.pow_add]
      ring
    rw [readGroups_cons]
    constructor
    · intro h
      split at h
      · simp at h
      next hs =>
      split at h
      next hb =>
        cases h
        exact ⟨[b], rfl, by rw [Ends, if_pos hb], by show 7 * 1 + shift ≤ 35; omega, rfl⟩
      next hb =>
        obtain ⟨m, rfl, he, hl, rfl⟩ := ih.mp h
        refine ⟨b :: m, rfl, by rwa [Ends, if_neg hb], ?_, hnext m⟩
        rw [List.length_cons]
        omega
    · rintro ⟨m, hm, he, hl, rfl⟩
      cases m with
      | nil => exact he.elim
      | cons c m =>
        obtain ⟨rfl, rfl⟩ := List.cons.inj hm
        rw [List.length_cons] at hl
        rw [if_neg (by omega)]
        unfold Ends at he
        by_cases hb : b.toNat < 128
        · rw [if_pos hb] at he ⊢
          subst he
          rfl
        · rw [if_neg hb] at he ⊢
          exact ih.mpr ⟨m, rfl, he, by omega, (hnext m).symm⟩

theorem readInteger_cons (b : UInt8) (bs : Bytes) : readInteger prefixBits (b :: bs) =
    if b.toNat % 2 ^ prefixBits < prefixMax prefixBits then some (b.toNat % 2 ^ prefixBits, bs)
    else
      match readGroups bs 0 (prefixMax prefixBits) with
      | none => none
      | some (acc, rest) => if acc > 0xffffffff then none else some (acc, rest) := by
  have hand : b.toNat &&& prefixMax prefixBits = b.toNat % 2 ^ prefixBits :=
    Nat.and_two_pow_sub_one_eq_mod b.toNat prefixBits
  rw [readInteger, hand]

/-- **What is read** is the exact value of the bytes in front, and nothing behind them counts. -/
theorem readInteger_iff :
    readInteger prefixBits bs = some (v, rest) ↔ ∃ m, bs = m ++ rest ∧ Exact prefixBits m v := by
  cases bs with
  | nil =>
    refine ⟨nofun, ?_⟩
    rintro ⟨m, hm, he⟩
    obtain ⟨rfl, -⟩ := List.append_eq_nil_iff.mp hm.symm
    exact he.elim
  | cons b bs =>
    rw [readInteger_cons]
    constructor
    · intro h
      split at h
      next hlow =>
        cases h
        exact ⟨[b], rfl, by rw [Exact, if_pos hlow]; exact ⟨rfl, rfl⟩⟩
      next hlow =>
        split at h
        · simp at h
        next acc rest' hg =>
        split at h
        · simp at h
        next hbig =>
          cases h
          obtain ⟨m, rfl, he, hl, hv⟩ := readGroups_iff.mp hg
          rw [Nat.pow_zero, Nat.one_mul] at hv
          exact ⟨b :: m, rfl, by rw [Exact, if_neg hlow]; exact ⟨he, by omega, hv, by omega⟩⟩
    · rintro ⟨m, hm, he⟩
      cases m with
      | nil => exact he.elim
      | cons c m =>
        rw [List.cons_append] at hm
        obtain ⟨rfl, rfl⟩ := List.cons.inj hm
        rw [Exact] at he
        by_cases hlow : b.toNat % 2 ^ prefixBits < prefixMax prefixBits
        · rw [if_pos hlow] at he ⊢
          obtain ⟨rfl, rfl⟩ := he
          rfl
        · rw [if_neg hlow] at he ⊢
          obtain ⟨he, hl, hv, hsmall⟩ := he
          have hg : readGroups (m ++ rest) 0 (prefixMax prefixBits) = some (v, rest) :=
            readGroups_iff.mpr ⟨m, rfl, he, by omega, by rw [hv, Nat.pow_zero, Nat.one_mul]⟩
          rw [hg]
          exact if_neg (by omega)

theorem Exact.ne_nil (h : Exact prefixBits m v) : m ≠ [] := by
  rintro rfl
  exact h

theorem Exact.length_le (h : Exact prefixBits m v) : m.length ≤ 6 := by
  cases m with
  | nil => exact h.elim
  | cons b groups =>
    rw [Exact] at h
    rw [List.length_cons]
    split at h
    · rw [h.1]
      decide
    · omega

/-- What is read is read whatever follows, off the front. -/
theorem readInteger_append (h : readInteger prefixBits bs = some (v, rest)) (more : Bytes) :
    readInteger prefixBits (bs ++ more) = some (v, rest ++ more) ∧ ∃ m, m ≠ [] ∧ bs = m ++ rest := by
  obtain ⟨m, rfl, he⟩ := readInteger_iff.mp h
  exact ⟨readInteger_iff.mpr ⟨m, List.append_assoc .., he⟩, m, he.ne_nil, rfl⟩

/-- A number that is read takes at most six bytes. -/
theorem readInteger_length
    (h : readInteger prefixBits bs = some (v, rest)) : bs.length ≤ rest.length + 6 := by
  obtain ⟨m, rfl, he⟩ := readInteger_iff.mp h
  have := he.length_le
  rw [List.length_append]
  omega

/-- The bytes begin a number the reader takes: what it has not read yet may still come. -/
def Fits (prefixBits : Nat) (bs : Bytes) : Prop :=
  ∃ more v rest, readInteger prefixBits (bs ++ more) = some (v, rest)

theorem Fits.of_append {more : Bytes} (h : Fits prefixBits (bs ++ more)) : Fits prefixBits bs := by
  obtain ⟨more', v, rest, hread⟩ := h
  exact ⟨more ++ more', v, rest, by rwa [← List.append_assoc]⟩

/-- A number still waited for has at most five bytes. -/
theorem Fits.waits (hf : Fits prefixBits bs) (h : readInteger prefixBits bs = none) : bs.length ≤ 5 := by
  obtain ⟨more, v, rest, hread⟩ := hf
  obtain ⟨m, hm, he⟩ := readInteger_iff.mp hread
  have hnot : ∀ t, bs ≠ m ++ t := by
    intro t ht
    rw [readInteger_iff.mpr ⟨m, ht, he⟩] at h
    simp at h
  rcases List.append_eq_append_iff.mp hm with ⟨t, rfl, -⟩ | ⟨t, ht, -⟩
  · have hlen := he.length_le
    have hpos : t.length ≠ 0 := by
      intro hz
      rw [List.length_eq_zero_iff.mp hz] at hnot
      exact hnot [] (by simp)
    rw [List.length_append] at hlen
    omega
  · exact absurd ht (hnot t)

/-! ## §3. What is written. -/

theorem group_toNat (value : Nat) :
    (UInt8.ofNat ((value &&& 0x7f) ||| 0x80)).toNat = value % 128 + 128 := by
  have hand : value &&& 0x7f = value % 128 := Nat.and_two_pow_sub_one_eq_mod value 7
  have hor : value % 128 ||| 0x80 = 2 ^ 7 * 1 + value % 128 := by
    rw [Nat.or_comm]
    exact (Nat.two_pow_add_eq_or_of_lt (Nat.mod_lt value (show 0 < 2 ^ 7 by decide)) 1).symm
  rw [hand, hor, UInt8.toNat_ofNat']
  omega

/-- The groups end, hold the value, and are as few as its bits need. -/
theorem appendGroups_spec (fuel value k : Nat) (hf : value ≤ fuel) (hk : value < 128 ^ (k + 1)) :
    Ends (appendGroups fuel value) ∧ groupsValue (appendGroups fuel value) = value ∧
      (appendGroups fuel value).length ≤ k + 1 := by
  have hsmall : value < 128 → (UInt8.ofNat value).toNat = value := by
    intro hlt
    rw [UInt8.toNat_ofNat']
    omega
  -- the fuel bounds the value, each round divides it by 128
  induction fuel generalizing value k with
  | zero =>
    obtain rfl : value = 0 := by omega
    exact ⟨rfl, rfl, Nat.le_add_left 1 k⟩
  | succ fuel ih =>
    unfold appendGroups
    by_cases hbig : value ≥ 128
    · have hdiv : value >>> 7 = value / 128 := Nat.shiftRight_eq_div_pow value 7
      rw [if_pos hbig, Ends, groupsValue, group_toNat, if_neg (by omega), List.length_cons, hdiv]
      cases k with
      | zero => omega
      | succ k =>
        rw [Nat.pow_succ] at hk
        obtain ⟨he, hv, hl⟩ := ih (value / 128) k (by omega) (Nat.div_lt_of_lt_mul (by omega)) fun hlt => by
          rw [UInt8.toNat_ofNat']
          omega
        exact ⟨he, by rw [hv]; omega, by omega⟩
    · rw [if_neg hbig, Ends, groupsValue, hsmall (by omega), if_pos (by omega)]
      exact ⟨rfl, by rw [groupsValue]; omega, Nat.le_add_left 1 k⟩

/-- Flags above the prefix leave it alone. -/
theorem flags_mod {flags : UInt8} (hp : prefixBits ≤ 8) (hf : flags.toNat % 2 ^ prefixBits = 0)
    (hv : v < 2 ^ prefixBits) : (flags ||| UInt8.ofNat v).toNat % 2 ^ prefixBits = v := by
  have hv256 : v % 2 ^ 8 = v :=
    Nat.mod_eq_of_lt (Nat.lt_of_lt_of_le hv (Nat.pow_le_pow_right (by omega) hp))
  rw [UInt8.toNat_or, UInt8.toNat_ofNat', hv256, Nat.or_mod_two_pow, hf, Nat.zero_or, Nat.mod_eq_of_lt hv]

theorem appendInteger_exact {flags : UInt8} (hp : prefixBits ≤ 8)
    (hf : flags.toNat % 2 ^ prefixBits = 0) (hv : v < 2 ^ 32) :
    Exact prefixBits (appendInteger v prefixBits flags) v := by
  have hpos : 0 < 2 ^ prefixBits := Nat.two_pow_pos prefixBits
  have hmax : prefixMax prefixBits < 2 ^ prefixBits := by
    unfold prefixMax
    omega
  unfold appendInteger
  dsimp only
  split
  next hlow =>
    rw [Exact, flags_mod hp hf (by omega), if_pos hlow]
    exact ⟨rfl, rfl⟩
  next hlow =>
    obtain ⟨he, hval, hlen⟩ := appendGroups_spec (v - prefixMax prefixBits) (v - prefixMax prefixBits) 4
      le_rfl (by omega)
    rw [Exact, flags_mod hp hf hmax, if_neg (Nat.lt_irrefl _), hval]
    exact ⟨he, hlen, by omega, hv⟩

/-- **Round trip.** -/
theorem readInteger_appendInteger {flags : UInt8} (hp : prefixBits ≤ 8)
    (hf : flags.toNat % 2 ^ prefixBits = 0) (hv : v < 2 ^ 32) (rest : Bytes) :
    readInteger prefixBits (appendInteger v prefixBits flags ++ rest) = some (v, rest) :=
  readInteger_iff.mpr ⟨_, rfl, appendInteger_exact hp hf hv⟩

end Agensio.Codec
