/-
  Agensio.Net.Cidr — ranges of addresses.

  Model of `net/cidr.hpp`.  An entry is an address and the number of its
  bits that count; `finish` makes two words and two masks of it, with which
  a client's key is compared.  An IPv6 address that maps an IPv4 address is
  that IPv4 address.  What a text reads as, `asio::ip::make_address`, is a
  parameter.

  Main results:
    * `contains_iff` — membership is agreement in the first bits;
    * `within_iff_bits` — and `within` is agreement of the outer bits;
    * `within_exact_iff` — when that is inclusion.
-/
import Mathlib.Tactic.Tauto
import Agensio.Dispatch.Site
import Agensio.Http1.Parser
import Agensio.Lib.Splitting

namespace Agensio.Net

open Agensio.Http (slash percent)
open Agensio.Http1 (decimal)

/-! ## §1. Addresses. -/

/-- `asio::ip::address`, without a scope id. -/
structure IpAddress where
  v6 : Bool
  bytes : List UInt8
  size : bytes.length = if v6 then 16 else 4
  deriving DecidableEq

/-- The first bytes of an address that maps an IPv4 address (RFC 4291, 2.5.5.2). -/
def mappedFront : List UInt8 := [0, 0, 0, 0, 0, 0, 0, 0, 0, 0, 0xff, 0xff]

namespace IpAddress

variable (a : IpAddress)

def isV4Mapped : Bool := a.v6 && a.bytes.take 12 = mappedFront

def unmapped : IpAddress :=
  if h : a.isV4Mapped = true then
    ⟨false, a.bytes.drop 12, by
      have hsize := a.size
      rw [(Bool.and_eq_true_iff.mp h).1] at hsize
      rw [List.length_drop, hsize]
      rfl⟩
  else a

end IpAddress

/-! ## §2. Entries. -/

/-- The loop of `Cidr::word`, over `n` bytes: the first one is the highest. -/
def wordOf (bs : List UInt8) (from_ n : Nat) : UInt64 :=
  (List.range n).foldl (fun (w : UInt64) i => (w <<< 8) ||| (bs.getD (from_ + i) 0).toUInt64) 0

def word (bs : List UInt8) (from_ : Nat) : UInt64 := wordOf bs from_ 8

/-- The client in the form entries are compared in. -/
def keyOf (given : IpAddress) : Dispatch.Address :=
  let a := given.unmapped
  ⟨a.v6, word a.bytes 0, word a.bytes 8⟩

/-- `Cidr`, as `parse_cidr` leaves it. -/
structure Cidr where
  base : IpAddress
  bits : Nat
  fits : bits ≤ if base.v6 then 128 else 32
  unmapped : base.isV4Mapped = false
  deriving DecidableEq

namespace Cidr

variable (c : Cidr)

def maskHi : UInt64 := if c.bits = 0 then 0 else if c.bits ≥ 64 then ~~~0 else ~~~0 <<< UInt64.ofNat (64 - c.bits)

def maskLo : UInt64 := if c.bits ≤ 64 then 0 else if c.bits ≥ 128 then ~~~0 else ~~~0 <<< UInt64.ofNat (128 - c.bits)

/-- `finish`: the masked network and the mask. -/
def finish : Dispatch.Cidr where
  v6 := c.base.v6
  netHi := word c.base.bytes 0 &&& c.maskHi
  netLo := word c.base.bytes 8 &&& c.maskLo
  maskHi := c.maskHi
  maskLo := c.maskLo

def contains (given : IpAddress) : Bool := c.finish.matches (keyOf given)

/-- Whether every address of this entry is said to lie in `outer`. -/
def within (outer : Cidr) : Bool :=
  c.base.v6 = outer.base.v6 && c.bits ≥ outer.bits && (c.finish.netHi &&& outer.maskHi) = outer.finish.netHi &&
    (c.finish.netLo &&& outer.maskLo) = outer.finish.netLo

end Cidr

/-- `in_any`. -/
def inAny (ranges : List Cidr) (a : IpAddress) : Bool := ranges.any fun c => c.contains a

/-- The prefix length of an entry's text. -/
def parseBits (text : Bytes) : Option Nat :=
  if text = [] || text.length > 3 || !text.all fun c => 0x30 ≤ c && c ≤ 0x39 then none else some (decimal text)

/-- `parse_cidr`; `make` is `asio::ip::make_address`. -/
def parseCidr (make : Bytes → Option IpAddress) (text : Bytes) : Option Cidr :=
  let ip := text.takeWhile (· ≠ slash)
  let given : Option (Option Nat) := if text.contains slash then (parseBits (text.drop (ip.length + 1))).map some else some none
  match given with
  | none => none
  | some given =>
    if ip.contains percent then none
    else
      match make ip with
      | none => none
      | some a =>
        let most := if a.v6 then 128 else 32
        if given.any fun n => n > most then none
        else if a.isV4Mapped && given.any fun n => n < 96 then none
        else
          let b := a.unmapped
          let bits := match given with
            | none => if b.v6 then 128 else 32
            | some n => if a.isV4Mapped then n - 96 else n
          if h : bits ≤ (if b.v6 then 128 else 32) ∧ b.isV4Mapped = false then some ⟨b, bits, h.1, h.2⟩ else none

/-! ## §3. Bits. -/

/-- Bit `i` of an address, the highest one first. -/
def bit (bs : List UInt8) (i : Nat) : Bool := (bs.getD (i / 8) 0).toBitVec.getLsbD (7 - i % 8)

/-- The bits of the first `n` bytes of a word. -/
theorem getLsbD_word (bs : List UInt8) (from_ : Nat) : ∀ n ≤ 8, ∀ j,
    (wordOf bs from_ n).toBitVec.getLsbD j = (decide (j < 8 * n) && bit bs (8 * (from_ + n) - 1 - j)) := by
  intro n
  induction n with
  | zero =>
    intro _ j
    simp [wordOf]
  | succ n ih =>
    intro hn j
    have hstep : wordOf bs from_ (n + 1) = (wordOf bs from_ n <<< 8) ||| (bs.getD (from_ + n) 0).toUInt64 := by
      unfold wordOf
      rw [List.range_succ, List.foldl_append, List.foldl_cons, List.foldl_nil]
    rw [hstep, UInt64.toBitVec_or, UInt64.toBitVec_shiftLeft, UInt8.toBitVec_toUInt64, BitVec.getLsbD_or]
    have hshift : (UInt64.toBitVec 8 % 64 : BitVec 64) = 8#64 := by decide
    rw [hshift, BitVec.shiftLeft_eq', BitVec.getLsbD_shiftLeft, BitVec.getLsbD_setWidth, ih (by omega)]
    show (decide (j < 64) && !decide (j < 8) && _ || decide (j < 64) && _) = _
    by_cases hj : j < 8
    · -- the last byte
      have hi : (8 * (from_ + (n + 1)) - 1 - j) / 8 = from_ + n := by omega
      have hb : 7 - (8 * (from_ + (n + 1)) - 1 - j) % 8 = j := by omega
      unfold bit
      rw [hi, hb]
      simp [hj, show j < 64 by omega, show j < 8 * (n + 1) by omega]
    · have hout : (bs.getD (from_ + n) 0).toBitVec.getLsbD j = false := BitVec.getLsbD_of_ge _ _ (by omega)
      have hi : 8 * (from_ + n) - 1 - (j - 8) = 8 * (from_ + (n + 1)) - 1 - j := by omega
      show (decide (j < 64) && !decide (j < 8) && (decide (j - 8 < 8 * n) && bit bs (8 * (from_ + n) - 1 - (j - 8))) || _) = _
      rw [hi, hout]
      by_cases hlt : j < 8 * (n + 1)
      · simp [hj, hlt, show j < 64 by omega, show j - 8 < 8 * n by omega]
      · simp [hlt, show ¬ (j - 8 < 8 * n) by omega]

theorem word_getLsbD (bs : List UInt8) (from_ : Nat) {j : Nat} (hj : j < 64) :
    (word bs from_).toBitVec.getLsbD j = bit bs (8 * from_ + 63 - j) := by
  unfold word
  rw [getLsbD_word bs from_ 8 le_rfl]
  have hi : 8 * (from_ + 8) - 1 - j = 8 * from_ + 63 - j := by omega
  rw [hi]
  simp [hj]

/-- A mask of ones down to bit `k`. -/
theorem getLsbD_mask {k j : Nat} (hk : k < 64) (hj : j < 64) :
    ((~~~0 : UInt64) <<< UInt64.ofNat k).toBitVec.getLsbD j = decide (k ≤ j) := by
  have hshift : ((UInt64.ofNat k).toBitVec % 64 : BitVec 64).toNat = k := by
    have h64 : (64 : BitVec 64).toNat = 64 := rfl
    rw [BitVec.toNat_umod, h64, UInt64.toBitVec_ofNat', BitVec.toNat_ofNat]
    omega
  rw [UInt64.toBitVec_shiftLeft, BitVec.shiftLeft_eq', hshift, BitVec.getLsbD_shiftLeft, UInt64.toBitVec_not]
  by_cases hle : k ≤ j
  · have hnot : (~~~(0 : UInt64).toBitVec).getLsbD (j - k) = true := by
      rw [BitVec.getLsbD_not]
      simp
      omega
    rw [hnot]
    simp [hle, hj]
  · simp [hle, hj]

section Masks

variable (c : Cidr) {j : Nat}

theorem maskHi_getLsbD (hj : j < 64) : c.maskHi.toBitVec.getLsbD j = decide (64 - c.bits ≤ j ∧ c.bits ≠ 0) := by
  unfold Cidr.maskHi
  split
  · next h => simp [h]
  split
  · next h0 h =>
    rw [UInt64.toBitVec_not, BitVec.getLsbD_not]
    simp [hj, h0]
    omega
  · next h0 h =>
    rw [getLsbD_mask (by omega) hj]
    simp [h0]

theorem maskLo_getLsbD (hj : j < 64) : c.maskLo.toBitVec.getLsbD j = decide (128 - c.bits ≤ j ∧ 64 < c.bits) := by
  unfold Cidr.maskLo
  split
  · next h =>
    have : ¬ (64 < c.bits) := by omega
    simp [this]
  split
  · next h64 h =>
    rw [UInt64.toBitVec_not, BitVec.getLsbD_not]
    simp [hj]
    omega
  · next h64 h =>
    rw [getLsbD_mask (by omega) hj]
    simp
    omega

end Masks

/-- Two words under a mask, bit by bit. -/
theorem and_eq_iff {x y m : UInt64} : x &&& m = y &&& m ↔
    ∀ j < 64, m.toBitVec.getLsbD j = true → x.toBitVec.getLsbD j = y.toBitVec.getLsbD j := by
  constructor
  · intro h j hj hm
    have := congrArg (fun w => w.toBitVec.getLsbD j) h
    simpa [hm] using this
  · intro h
    refine UInt64.toBitVec_inj.mp (BitVec.eq_of_getLsbD_eq fun j hj => ?_)
    have := h j hj
    cases hm : m.toBitVec.getLsbD j with
    | true => simpa [hm] using this hm
    | false => simp [hm]

/-- Under both masks of an entry: the first bits agree. -/
theorem masked_iff (c : Cidr) (hbits : c.bits ≤ 128) (as bs : List UInt8) :
    (word as 0 &&& c.maskHi = word bs 0 &&& c.maskHi ∧ word as 8 &&& c.maskLo = word bs 8 &&& c.maskLo) ↔
      ∀ i < c.bits, bit as i = bit bs i := by
  rw [and_eq_iff, and_eq_iff]
  constructor
  · rintro ⟨hhi, hlo⟩ i hi
    by_cases hlt : i < 64
    · have := hhi (63 - i) (by omega) (by rw [maskHi_getLsbD c (by omega)]; simp; omega)
      rw [word_getLsbD as 0 (by omega), word_getLsbD bs 0 (by omega)] at this
      rwa [show 8 * 0 + 63 - (63 - i) = i by omega] at this
    · have := hlo (127 - i) (by omega) (by rw [maskLo_getLsbD c (by omega)]; simp; omega)
      rw [word_getLsbD as 8 (by omega), word_getLsbD bs 8 (by omega)] at this
      rwa [show 8 * 8 + 63 - (127 - i) = i by omega] at this
  · intro h
    refine ⟨fun j hj hm => ?_, fun j hj hm => ?_⟩
    · rw [maskHi_getLsbD c hj] at hm
      have hm := of_decide_eq_true hm
      rw [word_getLsbD as 0 hj, word_getLsbD bs 0 hj]
      exact h _ (by omega)
    · rw [maskLo_getLsbD c hj] at hm
      have hm := of_decide_eq_true hm
      rw [word_getLsbD as 8 hj, word_getLsbD bs 8 hj]
      exact h _ (by omega)

theorem Cidr.bits_le (c : Cidr) : c.bits ≤ 128 := by
  have := c.fits
  split at this <;> omega

/-! ## §4. Membership. -/

/-- **Membership is agreement in the first bits.** -/
theorem contains_iff (c : Cidr) (given : IpAddress) : c.contains given = true ↔
    given.unmapped.v6 = c.base.v6 ∧ ∀ i < c.bits, bit given.unmapped.bytes i = bit c.base.bytes i := by
  rw [← masked_iff c c.bits_le]
  unfold Cidr.contains Dispatch.Cidr.matches Cidr.finish keyOf
  simp only [Bool.and_eq_true, decide_eq_true_eq, and_assoc]

theorem maskHi_and {a b : Cidr} (h : b.bits ≤ a.bits) : a.maskHi &&& b.maskHi = b.maskHi := by
  refine UInt64.toBitVec_inj.mp (BitVec.eq_of_getLsbD_eq fun j hj => ?_)
  rw [UInt64.toBitVec_and, BitVec.getLsbD_and, maskHi_getLsbD a hj, maskHi_getLsbD b hj, ← Bool.decide_and]
  exact decide_eq_decide.mpr (by omega)

theorem maskLo_and {a b : Cidr} (h : b.bits ≤ a.bits) : a.maskLo &&& b.maskLo = b.maskLo := by
  refine UInt64.toBitVec_inj.mp (BitVec.eq_of_getLsbD_eq fun j hj => ?_)
  rw [UInt64.toBitVec_and, BitVec.getLsbD_and, maskLo_getLsbD a hj, maskLo_getLsbD b hj, ← Bool.decide_and]
  exact decide_eq_decide.mpr (by omega)

/-- **`within` is agreement in the bits of the outer entry.** -/
theorem within_iff_bits (a b : Cidr) : a.within b = true ↔
    a.base.v6 = b.base.v6 ∧ b.bits ≤ a.bits ∧ ∀ i < b.bits, bit a.base.bytes i = bit b.base.bytes i := by
  unfold Cidr.within Cidr.finish
  simp only [Bool.and_eq_true, decide_eq_true_eq, and_assoc]
  refine and_congr_right fun _ => and_congr_right fun hle => ?_
  rw [← masked_iff b b.bits_le, UInt64.and_assoc, UInt64.and_assoc, maskHi_and hle, maskLo_and hle]

/-! ## §5. Inclusion. -/

/-- The address with one bit the other way. -/
def IpAddress.flip (a : IpAddress) (i : Nat) : IpAddress where
  v6 := a.v6
  bytes := a.bytes.set (i / 8) (a.bytes.getD (i / 8) 0 ^^^ UInt8.ofBitVec (BitVec.twoPow 8 (7 - i % 8)))
  size := by
    rw [List.length_set]
    exact a.size

theorem bit_flip (a : IpAddress) {i : Nat} (hi : i / 8 < a.bytes.length) (j : Nat) :
    bit (a.flip i).bytes j = (bit a.bytes j ^^ decide (j = i)) := by
  unfold bit IpAddress.flip
  dsimp only
  by_cases hbyte : j / 8 = i / 8
  · have hset : (a.bytes.set (i / 8) (a.bytes.getD (i / 8) 0 ^^^ UInt8.ofBitVec (BitVec.twoPow 8 (7 - i % 8)))).getD
        (j / 8) 0 = a.bytes.getD (i / 8) 0 ^^^ UInt8.ofBitVec (BitVec.twoPow 8 (7 - i % 8)) := by
      rw [hbyte, List.getD_eq_getElem?_getD, List.getElem?_set_self hi]
      rfl
    rw [hset, hbyte, UInt8.toBitVec_xor, BitVec.getLsbD_xor, UInt8.toBitVec_ofBitVec, BitVec.getLsbD_twoPow]
    rw [← Bool.decide_and]
    exact congrArg _ (decide_eq_decide.mpr (by omega))
  · have hset : (a.bytes.set (i / 8) (a.bytes.getD (i / 8) 0 ^^^ UInt8.ofBitVec (BitVec.twoPow 8 (7 - i % 8)))).getD
        (j / 8) 0 = a.bytes.getD (j / 8) 0 := by
      rw [List.getD_eq_getElem?_getD, List.getElem?_set_ne (Ne.symm hbyte), List.getD_eq_getElem?_getD]
    have hne : j ≠ i := fun h => hbyte (by rw [h])
    rw [hset]
    simp [hne]

/-- Bytes are known by their bits. -/
theorem take_eq_iff {as bs : List UInt8} : ∀ {n : Nat}, n ≤ as.length → n ≤ bs.length →
    (as.take n = bs.take n ↔ ∀ i < 8 * n, bit as i = bit bs i) := by
  intro n ha hb
  constructor
  · intro h i hi
    have hbyte : ∀ {l : List UInt8}, (l.take n).getD (i / 8) 0 = l.getD (i / 8) 0 := by
      intro l
      rw [List.getD_eq_getElem?_getD, List.getElem?_take_of_lt (by omega), List.getD_eq_getElem?_getD]
    unfold bit
    rw [← hbyte (l := as), ← hbyte (l := bs), h]
  · intro h
    refine List.ext_getElem (by rw [List.length_take, List.length_take]; omega) fun k hk hk' => ?_
    have hkn : k < n := by
      rw [List.length_take] at hk
      omega
    rw [List.getElem_take, List.getElem_take]
    refine UInt8.toBitVec_inj.mp (BitVec.eq_of_getLsbD_eq fun j hj => ?_)
    have := h (8 * k + (7 - j)) (by omega)
    unfold bit at this
    rw [show (8 * k + (7 - j)) / 8 = k by omega, show 7 - (8 * k + (7 - j)) % 8 = j by omega,
      List.getD_eq_getElem?_getD, List.getD_eq_getElem?_getD, List.getElem?_eq_getElem (by omega),
      List.getElem?_eq_getElem (by omega)] at this
    exact this

section Inclusion

variable {a b : Cidr} {x : IpAddress}

theorem IpAddress.length_v6 (hv : x.v6 = true) : x.bytes.length = 16 := by
  have := x.size
  rw [hv] at this
  exact this

/-- An address maps an IPv4 address by its first 96 bits. -/
theorem isV4Mapped_iff (hv : x.v6 = true) : x.isV4Mapped = true ↔ ∀ i < 96, bit x.bytes i = bit mappedFront i := by
  have hlen := IpAddress.length_v6 hv
  unfold IpAddress.isV4Mapped
  rw [hv, Bool.true_and, decide_eq_true_eq]
  exact @take_eq_iff _ mappedFront 12 (by omega) le_rfl

theorem unmapped_of_not (h : x.isV4Mapped = false) : x.unmapped = x := by
  unfold IpAddress.unmapped
  rw [dif_neg (by rw [h]; exact Bool.false_ne_true)]

theorem unmapped_v6 (hv : x.unmapped.v6 = true) : x.isV4Mapped = false := by
  cases h : x.isV4Mapped with
  | false => rfl
  | true =>
    unfold IpAddress.unmapped at hv
    rw [dif_pos h] at hv
    cases hv

theorem not_mapped_v4 (hv : x.v6 = false) : x.isV4Mapped = false := by
  unfold IpAddress.isV4Mapped
  rw [hv]
  rfl

/-- The addresses of an entry that map nothing. -/
theorem contains_plain (h : x.isV4Mapped = false) : a.contains x = true ↔
    x.v6 = a.base.v6 ∧ ∀ i < a.bits, bit x.bytes i = bit a.base.bytes i := by
  rw [contains_iff, unmapped_of_not h]

theorem within_contains (h : a.within b = true) (hx : a.contains x = true) : b.contains x = true := by
  obtain ⟨hv, hle, hbits⟩ := (within_iff_bits a b).mp h
  obtain ⟨hxv, hxbits⟩ := (contains_iff a x).mp hx
  exact (contains_iff b x).mpr ⟨hxv.trans hv, fun i hi => (hxbits i (by omega)).trans (hbits i hi)⟩

def besideFront : List UInt8 := [0, 0, 0, 0, 0, 0, 0, 0, 0, 0, 0xff, 0xfe]

/-- The two entries beside the addresses that map IPv4: `::fffe:0:0/95` is that many bits of
    those too, and `::fffe:0:0/96` is not. -/
def Beside (a b : Cidr) : Prop :=
  a.base.v6 = true ∧ b.base.v6 = true ∧ a.bits = 95 ∧ b.bits = 96 ∧ a.base.bytes.take 12 = besideFront ∧
    b.base.bytes.take 12 = besideFront

theorem bit_besideFront : ∀ i < 96, bit besideFront i = (bit mappedFront i ^^ decide (i = 95)) := by decide

theorem take_beside_iff (hv : x.v6 = true) : x.bytes.take 12 = besideFront ↔
    ∀ i < 96, bit x.bytes i = (bit mappedFront i ^^ decide (i = 95)) := by
  have hlen := IpAddress.length_v6 hv
  have htake : x.bytes.take 12 = besideFront ↔ ∀ i < 96, bit x.bytes i = bit besideFront i :=
    @take_eq_iff _ besideFront 12 (by omega) le_rfl
  rw [htake]
  exact forall₂_congr fun i hi => by rw [bit_besideFront i hi]

/-- A bit behind those of `a`, turned in an address of `a` that maps nothing. -/
theorem flip_contains {i : Nat} (hx : x.isV4Mapped = false) (hax : a.contains x = true) (hi : a.bits ≤ i)
    (hlen : i / 8 < x.bytes.length) (hplain : (x.flip i).isV4Mapped = false) : a.contains (x.flip i) = true := by
  obtain ⟨hv, hbits⟩ := (contains_plain hx).mp hax
  refine (contains_plain hplain).mpr ⟨hv, fun j hj => ?_⟩
  have hne : j ≠ i := by omega
  rw [bit_flip x hlen, hbits j hj]
  simp [hne]

/-- Where inclusion does not come with `within`. -/
theorem within_or_beside (hsub : ∀ x, a.contains x = true → b.contains x = true) :
    a.within b = true ∨ Beside a b := by
  have hbase : a.contains a.base = true := (contains_plain a.unmapped).mpr ⟨rfl, fun _ _ => rfl⟩
  obtain ⟨hv, hbits⟩ := (contains_plain a.unmapped).mp (hsub _ hbase)
  by_cases hle : b.bits ≤ a.bits
  · exact .inl ((within_iff_bits a b).mpr ⟨hv, hle, hbits⟩)
  refine .inr ?_
  have hroom : ∀ {i}, i < b.bits → i / 8 < a.base.bytes.length := fun {i} hi => by
    have hfits := b.fits
    have hsize := a.base.size
    rw [← hv] at hfits
    rw [hsize]
    split at hfits <;> simp_all <;> omega
  -- an address with one more bit of `b` turned is in `a` and not in `b`, so it maps something
  have hmapped : ∀ i, a.bits ≤ i → i < b.bits → (a.base.flip i).isV4Mapped = true := by
    intro i hai hib
    by_contra hnot
    rw [Bool.not_eq_true] at hnot
    have hin := (contains_plain hnot).mp (hsub _ (flip_contains a.unmapped hbase hai (hroom hib) hnot))
    have := hin.2 i hib
    rw [bit_flip _ (hroom hib), ← hbits i hib] at this
    simp at this
  have hab : a.bits < b.bits := Nat.lt_of_not_le hle
  have hfirst := hmapped a.bits le_rfl hab
  have hv6 : a.base.v6 = true := by
    by_contra hnot
    rw [Bool.not_eq_true] at hnot
    rw [not_mapped_v4 (x := a.base.flip a.bits) hnot] at hfirst
    cases hfirst
  have hlen := IpAddress.length_v6 hv6
  have hpattern : ∀ i, a.bits ≤ i → i < b.bits → ∀ k < 96,
      bit a.base.bytes k = (bit mappedFront k ^^ decide (k = i)) := by
    intro i hai hib k hk
    have := (isV4Mapped_iff (x := a.base.flip i) hv6).mp (hmapped i hai hib) k hk
    rw [bit_flip _ (hroom hib)] at this
    rw [← this]
    cases decide (k = i) <;> simp
  have hnotmapped : ¬ ∀ k < 96, bit a.base.bytes k = bit mappedFront k := fun h => by
    have := (isV4Mapped_iff hv6).mpr h
    rw [a.unmapped] at this
    cases this
  have hsmall : ∀ i, a.bits ≤ i → i < b.bits → i < 96 := by
    intro i hai hib
    by_contra hbig
    refine hnotmapped fun k hk => ?_
    rw [hpattern i hai hib k hk]
    have hne : k ≠ i := by omega
    simp [hne]
  have hb96 : b.bits ≤ 96 := by
    by_contra hbig
    exact absurd (hsmall (max 96 a.bits) (by omega) (by omega)) (by omega)
  -- two turned bits map nothing, when both are of the first 96
  have ha95 : a.bits = 95 := by
    by_contra hne
    have h95 : a.bits < 95 := by
      have := hsmall a.bits le_rfl hab
      omega
    have hlen2 : 95 / 8 < (a.base.flip a.bits).bytes.length := by
      have := IpAddress.length_v6 (x := a.base.flip a.bits) hv6
      omega
    have hplain : ((a.base.flip a.bits).flip 95).isV4Mapped = false := by
      rw [← Bool.not_eq_true, isV4Mapped_iff (x := (a.base.flip a.bits).flip 95) hv6]
      intro h
      have hat := h 95 (by omega)
      rw [bit_flip _ hlen2, (isV4Mapped_iff (x := a.base.flip a.bits) hv6).mp hfirst 95 (by omega)] at hat
      simp at hat
    have hin : a.contains ((a.base.flip a.bits).flip 95) = true := by
      refine (contains_plain hplain).mpr ⟨rfl, fun j hj => ?_⟩
      rw [bit_flip _ hlen2, bit_flip _ (hroom hab)]
      simp [show j ≠ 95 by omega, show j ≠ a.bits by omega]
    have hat := ((contains_plain hplain).mp (hsub _ hin)).2 a.bits hab
    rw [bit_flip _ hlen2, bit_flip _ (hroom hab), ← hbits a.bits hab] at hat
    simp [show a.bits ≠ 95 by omega] at hat
  have hbits96 : b.bits = 96 := by omega
  have hshape : ∀ k < 96, bit a.base.bytes k = (bit mappedFront k ^^ decide (k = 95)) := by
    have := hpattern a.bits le_rfl hab
    rwa [ha95] at this
  refine ⟨hv6, hv ▸ hv6, ha95, hbits96, (take_beside_iff hv6).mpr hshape,
    (take_beside_iff (hv ▸ hv6)).mpr fun k hk => ?_⟩
  rw [← hshape k hk]
  exact (hbits k (by omega)).symm

/-- Beside the mapped addresses, inclusion holds and `within` does not. -/
theorem beside_contains (h : Beside a b) (hx : a.contains x = true) : b.contains x = true := by
  obtain ⟨hav, hbv, ha, hb, hta, htb⟩ := h
  obtain ⟨hv, hbits⟩ := (contains_iff a x).mp hx
  have hxv : x.unmapped.v6 = true := hv.trans hav
  have hplain := unmapped_v6 hxv
  rw [unmapped_of_not hplain] at hv hbits hxv
  refine (contains_plain hplain).mpr ⟨hxv.trans hbv.symm, fun i hi => ?_⟩
  have hshape := (take_beside_iff hav).mp hta
  have hshape' := (take_beside_iff hbv).mp htb
  rw [hshape' i (by omega)]
  by_cases h95 : i = 95
  · subst h95
    by_contra hne
    -- with the other bit it would map an IPv4 address
    have hmapped : x.isV4Mapped = true := by
      refine (isV4Mapped_iff hxv).mpr fun k hk => ?_
      by_cases hk95 : k = 95
      · subst hk95
        revert hne
        cases bit x.bytes 95 <;> cases bit mappedFront 95 <;> simp
      · rw [hbits k (by omega), hshape k hk]
        simp [hk95]
    rw [hplain] at hmapped
    cases hmapped
  · rw [hbits i (by omega), hshape i (by omega)]

/-- **`within` is inclusion**, but for the two entries beside the mapped addresses. -/
theorem within_exact_iff (a b : Cidr) :
    (a.within b = true ↔ ∀ x, a.contains x = true → b.contains x = true) ↔ ¬ Beside a b := by
  constructor
  · intro h hbeside
    have hwithin := h.mpr fun x hx => beside_contains hbeside hx
    have hle := ((within_iff_bits a b).mp hwithin).2.1
    obtain ⟨_, _, ha, hb, _⟩ := hbeside
    omega
  · intro hnot
    refine ⟨fun h x hx => within_contains h hx, fun hsub => ?_⟩
    exact (within_or_beside hsub).resolve_right hnot

end Inclusion

end Agensio.Net
