/-
  Agensio.Codec.Huffman — Huffman coding of strings.

  Model of `huffman_size`, `huffman_encode` and `huffman_decode` of
  `http/field_codec.cpp`: the encoder shifts codes through a 64-bit
  accumulator, the decoder runs a table over half bytes and stores
  through a pointer.  Both are compared with the code as a TREE
  (`huffmanTree`, built from the code table): every row of the automaton
  does what the tree does (`rows_ok`).

  Main results:
    * `huffman_exact` — the coding is exact, and never stopped by the
      decoder's own estimate.
-/
import Agensio.Bytes
import Agensio.Lib.PrefixCode
import Agensio.Codec.HuffmanTables

namespace Agensio.Codec

open Agensio.Lib

/-! ## §1. The model. -/

inductive HuffStatus where
  | malformed
  | tooLarge
  deriving DecidableEq

def huffmanCode (c : UInt8) : Nat × Nat := kHuffmanCodes.getD c.toNat (0, 0)

def huffmanSize (s : Bytes) : Nat := ((s.map fun c => (huffmanCode c).2).sum + 7) / 8

/-- `acc`, `nbits` and the bytes pushed. -/
structure HuffmanOut where
  acc : Nat := 0
  nbits : Nat := 0
  out : Bytes := []

/-- `while (nbits >= 8)`: the whole bytes of the accumulator go out. -/
def huffmanFlush : Nat → HuffmanOut → HuffmanOut
  | 0, st => st
  | fuel + 1, st =>
    if st.nbits ≥ 8 then
      huffmanFlush fuel { st with
        nbits := st.nbits - 8
        out := st.out ++ [UInt8.ofNat ((st.acc >>> (st.nbits - 8)) &&& 0xff)] }
    else st

/-- One round of `huffman_encode`; the accumulator is a 64-bit word. -/
def huffmanPush (st : HuffmanOut) (c : UInt8) : HuffmanOut :=
  let code := huffmanCode c
  let st' := { st with
    acc := ((st.acc <<< code.2) ||| code.1) % 2 ^ 64, nbits := st.nbits + code.2 }
  huffmanFlush st'.nbits st'

/-- `huffman_encode`: the bytes appended, padded with the leading bits of EOS. -/
def huffmanEncode (s : Bytes) : Bytes :=
  let st := s.foldl huffmanPush {}
  if st.nbits > 0 then
    let pad := 8 - st.nbits
    st.out ++ [UInt8.ofNat (((st.acc <<< pad) ||| (2 ^ pad - 1)) &&& 0xff)]
  else st.out

def huffmanStep (state nibble : Nat) : HuffmanStep :=
  (kHuffmanSteps.getD state []).getD nibble ⟨0, kHuffmanFail, 0⟩

/-- The state, the last flags and the symbols stored. -/
structure HuffmanIn where
  state : Nat := 0
  flags : Nat := kHuffmanAccepted
  out : Bytes := []

/-- Half a byte; `cap` symbols fit in the output. -/
def huffmanNibble (cap : Nat) (st : HuffmanIn) (nibble : Nat) : Except HuffStatus HuffmanIn :=
  let step := huffmanStep st.state nibble
  if step.flags &&& kHuffmanFail ≠ 0 then .error .malformed
  else if step.flags &&& kHuffmanSymbol ≠ 0 then
    if st.out.length = cap then .error .tooLarge
    else .ok ⟨step.next, step.flags, st.out ++ [UInt8.ofNat step.symbol]⟩
  else .ok ⟨step.next, step.flags, st.out⟩

def huffmanByte (cap : Nat) (st : HuffmanIn) (c : UInt8) : Except HuffStatus HuffmanIn :=
  match huffmanNibble cap st (c.toNat >>> 4) with
  | .error e => .error e
  | .ok st' => huffmanNibble cap st' (c.toNat &&& 0xf)

/-- `for (const unsigned char c : in)`. -/
def huffmanBytes (cap : Nat) : HuffmanIn → Bytes → Except HuffStatus HuffmanIn
  | st, [] => .ok st
  | st, c :: cs =>
    match huffmanByte cap st c with
    | .error e => .error e
    | .ok st' => huffmanBytes cap st' cs

/-- `huffman_decode`: the symbols appended. -/
def huffmanDecode (in_ : Bytes) (maxOut : Nat) : Except HuffStatus Bytes :=
  let cap := min maxOut (in_.length * 8 / 5 + 1)
  match huffmanBytes cap {} in_ with
  | .error e => .error e
  | .ok st => if st.flags &&& kHuffmanAccepted ≠ 0 then .ok st.out else .error .malformed

/-! ## §2. The buffer. -/

/-- `string::resize`. -/
def resize (s : Bytes) (n : Nat) : Bytes := s.take n ++ List.replicate (n - s.length) 0

/-- The variables of `huffman_decode`; `w` as a place in the string. -/
structure HuffmanBuffer where
  state : Nat
  flags : Nat
  buf : Bytes
  w : Nat

/-- Half a byte: a symbol is stored where `w` points.  A failure leaves the string as it is. -/
def storeNibble (end_ : Nat) (st : HuffmanBuffer) (nibble : Nat) :
    Except (HuffStatus × Bytes) HuffmanBuffer :=
  let step := huffmanStep st.state nibble
  if step.flags &&& kHuffmanFail ≠ 0 then .error (.malformed, st.buf)
  else if step.flags &&& kHuffmanSymbol ≠ 0 then
    if st.w = end_ then .error (.tooLarge, st.buf)
    else .ok ⟨step.next, step.flags, st.buf.set st.w (UInt8.ofNat step.symbol), st.w + 1⟩
  else .ok { st with state := step.next, flags := step.flags }

def storeBytes (end_ : Nat) : HuffmanBuffer → Bytes → Except (HuffStatus × Bytes) HuffmanBuffer
  | st, [] => .ok st
  | st, c :: cs =>
    match storeNibble end_ st (c.toNat >>> 4) with
    | .error e => .error e
    | .ok hi =>
      match storeNibble end_ hi (c.toNat &&& 0xf) with
      | .error e => .error e
      | .ok lo => storeBytes end_ lo cs

/-- `huffman_decode` with the string it appends to. -/
def huffmanDecodeInto (in_ out : Bytes) (maxOut : Nat) : Except HuffStatus Unit × Bytes :=
  let start := out.length
  let cap := min maxOut (in_.length * 8 / 5 + 1)
  match storeBytes (start + cap) ⟨0, kHuffmanAccepted, resize out (start + cap), start⟩ in_ with
  | .error (e, buf) => (.error e, resize buf start)
  | .ok st =>
    let out := resize st.buf st.w
    if st.flags &&& kHuffmanAccepted ≠ 0 then (.ok (), out) else (.error .malformed, resize out start)

/-! ## §3. The tables against the tree. -/

def codeBits (c : UInt8) : List Bool := bitsOf (huffmanCode c).2 (huffmanCode c).1

/-- The tree of the 256 codes; nothing is at EOS. -/
def huffmanTree : CodeTree UInt8 :=
  (((kHuffmanCodes.take 256).zipIdx.foldl
    (fun (t : CodeTree UInt8) x => t.insert (bitsOf x.1.2 x.1.1) (UInt8.ofNat x.2))
    (.leaf none)).number 0).1

/-- The nodes a padding of up to seven 1-bits can end in, a bit for each. -/
def paddingNodes : Nat :=
  ((List.range 8).filterMap fun k =>
    (CodeTree.sub huffmanTree (List.replicate k true)).map CodeTree.name).foldl (fun m n => m ||| 1 <<< n) 0

/-- A step of the automaton does what the tree does on four bits. -/
def stepOk (t : CodeTree UInt8) (nibble : Nat) (step : HuffmanStep) : Bool :=
  match CodeTree.walk huffmanTree t (bitsOf 4 nibble) with
  | none => step.flags &&& kHuffmanFail != 0
  | some (out, t') =>
    step.flags &&& kHuffmanFail == 0 && step.next == t'.name &&
      (out == if step.flags &&& kHuffmanSymbol != 0 then [UInt8.ofNat step.symbol] else []) &&
      (step.flags &&& kHuffmanAccepted != 0) == paddingNodes.testBit t'.name

/-- The code, that of `c`, leads from the root to `c`, and has 5 to 30 bits. -/
def codeOk (code : Nat × Nat) (c : UInt8) : Bool :=
  decide (5 ≤ code.2) && decide (code.2 ≤ 30) && decide (code.1 < 2 ^ code.2) &&
    match CodeTree.sub huffmanTree (bitsOf code.2 code.1) with
    | some (.leaf (some a)) => a == c
    | _ => false

/-- The way to a symbol is its code, -/
def leafOk (p : List Bool) : CodeTree UInt8 → Bool
  | .leaf (some c) => p == codeBits c
  | _ => true

/-- the way to a node of the padding is 1-bits, -/
def padOk (p : List Bool) : CodeTree UInt8 → Bool
  | .node n _ _ => !paddingNodes.testBit n || decide (p = List.replicate p.length true ∧ p.length < 8)
  | _ => true

/-- and each inner node has its row. -/
def rowOk (_ : List Bool) : CodeTree UInt8 → Bool
  | .node n z o =>
    let row := kHuffmanRows.getD n 0
    decide (n < 256) && (List.range 16).all fun v => stepOk (.node n z o) v (readStep row v)
  | _ => true

/-- The tables, against the tree. -/
theorem tables_ok : ((((kHuffmanCodes.take 256).zipIdx).all fun x => codeOk x.1 (UInt8.ofNat x.2)) = true ∧
      kHuffmanCodes.length = 257) ∧
    huffmanTree.everywhere leafOk [] = true ∧ huffmanTree.everywhere padOk [] = true ∧
    (huffmanTree.everywhere rowOk [] = true ∧ kHuffmanRows.length = 256) ∧ ((List.range 8).all fun k =>
      match CodeTree.sub huffmanTree (List.replicate k true) with
      | some (.node n _ _) => paddingNodes.testBit n
      | _ => false) = true ∧
    ((codeBits 0).length ≠ 0 ∧ huffmanTree.name = 0 ∧ paddingNodes.testBit 0 = true) ∧
    ∀ a b c, (CodeTree.walk huffmanTree huffmanTree [a]).isSome ∧
      (CodeTree.walk huffmanTree huffmanTree [a, b]).isSome ∧
      (CodeTree.walk huffmanTree huffmanTree [a, b, c]).isSome := by
  decide +kernel

theorem leaves_ok : huffmanTree.everywhere leafOk [] = true := tables_ok.2.1

theorem pads_ok : huffmanTree.everywhere padOk [] = true := tables_ok.2.2.1

theorem rows_ok : huffmanTree.everywhere rowOk [] = true := tables_ok.2.2.2.1.1

theorem huffmanCode_bounds (c : UInt8) : 5 ≤ (huffmanCode c).2 ∧ (huffmanCode c).2 ≤ 30 ∧
      (huffmanCode c).1 < 2 ^ (huffmanCode c).2 ∧
      CodeTree.sub huffmanTree (codeBits c) = some (.leaf (some c)) := by
  have hc := c.toNat_lt
  have hmem : (huffmanCode c, c.toNat) ∈ (kHuffmanCodes.take 256).zipIdx := by
    rw [List.mk_mem_zipIdx_iff_getElem?, List.getElem?_take_of_lt hc]
    have hlen : c.toNat < kHuffmanCodes.length := by
      rw [tables_ok.1.2]
      omega
    rw [List.getElem?_eq_getElem hlen, huffmanCode, List.getD_eq_getElem _ _ hlen]
  have h := List.all_eq_true.mp tables_ok.1.1 _ hmem
  rw [UInt8.ofNat_toNat] at h
  unfold codeOk at h
  simp only [Bool.and_eq_true, decide_eq_true_eq] at h
  refine ⟨h.1.1.1, h.1.1.2, h.1.2, ?_⟩
  have hsub := h.2
  split at hsub
  next a ha => exact ha.trans (by rw [eq_of_beq hsub])
  · simp at hsub

/-- The row of an inner node is that of the automaton's state. -/
theorem stepOk_sub {p : List Bool} {n v : Nat} {z o : CodeTree UInt8}
    (h : CodeTree.sub huffmanTree p = some (.node n z o)) (hv : v < 16) :
    stepOk (.node n z o) v (huffmanStep n v) = true := by
  have hrow : rowOk ([] ++ p) (.node n z o) = true := CodeTree.everywhere_sub rows_ok h
  unfold rowOk at hrow
  rw [Bool.and_eq_true, decide_eq_true_eq] at hrow
  have hlen : n < kHuffmanRows.length := by
    rw [tables_ok.2.2.2.1.2]
    exact hrow.1
  have hstep : huffmanStep n v = readStep (kHuffmanRows.getD n 0) v := by
    simp [huffmanStep, kHuffmanSteps, List.getD_eq_getElem?_getD, hlen, hv]
  rw [hstep]
  exact List.all_eq_true.mp hrow.2 v (List.mem_range.mpr hv)

/-- The root is an inner node. -/
theorem huffmanTree_root : ∃ n z o, huffmanTree = .node n z o := by
  cases h : huffmanTree with
  | leaf s =>
    have hc := (huffmanCode_bounds 0).2.2.2
    have hlen : (codeBits 0).length ≠ 0 := tables_ok.2.2.2.2.2.1.1
    rw [h] at hc
    cases hb : codeBits 0 with
    | nil => exact absurd (congrArg List.length hb) hlen
    | cons b bs =>
      rw [hb] at hc
      simp [CodeTree.sub] at hc
  | node n z o => exact ⟨n, z, o, rfl⟩

/-! ## §4. What the encoder writes. -/

def bytesBits (bs : Bytes) : List Bool := bs.flatMap fun b => bitsOf 8 b.toNat

theorem bytesBits_append (xs ys : Bytes) : bytesBits (xs ++ ys) = bytesBits xs ++ bytesBits ys :=
  List.flatMap_append

theorem bytesBits_singleton (b : UInt8) : bytesBits [b] = bitsOf 8 b.toNat := by
  simp [bytesBits]

theorem length_bytesBits (bs : Bytes) : (bytesBits bs).length = 8 * bs.length := by
  induction bs with
  | nil => rfl
  | cons b bs ih =>
    show (bitsOf 8 b.toNat ++ bytesBits bs).length = _
    rw [List.length_append, ih, length_bitsOf, List.length_cons]
    omega

/-- A byte cut from the accumulator has the bits it was cut from. -/
theorem bitsOf_byte (v : Nat) : bitsOf 8 (UInt8.ofNat (v &&& 0xff)).toNat = bitsOf 8 v := by
  have hand : v &&& 0xff = v % 2 ^ 8 := Nat.and_two_pow_sub_one_eq_mod v 8
  rw [UInt8.toNat_ofNat', hand, Nat.mod_mod]
  exact bitsOf_mod v (Nat.le_refl 8)

/-- The bits written so far: the bytes pushed and what is left in the accumulator. -/
def HuffmanOut.bits (st : HuffmanOut) : List Bool := bytesBits st.out ++ bitsOf st.nbits st.acc

theorem bits_huffmanFlush (fuel : Nat) (st : HuffmanOut) (hf : st.nbits ≤ fuel) :
    (huffmanFlush fuel st).bits = st.bits ∧ (huffmanFlush fuel st).nbits < 8 := by
  induction fuel generalizing st with
  | zero =>
    refine ⟨rfl, ?_⟩
    show st.nbits < 8
    omega
  | succ fuel ih =>
    unfold huffmanFlush
    by_cases h8 : st.nbits ≥ 8
    · rw [if_pos h8]
      obtain ⟨hbits, hlt⟩ := ih { st with
        nbits := st.nbits - 8
        out := st.out ++ [UInt8.ofNat ((st.acc >>> (st.nbits - 8)) &&& 0xff)] }
        (by show st.nbits - 8 ≤ fuel; omega)
      refine ⟨hbits.trans ?_, hlt⟩
      have hcut : bitsOf st.nbits st.acc =
          bitsOf 8 (st.acc >>> (st.nbits - 8)) ++ bitsOf (st.nbits - 8) st.acc := by
        rw [← bitsOf_add, show 8 + (st.nbits - 8) = st.nbits by omega]
      unfold HuffmanOut.bits
      rw [bytesBits_append, bytesBits_singleton, bitsOf_byte, hcut, List.append_assoc]
    · rw [if_neg h8]
      exact ⟨rfl, by omega⟩

/-- One symbol adds its code. -/
theorem bits_huffmanPush (st : HuffmanOut) (c : UInt8) (hn : st.nbits < 8) :
    (huffmanPush st c).bits = st.bits ++ codeBits c ∧ (huffmanPush st c).nbits < 8 := by
  obtain ⟨-, hle, hlt, -⟩ := huffmanCode_bounds c
  unfold huffmanPush
  obtain ⟨hbits, hn'⟩ := bits_huffmanFlush (st.nbits + (huffmanCode c).2) { st with
    acc := ((st.acc <<< (huffmanCode c).2) ||| (huffmanCode c).1) % 2 ^ 64
    nbits := st.nbits + (huffmanCode c).2 } le_rfl
  refine ⟨hbits.trans ?_, hn'⟩
  unfold HuffmanOut.bits codeBits
  dsimp only
  -- 7 bits left over and 30 new ones stay far below the 64 of the accumulator
  rw [bitsOf_mod _ (by omega), bitsOf_or_shiftLeft hlt, List.append_assoc]

theorem bits_foldl_huffmanPush (s : Bytes) (st : HuffmanOut) (hn : st.nbits < 8) :
    (s.foldl huffmanPush st).bits = st.bits ++ s.flatMap codeBits ∧ (s.foldl huffmanPush st).nbits < 8 := by
  induction s generalizing st with
  | nil =>
    refine ⟨?_, hn⟩
    simp
  | cons c s ih =>
    obtain ⟨hbits, hlt⟩ := bits_huffmanPush st c hn
    obtain ⟨hbits', hlt'⟩ := ih (huffmanPush st c) hlt
    refine ⟨?_, hlt'⟩
    show (s.foldl huffmanPush (huffmanPush st c)).bits = _
    rw [hbits', hbits, List.flatMap_cons, List.append_assoc]

/-- **The encoder writes the codes one behind the other**, and at most seven 1-bits after them. -/
theorem huffmanEncode_bits (s : Bytes) :
    ∃ pad < 8, bytesBits (huffmanEncode s) = s.flatMap codeBits ++ List.replicate pad true := by
  obtain ⟨hbits, hlt⟩ := bits_foldl_huffmanPush s {} (by decide)
  have hbits' : (s.foldl huffmanPush {}).bits = s.flatMap codeBits := by
    rw [hbits]
    exact List.nil_append _
  unfold huffmanEncode
  by_cases hpos : (s.foldl huffmanPush {}).nbits > 0
  · rw [if_pos hpos]
    refine ⟨8 - (s.foldl huffmanPush {}).nbits, by omega, ?_⟩
    rw [bytesBits_append, bytesBits_singleton, bitsOf_byte, ← hbits', HuffmanOut.bits,
      List.append_assoc, ← bitsOf_ones,
      ← bitsOf_or_shiftLeft (Nat.sub_lt (Nat.two_pow_pos _) (by decide))]
    rw [show (s.foldl huffmanPush {}).nbits + (8 - (s.foldl huffmanPush {}).nbits) = 8 by omega]
  · rw [if_neg hpos]
    refine ⟨0, by decide, ?_⟩
    have hzero : (s.foldl huffmanPush {}).nbits = 0 := by omega
    rw [← hbits', HuffmanOut.bits, hzero]
    simp [bitsOf]

theorem length_flatMap_codeBits (s : Bytes) :
    (s.flatMap codeBits).length = (s.map fun c => (huffmanCode c).2).sum := by
  induction s with
  | nil => rfl
  | cons c s ih =>
    rw [List.flatMap_cons, List.length_append, ih, List.map_cons, List.sum_cons]
    show (bitsOf _ _).length + _ = _
    rw [length_bitsOf]

/-- `huffman_size` is the length of what `huffman_encode` appends. -/
theorem length_huffmanEncode (s : Bytes) : (huffmanEncode s).length = huffmanSize s := by
  obtain ⟨pad, hpad, hbits⟩ := huffmanEncode_bits s
  have hlen := congrArg List.length hbits
  rw [length_bytesBits, List.length_append, length_flatMap_codeBits, List.length_replicate] at hlen
  unfold huffmanSize
  omega

/-- No code is shorter than five bits. -/
theorem five_mul_length_le (s : Bytes) : 5 * s.length ≤ (s.map fun c => (huffmanCode c).2).sum := by
  induction s with
  | nil => exact Nat.zero_le _
  | cons c s ih =>
    have hc := (huffmanCode_bounds c).1
    rw [List.map_cons, List.sum_cons, List.length_cons]
    omega

/-! ## §5. What the decoder reads. -/

/-- The bits are the codes of `s` and at most seven 1-bits of padding. -/
def Decodes (t s : Bytes) : Prop :=
  ∃ pad < 8, bytesBits t = s.flatMap codeBits ++ List.replicate pad true

/-- The bits begin with the codes of more than `cap` symbols. -/
def Exceeds (cap : Nat) (bits : List Bool) : Prop :=
  ∃ s : Bytes, s.length = cap + 1 ∧ s.flatMap codeBits <+: bits

/-- A walk over the bits of a whole string. -/
def walkRoot (bits : List Bool) : Option (Bytes × CodeTree UInt8) :=
  CodeTree.walk huffmanTree huffmanTree bits

variable {bits : List Bool} {s : Bytes} {t : CodeTree UInt8} {cap : Nat} {st : HuffmanIn}

theorem walkRoot_codes (h : walkRoot bits = some (s, t)) :
    ∃ path n z o, bits = s.flatMap codeBits ++ path ∧ t = .node n z o ∧
      CodeTree.sub huffmanTree path = some t := by
  obtain ⟨n, z, o, hroot⟩ := huffmanTree_root
  have hcode : ∀ c a, CodeTree.sub huffmanTree c = some (.leaf (some a)) → c = codeBits a :=
    fun c a hc => eq_of_beq (CodeTree.everywhere_sub leaves_ok hc)
  have hstart : CodeTree.sub huffmanTree [] = some (.node n z o) := by rw [CodeTree.sub_nil, hroot]
  have hwalk : CodeTree.walk huffmanTree (.node n z o) bits = some (s, t) := by
    rw [← hroot]
    exact h
  exact CodeTree.walk_codes hroot hcode hstart hwalk

theorem walkRoot_append (xs ys : List Bool) : walkRoot (xs ++ ys) = (walkRoot xs).bind fun r =>
      (CodeTree.walk huffmanTree r.2 ys).map fun r' => (r.1 ++ r'.1, r'.2) :=
  CodeTree.walk_append ..

theorem walkRoot_flatMap (s : Bytes) (path : List Bool) :
    walkRoot (s.flatMap codeBits ++ path) = (walkRoot path).map fun r => (s ++ r.1, r.2) := by
  have hcodes : walkRoot (s.flatMap codeBits) = some (s.map id, huffmanTree) := by
    refine CodeTree.walk_flatMap s fun c _ => ?_
    obtain ⟨hlen, -, -, hsub⟩ := huffmanCode_bounds c
    refine CodeTree.walk_sub (fun hnil => ?_) hsub
    have hzero := congrArg List.length hnil
    rw [codeBits, length_bitsOf] at hzero
    exact absurd hzero (by simp; omega)
  rw [walkRoot_append, hcodes, List.map_id, Option.bind_some]
  dsimp only [walkRoot]

theorem walkRoot_padding {pad : Nat} (h : pad < 8) :
    ∃ n z o, walkRoot (List.replicate pad true) = some ([], .node n z o) ∧ paddingNodes.testBit n = true := by
  have hok := List.all_eq_true.mp tables_ok.2.2.2.2.1 pad (List.mem_range.mpr h)
  split at hok
  next n z o hsub =>
    refine ⟨n, z, o, ?_, hok⟩
    cases pad with
    | zero =>
      rw [List.replicate_zero, CodeTree.sub_nil] at hsub
      rw [walkRoot, List.replicate_zero, CodeTree.walk_nil, Option.some.inj hsub]
    | succ pad => exact CodeTree.walk_sub (List.cons_ne_nil _ _) hsub
  · simp at hok

/-- A string is decoded where the walk ends in a node of the padding. -/
theorem decodes_iff (t s : Bytes) :
    Decodes t s ↔ ∃ n z o, walkRoot (bytesBits t) = some (s, .node n z o) ∧ paddingNodes.testBit n = true := by
  constructor
  · rintro ⟨pad, hpad, hbits⟩
    obtain ⟨n, z, o, hwalk, hn⟩ := walkRoot_padding hpad
    refine ⟨n, z, o, ?_, hn⟩
    rw [hbits, walkRoot_flatMap, hwalk, Option.map_some, List.append_nil]
  · rintro ⟨n, z, o, hwalk, hn⟩
    obtain ⟨path, n', z', o', hbits, -, hsub⟩ := walkRoot_codes hwalk
    have hok : padOk path _ = true := CodeTree.everywhere_sub pads_ok hsub
    simp only [padOk, hn, Bool.not_true, Bool.false_or, decide_eq_true_eq] at hok
    obtain ⟨hones, hlen⟩ := hok
    exact ⟨path.length, hlen, by rw [hbits, ← hones]⟩

/-- Codes at the front are the first symbols of what is decoded. -/
theorem Exceeds.length (h : Exceeds cap bits) (hwalk : walkRoot bits = some (s, t)) : cap < s.length := by
  obtain ⟨s', hlen, rest, rfl⟩ := h
  rw [walkRoot_flatMap] at hwalk
  obtain ⟨r, -, heq⟩ := Option.map_eq_some_iff.mp hwalk
  obtain ⟨rfl, -⟩ := Prod.mk.inj heq
  rw [List.length_append]
  omega

theorem Exceeds.append (h : Exceeds cap bits) (more : List Bool) : Exceeds cap (bits ++ more) := by
  obtain ⟨s, hlen, hpre⟩ := h
  exact ⟨s, hlen, hpre.trans (List.prefix_append ..)⟩

theorem Exceeds.mono {cap' : Nat} (h : Exceeds cap bits) (hle : cap' ≤ cap) : Exceeds cap' bits := by
  obtain ⟨s, hlen, hpre⟩ := h
  refine ⟨s.take (cap' + 1), by rw [List.length_take]; omega, List.IsPrefix.trans ?_ hpre⟩
  conv_rhs => rw [← List.take_append_drop (cap' + 1) s, List.flatMap_append]
  exact List.prefix_append ..

/-- No code is shorter than five bits, so the estimate is never exceeded. -/
theorem Exceeds.five_mul_lt (h : Exceeds cap bits) : 5 * cap < bits.length := by
  obtain ⟨s, hlen, hpre⟩ := h
  have hfive := five_mul_length_le s
  have hle := hpre.length_le
  rw [length_flatMap_codeBits] at hle
  omega

/-- The state, the flags and the symbols are those of the tree after these bits. -/
def At (bits : List Bool) (st : HuffmanIn) : Prop :=
  ∃ z o, walkRoot bits = some (st.out, .node st.state z o) ∧
    (st.flags &&& kHuffmanAccepted ≠ 0 ↔ paddingNodes.testBit st.state = true)

/-- What the loop has to say about the bits so far. -/
def Answer (cap : Nat) (bits : List Bool) : Except HuffStatus HuffmanIn → Prop
  | .ok st => At bits st ∧ st.out.length ≤ cap
  | .error .malformed => walkRoot bits = none ∧ ¬ Exceeds cap bits
  | .error .tooLarge => Exceeds cap bits

/-- An error stands, whatever follows. -/
theorem Answer.error_append {e : HuffStatus} (h : Answer cap bits (.error e)) (more : List Bool) :
    Answer cap (bits ++ more) (.error e) := by
  cases e with
  | malformed =>
    obtain ⟨hnone, hfew⟩ := h
    refine ⟨by rw [walkRoot_append, hnone, Option.bind_none], fun ⟨s, hlen, hpre⟩ => ?_⟩
    rcases List.prefix_or_prefix_of_prefix hpre (List.prefix_append bits more) with hin | ⟨rest, hrest⟩
    · exact hfew ⟨s, hlen, hin⟩
    -- what fails is no beginning of codes
    have hwalk := walkRoot_flatMap s []
    rw [List.append_nil, ← hrest, walkRoot_append, hnone] at hwalk
    simp [walkRoot, CodeTree.walk_nil] at hwalk
  | tooLarge => exact Exceeds.append h more

/-- No code is so short that three bits behind a symbol can fail. -/
theorem walkRoot_short {rest : List Bool} (h : rest.length < 4) : walkRoot rest ≠ none := by
  have hall : ∀ a b c, (walkRoot [a]).isSome ∧ (walkRoot [a, b]).isSome ∧ (walkRoot [a, b, c]).isSome :=
    tables_ok.2.2.2.2.2.2
  rcases rest with _ | ⟨a, _ | ⟨b, _ | ⟨c, _ | ⟨d, rest⟩⟩⟩⟩
  · rw [walkRoot, CodeTree.walk_nil]
    exact Option.some_ne_none _
  · exact Option.isSome_iff_ne_none.mp (hall a a a).1
  · exact Option.isSome_iff_ne_none.mp (hall a b b).2.1
  · exact Option.isSome_iff_ne_none.mp (hall a b c).2.2
  simp only [List.length_cons] at h
  omega

theorem not_exceeds {v : List Bool} (hwalk : walkRoot bits = some (s, t)) (hcap : s.length ≤ cap)
    (hv : v.length = 4) (hnone : walkRoot (bits ++ v) = none) : ¬ Exceeds cap (bits ++ v) := by
  rintro ⟨s', hlen, rest, heq⟩
  have hout : ∀ more, bits ≠ s'.flatMap codeBits ++ more := by
    rintro more rfl
    have := Exceeds.length ⟨s', hlen, more, rfl⟩ hwalk
    omega
  rw [← heq, walkRoot_flatMap, Option.map_eq_none_iff] at hnone
  rcases List.append_eq_append_iff.mp heq with ⟨front, hbits, -⟩ | ⟨front, hcodes, hvr⟩
  · exact hout front hbits
  -- the last symbol is completed in the half byte
  refine walkRoot_short ?_ hnone
  have hne : front ≠ [] := by
    rintro rfl
    exact hout [] (by rw [hcodes]; simp)
  have hpos := List.length_pos_iff.mpr hne
  have hsum := congrArg List.length hvr
  rw [List.length_append] at hsum
  omega

/-- **Half a byte.** -/
theorem huffmanNibble_answer {v : Nat} (h : At bits st) (hcap : st.out.length ≤ cap) (hv : v < 16) :
    Answer cap (bits ++ bitsOf 4 v) (huffmanNibble cap st v) := by
  obtain ⟨z, o, hwalk, -⟩ := h
  obtain ⟨path, n, z', o', -, -, hsub⟩ := walkRoot_codes hwalk
  have hok := stepOk_sub hsub hv
  have hmore : walkRoot (bits ++ bitsOf 4 v) =
      (CodeTree.walk huffmanTree (.node st.state z o) (bitsOf 4 v)).map fun r => (st.out ++ r.1, r.2) := by
    rw [walkRoot_append, hwalk]
    rfl
  unfold stepOk at hok
  unfold huffmanNibble
  cases hrow : CodeTree.walk huffmanTree (.node st.state z o) (bitsOf 4 v) with
  | none =>
    rw [hrow] at hok hmore
    rw [if_pos (by simpa using hok)]
    exact ⟨hmore, not_exceeds hwalk hcap (length_bitsOf 4 v) hmore⟩
  | some r =>
    obtain ⟨out, t'⟩ := r
    rw [hrow] at hok hmore
    have hmore : walkRoot (bits ++ bitsOf 4 v) = some (st.out ++ out, t') := hmore
    simp only [Bool.and_eq_true, beq_iff_eq] at hok
    obtain ⟨⟨⟨hfail, hnext⟩, hout⟩, hacc⟩ := hok
    obtain ⟨path', n', z₁, o₁, hbits, ht', -⟩ := walkRoot_codes hmore
    subst ht'
    have hnext : (huffmanStep st.state v).next = n' := hnext
    have hflags : (huffmanStep st.state v).flags &&& kHuffmanAccepted ≠ 0 ↔
        paddingNodes.testBit n' = true := by
      rw [← show _ = paddingNodes.testBit n' from hacc]
      simp
    rw [if_neg (by simp [hfail])]
    by_cases hsym : (huffmanStep st.state v).flags &&& kHuffmanSymbol ≠ 0
    · rw [if_pos (by simpa using hsym)] at hout
      rw [if_pos hsym]
      by_cases hfull : st.out.length = cap
      · -- the symbol completed is one too many
        rw [if_pos hfull]
        refine ⟨st.out ++ out, ?_, hbits ▸ List.prefix_append ..⟩
        rw [hout, List.length_append, List.length_singleton, hfull]
      · rw [if_neg hfull, hnext]
        refine ⟨⟨z₁, o₁, by rw [hmore, hout], hflags⟩, ?_⟩
        rw [List.length_append, List.length_singleton]
        omega
    · rw [if_neg (by simpa using hsym)] at hout
      rw [if_neg hsym, hnext]
      rw [hout, List.append_nil] at hmore
      exact ⟨⟨z₁, o₁, hmore, hflags⟩, hcap⟩

/-- A byte is its two halves. -/
theorem bitsOf_nibbles (c : UInt8) :
    bitsOf 8 c.toNat = bitsOf 4 (c.toNat >>> 4) ++ bitsOf 4 (c.toNat &&& 0xf) := by
  have hlow : bitsOf 4 (c.toNat &&& 0xf) = bitsOf 4 c.toNat := by
    rw [show c.toNat &&& 0xf = c.toNat % 2 ^ 4 from Nat.and_two_pow_sub_one_eq_mod c.toNat 4]
    exact bitsOf_mod _ (Nat.le_refl 4)
  rw [hlow, ← bitsOf_add 4 4]

/-- **The whole loop.** -/
theorem huffmanBytes_answer (bs : Bytes) (h : At bits st) (hcap : st.out.length ≤ cap) :
    Answer cap (bits ++ bytesBits bs) (huffmanBytes cap st bs) := by
  induction bs generalizing bits st with
  | nil =>
    rw [show bits ++ bytesBits [] = bits from List.append_nil bits]
    exact ⟨h, hcap⟩
  | cons c bs ih =>
    have hc := c.toNat_lt
    have hhigh : c.toNat >>> 4 < 16 := by
      rw [Nat.shiftRight_eq_div_pow]
      omega
    have hlow : c.toNat &&& 0xf < 16 := Nat.lt_of_le_of_lt Nat.and_le_right (by decide)
    have hbits : bits ++ bytesBits (c :: bs) =
        bits ++ bitsOf 4 (c.toNat >>> 4) ++ bitsOf 4 (c.toNat &&& 0xf) ++ bytesBits bs := by
      rw [show bytesBits (c :: bs) = bitsOf 8 c.toNat ++ bytesBits bs from rfl, bitsOf_nibbles]
      simp only [List.append_assoc]
    rw [hbits]
    unfold huffmanBytes huffmanByte
    have hi := huffmanNibble_answer h hcap hhigh
    cases hhi : huffmanNibble cap st (c.toNat >>> 4) with
    | error e =>
      rw [hhi] at hi
      exact (hi.error_append _).error_append _
    | ok st₁ =>
      rw [hhi] at hi
      have lo := huffmanNibble_answer hi.1 hi.2 hlow
      dsimp only
      cases hlo : huffmanNibble cap st₁ (c.toNat &&& 0xf) with
      | error e =>
        rw [hlo] at lo
        exact lo.error_append _
      | ok st₂ =>
        rw [hlo] at lo
        exact ih lo.1 lo.2

theorem at_start : At [] {} := by
  obtain ⟨n, z, o, hroot⟩ := huffmanTree_root
  obtain ⟨-, hname, hpad⟩ := tables_ok.2.2.2.2.2.1
  have hn : n = 0 := by rw [← hname, hroot, CodeTree.name]
  refine ⟨z, o, ?_, iff_of_true (by decide) hpad⟩
  rw [walkRoot, CodeTree.walk_nil, hroot, hn]

/-- **The three answers.** -/
theorem huffmanDecode_spec (in_ : Bytes) (maxOut : Nat) :
    (∃ s, Decodes in_ s ∧ s.length ≤ maxOut ∧ huffmanDecode in_ maxOut = .ok s) ∨
      ((∀ s, ¬ Decodes in_ s) ∧ ¬ Exceeds maxOut (bytesBits in_) ∧
        huffmanDecode in_ maxOut = .error .malformed) ∨
      (Exceeds maxOut (bytesBits in_) ∧ huffmanDecode in_ maxOut = .error .tooLarge) := by
  have h := huffmanBytes_answer in_ at_start (Nat.zero_le (min maxOut (in_.length * 8 / 5 + 1)))
  rw [List.nil_append] at h
  unfold huffmanDecode
  dsimp only
  cases hb : huffmanBytes (min maxOut (in_.length * 8 / 5 + 1)) {} in_ with
  | ok st =>
    rw [hb] at h
    obtain ⟨⟨z, o, hwalk, hflags⟩, hlen⟩ := h
    by_cases hacc : st.flags &&& kHuffmanAccepted ≠ 0
    · refine .inl ⟨st.out, (decodes_iff ..).mpr ⟨_, z, o, hwalk, hflags.mp hacc⟩, by omega, if_pos hacc⟩
    refine .inr (.inl ⟨fun s hs => ?_, fun hex => ?_, if_neg hacc⟩)
    · obtain ⟨n, z', o', hwalk', hn⟩ := (decodes_iff ..).mp hs
      obtain ⟨-, heq⟩ := Prod.mk.inj (Option.some.inj (hwalk.symm.trans hwalk'))
      injection heq with hname
      exact hacc (hflags.mpr (hname ▸ hn))
    · have hlong := hex.length hwalk
      omega
  | error e =>
    rw [hb] at h
    cases e with
    | malformed =>
      refine .inr (.inl ⟨fun s hs => ?_, fun hex => h.2 (hex.mono (Nat.min_le_left ..)), rfl⟩)
      obtain ⟨n, z, o, hwalk, -⟩ := (decodes_iff ..).mp hs
      rw [h.1] at hwalk
      simp at hwalk
    | tooLarge =>
      -- not the estimate: five bits a symbol stay below it
      have hfive := Exceeds.five_mul_lt h
      rw [length_bytesBits] at hfive
      refine .inr (.inr ⟨?_, rfl⟩)
      rwa [show maxOut = min maxOut (in_.length * 8 / 5 + 1) by omega]

theorem Decodes.unique {t s s' : Bytes} (h : Decodes t s) (h' : Decodes t s') : s = s' := by
  obtain ⟨_, _, _, hwalk, -⟩ := (decodes_iff ..).mp h
  obtain ⟨_, _, _, hwalk', -⟩ := (decodes_iff ..).mp h'
  exact (Prod.mk.inj (Option.some.inj (hwalk.symm.trans hwalk'))).1

theorem Exceeds.decodes {t : Bytes} (h : Exceeds cap (bytesBits t)) (hs : Decodes t s) : cap < s.length := by
  obtain ⟨_, _, _, hwalk, -⟩ := (decodes_iff ..).mp hs
  exact h.length hwalk

theorem huffmanDecode_ok_iff (in_ : Bytes) (maxOut : Nat) (s : Bytes) :
    huffmanDecode in_ maxOut = .ok s ↔ Decodes in_ s ∧ s.length ≤ maxOut := by
  rcases huffmanDecode_spec in_ maxOut with ⟨s', hs', hlen, heq⟩ | ⟨hnone, -, heq⟩ | ⟨hex, heq⟩ <;> rw [heq]
  · constructor
    · intro h
      cases h
      exact ⟨hs', hlen⟩
    · rintro ⟨hs, -⟩
      rw [hs.unique hs']
  · exact iff_of_false (by simp) fun hs => hnone s hs.1
  · refine iff_of_false (by simp) fun hs => ?_
    have hlong := hex.decodes hs.1
    omega

theorem decodes_huffmanEncode (s : Bytes) : Decodes (huffmanEncode s) s := huffmanEncode_bits s

/-! ## §6. The buffer holds the symbols. -/

/-- The buffer when `st` is reached: what was there, the symbols and the room left. -/
def buffer (out : Bytes) (st : HuffmanIn) (room : Bytes) : HuffmanBuffer where
  state := st.state
  flags := st.flags
  buf := out ++ st.out ++ room
  w := out.length + st.out.length

/-- The same answer, with the buffer. -/
def Stored (out : Bytes) (cap : Nat) :
    Except HuffStatus HuffmanIn → Except (HuffStatus × Bytes) HuffmanBuffer → Prop
  | .error e, r => ∃ behind, r = .error (e, out ++ behind)
  | .ok st, r => ∃ room, st.out.length + room.length = cap ∧ r = .ok (buffer out st room)

theorem storeNibble_stored (out : Bytes) {room : Bytes} (hroom : st.out.length + room.length = cap) (v : Nat) :
    Stored out cap (huffmanNibble cap st v) (storeNibble (out.length + cap) (buffer out st room) v) := by
  unfold huffmanNibble storeNibble
  have hstate : (buffer out st room).state = st.state := rfl
  rw [hstate]
  by_cases hfail : (huffmanStep st.state v).flags &&& kHuffmanFail ≠ 0
  · rw [if_pos hfail, if_pos hfail]
    exact ⟨st.out ++ room, by rw [← List.append_assoc]; rfl⟩
  rw [if_neg hfail, if_neg hfail]
  by_cases hsym : (huffmanStep st.state v).flags &&& kHuffmanSymbol ≠ 0
  · rw [if_pos hsym, if_pos hsym]
    have hw : (buffer out st room).w = out.length + st.out.length := rfl
    by_cases hfull : st.out.length = cap
    · rw [if_pos hfull, if_pos (by rw [hw, hfull])]
      exact ⟨st.out ++ room, by rw [← List.append_assoc]; rfl⟩
    rw [if_neg hfull, if_neg (by rw [hw]; omega)]
    cases room with
    | nil => exact absurd (by simpa using hroom) hfull
    | cons x room =>
      refine ⟨room, ?_, ?_⟩
      · rw [List.length_append, List.length_singleton]
        rw [List.length_cons] at hroom
        omega
      · -- the byte stored is the first of the room
        have hset : (out ++ st.out ++ x :: room).set (out.length + st.out.length)
            (UInt8.ofNat (huffmanStep st.state v).symbol) =
              out ++ (st.out ++ [UInt8.ofNat (huffmanStep st.state v).symbol]) ++ room := by
          rw [← List.length_append, List.set_append_right _ _ le_rfl, Nat.sub_self]
          simp
        unfold buffer
        rw [hset, List.length_append, List.length_singleton, Nat.add_assoc]
  · rw [if_neg hsym, if_neg hsym]
    exact ⟨room, hroom, rfl⟩

theorem storeBytes_stored (out : Bytes) {room : Bytes} (hroom : st.out.length + room.length = cap) (bs : Bytes) :
    Stored out cap (huffmanBytes cap st bs) (storeBytes (out.length + cap) (buffer out st room) bs) := by
  induction bs generalizing st room with
  | nil => exact ⟨room, hroom, rfl⟩
  | cons c bs ih =>
    unfold huffmanBytes huffmanByte storeBytes
    have hi := storeNibble_stored out hroom (c.toNat >>> 4)
    cases hhi : huffmanNibble cap st (c.toNat >>> 4) with
    | error e =>
      rw [hhi] at hi
      obtain ⟨behind, heq⟩ := hi
      rw [heq]
      exact ⟨behind, rfl⟩
    | ok st₁ =>
      rw [hhi] at hi
      obtain ⟨room₁, hroom₁, heq₁⟩ := hi
      rw [heq₁]
      have lo := storeNibble_stored out hroom₁ (c.toNat &&& 0xf)
      dsimp only
      cases hlo : huffmanNibble cap st₁ (c.toNat &&& 0xf) with
      | error e =>
        rw [hlo] at lo
        obtain ⟨behind, heq⟩ := lo
        rw [heq]
        exact ⟨behind, rfl⟩
      | ok st₂ =>
        rw [hlo] at lo
        obtain ⟨room₂, hroom₂, heq₂⟩ := lo
        rw [heq₂]
        exact ih hroom₂

/-- Only a string that is whole is appended. -/
theorem huffmanDecodeInto_eq (in_ out : Bytes) (maxOut : Nat) : huffmanDecodeInto in_ out maxOut =
      match huffmanDecode in_ maxOut with
      | .ok s => (.ok (), out ++ s)
      | .error e => (.error e, out) := by
  have hresize : ∀ s behind : Bytes, resize (s ++ behind) s.length = s := by simp [resize]
  unfold huffmanDecodeInto huffmanDecode
  dsimp only
  have hstart : (⟨0, kHuffmanAccepted, resize out (out.length + min maxOut (in_.length * 8 / 5 + 1)), out.length⟩ :
      HuffmanBuffer) = buffer out {} (List.replicate (min maxOut (in_.length * 8 / 5 + 1)) 0) := by
    simp [buffer, resize, List.take_of_length_le]
  have h := @storeBytes_stored (min maxOut (in_.length * 8 / 5 + 1)) {} out
    (List.replicate (min maxOut (in_.length * 8 / 5 + 1)) 0) (by simp) in_
  rw [hstart]
  cases hb : huffmanBytes (min maxOut (in_.length * 8 / 5 + 1)) {} in_ with
  | error e =>
    rw [hb] at h
    obtain ⟨behind, heq⟩ := h
    rw [heq]
    dsimp only
    rw [hresize]
  | ok st =>
    rw [hb] at h
    obtain ⟨room, -, heq⟩ := h
    rw [heq]
    dsimp only [buffer]
    rw [← List.length_append, hresize, hresize]
    split <;> rfl

/-- **Huffman coding is exact.**  What is encoded takes `huffman_size` bytes and is decoded where
    there is room; of any bytes exactly the codes with up to seven 1-bits behind are decoded;
    a string is too large only by the limit given; and nothing but a whole string is appended. -/
theorem huffman_exact : (∀ s, (huffmanEncode s).length = huffmanSize s) ∧ (∀ s out maxOut, s.length ≤ maxOut →
      huffmanDecodeInto (huffmanEncode s) out maxOut = (.ok (), out ++ s)) ∧ ∀ t out maxOut,
      ((huffmanDecodeInto t out maxOut).1 = .ok () ↔ ∃ s, Decodes t s ∧ s.length ≤ maxOut) ∧
      (∀ s, Decodes t s → s.length ≤ maxOut → huffmanDecodeInto t out maxOut = (.ok (), out ++ s)) ∧
      ((huffmanDecodeInto t out maxOut).1 = .error .tooLarge ↔ Exceeds maxOut (bytesBits t)) ∧
      ((huffmanDecodeInto t out maxOut).1 ≠ .ok () → (huffmanDecodeInto t out maxOut).2 = out) := by
  have hok : ∀ t out maxOut s, Decodes t s → s.length ≤ maxOut →
      huffmanDecodeInto t out maxOut = (.ok (), out ++ s) := by
    intro t out maxOut s hs hlen
    rw [huffmanDecodeInto_eq, (huffmanDecode_ok_iff t maxOut s).mpr ⟨hs, hlen⟩]
  refine ⟨length_huffmanEncode, fun s out maxOut hlen => hok _ out maxOut s (decodes_huffmanEncode s) hlen,
    fun t out maxOut => ⟨⟨fun h => ?_, fun ⟨s, hs, hlen⟩ => by rw [hok t out maxOut s hs hlen]⟩,
      hok t out maxOut, ?_, ?_⟩⟩
  all_goals rw [huffmanDecodeInto_eq] at *
  · cases hd : huffmanDecode t maxOut with
    | error e =>
      rw [hd] at h
      simp at h
    | ok s => exact ⟨s, (huffmanDecode_ok_iff t maxOut s).mp hd⟩
  · rcases huffmanDecode_spec t maxOut with ⟨s, hs, hlen, heq⟩ | ⟨-, hfew, heq⟩ | ⟨hex, heq⟩ <;> rw [heq]
    · refine iff_of_false (by simp) fun hex => ?_
      have hlong := hex.decodes hs
      omega
    · exact iff_of_false (by simp) hfew
    · exact iff_of_true rfl hex
  · cases huffmanDecode t maxOut with
    | error e => exact fun _ => rfl
    | ok s => exact fun h => absurd rfl h

end Agensio.Codec
