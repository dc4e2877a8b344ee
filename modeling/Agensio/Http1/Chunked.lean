/-
  Agensio.Http1.Chunked — the chunked transfer coding.

  Model of `http1/chunked.hpp`: the lines the encoder writes and the
  decoder, a state machine that takes one byte after another.  The source
  copies a run of data at once, up to the room in its output; `decode`
  stops at the same place byte by byte, and `feed` is the decoder without
  that limit.

  Main results:
    * `feed_decode` — it does not matter how the input is split, nor how often
      the output is emptied;
    * `feed_chunks` — what the encoder writes is read back, up to its very end.
-/
import Mathlib.Data.Nat.Digits.Lemmas
import Agensio.Http1.Parser

namespace Agensio.Http1

/-! ## §1. The encoder. -/

def hexLower (d : Nat) : UInt8 := (bytes "0123456789abcdef").getD d 0x30

/-- `std::to_chars` in base 16. -/
def hexText (n : Nat) : Bytes := if n = 0 then [0x30] else (Nat.digits 16 n).reverse.map hexLower

/-- `chunk_size_line`. -/
def chunkSizeLine (n : Nat) : Bytes := hexText n ++ [cr, lf]

/-- `kLastChunk`. -/
def kLastChunk : Bytes := [0x30, cr, lf, cr, lf]

/-- A chunk as it is sent; an empty one would end the body and is not sent. -/
def chunkText (bs : Bytes) : Bytes := if bs = [] then [] else chunkSizeLine bs.length ++ bs ++ [cr, lf]

/-! ## §2. The decoder. -/

namespace ChunkedDecoder

inductive State
  | size
  | ext
  | sizeLf
  | data
  | dataCr
  | dataLf
  | trailerStart
  | trailerLine
  | trailerLf
  | endLf
  | complete
  | failed
  deriving DecidableEq

inductive Status
  | ok
  | done
  | error
  deriving DecidableEq

def kMaxLine : Nat := 4096
def kMaxTrailers : Nat := 8192

end ChunkedDecoder

/-- The decoder between two reads. -/
structure ChunkedDecoder where
  state : ChunkedDecoder.State := .size
  remaining : Nat := 0
  digits : Nat := 0
  line : Nat := 0
  deriving DecidableEq

namespace ChunkedDecoder

def hexValue (c : UInt8) : Option Nat :=
  if 0x30 ≤ c ∧ c ≤ 0x39 then some (c.toNat - 0x30)
  else if 0x61 ≤ c ∧ c ≤ 0x66 then some (c.toNat - 0x61 + 10)
  else if 0x41 ≤ c ∧ c ≤ 0x46 then some (c.toNat - 0x41 + 10)
  else none

def fail (d : ChunkedDecoder) : ChunkedDecoder := { d with state := .failed }

/-- One byte, in a state that takes one: the decoder after it and what it gives. -/
def step (d : ChunkedDecoder) (c : UInt8) : ChunkedDecoder × Bytes :=
  match d.state with
  | .size =>
    match hexValue c with
    | some v =>
      if d.digits + 1 > 16 then (d.fail, [])
      else ({ d with digits := d.digits + 1, remaining := d.remaining * 16 + v }, [])
    | none =>
      if d.digits = 0 then (d.fail, [])
      else if c = 0x3b then ({ d with state := .ext, line := 0 }, [])
      else if c = cr then ({ d with state := .sizeLf }, [])
      else (d.fail, [])
  | .ext =>
    if c = cr then ({ d with state := .sizeLf }, [])
    else if c = lf || d.line + 1 > kMaxLine then (d.fail, [])
    else ({ d with line := d.line + 1 }, [])
  | .sizeLf =>
    if c ≠ lf then (d.fail, [])
    else if d.remaining = 0 then ({ d with state := .trailerStart, line := 0 }, [])
    else ({ d with state := .data }, [])
  | .data =>
    ({ d with remaining := d.remaining - 1, state := if d.remaining - 1 = 0 then .dataCr else .data }, [c])
  | .dataCr => if c ≠ cr then (d.fail, []) else ({ d with state := .dataLf }, [])
  | .dataLf => if c ≠ lf then (d.fail, []) else ({ d with state := .size, digits := 0 }, [])
  | .trailerStart =>
    if c = cr then ({ d with state := .endLf, line := d.line + 1 }, [])
    else if c = 0x20 || c = 0x09 || c = lf then (d.fail, [])
    else ({ d with state := .trailerLine, line := d.line + 1 }, [])
  | .trailerLine =>
    if c = lf || d.line + 1 > kMaxTrailers then (d.fail, [])
    else ({ d with state := if c = cr then .trailerLf else .trailerLine, line := d.line + 1 }, [])
  | .trailerLf => if c ≠ lf then (d.fail, []) else ({ d with state := .trailerStart }, [])
  | .endLf => if c ≠ lf then (d.fail, []) else ({ d with state := .complete }, [])
  | .complete => (d, [])
  | .failed => (d, [])

/-- What a call comes to: the decoder, the output, the input it left, and its answer. -/
structure Fed where
  decoder : ChunkedDecoder
  out : Bytes
  rest : Bytes
  status : Status
  deriving DecidableEq

/-- What a call comes to behind bytes that were given before. -/
def Fed.after (out : Bytes) (f : Fed) : Fed := { f with out := out ++ f.out }

@[simp] theorem Fed.after_out (out : Bytes) (f : Fed) : (f.after out).out = out ++ f.out := rfl
@[simp] theorem Fed.after_status (out : Bytes) (f : Fed) : (f.after out).status = f.status := rfl

theorem Fed.after_after (a b : Bytes) (f : Fed) : (f.after b).after a = f.after (a ++ b) := by
  simp [Fed.after]

@[simp] theorem Fed.after_nil (f : Fed) : f.after [] = f := rfl

def statusOf (d : ChunkedDecoder) : Status := if d.state = .complete then .done else .ok

/-- `decode` into a buffer with room for `room` more bytes. -/
def decode (d : ChunkedDecoder) (room : Nat) : Bytes → Fed
  | [] => ⟨d, [], [], d.statusOf⟩
  | c :: cs =>
    if d.state = .complete then ⟨d, [], c :: cs, .done⟩
    else if d.state = .failed then ⟨d, [], c :: cs, .error⟩
    else if d.state = .data && room = 0 then ⟨d, [], c :: cs, .ok⟩
    else
      let r := d.step c
      if r.1.state = .failed then ⟨r.1, [], c :: cs, .error⟩
      else if r.1.state = .complete then ⟨r.1, r.2, cs, .done⟩
      else (decode r.1 (room - r.2.length) cs).after r.2

/-- The decoder on all of its input. -/
def feed (d : ChunkedDecoder) : Bytes → Fed
  | [] => ⟨d, [], [], d.statusOf⟩
  | c :: cs =>
    if d.state = .complete then ⟨d, [], c :: cs, .done⟩
    else if d.state = .failed then ⟨d, [], c :: cs, .error⟩
    else
      let r := d.step c
      if r.1.state = .failed then ⟨r.1, [], c :: cs, .error⟩
      else if r.1.state = .complete then ⟨r.1, r.2, cs, .done⟩
      else (feed r.1 cs).after r.2

/-! ## §3. Splitting. -/

section Split

variable {d : ChunkedDecoder} {c : UInt8} {cs bs : Bytes}

/-- The decoder takes a byte: it is neither done nor failed. -/
def Takes (d : ChunkedDecoder) : Prop := d.state ≠ .complete ∧ d.state ≠ .failed

theorem feed_nil : d.feed [] = ⟨d, [], [], d.statusOf⟩ := rfl

theorem feed_cons : d.feed (c :: cs) =
    if d.state = .complete then ⟨d, [], c :: cs, .done⟩
    else if d.state = .failed then ⟨d, [], c :: cs, .error⟩
    else if (d.step c).1.state = .failed then ⟨(d.step c).1, [], c :: cs, .error⟩
    else if (d.step c).1.state = .complete then ⟨(d.step c).1, (d.step c).2, cs, .done⟩
    else ((d.step c).1.feed cs).after (d.step c).2 := rfl

theorem feed_cons_of_takes (h : d.Takes) (ht : (d.step c).1.Takes) : d.feed (c :: cs) =
    ((d.step c).1.feed cs).after (d.step c).2 := by
  rw [feed_cons, if_neg h.1, if_neg h.2, if_neg ht.2, if_neg ht.1]

/-- A decoder that is done takes nothing. -/
theorem feed_of_complete (h : d.state = .complete) (bs : Bytes) : d.feed bs = ⟨d, [], bs, .done⟩ := by
  cases bs with
  | nil => rw [feed_nil, statusOf, if_pos h]
  | cons c cs => rw [feed_cons, if_pos h]

/-- **A call goes as far as it can**: behind an answer `ok` the decoder is on its way through what the
    call left and what was not given yet. -/
theorem feed_decode (tail : Bytes) (bs : Bytes) (d : ChunkedDecoder) (room : Nat) : d.feed (bs ++ tail) =
    if (d.decode room bs).status = .ok then
      ((d.decode room bs).decoder.feed ((d.decode room bs).rest ++ tail)).after (d.decode room bs).out
    else { d.decode room bs with rest := (d.decode room bs).rest ++ tail } := by
  induction bs generalizing d room with
  | nil =>
    have hnil : d.decode room [] = ⟨d, [], [], d.statusOf⟩ := rfl
    rw [List.nil_append, hnil, statusOf]
    by_cases hc : d.state = .complete
    · rw [if_pos hc, feed_of_complete hc]
      rfl
    rw [if_neg hc]
    rfl
  | cons c cs ih =>
    unfold decode
    rw [List.cons_append, feed_cons]
    by_cases hc : d.state = .complete
    · rw [if_pos hc, if_pos hc]
      rfl
    rw [if_neg hc, if_neg hc]
    by_cases hf : d.state = .failed
    · rw [if_pos hf, if_pos hf]
      rfl
    rw [if_neg hf, if_neg hf]
    by_cases hr : (d.state = .data && room = 0) = true
    · rw [if_pos hr, if_pos rfl]
      simp only [Fed.after_nil, List.cons_append]
      rw [feed_cons, if_neg hc, if_neg hf]
    rw [if_neg hr]
    dsimp only
    by_cases hs : (d.step c).1.state = .failed
    · rw [if_pos hs, if_pos hs]
      rfl
    rw [if_neg hs, if_neg hs]
    by_cases hs' : (d.step c).1.state = .complete
    · rw [if_pos hs', if_pos hs']
      rfl
    rw [if_neg hs', if_neg hs', ih _ (room - (d.step c).2.length), Fed.after_status]
    split
    · rw [Fed.after_after]
      rfl
    · rfl

/-- An answer `ok` is not given by a decoder that is done. -/
theorem decode_ok {room : Nat} (h : (d.decode room bs).status = .ok) :
    (d.decode room bs).decoder.state ≠ .complete := by
  induction bs generalizing d room with
  | nil =>
    intro hc
    have hdone : d.statusOf = .done := if_pos hc
    rw [show d.statusOf = .ok from h] at hdone
    simp at hdone
  | cons c cs ih =>
    unfold decode at h ⊢
    dsimp only at h ⊢
    split at h
    · simp at h
    next hc =>
      split at h
      · simp at h
      next hf =>
        split at h
        next hr =>
          rw [if_neg hc, if_neg hf, if_pos hr]
          exact hc
        next hr =>
          split at h
          · simp at h
          next hs =>
            split at h
            · simp at h
            next hs' =>
              rw [if_neg hc, if_neg hf, if_neg hr, if_neg hs, if_neg hs']
              exact ih h

theorem decode_suffix (d : ChunkedDecoder) (room : Nat) (bs : Bytes) : (d.decode room bs).rest <:+ bs := by
  induction bs generalizing d room with
  | nil => exact List.suffix_refl _
  | cons c cs ih =>
    unfold decode
    dsimp only
    repeat' split
    all_goals first
      | exact List.suffix_refl _
      | exact List.suffix_cons _ _
      | exact (ih _ _).trans (List.suffix_cons _ _)

/-- A call with room takes a byte, or ends. -/
theorem decode_rest_lt {room : Nat} (hroom : 0 < room) (hbs : bs ≠ []) (hok : (d.decode room bs).status = .ok) :
    (d.decode room bs).rest.length < bs.length := by
  cases bs with
  | nil => exact absurd rfl hbs
  | cons c cs =>
    unfold decode at hok ⊢
    split at hok
    · cases hok
    next hc =>
    rw [if_neg hc]
    split at hok
    · cases hok
    next hf =>
    rw [if_neg hf]
    have hno : ¬ (d.state = .data && decide (room = 0)) = true := by
      rw [Bool.and_eq_true, decide_eq_true_eq, decide_eq_true_eq]
      omega
    rw [if_neg hno] at hok ⊢
    dsimp only at hok ⊢
    split at hok
    · cases hok
    next hs =>
    rw [if_neg hs]
    split at hok
    · cases hok
    next hs' =>
    rw [if_neg hs']
    exact Nat.lt_succ_of_le (decode_suffix _ _ _).length_le

end Split

/-! ## §4. What the encoder writes. -/

section RoundTrip

variable {d : ChunkedDecoder}

theorem hexValue_hexLower : ∀ v < 16, hexValue (hexLower v) = some v := by decide

/-- Digits of a size line, at most sixteen. -/
theorem feed_digits (tail : Bytes) : ∀ (vs : List Nat) (d : ChunkedDecoder), (∀ v ∈ vs, v < 16) → d.state = .size →
    d.digits + vs.length ≤ 16 → d.feed (vs.map hexLower ++ tail) =
      ({ d with digits := d.digits + vs.length
                remaining := vs.foldl (fun a v => a * 16 + v) d.remaining } : ChunkedDecoder).feed tail := by
  intro vs
  induction vs with
  | nil => intro d _ _ _; rfl
  | cons v vs ih =>
    intro d hv hs hlen
    rw [List.length_cons] at hlen
    have hstep : d.step (hexLower v) =
        ({ d with digits := d.digits + 1, remaining := d.remaining * 16 + v }, []) := by
      unfold step
      rw [hs]
      dsimp only
      rw [hexValue_hexLower v (hv v (.head _))]
      dsimp only
      rw [if_neg (by omega)]
    have htakes : d.Takes := by
      constructor <;> rw [hs] <;> decide
    have htakes' : (d.step (hexLower v)).1.Takes := by
      rw [hstep]
      constructor <;> (dsimp only; rw [hs]; decide)
    rw [List.map_cons, List.cons_append, feed_cons_of_takes htakes htakes', hstep, Fed.after_nil]
    dsimp only
    have hlen' : d.digits + 1 + vs.length ≤ 16 := by omega
    rw [ih { d with digits := d.digits + 1, remaining := d.remaining * 16 + v }
      (fun w hw => hv w (.tail _ hw)) hs hlen']
    congr 2
    show d.digits + 1 + vs.length = d.digits + (vs.length + 1)
    omega

/-- The bytes of a chunk. -/
theorem feed_data (tail : Bytes) : ∀ (bs : Bytes) (d : ChunkedDecoder), bs ≠ [] → d.state = .data →
    d.remaining = bs.length → d.feed (bs ++ tail) =
      (({ d with state := .dataCr, remaining := 0 } : ChunkedDecoder).feed tail).after bs := by
  intro bs
  induction bs with
  | nil => intro d h; exact absurd rfl h
  | cons b bs ih =>
    intro d _ hs hrem
    rw [List.length_cons] at hrem
    have htakes : d.Takes := by
      constructor <;> rw [hs] <;> decide
    have hstep : d.step b = ({ d with remaining := bs.length, state := if bs.length = 0 then .dataCr else .data }, [b]) := by
      unfold step
      rw [hs]
      dsimp only
      rw [show d.remaining - 1 = bs.length by omega]
    have htakes' : (d.step b).1.Takes := by
      rw [hstep]
      constructor <;> (dsimp only; split <;> decide)
    rw [List.cons_append, feed_cons_of_takes htakes htakes', hstep]
    dsimp only
    cases bs with
    | nil => rfl
    | cons b' bs' =>
      rw [ih _ (by simp) (by simp) rfl, Fed.after_after]
      rfl

/-- The digits of a number, read from the first one. -/
theorem foldl_digits (b n : Nat) : (Nat.digits b n).reverse.foldl (fun a v => a * b + v) 0 = n := by
  rw [List.foldl_reverse]
  conv_rhs => rw [← Nat.ofDigits_digits b n]
  rw [Nat.ofDigits_eq_foldr]
  congr 1
  funext v a
  simp only [Nat.cast_id]
  rw [Nat.mul_comm, Nat.add_comm]

/-- The size line of a chunk. -/
theorem feed_sizeLine {n : Nat} (hpos : 0 < n) (hlt : n < 2 ^ 64) (tail : Bytes) :
    (({} : ChunkedDecoder).feed (chunkSizeLine n ++ tail)) =
      ({ state := .data, remaining := n, digits := (Nat.digits 16 n).length } : ChunkedDecoder).feed tail := by
  have hlen : (Nat.digits 16 n).length ≤ 16 := by
    rw [Nat.digits_length_le_iff (by decide)]
    exact hlt
  have hne : Nat.digits 16 n ≠ [] := Nat.digits_ne_nil_iff_ne_zero.mpr (by omega)
  have hdigits := feed_digits ([cr, lf] ++ tail) (Nat.digits 16 n).reverse {} (fun v hv => by
    exact Nat.digits_lt_base (by decide) (List.mem_reverse.mp hv)) rfl (by simpa using hlen)
  unfold chunkSizeLine hexText
  rw [if_neg (by omega), List.append_assoc, hdigits, foldl_digits, List.length_reverse]
  -- the line's end
  have hcount : (0 : Nat) + (Nat.digits 16 n).length ≠ 0 := by
    have := List.length_pos_iff.mpr hne
    omega
  have hcr : ({ state := .size, remaining := n, digits := 0 + (Nat.digits 16 n).length } : ChunkedDecoder).step cr =
      ({ state := .sizeLf, remaining := n, digits := 0 + (Nat.digits 16 n).length }, []) := by
    unfold step
    dsimp only
    rw [show hexValue cr = none by decide]
    dsimp only
    rw [if_neg hcount, if_neg (by decide), if_pos rfl]
  have hlf : ({ state := .sizeLf, remaining := n, digits := 0 + (Nat.digits 16 n).length } : ChunkedDecoder).step lf =
      ({ state := .data, remaining := n, digits := 0 + (Nat.digits 16 n).length }, []) := by
    unfold step
    dsimp only
    rw [if_neg (by simp), if_neg (by omega)]
  have hsize : ({ state := .size, remaining := n, digits := 0 + (Nat.digits 16 n).length } : ChunkedDecoder).Takes :=
    ⟨nofun, nofun⟩
  have hline : ({ state := .sizeLf, remaining := n, digits := 0 + (Nat.digits 16 n).length } : ChunkedDecoder).Takes :=
    ⟨nofun, nofun⟩
  rw [List.cons_append, feed_cons_of_takes hsize (by rw [hcr]; constructor <;> simp), hcr, Fed.after_nil]
  rw [List.cons_append, List.nil_append, feed_cons_of_takes hline (by rw [hlf]; constructor <;> simp), hlf,
    Fed.after_nil, Nat.zero_add]

/-- **One chunk** is read back. -/
theorem feed_chunk {bs : Bytes} (hlt : bs.length < 2 ^ 64) (tail : Bytes) :
    ({} : ChunkedDecoder).feed (chunkText bs ++ tail) = (({} : ChunkedDecoder).feed tail).after bs := by
  unfold chunkText
  split
  · next h =>
    rw [h]
    rfl
  · next h =>
    have hpos : 0 < bs.length := List.length_pos_iff.mpr h
    rw [List.append_assoc, List.append_assoc, feed_sizeLine hpos hlt, feed_data _ _ _ h rfl rfl]
    -- behind the line end of the data the decoder is as it began
    rfl

/-- **What the encoder writes is read back**, and nothing behind it is touched. -/
theorem feed_chunks {pieces : List Bytes} (hlt : ∀ bs ∈ pieces, bs.length < 2 ^ 64) (tail : Bytes) :
    (({} : ChunkedDecoder).feed (pieces.flatMap chunkText ++ kLastChunk ++ tail)).out = pieces.flatten ∧
      (({} : ChunkedDecoder).feed (pieces.flatMap chunkText ++ kLastChunk ++ tail)).rest = tail ∧
      (({} : ChunkedDecoder).feed (pieces.flatMap chunkText ++ kLastChunk ++ tail)).status = .done := by
  induction pieces with
  | nil => exact ⟨rfl, rfl, rfl⟩
  | cons bs pieces ih =>
    have ih' := ih fun b hb => hlt b (.tail _ hb)
    rw [List.flatMap_cons, List.append_assoc, List.append_assoc, feed_chunk (hlt bs (.head _)),
      ← List.append_assoc]
    exact ⟨by rw [Fed.after_out, ih'.1, List.flatten_cons], ih'.2.1, ih'.2.2⟩

end RoundTrip

end ChunkedDecoder

end Agensio.Http1
