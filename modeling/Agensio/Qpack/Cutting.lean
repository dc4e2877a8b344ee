/-
  Agensio.Qpack.Cutting — the encoder stream in any pieces.

  `Decoder::encoder_stream` (`http3/qpack.cpp`) is called with what has
  arrived behind what it did not consume the last time
  (`http3/connection.hpp`, the QPACK encoder stream).  An instruction cut
  anywhere is read again from its start; what was read or refused is so
  whatever follows it, so the calls together do what one call with all
  the bytes does.

  What is kept between the calls is one incomplete instruction.  It has
  no bound in the capacity: `read_string` asks for the declared bytes
  before it compares their number with the capacity, and a number of more
  than 32 bits reads like one cut short.

  Main results:
    * `encoder_stream_cut` — the calls.
-/
import Agensio.Qpack.Decoder

namespace Agensio.Qpack.Decoder

open Agensio.Lib Agensio.Codec

/-! ## §1. The calls. -/

/-- One call of `encoder_stream`: the decoder, the instructions applied, the bytes not consumed
    and whether it answered false. -/
def encoderCall (d : Decoder) (in_ : Bytes) : Drained Decoder UInt8 :=
  drain nextInstruction in_.length d in_

/-- The calls of a connection: each with the bytes kept and those that arrived. -/
def encoderCalls (d : Decoder) (pieces : List Bytes) : Drained Decoder UInt8 :=
  arrivals nextInstruction d pieces

/-- The string at the front is one that `capacity` bytes could hold: no code has more than 30 bits. -/
def StringFits (prefixBits capacity : Nat) (bs : Bytes) : Prop :=
  Fits prefixBits bs ∧ ∀ len rest, readInteger prefixBits bs = some (len, rest) → len ≤ 4 * capacity

/-- The number at the front has 32 bits, and `P` holds of what follows it. -/
def NumberFits (prefixBits : Nat) (P : Bytes → Prop) (bs : Bytes) : Prop :=
  Fits prefixBits bs ∧ ∀ v rest, readInteger prefixBits bs = some (v, rest) → P rest

/-- The name at the front fits, and so does the value that follows it. -/
def NameFits (capacity : Nat) (bs : Bytes) : Prop :=
  StringFits 5 capacity bs ∧
    ∀ name rest, prefixedString 5 0x20 capacity bs = .ok (name, rest) → StringFits 7 capacity rest

/-- The numbers of the instruction at the front are 32-bit numbers and its strings fit. -/
def InstructionFits (capacity : Nat) : Bytes → Prop
  | [] => True
  | b :: bs =>
    if b &&& 0x80 ≠ 0 then NumberFits 6 (StringFits 7 capacity) (b :: bs)
    else if b &&& 0x40 ≠ 0 then NameFits capacity (b :: bs)
    else Fits 5 (b :: bs)

/-- Every instruction of the stream fits, the last one as far as it has come. -/
def StreamFits (d : Decoder) (stream : Bytes) : Prop :=
  ∀ ms d' rest, Reads nextInstruction d stream ms d' rest → InstructionFits d.maxCapacity rest

/-- The longest incomplete instruction: two lengths of six bytes, two strings of four bytes a
    symbol. -/
def longest (capacity : Nat) : Nat := 12 + 8 * capacity

/-! ## §2. The instruction by its kinds. -/

/-- A number in front, and what is done with it and the bytes behind it. -/
def numbered (prefixBits : Nat) (act : Nat → Bytes → Outcome Decoder UInt8) (bs : Bytes) :
    Outcome Decoder UInt8 :=
  match readInteger prefixBits bs with
  | none => .incomplete
  | some (v, rest) => act v rest

/-- 4.3.2 with a row of the static table. -/
def insertStatic (d : Decoder) (index : Nat) (rest : Bytes) : Outcome Decoder UInt8 :=
  match kStaticTable[index]? with
  | none => .failed
  | some f => d.insertValue f.1 rest

/-- What is done with the entry `index` places from the newest. -/
def withEntry (d : Decoder) (act : Field → Bytes → Outcome Decoder UInt8) (index : Nat) (rest : Bytes) :
    Outcome Decoder UInt8 :=
  if index ≥ d.insertCount then .failed
  else
    match d.entry (d.insertCount - 1 - index) with
    | none => .failed
    | some f => act f rest

/-- 4.3.3. -/
def insertLiteral (d : Decoder) (bs : Bytes) : Outcome Decoder UInt8 :=
  match prefixedString 5 0x20 d.maxCapacity bs with
  | .error .incomplete => .incomplete
  | .error _ => .failed
  | .ok (name, rest) => d.insertValue name rest

/-- 4.3.1. -/
def setCapacity (d : Decoder) (cap : Nat) (rest : Bytes) : Outcome Decoder UInt8 :=
  if cap > d.maxCapacity then .failed
  else .done { d with table := d.table.setLimit cap } rest

/-- The instruction of which `b` is the first byte. -/
def instruction (d : Decoder) (b : UInt8) (bs : Bytes) : Outcome Decoder UInt8 :=
  if b &&& 0x80 ≠ 0 then
    numbered 6 (fun index rest =>
      if b &&& 0x40 ≠ 0 then d.insertStatic index rest
      else d.withEntry (fun f => d.insertValue f.1) index rest) bs
  else if b &&& 0x40 ≠ 0 then d.insertLiteral bs
  else if b &&& 0x20 ≠ 0 then numbered 5 d.setCapacity bs
  else numbered 5 (d.withEntry fun f => d.insert f.1 f.2) bs

theorem nextInstruction_cons (d : Decoder) (b : UInt8) (bs : Bytes) :
    d.nextInstruction (b :: bs) = d.instruction b (b :: bs) := rfl

/-! ## §3. What is read or refused is so whatever follows. -/

/-- The outcome does not depend on more bytes behind, unless it is that they are missing. -/
def Whole (act : Bytes → Outcome Decoder UInt8) : Prop :=
  ∀ bs, act bs ≠ .incomplete → ∀ more, act (bs ++ more) = (act bs).followed more

variable {prefixBits capacity : Nat} {d d' : Decoder} {bs rest : Bytes}

theorem whole_numbered {act : Nat → Bytes → Outcome Decoder UInt8}
    (hact : ∀ v, Whole (act v)) : Whole (numbered prefixBits act) := by
  intro bs h more
  unfold numbered at h ⊢
  cases hread : readInteger prefixBits bs with
  | none =>
    rw [hread] at h
    exact absurd rfl h
  | some x =>
    obtain ⟨v, rest⟩ := x
    rw [hread] at h
    rw [(readInteger_append hread more).1]
    exact hact v rest h more

theorem whole_insert (d : Decoder) (name value : Bytes) : Whole (d.insert name value) := by
  intro rest _ more
  unfold insert
  split
  · rfl
  split
  · rfl
  · rfl

theorem insert_ne_incomplete (d : Decoder) (name value rest : Bytes) :
    d.insert name value rest ≠ .incomplete := by
  unfold insert
  split
  · simp
  split
  · simp
  · simp

theorem whole_insertValue (d : Decoder) (name : Bytes) : Whole (d.insertValue name) := by
  intro rest h more
  unfold insertValue at h ⊢
  have hstr : prefixedString 7 0x80 d.maxCapacity rest ≠ .error .incomplete := by
    intro he
    rw [he] at h
    exact h rfl
  rw [prefixedString_append hstr more]
  cases hval : prefixedString 7 0x80 d.maxCapacity rest with
  | error e =>
    cases e with
    | incomplete => exact absurd hval hstr
    | malformed => rfl
    | tooLarge => rfl
  | ok r => exact whole_insert d name r.1 r.2 (insert_ne_incomplete d name r.1 r.2) more

theorem whole_insertLiteral (d : Decoder) : Whole d.insertLiteral := by
  intro bs h more
  unfold insertLiteral at h ⊢
  have hstr : prefixedString 5 0x20 d.maxCapacity bs ≠ .error .incomplete := by
    intro he
    rw [he] at h
    exact h rfl
  rw [prefixedString_append hstr more]
  cases hname : prefixedString 5 0x20 d.maxCapacity bs with
  | error e =>
    cases e with
    | incomplete => exact absurd hname hstr
    | malformed => rfl
    | tooLarge => rfl
  | ok r =>
    rw [hname] at h
    exact whole_insertValue d r.1 r.2 h more

theorem whole_insertStatic (d : Decoder) (index : Nat) : Whole (d.insertStatic index) := by
  intro rest h more
  unfold insertStatic at h ⊢
  cases hrow : kStaticTable[index]? with
  | none => rfl
  | some f =>
    rw [hrow] at h
    exact whole_insertValue d f.1 rest h more

theorem whole_withEntry (d : Decoder) {act : Field → Bytes → Outcome Decoder UInt8}
    (hact : ∀ f, Whole (act f)) (index : Nat) : Whole (d.withEntry act index) := by
  intro rest h more
  unfold withEntry at h ⊢
  by_cases hge : index ≥ d.insertCount
  · rw [if_pos hge, if_pos hge]
    rfl
  rw [if_neg hge] at h ⊢
  rw [if_neg hge]
  cases hentry : d.entry (d.insertCount - 1 - index) with
  | none => rfl
  | some f =>
    rw [hentry] at h
    exact hact f rest h more

theorem whole_setCapacity (d : Decoder) (cap : Nat) : Whole (d.setCapacity cap) := by
  intro rest _ more
  unfold setCapacity
  split
  · rfl
  · rfl

theorem whole_ite {p : Prop} [Decidable p] {act act' : Bytes → Outcome Decoder UInt8}
    (h : Whole act) (h' : Whole act') : Whole fun bs => if p then act bs else act' bs := by
  intro bs hbs more
  dsimp only at hbs ⊢
  by_cases hp : p
  · rw [if_pos hp] at hbs ⊢
    rw [if_pos hp]
    exact h bs hbs more
  · rw [if_neg hp] at hbs ⊢
    rw [if_neg hp]
    exact h' bs hbs more

theorem whole_instruction (d : Decoder) (b : UInt8) : Whole (d.instruction b) := by
  have hnamed : ∀ index, Whole fun rest =>
      if b &&& 0x40 ≠ 0 then d.insertStatic index rest
      else d.withEntry (fun f => d.insertValue f.1) index rest := by
    intro index
    exact whole_ite (whole_insertStatic d index)
      (whole_withEntry d (fun f => whole_insertValue d f.1) index)
  have hduplicate : ∀ index, Whole (d.withEntry (fun f => d.insert f.1 f.2) index) :=
    whole_withEntry d fun f => whole_insert d f.1 f.2
  exact whole_ite (whole_numbered hnamed) (whole_ite (whole_insertLiteral d)
    (whole_ite (whole_numbered (whole_setCapacity d)) (whole_numbered hduplicate)))

/-! ## §4. What an instruction takes. -/

/-- At least `n` bytes are taken off the front, and the capacity advertised stays. -/
def Takes (capacity n : Nat) (act : Bytes → Outcome Decoder UInt8) : Prop :=
  ∀ bs d' rest, act bs = .done d' rest →
    d'.maxCapacity = capacity ∧ ∃ m : Bytes, n ≤ m.length ∧ bs = m ++ rest

theorem takes_numbered {act : Nat → Bytes → Outcome Decoder UInt8}
    (hact : ∀ v, Takes capacity 0 (act v)) : Takes capacity 1 (numbered prefixBits act) := by
  intro bs d' rest h
  unfold numbered at h
  cases hread : readInteger prefixBits bs with
  | none =>
    rw [hread] at h
    simp at h
  | some x =>
    obtain ⟨v, rest'⟩ := x
    rw [hread] at h
    obtain ⟨-, m, hm, rfl⟩ := readInteger_append hread []
    obtain ⟨hcap, m', -, rfl⟩ := hact v rest' d' rest h
    refine ⟨hcap, m ++ m', ?_, (List.append_assoc _ _ _).symm⟩
    have := List.length_pos_iff.mpr hm
    rw [List.length_append]
    omega

theorem takes_insert (d : Decoder) (name value : Bytes) : Takes d.maxCapacity 0 (d.insert name value) := by
  intro bs d' rest h
  unfold insert at h
  split at h
  · simp at h
  split at h
  · simp at h
  obtain ⟨rfl, rfl⟩ := Outcome.done.inj h
  exact ⟨rfl, [], Nat.le_refl 0, rfl⟩

theorem takes_insertValue (d : Decoder) (name : Bytes) : Takes d.maxCapacity 0 (d.insertValue name) := by
  intro bs d' rest h
  unfold insertValue at h
  split at h
  · simp at h
  · simp at h
  next value rest' hval =>
    obtain ⟨-, -, m, -, rfl⟩ := prefixedString_ok hval
    obtain ⟨hcap, m', -, rfl⟩ := takes_insert d name value rest' d' rest h
    exact ⟨hcap, m ++ m', Nat.zero_le _, (List.append_assoc _ _ _).symm⟩

theorem takes_insertLiteral (d : Decoder) : Takes d.maxCapacity 1 d.insertLiteral := by
  intro bs d' rest h
  unfold insertLiteral at h
  split at h
  · simp at h
  · simp at h
  next name rest' hname =>
    obtain ⟨-, -, m, hm, rfl⟩ := prefixedString_ok hname
    obtain ⟨hcap, m', -, rfl⟩ := takes_insertValue d name rest' d' rest h
    refine ⟨hcap, m ++ m', ?_, (List.append_assoc _ _ _).symm⟩
    have := List.length_pos_iff.mpr hm
    rw [List.length_append]
    omega

theorem takes_insertStatic (d : Decoder) (index : Nat) : Takes d.maxCapacity 0 (d.insertStatic index) := by
  intro bs d' rest h
  unfold insertStatic at h
  split at h
  · simp at h
  next f _ => exact takes_insertValue d f.1 bs d' rest h

theorem takes_withEntry (d : Decoder) {act : Field → Bytes → Outcome Decoder UInt8}
    (hact : ∀ f, Takes d.maxCapacity 0 (act f)) (index : Nat) :
    Takes d.maxCapacity 0 (d.withEntry act index) := by
  intro bs d' rest h
  unfold withEntry at h
  split at h
  · simp at h
  split at h
  · simp at h
  next f _ => exact hact f bs d' rest h

theorem takes_setCapacity (d : Decoder) (cap : Nat) : Takes d.maxCapacity 0 (d.setCapacity cap) := by
  intro bs d' rest h
  unfold setCapacity at h
  split at h
  · simp at h
  obtain ⟨rfl, rfl⟩ := Outcome.done.inj h
  exact ⟨rfl, [], Nat.le_refl 0, rfl⟩

theorem takes_ite {n : Nat} {p : Prop} [Decidable p]
    {act act' : Bytes → Outcome Decoder UInt8} (h : Takes capacity n act)
    (h' : Takes capacity n act') : Takes capacity n fun bs => if p then act bs else act' bs := by
  intro bs d' rest hbs
  dsimp only at hbs
  split at hbs
  · exact h bs d' rest hbs
  · exact h' bs d' rest hbs

theorem takes_instruction (d : Decoder) (b : UInt8) : Takes d.maxCapacity 1 (d.instruction b) := by
  have hnamed : ∀ index, Takes d.maxCapacity 0 fun rest =>
      if b &&& 0x40 ≠ 0 then d.insertStatic index rest
      else d.withEntry (fun f => d.insertValue f.1) index rest := by
    intro index
    exact takes_ite (takes_insertStatic d index)
      (takes_withEntry d (fun f => takes_insertValue d f.1) index)
  have hduplicate : ∀ index, Takes d.maxCapacity 0 (d.withEntry (fun f => d.insert f.1 f.2) index) :=
    takes_withEntry d fun f => takes_insert d f.1 f.2
  exact takes_ite (takes_numbered hnamed) (takes_ite (takes_insertLiteral d)
    (takes_ite (takes_numbered (takes_setCapacity d)) (takes_numbered hduplicate)))

theorem nextInstruction_steady : Steady nextInstruction where
  whole := by
    intro d bs h more
    cases bs with
    | nil => exact absurd rfl h
    | cons b bs => exact whole_instruction d b (b :: bs) h more
  takes := by
    intro d bs d' rest h
    cases bs with
    | nil => simp [nextInstruction] at h
    | cons b bs =>
      obtain ⟨-, m, hm, hbs⟩ := takes_instruction d b (b :: bs) d' rest h
      exact ⟨m, List.length_pos_iff.mp hm, hbs⟩

theorem reads_maxCapacity {ms : List Bytes}
    (h : Reads nextInstruction d bs ms d' rest) : d'.maxCapacity = d.maxCapacity := by
  induction h with
  | refl => rfl
  | @step d d₁ _ m rest _ _ hnext _ ih =>
    rw [ih]
    cases hbs : m ++ rest with
    | nil =>
      rw [hbs] at hnext
      simp [nextInstruction] at hnext
    | cons b bs =>
      rw [hbs] at hnext
      exact (takes_instruction d b (b :: bs) d₁ rest hnext).1

/-! ## §5. What an instruction waits for. -/

/-- No more than `k` bytes are kept of an instruction that meets `P`. -/
def Waits (P : Bytes → Prop) (k : Nat) (act : Bytes → Outcome Decoder UInt8) : Prop :=
  ∀ bs, P bs → act bs = .incomplete → bs.length ≤ k

theorem string_waits {maxOut : Nat} {hBit : UInt8} (hfits : StringFits prefixBits capacity bs)
    (h : prefixedString prefixBits hBit maxOut bs = .error .incomplete) : bs.length ≤ 6 + 4 * capacity := by
  cases hread : readInteger prefixBits bs with
  | none =>
    have := hfits.1.waits hread
    omega
  | some x =>
    obtain ⟨len, rest⟩ := x
    cases bs with
    | nil => exact Nat.zero_le _
    | cons b bs =>
      rw [prefixedString_cons, hread] at h
      have hshort := readString_incomplete.mp h
      have hlen := hfits.2 len rest hread
      have := readInteger_length hread
      omega

theorem waits_insertValue (d : Decoder) (name : Bytes) :
    Waits (StringFits 7 d.maxCapacity) (6 + 4 * d.maxCapacity) (d.insertValue name) := by
  intro bs hfits h
  unfold insertValue at h
  split at h
  next hval => exact string_waits hfits hval
  · simp at h
  · exact absurd h (insert_ne_incomplete _ _ _ _)

theorem waits_insertStatic (d : Decoder) (index : Nat) :
    Waits (StringFits 7 d.maxCapacity) (6 + 4 * d.maxCapacity) (d.insertStatic index) := by
  intro bs hfits h
  unfold insertStatic at h
  split at h
  · simp at h
  next f _ => exact waits_insertValue d f.1 bs hfits h

theorem waits_withEntry (d : Decoder) {P : Bytes → Prop} {k : Nat}
    {act : Field → Bytes → Outcome Decoder UInt8} (hact : ∀ f, Waits P k (act f)) (index : Nat) :
    Waits P k (d.withEntry act index) := by
  intro bs hfits h
  unfold withEntry at h
  split at h
  · simp at h
  split at h
  · simp at h
  next f _ => exact hact f bs hfits h

theorem waits_numbered {k : Nat} {P : Bytes → Prop}
    {act : Nat → Bytes → Outcome Decoder UInt8} (hact : ∀ v, Waits P k (act v)) :
    Waits (NumberFits prefixBits P) (6 + k) (numbered prefixBits act) := by
  intro bs hfits h
  unfold numbered at h
  cases hread : readInteger prefixBits bs with
  | none =>
    have := hfits.1.waits hread
    omega
  | some x =>
    obtain ⟨v, rest⟩ := x
    rw [hread] at h
    have hrest := hact v rest (hfits.2 v rest hread) h
    have := readInteger_length hread
    omega

theorem waits_insertLiteral (d : Decoder) :
    Waits (NameFits d.maxCapacity) (longest d.maxCapacity) d.insertLiteral := by
  intro bs hfits h
  unfold longest
  unfold insertLiteral at h
  split at h
  next hname =>
    have := string_waits hfits.1 hname
    omega
  · simp at h
  next name rest hname =>
    -- the name is there, the value is waited for
    have hrest := waits_insertValue d name rest (hfits.2 name rest hname) h
    obtain ⟨-, ⟨len, body, hread, -, hbody⟩, -⟩ := prefixedString_ok hname
    have hlen := hfits.1.2 len body hread
    have := readInteger_length hread
    omega

/-- Of an instruction that fits no more is kept than the longest one. -/
theorem nextInstruction_waits (hfits : InstructionFits d.maxCapacity bs)
    (h : d.nextInstruction bs = .incomplete) : bs.length ≤ longest d.maxCapacity := by
  cases bs with
  | nil => exact Nat.zero_le _
  | cons b bs =>
    rw [nextInstruction_cons] at h
    unfold instruction at h
    unfold InstructionFits at hfits
    dsimp only at hfits
    by_cases h80 : b &&& 0x80 ≠ 0
    · rw [if_pos h80] at h hfits
      have hnamed : ∀ index, Waits (StringFits 7 d.maxCapacity) (6 + 4 * d.maxCapacity) fun rest =>
          if b &&& 0x40 ≠ 0 then d.insertStatic index rest
          else d.withEntry (fun f => d.insertValue f.1) index rest := by
        intro index rest hrest hwait
        dsimp only at hwait
        split at hwait
        · exact waits_insertStatic d index rest hrest hwait
        · exact waits_withEntry d (fun f => waits_insertValue d f.1) index rest hrest hwait
      have := waits_numbered hnamed (b :: bs) hfits h
      unfold longest
      omega
    · rw [if_neg h80] at h hfits
      by_cases h40 : b &&& 0x40 ≠ 0
      · rw [if_pos h40] at h hfits
        exact waits_insertLiteral d (b :: bs) hfits h
      rw [if_neg h40] at h hfits
      -- a capacity and an index are numbers alone
      have hnumber : readInteger 5 (b :: bs) = none := by
        have hnever : ∀ act, (∀ v rest, act v rest ≠ Outcome.incomplete) →
            numbered 5 act (b :: bs) = .incomplete → readInteger 5 (b :: bs) = none := by
          intro act hact hwait
          unfold numbered at hwait
          cases hread : readInteger 5 (b :: bs) with
          | none => rfl
          | some x =>
            rw [hread] at hwait
            exact absurd hwait (hact x.1 x.2)
        by_cases h20 : b &&& 0x20 ≠ 0
        · rw [if_pos h20] at h
          refine hnever d.setCapacity ?_ h
          intro cap rest
          unfold setCapacity
          split
          · simp
          · simp
        · rw [if_neg h20] at h
          refine hnever (d.withEntry fun f => d.insert f.1 f.2) ?_ h
          intro index rest
          unfold withEntry
          split
          · simp
          split
          · simp
          · exact insert_ne_incomplete _ _ _ _
      have := hfits.waits hnumber
      unfold longest
      omega

/-! ## §6. The condition. -/

/-- What a longer stream meets its beginning meets. -/
theorem stringFits_of_append {more : Bytes}
    (h : StringFits prefixBits capacity (bs ++ more)) : StringFits prefixBits capacity bs := by
  refine ⟨h.1.of_append, ?_⟩
  intro len rest hread
  exact h.2 len _ (readInteger_append hread more).1

theorem instructionFits_of_append {more : Bytes}
    (h : InstructionFits capacity (bs ++ more)) : InstructionFits capacity bs := by
  cases bs with
  | nil => exact trivial
  | cons b bs =>
    rw [List.cons_append] at h
    unfold InstructionFits at h ⊢
    dsimp only at h ⊢
    by_cases h80 : b &&& 0x80 ≠ 0
    · rw [if_pos h80] at h ⊢
      refine ⟨h.1.of_append, ?_⟩
      intro index rest hread
      exact stringFits_of_append (h.2 index _ (readInteger_append hread more).1)
    · rw [if_neg h80] at h ⊢
      by_cases h40 : b &&& 0x40 ≠ 0
      · rw [if_pos h40] at h ⊢
        refine ⟨stringFits_of_append h.1, ?_⟩
        intro name rest hname
        have hmore := prefixedString_append (by rw [hname]; simp) more
        rw [hname] at hmore
        exact stringFits_of_append (h.2 name _ hmore)
      · rw [if_neg h40] at h ⊢
        exact h.of_append

theorem fits_of_read {v : Nat} (h : readInteger prefixBits bs = some (v, rest)) : Fits prefixBits bs := by
  refine ⟨[], v, rest, ?_⟩
  rwa [List.append_nil]

/-! ## §7. The calls. -/

theorem encoderCalls_eq (d : Decoder) (pieces : List Bytes) :
    d.encoderCalls pieces = d.encoderCall pieces.flatten :=
  drain_arrivals nextInstruction_steady d pieces

/-- **However the stream is cut.**  The calls leave the decoder, the instructions applied and the
    verdict that one call with all the bytes leaves; each instruction is applied once, at its
    place; and if the instructions fit, what is kept between two calls is no longer than the
    longest one. -/
theorem encoder_stream_cut (d : Decoder) (pieces : List Bytes) :
    d.encoderCalls pieces = d.encoderCall pieces.flatten ∧
      Reads nextInstruction d pieces.flatten (d.encoderCalls pieces).applied
        (d.encoderCalls pieces).state (d.encoderCalls pieces).kept ∧
      (d.StreamFits pieces.flatten → ∀ n, (d.encoderCalls (pieces.take n)).failed = false →
        (d.encoderCalls (pieces.take n)).kept.length ≤ longest d.maxCapacity) := by
  refine ⟨encoderCalls_eq d pieces, ?_, ?_⟩
  · rw [encoderCalls_eq]
    exact drain_reads nextInstruction_steady _ d _
  · intro hfits n hok
    rw [encoderCalls_eq] at hok ⊢
    have hreads : Reads nextInstruction d (pieces.take n).flatten _ _
        (d.encoderCall (pieces.take n).flatten).kept :=
      drain_reads nextInstruction_steady _ d _
    -- the rest of the stream would follow what is kept
    have hall := hreads.append nextInstruction_steady (pieces.drop n).flatten
    rw [← List.flatten_append, List.take_append_drop] at hall
    have hkept := instructionFits_of_append (hfits _ _ _ hall)
    rcases drain_kept nextInstruction_steady le_rfl hok with hnil | hwait
    · show (drain nextInstruction _ d _).kept.length ≤ _
      rw [hnil]
      exact Nat.zero_le _
    · have hcap := reads_maxCapacity hreads
      rw [← hcap] at hkept ⊢
      exact nextInstruction_waits hkept hwait

/-- `Set Dynamic Table Capacity` to 4096 in two pieces. -/
theorem encoder_stream_cut_capacity : (Decoder.new 4096).StreamFits [0x3f, 0xe1, 0x1f] ∧
      (((Decoder.new 4096).encoderCalls [[0x3f], [0xe1, 0x1f]]).state.table.limit = 4096) ∧
      ∀ n, ((Decoder.new 4096).encoderCalls ([[0x3f], [0xe1, 0x1f]].take n)).failed = false →
        ((Decoder.new 4096).encoderCalls ([[0x3f], [0xe1, 0x1f]].take n)).kept.length ≤ longest 4096 := by
  have hread : readInteger 5 [0x3f, 0xe1, 0x1f] = some (4096, []) := by decide +kernel
  have hdone : ∃ d', nextInstruction (Decoder.new 4096) [0x3f, 0xe1, 0x1f] = .done d' [] ∧
      d'.table.limit = 4096 := by
    refine ⟨{ Decoder.new 4096 with table := (Decoder.new 4096).table.setLimit 4096 }, ?_, rfl⟩
    show (match readInteger 5 [0x3f, 0xe1, 0x1f] with
      | none => Outcome.incomplete
      | some (cap, rest) => (Decoder.new 4096).setCapacity cap rest) = _
    rw [hread]
    rfl
  have hfits : (Decoder.new 4096).StreamFits [0x3f, 0xe1, 0x1f] := by
    intro ms d' rest h
    rcases h.head with rfl | ⟨d₁, bs₁, ms₁, hnext, hrest⟩
    · exact fits_of_read hread
    obtain ⟨_, hall, -⟩ := hdone
    rw [hall] at hnext
    obtain ⟨-, rfl⟩ := Outcome.done.inj hnext
    rw [(List.append_eq_nil_iff.mp hrest.split).2]
    exact trivial
  obtain ⟨-, -, hkept⟩ := encoder_stream_cut (Decoder.new 4096) [[0x3f], [0xe1, 0x1f]]
  refine ⟨hfits, ?_, hkept hfits⟩
  obtain ⟨d', hall, hlimit⟩ := hdone
  rw [encoderCalls_eq]
  show (drain nextInstruction 3 (Decoder.new 4096) [0x3f, 0xe1, 0x1f]).state.table.limit = 4096
  rw [drain, if_neg (by simp), hall]
  exact hlimit

theorem readGroups_endless (n shift acc : Nat) : readGroups (List.replicate n 0xff) shift acc = none := by
  induction n generalizing shift acc with
  | zero => rfl
  | succ n ih =>
    rw [List.replicate_succ]
    unfold readGroups
    split
    · rfl
    · exact ih _ _

/-- An index that does not end is waited for. -/
theorem nextInstruction_endless (d : Decoder) (n : Nat) :
    d.nextInstruction (List.replicate (n + 1) 0xff) = .incomplete := by
  have hread : readInteger 6 (List.replicate (n + 1) 0xff) = none := by
    rw [List.replicate_succ]
    show (match readGroups (List.replicate n 0xff) 0 (prefixMax 6) with
      | none => none
      | some (acc, rest') => if acc > 0xffffffff then none else some (acc, rest')) = none
    rw [readGroups_endless]
  rw [List.replicate_succ] at hread ⊢
  rw [nextInstruction_cons]
  show numbered 6 _ _ = _
  unfold numbered
  rw [hread]

/-- **No capacity bounds what is kept.**  The bytes 0xff are kept, however many arrive. -/
theorem kept_unbounded : ¬ ∃ bound : Nat → Nat, ∀ (d : Decoder) (pieces : List Bytes),
    (d.encoderCalls pieces).failed = false → (d.encoderCalls pieces).kept.length ≤ bound d.maxCapacity := by
  rintro ⟨bound, hbound⟩
  have hkept : (Decoder.new 4096).encoderCalls [List.replicate (bound 4096 + 1) 0xff] =
      { state := Decoder.new 4096, kept := List.replicate (bound 4096 + 1) 0xff } := by
    rw [encoderCalls_eq, List.flatten_singleton]
    unfold encoderCall
    rw [List.length_replicate, drain, if_neg (by simp), nextInstruction_endless]
  have h := hbound (Decoder.new 4096) [List.replicate (bound 4096 + 1) 0xff] (by rw [hkept])
  rw [hkept, List.length_replicate] at h
  exact absurd h (Nat.not_succ_le_self _)

end Agensio.Qpack.Decoder
