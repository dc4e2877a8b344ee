/-
  Agensio.Qpack.Timing — decoding and the moment it happens.

  A section may be decoded when its Required Insert Count has arrived, or
  later, when further insertions have.  `Later` is the encoder stream
  between the two moments.  What a section refers to is in its bytes:
  `reached` lists its lines as far as any decoder gets, with the entry
  each of them names, relative to the Base or beyond it.

  A post-base reference is compared with the Required Insert Count, a
  reference relative to the Base is not; with a Base above the count it
  can name an entry that is not there yet.

  Main result: `decode_timeless_iff`: the moment makes no difference for
  exactly those sections whose relative references stay below the count.
-/
import Agensio.Qpack.Arena
import Mathlib.Logic.Relation

namespace Agensio.Qpack

open Agensio.Lib Agensio.Codec

/-! ## §1. What a line refers to. -/

inductive Ref where
  /-- Nothing of the dynamic table. -/
  | own
  /-- The entry `base - 1 - index`. -/
  | relative (index : Nat)
  /-- The entry `base + index`. -/
  | postBase (index : Nat)
  deriving DecidableEq

/-- The absolute index, when the reference is one. -/
def Ref.abs (base : Nat) : Ref → Option Nat
  | .own => none
  | .relative i => if i < base then some (base - 1 - i) else none
  | .postBase i => some (base + i)

/-- A string, read with room enough: the bytes behind it. -/
def scanString (prefixBits : Nat) (hBit : UInt8) : Bytes → Option Bytes
  | [] => none
  | b :: bs =>
    match readInteger prefixBits (b :: bs) with
    | none => none
    | some (len, rest) =>
      match readString rest (b &&& hBit ≠ 0) len (huffmanRoom rest.length) with
      | .ok (_, rest') => some rest'
      | .error _ => none

theorem scanString_cons (prefixBits : Nat) (hBit b : UInt8) (bs : Bytes) :
    scanString prefixBits hBit (b :: bs) =
      match readInteger prefixBits (b :: bs) with
      | none => none
      | some (len, rest) =>
        match readString rest (b &&& hBit ≠ 0) len (huffmanRoom rest.length) with
        | .ok (_, rest') => some rest'
        | .error _ => none := rfl

/-- A value that is not malformed whatever room there is. -/
def readable (bs : Bytes) : Bool :=
  match prefixedString 7 0x80 0 bs with
  | .error .malformed => false
  | .error .incomplete => false
  | _ => true

/-- The reference of a line, `none` when the line is malformed in every table. -/
def lineRef : Bytes → Option Ref
  | [] => none
  | b :: bs =>
    if b &&& 0x80 ≠ 0 then
      match readInteger 6 (b :: bs) with
      | none => none
      | some (index, _) =>
        if b &&& 0x40 ≠ 0 then if kStaticTable[index]?.isSome then some .own else none
        else some (.relative index)
    else if b &&& 0x40 ≠ 0 then
      match readInteger 4 (b :: bs) with
      | none => none
      | some (index, rest) =>
        if b &&& 0x10 ≠ 0 then if kStaticTable[index]?.isSome then some .own else none
        else if readable rest then some (.relative index) else none
    else if b &&& 0x20 ≠ 0 then some .own
    else if b &&& 0x10 ≠ 0 then (readInteger 4 (b :: bs)).map fun r => .postBase r.1
    else (readInteger 3 (b :: bs)).map fun r => .postBase r.1

/-- The bytes behind a line, read with room enough. -/
def lineRest : Bytes → Option Bytes
  | [] => none
  | b :: bs =>
    if b &&& 0x80 ≠ 0 then (readInteger 6 (b :: bs)).map Prod.snd
    else if b &&& 0x40 ≠ 0 then
      (readInteger 4 (b :: bs)).bind fun r => scanString 7 0x80 r.2
    else if b &&& 0x20 ≠ 0 then
      (scanString 3 0x08 (b :: bs)).bind fun rest => scanString 7 0x80 rest
    else if b &&& 0x10 ≠ 0 then (readInteger 4 (b :: bs)).map Prod.snd
    else (readInteger 3 (b :: bs)).bind fun r => scanString 7 0x80 r.2

/-- The prefix of a section as it is written. -/
structure Head where
  encoded : Nat
  sign : Bool
  delta : Nat
  deriving DecidableEq

def readHead (section_ : Bytes) : Option (Head × Bytes) :=
  match readInteger 8 section_ with
  | none => none
  | some (_, []) => none
  | some (encoded, b :: bs) =>
    (readInteger 7 (b :: bs)).map fun r => (⟨encoded, b &&& 0x80 ≠ 0, r.1⟩, r.2)

/-- A decoder can get past the line: its entry is below the Required Insert Count. -/
def Head.passes (h : Head) : Ref → Bool
  | .own => true
  | .relative i => h.encoded != 0 && (h.sign || decide (h.delta ≤ i))
  | .postBase i => h.sign && decide (i ≤ h.delta)

/-- The lines a decoder can get to, with their references. -/
def reached (h : Head) : Nat → Bytes → List (Bytes × Ref)
  | 0, _ => []
  | fuel + 1, bs =>
    match lineRef bs with
    | none => []
    | some ref =>
      (bs, ref) ::
        if h.passes ref then
          match lineRest bs with
          | none => []
          | some rest => reached h fuel rest
        else []

/-- The lines of a section a decoder can get to. -/
def sectionLines (section_ : Bytes) : List (Bytes × Ref) :=
  match readHead section_ with
  | none => []
  | some (h, lines) => reached h lines.length lines

/-- **The condition**: every relative reference names an entry below the Required Insert Count. -/
def RelativeBelow (section_ : Bytes) : Prop :=
  ∀ h lines, readHead section_ = some (h, lines) → h.sign = false →
    ∀ bs i, (bs, Ref.relative i) ∈ reached h lines.length lines → h.delta ≤ i

/-! ## §2. Strings and their room. -/

theorem scanString_eq (prefixBits : Nat) (hBit : UInt8) (bs : Bytes) :
    scanString prefixBits hBit bs = (freeString prefixBits hBit bs).map Prod.snd := by
  cases bs with
  | nil => rfl
  | cons b bs =>
    rw [scanString_cons]
    cases hr : readInteger prefixBits (b :: bs) with
    | none =>
      unfold freeString
      rw [prefixedString_cons, hr]
      rfl
    | some r =>
      obtain ⟨len, rest⟩ := r
      have hread : ∀ room, prefixedString prefixBits hBit room (b :: bs) =
          readString rest (b &&& hBit ≠ 0) len room := by
        intro room
        rw [prefixedString_cons, hr]
      dsimp only
      cases hs : readString rest (b &&& hBit ≠ 0) len (huffmanRoom rest.length) with
      | ok v =>
        rw [freeString_of_ok ((hread _).trans hs)]
        rfl
      | error e =>
        cases hf : freeString prefixBits hBit (b :: bs) with
        | none => rfl
        | some x =>
          -- what is read with the larger room fits the smaller one
          have hlarge := prefixedString_free hf x.1.length
          rw [if_pos le_rfl, hread] at hlarge
          obtain ⟨hle, heq⟩ := readString_relimit hlarge (huffmanRoom rest.length)
          rw [if_pos hle, hs] at heq
          simp at heq

/-- A string read under a limit is the string. -/
theorem scanString_of_ok {prefixBits : Nat} {hBit : UInt8} {maxOut : Nat} {bs s rest : Bytes}
    (h : prefixedString prefixBits hBit maxOut bs = .ok (s, rest)) :
    scanString prefixBits hBit bs = some rest := by
  rw [scanString_eq, freeString_of_ok h]
  rfl

/-- With room enough for it, a string is read. -/
theorem prefixedString_of_scan {prefixBits : Nat} {hBit : UInt8} {bs rest : Bytes}
    (h : scanString prefixBits hBit bs = some rest) :
    ∃ s, ∀ maxOut, s.length ≤ maxOut → prefixedString prefixBits hBit maxOut bs = .ok (s, rest) := by
  rw [scanString_eq] at h
  obtain ⟨⟨s, rest'⟩, hfree, rfl⟩ := Option.map_eq_some_iff.mp h
  exact ⟨s, fun maxOut hle => by rw [prefixedString_free hfree, if_pos hle]⟩

/-- What is malformed without any output stays so. -/
theorem huffmanDecode_malformed {in_ : Bytes} (h : huffmanDecode in_ 0 = .error .malformed)
    (maxOut : Nat) : huffmanDecode in_ maxOut = .error .malformed := by
  rcases huffmanDecode_spec in_ 0 with ⟨s, -, -, heq⟩ | ⟨hnone, hfew, -⟩ | ⟨-, heq⟩
  · simp [heq] at h
  · rcases huffmanDecode_spec in_ maxOut with ⟨s, hs, -⟩ | ⟨-, -, heq⟩ | ⟨hex, -⟩
    · exact absurd hs (hnone s)
    · exact heq
    · exact absurd (hex.mono (Nat.zero_le maxOut)) hfew
  · simp [heq] at h

/-- A string that is refused into nothing, but not for its length, is refused. -/
theorem readString_refused {in_ : Bytes} {huffman : Bool} {len : Nat} {e : StrStatus}
    (h : readString in_ huffman len 0 = .error e) (he : e ≠ .tooLarge) (maxOut : Nat) :
    readString in_ huffman len maxOut = .error e := by
  unfold readString at h ⊢
  split at h
  · next hlen => rwa [if_pos hlen]
  next hlen =>
    rw [if_neg hlen]
    split at h
    · next hhuff =>
      rw [if_pos hhuff]
      cases hd : huffmanDecode (in_.take len) 0 with
      | ok s =>
        rw [hd] at h
        simp at h
      | error e' =>
        rw [hd] at h
        cases e' with
        | malformed => rwa [huffmanDecode_malformed hd]
        | tooLarge => exact absurd (Except.error.inj h).symm he
    · split at h
      · exact absurd (Except.error.inj h).symm he
      · simp at h

theorem prefixedString_refused {bs : Bytes} {e : StrStatus}
    (h : prefixedString 7 0x80 0 bs = .error e) (he : e ≠ .tooLarge) (maxOut : Nat) :
    prefixedString 7 0x80 maxOut bs = .error e := by
  cases bs with
  | nil => exact h
  | cons b bs =>
    rw [prefixedString_cons] at h ⊢
    cases hr : readInteger 7 (b :: bs) with
    | none => rwa [hr] at h
    | some r =>
      rw [hr] at h
      exact readString_refused h he maxOut

theorem readable_false {bs : Bytes} (h : readable bs = false) :
    ∃ e, e ≠ .tooLarge ∧ prefixedString 7 0x80 0 bs = .error e := by
  unfold readable at h
  split at h
  · next hs => exact ⟨_, by simp, hs⟩
  · next hs => exact ⟨_, by simp, hs⟩
  · simp at h

/-- Read into nothing, it is there or too large. -/
theorem prefixedString_readable {bs : Bytes} (h : readable bs = true) :
    (∃ v, prefixedString 7 0x80 0 bs = .ok v) ∨ prefixedString 7 0x80 0 bs = .error .tooLarge := by
  unfold readable at h
  cases hs : prefixedString 7 0x80 0 bs with
  | ok v => exact .inl ⟨v, rfl⟩
  | error e =>
    rw [hs] at h
    cases e with
    | tooLarge => exact .inr rfl
    | malformed => simp at h
    | incomplete => simp at h

/-! ## §3. Lines. -/

/-- The entry a reference is looked up at, `none` when it is malformed before. -/
def Ref.entry (required base : Nat) : Ref → Option Nat
  | .own => none
  | .relative i => if i ≥ base then none else some (base - 1 - i)
  | .postBase i => if base + i ≥ required then none else some (base + i)

theorem Ref.entry_abs {required base abs : Nat} {ref : Ref} (h : ref.entry required base = some abs) :
    ref.abs base = some abs ∧ ∀ i, ref = .postBase i → abs < required := by
  cases ref with
  | own => simp [Ref.entry] at h
  | relative i =>
    unfold Ref.entry at h
    dsimp only at h
    split at h
    · simp at h
    · exact ⟨(if_pos (by omega)).trans h, by simp⟩
  | postBase i =>
    unfold Ref.entry at h
    dsimp only at h
    split at h
    · simp at h
    cases h
    exact ⟨rfl, fun _ _ => by omega⟩

/-- A line up to its index. -/
inductive Form where
  | static (f : Field) (rest : Bytes)
  | staticName (name rest : Bytes)
  | relative (i : Nat) (rest : Bytes)
  | relativeName (i : Nat) (rest : Bytes)
  | literal (line : Bytes)
  | postBase (i : Nat) (rest : Bytes)
  | postBaseName (i : Nat) (rest : Bytes)

def forms : LineReader (Option Form) where
  refused := none
  static f rest := some (.static f rest)
  staticName name rest := some (.staticName name rest)
  relative i rest := some (.relative i rest)
  relativeName i rest := some (.relativeName i rest)
  literal line := some (.literal line)
  postBase i rest := some (.postBase i rest)
  postBaseName i rest := some (.postBaseName i rest)

def LineReader.on {α : Type} (r : LineReader α) : Option Form → α
  | none => r.refused
  | some (.static f rest) => r.static f rest
  | some (.staticName name rest) => r.staticName name rest
  | some (.relative i rest) => r.relative i rest
  | some (.relativeName i rest) => r.relativeName i rest
  | some (.literal line) => r.literal line
  | some (.postBase i rest) => r.postBase i rest
  | some (.postBaseName i rest) => r.postBaseName i rest

theorem LineReader.read_eq {α : Type} (r : LineReader α) (bs : Bytes) : r.read bs = r.on (forms.read bs) :=
  Rel.read (R := fun x φ => x = r.on φ) ⟨rfl, fun _ _ => rfl, fun _ _ => rfl, fun _ _ => rfl,
    fun _ _ => rfl, fun _ => rfl, fun _ _ => rfl, fun _ _ => rfl⟩ bs

def refReader : LineReader (Option Ref) where
  refused := none
  static _ _ := some .own
  staticName _ _ := some .own
  relative i _ := some (.relative i)
  relativeName i rest := if readable rest then some (.relative i) else none
  literal _ := some .own
  postBase i _ := some (.postBase i)
  postBaseName i _ := some (.postBase i)

def restReader : LineReader (Option Bytes) where
  refused := none
  static _ rest := some rest
  staticName _ rest := scanString 7 0x80 rest
  relative _ rest := some rest
  relativeName _ rest := scanString 7 0x80 rest
  literal line := (scanString 3 0x08 line).bind fun rest => scanString 7 0x80 rest
  postBase _ rest := some rest
  postBaseName _ rest := scanString 7 0x80 rest

theorem lineRef_eq (bs : Bytes) : lineRef bs = refReader.read bs := by
  cases bs with
  | nil => rfl
  | cons b bs =>
    unfold lineRef LineReader.read
    dsimp only [refReader]
    split
    · cases readInteger 6 (b :: bs) with
      | none => rfl
      | some r =>
        cases hrow : kStaticTable[r.1]? <;> simp [hrow]
    · split
      · cases readInteger 4 (b :: bs) with
        | none => rfl
        | some r => cases hrow : kStaticTable[r.1]? <;> simp [hrow]
      · split
        · rfl
        split
        · cases readInteger 4 (b :: bs) <;> rfl
        · cases readInteger 3 (b :: bs) <;> rfl

theorem lineRest_eq {bs : Bytes} (h : lineRef bs ≠ none) : lineRest bs = restReader.read bs := by
  rw [lineRef_eq] at h
  cases bs with
  | nil => rfl
  | cons b bs =>
    unfold lineRest LineReader.read
    unfold LineReader.read at h
    dsimp only [refReader, restReader] at h ⊢
    split
    · cases hr : readInteger 6 (b :: bs) with
      | none => rfl
      | some r => cases hrow : kStaticTable[r.1]? <;> simp_all
    · split
      · cases hr : readInteger 4 (b :: bs) with
        | none => rfl
        | some r => cases hrow : kStaticTable[r.1]? <;> simp_all
      · split
        · rfl
        split
        · cases readInteger 4 (b :: bs) <;> rfl
        · cases readInteger 3 (b :: bs) <;> rfl

namespace Decoder

variable {d d' : Decoder} {required base total limit : Nat} {bs rest : Bytes} {f : Field}
  {o : Origin}

variable {n abs fuel encoded M : Nat} {name rest' section_ lines : Bytes} {h : Head} {ref : Ref}
  {line : Bytes × Ref}

theorem budget_zero {v : Nat} (h : total + (n + v + 32) ≤ limit) : n + v ≤ budget total limit 0 := by
  rw [budget_eq]
  omega

theorem dynamicLine_entry (he : d.entry abs = some f) (hsize : total + fieldSize f ≤ limit) (rest : Bytes) :
    d.dynamicLine abs total limit rest = .ok (f, { checked := some abs }, rest) := by
  have hbudget : f.1.length + f.2.length ≤ budget total limit 0 := budget_zero hsize
  unfold dynamicLine dynamic
  rw [he]
  dsimp only
  rw [if_pos rfl, if_neg (by omega)]

theorem lineRest_of_valueLine (h : valueLine name total limit bs = .ok (f, o, rest)) :
    scanString 7 0x80 bs = some rest := by
  unfold valueLine at h
  split at h
  · simp at h
  next value rest' hs =>
  simp only [Except.ok.injEq, Prod.mk.injEq] at h
  obtain ⟨-, -, rfl⟩ := h
  exact scanString_of_ok hs

/-- A value that nobody can read makes the line malformed. -/
theorem valueLine_unreadable (h : readable bs = false) :
    valueLine name total limit bs = .error .malformed := by
  obtain ⟨e, he, h0⟩ := readable_false h
  unfold valueLine
  rw [prefixedString_refused h0 he]
  cases e with
  | tooLarge => exact absurd rfl he
  | malformed => rfl
  | incomplete => rfl

theorem dynamicNameLine_entry (he : d.entry abs = some f) {value : Bytes}
    (hsize : total + fieldSize (f.1, value) ≤ limit) (rest : Bytes) :
    d.dynamicNameLine abs total limit rest = valueLine f.1 total limit rest := by
  have hbudget : f.1.length + value.length ≤ budget total limit 0 := budget_zero hsize
  unfold dynamicNameLine dynamic
  rw [he]
  dsimp only
  rw [if_neg Bool.false_ne_true, if_neg (by omega)]

/-- With room enough the value of a line is read. -/
theorem valueLine_of_scan {name : Bytes} (h : scanString 7 0x80 bs = some rest) :
    ∃ value, ∀ total limit, total + fieldSize (name, value) ≤ limit →
      valueLine name total limit bs = .ok ((name, value), {}, rest) := by
  obtain ⟨value, hv⟩ := prefixedString_of_scan h
  refine ⟨value, fun total limit hle => ?_⟩
  have hroom : value.length ≤ budget total limit name.length := by
    unfold fieldSize at hle
    rw [budget_eq]
    dsimp only at hle
    omega
  unfold valueLine
  rw [hv _ hroom]

/-- A line that is, or names, an entry of the table. -/
def entryLine (d : Decoder) (named : Bool) (abs total maxListSize : Nat) (rest : Bytes) :
    Except Result (Field × Origin × Bytes) :=
  if named then d.dynamicNameLine abs total maxListSize rest
  else d.dynamicLine abs total maxListSize rest

/-- The bytes behind such a line. -/
def entryRest (named : Bool) (rest : Bytes) : Option Bytes :=
  if named then scanString 7 0x80 rest else some rest

theorem entryLine_congr (h : d'.entry abs = d.entry abs) (named : Bool) (total limit : Nat) (rest : Bytes) :
    d'.entryLine named abs total limit rest = d.entryLine named abs total limit rest := by
  unfold entryLine dynamicNameLine dynamicLine dynamic
  rw [h]

theorem entryLine_missing (h : d.entry abs = none) (named : Bool) :
    d.entryLine named abs total limit rest = .error .malformed := by
  unfold entryLine dynamicNameLine dynamicLine dynamic
  rw [h]
  split <;> rfl

theorem entryLine_rest {named : Bool} (h : d.entryLine named abs total limit rest = .ok (f, o, rest')) :
    entryRest named rest = some rest' := by
  cases named with
  | false =>
    unfold entryLine dynamicLine at h
    rw [if_neg Bool.false_ne_true] at h
    split at h
    · simp at h
    simp only [Except.ok.injEq, Prod.mk.injEq] at h
    exact congrArg some h.2.2
  | true =>
    unfold entryLine dynamicNameLine at h
    rw [if_pos rfl] at h
    split at h
    · simp at h
    · exact lineRest_of_valueLine h

/-- With room for its field, a line whose entry is there is read. -/
theorem entryLine_passes {named : Bool} {abs : Nat} {rest' : Bytes} {entry : Field}
    (h : entryRest named rest = some rest') : ∃ f o, ∀ d : Decoder, d.entry abs = some entry → ∀ total limit,
      total + fieldSize f ≤ limit → d.entryLine named abs total limit rest = .ok (f, o, rest') := by
  cases named with
  | false =>
    cases h
    exact ⟨entry, { checked := some abs }, fun d he _ _ hle => dynamicLine_entry he hle rest⟩
  | true =>
    obtain ⟨value, hv⟩ := @valueLine_of_scan _ _ entry.1 h
    refine ⟨(entry.1, value), {}, fun d he total limit hle => ?_⟩
    exact (dynamicNameLine_entry he hle rest).trans (hv total limit hle)

/-- **What a line is**, for every table, Base and room. -/
inductive Shape (bs : Bytes) : Prop where
  | malformed (href : lineRef bs = none)
      (hread : ∀ (d : Decoder) required base total maxListSize,
        d.readLine required base total maxListSize bs = .error .malformed)
  | own (href : lineRef bs = some .own) (g : Nat → Nat → Except Result (Field × Origin × Bytes))
      (hread : ∀ (d : Decoder) required base total maxListSize,
        d.readLine required base total maxListSize bs = g total maxListSize)
      (hrest : ∀ total maxListSize f o rest, g total maxListSize = .ok (f, o, rest) →
        lineRest bs = some rest)
      (hfit : ∀ rest, lineRest bs = some rest → ∃ f o, ∀ total maxListSize,
        total + fieldSize f ≤ maxListSize → g total maxListSize = .ok (f, o, rest))
  | entry (ref : Ref) (named : Bool) (rest : Bytes) (href : lineRef bs = some ref) (hne : ref ≠ .own)
      (hrest : lineRest bs = entryRest named rest)
      (hvalue : ∀ i, ref = .relative i → named = true → readable rest = true)
      (hread : ∀ (d : Decoder) required base total maxListSize,
        d.readLine required base total maxListSize bs =
          match ref.entry required base with
          | none => .error .malformed
          | some abs => d.entryLine named abs total maxListSize rest)

/-- The lines that refer to an entry are read alike. -/
theorem shape_of_entry {bs : Bytes} {form : Option Form} (hline : ∀ (d : Decoder) required base total limit,
      d.readLine required base total limit bs = (d.lineReader required base total limit).on form)
    (ref : Ref) (named : Bool) (rest : Bytes) (href : lineRef bs = some ref) (hne : ref ≠ .own)
    (hrest : lineRest bs = entryRest named rest)
    (hvalue : ∀ i, ref = .relative i → named = true → readable rest = true)
    (hread : ∀ (d : Decoder) required base total limit, (d.lineReader required base total limit).on form =
        match ref.entry required base with
        | none => .error .malformed
        | some abs => d.entryLine named abs total limit rest) : Shape bs :=
  .entry ref named rest href hne hrest hvalue fun d required base total limit =>
    (hline d required base total limit).trans (hread d required base total limit)

/-- A line that spells its name. -/
def spelledLine (line : Bytes) (total maxListSize : Nat) : Except Result (Field × Origin × Bytes) :=
  match prefixedString 3 0x08 (budget total maxListSize 0) line with
  | .error e => .error (ofStr e)
  | .ok (name, rest) => valueLine name total maxListSize rest

theorem shape (bs : Bytes) : Shape bs := by
  have hline : ∀ (d : Decoder) required base total limit,
      d.readLine required base total limit bs =
        (d.lineReader required base total limit).on (forms.read bs) := by
    intro d required base total limit
    rw [readLine_eq, LineReader.read_eq]
  have href : lineRef bs = refReader.on (forms.read bs) := by rw [lineRef_eq, LineReader.read_eq]
  have hrest : lineRef bs ≠ none → lineRest bs = restReader.on (forms.read bs) := by
    intro h
    rw [lineRest_eq h, LineReader.read_eq]
  generalize forms.read bs = form at hline href hrest
  have hentry := shape_of_entry hline
  cases form with
  | none => exact .malformed href hline
  | some form =>
    have hknown : ∀ ref, lineRef bs = some ref → lineRest bs = restReader.on (some form) :=
      fun ref h => hrest (by rw [h]; simp)
    cases form with
    | static row rest =>
      have hr := hknown _ href
      refine .own href (fun _ _ => .ok (row, { staticTable := true }, rest)) hline ?_ ?_
      · intro total limit f o rest' hg
        simp only [Except.ok.injEq, Prod.mk.injEq] at hg
        rw [hr, ← hg.2.2]
        rfl
      · intro rest' hl
        cases hr.symm.trans hl
        exact ⟨row, { staticTable := true }, fun _ _ _ => rfl⟩
    | staticName name rest =>
      have hr := hknown _ href
      refine .own href (fun total limit =>
        if name.length > budget total limit 0 then .error .tooLarge
        else valueLine name total limit rest) hline ?_ ?_
      · intro total limit f o rest' hg
        split at hg
        · simp at hg
        · exact hr.trans (lineRest_of_valueLine hg)
      · intro rest' hl
        obtain ⟨value, hv⟩ := @valueLine_of_scan _ _ name (hr.symm.trans hl)
        refine ⟨(name, value), {}, fun total limit hle => ?_⟩
        rw [if_neg (Nat.not_lt.mpr (Nat.le_trans (Nat.le_add_right ..) (budget_zero hle))),
          hv total limit hle]
    | literal line =>
      have hr := hknown _ href
      refine .own href (spelledLine line) hline ?_ ?_
      · intro total limit f o rest hg
        unfold spelledLine at hg
        split at hg
        · simp at hg
        next name rest' hn =>
        rw [hr]
        show (scanString 3 0x08 line).bind _ = _
        rw [scanString_of_ok hn]
        exact lineRest_of_valueLine hg
      · intro rest hl
        obtain ⟨rest₁, hn, hl⟩ := Option.bind_eq_some_iff.mp (hr.symm.trans hl)
        obtain ⟨name, hname⟩ := prefixedString_of_scan hn
        obtain ⟨value, hv⟩ := @valueLine_of_scan _ _ name hl
        refine ⟨(name, value), {}, fun total limit hle => ?_⟩
        unfold spelledLine
        rw [hname _ (Nat.le_trans (Nat.le_add_right ..) (budget_zero hle))]
        exact hv total limit hle
    | relative i rest =>
      refine hentry (.relative i) false rest href (by simp) (hknown _ href) (by simp) ?_
      intro d required base total limit
      show (if i ≥ base then _ else _) = _
      unfold Ref.entry
      dsimp only
      split <;> rfl
    | relativeName i rest =>
      cases hv : readable rest with
      | true =>
        have href' : lineRef bs = some (.relative i) := href.trans (if_pos hv)
        refine hentry (.relative i) true rest href' (by simp) (hknown _ href')
          (fun _ _ _ => hv) ?_
        intro d required base total limit
        show (if i ≥ base then _ else _) = _
        unfold Ref.entry
        dsimp only
        split <;> rfl
      | false =>
        refine .malformed (href.trans (if_neg (by simp [hv]))) ?_
        intro d required base total limit
        rw [hline]
        show (if i ≥ base then _ else d.dynamicNameLine _ _ _ _) = _
        unfold dynamicNameLine
        split
        · rfl
        split
        · rfl
        · exact valueLine_unreadable hv
    | postBase i rest =>
      refine hentry (.postBase i) false rest href (by simp) (hknown _ href) (by simp) ?_
      intro d required base total limit
      show (if base + i ≥ required then _ else _) = _
      unfold Ref.entry
      dsimp only
      split <;> rfl
    | postBaseName i rest =>
      refine hentry (.postBase i) true rest href (by simp) (hknown _ href) (by simp) ?_
      intro d required base total limit
      show (if base + i ≥ required then _ else _) = _
      unfold Ref.entry
      dsimp only
      split <;> rfl

theorem readLine_of_lineRef_none (h : lineRef bs = none) (d : Decoder) :
    d.readLine required base total limit bs = .error .malformed := by
  cases shape bs with
  | malformed _ hread => exact hread ..
  | own href => cases h.symm.trans href
  | entry _ _ _ href => cases h.symm.trans href

/-! ## §4. The lines that are reached. -/

/-- The counts a head stands for. -/
structure Means (h : Head) (required base : Nat) : Prop where
  count : h.encoded = 0 ↔ required = 0
  behind : h.sign = true → h.delta < required ∧ base = required - h.delta - 1
  ahead : h.sign = false → base = required + h.delta

/-- A line is passed when its entry is below the Required Insert Count. -/
theorem Means.passes_iff (hm : Means h required base)
    (ha : ref.abs base = some abs) : h.passes ref = true ↔ abs < required := by
  have hcount := hm.count
  cases ref with
  | own => simp [Ref.abs] at ha
  | relative i =>
    unfold Ref.abs at ha
    dsimp only at ha
    split at ha
    · next hi =>
      cases ha
      cases hs : h.sign with
      | true =>
        obtain ⟨hlt, rfl⟩ := hm.behind hs
        have hne : h.encoded ≠ 0 := fun hz => by have := hcount.mp hz; omega
        simp [Head.passes, hs, hne]
        omega
      | false =>
        have hbase := hm.ahead hs
        by_cases hz : h.encoded = 0
        · simp [Head.passes, hz]
          omega
        simp [Head.passes, hs, hz]
        omega
    · simp at ha
  | postBase i =>
    cases ha
    cases hs : h.sign with
    | true =>
      obtain ⟨hlt, rfl⟩ := hm.behind hs
      simp [Head.passes, hs]
      omega
    | false =>
      have hbase := hm.ahead hs
      simp [Head.passes, hs]
      omega

theorem reached_cons {h : Head} {fuel : Nat} {ref : Ref} (href : lineRef bs = some ref) :
    (bs, ref) ∈ reached h (fuel + 1) bs := by
  unfold reached
  rw [href]
  exact .head _

/-- The lines behind one that is passed. -/
theorem reached_rest (href : lineRef bs = some ref)
    (hp : h.passes ref = true) (hrest : lineRest bs = some rest)
    (hl : line ∈ reached h fuel rest) : line ∈ reached h (fuel + 1) bs := by
  unfold reached
  rw [href]
  dsimp only
  rw [if_pos hp, hrest]
  exact .tail _ hl

/-- A line reached is the first one, or behind it. -/
theorem reached_cases (hl : line ∈ reached h (fuel + 1) bs) :
    ∃ ref, lineRef bs = some ref ∧ (line = (bs, ref) ∨
      h.passes ref = true ∧ ∃ rest, lineRest bs = some rest ∧ line ∈ reached h fuel rest) := by
  unfold reached at hl
  cases href : lineRef bs with
  | none =>
    rw [href] at hl
    cases hl
  | some ref =>
    rw [href] at hl
    rcases List.mem_cons.mp hl with heq | hl
    · exact ⟨ref, rfl, .inl heq⟩
    split at hl
    · next hp =>
      cases hrest : lineRest bs with
      | none =>
        rw [hrest] at hl
        cases hl
      | some rest =>
        rw [hrest] at hl
        exact ⟨ref, rfl, .inr ⟨hp, rest, rfl, hl⟩⟩
    · cases hl

/-- What the lines say, in one table: the entries below the Required Insert Count. -/
def Holds (d : Decoder) (required base : Nat) (lines : List (Bytes × Ref))
    (content : Nat → Option Field) : Prop :=
  ∀ line ∈ lines, ∀ abs, line.2.abs base = some abs → abs < required → d.entry abs = content abs

/-- A line gives what its bytes and the entry it names give, and the next one starts where its
    bytes end. -/
theorem readLine_timeless (hm : Means h required base) (href : lineRef bs = some ref)
    (hbelow : ∀ i abs, ref = .relative i → ref.abs base = some abs → abs < required)
    (hsame : ∀ abs, ref.abs base = some abs → abs < required → d'.entry abs = d.entry abs)
    (total limit : Nat) : d'.readLine required base total limit bs = d.readLine required base total limit bs ∧
      ∀ f o rest, d.readLine required base total limit bs = .ok (f, o, rest) →
        h.passes ref = true ∧ lineRest bs = some rest := by
  cases shape bs with
  | malformed href' _ => cases href.symm.trans href'
  | own href' g hread hrest _ =>
    cases href.symm.trans href'
    rw [hread, hread]
    exact ⟨rfl, fun f o rest hg => ⟨rfl, hrest _ _ f o rest hg⟩⟩
  | entry ref' named rest href' hne hrest _ hread =>
    cases href.symm.trans href'
    rw [hread, hread]
    cases he : ref.entry required base with
    | none => exact ⟨rfl, fun f o rest hg => absurd hg (by simp)⟩
    | some abs =>
      obtain ⟨ha, hpost⟩ := Ref.entry_abs he
      have hlt : abs < required := by
        cases ref with
        | own => exact absurd rfl hne
        | relative i => exact hbelow i abs rfl ha
        | postBase i => exact hpost i rfl
      refine ⟨entryLine_congr (hsame _ ha hlt) .., fun f o rest' hg => ?_⟩
      exact ⟨(hm.passes_iff ha).mpr hlt, hrest.trans (entryLine_rest hg)⟩

/-- **The loop, at two moments.** -/
theorem decodeLoop_timeless (hm : Means h required base) (limit : Nat)
    (sink : List Reported → Bool) (fuel total : Nat) (out : List Reported) (bs : Bytes)
    (hbelow : ∀ bs' i abs, (bs', Ref.relative i) ∈ reached h fuel bs →
      (Ref.relative i).abs base = some abs → abs < required)
    (hsame : Holds d' required base (reached h fuel bs) d.entry) :
    d'.decodeLoop required base limit sink fuel total out bs =
      d.decodeLoop required base limit sink fuel total out bs := by
  induction fuel generalizing total out bs with
  | zero => rfl
  | succ fuel ih =>
    unfold decodeLoop
    by_cases hnil : bs.length = 0
    · rw [if_pos hnil, if_pos hnil]
    rw [if_neg hnil, if_neg hnil]
    cases href : lineRef bs with
    | none =>
      rw [readLine_of_lineRef_none href d', readLine_of_lineRef_none href d]
    | some ref =>
      have hmem := @reached_cons bs h fuel ref href
      obtain ⟨heq, hnext⟩ := readLine_timeless hm href
        (fun i abs hr ha => by subst hr; exact hbelow bs i abs hmem ha)
        (fun abs ha hlt => hsame _ hmem abs ha hlt) total limit
      rw [heq]
      cases hread : d.readLine required base total limit bs with
      | error e => rfl
      | ok r =>
        obtain ⟨f, o, rest⟩ := r
        obtain ⟨hp, hrest⟩ := hnext f o rest hread
        dsimp only
        split
        · rfl
        split
        · rfl
        apply ih
        · intro bs' i abs hl ha
          exact hbelow bs' i abs (reached_rest href hp hrest hl) ha
        · intro line hl
          exact hsame line (reached_rest href hp hrest hl)

theorem Ref.entry_of_passes (hm : Means h required base) (hne : ref ≠ .own)
    (hp : h.passes ref = true) (hbase : ∀ i, ref = .relative i → i < base) :
    ∃ abs, ref.entry required base = some abs ∧ ref.abs base = some abs ∧ abs < required := by
  cases ref with
  | own => exact absurd rfl hne
  | relative i =>
    have hi := hbase i rfl
    have ha : (Ref.relative i).abs base = some (base - 1 - i) := if_pos hi
    exact ⟨_, if_neg (Nat.not_le.mpr hi), ha, (hm.passes_iff ha).mp hp⟩
  | postBase i =>
    have hlt := (hm.passes_iff (rfl : (Ref.postBase i).abs base = _)).mp hp
    exact ⟨_, if_neg (Nat.not_le.mpr hlt), rfl, hlt⟩

/-- With room for its field, a line whose entry is there is read. -/
theorem readLine_passes (hm : Means h required base)
    (href : lineRef bs = some ref) (hp : h.passes ref = true) (hrest : lineRest bs = some rest)
    {content : Nat → Option Field}
    (hheld : ∀ abs, ref.abs base = some abs → abs < required → (content abs).isSome)
    (hbase : ∀ i, ref = .relative i → i < base) : ∃ f o, ∀ d : Decoder,
      (∀ abs, ref.abs base = some abs → abs < required → d.entry abs = content abs) →
      ∀ total limit, total + fieldSize f ≤ limit →
        d.readLine required base total limit bs = .ok (f, o, rest) := by
  cases shape bs with
  | malformed href' _ => cases href.symm.trans href'
  | own _ g hread _ hfit =>
    obtain ⟨f, o, hg⟩ := hfit rest hrest
    refine ⟨f, o, fun d _ total limit hle => ?_⟩
    rw [hread, hg total limit hle]
  | entry ref' named rest' href' hne hrest' _ hread =>
    cases href.symm.trans href'
    obtain ⟨abs, he, ha, hlt⟩ := Ref.entry_of_passes hm hne hp hbase
    obtain ⟨entry, hf⟩ := Option.isSome_iff_exists.mp (hheld abs ha hlt)
    obtain ⟨f, o, hline⟩ := @entryLine_passes rest' named abs rest entry (hrest'.symm.trans hrest)
    refine ⟨f, o, fun d hd total limit hle => ?_⟩
    rw [hread, he]
    exact hline d ((hd abs ha hlt).trans hf) total limit hle

theorem length_ne_zero_of_lineRef (href : lineRef bs = some ref) : ¬ bs.length = 0 := by
  intro hz
  rw [List.length_eq_zero_iff.mp hz] at href
  simp [lineRef] at href

/-- One round of the loop: a line that is read and fits. -/
theorem decodeLoop_line {out : List Reported} (href : lineRef bs = some ref)
    (hread : d.readLine required base total limit bs = .ok (f, o, rest)) (hle : total + fieldSize f ≤ limit) :
    d.decodeLoop required base limit takeAll (fuel + 1) total out bs =
      d.decodeLoop required base limit takeAll fuel (total + fieldSize f) (out ++ [(f, o)]) rest := by
  conv_lhs => unfold decodeLoop
  rw [if_neg (length_ne_zero_of_lineRef href), hread]
  dsimp only
  rw [if_neg (show ¬ total + (f.1.length + f.2.length + 32) > limit by
    unfold fieldSize at hle; omega), if_neg (by simp [takeAll])]
  rfl

/-- A line beyond the Required Insert Count. -/
def Beyond (required base : Nat) (line : Bytes × Ref) : Prop :=
  ∃ abs, line.2.abs base = some abs ∧ required ≤ abs

/-- **The way to a line**: with room enough, every decoder that holds the entries before it gets
    there in the same state, unless a relative reference before it goes below the first entry. -/
theorem decodeLoop_walk {h : Head} (hm : Means h required base) {content : Nat → Option Field}
    (fuel : Nat) (bs : Bytes) {line : Bytes × Ref} (hl : line ∈ reached h fuel bs)
    (hheld : ∀ l ∈ reached h fuel bs, ∀ abs, l.2.abs base = some abs → abs < required →
      (content abs).isSome) : ∃ line' size fuel' fields, line' ∈ reached h fuel bs ∧
      (line' = line ∨ h.passes line'.2 = true ∧ ∃ i, line'.2 = .relative i ∧ base ≤ i) ∧
      lineRef line'.1 = some line'.2 ∧ ∀ d : Decoder, Holds d required base (reached h fuel bs) content →
      ∀ total out limit, total + size ≤ limit → d.decodeLoop required base limit takeAll fuel total out bs =
          d.decodeLoop required base limit takeAll (fuel' + 1) (total + size) (out ++ fields) line'.1 := by
  induction fuel generalizing bs with
  | zero => cases hl
  | succ fuel ih =>
    obtain ⟨ref, href, hcases⟩ := reached_cases hl
    have hmem := @reached_cons bs h fuel ref href
    -- the walk ends at the line itself, or at one that refers to nothing
    rcases hcases with rfl | ⟨hp, rest, hrest, hl'⟩
    · exact ⟨(bs, ref), 0, fuel, [], hmem, .inl rfl, href,
        fun d _ total out limit _ => by rw [List.append_nil]; rfl⟩
    by_cases hbase : ∀ i, ref = .relative i → i < base
    · obtain ⟨f, o, hread⟩ := readLine_passes hm href hp hrest
        (fun abs ha hlt => hheld _ hmem abs ha hlt) hbase
      obtain ⟨line', size, fuel', fields, hin', hend', hlast, hloop⟩ := ih rest hl'
        (fun l hin => hheld l (reached_rest href hp hrest hin))
      refine ⟨line', fieldSize f + size, fuel', (f, o) :: fields,
        reached_rest href hp hrest hin', hend', hlast, ?_⟩
      intro d hd total out limit hle
      have hline := hread d (fun abs ha hlt => hd _ hmem abs ha hlt) total limit (by omega)
      rw [decodeLoop_line href hline (by omega),
        hloop d (fun l hin => hd l (reached_rest href hp hrest hin)) _ _ _ (by omega),
        Nat.add_assoc, List.append_assoc]
      rfl
    · obtain ⟨i, hi⟩ := Classical.not_forall.mp hbase
      obtain ⟨hr, hge⟩ := Classical.not_imp.mp hi
      exact ⟨(bs, ref), 0, fuel, [], hmem, .inr ⟨hp, i, hr, Nat.not_lt.mp hge⟩, href,
        fun d _ total out limit _ => by rw [List.append_nil]; rfl⟩

/-- The end of the way: a line that is malformed. -/
theorem decodeLoop_malformed (href : lineRef bs = some ref)
    (hread : d.readLine required base total limit bs = .error .malformed)
    (sink : List Reported → Bool) (fuel : Nat) (out : List Reported) :
    d.decodeLoop required base limit sink (fuel + 1) total out bs = (.malformed, out) := by
  unfold decodeLoop
  rw [if_neg (length_ne_zero_of_lineRef href), hread]

/-- A post-base reference at or above the count is malformed, and so is a relative one below the
    first entry. -/
theorem readLine_beyond (href : lineRef bs = some ref)
    (hb : (∃ i, ref = .postBase i ∧ required ≤ base + i) ∨ ∃ i, ref = .relative i ∧ base ≤ i)
    (d : Decoder) (total limit : Nat) : d.readLine required base total limit bs = .error .malformed := by
  cases shape bs with
  | malformed href' _ => cases href.symm.trans href'
  | own href' =>
    cases href.symm.trans href'
    simp at hb
  | entry ref' named rest href' _ _ _ hread =>
    cases href.symm.trans href'
    have hnone : ref.entry required base = none := by
      rcases hb with ⟨i, rfl, hge⟩ | ⟨i, rfl, hge⟩
      · exact if_pos hge
      · exact if_pos hge
    rw [hread, hnone]

/-! ## §5. The encoder stream between two moments. -/

/-- What holds of a decoder in every state. -/
structure Sound (d : Decoder) : Prop where
  table : d.table.Valid
  capacity : d.table.capacity = d.maxCapacity
  count : d.table.count ≤ d.insertCount

/-- What happens to a decoder between two sections. -/
inductive Step (d : Decoder) : Decoder → Prop where
  | instruction {in_ rest : Bytes} {d' : Decoder} (h : d.nextInstruction in_ = .done d' rest) :
      Step d d'
  | acknowledged (streamId required : Nat) : Step d (d.sectionAcknowledged streamId required).2
  | increment : Step d d.insertCountIncrement.2

def Later : Decoder → Decoder → Prop := Relation.ReflTransGen Step

theorem new_sound (maxCapacity : Nat) : (new maxCapacity).Sound := by
  obtain ⟨hv, he, -, hcap⟩ := DynamicTable.setLimit_spec (DynamicTable.new_valid maxCapacity)
    (Nat.zero_le _)
  refine ⟨hv, hcap, ?_⟩
  rw [← DynamicTable.length_entries]
  show ((DynamicTable.new maxCapacity).setLimit 0).entries.length ≤ 0
  rw [he]
  exact Nat.le_of_eq rfl

theorem entry_eq (h : d.Sound) (abs : Nat) : d.entry abs =
      if abs ≥ d.insertCount then none else d.table.entries[d.insertCount - 1 - abs]? := by
  unfold entry
  dsimp only
  split
  · rfl
  split
  · next hk =>
    rw [List.getElem?_eq_none (by rw [DynamicTable.length_entries]; exact hk)]
  · exact DynamicTable.at_eq h.table _

/-- What the encoder stream leaves of a table. -/
structure Grows (d d' : Decoder) : Prop where
  sound : d'.Sound
  capacity : d'.maxCapacity = d.maxCapacity
  count : d.insertCount ≤ d'.insertCount
  entry : ∀ abs f, abs < d.insertCount → d'.entry abs = some f → d.entry abs = some f

theorem Grows.refl (h : d.Sound) : Grows d d := ⟨h, rfl, le_rfl, fun _ _ _ he => he⟩

theorem Grows.trans {d₁ d₂ d₃ : Decoder} (h : Grows d₁ d₂) (h' : Grows d₂ d₃) : Grows d₁ d₃ where
  sound := h'.sound
  capacity := h'.capacity.trans h.capacity
  count := Nat.le_trans h.count h'.count
  entry abs f hlt he :=
    h.entry abs f hlt (h'.entry abs f (Nat.lt_of_lt_of_le hlt h.count) he)

/-- New entries in front, some of the oldest gone. -/
theorem Grows.of_entries (h : d.Sound) (hv : d'.table.Valid)
    (hcap : d'.table.capacity = d.table.capacity) (hmax : d'.maxCapacity = d.maxCapacity)
    {limit : Nat} {fresh : List Field} (hcount : d'.insertCount = d.insertCount + fresh.length)
    (he : d'.table.entries = fit fieldSize limit (fresh ++ d.table.entries)) : Grows d d' := by
  have hpre : d'.table.entries <+: fresh ++ d.table.entries := he ▸ fit_prefix fieldSize limit _
  have hlen := hpre.length_le
  rw [List.length_append, DynamicTable.length_entries, DynamicTable.length_entries] at hlen
  have hsound : d'.Sound := ⟨hv, (hcap.trans h.capacity).trans hmax.symm, by have := h.count; omega⟩
  refine ⟨hsound, hmax, by omega, fun abs f hlt hf => ?_⟩
  rw [entry_eq hsound, if_neg (by omega)] at hf
  rw [entry_eq h, if_neg (by omega)]
  obtain ⟨older, holder⟩ := hpre
  have hk := (List.getElem?_eq_some_iff.mp hf).1
  rw [← List.getElem?_append_left hk, holder, List.getElem?_append_right (by omega)] at hf
  rw [← hf]
  congr 1
  omega

/-- What an insertion does. -/
theorem insert_cases {value rest : Bytes} (hi : d.insert name value rest = .done d' rest') :
    (d.table.add name value).1 = true ∧
      d' = { d with table := (d.table.add name value).2, insertCount := d.insertCount + 1 } := by
  unfold insert at hi
  split at hi
  · simp at hi
  cases hadd : d.table.add name value with
  | mk taken table =>
    rw [hadd] at hi
    cases taken with
    | false => simp at hi
    | true =>
      simp only [Outcome.done.injEq] at hi
      exact ⟨rfl, hi.1.symm⟩

theorem insertValue_cases {rest : Bytes} (hi : d.insertValue name rest = .done d' rest') :
    ∃ value rest₁, d.insert name value rest₁ = .done d' rest' := by
  unfold insertValue at hi
  split at hi
  · simp at hi
  · simp at hi
  · exact ⟨_, _, hi⟩

/-- **What an instruction does**: an entry more, or another limit. -/
theorem nextInstruction_cases {in_ rest : Bytes} (hi : d.nextInstruction in_ = .done d' rest) :
    (∃ name value, (d.table.add name value).1 = true ∧
      d' = { d with table := (d.table.add name value).2, insertCount := d.insertCount + 1 }) ∨
    (∃ cap, cap ≤ d.maxCapacity ∧ d' = { d with table := d.table.setLimit cap }) := by
  have hvalue : ∀ name rest₁, d.insertValue name rest₁ = .done d' rest →
      ∃ name value, (d.table.add name value).1 = true ∧
        d' = { d with table := (d.table.add name value).2, insertCount := d.insertCount + 1 } := by
    intro name rest₁ h
    obtain ⟨value, _, hins⟩ := insertValue_cases h
    exact ⟨name, value, insert_cases hins⟩
  cases in_ with
  | nil => simp [nextInstruction] at hi
  | cons b bs =>
    unfold nextInstruction at hi
    dsimp only at hi
    split at hi
    · split at hi
      · simp at hi
      split at hi
      · split at hi
        · simp at hi
        · exact .inl (hvalue _ _ hi)
      · split at hi
        · simp at hi
        split at hi
        · simp at hi
        · exact .inl (hvalue _ _ hi)
    · split at hi
      · split at hi
        · simp at hi
        · simp at hi
        · exact .inl (hvalue _ _ hi)
      · split at hi
        · split at hi
          · simp at hi
          split at hi
          · simp at hi
          next cap _ _ hcap =>
          simp only [Outcome.done.injEq] at hi
          exact .inr ⟨cap, by omega, hi.1.symm⟩
        · split at hi
          · simp at hi
          split at hi
          · simp at hi
          split at hi
          · simp at hi
          · exact .inl ⟨_, _, insert_cases hi⟩

theorem Grows.of_instruction {in_ rest : Bytes} (h : d.Sound)
    (hi : d.nextInstruction in_ = .done d' rest) : Grows d d' := by
  rcases nextInstruction_cases hi with ⟨name, value, -, rfl⟩ | ⟨cap, hcap, rfl⟩
  · obtain ⟨hv, he, -, hc, -⟩ := DynamicTable.add_spec h.table name value
    exact @Grows.of_entries d _ h hv hc rfl _ [(name, value)] rfl he
  obtain ⟨hv, he, -, hc⟩ := DynamicTable.setLimit_spec h.table
    (show cap ≤ d.table.capacity by rw [h.capacity]; exact hcap)
  exact @Grows.of_entries d _ h hv hc rfl cap [] rfl he

theorem Later.grows (h : d.Sound) (hl : Later d d') : Grows d d' := by
  induction hl with
  | refl => exact .refl h
  | tail _ hs ih =>
    refine ih.trans ?_
    have hsound := ih.sound
    cases hs with
    | instruction hi => exact .of_instruction hsound hi
    | acknowledged streamId required =>
      exact ⟨⟨hsound.table, hsound.capacity, hsound.count⟩, rfl, le_rfl, fun _ _ _ he => he⟩
    | increment =>
      unfold insertCountIncrement
      split
      · exact .refl hsound
      exact ⟨⟨hsound.table, hsound.capacity, hsound.count⟩, rfl, le_rfl,
        fun _ _ _ he => he⟩

/-! ## §6. The prefix at two moments. -/

theorem readPrefix_eq (d : Decoder) (section_ : Bytes) : d.readPrefix section_ =
      match readHead section_ with
      | none => none
      | some (h, lines) =>
        match d.recoverCount h.encoded with
        | none => none
        | some required =>
          if h.sign then
            if h.delta ≥ required then none else some (required, required - h.delta - 1, lines)
          else some (required, required + h.delta, lines) := by
  unfold readPrefix readHead
  cases readInteger 8 section_ with
  | none => rfl
  | some r =>
    obtain ⟨encoded, rest⟩ := r
    cases rest with
    | nil => rfl
    | cons b bs =>
      dsimp only
      cases readInteger 7 (b :: bs) with
      | none => rfl
      | some r' =>
        obtain ⟨delta, lines⟩ := r'
        dsimp only [Option.map]
        cases d.recoverCount encoded with
        | none => rfl
        | some required =>
          dsimp only
          by_cases hb : b &&& 0x80 ≠ 0
          · rw [if_pos hb, if_pos (decide_eq_true hb)]
          · rw [if_neg hb, if_neg (by simpa using hb)]

/-- **The wrapped count.**  With `M` entries at most in the table, a count within `M` of what was
    received is recovered. -/
theorem recoverCount_spec {r : Nat} (hr : 0 < r)
    (hhi : r ≤ d.insertCount + d.maxCapacity / 32) (hlo : d.insertCount < r + d.maxCapacity / 32) :
    d.recoverCount (r % (2 * (d.maxCapacity / 32)) + 1) = some r := by
  unfold recoverCount
  dsimp only
  rw [if_neg (Nat.succ_ne_zero _)]
  generalize hF : 2 * (d.maxCapacity / 32) = F
  generalize hV : d.insertCount + d.maxCapacity / 32 = V
  have hF0 : 0 < F := by omega
  have hmod : r % F < F := Nat.mod_lt r hF0
  rw [if_neg (by omega)]
  -- the two multiples of the range below `r` and below the largest value
  have hrdiv := Nat.div_add_mod r F
  have hle : r / F ≤ V / F := Nat.div_le_div_right (by omega)
  have hge : V / F ≤ r / F + 1 := by
    have : V / F ≤ (r + F) / F := Nat.div_le_div_right (by omega)
    rwa [Nat.add_div_right r hF0] at this
  have hcases : V / F = r / F ∨ V / F = r / F + 1 := by omega
  rcases hcases with heq | heq
  · have hmul : V / F * F + (r % F + 1) - 1 = r := by
      rw [heq, Nat.mul_comm]
      omega
    rw [hmul, if_neg (by omega), if_neg (by omega)]
  · have hmul : V / F * F + (r % F + 1) - 1 = r + F := by
      rw [heq, Nat.mul_comm, Nat.mul_add, Nat.mul_one]
      omega
    rw [hmul, if_pos (by omega), if_neg (by omega), if_neg (by omega),
      show r + F - F = r by omega]

/-- A count that is recovered is the one that was wrapped. -/
theorem recoverCount_some (h : d.recoverCount encoded = some required) :
    (encoded = 0 ↔ required = 0) ∧ required ≤ d.insertCount + d.maxCapacity / 32 ∧
      (0 < required → encoded = required % (2 * (d.maxCapacity / 32)) + 1) := by
  unfold recoverCount at h
  split at h
  · next hz =>
    cases h
    exact ⟨by simp [hz], Nat.zero_le _, fun hlt => absurd hlt (Nat.lt_irrefl 0)⟩
  · next hz =>
    dsimp only at h
    generalize hF : 2 * (d.maxCapacity / 32) = F at h ⊢
    generalize hV : d.insertCount + d.maxCapacity / 32 = V at h ⊢
    split at h
    · simp at h
    next hle =>
    -- a multiple of the range and the rest of the wrapped number
    have hwrap : ∀ q r, r + q * F + 1 = encoded + V / F * F → 0 < r →
        (encoded = 0 ↔ r = 0) ∧ (0 < r → encoded = r % F + 1) := by
      intro q r heq hr
      refine ⟨⟨fun h0 => absurd h0 hz, fun h0 => absurd h0 (by omega)⟩, fun _ => ?_⟩
      have h1 : (r + q * F) % F = r % F := Nat.add_mul_mod_self_right r q F
      have h2 : (encoded - 1 + V / F * F) % F = (encoded - 1) % F :=
        Nat.add_mul_mod_self_right _ _ _
      have h3 : r + q * F = encoded - 1 + V / F * F := by omega
      rw [h3, h2, Nat.mod_eq_of_lt (by omega)] at h1
      omega
    have hdiv : V / F * F ≤ V := Nat.div_mul_le_self V F
    split at h
    · split at h
      · simp at h
      split at h
      · simp at h
      cases h
      have := hwrap 1 (V / F * F + encoded - 1 - F) (by omega) (by omega)
      exact ⟨this.1, by omega, this.2⟩
    · split at h
      · simp at h
      cases h
      have := hwrap 0 (V / F * F + encoded - 1) (by omega) (by omega)
      exact ⟨this.1, by omega, this.2⟩

/-- A wrapped number that is beyond a table is beyond it at every earlier moment. -/
theorem recoverCount_none (hcap : d'.maxCapacity = d.maxCapacity)
    (hcount : d.insertCount ≤ d'.insertCount) (h : d'.recoverCount encoded = none) :
    d.recoverCount encoded = none := by
  unfold recoverCount at h ⊢
  by_cases hz : encoded = 0
  · rw [if_pos hz] at h
    simp at h
  rw [if_neg hz] at h ⊢
  dsimp only at h ⊢
  rw [hcap] at h
  generalize hF : 2 * (d.maxCapacity / 32) = F at h ⊢
  have hV : d.insertCount + d.maxCapacity / 32 ≤ d'.insertCount + d.maxCapacity / 32 := by omega
  generalize d.insertCount + d.maxCapacity / 32 = V at hV ⊢
  generalize d'.insertCount + d.maxCapacity / 32 = V' at h hV
  by_cases hbig : encoded > F
  · rw [if_pos hbig]
  rw [if_neg hbig] at h ⊢
  have hle : V' / F * F ≤ V' := Nat.div_mul_le_self V' F
  -- the first range is not full at the later moment
  have hsmall : V' / F = 0 := by
    by_contra hne
    have hge : F ≤ V' / F * F := Nat.le_mul_of_pos_left F (Nat.pos_of_ne_zero hne)
    split at h
    · split at h
      · omega
      split at h
      · omega
      · simp at h
    · split at h
      · omega
      · simp at h
  have hfirst : V / F = 0 := Nat.le_zero.mp (hsmall ▸ Nat.div_le_div_right hV)
  rw [hsmall] at h
  rw [hfirst]
  split at h
  · rw [if_pos (by omega), if_pos (by omega)]
  split at h
  · next h0 => rw [if_neg (by omega), if_pos h0]
  · simp at h

theorem readPrefix_means (h : d.readPrefix section_ = some (required, base, lines)) :
    ∃ head, readHead section_ = some (head, lines) ∧ d.recoverCount head.encoded = some required ∧
      Means head required base := by
  rw [readPrefix_eq] at h
  cases hh : readHead section_ with
  | none =>
    rw [hh] at h
    simp at h
  | some r =>
    obtain ⟨head, lines'⟩ := r
    rw [hh] at h
    dsimp only at h
    cases hc : d.recoverCount head.encoded with
    | none =>
      rw [hc] at h
      simp at h
    | some required' =>
      rw [hc] at h
      dsimp only at h
      split at h
      · next hs =>
        split at h
        · simp at h
        next hlt =>
        simp only [Option.some.injEq, Prod.mk.injEq] at h
        obtain ⟨rfl, rfl, rfl⟩ := h
        exact ⟨head, rfl, hc, (recoverCount_some hc).1, fun _ => ⟨by omega, rfl⟩,
          fun hn => absurd (hs.symm.trans hn) (by simp)⟩
      · next hs =>
        simp only [Option.some.injEq, Prod.mk.injEq] at h
        obtain ⟨rfl, rfl, rfl⟩ := h
        exact ⟨head, rfl, hc, (recoverCount_some hc).1, fun hp => absurd hp hs, fun _ => rfl⟩

/-! ## §7. Two moments of one section. -/

/-- Two moments a section can be decoded at: the Required Insert Count has arrived at both, and
    none of its entries was evicted. -/
structure Moments (d d' : Decoder) (section_ : Bytes) : Prop where
  sound : d.Sound
  later : Later d d'
  arrived : ∀ h lines required, readHead section_ = some (h, lines) →
    d'.recoverCount h.encoded = some required → required ≤ d.insertCount
  /-- The last entry it counts can still be in a table of this capacity. -/
  window : ∀ h lines required, readHead section_ = some (h, lines) →
    d'.recoverCount h.encoded = some required → 0 < required →
      d'.insertCount < required + d'.maxCapacity / 32
  kept : ∀ required base lines, d'.readPrefix section_ = some (required, base, lines) →
    ∀ line ∈ sectionLines section_, ∀ abs, line.2.abs base = some abs → abs < required →
      (d'.entry abs).isSome

/-- The moment makes no difference, and what is not below the Required Insert Count is malformed
    as soon as there is room for the lines before it. -/
def Timeless (section_ : Bytes) : Prop :=
  ∀ d d', Moments d d' section_ →
    (∀ maxListSize sink, d'.decode section_ maxListSize sink = d.decode section_ maxListSize sink) ∧
    ∀ required base lines, d'.readPrefix section_ = some (required, base, lines) →
      (∃ line ∈ sectionLines section_, Beyond required base line) →
      ∃ size, ∀ maxListSize, size ≤ maxListSize →
        (d.decode section_ maxListSize takeAll).result = .malformed ∧
        (d'.decode section_ maxListSize takeAll).result = .malformed

theorem Moments.recoverCount_eq (hm : Moments d d' section_) (hh : readHead section_ = some (h, lines)) :
    d'.recoverCount h.encoded = d.recoverCount h.encoded := by
  have hg := hm.later.grows hm.sound
  cases hr : d'.recoverCount h.encoded with
  | none => exact (recoverCount_none hg.capacity hg.count hr).symm
  | some required =>
    have harr := hm.arrived h lines required hh hr
    obtain ⟨hzero, -, hwrap⟩ := recoverCount_some hr
    by_cases h0 : required = 0
    · rw [hzero.mpr h0, h0]
      rfl
    have hpos := Nat.pos_of_ne_zero h0
    have hwin := hm.window h lines required hh hr hpos
    have hcount := hg.count
    rw [hg.capacity] at hwin hwrap
    rw [hwrap hpos]
    exact (recoverCount_spec hpos (by omega) (by omega)).symm

theorem Moments.readPrefix_eq_earlier (hm : Moments d d' section_) :
    d'.readPrefix section_ = d.readPrefix section_ := by
  rw [readPrefix_eq, readPrefix_eq]
  cases hh : readHead section_ with
  | none => rfl
  | some r =>
    obtain ⟨h, lines⟩ := r
    dsimp only
    rw [hm.recoverCount_eq hh]

/-- A section whose count has arrived. -/
theorem decode_arrived
    (hp : d.readPrefix section_ = some (required, base, lines)) (hle : required ≤ d.insertCount)
    (limit : Nat) (sink : List Reported → Bool) : d.decode section_ limit sink =
      { result := (d.decodeLoop required base limit sink lines.length 0 [] lines).1
        fields := (d.decodeLoop required base limit sink lines.length 0 [] lines).2
        required := required } := by
  unfold decode
  rw [hp]
  dsimp only
  rw [if_neg (by omega)]

theorem sectionLines_eq (hh : readHead section_ = some (h, lines)) :
    sectionLines section_ = reached h lines.length lines := by
  unfold sectionLines
  rw [hh]

/-- What is left of the table at the later moment is what the section was written for. -/
theorem Moments.holds (hm : Moments d d' section_)
    (hp : d'.readPrefix section_ = some (required, base, lines)) (hle : required ≤ d.insertCount) :
    Holds d required base (sectionLines section_) d'.entry := by
  intro line hl abs ha hlt
  obtain ⟨f, hf⟩ := Option.isSome_iff_exists.mp (hm.kept required base lines hp line hl abs ha hlt)
  rw [hf]
  exact (hm.later.grows hm.sound).entry abs f (by omega) hf

/-- **The condition is enough.** -/
theorem timeless_of_relativeBelow (hb : RelativeBelow section_) : Timeless section_ := by
  intro d d' hm
  have hsame := hm.readPrefix_eq_earlier
  cases hp : d'.readPrefix section_ with
  | none =>
    refine ⟨fun limit sink => ?_, fun _ _ _ h => absurd h (by simp)⟩
    unfold decode
    rw [hp, ← hsame, hp]
  | some r =>
    obtain ⟨required, base, lines⟩ := r
    obtain ⟨h, hh, hc, hmeans⟩ := readPrefix_means hp
    have harr := hm.arrived h lines required hh hc
    have harr' := Nat.le_trans harr (hm.later.grows hm.sound).count
    have hp₀ := hsame.symm.trans hp
    have hholds := hm.holds hp harr
    rw [sectionLines_eq hh] at hholds
    -- relative references stay below the count
    have hbelow : ∀ bs i abs, (bs, Ref.relative i) ∈ reached h lines.length lines →
        (Ref.relative i).abs base = some abs → abs < required := by
      intro bs i abs hl ha
      unfold Ref.abs at ha
      dsimp only at ha
      split at ha
      · cases ha
        cases hs : h.sign with
        | true =>
          have := hmeans.behind hs
          omega
        | false =>
          have := hmeans.ahead hs
          have := hb h lines hh hs bs i hl
          omega
      · simp at ha
    constructor
    · intro limit sink
      rw [decode_arrived hp harr', decode_arrived hp₀ harr]
      have hloop := decodeLoop_timeless hmeans limit sink lines.length 0 [] lines hbelow
        (fun line hl abs ha hlt => (hholds line hl abs ha hlt).symm)
      rw [hloop]
    · rintro _ _ _ heq ⟨line, hl, abs, ha, hge⟩
      obtain ⟨rfl, rfl, rfl⟩ := by simpa only [Option.some.injEq, Prod.mk.injEq] using heq
      rw [sectionLines_eq hh] at hl
      obtain ⟨line', size, fuel, fields, hin, hend, href, hwalk⟩ :=
        decodeLoop_walk hmeans lines.length lines hl
          (fun l hin abs ha hlt => hm.kept _ _ _ hp l (by rw [sectionLines_eq hh]; exact hin) abs ha hlt)
      have hstop : (∃ i, line'.2 = .postBase i ∧ required ≤ base + i) ∨
          ∃ i, line'.2 = .relative i ∧ base ≤ i := by
        rcases hend with rfl | hend
        · left
          obtain ⟨bs, ref⟩ := line'
          cases ref with
          | own => simp [Ref.abs] at ha
          | relative i => exact absurd (hbelow bs i abs hin ha) (by omega)
          | postBase i =>
            cases ha
            exact ⟨i, rfl, hge⟩
        · exact .inr hend.2
      refine ⟨size, fun limit hroom => ?_⟩
      have hboth : ∀ d₁ : Decoder, Holds d₁ required base (reached h lines.length lines) d'.entry →
          (d₁.decodeLoop required base limit takeAll lines.length 0 [] lines).1 =
            .malformed := by
        intro d₁ hd₁
        rw [hwalk d₁ hd₁ 0 [] limit (by omega),
          decodeLoop_malformed href (readLine_beyond href hstop d₁ _ _)]
      rw [decode_arrived hp harr', decode_arrived hp₀ harr]
      exact ⟨hboth d hholds, hboth d' fun _ _ _ _ _ => rfl⟩

/-! ## §8. The condition is needed. -/

/-- A table of `M` entries after `n` insertions of an empty field. -/
def filled (M n : Nat) : Decoder :=
  { table :=
      { ring := List.replicate (M + 1) ([], []), count := min n M, size := 32 * min n M
        capacity := 32 * M, limit := 32 * M }
    maxCapacity := 32 * M
    insertCount := n }

/-- A decoder that holds as many empty fields as it has room for. -/
structure Full (M n : Nat) (d : Decoder) : Prop where
  sound : d.Sound
  maxCapacity : d.maxCapacity = 32 * M
  limit : d.table.limit = 32 * M
  insertCount : d.insertCount = n
  entries : d.table.entries = List.replicate (min n M) ([], [])

theorem weight_replicate (k : Nat) : weight fieldSize (List.replicate k ([], [])) = 32 * k := by
  induction k with
  | zero => rfl
  | succ k ih =>
    rw [List.replicate_succ, weight_cons, ih]
    show 32 + 32 * k = _
    omega

theorem filled_full (M n : Nat) : Full M n (filled M n) := by
  have hent : (filled M n).table.entries = List.replicate (min n M) ([], []) := by
    unfold DynamicTable.entries
    apply List.ext_getElem?
    intro k
    by_cases hk : k < min n M
    · have hcount : (filled M n).table.count = min n M := rfl
      rw [List.getElem?_map, hcount, List.getElem?_range hk, List.getElem?_replicate, if_pos hk]
      show some ((List.replicate (M + 1) (([], []) : Field)).getD _ ([], [])) = _
      rw [List.getD_eq_getElem?_getD, List.getElem?_replicate]
      split <;> rfl
    · rw [List.getElem?_eq_none (by rw [List.length_map, List.length_range]; exact Nat.not_lt.mp hk),
        List.getElem?_replicate, if_neg hk]
  refine ⟨⟨⟨?_, ?_, le_rfl, ?_⟩, rfl, Nat.min_le_left ..⟩, rfl, rfl, rfl, hent⟩
  · rw [hent, weight_replicate]
    rfl
  · show 32 * min n M ≤ 32 * M
    omega
  · right
    show (List.replicate (M + 1) _).length = 32 * M / 32 + 1 ∧ 0 < (List.replicate (M + 1) _).length
    rw [List.length_replicate]
    omega

/-- An empty field more. -/
theorem Full.insert (h : Full M n d) (hM : 0 < M) : ∃ d', Step d d' ∧ Full M (n + 1) d' := by
  obtain ⟨hv, he, hl, hcap, htaken⟩ := DynamicTable.add_spec h.sound.table [] []
  rw [h.limit] at he hl htaken
  have hfits : fieldSize (([], []) : Field) ≤ 32 * M := by
    show 32 ≤ 32 * M
    omega
  rw [decide_eq_true hfits] at htaken
  -- an insertion with a literal name, both strings empty
  have hdone : d.nextInstruction [0x40, 0x00] =
      .done { d with table := (d.table.add [] []).2, insertCount := d.insertCount + 1 } [] := by
    have hread : d.nextInstruction [0x40, 0x00] = d.insert [] [] [] := rfl
    rw [hread]
    unfold Decoder.insert
    rw [h.limit, if_neg (by show ¬ 32 > 32 * M; omega)]
    generalize d.table.add [] [] = added at htaken
    obtain ⟨taken, table⟩ := added
    obtain rfl : taken = true := htaken
    rfl
  have hgrow := Grows.of_instruction h.sound hdone
  refine ⟨_, .instruction hdone, hgrow.sound, h.maxCapacity, hl, by rw [← h.insertCount], ?_⟩
  rw [he, h.entries, ← List.replicate_succ]
  by_cases hlt : n < M
  · rw [fit_eq_self fieldSize (by rw [weight_replicate]; omega)]
    congr 1
    omega
  · rw [← fit_dropLast fieldSize (by rw [weight_replicate]; omega), List.dropLast_replicate,
      fit_eq_self fieldSize (by rw [weight_replicate]; omega)]
    congr 1
    omega

theorem Full.later (h : Full M n d) (hM : 0 < M) (k : Nat) : ∃ d', Later d d' ∧ Full M (n + k) d' := by
  induction k with
  | zero => exact ⟨d, .refl, h⟩
  | succ k ih =>
    obtain ⟨d₁, hl, h₁⟩ := ih
    obtain ⟨d₂, hs, h₂⟩ := h₁.insert hM
    exact ⟨d₂, hl.tail hs, h₂⟩

theorem Full.entry_eq_some (h : Full M n d) (hlt : abs < n) (hM : n ≤ abs + M) :
    d.entry abs = some ([], []) := by
  rw [entry_eq h.sound, h.insertCount, if_neg (by omega), h.entries, List.getElem?_replicate,
    if_pos (by omega)]

theorem readInteger_le {prefixBits index : Nat} (hp : prefixBits ≤ 8)
    (h : readInteger prefixBits bs = some (index, rest)) : index ≤ 0xffffffff := by
  cases bs with
  | nil => simp [readInteger] at h
  | cons b bs =>
    unfold readInteger at h
    dsimp only at h
    split at h
    · next hlt =>
      cases h
      have : prefixMax prefixBits ≤ 2 ^ 8 := Nat.le_trans (Nat.sub_le ..) (Nat.pow_le_pow_right (by decide) hp)
      omega
    · split at h
      · simp at h
      split at h
      · simp at h
      cases h
      omega

theorem lineRef_relative_le {i : Nat} (h : lineRef bs = some (.relative i)) : i ≤ 0xffffffff := by
  cases bs with
  | nil => simp [lineRef] at h
  | cons b bs =>
    unfold lineRef at h
    dsimp only at h
    split at h
    · split at h
      · simp at h
      next hr =>
      split at h
      · split at h <;> simp at h
      obtain rfl := Ref.relative.inj (Option.some.inj h)
      exact readInteger_le (by decide) hr
    · split at h
      · split at h
        · simp at h
        next hr =>
        split at h
        · split at h <;> simp at h
        split at h
        · obtain rfl := Ref.relative.inj (Option.some.inj h)
          exact readInteger_le (by decide) hr
        · simp at h
      · split at h
        · simp at h
        split at h <;>
        · obtain ⟨r, -, hr⟩ := Option.map_eq_some_iff.mp h
          simp at hr

theorem readHead_le (hh : readHead section_ = some (h, lines)) :
    h.encoded ≤ 0xffffffff ∧ h.delta ≤ 0xffffffff := by
  unfold readHead at hh
  split at hh
  · simp at hh
  · simp at hh
  next h₁ =>
  obtain ⟨r, hr, heq⟩ := Option.map_eq_some_iff.mp hh
  obtain ⟨rfl, -⟩ := Prod.mk.inj heq
  exact ⟨readInteger_le (by decide) h₁, readInteger_le (by decide) hr⟩

theorem mem_reached_lineRef (hl : line ∈ reached h fuel bs) : lineRef line.1 = some line.2 := by
  induction fuel generalizing bs with
  | zero => cases hl
  | succ fuel ih =>
    obtain ⟨ref, href, rfl | ⟨-, rest, -, hl'⟩⟩ := reached_cases hl
    · exact href
    · exact ih hl'

/-- The loop only adds to what was reported. -/
theorem length_le_decodeLoop (d : Decoder) (required base limit : Nat)
    (sink : List Reported → Bool) (fuel total : Nat) (out : List Reported) (bs : Bytes) :
    out.length ≤ (d.decodeLoop required base limit sink fuel total out bs).2.length := by
  induction fuel generalizing total out bs with
  | zero => exact le_rfl
  | succ fuel ih =>
    unfold decodeLoop
    split
    · exact le_rfl
    split
    · exact le_rfl
    dsimp only
    split
    · exact le_rfl
    split
    · simp
    refine Nat.le_trans ?_ (ih ..)
    simp

/-- A relative reference to an entry that is not there. -/
theorem readLine_missing {i : Nat} (href : lineRef bs = some (.relative i))
    (hentry : d.entry (base - 1 - i) = none) (required total limit : Nat) :
    d.readLine required base total limit bs = .error .malformed := by
  cases shape bs with
  | malformed href' _ => cases href.symm.trans href'
  | own href' => cases href.symm.trans href'
  | entry ref' named rest href' _ _ _ hread =>
    cases href.symm.trans href'
    rw [hread]
    unfold Ref.entry
    dsimp only
    split
    · rfl
    next he =>
    split at he
    · simp at he
    cases he
    exact entryLine_missing hentry named

/-- **The difference**: a line whose entry has arrived is not malformed for it. -/
theorem decodeLoop_ne_malformed {i : Nat} (href : lineRef bs = some (.relative i)) (hi : i < base)
    (hentry : d.entry (base - 1 - i) = some ([], [])) (fuel total : Nat) (out : List Reported) :
    d.decodeLoop required base (total + 32) takeAll (fuel + 1) total out bs ≠ (.malformed, out) := by
  intro heq
  -- a field that is reported leaves a longer list
  have hok : ∀ f o rest, d.readLine required base total (total + 32) bs ≠ .ok (f, o, rest) := by
    intro f o rest hread
    by_cases hfit : total + fieldSize f ≤ total + 32
    · have hlen := length_le_decodeLoop d required base (total + 32) takeAll fuel
        (total + fieldSize f) (out ++ [(f, o)]) rest
      rw [decodeLoop_line href hread hfit] at heq
      rw [heq, List.length_append] at hlen
      simp at hlen
    · unfold decodeLoop at heq
      rw [if_neg (length_ne_zero_of_lineRef href), hread] at heq
      dsimp only at heq
      rw [if_pos (show total + (f.1.length + f.2.length + 32) > total + 32 by
        unfold fieldSize at hfit; omega)] at heq
      simp at heq
  cases shape bs with
  | malformed href' _ => cases href.symm.trans href'
  | own href' => cases href.symm.trans href'
  | entry ref' named rest href' _ _ hvalue hread =>
    cases href.symm.trans href'
    have he : (Ref.relative i).entry required base = some (base - 1 - i) := if_neg (by omega)
    have hfit : total + fieldSize (([] : Bytes), ([] : Bytes)) ≤ total + 32 := le_rfl
    cases named with
    | false =>
      refine hok ([], []) { checked := some (base - 1 - i) } rest ?_
      rw [hread, he]
      exact dynamicLine_entry hentry hfit rest
    | true =>
      have hline : d.readLine required base total (total + 32) bs =
          valueLine [] total (total + 32) rest := by
        rw [hread, he]
        exact dynamicNameLine_entry hentry hfit rest
      have hbudget : budget total (total + 32) ([] : Bytes).length = 0 := if_pos le_rfl
      unfold valueLine at hline
      rw [hbudget] at hline
      rcases prefixedString_readable (hvalue i rfl rfl) with ⟨v, hv⟩ | hlarge
      · rw [hv] at hline
        exact hok _ _ _ hline
      rw [hlarge] at hline
      unfold decodeLoop at heq
      rw [if_neg (length_ne_zero_of_lineRef href), hline] at heq
      simp [ofStr] at heq

/-- A count that comes out of a wrapped number in a table of `M` entries. -/
structure Wraps (M encoded required : Nat) : Prop where
  zero : encoded = 0 ↔ required = 0
  wrapped : 0 < required → encoded = required % (2 * M) + 1

theorem Full.recoverCount_eq (h : Full M n d) (hw : Wraps M encoded required)
    (hle : required ≤ n) (hwin : n < required + M) : d.recoverCount encoded = some required := by
  have hcap : d.maxCapacity / 32 = M := by
    rw [h.maxCapacity]
    omega
  by_cases h0 : required = 0
  · rw [hw.zero.mpr h0, h0]
    rfl
  have hpos := Nat.pos_of_ne_zero h0
  have hcount := h.insertCount
  rw [hw.wrapped hpos, ← hcap]
  exact recoverCount_spec hpos (by omega) (by omega)

/-- The entries below the count that a section names are near it. -/
theorem abs_near (hin : line ∈ reached h fuel bs) (ha : line.2.abs (required + h.delta) = some abs)
    (hlt : abs < required) : required ≤ abs + 2 ^ 33 := by
  have href := mem_reached_lineRef hin
  obtain ⟨bs', ref⟩ := line
  cases ref with
  | own => simp [Ref.abs] at ha
  | relative j =>
    have hj := lineRef_relative_le href
    unfold Ref.abs at ha
    dsimp only at ha
    split at ha
    · cases ha
      omega
    · simp at ha
  | postBase j =>
    cases ha
    omega

theorem Full.holds (hf : Full (2 ^ 34) n d) (hle : required ≤ n) (hwin : n < required + 2 ^ 33) :
    Holds d required (required + h.delta) (reached h fuel bs) fun _ => some ([], []) := by
  intro line hin abs ha hlt
  have := abs_near hin ha hlt
  exact hf.entry_eq_some (by omega) (by omega)

/-- Two full tables are two moments of a section. -/
theorem Full.moments (hd : Full (2 ^ 34) required d)
    (hd' : Full (2 ^ 34) n d') (hl : Later d d') (hh : readHead section_ = some (h, lines))
    (hs : h.sign = false) (hw : Wraps (2 ^ 34) h.encoded required) (hle : required ≤ n)
    (hwin : n < required + 2 ^ 33) : Moments d d' section_ := by
  have hrec := hd'.recoverCount_eq hw hle (by omega)
  have hone : ∀ h' lines' required', readHead section_ = some (h', lines') →
      d'.recoverCount h'.encoded = some required' → required' = required := by
    intro h' lines' required' hh' hr
    obtain ⟨rfl, -⟩ := Prod.mk.inj (Option.some.inj (hh.symm.trans hh'))
    exact Option.some.inj (hr.symm.trans hrec)
  refine ⟨hd.sound, hl, ?_, ?_, ?_⟩
  · intro h' lines' required' hh' hr
    rw [hone h' lines' required' hh' hr, hd.insertCount]
  · intro h' lines' required' hh' hr hpos
    rw [hone h' lines' required' hh' hr, hd'.insertCount, hd'.maxCapacity]
    omega
  · intro required' base' lines' hp line hin abs ha hlt
    obtain ⟨h', hh', hr, hmeans⟩ := readPrefix_means hp
    cases Option.some.inj (hh.symm.trans hh')
    obtain rfl := hone h lines required' hh hr
    obtain rfl := hmeans.ahead hs
    rw [sectionLines_eq hh] at hin
    rw [hd'.holds hle hwin line hin abs ha hlt]
    rfl

theorem Full.readPrefix_eq (hd : Full (2 ^ 34) n d)
    (hh : readHead section_ = some (h, lines)) (hs : h.sign = false)
    (hw : Wraps (2 ^ 34) h.encoded required) (hle : required ≤ n) (hwin : n < required + 2 ^ 33) :
    d.readPrefix section_ = some (required, required + h.delta, lines) := by
  rw [Decoder.readPrefix_eq, hh]
  dsimp only
  rw [hd.recoverCount_eq hw hle (by omega), hs]
  rfl

/-- **The condition is needed**: a relative reference at or above the count finds its entry at one
    moment and not at another. -/
theorem relativeBelow_of_timeless (ht : Timeless section_) : RelativeBelow section_ := by
  intro h lines hh hs bs i hl
  by_contra hlt
  obtain ⟨hencoded, hdelta⟩ := readHead_le hh
  obtain ⟨required, hw, hlarge⟩ : ∃ required, Wraps (2 ^ 34) h.encoded required ∧
      (0 < required → 2 * 2 ^ 34 ≤ required) := by
    by_cases h0 : h.encoded = 0
    · exact ⟨0, ⟨by simp [h0], by simp⟩, by simp⟩
    refine ⟨h.encoded - 1 + 2 * 2 ^ 34, ⟨by omega, fun _ => ?_⟩, by omega⟩
    rw [Nat.add_mod_right, Nat.mod_eq_of_lt (by omega)]
    omega
  have hmeans : Means h required (required + h.delta) :=
    ⟨hw.zero, fun hp => absurd (hs.symm.trans hp) (by simp), fun _ => rfl⟩
  -- a table of 2^34 entries, filled to the count, and the insertions up to the entry
  have hd := filled_full (2 ^ 34) required
  generalize filled (2 ^ 34) required = d at hd
  obtain ⟨d', hlater, hd'⟩ := hd.later (by decide) (h.delta - i)
  have hmoments := hd.moments hd' hlater hh hs hw (by omega) (by omega)
  -- the two decoders get to the line, and part there
  obtain ⟨line', size, fuel, fields, hin, hend, href, hwalk⟩ :=
    @decodeLoop_walk _ _ h hmeans (fun _ => some ([], [])) lines.length lines _ hl
      (fun _ _ _ _ _ => rfl)
  obtain rfl : line' = (bs, .relative i) := by
    rcases hend with rfl | ⟨hpass, j, hj, hge⟩
    · rfl
    exfalso
    have hle := lineRef_relative_le (hj ▸ href)
    rw [hj] at hpass
    by_cases h0 : h.encoded = 0
    · simp [Head.passes, h0] at hpass
    have := hlarge (Nat.pos_of_ne_zero fun hz => h0 (hw.zero.mpr hz))
    omega
  have hloop := (ht d d' hmoments).1 (size + 32) takeAll
  rw [decode_arrived (hd'.readPrefix_eq hh hs hw (by omega) (by omega))
      (by rw [hd'.insertCount]; omega),
    decode_arrived (hd.readPrefix_eq hh hs hw (by omega) (by omega)) (by rw [hd.insertCount]),
    hwalk d' (hd'.holds (by omega) (by omega)) 0 [] _ (by omega),
    hwalk d (hd.holds (by omega) (by omega)) 0 [] _ (by omega), Decoded.mk.injEq] at hloop
  have hmissing : d.entry (required + h.delta - 1 - i) = none := by
    rw [entry_eq hd.sound, hd.insertCount, if_pos (by omega)]
  have hfirst := decodeLoop_malformed href
    (readLine_missing href hmissing required (0 + size) (size + 32)) takeAll fuel ([] ++ fields)
  rw [hfirst] at hloop
  have hsecond := @decodeLoop_ne_malformed d' required (required + h.delta) bs i href (by omega)
    (hd'.entry_eq_some (by omega) (by omega)) fuel (0 + size) ([] ++ fields)
  rw [Nat.zero_add] at hloop hsecond
  exact hsecond (Prod.ext hloop.1 hloop.2.1)

/-- **The moment makes no difference for exactly the sections whose relative references stay below
    the Required Insert Count.** -/
theorem decode_timeless_iff (section_ : Bytes) : Timeless section_ ↔ RelativeBelow section_ :=
  ⟨relativeBelow_of_timeless, timeless_of_relativeBelow⟩

/-- A decoder after one instruction. -/
def after (d : Decoder) (in_ : Bytes) : Decoder :=
  match d.nextInstruction in_ with
  | .done d' _ => d'
  | _ => d

/-- One entry has arrived, of the two that are referred to. -/
def one : Decoder := ((new 128).after [0x3f, 0x61]).after [0x41, 0x61, 0x01, 0x62]

def two : Decoder := one.after [0x41, 0x63, 0x01, 0x64]

/-- Required Insert Count 1, Base 2, and the entry before the Base. -/
def ahead : Bytes := [0x02, 0x01, 0x80]

theorem one_sound : one.Sound := by
  have hlater : Later (new 128) one :=
    .tail (.tail .refl (@Step.instruction _ [0x3f, 0x61] [] _ rfl))
      (@Step.instruction _ [0x41, 0x61, 0x01, 0x62] [] _ rfl)
  exact (hlater.grows (new_sound 128)).sound

/-- The same bytes are malformed at one moment and a field at the next. -/
theorem decode_ahead_differs : Moments one two ahead ∧ (one.decode ahead 4096 takeAll).result = .malformed ∧
      (two.decode ahead 4096 takeAll).result = .ok := by
  have hhead : readHead ahead = some (⟨2, false, 1⟩, [0x80]) := rfl
  have hcount : two.recoverCount 2 = some 1 := by decide
  have hpre : two.readPrefix ahead = some (1, 2, [0x80]) := rfl
  have hlines : sectionLines ahead = [([0x80], .relative 0)] := by decide
  refine ⟨⟨one_sound, .tail .refl (@Step.instruction _ [0x41, 0x63, 0x01, 0x64] [] _ rfl),
    ?_, ?_, ?_⟩, by decide, by decide⟩
  · intro h lines required hh hr
    obtain ⟨rfl, -⟩ := Prod.mk.inj (Option.some.inj (hhead.symm.trans hh))
    cases hcount.symm.trans hr
    decide
  · intro h lines required hh hr _
    obtain ⟨rfl, -⟩ := Prod.mk.inj (Option.some.inj (hhead.symm.trans hh))
    cases hcount.symm.trans hr
    decide
  · intro required base lines hp line hl abs ha hlt
    obtain ⟨rfl, hrest⟩ := Prod.mk.inj (Option.some.inj (hpre.symm.trans hp))
    obtain ⟨rfl, -⟩ := Prod.mk.inj hrest
    rw [hlines] at hl
    obtain rfl := List.mem_singleton.mp hl
    -- the only reference is to the entry at the count
    obtain rfl : 1 = abs := Option.some.inj ha
    exact absurd hlt (by decide)

end Decoder

end Agensio.Qpack
