/-
  Agensio.Qpack.Decoder — the decoder with its dynamic table.

  Model of `qpack::Decoder` (`http3/qpack.cpp`): the encoder stream's
  instructions (4.3), field sections (4.5) and the decoder stream's
  instructions (4.4).  The arena is not modelled: a string is returned
  instead of a view of it.  A sink is a function of the fields it was
  given so far, the new one last.
-/
import Agensio.Lib.Framing
import Agensio.Qpack.Lines

namespace Agensio.Qpack

open Agensio.Lib Agensio.Codec

/-! ## §1. The model. -/

inductive Result where
  | ok
  | malformed
  | tooLarge
  | blocked
  deriving DecidableEq

/-- Where a field came from; `checked` is the entry whose mark the sink may set. -/
structure Origin where
  staticTable : Bool := false
  checked : Option Nat := none
  deriving DecidableEq

structure Decoder where
  table : DynamicTable
  maxCapacity : Nat
  insertCount : Nat := 0
  known : Nat := 0
  deriving DecidableEq

namespace Decoder

/-- The constructor: the peer has to set a capacity first. -/
def new (maxCapacity : Nat) : Decoder :=
  { table := (DynamicTable.new maxCapacity).setLimit 0, maxCapacity := maxCapacity }

/-- `entry`: by absolute index, if the table still holds it. -/
def entry (d : Decoder) (abs : Nat) : Option Field :=
  if abs ≥ d.insertCount then none
  else
    let k := d.insertCount - 1 - abs
    if k ≥ d.table.count then none else d.table.at k

/-- The end of an insertion instruction. -/
def insert (d : Decoder) (name value rest : Bytes) : Outcome Decoder UInt8 :=
  if name.length + value.length + 32 > d.table.limit then .failed
  else
    match d.table.add name value with
    | (false, _) => .failed
    | (true, table) => .done { d with table := table, insertCount := d.insertCount + 1 } rest

/-- The value of an insertion instruction, behind its name. -/
def insertValue (d : Decoder) (name rest : Bytes) : Outcome Decoder UInt8 :=
  match prefixedString 7 0x80 d.maxCapacity rest with
  | .error .incomplete => .incomplete
  | .error _ => .failed
  | .ok (value, rest') => d.insert name value rest'

/-- One round of `encoder_stream`. -/
def nextInstruction (d : Decoder) : Bytes → Outcome Decoder UInt8
  | [] => .incomplete
  | b :: bs =>
    if b &&& 0x80 ≠ 0 then
      -- 4.3.2 insert with name reference
      match readInteger 6 (b :: bs) with
      | none => .incomplete
      | some (index, rest) =>
        if b &&& 0x40 ≠ 0 then
          match kStaticTable[index]? with
          | none => .failed
          | some f => d.insertValue f.1 rest
        else if index ≥ d.insertCount then .failed
        else
          match d.entry (d.insertCount - 1 - index) with
          | none => .failed
          | some f => d.insertValue f.1 rest
    else if b &&& 0x40 ≠ 0 then
      -- 4.3.3 insert with literal name
      match prefixedString 5 0x20 d.maxCapacity (b :: bs) with
      | .error .incomplete => .incomplete
      | .error _ => .failed
      | .ok (name, rest) => d.insertValue name rest
    else if b &&& 0x20 ≠ 0 then
      -- 4.3.1 set dynamic table capacity
      match readInteger 5 (b :: bs) with
      | none => .incomplete
      | some (cap, rest) =>
        if cap > d.maxCapacity then .failed
        else .done { d with table := d.table.setLimit cap } rest
    else
      -- 4.3.4 duplicate
      match readInteger 5 (b :: bs) with
      | none => .incomplete
      | some (index, rest) =>
        if index ≥ d.insertCount then .failed
        else
          match d.entry (d.insertCount - 1 - index) with
          | none => .failed
          | some f => d.insert f.1 f.2 rest

/-- `encoder_stream`: the decoder and the bytes not consumed. -/
def encoderStream (d : Decoder) (in_ : Bytes) : Option (Decoder × Bytes) :=
  frames nextInstruction in_.length d in_

/-- `section_acknowledged`. -/
def sectionAcknowledged (d : Decoder) (streamId required : Nat) : Bytes × Decoder :=
  (appendInteger streamId 7 0x80,
    { d with known := if required > d.known then required else d.known })

/-- `insert_count_increment`. -/
def insertCountIncrement (d : Decoder) : Bytes × Decoder :=
  if d.insertCount ≤ d.known then ([], d)
  else (appendInteger (d.insertCount - d.known) 6 0, { d with known := d.insertCount })

/-! Field sections. -/

/-- The decoded bytes a field may still take. -/
def budget (total maxListSize used : Nat) : Nat :=
  let spent := total + 32 + used
  if spent ≥ maxListSize then 0 else maxListSize - spent

def ofStr : StrStatus → Result
  | .malformed => .malformed
  | .incomplete => .malformed
  | .tooLarge => .tooLarge

/-- The lambda `dynamic` of `decode`. -/
def dynamic (d : Decoder) (abs total maxListSize : Nat) (valueToo : Bool) : Option Field :=
  match d.entry abs with
  | none => none
  | some f =>
    if f.1.length + (if valueToo then f.2.length else 0) > budget total maxListSize 0 then none
    else some f

/-- The value of a field line, behind its name. -/
def valueLine (name : Bytes) (total maxListSize : Nat) (rest : Bytes) :
    Except Result (Field × Origin × Bytes) :=
  match prefixedString 7 0x80 (budget total maxListSize name.length) rest with
  | .error e => .error (ofStr e)
  | .ok (value, rest') => .ok ((name, value), {}, rest')

/-- An indexed line with a dynamic entry. -/
def dynamicLine (d : Decoder) (abs total maxListSize : Nat) (rest : Bytes) :
    Except Result (Field × Origin × Bytes) :=
  match d.dynamic abs total maxListSize true with
  | none => .error .malformed
  | some f => .ok (f, { checked := some abs }, rest)

/-- A literal line with the name of a dynamic entry. -/
def dynamicNameLine (d : Decoder) (abs total maxListSize : Nat) (rest : Bytes) :
    Except Result (Field × Origin × Bytes) :=
  match d.dynamic abs total maxListSize false with
  | none => .error .malformed
  | some f => valueLine f.1 total maxListSize rest

/-- One field line (4.5). -/
def readLine (d : Decoder) (required base total maxListSize : Nat) :
    Bytes → Except Result (Field × Origin × Bytes)
  | [] => .error .malformed
  | b :: bs =>
    if b &&& 0x80 ≠ 0 then
      -- 4.5.2 indexed field line
      match readInteger 6 (b :: bs) with
      | none => .error .malformed
      | some (index, rest) =>
        if b &&& 0x40 ≠ 0 then
          match kStaticTable[index]? with
          | none => .error .malformed
          | some f => .ok (f, { staticTable := true }, rest)
        else if index ≥ base then .error .malformed
        else d.dynamicLine (base - 1 - index) total maxListSize rest
    else if b &&& 0x40 ≠ 0 then
      -- 4.5.4 literal field line with name reference
      match readInteger 4 (b :: bs) with
      | none => .error .malformed
      | some (index, rest) =>
        if b &&& 0x10 ≠ 0 then
          match kStaticTable[index]? with
          | none => .error .malformed
          | some f =>
            if f.1.length > budget total maxListSize 0 then .error .tooLarge
            else valueLine f.1 total maxListSize rest
        else if index ≥ base then .error .malformed
        else d.dynamicNameLine (base - 1 - index) total maxListSize rest
    else if b &&& 0x20 ≠ 0 then
      -- 4.5.6 literal field line with literal name
      match prefixedString 3 0x08 (budget total maxListSize 0) (b :: bs) with
      | .error e => .error (ofStr e)
      | .ok (name, rest) => valueLine name total maxListSize rest
    else if b &&& 0x10 ≠ 0 then
      -- 4.5.3 indexed field line with post-base index
      match readInteger 4 (b :: bs) with
      | none => .error .malformed
      | some (index, rest) =>
        if base + index ≥ required then .error .malformed
        else d.dynamicLine (base + index) total maxListSize rest
    else
      -- 4.5.5 literal field line with post-base name reference
      match readInteger 3 (b :: bs) with
      | none => .error .malformed
      | some (index, rest) =>
        if base + index ≥ required then .error .malformed
        else d.dynamicNameLine (base + index) total maxListSize rest

abbrev Reported := Field × Origin

/-- The loop of `decode`: the result and the fields given to the sink. -/
def decodeLoop (d : Decoder) (required base maxListSize : Nat) (sink : List Reported → Bool) :
    Nat → Nat → List Reported → Bytes → Result × List Reported
  | 0, _, out, _ => (.ok, out)
  | fuel + 1, total, out, bs =>
    if bs.length = 0 then (.ok, out)
    else
      match d.readLine required base total maxListSize bs with
      | .error e => (e, out)
      | .ok (f, origin, rest) =>
        let total' := total + (f.1.length + f.2.length + 32)
        if total' > maxListSize then (.tooLarge, out)
        else
          let out' := out ++ [(f, origin)]
          if !sink out' then (.ok, out')
          else decodeLoop d required base maxListSize sink fuel total' out' rest

/-- The Required Insert Count from its wrapped form, none when it is malformed. -/
def recoverCount (d : Decoder) (encoded : Nat) : Option Nat :=
  if encoded = 0 then some 0
  else
    let maxEntries := d.maxCapacity / 32
    let fullRange := 2 * maxEntries
    if encoded > fullRange then none
    else
      let maxValue := d.insertCount + maxEntries
      let maxWrapped := maxValue / fullRange * fullRange
      let required := maxWrapped + encoded - 1
      if required > maxValue then
        if required ≤ fullRange then none
        else if required - fullRange = 0 then none
        else some (required - fullRange)
      else if required = 0 then none
      else some required

/-- The prefix of a section (4.5.1): the Required Insert Count, the Base, the lines. -/
def readPrefix (d : Decoder) (section_ : Bytes) : Option (Nat × Nat × Bytes) :=
  match readInteger 8 section_ with
  | none => none
  | some (_, []) => none
  | some (encoded, b :: bs) =>
    match readInteger 7 (b :: bs) with
    | none => none
    | some (delta, rest) =>
      match d.recoverCount encoded with
      | none => none
      | some required =>
        if b &&& 0x80 ≠ 0 then
          if delta ≥ required then none else some (required, required - delta - 1, rest)
        else some (required, required + delta, rest)

structure Decoded where
  result : Result
  fields : List Reported := []
  required : Nat := 0

/-- `decode`. -/
def decode (d : Decoder) (section_ : Bytes) (maxListSize : Nat) (sink : List Reported → Bool) :
    Decoded :=
  match d.readPrefix section_ with
  | none => { result := .malformed }
  | some (required, base, lines) =>
    if required > d.insertCount then { result := .blocked, required := required }
    else
      let r := d.decodeLoop required base maxListSize sink lines.length 0 [] lines
      { result := r.1, fields := r.2, required := required }

end Decoder

/-! ## §2. Readers of field lines. -/

/-- What a reader does with each representation of 4.5; an index of the static table comes with its
    row, a literal name with the whole line. -/
structure LineReader (α : Type) where
  refused : α
  static : Field → Bytes → α
  staticName : Bytes → Bytes → α
  relative : Nat → Bytes → α
  relativeName : Nat → Bytes → α
  literal : Bytes → α
  postBase : Nat → Bytes → α
  postBaseName : Nat → Bytes → α

namespace LineReader

variable {α β : Type}

def read (r : LineReader α) : Bytes → α
  | [] => r.refused
  | b :: bs =>
    if b &&& 0x80 ≠ 0 then
      match readInteger 6 (b :: bs) with
      | none => r.refused
      | some (index, rest) =>
        if b &&& 0x40 ≠ 0 then
          match kStaticTable[index]? with
          | none => r.refused
          | some f => r.static f rest
        else r.relative index rest
    else if b &&& 0x40 ≠ 0 then
      match readInteger 4 (b :: bs) with
      | none => r.refused
      | some (index, rest) =>
        if b &&& 0x10 ≠ 0 then
          match kStaticTable[index]? with
          | none => r.refused
          | some f => r.staticName f.1 rest
        else r.relativeName index rest
    else if b &&& 0x20 ≠ 0 then r.literal (b :: bs)
    else if b &&& 0x10 ≠ 0 then
      match readInteger 4 (b :: bs) with
      | none => r.refused
      | some (index, rest) => r.postBase index rest
    else
      match readInteger 3 (b :: bs) with
      | none => r.refused
      | some (index, rest) => r.postBaseName index rest

/-- Two readers do related things with each representation. -/
structure Rel (R : α → β → Prop) (r : LineReader α) (r' : LineReader β) : Prop where
  refused : R r.refused r'.refused
  static : ∀ f rest, R (r.static f rest) (r'.static f rest)
  staticName : ∀ name rest, R (r.staticName name rest) (r'.staticName name rest)
  relative : ∀ i rest, R (r.relative i rest) (r'.relative i rest)
  relativeName : ∀ i rest, R (r.relativeName i rest) (r'.relativeName i rest)
  literal : ∀ line, R (r.literal line) (r'.literal line)
  postBase : ∀ i rest, R (r.postBase i rest) (r'.postBase i rest)
  postBaseName : ∀ i rest, R (r.postBaseName i rest) (r'.postBaseName i rest)

/-- **What two readers do with a line is related as what they do with each representation is.** -/
theorem Rel.read {R : α → β → Prop} {r : LineReader α} {r' : LineReader β} (h : Rel R r r')
    (bs : Bytes) : R (r.read bs) (r'.read bs) := by
  cases bs with
  | nil => exact h.refused
  | cons b bs =>
    unfold LineReader.read
    dsimp only
    split
    · cases readInteger 6 (b :: bs) with
      | none => exact h.refused
      | some x =>
        dsimp only
        split
        · cases kStaticTable[x.1]? with
          | none => exact h.refused
          | some f => exact h.static f x.2
        · exact h.relative x.1 x.2
    · split
      · cases readInteger 4 (b :: bs) with
        | none => exact h.refused
        | some x =>
          dsimp only
          split
          · cases kStaticTable[x.1]? with
            | none => exact h.refused
            | some f => exact h.staticName f.1 x.2
          · exact h.relativeName x.1 x.2
      · split
        · exact h.literal (b :: bs)
        split
        · cases readInteger 4 (b :: bs) with
          | none => exact h.refused
          | some x => exact h.postBase x.1 x.2
        · cases readInteger 3 (b :: bs) with
          | none => exact h.refused
          | some x => exact h.postBaseName x.1 x.2

end LineReader

namespace Decoder

/-- `readLine`, by representation. -/
def lineReader (d : Decoder) (required base total maxListSize : Nat) :
    LineReader (Except Result (Field × Origin × Bytes)) where
  refused := .error .malformed
  static f rest := .ok (f, { staticTable := true }, rest)
  staticName name rest :=
    if name.length > budget total maxListSize 0 then .error .tooLarge
    else valueLine name total maxListSize rest
  relative i rest :=
    if i ≥ base then .error .malformed else d.dynamicLine (base - 1 - i) total maxListSize rest
  relativeName i rest :=
    if i ≥ base then .error .malformed else d.dynamicNameLine (base - 1 - i) total maxListSize rest
  literal line :=
    match prefixedString 3 0x08 (budget total maxListSize 0) line with
    | .error e => .error (ofStr e)
    | .ok (name, rest) => valueLine name total maxListSize rest
  postBase i rest :=
    if base + i ≥ required then .error .malformed
    else d.dynamicLine (base + i) total maxListSize rest
  postBaseName i rest :=
    if base + i ≥ required then .error .malformed
    else d.dynamicNameLine (base + i) total maxListSize rest

theorem readLine_eq (d : Decoder) (required base total maxListSize : Nat) (bs : Bytes) :
    d.readLine required base total maxListSize bs =
      (d.lineReader required base total maxListSize).read bs := by
  cases bs <;> rfl

end Decoder

/-- All fields are taken by the sink. -/
def takeAll : List Decoder.Reported → Bool := fun _ => true

end Agensio.Qpack
