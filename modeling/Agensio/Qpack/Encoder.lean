/-
  Agensio.Qpack.Encoder — the encoder with the peer's dynamic table.

  Model of `qpack::Encoder` (`http3/qpack.hpp`, `http3/qpack.cpp`).  The
  fields that `insert`, `reference`, `release` and the acknowledgements
  work on are `Table`; `Encoder` adds the remembered entries.  The
  section being built, `*current_` of the source, is handed to the
  operations and returned by them; `begin` and `end` are `beginSection`
  and `endSection`.

  `Section.uses` is a HISTORY VARIABLE: every entry a section references,
  also those for which `refs` has no slot left.  Nothing reads it.

  Main result: `Encoder.field_effect` — what a field operation can do: a
  static row, a literal, an insertion, a reference to the entry
  remembered, or an insertion and a reference to the new entry.
-/
import Agensio.Qpack.Lines

namespace Agensio.Qpack

open Agensio.Codec

/-! ## §1. The table. -/

/-- A section's references while the peer has not acknowledged it; `refs` has four slots. -/
structure Section where
  ric : Nat := 0
  refs : List Nat := []
  pending : Bool := false
  blocking : Bool := false
  uses : List Nat := []
  deriving DecidableEq

/-- An entry the encoder inserted, with the sections that refer to it. -/
structure Entry where
  abs : Nat
  size : Nat
  refs : Nat := 0
  name : Bytes
  value : Bytes
  deriving DecidableEq

/-- The encoder's side of the dynamic table. -/
structure Table where
  instructions : Bytes := []
  entries : List Entry := []
  size : Nat := 0
  capacity : Nat := 0
  peerCapacity : Nat := 0
  peerBlocked : Nat := 0
  capacitySent : Bool := false
  insertCount : Nat := 0
  known : Nat := 0
  blocking : Nat := 0
  base : Nat := 0
  deriving DecidableEq

/-- `Encoder::kMaxCapacity`. -/
def kEncoderMaxCapacity : Nat := 1024

namespace Table

def setPeer (t : Table) (capacity blockedStreams : Nat) : Table :=
  { t with
    peerCapacity := capacity
    peerBlocked := blockedStreams
    capacity := min capacity kEncoderMaxCapacity }

/-- `entries_.front().abs`. -/
def front (t : Table) : Nat :=
  match t.entries with
  | [] => 0
  | e :: _ => e.abs

def held (t : Table) (abs : Nat) : Bool :=
  !t.entries.isEmpty && decide (t.front ≤ abs) && decide (abs < t.insertCount)

def usable (t : Table) (c : Section) (abs : Nat) : Bool :=
  if !t.held abs then false
  else if abs < t.known then true
  else if c.blocking then true
  else decide (t.blocking < t.peerBlocked)

/-- The loop of `insert`: the bytes freed and the entries left, when those in the way may go. -/
def makeRoom (t : Table) (need : Nat) : Nat → List Entry → Option (Nat × List Entry)
  | freed, [] => if t.size - freed + need > t.capacity then none else some (freed, [])
  | freed, e :: es =>
    if t.size - freed + need > t.capacity then
      if e.refs ≠ 0 then none else makeRoom t need (freed + e.size) es
    else some (freed, e :: es)

/-- `insert`, 4.3.2 with a static name reference: the new entry's absolute index. -/
def insert (t : Table) (staticName : Nat) (name value : Bytes) : Option (Nat × Table) :=
  let need := name.length + value.length + 32
  if t.capacity = 0 ∨ need > t.capacity then none
  else
    match t.makeRoom need 0 t.entries with
    | none => none
    | some (freed, left) =>
      let capacityBytes := if t.capacitySent then [] else appendInteger t.capacity 5 0x20
      some (t.insertCount, { t with
        instructions := t.instructions ++
          (capacityBytes ++ (appendInteger staticName 6 0xc0 ++ appendString value))
        capacitySent := true
        entries := left ++
          [{ abs := t.insertCount, size := need, name := name, value := value }]
        size := t.size - freed + need
        insertCount := t.insertCount + 1 })

def beginSection (t : Table) : Table × Section := ({ t with base := t.insertCount }, {})

/-- `entry(abs)` and a change to its `refs`. -/
def modifyRefs (t : Table) (abs : Nat) (f : Nat → Nat) : Table :=
  if t.held abs then
    { t with entries := t.entries.modify (abs - t.front) fun e => { e with refs := f e.refs } }
  else t

/-- What a field operation appends, and the table and section it leaves. -/
structure Written where
  out : Bytes
  table : Table
  sec : Section

/-- `reference`: an indexed field line (4.5.2, 4.5.3) and the section's bookkeeping. -/
def reference (t : Table) (c : Section) (abs : Nat) : Written :=
  let out :=
    if abs < t.base then appendInteger (t.base - 1 - abs) 6 0x80
    else appendInteger (abs - t.base) 4 0x10
  let c := { c with
    ric := if abs + 1 > c.ric then abs + 1 else c.ric
    blocking := if abs ≥ t.known then true else c.blocking
    uses := abs :: c.uses }
  if c.refs.contains abs then ⟨out, t, c⟩
  else if c.refs.length < 4 ∧ t.held abs then
    ⟨out, t.modifyRefs abs (· + 1), { c with refs := c.refs ++ [abs] }⟩
  else ⟨out, t, c⟩

def endSection (t : Table) (c : Section) : Table × Section :=
  if c.ric ≠ 0 then
    ({ t with blocking := if c.blocking then t.blocking + 1 else t.blocking },
      { c with pending := true })
  else (t, c)

def release (t : Table) (c : Section) : Table × Section :=
  if !c.pending then (t, c)
  else
    let t' := c.refs.foldl (fun t abs => t.modifyRefs abs (· - 1)) t
    ({ t' with blocking := if c.blocking then t'.blocking - 1 else t'.blocking },
      { c with pending := false, blocking := false, refs := [] })

def acknowledged (t : Table) (c : Section) : Table × Section :=
  if !c.pending then (t, c)
  else release { t with known := if c.ric > t.known then c.ric else t.known } c

def cancelled (t : Table) (c : Section) : Table × Section := t.release c

def increment (t : Table) (n : Nat) : Option Table :=
  if n = 0 ∨ t.known + n > t.insertCount then none else some { t with known := t.known + n }

end Table

open Table (Written)

/-! ## §2. Remembered fields. -/

structure Memo where
  abs : Nat := 0
  valid : Bool := false
  value : Bytes := []
  deriving DecidableEq

/-- `memo_field`. -/
def memoField (t : Table) (c : Section) (staticName : Nat) (name value : Bytes) (memo : Memo) :
    Written × Memo :=
  let literal := appendLiteralNameRef staticName value
  if t.capacity ≠ 0 then
    if memo.valid ∧ t.held memo.abs ∧ memo.value = value then
      if t.usable c memo.abs then (t.reference c memo.abs, memo) else (⟨literal, t, c⟩, memo)
    else
      match t.insert staticName name value with
      | none => (⟨literal, t, c⟩, { memo with valid := false })
      | some (abs, t') =>
        let memo' : Memo := { abs := abs, value := value, valid := true }
        if t'.usable c abs then (t'.reference c abs, memo') else (⟨literal, t', c⟩, memo')
  else (⟨literal, t, c⟩, memo)

/-- The encoder, with the entries of the fields every answer has. -/
structure Encoder extends Table where
  serverMemo : Memo := {}
  altSvcMemo : Memo := {}
  ctMemo : Memo := {}
  hstsMemo : Memo := {}
  ctSeen : Option (Bytes × Option Nat) := none
  dateAbs : Nat := 0
  dateSecond : Nat := 0
  dateValid : Bool := false
  deriving DecidableEq

namespace Encoder

def server (e : Encoder) (c : Section) (value : Bytes) : Bytes × Encoder × Section :=
  let w := memoField e.toTable c 92 (bytes "server") value e.serverMemo
  (w.1.out, { e with toTable := w.1.table, serverMemo := w.2 }, w.1.sec)

def altSvc (e : Encoder) (c : Section) (value : Bytes) : Bytes × Encoder × Section :=
  let w := memoField e.toTable c 83 (bytes "alt-svc") value e.altSvcMemo
  (w.1.out, { e with toTable := w.1.table, altSvcMemo := w.2 }, w.1.sec)

/-- `hsts`: the default value is a row of the static table. -/
def hsts (e : Encoder) (c : Section) (value : Bytes) : Bytes × Encoder × Section :=
  if value = bytes "max-age=31536000" then (appendIndexed 56, e, c)
  else
    let w := memoField e.toTable c 56 (bytes "strict-transport-security") value e.hstsMemo
    (w.1.out, { e with toTable := w.1.table, hstsMemo := w.2 }, w.1.sec)

/-- `date`: remembered by the second, the value not compared. -/
def date (e : Encoder) (c : Section) (second : Nat) (value : Bytes) : Bytes × Encoder × Section :=
  let literal := appendLiteralNameRef 6 value
  if e.capacity ≠ 0 then
    if e.dateValid ∧ second = e.dateSecond ∧ e.held e.dateAbs then
      if e.usable c e.dateAbs then
        let w := e.reference c e.dateAbs
        (w.out, { e with toTable := w.table }, w.sec)
      else (literal, e, c)
    else
      match e.insert 6 (bytes "date") value with
      | none => (literal, { e with dateValid := false }, c)
      | some (abs, t') =>
        let e' := { e with toTable := t', dateAbs := abs, dateSecond := second, dateValid := true }
        if t'.usable c abs then
          let w := t'.reference c abs
          (w.out, { e' with toTable := w.table }, w.sec)
        else (literal, e', c)
  else (literal, e, c)

/-- The row of the static table for `value`: the last value seen keeps its own. -/
def seenRow (e : Encoder) (value : Bytes) : Option Nat :=
  match e.ctSeen with
  | some (v, row) => if v = value then row else staticPair (bytes "content-type") value
  | none => staticPair (bytes "content-type") value

/-- `content_type`. -/
def contentType (e : Encoder) (c : Section) (value : Bytes) : Bytes × Encoder × Section :=
  let seen := e.seenRow value
  let e := { e with ctSeen := some (value, seen) }
  match seen with
  | some i => (appendIndexed i, e, c)
  | none =>
    let w := memoField e.toTable c 44 (bytes "content-type") value e.ctMemo
    (w.1.out, { e with toTable := w.1.table, ctMemo := w.2 }, w.1.sec)

end Encoder

/-- The field operations of a section. -/
inductive FieldOp where
  | server (value : Bytes)
  | date (second : Nat) (value : Bytes)
  | contentType (value : Bytes)
  | altSvc (value : Bytes)
  | hsts (value : Bytes)
  deriving DecidableEq

def Encoder.field (e : Encoder) (c : Section) : FieldOp → Bytes × Encoder × Section
  | .server value => e.server c value
  | .date second value => e.date c second value
  | .contentType value => e.contentType c value
  | .altSvc value => e.altSvc c value
  | .hsts value => e.hsts c value

/-- The field an operation writes. -/
def FieldOp.pair : FieldOp → Field
  | .server value => (bytes "server", value)
  | .date _ value => (bytes "date", value)
  | .contentType value => (bytes "content-type", value)
  | .altSvc value => (bytes "alt-svc", value)
  | .hsts value => (bytes "strict-transport-security", value)

/-- The static row whose name an operation uses. -/
def FieldOp.row : FieldOp → Nat
  | .server _ => 92
  | .date _ _ => 6
  | .contentType _ => 44
  | .altSvc _ => 83
  | .hsts _ => 56

/-! ## §3. The entry a field operation references. -/

/-- The entry remembered for `value`, if it is still there. -/
def Memo.entry (memo : Memo) (t : Table) (value : Bytes) : Option Nat :=
  if memo.valid ∧ t.held memo.abs ∧ memo.value = value then some memo.abs else none

namespace Encoder

/-- The static row an operation writes as it is. -/
def staticRow (e : Encoder) : FieldOp → Option Nat
  | .contentType value => e.seenRow value
  | .hsts value => if value = bytes "max-age=31536000" then some 56 else none
  | _ => none

/-- The entry remembered for an operation. -/
def remembered (e : Encoder) : FieldOp → Option Nat
  | .server value => e.serverMemo.entry e.toTable value
  | .date second _ =>
    if e.dateValid ∧ second = e.dateSecond ∧ e.held e.dateAbs then some e.dateAbs else none
  | .contentType value => e.ctMemo.entry e.toTable value
  | .altSvc value => e.altSvcMemo.entry e.toTable value
  | .hsts value => e.hstsMemo.entry e.toTable value

end Encoder

/-- The entry referenced, `old` being the one remembered: that one, or one to be inserted. -/
def target (t : Table) (c : Section) (i : Nat) (name value : Bytes) (old : Option Nat) :
    Option Nat :=
  if t.capacity = 0 then none
  else
    match old with
    | some abs => if t.usable c abs then some abs else none
    | none =>
      match t.insert i name value with
      | none => none
      | some (abs, t') => if t'.usable c abs then some abs else none

/-- The entry an operation would reference, none when it writes a literal or a static row. -/
def Encoder.refers (e : Encoder) (c : Section) (op : FieldOp) : Option Nat :=
  match e.staticRow op with
  | some _ => none
  | none => target e.toTable c op.row op.pair.1 op.pair.2 (e.remembered op)

/-! ## §4. What a field operation can do. -/

/-- The entry referenced, the bytes, the table and the section of an operation that writes
    `(name, value)` and remembers the entry `old` for it. -/
inductive Wrote (t : Table) (c : Section) (i : Nat) (name value : Bytes) (old : Option Nat) :
    Option Nat → Bytes → Table → Section → Prop
  | literal : Wrote t c i name value old none (appendLiteralNameRef i value) t c
  | inserted {abs : Nat} {t' : Table} (hold : old = none)
      (h : t.insert i name value = some (abs, t')) :
      Wrote t c i name value old none (appendLiteralNameRef i value) t' c
  | remembered {abs : Nat} (hold : old = some abs) (hu : t.usable c abs = true) :
      Wrote t c i name value old (some abs) (t.reference c abs).out (t.reference c abs).table
        (t.reference c abs).sec
  | fresh {abs : Nat} {t' : Table} (hold : old = none)
      (h : t.insert i name value = some (abs, t')) (hu : t'.usable c abs = true) :
      Wrote t c i name value old (some abs) (t'.reference c abs).out (t'.reference c abs).table
        (t'.reference c abs).sec

theorem memoField_wrote (t : Table) (c : Section) (i : Nat) (name value : Bytes) (memo : Memo) :
    Wrote t c i name value (memo.entry t value) (target t c i name value (memo.entry t value))
      (memoField t c i name value memo).1.out (memoField t c i name value memo).1.table
      (memoField t c i name value memo).1.sec := by
  unfold memoField target Memo.entry
  dsimp only
  by_cases hcap : t.capacity = 0
  · rw [if_pos hcap, if_neg (show ¬ t.capacity ≠ 0 from fun hne => hne hcap)]
    exact .literal
  rw [if_neg hcap, if_pos hcap]
  by_cases hm : memo.valid ∧ t.held memo.abs ∧ memo.value = value
  · rw [if_pos hm, if_pos hm]
    dsimp only
    by_cases hu : t.usable c memo.abs
    · rw [if_pos hu, if_pos hu]
      exact .remembered rfl hu
    rw [if_neg hu, if_neg hu]
    exact .literal
  · rw [if_neg hm, if_neg hm]
    cases hins : t.insert i name value with
    | none => exact .literal
    | some r =>
      obtain ⟨abs, t'⟩ := r
      dsimp only
      by_cases hu : t'.usable c abs
      · rw [if_pos hu, if_pos hu]
        exact .fresh rfl hins hu
      rw [if_neg hu, if_neg hu]
      exact .inserted rfl hins

namespace Encoder

theorem date_wrote (e : Encoder) (c : Section) (second : Nat) (value : Bytes) :
    Wrote e.toTable c 6 (bytes "date") value (e.remembered (.date second value))
      (e.refers c (.date second value))
      (e.date c second value).1 (e.date c second value).2.1.toTable (e.date c second value).2.2 := by
  unfold date refers target
  dsimp only [staticRow, remembered, FieldOp.row, FieldOp.pair]
  by_cases hcap : e.capacity = 0
  · rw [if_pos hcap, if_neg (show ¬ e.capacity ≠ 0 from fun hne => hne hcap)]
    exact .literal
  rw [if_neg hcap, if_pos hcap]
  by_cases hm : e.dateValid ∧ second = e.dateSecond ∧ e.held e.dateAbs
  · rw [if_pos hm, if_pos hm]
    dsimp only
    by_cases hu : e.usable c e.dateAbs
    · rw [if_pos hu, if_pos hu]
      exact .remembered rfl hu
    rw [if_neg hu, if_neg hu]
    exact .literal
  · rw [if_neg hm, if_neg hm]
    cases hins : e.insert 6 (bytes "date") value with
    | none => exact .literal
    | some r =>
      obtain ⟨abs, t'⟩ := r
      dsimp only
      by_cases hu : t'.usable c abs
      · rw [if_pos hu, if_pos hu]
        exact .fresh rfl hins hu
      rw [if_neg hu, if_neg hu]
      exact .inserted rfl hins

/-- **What a field operation does**: a static row, or one of the four cases of `Wrote`. -/
inductive Effect (e : Encoder) (c : Section) (op : FieldOp) :
    Option Nat → Bytes → Table → Section → Prop
  | static {i : Nat} (h : e.staticRow op = some i) :
      Effect e c op none (appendIndexed i) e.toTable c
  | wrote {r : Option Nat} {out : Bytes} {t' : Table} {c' : Section} (hs : e.staticRow op = none)
      (h : Wrote e.toTable c op.row op.pair.1 op.pair.2 (e.remembered op) r out t' c') :
      Effect e c op r out t' c'

theorem field_effect (e : Encoder) (c : Section) (op : FieldOp) :
    Effect e c op (e.refers c op) (e.field c op).1 (e.field c op).2.1.toTable (e.field c op).2.2 := by
  cases op with
  | server value => exact .wrote rfl (memoField_wrote _ _ _ _ _ _)
  | date second value => exact .wrote rfl (e.date_wrote c second value)
  | contentType value =>
    show Effect e c _ (match e.seenRow value with | some _ => none | none => _)
      (e.contentType c value).1 (e.contentType c value).2.1.toTable (e.contentType c value).2.2
    unfold contentType
    cases hrow : e.seenRow value with
    | some i => exact .static hrow
    | none => exact .wrote hrow (memoField_wrote _ _ _ _ _ _)
  | altSvc value => exact .wrote rfl (memoField_wrote _ _ _ _ _ _)
  | hsts value =>
    show Effect e c _
      (match (if value = bytes "max-age=31536000" then some 56 else none) with
        | some _ => none
        | none => _) (e.hsts c value).1 (e.hsts c value).2.1.toTable (e.hsts c value).2.2
    unfold hsts
    by_cases hv : value = bytes "max-age=31536000"
    · rw [if_pos hv, if_pos hv]
      have hrow : e.staticRow (.hsts value) = some 56 := if_pos hv
      exact .static hrow
    · rw [if_neg hv, if_neg hv]
      exact .wrote (if_neg hv) (memoField_wrote _ _ _ _ _ _)

end Encoder

end Agensio.Qpack
