/-
  Agensio.Http.FieldMarks — the field rules, once for each table entry.

  Two connections side by side.  One decodes its header blocks with the
  marks of the dynamic table: `sink_field` leaves out the rules of a field
  whose mark is set, and sets it when they have passed.  The other has no
  marks and runs every rule on every field (`sinkEvery`).  The blocks, the
  insertions, the evictions and the size changes are the same.

  In HPACK an insertion is part of a block, so the marks move while the
  fields are given to the sink.  In QPACK they move with the instructions
  of the encoder stream; during a section the table stands still, and the
  fields can be given to the sink when all are decoded.

  Main result: `marks_change_nothing`.
-/
import Agensio.Codec.Marks
import Agensio.Hpack.Decoder
import Agensio.Http.RequestAssembly
import Agensio.Qpack.Timing

namespace Agensio.Http

open Agensio.Codec

/-! ## §1. The sink and the marks. -/

/-- `codec::Origin`: the mark is a slot of the ring. -/
structure Origin where
  staticTable : Bool := false
  checked : Option Nat := none

/-- `sink_field` on the marks. -/
def Assembly.sinkMarked (a : Assembly) (m : Marks) (f : Field) (o : Origin) : Assembly × Marks :=
  let r := a.sinkField f.1 f.2 o.staticTable (o.checked.map m)
  (r.1,
    match o.checked, r.2 with
    | some slot, some mark => m.set slot mark
    | _, _ => m)

/-- An origin is true of the field in this table. -/
structure Origin.True (o : Origin) (t : DynamicTable) (f : Field) : Prop where
  static : o.staticTable = true → Assembly.Clean f
  entry : ∀ slot, o.checked = some slot →
    o.staticTable = false ∧ ∃ k, slot = t.place k ∧ t.entries[k]? = some f

theorem Marks.set_self {m : Marks} {slot : Nat} : m.set slot (m slot) = m := by
  funext i
  unfold Marks.set
  split
  · next h => rw [h]
  · rfl

/-- **One field.** -/
theorem sinkMarked_spec {t : DynamicTable} {m : Marks} {f : Field} {o : Origin} (hv : t.Valid)
    (hm : t.Checked Passes m) (ho : o.True t f) (a : Assembly) :
    (a.sinkMarked m f o).1 = a.sinkEvery f.1 f.2 ∧ t.Checked Passes (a.sinkMarked m f o).2 := by
  unfold Assembly.sinkMarked
  dsimp only
  constructor
  · apply Assembly.sinkField_eq_sinkEvery
    · intro hset
      obtain ⟨slot, hslot, hmark⟩ := Option.map_eq_some_iff.mp hset
      obtain ⟨-, k, rfl, hk⟩ := ho.entry slot hslot
      exact hm k f hk hmark
    · exact ho.static
  · cases hc : o.checked with
    | none => exact hm
    | some slot =>
      obtain ⟨hlit, k, rfl, hk⟩ := ho.entry slot hc
      rw [Option.map_some]
      -- the mark is as it was, or set for a field that passed
      rcases @Assembly.sinkField_mark a f.1 f.2 o.staticTable (some (m (t.place k))) hlit with
        hsame | ⟨hset, hpass⟩
      · rw [hsame]
        dsimp only
        rw [Marks.set_self]
        exact hm
      · rw [hset]
        exact DynamicTable.checked_set hv hm hk hpass

end Agensio.Http

/-! ## §2. HPACK. -/

namespace Agensio.Hpack.Decoder

open Agensio.Lib Agensio.Codec Agensio.Http

/-- `lookup` with an origin. -/
def indexedOrigin (d : Decoder) (in_ : Bytes) : Origin :=
  match readInteger 7 in_ with
  | none => {}
  | some (index, _) =>
    if index ≤ kStaticTable.length then { staticTable := true }
    else { checked := d.table.slotAt (index - kStaticTable.length - 1) }

/-- The origin of the field that a representation gives. -/
def fieldOrigin (d : Decoder) (f : Field) : Bytes → Origin
  | [] => {}
  | b :: bs =>
    if b &&& 0x80 ≠ 0 then d.indexedOrigin (b :: bs)
    else if b &&& 0x40 ≠ 0 then
      let r := d.table.add f.1 f.2
      if r.1 then { checked := r.2.newestSlot } else {}
    else {}

/-- The marks when the sink is called. -/
def fieldMarks (d : Decoder) (f : Field) (m : Marks) : Bytes → Marks
  | [] => m
  | b :: _ =>
    if b &&& 0x80 ≠ 0 then m
    else if b &&& 0x40 ≠ 0 then d.table.addMarks f.1 f.2 m
    else m

/-- The loop of `decode` with the marks, for a sink that takes every field. -/
def sinkLoop {σ : Type} (sink : σ → Marks → Field → Origin → σ × Marks) (maxListSize : Nat) :
    Nat → Decoder → Marks → σ → Nat → Bool → Bytes → Decoder × Marks × Result × σ
  | _, d, m, s, _, _, [] => (d, m, .ok, s)
  | 0, d, m, s, _, _, _ :: _ => (d, m, .malformed, s)
  | fuel + 1, d, m, s, total, started, b :: bs =>
    match d.nextField maxListSize total started (b :: bs) with
    | .error e => (d, m, e, s)
    | .ok (d', none, rest) => sinkLoop sink maxListSize fuel d' m s total started rest
    | .ok (d', some f, rest) =>
      let m' := d.fieldMarks f m (b :: bs)
      if total + fieldSize f > maxListSize then (d', m', .tooLarge, s)
      else
        let r := sink s m' f (d.fieldOrigin f (b :: bs))
        sinkLoop sink maxListSize fuel d' r.2 r.1 (total + fieldSize f) true rest

/-- A header block: a request's, or one that is only decoded (trailers, a stream that is refused). -/
inductive Block where
  | request (start : Assembly) (block : Bytes) (maxListSize : Nat)
  | discard (block : Bytes) (maxListSize : Nat)

/-- What becomes of a request. -/
structure Outcome where
  result : Result
  assembly : Assembly
  finished : Assembled × Assembly × Option Nat

def outcome (result : Result) (a : Assembly) : Outcome :=
  ⟨result, a, finishRequest a (bytes "HTTP/2.0")⟩

/-- The requests of a connection, with the marks. -/
def outcomes : Decoder → Marks → List Block → List Outcome
  | _, _, [] => []
  | d, m, .request start block maxListSize :: rest =>
    let r := sinkLoop Assembly.sinkMarked maxListSize block.length d m start 0 false block
    outcome r.2.2.1 r.2.2.2 :: outcomes r.1 r.2.1 rest
  | d, m, .discard block maxListSize :: rest =>
    let r := sinkLoop (fun s m _ _ => (s, m)) maxListSize block.length d m () 0 false block
    outcomes r.1 r.2.1 rest

/-- The requests of a connection that runs every rule on every field. -/
def outcomesEvery : Decoder → List Block → List Outcome
  | _, [] => []
  | d, .request start block maxListSize :: rest =>
    let r := d.decode block maxListSize fun _ => true
    outcome r.2.1 (r.2.2.foldl (fun a f => a.sinkEvery f.1 f.2) start) :: outcomesEvery r.1 rest
  | d, .discard block maxListSize :: rest =>
    outcomesEvery (d.decode block maxListSize fun _ => true).1 rest

/-- Every row of the static table is clean. -/
theorem kStaticTable_clean : ∀ f ∈ kStaticTable, Assembly.Clean f := by
  unfold Assembly.Clean
  decide +kernel

/-- A mark of the connection's table means what it says. -/
structure Marked (d : Decoder) (m : Marks) : Prop where
  valid : d.table.Valid
  capacity : d.table.capacity = d.ceiling
  checked : d.table.Checked Passes m

theorem new_marked (ceiling : Nat) : (new ceiling).Marked fun _ => false :=
  ⟨DynamicTable.new_valid ceiling, rfl, fun _ _ _ h => absurd h Bool.false_ne_true⟩

variable {d d' : Decoder} {m : Marks} {f : Field} {b : UInt8} {bs rest : Bytes}
  {limit total : Nat} {started : Bool}

theorem withField_ok {next : Field → Decoder} {r : Except Result (Field × Bytes)}
    {field : Option Field} (h : withField next r = .ok (d', field, rest)) :
    ∃ f, field = some f ∧ d' = next f ∧ r = .ok (f, rest) := by
  cases r with
  | error e => simp [withField] at h
  | ok v =>
    obtain ⟨f, rest'⟩ := v
    simp only [withField, Except.ok.injEq, Prod.mk.injEq] at h
    obtain ⟨rfl, rfl, rfl⟩ := h
    exact ⟨f, rfl, rfl, rfl⟩

/-- The entry an indexed field is, with its origin. -/
theorem indexedOrigin_true (hm : d.Marked m) {in_ : Bytes}
    (h : d.indexed limit total in_ = .ok (f, rest)) : (d.indexedOrigin in_).True d.table f := by
  unfold indexed at h
  unfold indexedOrigin
  cases hr : readInteger 7 in_ with
  | none =>
    rw [hr] at h
    simp at h
  | some r =>
    obtain ⟨index, rest'⟩ := r
    rw [hr] at h
    dsimp only at h ⊢
    cases hl : d.lookup index with
    | none =>
      rw [hl] at h
      simp at h
    | some g =>
      rw [hl] at h
      dsimp only at h
      split at h
      · simp at h
      simp only [Except.ok.injEq, Prod.mk.injEq] at h
      obtain ⟨rfl, -⟩ := h
      unfold lookup at hl
      split at hl
      · simp at hl
      split at hl
      · next hle =>
        rw [if_pos hle]
        refine ⟨fun _ => kStaticTable_clean g (List.mem_of_getElem? hl), ?_⟩
        intro slot hs
        simp at hs
      · next hgt =>
        rw [if_neg hgt]
        obtain ⟨hslot, hk⟩ := DynamicTable.slotAt_eq hm.valid hl
        refine ⟨nofun, fun slot hs => ⟨rfl, _, ?_, hk⟩⟩
        exact Option.some.inj (hs.symm.trans hslot)

/-- **One representation**: the marks and the origin the sink is given are true of the table. -/
theorem nextField_marked (hm : d.Marked m)
    (h : d.nextField limit total started (b :: bs) = .ok (d', some f, rest)) :
    d'.Marked (d.fieldMarks f m (b :: bs)) ∧ (d.fieldOrigin f (b :: bs)).True d'.table f := by
  unfold nextField at h
  unfold fieldMarks fieldOrigin
  dsimp only at h ⊢
  have hnone : ∀ t : DynamicTable, ({} : Origin).True t f :=
    fun t => ⟨nofun, fun slot hs => absurd hs (by simp)⟩
  by_cases h₁ : b &&& 0x80 ≠ 0
  · rw [if_pos h₁] at h ⊢
    rw [if_pos h₁]
    obtain ⟨g, hg, rfl, hi⟩ := withField_ok h
    cases hg
    exact ⟨hm, indexedOrigin_true hm hi⟩
  · rw [if_neg h₁] at h ⊢
    rw [if_neg h₁]
    by_cases h₂ : b &&& 0x40 ≠ 0
    · rw [if_pos h₂] at h ⊢
      rw [if_pos h₂]
      obtain ⟨g, hg, rfl, -⟩ := withField_ok h
      cases hg
      obtain ⟨hv, -, -, hcap, -⟩ := DynamicTable.add_spec hm.valid f.1 f.2
      refine ⟨⟨hv, hcap.trans hm.capacity, DynamicTable.checked_add hm.valid hm.checked f.1 f.2⟩, ?_⟩
      by_cases htaken : (d.table.add f.1 f.2).1 = true
      · rw [if_pos htaken]
        obtain ⟨hslot, hfirst⟩ := DynamicTable.newestSlot_add hm.valid htaken
        refine ⟨nofun, fun slot hs => ⟨rfl, 0, ?_, hfirst⟩⟩
        exact Option.some.inj (hs.symm.trans hslot)
      · rw [if_neg htaken]
        exact hnone _
    · rw [if_neg h₂] at h ⊢
      rw [if_neg h₂]
      split at h
      · split at h
        · simp at h
        · split at h <;> simp at h
      · obtain ⟨g, -, rfl, -⟩ := withField_ok h
        exact ⟨hm, hnone _⟩

/-- A size update keeps the marks. -/
theorem nextField_none_marked (hm : d.Marked m)
    (h : d.nextField limit total started (b :: bs) = .ok (d', none, rest)) : d'.Marked m := by
  unfold nextField at h
  dsimp only at h
  split at h
  · obtain ⟨g, hg, -⟩ := withField_ok h
    simp at hg
  split at h
  · obtain ⟨g, hg, -⟩ := withField_ok h
    simp at hg
  split at h
  · split at h
    · simp at h
    split at h
    · simp at h
    next d₁ rest₁ hs =>
    simp only [Except.ok.injEq, Prod.mk.injEq] at h
    obtain ⟨rfl, -, -⟩ := h
    unfold sizeUpdate at hs
    split at hs
    · simp at hs
    split at hs
    · simp at hs
    next size _ _ hsize =>
    simp only [Except.ok.injEq, Prod.mk.injEq] at hs
    obtain ⟨rfl, -⟩ := hs
    have hle : size ≤ d.table.capacity := by
      rw [hm.capacity]
      omega
    obtain ⟨hv, -, -, hcap⟩ := DynamicTable.setLimit_spec hm.valid hle
    exact ⟨hv, hcap.trans hm.capacity, DynamicTable.checked_setLimit hm.valid hm.checked hle⟩
  · obtain ⟨g, hg, -⟩ := withField_ok h
    simp at hg

/-- **The loop**: for a sink that the marks do not mislead, the table, the result and the fields are
    those of `decode`, and what the sink makes of them is what it makes of each. -/
theorem sinkLoop_spec {σ : Type} {sink : σ → Marks → Field → Origin → σ × Marks} {every : σ → Field → σ}
    (hsink : ∀ (t : DynamicTable) m f o, t.Valid → t.Checked Passes m → o.True t f → ∀ s,
      (sink s m f o).1 = every s f ∧ t.Checked Passes (sink s m f o).2)
    (start : σ) (fuel : Nat) {d : Decoder} {m : Marks} (hm : d.Marked m) (total : Nat)
    (fields : List Field) (block : Bytes) :
    let r := sinkLoop sink limit fuel d m (fields.foldl every start) total (!fields.isEmpty) block
    let r' := decodeLoop limit (fun _ => true) fuel d total fields block
    r.1 = r'.1 ∧ r.2.2.1 = r'.2.1 ∧ r.2.2.2 = r'.2.2.foldl every start ∧ r.1.Marked r.2.1 := by
  induction fuel generalizing d m total fields block with
  | zero =>
    cases block with
    | nil => exact ⟨rfl, rfl, rfl, hm⟩
    | cons b bs => exact ⟨rfl, rfl, rfl, hm⟩
  | succ fuel ih =>
    cases block with
    | nil => exact ⟨rfl, rfl, rfl, hm⟩
    | cons b bs =>
      unfold sinkLoop decodeLoop
      cases hn : d.nextField limit total (!fields.isEmpty) (b :: bs) with
      | error e => exact ⟨rfl, rfl, rfl, hm⟩
      | ok v =>
        obtain ⟨d', field, rest⟩ := v
        cases field with
        | none => exact ih (nextField_none_marked hm hn) total fields rest
        | some f =>
          obtain ⟨hm', ho⟩ := nextField_marked hm hn
          dsimp only
          by_cases hbig : total + fieldSize f > limit
          · rw [if_pos hbig, if_pos hbig]
            exact ⟨rfl, rfl, rfl, hm'⟩
          rw [if_neg hbig, if_neg hbig, if_neg (by decide)]
          obtain ⟨hs, hc⟩ := hsink d'.table _ f _ hm'.valid hm'.checked ho (fields.foldl every start)
          have hnext := ih ⟨hm'.valid, hm'.capacity, hc⟩ (total + fieldSize f) (fields ++ [f]) rest
          have hstarted : (!(fields ++ [f]).isEmpty) = true := by simp
          rw [List.foldl_append, List.foldl_cons, List.foldl_nil, hstarted] at hnext
          rw [hs]
          exact hnext

/-- **HPACK.** -/
theorem outcomes_eq_outcomesEvery {d : Decoder} {m : Marks} (hm : d.Marked m) (blocks : List Block) :
    d.outcomes m blocks = d.outcomesEvery blocks := by
  induction blocks generalizing d m with
  | nil => rfl
  | cons block blocks ih =>
    cases block with
    | request start block limit =>
      obtain ⟨hd, hr, ha, hm'⟩ := @sinkLoop_spec limit _ Assembly.sinkMarked
        (fun a f => a.sinkEvery f.1 f.2) (fun t m f o hv hc ho s => sinkMarked_spec hv hc ho s) start
        block.length d m hm 0 [] block
      unfold outcomes outcomesEvery decode
      dsimp only
      rw [← hd, ← hr, ← ha, ← ih hm']
      rfl
    | discard block limit =>
      obtain ⟨hd, -, -, hm'⟩ := @sinkLoop_spec limit Unit (fun s m _ _ => (s, m))
        (fun s _ => s) (fun t m f o _ hc _ s => ⟨rfl, hc⟩) () block.length d m hm 0 [] block
      unfold outcomes outcomesEvery decode
      dsimp only
      rw [← hd, ← ih hm']
      rfl

end Agensio.Hpack.Decoder

/-! ## §3. QPACK. -/

namespace Agensio.Qpack.Decoder

open Agensio.Lib Agensio.Codec Agensio.Http

/-- The marks behind one instruction of the encoder stream: an insertion clears the slot it takes. -/
def instructionMarks (d d' : Decoder) (m : Marks) : Marks :=
  if d'.insertCount = d.insertCount then m else m.set d'.table.head false

/-- The origin as the sink gets it: `entry` points to the slot of the entry. -/
def slotOrigin (d : Decoder) (o : Qpack.Origin) : Http.Origin :=
  { staticTable := o.staticTable
    checked := o.checked.bind fun abs => d.table.slotAt (d.insertCount - 1 - abs) }

/-- The fields of a section given to `sink_field`. -/
def assemble (d : Decoder) (r : Assembly × Marks) (x : Reported) : Assembly × Marks :=
  r.1.sinkMarked r.2 x.1 (d.slotOrigin x.2)

/-- What arrives: an instruction of the encoder stream, or the section of a request. -/
inductive Arrival where
  | instruction (in_ : Bytes)
  | request (start : Assembly) (section_ : Bytes) (maxListSize : Nat)

/-- What becomes of a request. -/
structure Outcome where
  result : Result
  assembly : Assembly
  finished : Assembled × Assembly × Option Nat

def outcome (result : Result) (a : Assembly) : Outcome :=
  ⟨result, a, finishRequest a (bytes "HTTP/3.0")⟩

/-- The requests of a connection, with the marks. -/
def outcomes : Decoder → Marks → List Arrival → List Outcome
  | _, _, [] => []
  | d, m, .instruction in_ :: rest =>
    match d.nextInstruction in_ with
    | .done d' _ => outcomes d' (d.instructionMarks d' m) rest
    | _ => outcomes d m rest
  | d, m, .request start section_ maxListSize :: rest =>
    let r := d.decode section_ maxListSize takeAll
    let s := r.fields.foldl d.assemble (start, m)
    outcome r.result s.1 :: outcomes d s.2 rest

/-- The requests of a connection that runs every rule on every field. -/
def outcomesEvery : Decoder → List Arrival → List Outcome
  | _, [] => []
  | d, .instruction in_ :: rest =>
    match d.nextInstruction in_ with
    | .done d' _ => outcomesEvery d' rest
    | _ => outcomesEvery d rest
  | d, .request start section_ maxListSize :: rest =>
    let r := d.decode section_ maxListSize takeAll
    outcome r.result (r.fields.foldl (fun a x => a.sinkEvery x.1.1 x.1.2) start) ::
      outcomesEvery d rest

theorem kStaticTable_clean : ∀ f ∈ kStaticTable, Assembly.Clean f := by
  unfold Assembly.Clean
  decide +kernel

/-- The origin a line reports is true of its field. -/
structure Names (d : Decoder) (f : Field) (o : Qpack.Origin) : Prop where
  static : o.staticTable = true → f ∈ kStaticTable
  entry : ∀ abs, o.checked = some abs → o.staticTable = false ∧ d.entry abs = some f

theorem names_literal {d : Decoder} {f : Field} : d.Names f {} :=
  ⟨nofun, fun _ h => absurd h (by simp)⟩

section

variable {d d' : Decoder} {m : Marks} {f : Field} {o : Qpack.Origin} {bs rest : Bytes}
  {required base total limit abs : Nat}

theorem valueLine_names {name : Bytes} (h : valueLine name total limit bs = .ok (f, o, rest)) :
    d.Names f o := by
  unfold valueLine at h
  split at h
  · simp at h
  simp only [Except.ok.injEq, Prod.mk.injEq] at h
  obtain ⟨-, rfl, -⟩ := h
  exact names_literal

theorem dynamicLine_names (h : d.dynamicLine abs total limit bs = .ok (f, o, rest)) : d.Names f o := by
  unfold dynamicLine at h
  split at h
  · simp at h
  next g hg =>
  simp only [Except.ok.injEq, Prod.mk.injEq] at h
  obtain ⟨rfl, rfl, -⟩ := h
  refine ⟨nofun, fun abs' ha => ⟨rfl, ?_⟩⟩
  cases ha
  unfold dynamic at hg
  split at hg
  · simp at hg
  next he =>
  rw [if_pos rfl] at hg
  split at hg
  · simp at hg
  · rw [he, hg]

theorem dynamicNameLine_names (h : d.dynamicNameLine abs total limit bs = .ok (f, o, rest)) :
    d.Names f o := by
  unfold dynamicNameLine at h
  split at h
  · simp at h
  · exact valueLine_names h

theorem readLine_names (h : d.readLine required base total limit bs = .ok (f, o, rest)) : d.Names f o := by
  cases bs with
  | nil => simp [readLine] at h
  | cons b bs =>
    unfold readLine at h
    dsimp only at h
    split at h
    · split at h
      · simp at h
      split at h
      · split at h
        · simp at h
        next hrow =>
        simp only [Except.ok.injEq, Prod.mk.injEq] at h
        obtain ⟨rfl, rfl, -⟩ := h
        exact ⟨fun _ => List.mem_of_getElem? hrow, fun _ ha => absurd ha (by simp)⟩
      · split at h
        · simp at h
        · exact dynamicLine_names h
    · split at h
      · split at h
        · simp at h
        split at h
        · split at h
          · simp at h
          split at h
          · simp at h
          · exact valueLine_names h
        · split at h
          · simp at h
          · exact dynamicNameLine_names h
      · split at h
        · split at h
          · simp at h
          · exact valueLine_names h
        · split at h
          · split at h
            · simp at h
            split at h
            · simp at h
            · exact dynamicLine_names h
          · split at h
            · simp at h
            split at h
            · simp at h
            · exact dynamicNameLine_names h

/-- What the sink is given by a section is true of the table. -/
theorem decodeLoop_names (sink : List Reported → Bool) (fuel : Nat) (total : Nat)
    (out : List Reported) (bs : Bytes) (hout : ∀ x ∈ out, d.Names x.1 x.2) :
    ∀ x ∈ (d.decodeLoop required base limit sink fuel total out bs).2, d.Names x.1 x.2 := by
  induction fuel generalizing total out bs with
  | zero => exact hout
  | succ fuel ih =>
    unfold decodeLoop
    split
    · exact hout
    split
    · exact hout
    next f o rest hread =>
    dsimp only
    have hnext : ∀ x ∈ out ++ [(f, o)], d.Names x.1 x.2 := by
      intro x hx
      rcases List.mem_append.mp hx with hx | hx
      · exact hout x hx
      obtain rfl := List.mem_singleton.mp hx
      exact readLine_names hread
    split
    · exact hout
    split
    · exact hnext
    · exact ih _ _ _ hnext

theorem decode_names (section_ : Bytes) (sink : List Reported → Bool) :
    ∀ x ∈ (d.decode section_ limit sink).fields, d.Names x.1 x.2 := by
  unfold decode
  split
  · exact fun x hx => absurd hx List.not_mem_nil
  split
  · exact fun x hx => absurd hx List.not_mem_nil
  · exact decodeLoop_names sink _ _ _ _ fun x hx => absurd hx List.not_mem_nil

theorem slotOrigin_true (hd : d.Sound) (hn : d.Names f o) : (d.slotOrigin o).True d.table f := by
  refine ⟨fun hs => kStaticTable_clean f (hn.static hs), fun slot hs => ?_⟩
  obtain ⟨abs, ha, hslot⟩ := Option.bind_eq_some_iff.mp hs
  obtain ⟨hlit, he⟩ := hn.entry abs ha
  refine ⟨hlit, d.insertCount - 1 - abs, ?_⟩
  have hat : d.table.at (d.insertCount - 1 - abs) = some f := by
    unfold entry at he
    split at he
    · simp at he
    dsimp only at he
    split at he
    · simp at he
    · exact he
  obtain ⟨hs', hk⟩ := DynamicTable.slotAt_eq hd.table hat
  exact ⟨Option.some.inj (hslot.symm.trans hs'), hk⟩

/-- **A section.** -/
theorem foldl_assemble (hd : d.Sound) (fields : List Reported)
    (hn : ∀ x ∈ fields, d.Names x.1 x.2) {m : Marks} (hm : d.table.Checked Passes m) (a : Assembly) :
    (fields.foldl d.assemble (a, m)).1 = fields.foldl (fun a x => a.sinkEvery x.1.1 x.1.2) a ∧
      d.table.Checked Passes (fields.foldl d.assemble (a, m)).2 := by
  induction fields generalizing a m with
  | nil => exact ⟨rfl, hm⟩
  | cons x fields ih =>
    have hx := hn x (.head _)
    obtain ⟨ha, hm'⟩ := sinkMarked_spec hd.table hm (slotOrigin_true hd hx) a
    rw [List.foldl_cons, List.foldl_cons, ← ha]
    exact ih (fun y hy => hn y (.tail _ hy)) hm' _

/-- **An instruction.** -/
theorem instructionMarks_checked (hd : d.Sound) (hm : d.table.Checked Passes m) {in_ : Bytes}
    (h : d.nextInstruction in_ = .done d' rest) : d'.table.Checked Passes (d.instructionMarks d' m) := by
  rcases nextInstruction_cases h with ⟨name, value, htaken, rfl⟩ | ⟨cap, hcap, rfl⟩
  · have hadd := DynamicTable.checked_add hd.table hm name value
    unfold DynamicTable.addMarks at hadd
    rw [if_pos htaken] at hadd
    unfold instructionMarks
    rw [if_neg (show ¬ d.insertCount + 1 = d.insertCount by omega)]
    exact hadd
  · unfold instructionMarks
    rw [if_pos rfl]
    exact DynamicTable.checked_setLimit hd.table hm (by rw [hd.capacity]; exact hcap)

end

/-- **QPACK.** -/
theorem outcomes_eq_outcomesEvery {d : Decoder} {m : Marks} (hd : d.Sound)
    (hm : d.table.Checked Passes m) (arrivals : List Arrival) :
    d.outcomes m arrivals = d.outcomesEvery arrivals := by
  induction arrivals generalizing d m with
  | nil => rfl
  | cons x arrivals ih =>
    cases x with
    | instruction in_ =>
      unfold outcomes outcomesEvery
      cases hn : d.nextInstruction in_ with
      | done d' rest =>
        exact ih (Grows.of_instruction hd hn).sound (instructionMarks_checked hd hm hn)
      | incomplete => exact ih hd hm
      | failed => exact ih hd hm
    | request start section_ limit =>
      obtain ⟨ha, hm'⟩ := foldl_assemble hd _ (decode_names section_ takeAll) hm start
      unfold outcomes outcomesEvery
      dsimp only
      rw [ha, ih hd hm']

end Agensio.Qpack.Decoder

/-! ## §4. Both. -/

namespace Agensio.Http

open Agensio.Codec

/-- **The field rules run once for each table entry, and nothing changes**: every request of every
    connection has the outcome, the headers and the cookie of one whose rules run on each field. -/
theorem marks_change_nothing :
    (∀ ceiling blocks, (Hpack.Decoder.new ceiling).outcomes (fun _ => false) blocks =
      (Hpack.Decoder.new ceiling).outcomesEvery blocks) ∧
    (∀ maxCapacity arrivals, (Qpack.Decoder.new maxCapacity).outcomes (fun _ => false) arrivals =
      (Qpack.Decoder.new maxCapacity).outcomesEvery arrivals) :=
  ⟨fun ceiling blocks => Hpack.Decoder.outcomes_eq_outcomesEvery (Hpack.Decoder.new_marked ceiling) blocks,
    fun maxCapacity arrivals => Qpack.Decoder.outcomes_eq_outcomesEvery
      (Qpack.Decoder.new_sound maxCapacity) (fun _ _ _ h => absurd h Bool.false_ne_true) arrivals⟩

end Agensio.Http
