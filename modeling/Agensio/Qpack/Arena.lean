/-
  Agensio.Qpack.Arena — the arena and the limit of a field section.

  `Decoder::decode` of `http3/qpack.cpp` once more, with the arena its
  strings go to and the views the sink is given, beside the HPACK decoder
  of `Agensio.Hpack.Arena`.

  A section whose list is over the limit is reported as too large, with
  one exception: the lambda `dynamic` answers false both for an entry
  that is not there and for one that does not fit, and false is reported
  as malformed.

  Main results:
    * `decoded_in_arena` — blocks and sections together.
-/
import Agensio.Hpack.Arena
import Agensio.Qpack.Decoder

namespace Agensio.Qpack.Decoder

open Agensio.Lib Agensio.Codec

/-! ## §1. The model. -/

/-- The lambda `dynamic` with the arena: the entry's bytes are copied so that the views outlive the
    table. -/
def dynamicInto (d : Decoder) (abs total maxListSize : Nat) (valueToo : Bool) (a : Arena) :
    Option (View × View) × Arena :=
  match d.entry abs with
  | none => (none, a)
  | some f =>
    if f.1.length + (if valueToo then f.2.length else 0) > budget total maxListSize 0 then (none, a)
    else
      let name := a.append f.1
      if valueToo then
        let value := name.2.append f.2
        (some (name.1, value.1), value.2)
      else (some (name.1, .static []), name.2)

/-- `valueLine` with the arena. -/
def valueLineInto (name : View) (total maxListSize : Nat) (rest : Bytes) (a : Arena) :
    Except Result ((View × View) × Origin × Bytes) × Arena :=
  match prefixedStringInto 7 0x80 (budget total maxListSize name.size) rest a with
  | (.error e, a') => (.error (ofStr e), a')
  | (.ok (value, rest'), a') => (.ok ((name, value), {}, rest'), a')

/-- `dynamicLine` with the arena. -/
def dynamicLineInto (d : Decoder) (abs total maxListSize : Nat) (rest : Bytes) (a : Arena) :
    Except Result ((View × View) × Origin × Bytes) × Arena :=
  match d.dynamicInto abs total maxListSize true a with
  | (none, a') => (.error .malformed, a')
  | (some v, a') => (.ok (v, { checked := some abs }, rest), a')

/-- `dynamicNameLine` with the arena. -/
def dynamicNameLineInto (d : Decoder) (abs total maxListSize : Nat) (rest : Bytes) (a : Arena) :
    Except Result ((View × View) × Origin × Bytes) × Arena :=
  match d.dynamicInto abs total maxListSize false a with
  | (none, a') => (.error .malformed, a')
  | (some v, a') => valueLineInto v.1 total maxListSize rest a'

/-- One field line (4.5). -/
def readLineInto (d : Decoder) (required base total maxListSize : Nat) (bs : Bytes) (a : Arena) :
    Except Result ((View × View) × Origin × Bytes) × Arena :=
  match bs with
  | [] => (.error .malformed, a)
  | b :: bs =>
    if b &&& 0x80 ≠ 0 then
      -- 4.5.2 indexed field line
      match readInteger 6 (b :: bs) with
      | none => (.error .malformed, a)
      | some (index, rest) =>
        if b &&& 0x40 ≠ 0 then
          match kStaticTable[index]? with
          | none => (.error .malformed, a)
          | some f => (.ok ((.static f.1, .static f.2), { staticTable := true }, rest), a)
        else if index ≥ base then (.error .malformed, a)
        else d.dynamicLineInto (base - 1 - index) total maxListSize rest a
    else if b &&& 0x40 ≠ 0 then
      -- 4.5.4 literal field line with name reference
      match readInteger 4 (b :: bs) with
      | none => (.error .malformed, a)
      | some (index, rest) =>
        if b &&& 0x10 ≠ 0 then
          match kStaticTable[index]? with
          | none => (.error .malformed, a)
          | some f =>
            if f.1.length > budget total maxListSize 0 then (.error .tooLarge, a)
            else valueLineInto (.static f.1) total maxListSize rest a
        else if index ≥ base then (.error .malformed, a)
        else d.dynamicNameLineInto (base - 1 - index) total maxListSize rest a
    else if b &&& 0x20 ≠ 0 then
      -- 4.5.6 literal field line with literal name
      match prefixedStringInto 3 0x08 (budget total maxListSize 0) (b :: bs) a with
      | (.error e, a') => (.error (ofStr e), a')
      | (.ok (name, rest), a') => valueLineInto name total maxListSize rest a'
    else if b &&& 0x10 ≠ 0 then
      -- 4.5.3 indexed field line with post-base index
      match readInteger 4 (b :: bs) with
      | none => (.error .malformed, a)
      | some (index, rest) =>
        if base + index ≥ required then (.error .malformed, a)
        else d.dynamicLineInto (base + index) total maxListSize rest a
    else
      -- 4.5.5 literal field line with post-base name reference
      match readInteger 3 (b :: bs) with
      | none => (.error .malformed, a)
      | some (index, rest) =>
        if base + index ≥ required then (.error .malformed, a)
        else d.dynamicNameLineInto (base + index) total maxListSize rest a

/-- What `decode` leaves: beside the result and the fields as the sink saw them, the views it was
    given and the arena. -/
structure Into where
  result : Result
  fields : List Reported
  views : List (View × View)
  arena : Arena

/-- The loop of `decode`. -/
def decodeLoopInto (d : Decoder) (required base maxListSize : Nat) (sink : List Reported → Bool) :
    Nat → Nat → List Reported → List (View × View) → Bytes → Arena → Into
  | 0, _, out, views, _, a => ⟨.ok, out, views, a⟩
  | fuel + 1, total, out, views, bs, a =>
    if bs.length = 0 then ⟨.ok, out, views, a⟩
    else
      match d.readLineInto required base total maxListSize bs a with
      | (.error e, a') => ⟨e, out, views, a'⟩
      | (.ok (v, origin, rest), a') =>
        let f := shown a'.content v
        let total' := total + (f.1.length + f.2.length + 32)
        if total' > maxListSize then ⟨.tooLarge, out, views, a'⟩
        else
          let out' := out ++ [(f, origin)]
          if !sink out' then ⟨.ok, out', views ++ [v], a'⟩
          else decodeLoopInto d required base maxListSize sink fuel total' out' (views ++ [v]) rest a'

/-- `decode` with the caller's arena. -/
def decodeInto (d : Decoder) (section_ : Bytes) (maxListSize : Nat) (sink : List Reported → Bool)
    (content : Bytes) : Into :=
  match d.readPrefix section_ with
  | none => ⟨.malformed, [], [], Arena.start content⟩
  | some (required, base, lines) =>
    if required > d.insertCount then ⟨.blocked, [], [], Arena.start content⟩
    else
      d.decodeLoopInto required base maxListSize sink lines.length 0 [] [] lines
        (Arena.start content)

/-! ## §2. The arena. -/

theorem budget_eq (total limit used : Nat) : budget total limit used = limit - (total + 32 + used) := by
  unfold budget
  dsimp only
  split
  · omega
  · rfl

variable {limit total : Nat} {name bs : Bytes}

/-- A value behind a name that was placed already. -/
theorem valueLineInto_spec {v : View} (rest : Bytes)
    {a a' : Arena} (hw : v.Within a'.content) (ht : v.text a'.content = name)
    (hs : name.length ≤ budget total limit 0) (h : Placed (budget total limit 0) name.length a a') :
    FieldInto (limit - total) a (valueLine name total limit rest) (valueLineInto v total limit rest a') := by
  have hsize : v.size = name.length := by rw [← View.length_text hw, ht]
  have hspec := prefixedStringInto_spec 7 0x80 (budget total limit name.length) rest a'
  unfold valueLine valueLineInto
  rw [hsize]
  have hroom : name.length + budget total limit name.length ≤ limit - total := by
    rw [budget_eq] at hs ⊢
    omega
  have hname : Placed (limit - total) name.length a a' := by
    refine h.mono ?_ le_rfl
    rw [budget_eq]
    omega
  generalize prefixedString 7 0x80 (budget total limit name.length) rest = plain at hspec ⊢
  generalize prefixedStringInto 7 0x80 (budget total limit name.length) rest a' = into
    at hspec ⊢
  cases hspec with
  | error hvalue => exact .error (hname.trans hvalue hroom)
  | ok hw' ht' hs' hvalue =>
    refine .ok (View.within_append hw hvalue.kept) hw' ?_ (hname.trans hvalue hroom)
    unfold shown
    rw [View.text_append hw hvalue.kept, ht, ht']

variable (d : Decoder)

theorem dynamicLineInto_spec (abs total limit : Nat) (rest : Bytes) (a : Arena) :
    FieldInto (limit - total) a (d.dynamicLine abs total limit rest)
      (d.dynamicLineInto abs total limit rest a) := by
  unfold dynamicLine dynamicLineInto dynamic dynamicInto
  cases hentry : d.entry abs with
  | none => exact .error (Placed.refl _ a)
  | some f =>
    dsimp only
    rw [if_pos rfl]
    by_cases hbig : f.1.length + f.2.length > budget total limit 0
    · rw [if_pos hbig, if_pos hbig]
      exact .error (Placed.refl _ a)
    rw [if_neg hbig, if_neg hbig, if_pos rfl]
    rw [budget_eq] at hbig
    obtain ⟨hn, hnw, hnt⟩ := append_spec a f.1 (by omega : f.1.length ≤ limit - total)
    obtain ⟨hv, hvw, hvt⟩ := append_spec (a.append f.1).2 f.2 (Nat.le_refl f.2.length)
    refine .ok (View.within_append hnw hv.kept) hvw ?_ (hn.trans hv (by omega))
    unfold shown
    rw [View.text_append hnw hv.kept, hnt, hvt]

theorem dynamicNameLineInto_spec (abs total limit : Nat) (rest : Bytes) (a : Arena) :
    FieldInto (limit - total) a (d.dynamicNameLine abs total limit rest)
      (d.dynamicNameLineInto abs total limit rest a) := by
  unfold dynamicNameLine dynamicNameLineInto dynamic dynamicInto
  cases hentry : d.entry abs with
  | none => exact .error (Placed.refl _ a)
  | some f =>
    dsimp only
    rw [if_neg Bool.false_ne_true, Nat.add_zero]
    by_cases hbig : f.1.length > budget total limit 0
    · rw [if_pos hbig, if_pos hbig]
      exact .error (Placed.refl _ a)
    rw [if_neg hbig, if_neg hbig, if_neg Bool.false_ne_true]
    obtain ⟨hn, hnw, hnt⟩ := append_spec a f.1 (Nat.not_lt.mp hbig)
    exact valueLineInto_spec rest hnw hnt (Nat.not_lt.mp hbig) hn

/-- Two branches on one condition. -/
theorem ite_rel {α β : Type} {R : α → β → Prop} {c : Prop} [Decidable c] {x y : α} {x' y' : β}
    (h : R x x') (h' : R y y') : R (if c then x else y) (if c then x' else y') := by
  split
  · exact h
  · exact h'

/-- `readLineInto`, by representation. -/
def lineReaderInto (d : Decoder) (required base total maxListSize : Nat) (a : Arena) :
    LineReader (Except Result ((View × View) × Origin × Bytes) × Arena) where
  refused := (.error .malformed, a)
  static f rest := (.ok ((.static f.1, .static f.2), { staticTable := true }, rest), a)
  staticName name rest :=
    if name.length > budget total maxListSize 0 then (.error .tooLarge, a)
    else valueLineInto (.static name) total maxListSize rest a
  relative i rest :=
    if i ≥ base then (.error .malformed, a)
    else d.dynamicLineInto (base - 1 - i) total maxListSize rest a
  relativeName i rest :=
    if i ≥ base then (.error .malformed, a)
    else d.dynamicNameLineInto (base - 1 - i) total maxListSize rest a
  literal line :=
    match prefixedStringInto 3 0x08 (budget total maxListSize 0) line a with
    | (.error e, a') => (.error (ofStr e), a')
    | (.ok (name, rest), a') => valueLineInto name total maxListSize rest a'
  postBase i rest :=
    if base + i ≥ required then (.error .malformed, a)
    else d.dynamicLineInto (base + i) total maxListSize rest a
  postBaseName i rest :=
    if base + i ≥ required then (.error .malformed, a)
    else d.dynamicNameLineInto (base + i) total maxListSize rest a

/-- One line: what `readLine` reads, placed within what is left of the limit. -/
theorem readLineInto_spec (required base total limit : Nat) (bs : Bytes) (a : Arena) :
    FieldInto (limit - total) a (d.readLine required base total limit bs)
      (d.readLineInto required base total limit bs a) := by
  have hinto : d.readLineInto required base total limit bs a =
      (d.lineReaderInto required base total limit a).read bs := by
    cases bs <;> rfl
  rw [readLine_eq, hinto]
  have hnone : ∀ e : Result, FieldInto (limit - total) a
      (.error e : Except Result (Field × Origin × Bytes)) (.error e, a) :=
    fun e => .error (Placed.refl _ a)
  have hplaced : ∀ room, Placed room 0 a a := fun room => Placed.refl room a
  refine LineReader.Rel.read ⟨hnone _, ?_, ?_, ?_, ?_, ?_, ?_, ?_⟩ bs
  · intro f rest
    exact .ok trivial trivial rfl ((hplaced _).mono le_rfl (Nat.zero_le _))
  · intro name rest
    dsimp only [lineReader, lineReaderInto]
    split
    · exact hnone _
    next hfit =>
      exact valueLineInto_spec rest trivial rfl (Nat.not_lt.mp hfit)
        ((hplaced _).mono le_rfl (Nat.zero_le _))
  · exact fun i rest => ite_rel (hnone _) (dynamicLineInto_spec d _ total limit rest a)
  · exact fun i rest => ite_rel (hnone _) (dynamicNameLineInto_spec d _ total limit rest a)
  · intro line
    have hname := prefixedStringInto_spec 3 0x08 (budget total limit 0) line a
    dsimp only [lineReader, lineReaderInto]
    generalize prefixedString 3 0x08 (budget total limit 0) line = plain at hname ⊢
    generalize prefixedStringInto 3 0x08 (budget total limit 0) line a = into at hname ⊢
    cases hname with
    | error h =>
      refine .error (h.mono ?_ (Nat.le_refl 0))
      rw [budget_eq]
      omega
    | ok hw ht hs h => exact valueLineInto_spec _ hw ht hs h
  · exact fun i rest => ite_rel (hnone _) (dynamicLineInto_spec d _ total limit rest a)
  · exact fun i rest => ite_rel (hnone _) (dynamicNameLineInto_spec d _ total limit rest a)

/-- What a decode leaves beside the plain decoder's answer. -/
structure Bounded (size₀ maxListSize : Nat) (result : Result) (fields : List Reported) (r : Into) :
    Prop where
  result : r.result = result
  fields : r.fields = fields
  peak : r.arena.peak ≤ size₀ + maxListSize
  shown : r.views.map (shown r.arena.content) = r.fields.map Prod.fst

theorem decodeLoopInto_spec (required base : Nat) {size₀ : Nat}
    (sink : List Reported → Bool) (fuel : Nat) {out : List Reported}
    {views : List (View × View)} (bs : Bytes) {a : Arena}
    (h : ListInto size₀ limit total a (out.map Prod.fst) views) :
    Bounded size₀ limit (d.decodeLoop required base limit sink fuel total out bs).1
      (d.decodeLoop required base limit sink fuel total out bs).2
      (d.decodeLoopInto required base limit sink fuel total out views bs a) := by
  induction fuel generalizing total out views bs a with
  | zero => exact ⟨rfl, rfl, h.peak, h.same⟩
  | succ fuel ih =>
    unfold decodeLoop decodeLoopInto
    by_cases hnil : bs.length = 0
    · rw [if_pos hnil, if_pos hnil]
      exact ⟨rfl, rfl, h.peak, h.same⟩
    rw [if_neg hnil, if_neg hnil]
    have hline := readLineInto_spec d required base total limit bs a
    generalize d.readLine required base total limit bs = plain at hline ⊢
    generalize d.readLineInto required base total limit bs a = into at hline ⊢
    cases hline with
    | error hp =>
      obtain ⟨hpeak, hsame, -⟩ := h.placed hp
      exact ⟨rfl, rfl, hpeak, hsame⟩
    | @ok v f x a' h₁ h₂ hf hp =>
      dsimp only
      rw [hf]
      by_cases hover : total + (f.1.length + f.2.length + 32) > limit
      · rw [if_pos hover, if_pos hover]
        obtain ⟨hpeak, hsame, -⟩ := h.placed hp
        exact ⟨rfl, rfl, hpeak, hsame⟩
      · rw [if_neg hover, if_neg hover]
        have hsnoc := h.snoc hp h₁ h₂ hf (Nat.not_lt.mp hover)
        have hout : (out ++ [(f, x.1)]).map Prod.fst = out.map Prod.fst ++ [f] := by
          rw [List.map_append]
          rfl
        rw [← hout] at hsnoc
        by_cases hstop : (!sink (out ++ [(f, x.1)])) = true
        · rw [if_pos hstop, if_pos hstop]
          exact ⟨rfl, rfl, hsnoc.peak, hsnoc.same⟩
        rw [if_neg hstop, if_neg hstop]
        exact ih x.2 hsnoc

/-- **The arena of a section.** -/
theorem decodeInto_spec (section_ : Bytes) (limit : Nat) (sink : List Reported → Bool) (content : Bytes) :
    Bounded content.length limit (d.decode section_ limit sink).result (d.decode section_ limit sink).fields
      (d.decodeInto section_ limit sink content) := by
  have hstart := ListInto.nil content limit
  unfold decode decodeInto
  cases d.readPrefix section_ with
  | none => exact ⟨rfl, rfl, hstart.peak, rfl⟩
  | some x =>
    dsimp only
    by_cases hblocked : x.1 > d.insertCount
    · rw [if_pos hblocked, if_pos hblocked]
      exact ⟨rfl, rfl, hstart.peak, rfl⟩
    rw [if_neg hblocked, if_neg hblocked]
    exact decodeLoopInto_spec d x.1 x.2.1 sink x.2.2.length x.2.2 hstart

/-! ## §3. The list without a limit. -/

/-- A field line: what it decodes to, and how many bytes of a dynamic entry it copies. -/
structure Line where
  field : Field
  origin : Origin := {}
  copied : Nat := 0
  deriving DecidableEq

def Line.reported (l : Line) : Reported := (l.field, l.origin)

/-- A value behind its name. -/
def freeValue (name : Bytes) (copied : Nat) (rest : Bytes) : Option (Line × Bytes) :=
  match freeString 7 0x80 rest with
  | none => none
  | some (value, rest') => some ({ field := (name, value), copied := copied }, rest')

/-- An indexed line with a dynamic entry. -/
def freeDynamic (d : Decoder) (abs : Nat) (rest : Bytes) : Option (Line × Bytes) :=
  match d.entry abs with
  | none => none
  | some f =>
    some ({ field := f, origin := { checked := some abs }, copied := f.1.length + f.2.length }, rest)

/-- A literal line with the name of a dynamic entry. -/
def freeDynamicName (d : Decoder) (abs : Nat) (rest : Bytes) : Option (Line × Bytes) :=
  match d.entry abs with
  | none => none
  | some f => freeValue f.1 f.1.length rest

/-- A field line (RFC 9204 4.5), however large its field. -/
def freeLine (d : Decoder) (required base : Nat) : Bytes → Option (Line × Bytes)
  | [] => none
  | b :: bs =>
    if b &&& 0x80 ≠ 0 then
      match readInteger 6 (b :: bs) with
      | none => none
      | some (index, rest) =>
        if b &&& 0x40 ≠ 0 then
          match kStaticTable[index]? with
          | none => none
          | some f => some ({ field := f, origin := { staticTable := true } }, rest)
        else if index ≥ base then none
        else d.freeDynamic (base - 1 - index) rest
    else if b &&& 0x40 ≠ 0 then
      match readInteger 4 (b :: bs) with
      | none => none
      | some (index, rest) =>
        if b &&& 0x10 ≠ 0 then
          match kStaticTable[index]? with
          | none => none
          | some f => freeValue f.1 0 rest
        else if index ≥ base then none
        else d.freeDynamicName (base - 1 - index) rest
    else if b &&& 0x20 ≠ 0 then
      match freeString 3 0x08 (b :: bs) with
      | none => none
      | some (name, rest) => freeValue name 0 rest
    else if b &&& 0x10 ≠ 0 then
      match readInteger 4 (b :: bs) with
      | none => none
      | some (index, rest) =>
        if base + index ≥ required then none else d.freeDynamic (base + index) rest
    else
      match readInteger 3 (b :: bs) with
      | none => none
      | some (index, rest) =>
        if base + index ≥ required then none else d.freeDynamicName (base + index) rest

/-- The lines of a section up to its end, or up to the one the sink stops at; none when the section
    is malformed before. -/
def listedLoop (d : Decoder) (required base : Nat) (sink : List Reported → Bool) :
    Nat → List Line → Bytes → Option (List Line)
  | 0, out, _ => some out
  | fuel + 1, out, bs =>
    if bs.length = 0 then some out
    else
      match d.freeLine required base bs with
      | none => none
      | some (l, rest) =>
        if !sink ((out ++ [l]).map Line.reported) then some (out ++ [l])
        else listedLoop d required base sink fuel (out ++ [l]) rest

/-- The list a section decodes to, if it can be decoded now. -/
def listed (d : Decoder) (section_ : Bytes) (sink : List Reported → Bool) : Option (List Line) :=
  match d.readPrefix section_ with
  | none => none
  | some (required, base, lines) =>
    if required > d.insertCount then none
    else d.listedLoop required base sink lines.length [] lines

/-- The size of a list of lines. -/
def lineSize (ls : List Line) : Nat := listSize (ls.map Line.field)

/-- The line that takes the list over its limit, and the size before it. -/
def firstOver (maxListSize : Nat) : Nat → List Line → Option (Nat × Line)
  | _, [] => none
  | total, l :: ls =>
    if total + fieldSize l.field > maxListSize then some (total, l)
    else firstOver maxListSize (total + fieldSize l.field) ls

/-! ## §4. The limit. -/

/-- What a limit does to a line: nothing, or it refuses a field that does not fit.  The bytes of a
    dynamic entry that do not fit are reported as malformed. -/
inductive LineLimited (total maxListSize : Nat) :
    Option (Line × Bytes) → Except Result (Field × Origin × Bytes) → Prop where
  | refused {e : Result} (h : e = .malformed ∨ e = .tooLarge) :
      LineLimited total maxListSize none (.error e)
  | read {l : Line} {rest : Bytes} (h : l.copied ≤ budget total maxListSize 0) :
      LineLimited total maxListSize (some (l, rest)) (.ok (l.field, l.origin, rest))
  | tooLarge {l : Line} {rest : Bytes} (h : l.copied ≤ budget total maxListSize 0)
      (hover : maxListSize < total + fieldSize l.field) :
      LineLimited total maxListSize (some (l, rest)) (.error .tooLarge)
  | copied {l : Line} {rest : Bytes} (h : budget total maxListSize 0 < l.copied)
      (hover : maxListSize < total + fieldSize l.field) :
      LineLimited total maxListSize (some (l, rest)) (.error .malformed)

theorem ofStr_eq (e : StrStatus) : ofStr e = .malformed ∨ ofStr e = .tooLarge := by
  cases e with
  | malformed => exact .inl rfl
  | incomplete => exact .inl rfl
  | tooLarge => exact .inr rfl

theorem valueLine_limited {copied : Nat} (rest : Bytes) (hc : copied ≤ budget total limit 0) :
    LineLimited total limit (freeValue name copied rest) (valueLine name total limit rest) := by
  unfold freeValue valueLine
  cases hfree : freeString 7 0x80 rest with
  | none =>
    cases hr : prefixedString 7 0x80 (budget total limit name.length) rest with
    | error e => exact .refused (ofStr_eq e)
    | ok r =>
      rw [freeString_of_ok hr] at hfree
      simp at hfree
  | some x =>
    obtain ⟨value, rest'⟩ := x
    rw [prefixedString_free hfree]
    by_cases hfit : value.length ≤ budget total limit name.length
    · rw [if_pos hfit]
      exact .read hc
    rw [if_neg hfit]
    refine .tooLarge hc ?_
    rw [budget_eq] at hfit
    show limit < total + (name.length + value.length + 32)
    omega

/-- A name that does not fit takes the list over the limit, whatever its value. -/
theorem name_limited (rest : Bytes) (h : budget total limit 0 < name.length) :
    LineLimited total limit (freeValue name 0 rest) (.error .tooLarge) := by
  unfold freeValue
  cases freeString 7 0x80 rest with
  | none => exact .refused (.inr rfl)
  | some x =>
    refine .tooLarge (Nat.zero_le _) ?_
    rw [budget_eq] at h
    show limit < total + (name.length + x.1.length + 32)
    omega

theorem dynamicLine_limited (abs total limit : Nat) (rest : Bytes) :
    LineLimited total limit (d.freeDynamic abs rest) (d.dynamicLine abs total limit rest) := by
  unfold freeDynamic dynamicLine dynamic
  cases d.entry abs with
  | none => exact .refused (.inl rfl)
  | some f =>
    dsimp only
    rw [if_pos rfl]
    by_cases hbig : f.1.length + f.2.length > budget total limit 0
    · rw [if_pos hbig]
      refine .copied hbig ?_
      rw [budget_eq] at hbig
      show limit < total + (f.1.length + f.2.length + 32)
      omega
    · rw [if_neg hbig]
      exact .read (l := ⟨f, { checked := some abs }, f.1.length + f.2.length⟩) (Nat.not_lt.mp hbig)

theorem dynamicNameLine_limited (abs total limit : Nat) (rest : Bytes) :
    LineLimited total limit (d.freeDynamicName abs rest) (d.dynamicNameLine abs total limit rest) := by
  unfold freeDynamicName dynamicNameLine dynamic
  cases d.entry abs with
  | none => exact .refused (.inl rfl)
  | some f =>
    dsimp only
    rw [if_neg Bool.false_ne_true, Nat.add_zero]
    by_cases hbig : f.1.length > budget total limit 0
    · rw [if_pos hbig]
      unfold freeValue
      cases freeString 7 0x80 rest with
      | none => exact .refused (.inl rfl)
      | some x =>
        refine .copied hbig ?_
        rw [budget_eq] at hbig
        show limit < total + (f.1.length + x.1.length + 32)
        omega
    · rw [if_neg hbig]
      exact valueLine_limited rest (Nat.not_lt.mp hbig)

/-- `freeLine`, by representation. -/
def freeReader (d : Decoder) (required base : Nat) : LineReader (Option (Line × Bytes)) where
  refused := none
  static f rest := some ({ field := f, origin := { staticTable := true } }, rest)
  staticName name rest := freeValue name 0 rest
  relative i rest := if i ≥ base then none else d.freeDynamic (base - 1 - i) rest
  relativeName i rest := if i ≥ base then none else d.freeDynamicName (base - 1 - i) rest
  literal line :=
    match freeString 3 0x08 line with
    | none => none
    | some (name, rest) => freeValue name 0 rest
  postBase i rest := if base + i ≥ required then none else d.freeDynamic (base + i) rest
  postBaseName i rest := if base + i ≥ required then none else d.freeDynamicName (base + i) rest

theorem readLine_limited (required base total limit : Nat) (bs : Bytes) :
    LineLimited total limit (d.freeLine required base bs) (d.readLine required base total limit bs) := by
  have hfree : d.freeLine required base bs = (d.freeReader required base).read bs := by
    cases bs <;> rfl
  rw [readLine_eq, hfree]
  have hnone : LineLimited total limit none (.error .malformed) := .refused (.inl rfl)
  refine LineReader.Rel.read ⟨hnone, ?_, ?_, ?_, ?_, ?_, ?_, ?_⟩ bs
  · exact fun f rest => .read (l := ⟨f, { staticTable := true }, 0⟩) (Nat.zero_le _)
  · intro name rest
    dsimp only [freeReader, lineReader]
    split
    next hbig => exact name_limited rest hbig
    next hfit => exact valueLine_limited rest (Nat.zero_le _)
  · exact fun i rest => ite_rel hnone (dynamicLine_limited d _ total limit rest)
  · exact fun i rest => ite_rel hnone (dynamicNameLine_limited d _ total limit rest)
  · intro line
    dsimp only [freeReader, lineReader]
    cases hfree : freeString 3 0x08 line with
    | none =>
      cases hr : prefixedString 3 0x08 (budget total limit 0) line with
      | error e => exact .refused (ofStr_eq e)
      | ok r =>
        rw [freeString_of_ok hr] at hfree
        simp at hfree
    | some x =>
      obtain ⟨name, rest⟩ := x
      rw [prefixedString_free hfree]
      by_cases hfit : name.length ≤ budget total limit 0
      · rw [if_pos hfit]
        exact valueLine_limited rest (Nat.zero_le _)
      rw [if_neg hfit]
      exact name_limited rest (Nat.not_le.mp hfit)
  · exact fun i rest => ite_rel hnone (dynamicLine_limited d _ total limit rest)
  · exact fun i rest => ite_rel hnone (dynamicNameLine_limited d _ total limit rest)

theorem lineSize_snoc (ls : List Line) (l : Line) :
    lineSize (ls ++ [l]) = lineSize ls + fieldSize l.field := by
  unfold lineSize
  rw [List.map_append, listSize_append, List.map_singleton, listSize_singleton]

theorem lineSize_append (ls ls' : List Line) : lineSize (ls ++ ls') = lineSize ls + lineSize ls' := by
  unfold lineSize
  rw [List.map_append, listSize_append]

theorem firstOver_none {ls : List Line} (h : total ≤ limit) :
    firstOver limit total ls = none ↔ total + lineSize ls ≤ limit := by
  induction ls generalizing total with
  | nil => exact iff_of_true rfl h
  | cons l ls ih =>
    have hcons : lineSize (l :: ls) = fieldSize l.field + lineSize ls := lineSize_append [l] ls
    rw [hcons]
    unfold firstOver
    by_cases hover : total + fieldSize l.field > limit
    · rw [if_pos hover]
      exact iff_of_false (by simp) (by omega)
    · rw [if_neg hover, ih (by omega), Nat.add_assoc]

/-- The verdict the loop comes to, by the line that takes the list over the limit. -/
def verdict (maxListSize : Nat) : Option (Nat × Line) → Result
  | none => .ok
  | some (total, l) => if budget total maxListSize 0 < l.copied then .malformed else .tooLarge

theorem listedLoop_extends (required base : Nat) (sink : List Reported → Bool)
    (fuel : Nat) {out lines : List Line}
    (h : d.listedLoop required base sink fuel out bs = some lines) : ∃ more, lines = out ++ more := by
  induction fuel generalizing out bs with
  | zero =>
    cases h
    exact ⟨[], (List.append_nil _).symm⟩
  | succ fuel ih =>
    unfold listedLoop at h
    split at h
    · cases h
      exact ⟨[], (List.append_nil _).symm⟩
    split at h
    · simp at h
    next l rest _ =>
      split at h
      · cases h
        exact ⟨[l], rfl⟩
      obtain ⟨more, rfl⟩ := ih h
      exact ⟨l :: more, by rw [List.append_assoc]; rfl⟩

/-- The loop under a limit against the list without one. -/
theorem decodeLoop_limit (required base limit : Nat) (sink : List Reported → Bool)
    (fuel : Nat) (out : List Line) {more : List Line} (hsize : lineSize out ≤ limit)
    (h : d.listedLoop required base sink fuel out bs = some (out ++ more)) :
    let r := d.decodeLoop required base limit sink fuel (lineSize out) (out.map Line.reported) bs
    r.1 = verdict limit (firstOver limit (lineSize out) more) ∧
      (firstOver limit (lineSize out) more = none → r.2 = (out ++ more).map Line.reported) := by
  -- over the lines read, all of which fit
  induction fuel generalizing out more bs with
  | zero =>
    obtain rfl : more = [] := List.self_eq_append_right.mp (Option.some.inj h)
    rw [List.append_nil]
    exact ⟨rfl, fun _ => rfl⟩
  | succ fuel ih =>
    unfold listedLoop at h
    unfold decodeLoop
    by_cases hnil : bs.length = 0
    · rw [if_pos hnil] at h ⊢
      obtain rfl : more = [] := List.self_eq_append_right.mp (Option.some.inj h)
      rw [List.append_nil]
      exact ⟨rfl, fun _ => rfl⟩
    · rw [if_neg hnil] at h ⊢
      have hlimited := readLine_limited d required base (lineSize out) limit bs
      generalize d.readLine required base (lineSize out) limit bs = got at hlimited ⊢
      cases hfree : d.freeLine required base bs with
      | none =>
        rw [hfree] at h
        simp at h
      | some x =>
        obtain ⟨l, rest⟩ := x
        rw [hfree] at h hlimited
        dsimp only at h
        -- the list goes on with this line
        obtain ⟨tail, rfl⟩ : ∃ tail, more = l :: tail := by
          split at h
          · have hmore := List.append_cancel_left (Option.some.inj h)
            exact ⟨[], hmore.symm⟩
          obtain ⟨tail, htail⟩ := listedLoop_extends d required base sink fuel h
          rw [List.append_assoc] at htail
          exact ⟨tail, List.append_cancel_left htail⟩
        unfold firstOver
        cases hlimited with
        | tooLarge hc hover =>
          rw [if_pos hover]
          refine ⟨?_, nofun⟩
          show Result.tooLarge = if budget (lineSize out) limit 0 < l.copied then _ else _
          rw [if_neg (Nat.not_lt.mpr hc)]
        | copied hc hover =>
          rw [if_pos hover]
          refine ⟨?_, nofun⟩
          show Result.malformed = if budget (lineSize out) limit 0 < l.copied then _ else _
          rw [if_pos hc]
        | read hc =>
          dsimp only
          have htotal : lineSize out + (l.field.1.length + l.field.2.length + 32) =
              lineSize (out ++ [l]) := (lineSize_snoc out l).symm
          have hout : out.map Line.reported ++ [(l.field, l.origin)] =
              (out ++ [l]).map Line.reported := by
            rw [List.map_append]
            rfl
          rw [htotal, hout, ← lineSize_snoc]
          by_cases hover : lineSize (out ++ [l]) > limit
          · rw [if_pos hover, if_pos hover]
            refine ⟨?_, nofun⟩
            show Result.tooLarge = if budget (lineSize out) limit 0 < l.copied then _ else _
            rw [if_neg (Nat.not_lt.mpr hc)]
          · rw [if_neg hover, if_neg hover]
            by_cases hstop : (!sink ((out ++ [l]).map Line.reported)) = true
            · rw [if_pos hstop] at h ⊢
              obtain rfl : tail = [] := by
                have hmore := List.append_cancel_left (Option.some.inj h)
                exact (List.cons.inj hmore).2.symm
              exact ⟨rfl, fun _ => rfl⟩
            · rw [if_neg hstop] at h ⊢
              have happend : out ++ l :: tail = out ++ [l] ++ tail := List.append_cons out l tail
              rw [happend] at h ⊢
              exact ih (out ++ [l]) (Nat.not_lt.mp hover) h

/-- **The verdict on a section**, and the fields of one that is decoded. -/
theorem decode_limit (section_ : Bytes) (limit : Nat) (sink : List Reported → Bool) :
    ∀ lines, d.listed section_ sink = some lines →
      (d.decode section_ limit sink).result = verdict limit (firstOver limit 0 lines) ∧
        (lineSize lines ≤ limit → (d.decode section_ limit sink).fields = lines.map Line.reported) := by
  unfold listed decode
  cases d.readPrefix section_ with
  | none => exact fun _ h => absurd h (by simp)
  | some x =>
    dsimp only
    by_cases hblocked : x.1 > d.insertCount
    · rw [if_pos hblocked, if_pos hblocked]
      exact fun _ h => absurd h (by simp)
    rw [if_neg hblocked, if_neg hblocked]
    intro lines h
    have hnil : lineSize [] ≤ limit := Nat.zero_le _
    obtain ⟨hres, hfields⟩ :=
      decodeLoop_limit d x.1 x.2.1 limit sink x.2.2.length [] hnil h
    refine ⟨hres, ?_⟩
    intro hle
    refine hfields ((firstOver_none hnil).mpr ?_)
    rwa [show lineSize [] = 0 from rfl, Nat.zero_add]

/-! ## §5. Blocks and sections. -/

/-- The verdict goes by the size of the list: a section that decodes to a list is reported with it
    or as too large. -/
def SizeDecides (d : Decoder) (section_ : Bytes) (maxListSize : Nat) (sink : List Reported → Bool) :
    Prop :=
  ∀ lines, d.listed section_ sink = some lines →
    (d.decode section_ maxListSize sink).result =
      if lineSize lines ≤ maxListSize then .ok else .tooLarge

/-- The line that takes the list over the limit copies more bytes of a dynamic entry than are left:
    the name and value of an indexed line, the name of a reference. -/
def Overcopies (d : Decoder) (section_ : Bytes) (maxListSize : Nat) (sink : List Reported → Bool) :
    Prop :=
  ∃ lines total l, d.listed section_ sink = some lines ∧
    firstOver maxListSize 0 lines = some (total, l) ∧ budget total maxListSize 0 < l.copied

theorem sizeDecides_iff (section_ : Bytes) (limit : Nat) (sink : List Reported → Bool) :
    d.SizeDecides section_ limit sink ↔ ¬ d.Overcopies section_ limit sink := by
  have hlimit := decode_limit d section_ limit sink
  constructor
  · rintro h ⟨lines, total, l, hlisted, hover, hcopied⟩
    have hres := (hlimit lines hlisted).1
    rw [hover, h lines hlisted] at hres
    unfold verdict at hres
    dsimp only at hres
    rw [if_pos hcopied] at hres
    split at hres
    · simp at hres
    · simp at hres
  · intro h lines hlisted
    rw [(hlimit lines hlisted).1]
    have hnone : firstOver limit 0 lines = none ↔ 0 + lineSize lines ≤ limit :=
      firstOver_none (Nat.zero_le limit)
    rw [Nat.zero_add] at hnone
    cases hover : firstOver limit 0 lines with
    | none =>
      rw [if_pos (hnone.mp hover)]
      rfl
    | some x =>
      obtain ⟨total, l⟩ := x
      have hlarge : ¬ lineSize lines ≤ limit := by
        intro hle
        rw [hnone.mpr hle] at hover
        simp at hover
      have hfits : ¬ budget total limit 0 < l.copied :=
        fun hc => h ⟨lines, total, l, hlisted, hover, hc⟩
      rw [if_neg hlarge]
      show (if budget total limit 0 < l.copied then Result.malformed else .tooLarge) = _
      rw [if_neg hfits]

/-- **Decoded lists in their arena.**  A block or a section places at most `max_list_size` bytes in
    the arena at any time, so within the `max_list_size + 64` reserved for it every view still
    shows at the end what the sink was given.  A block's list is reported by its size alone; a
    section's is if and only if no dynamic entry is copied over the limit. -/
theorem decoded_in_arena (p : Hpack.Decoder) (block : Bytes) (sinkFields : List Field → Bool)
    (d : Decoder) (section_ : Bytes) (sink : List Reported → Bool) (limit : Nat) (content : Bytes) :
    Hpack.Decoder.Bounded content.length limit (p.decode block limit sinkFields)
        (p.decodeInto block limit sinkFields content) ∧ (∀ x, p.listed block sinkFields = some x →
        (listSize x.2.2 ≤ limit → p.decode block limit sinkFields = x) ∧ (limit < listSize x.2.2 →
            (p.decode block limit sinkFields).2.1 = .tooLarge)) ∧
      Bounded content.length limit (d.decode section_ limit sink).result (d.decode section_ limit sink).fields
        (d.decodeInto section_ limit sink content) ∧
      (d.SizeDecides section_ limit sink ↔ ¬ d.Overcopies section_ limit sink) :=
  ⟨Hpack.Decoder.decodeInto_spec p block limit sinkFields content,
    Hpack.Decoder.decode_limit p block limit sinkFields, decodeInto_spec d section_ limit sink content,
    sizeDecides_iff d section_ limit sink⟩

/-- The decoder after the entry `a: b` was inserted. -/
def oneEntry : Decoder :=
  { Decoder.new 4096 with
    table := (((Decoder.new 4096).table.setLimit 220).add (bytes "a") (bytes "b")).2
    insertCount := 1 }

/-- A section that references it, under a limit one byte too small: malformed. -/
theorem entry_over_limit : (Decoder.new 4096).encoderStream [0x3f, 0xbd, 0x01, 0x41, 0x61, 0x01, 0x62] =
        some (oneEntry, []) ∧ (oneEntry.decode [0x02, 0x00, 0x80] 34 fun _ => true).result = .ok ∧
      (oneEntry.decode [0x02, 0x00, 0x80] 33 fun _ => true).result = .malformed ∧
      ¬ oneEntry.SizeDecides [0x02, 0x00, 0x80] 33 fun _ => true := by
  have hresult : (oneEntry.decode [0x02, 0x00, 0x80] 33 fun _ => true).result = .malformed := by
    decide +kernel
  have hlisted : oneEntry.listed [0x02, 0x00, 0x80] (fun _ => true) =
      some [⟨(bytes "a", bytes "b"), { checked := some 0 }, 2⟩] := by
    decide +kernel
  refine ⟨by decide +kernel, by decide +kernel, hresult, ?_⟩
  intro h
  have hmeasure := h _ hlisted
  rw [hresult] at hmeasure
  split at hmeasure
  · simp at hmeasure
  · simp at hmeasure

end Agensio.Qpack.Decoder
