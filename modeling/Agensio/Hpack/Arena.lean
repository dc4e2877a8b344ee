/-
  Agensio.Hpack.Arena — the arena and the limit of an HPACK block.

  `Decoder::decode` of `http2/hpack.cpp` once more, with the arena its
  strings go to and the views the sink is given: dynamic entries are
  copied, static ones are not, literals are decoded in place.

  Main results:
    * `decodeInto_spec` — the views show what the decoder of
      `Agensio.Hpack.Decoder` reports, the arena never holds more than
      `max_list_size` bytes beside what was in it;
    * `decode_limit` — a list the block decodes to is reported as it is,
      or as too large, by its size alone.
-/
import Agensio.Codec.Arena
import Agensio.Hpack.Decoder

namespace Agensio.Hpack.Decoder

open Agensio.Lib Agensio.Codec

/-! ## §1. The model. -/

/-- `read_string` with its arena. -/
def readStringInto (in_ : Bytes) (maxOut : Nat) (a : Arena) : Except Result (View × Bytes) × Arena :=
  match prefixedStringInto 7 0x80 maxOut in_ a with
  | (.ok r, a') => (.ok r, a')
  | (.error .tooLarge, a') => (.error .tooLarge, a')
  | (.error _, a') => (.error .malformed, a')

/-- `copy_in` for the string of an entry: only a dynamic entry can be evicted. -/
def copyIn (index : Nat) (s : Bytes) (a : Arena) : View × Arena :=
  if index > kStaticTable.length then a.append s else (.static s, a)

/-- `literalName` with the arena. -/
def literalNameInto (d : Decoder) (maxListSize total prefixBits : Nat) (in_ : Bytes) (a : Arena) :
    Except Result (View × Bytes) × Arena :=
  match readInteger prefixBits in_ with
  | none => (.error .malformed, a)
  | some (index, rest) =>
    if index = 0 then readStringInto rest (budget maxListSize total 0) a
    else
      match d.lookup index with
      | none => (.error .malformed, a)
      | some (name, _) =>
        if name.length > budget maxListSize total 0 then (.error .tooLarge, a)
        else (.ok ((copyIn index name a).1, rest), (copyIn index name a).2)

/-- `literalValue` with the arena. -/
def literalValueInto (maxListSize total : Nat) (name : View) (in_ : Bytes) (a : Arena) :
    Except Result ((View × View) × Bytes) × Arena :=
  match readStringInto in_ (budget maxListSize total name.size) a with
  | (.error e, a') => (.error e, a')
  | (.ok (value, rest), a') => (.ok ((name, value), rest), a')

/-- 6.2. -/
def literalInto (d : Decoder) (maxListSize total prefixBits : Nat) (in_ : Bytes) (a : Arena) :
    Except Result ((View × View) × Bytes) × Arena :=
  match d.literalNameInto maxListSize total prefixBits in_ a with
  | (.error e, a') => (.error e, a')
  | (.ok (name, rest), a') => literalValueInto maxListSize total name rest a'

/-- 6.1. -/
def indexedInto (d : Decoder) (maxListSize total : Nat) (in_ : Bytes) (a : Arena) :
    Except Result ((View × View) × Bytes) × Arena :=
  match readInteger 7 in_ with
  | none => (.error .malformed, a)
  | some (index, rest) =>
    match d.lookup index with
    | none => (.error .malformed, a)
    | some f =>
      if fieldSize f > maxListSize - min total maxListSize then (.error .tooLarge, a)
      else
        let name := copyIn index f.1 a
        let value := copyIn index f.2 name.2
        (.ok ((name.1, value.1), rest), value.2)

/-- A representation that is a field, and the decoder behind it. -/
def withFieldInto (next : Field → Decoder) :
    Except Result ((View × View) × Bytes) × Arena →
      Except Result (Decoder × Option (View × View) × Bytes) × Arena
  | (.error e, a) => (.error e, a)
  | (.ok (v, rest), a) => (.ok (next (shown a.content v), some v, rest), a)

/-- One round of the loop of `decode`. -/
def nextFieldInto (d : Decoder) (maxListSize total : Nat) (started : Bool) (bs : Bytes) (a : Arena) :
    Except Result (Decoder × Option (View × View) × Bytes) × Arena :=
  match bs with
  | [] => (.error .malformed, a)
  | b :: bs =>
    if b &&& 0x80 ≠ 0 then
      withFieldInto (fun _ => d) (d.indexedInto maxListSize total (b :: bs) a)
    else if b &&& 0x40 ≠ 0 then
      withFieldInto (fun f => { d with table := (d.table.add f.1 f.2).2 })
        (d.literalInto maxListSize total 6 (b :: bs) a)
    else if b &&& 0x20 ≠ 0 then
      if started then (.error .malformed, a)
      else
        match d.sizeUpdate (b :: bs) with
        | .error e => (.error e, a)
        | .ok (d', rest) => (.ok (d', none, rest), a)
    else withFieldInto (fun _ => d) (d.literalInto maxListSize total 4 (b :: bs) a)

/-- What `decode` leaves: beside the decoder, the result and the fields as the sink saw them, the
    views it was given and the arena. -/
structure Into where
  decoder : Decoder
  result : Result
  fields : List Field
  views : List (View × View)
  arena : Arena

/-- The loop of `decode`. -/
def decodeLoopInto (maxListSize : Nat) (sink : List Field → Bool) :
    Nat → Decoder → Nat → List Field → List (View × View) → Bytes → Arena → Into
  | _, d, _, fields, views, [], a => ⟨d, .ok, fields, views, a⟩
  | 0, d, _, fields, views, _ :: _, a => ⟨d, .malformed, fields, views, a⟩
  | fuel + 1, d, total, fields, views, b :: bs, a =>
    match d.nextFieldInto maxListSize total (!fields.isEmpty) (b :: bs) a with
    | (.error e, a') => ⟨d, e, fields, views, a'⟩
    | (.ok (d', none, rest), a') =>
      decodeLoopInto maxListSize sink fuel d' total fields views rest a'
    | (.ok (d', some v, rest), a') =>
      let f := shown a'.content v
      if total + fieldSize f > maxListSize then ⟨d', .tooLarge, fields, views, a'⟩
      else if !sink (fields ++ [f]) then ⟨d', .tooMany, fields ++ [f], views ++ [v], a'⟩
      else decodeLoopInto maxListSize sink fuel d' (total + fieldSize f) (fields ++ [f])
        (views ++ [v]) rest a'

/-- `decode` with the caller's arena. -/
def decodeInto (d : Decoder) (block : Bytes) (maxListSize : Nat) (sink : List Field → Bool)
    (content : Bytes) : Into :=
  decodeLoopInto maxListSize sink block.length d 0 [] [] block (Arena.start content)

/-! ## §2. The arena. -/

theorem readStringInto_spec (in_ : Bytes) (maxOut : Nat) (a : Arena) :
    StringInto maxOut a (readString in_ maxOut) (readStringInto in_ maxOut a) := by
  have hspec := prefixedStringInto_spec 7 0x80 maxOut in_ a
  unfold readString readStringInto
  generalize prefixedString 7 0x80 maxOut in_ = plain at hspec ⊢
  generalize prefixedStringInto 7 0x80 maxOut in_ a = into at hspec ⊢
  cases hspec with
  | @error e a' h =>
    cases e with
    | tooLarge => exact .error h
    | malformed => exact .error h
    | incomplete => exact .error h
  | ok hw ht hs h => exact .ok hw ht hs h

theorem copyIn_spec (index : Nat) (s : Bytes) (a : Arena) {room : Nat} (hs : s.length ≤ room) :
    Placed room s.length a (copyIn index s a).2 ∧ (copyIn index s a).1.Within (copyIn index s a).2.content ∧
      (copyIn index s a).1.text (copyIn index s a).2.content = s := by
  unfold copyIn
  by_cases hdyn : index > kStaticTable.length
  · rw [if_pos hdyn]
    exact append_spec a s hs
  rw [if_neg hdyn]
  exact ⟨(Placed.refl room a).mono le_rfl (Nat.zero_le _), trivial, rfl⟩

variable (d : Decoder)

theorem literalNameInto_spec (limit total prefixBits : Nat) (in_ : Bytes) (a : Arena) :
    StringInto (budget limit total 0) a (d.literalName limit total prefixBits in_)
      (d.literalNameInto limit total prefixBits in_ a) := by
  have hnone := (Placed.refl 0 a).mono (Nat.zero_le (budget limit total 0)) (Nat.le_refl 0)
  unfold literalName literalNameInto
  cases hint : readInteger prefixBits in_ with
  | none => exact .error hnone
  | some x =>
    obtain ⟨index, rest⟩ := x
    dsimp only
    by_cases hzero : index = 0
    · rw [if_pos hzero, if_pos hzero]
      exact readStringInto_spec rest _ a
    rw [if_neg hzero, if_neg hzero]
    cases hlookup : d.lookup index with
    | none => exact .error hnone
    | some f =>
      obtain ⟨name, value⟩ := f
      dsimp only
      by_cases hbig : name.length > budget limit total 0
      · rw [if_pos hbig, if_pos hbig]
        exact .error hnone
      rw [if_neg hbig, if_neg hbig]
      obtain ⟨hplaced, hwithin, htext⟩ :=
        copyIn_spec index name a (Nat.not_lt.mp hbig)
      exact .ok hwithin htext (Nat.not_lt.mp hbig) hplaced

variable {limit total : Nat} {fields : List Field} {bs : Bytes}

/-- A value behind a name that was placed already. -/
theorem literalValueInto_spec {v : View} {name : Bytes} (in_ : Bytes)
    {a a' : Arena} (hw : v.Within a'.content) (ht : v.text a'.content = name)
    (hs : name.length ≤ budget limit total 0) (h : Placed (budget limit total 0) name.length a a') :
    FieldInto (limit - total) a (literalValue limit total name in_)
      (literalValueInto limit total v in_ a') := by
  have hsize : v.size = name.length := by rw [← View.length_text hw, ht]
  have hspec := readStringInto_spec in_ (budget limit total name.length) a'
  unfold literalValue literalValueInto
  rw [hsize]
  have hroom : name.length + budget limit total name.length ≤ limit - total := by
    unfold budget at hs ⊢
    omega
  have hname : Placed (limit - total) name.length a a' := by
    refine h.mono ?_ le_rfl
    unfold budget
    omega
  generalize readString in_ (budget limit total name.length) = plain at hspec ⊢
  generalize readStringInto in_ (budget limit total name.length) a' = into at hspec ⊢
  cases hspec with
  | error hvalue => exact .error (hname.trans hvalue hroom)
  | ok hw' ht' hs' hvalue =>
    refine .ok (View.within_append hw hvalue.kept) hw' ?_ (hname.trans hvalue hroom)
    unfold shown
    rw [View.text_append hw hvalue.kept, ht, ht']

theorem literalInto_spec (limit total prefixBits : Nat) (in_ : Bytes) (a : Arena) :
    FieldInto (limit - total) a (d.literal limit total prefixBits in_)
      (d.literalInto limit total prefixBits in_ a) := by
  have hname := literalNameInto_spec d limit total prefixBits in_ a
  unfold literal literalInto
  generalize d.literalName limit total prefixBits in_ = plain at hname ⊢
  generalize d.literalNameInto limit total prefixBits in_ a = into at hname ⊢
  cases hname with
  | error h =>
    refine .error (h.mono ?_ (Nat.le_refl 0))
    unfold budget
    omega
  | ok hw ht hs h => exact literalValueInto_spec _ hw ht hs h

theorem indexedInto_spec (htotal : total ≤ limit) (in_ : Bytes) (a : Arena) :
    FieldInto (limit - total) a (d.indexed limit total in_) (d.indexedInto limit total in_ a) := by
  have hnone := (Placed.refl 0 a).mono (Nat.zero_le (limit - total)) (Nat.le_refl 0)
  unfold indexed indexedInto
  cases hint : readInteger 7 in_ with
  | none => exact .error hnone
  | some x =>
    obtain ⟨index, rest⟩ := x
    dsimp only
    cases hlookup : d.lookup index with
    | none => exact .error hnone
    | some f =>
      dsimp only
      by_cases hbig : fieldSize f > limit - min total limit
      · rw [if_pos hbig, if_pos hbig]
        exact .error hnone
      rw [if_neg hbig, if_neg hbig]
      have hfits : f.1.length + f.2.length + 32 ≤ limit - total := by
        unfold fieldSize at hbig
        omega
      obtain ⟨hn, hnw, hnt⟩ := copyIn_spec index f.1 a (by omega : f.1.length ≤ limit - total)
      obtain ⟨hv, hvw, hvt⟩ := copyIn_spec index f.2 (copyIn index f.1 a).2 (Nat.le_refl f.2.length)
      refine .ok (View.within_append hnw hv.kept) hvw ?_ (hn.trans hv (by omega))
      unfold shown
      rw [View.text_append hnw hv.kept, hnt, hvt]

/-- One round: what `nextField` reads, placed within what is left of the limit. -/
theorem nextFieldInto_spec (htotal : total ≤ limit) (started : Bool) (bs : Bytes) (a : Arena) :
    (∃ e used a', d.nextField limit total started bs = .error e ∧
        d.nextFieldInto limit total started bs a = (.error e, a') ∧ Placed (limit - total) used a a') ∨
      (∃ d' rest, d.nextField limit total started bs = .ok (d', none, rest) ∧
        d.nextFieldInto limit total started bs a = (.ok (d', none, rest), a)) ∨
      (∃ d' f v rest a', d.nextField limit total started bs = .ok (d', some f, rest) ∧
        d.nextFieldInto limit total started bs a = (.ok (d', some v, rest), a') ∧
        Placed (limit - total) (f.1.length + f.2.length) a a' ∧
        v.1.Within a'.content ∧ v.2.Within a'.content ∧ shown a'.content v = f) := by
  have hfield : ∀ (next : Field → Decoder) {plain into}, FieldInto (limit - total) a plain into →
      (∃ e used a', withField next plain = .error e ∧ withFieldInto next into = (.error e, a') ∧
        Placed (limit - total) used a a') ∨
      (∃ d' f v rest a', withField next plain = .ok (d', some f, rest) ∧
        withFieldInto next into = (.ok (d', some v, rest), a') ∧
        Placed (limit - total) (f.1.length + f.2.length) a a' ∧
        v.1.Within a'.content ∧ v.2.Within a'.content ∧ shown a'.content v = f) := by
    intro next plain into h
    cases h with
    | error hp => exact .inl ⟨_, _, _, rfl, rfl, hp⟩
    | @ok v f rest a' h₁ h₂ hf hp =>
      refine .inr ⟨next f, f, v, rest, a', rfl, ?_, hp, h₁, h₂, hf⟩
      show (Except.ok (next (shown a'.content v), some v, rest), a') = _
      rw [hf]
  cases bs with
  | nil => exact .inl ⟨_, _, _, rfl, rfl, Placed.refl _ a⟩
  | cons b bs =>
    unfold nextField nextFieldInto
    dsimp only
    by_cases h80 : b &&& 0x80 ≠ 0
    · rw [if_pos h80, if_pos h80]
      rcases hfield (fun _ => d) (indexedInto_spec d htotal (b :: bs) a) with h | h
      · exact .inl h
      · exact .inr (.inr h)
    · rw [if_neg h80, if_neg h80]
      by_cases h40 : b &&& 0x40 ≠ 0
      · rw [if_pos h40, if_pos h40]
        rcases hfield (fun f => { d with table := (d.table.add f.1 f.2).2 })
          (literalInto_spec d limit total 6 (b :: bs) a) with h | h
        · exact .inl h
        · exact .inr (.inr h)
      · rw [if_neg h40, if_neg h40]
        by_cases h20 : b &&& 0x20 ≠ 0
        · rw [if_pos h20, if_pos h20]
          cases started with
          | true => exact .inl ⟨_, _, _, rfl, rfl, Placed.refl _ a⟩
          | false =>
            rw [if_neg Bool.false_ne_true, if_neg Bool.false_ne_true]
            cases d.sizeUpdate (b :: bs) with
            | error e => exact .inl ⟨_, _, _, rfl, rfl, Placed.refl _ a⟩
            | ok x => exact .inr (.inl ⟨x.1, x.2, rfl, rfl⟩)
        · rw [if_neg h20, if_neg h20]
          rcases hfield (fun _ => d)
            (literalInto_spec d limit total 4 (b :: bs) a) with h | h
          · exact .inl h
          · exact .inr (.inr h)

/-- What the loop leaves beside the plain decoder's answer. -/
structure Bounded (size₀ maxListSize : Nat) (plain : Decoder × Result × List Field) (r : Into) :
    Prop where
  same : (r.decoder, r.result, r.fields) = plain
  peak : r.arena.peak ≤ size₀ + maxListSize
  shown : r.views.map (shown r.arena.content) = r.fields

theorem decodeLoopInto_spec {size₀ : Nat} (sink : List Field → Bool) (fuel : Nat)
    (d : Decoder) {views : List (View × View)} (bs : Bytes)
    {a : Arena} (h : ListInto size₀ limit total a fields views) :
    Bounded size₀ limit (decodeLoop limit sink fuel d total fields bs)
      (decodeLoopInto limit sink fuel d total fields views bs a) := by
  induction fuel generalizing d total fields views bs a with
  | zero =>
    cases bs with
    | nil => exact ⟨rfl, h.peak, h.same⟩
    | cons b bs => exact ⟨rfl, h.peak, h.same⟩
  | succ fuel ih =>
    cases bs with
    | nil => exact ⟨rfl, h.peak, h.same⟩
    | cons b bs =>
      unfold decodeLoop decodeLoopInto
      rcases nextFieldInto_spec d h.fits (!fields.isEmpty) (b :: bs) a with
        ⟨e, used, a', hplain, hinto, hp⟩ | ⟨d', rest, hplain, hinto⟩ |
        ⟨d', f, v, rest, a', hplain, hinto, hp, h₁, h₂, hf⟩
      · rw [hplain, hinto]
        obtain ⟨hpeak, hsame, -⟩ := h.placed hp
        exact ⟨rfl, hpeak, hsame⟩
      · rw [hplain, hinto]
        exact ih d' rest h
      · rw [hplain, hinto]
        dsimp only
        rw [hf]
        by_cases hover : total + fieldSize f > limit
        · rw [if_pos hover, if_pos hover]
          obtain ⟨hpeak, hsame, -⟩ := h.placed hp
          exact ⟨rfl, hpeak, hsame⟩
        · rw [if_neg hover, if_neg hover]
          have hsnoc := h.snoc hp h₁ h₂ hf (Nat.not_lt.mp hover)
          by_cases hstop : (!sink (fields ++ [f])) = true
          · rw [if_pos hstop, if_pos hstop]
            exact ⟨rfl, hsnoc.peak, hsnoc.same⟩
          rw [if_neg hstop, if_neg hstop]
          exact ih d' rest hsnoc

/-- **The arena of a block.** -/
theorem decodeInto_spec (block : Bytes) (limit : Nat) (sink : List Field → Bool)
    (content : Bytes) : Bounded content.length limit (d.decode block limit sink)
      (d.decodeInto block limit sink content) :=
  decodeLoopInto_spec sink block.length d block (ListInto.nil content limit)

/-! ## §3. The list without a limit. -/

/-- The name of a literal. -/
def freeName (d : Decoder) (prefixBits : Nat) (in_ : Bytes) : Option (Bytes × Bytes) :=
  match readInteger prefixBits in_ with
  | none => none
  | some (index, rest) =>
    if index = 0 then freeString 7 0x80 rest
    else
      match d.lookup index with
      | none => none
      | some (name, _) => some (name, rest)

/-- 6.2. -/
def freeLiteral (d : Decoder) (prefixBits : Nat) (in_ : Bytes) : Option (Field × Bytes) :=
  match d.freeName prefixBits in_ with
  | none => none
  | some (name, rest) =>
    match freeString 7 0x80 rest with
    | none => none
    | some (value, rest') => some ((name, value), rest')

/-- 6.1. -/
def freeIndexed (d : Decoder) (in_ : Bytes) : Option (Field × Bytes) :=
  match readInteger 7 in_ with
  | none => none
  | some (index, rest) =>
    match d.lookup index with
    | none => none
    | some f => some (f, rest)

/-- The field and the decoder behind it. -/
def withFree (next : Field → Decoder) :
    Option (Field × Bytes) → Option (Decoder × Option Field × Bytes)
  | none => none
  | some (f, rest) => some (next f, some f, rest)

/-- A representation (RFC 7541 6), however large its field. -/
def freeField (d : Decoder) (started : Bool) : Bytes → Option (Decoder × Option Field × Bytes)
  | [] => none
  | b :: bs =>
    if b &&& 0x80 ≠ 0 then withFree (fun _ => d) (d.freeIndexed (b :: bs))
    else if b &&& 0x40 ≠ 0 then
      withFree (fun f => { d with table := (d.table.add f.1 f.2).2 }) (d.freeLiteral 6 (b :: bs))
    else if b &&& 0x20 ≠ 0 then
      if started then none
      else
        match d.sizeUpdate (b :: bs) with
        | .error _ => none
        | .ok (d', rest) => some (d', none, rest)
    else withFree (fun _ => d) (d.freeLiteral 4 (b :: bs))

/-- The fields of a block up to its end, or up to the one the sink stops at; none when the block is
    malformed before. -/
def listedLoop (sink : List Field → Bool) :
    Nat → Decoder → List Field → Bytes → Option (Decoder × Result × List Field)
  | _, d, fields, [] => some (d, .ok, fields)
  | 0, _, _, _ :: _ => none
  | fuel + 1, d, fields, b :: bs =>
    match d.freeField (!fields.isEmpty) (b :: bs) with
    | none => none
    | some (d', none, rest) => listedLoop sink fuel d' fields rest
    | some (d', some f, rest) =>
      if !sink (fields ++ [f]) then some (d', .tooMany, fields ++ [f])
      else listedLoop sink fuel d' (fields ++ [f]) rest

/-- The list a block decodes to. -/
def listed (d : Decoder) (block : Bytes) (sink : List Field → Bool) :
    Option (Decoder × Result × List Field) :=
  listedLoop sink block.length d [] block

/-! ## §4. The limit. -/

/-- What a limit does to a reading: nothing, or it refuses a field that does not fit. -/
inductive Limited {α : Type} (bad : α → Prop) : Option α → Except Result α → Prop where
  | refused {e : Result} (h : e = .malformed ∨ e = .tooLarge) : Limited bad none (.error e)
  | read (x : α) : Limited bad (some x) (.ok x)
  | tooLarge {x : α} (h : bad x) : Limited bad (some x) (.error .tooLarge)

theorem readString_limited (in_ : Bytes) (maxOut : Nat) :
    Limited (fun x => maxOut < x.1.length) (freeString 7 0x80 in_) (readString in_ maxOut) := by
  unfold readString
  cases hfree : freeString 7 0x80 in_ with
  | none =>
    split
    next r hr =>
      rw [freeString_of_ok hr] at hfree
      simp at hfree
    · exact .refused (.inr rfl)
    · exact .refused (.inl rfl)
  | some x =>
    obtain ⟨s, rest⟩ := x
    rw [prefixedString_free hfree maxOut]
    by_cases hfit : s.length ≤ maxOut
    · rw [if_pos hfit]
      exact .read _
    rw [if_neg hfit]
    exact .tooLarge (Nat.not_le.mp hfit)

theorem literalName_limited (limit total prefixBits : Nat) (in_ : Bytes) :
    Limited (fun x => budget limit total 0 < x.1.length) (d.freeName prefixBits in_)
      (d.literalName limit total prefixBits in_) := by
  unfold freeName literalName
  cases hint : readInteger prefixBits in_ with
  | none => exact .refused (.inl rfl)
  | some x =>
    obtain ⟨index, rest⟩ := x
    dsimp only
    by_cases hzero : index = 0
    · rw [if_pos hzero, if_pos hzero]
      exact readString_limited rest _
    rw [if_neg hzero, if_neg hzero]
    cases hlookup : d.lookup index with
    | none => exact .refused (.inl rfl)
    | some f =>
      obtain ⟨name, value⟩ := f
      dsimp only
      by_cases hbig : name.length > budget limit total 0
      · rw [if_pos hbig]
        exact .tooLarge hbig
      rw [if_neg hbig]
      exact .read _

theorem literal_limited (limit total prefixBits : Nat) (in_ : Bytes) :
    Limited (fun x => limit < total + fieldSize x.1) (d.freeLiteral prefixBits in_)
      (d.literal limit total prefixBits in_) := by
  have hname := literalName_limited d limit total prefixBits in_
  unfold freeLiteral literal
  generalize d.freeName prefixBits in_ = free at hname ⊢
  generalize d.literalName limit total prefixBits in_ = got at hname ⊢
  have hover : ∀ name value : Bytes, (budget limit total 0 < name.length ∨
      budget limit total name.length < value.length) →
        limit < total + fieldSize (name, value) := by
    intro name value h
    show limit < total + (name.length + value.length + 32)
    unfold budget at h
    omega
  cases hname with
  | refused h => exact .refused h
  | read x =>
    obtain ⟨name, rest⟩ := x
    unfold literalValue
    dsimp only
    have hvalue := readString_limited rest (budget limit total name.length)
    generalize freeString 7 0x80 rest = free at hvalue ⊢
    generalize readString rest (budget limit total name.length) = got at hvalue ⊢
    cases hvalue with
    | refused h => exact .refused h
    | read y => exact .read _
    | tooLarge h => exact .tooLarge (hover name _ (.inr h))
  | @tooLarge x h =>
    obtain ⟨name, rest⟩ := x
    dsimp only
    -- the name alone is too large, whether or not a value follows
    cases freeString 7 0x80 rest with
    | none => exact .refused (.inr rfl)
    | some y => exact .tooLarge (hover name y.1 (.inl h))

theorem indexed_limited (limit total : Nat) (in_ : Bytes) :
    Limited (fun x => limit < total + fieldSize x.1) (d.freeIndexed in_) (d.indexed limit total in_) := by
  unfold freeIndexed indexed
  cases hint : readInteger 7 in_ with
  | none => exact .refused (.inl rfl)
  | some x =>
    obtain ⟨index, rest⟩ := x
    dsimp only
    cases hlookup : d.lookup index with
    | none => exact .refused (.inl rfl)
    | some f =>
      dsimp only
      by_cases hbig : fieldSize f > limit - min total limit
      · rw [if_pos hbig]
        refine .tooLarge ?_
        show limit < total + fieldSize f
        omega
      · rw [if_neg hbig]
        exact .read _

/-- The field of a representation does not fit. -/
def Over (maxListSize total : Nat) (x : Decoder × Option Field × Bytes) : Prop :=
  ∃ f, x.2.1 = some f ∧ maxListSize < total + fieldSize f

theorem withField_limited (next : Field → Decoder)
    {free : Option (Field × Bytes)} {got : Except Result (Field × Bytes)}
    (h : Limited (fun x => limit < total + fieldSize x.1) free got) :
    Limited (Over limit total) (withFree next free) (withField next got) := by
  cases h with
  | refused h => exact .refused h
  | read x => exact .read _
  | tooLarge h => exact .tooLarge ⟨_, rfl, h⟩

theorem nextField_limited (limit total : Nat) (started : Bool) (bs : Bytes) :
    Limited (Over limit total) (d.freeField started bs) (d.nextField limit total started bs) := by
  cases bs with
  | nil => exact .refused (.inl rfl)
  | cons b bs =>
    unfold freeField nextField
    dsimp only
    by_cases h80 : b &&& 0x80 ≠ 0
    · rw [if_pos h80, if_pos h80]
      exact withField_limited _ (indexed_limited d limit total (b :: bs))
    rw [if_neg h80, if_neg h80]
    by_cases h40 : b &&& 0x40 ≠ 0
    · rw [if_pos h40, if_pos h40]
      exact withField_limited _ (literal_limited d limit total 6 (b :: bs))
    rw [if_neg h40, if_neg h40]
    by_cases h20 : b &&& 0x20 ≠ 0
    · rw [if_pos h20, if_pos h20]
      cases started with
      | true => exact .refused (.inl rfl)
      | false =>
        rw [if_neg Bool.false_ne_true, if_neg Bool.false_ne_true]
        unfold sizeUpdate
        cases readInteger 5 (b :: bs) with
        | none => exact .refused (.inl rfl)
        | some x =>
          dsimp only
          by_cases hbig : x.1 > d.ceiling
          · rw [if_pos hbig]
            exact .refused (.inl rfl)
          rw [if_neg hbig]
          exact .read _
    · rw [if_neg h20, if_neg h20]
      exact withField_limited _ (literal_limited d limit total 4 (b :: bs))

theorem listedLoop_extends (sink : List Field → Bool) (fuel : Nat) (d : Decoder)
    {x : Decoder × Result × List Field}
    (h : listedLoop sink fuel d fields bs = some x) : ∃ more, x.2.2 = fields ++ more := by
  induction fuel generalizing d fields bs with
  | zero =>
    cases bs with
    | nil =>
      cases h
      exact ⟨[], (List.append_nil _).symm⟩
    | cons b bs => simp [listedLoop] at h
  | succ fuel ih =>
    cases bs with
    | nil =>
      cases h
      exact ⟨[], (List.append_nil _).symm⟩
    | cons b bs =>
      unfold listedLoop at h
      split at h
      · simp at h
      · exact ih _ h
      next d' f rest _ =>
        split at h
        · cases h
          exact ⟨[f], rfl⟩
        obtain ⟨more, hmore⟩ := ih _ h
        exact ⟨f :: more, by rw [hmore, List.append_assoc]; rfl⟩

/-- The loop under a limit against the list without one. -/
theorem decodeLoop_limit (maxListSize : Nat) (sink : List Field → Bool) (fuel : Nat) (d : Decoder)
    {x : Decoder × Result × List Field}
    (hsize : listSize fields ≤ maxListSize) (h : listedLoop sink fuel d fields bs = some x) :
    (listSize x.2.2 ≤ maxListSize → decodeLoop maxListSize sink fuel d (listSize fields) fields bs = x) ∧
      (maxListSize < listSize x.2.2 →
        (decodeLoop maxListSize sink fuel d (listSize fields) fields bs).2.1 = .tooLarge) := by
  -- over the fields read, all of which fit
  induction fuel generalizing d fields bs with
  | zero =>
    cases bs with
    | nil =>
      cases h
      exact ⟨fun _ => rfl, fun hlt => absurd hsize (Nat.not_le.mpr hlt)⟩
    | cons b bs => simp [listedLoop] at h
  | succ fuel ih =>
    cases bs with
    | nil =>
      cases h
      exact ⟨fun _ => rfl, fun hlt => absurd hsize (Nat.not_le.mpr hlt)⟩
    | cons b bs =>
      have hlimited := nextField_limited d maxListSize (listSize fields) (!fields.isEmpty) (b :: bs)
      unfold listedLoop at h
      unfold decodeLoop
      generalize d.freeField (!fields.isEmpty) (b :: bs) = free at hlimited h
      generalize d.nextField maxListSize (listSize fields) (!fields.isEmpty) (b :: bs) = got
        at hlimited ⊢
      -- a field that does not fit takes the list over its limit
      have hlong : ∀ {d' f rest}, free = some (d', some f, rest) →
          maxListSize < listSize fields + fieldSize f → maxListSize < listSize x.2.2 := by
        intro d' f rest hfree hover
        rw [hfree] at h
        dsimp only at h
        split at h
        · cases h
          rw [listSize_append, listSize_singleton]
          exact hover
        · obtain ⟨more, hmore⟩ := listedLoop_extends sink fuel d' h
          rw [hmore, listSize_append, listSize_append, listSize_singleton]
          omega
      cases hlimited with
      | refused _ => simp at h
      | @tooLarge y hover =>
        obtain ⟨d', got, rest⟩ := y
        obtain ⟨f, hf, hover⟩ := hover
        subst hf
        have hlt := hlong rfl hover
        exact ⟨fun hle => absurd hle (Nat.not_le.mpr hlt), fun _ => rfl⟩
      | read y =>
        obtain ⟨d', got, rest⟩ := y
        cases got with
        | none => exact ih d' hsize h
        | some f =>
          dsimp only
          by_cases hover : listSize fields + fieldSize f > maxListSize
          · rw [if_pos hover]
            exact ⟨fun hle => absurd hle (Nat.not_le.mpr (hlong rfl hover)), fun _ => rfl⟩
          have hnext : listSize (fields ++ [f]) = listSize fields + fieldSize f := by
            rw [listSize_append, listSize_singleton]
          rw [if_neg hover]
          dsimp only at h
          by_cases hstop : (!sink (fields ++ [f])) = true
          · rw [if_pos hstop] at h ⊢
            cases h
            refine ⟨fun _ => rfl, ?_⟩
            intro hlt
            dsimp only at hlt
            omega
          · rw [if_neg hstop] at h ⊢
            rw [← hnext]
            exact ih d' (by omega) h

/-- **The verdict on a block.**  A block that decodes to a list is reported with it if the list
    fits, as too large if it does not. -/
theorem decode_limit (block : Bytes) (limit : Nat) (sink : List Field → Bool) :
    ∀ x, d.listed block sink = some x → (listSize x.2.2 ≤ limit → d.decode block limit sink = x) ∧
        (limit < listSize x.2.2 → (d.decode block limit sink).2.1 = .tooLarge) := by
  intro x hx
  exact decodeLoop_limit limit sink block.length d (Nat.zero_le _) hx

end Agensio.Hpack.Decoder
