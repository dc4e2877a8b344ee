/-
  Agensio.Hpack.Reference — the decoder against a reference.

  `Reference` is HPACK as RFC 7541 has it, without a limit on the list
  size: a table is a list of fields, newest first, cut down to what fits
  (`Lib.fit`), and a block is read to its end or to the first error.

  Main results:
    * `Agrees.decode_uncut` — a decode that comes to the end of the block,
      or finds an error, leaves the reference's table;
    * `Agrees.decode_fits` — so does every decode of a block whose list
      fits the limit.
-/
import Agensio.Hpack.Decoder

namespace Agensio.Hpack

open Agensio.Lib Agensio.Codec

/-! ## §1. The reference. -/

/-- The decoding context of RFC 7541: the dynamic table, newest first, and its maximum size. -/
structure Reference where
  entries : List Field := []
  limit : Nat
  ceiling : Nat
  deriving DecidableEq

namespace Reference

def new (ceiling : Nat) : Reference := { limit := ceiling, ceiling := ceiling }

/-- The index address space, RFC 7541 2.3.3. -/
def lookup (r : Reference) (index : Nat) : Option Field :=
  if index = 0 then none
  else if index ≤ kStaticTable.length then kStaticTable[index - 1]?
  else r.entries[index - kStaticTable.length - 1]?

/-- A string literal of any length, RFC 7541 5.2. -/
def string : Bytes → Option (Bytes × Bytes)
  | [] => none
  | b :: bs =>
    match readInteger 7 (b :: bs) with
    | none => none
    | some (len, rest) =>
      if len > rest.length then none
      else if b &&& 0x80 ≠ 0 then
        match huffmanDecode (rest.take len) (huffmanRoom len) with
        | .ok s => some (s, rest.drop len)
        | .error _ => none
      else some (rest.take len, rest.drop len)

theorem string_cons (b : UInt8) (bs : Bytes) :
    string (b :: bs) = match readInteger 7 (b :: bs) with
      | none => none
      | some (len, rest) =>
        if len > rest.length then none
        else if b &&& 0x80 ≠ 0 then
          match huffmanDecode (rest.take len) (huffmanRoom len) with
          | .ok s => some (s, rest.drop len)
          | .error _ => none
        else some (rest.take len, rest.drop len) := rfl

def literalName (r : Reference) (prefixBits : Nat) (in_ : Bytes) : Option (Bytes × Bytes) :=
  match readInteger prefixBits in_ with
  | none => none
  | some (index, rest) =>
    if index = 0 then string rest else (r.lookup index).map fun f => (f.1, rest)

def literalValue (name in_ : Bytes) : Option (Field × Bytes) :=
  (string in_).map fun x => ((name, x.1), x.2)

def literal (r : Reference) (prefixBits : Nat) (in_ : Bytes) : Option (Field × Bytes) :=
  match r.literalName prefixBits in_ with
  | none => none
  | some (name, rest) => literalValue name rest

def indexed (r : Reference) (in_ : Bytes) : Option (Field × Bytes) :=
  match readInteger 7 in_ with
  | none => none
  | some (index, rest) => (r.lookup index).map fun f => (f, rest)

/-- One representation, RFC 7541 6. -/
def next (r : Reference) (started : Bool) : Bytes → Option (Reference × Option Field × Bytes)
  | [] => none
  | b :: bs =>
    if b &&& 0x80 ≠ 0 then
      (r.indexed (b :: bs)).map fun x => (r, some x.1, x.2)
    else if b &&& 0x40 ≠ 0 then
      (r.literal 6 (b :: bs)).map fun x =>
        ({ r with entries := fit fieldSize r.limit (x.1 :: r.entries) }, some x.1, x.2)
    else if b &&& 0x20 ≠ 0 then
      if started then none
      else
        match readInteger 5 (b :: bs) with
        | none => none
        | some (size, rest) =>
          if size > r.ceiling then none
          else some ({ r with entries := fit fieldSize size r.entries, limit := size }, none, rest)
    else (r.literal 4 (b :: bs)).map fun x => (r, some x.1, x.2)

/-- The representations of a block, up to the first error. -/
def decodeLoop : Nat → Reference → List Field → Bytes → Reference × List Field
  | _, r, fields, [] => (r, fields)
  | 0, r, fields, _ :: _ => (r, fields)
  | fuel + 1, r, fields, b :: bs =>
    match r.next (!fields.isEmpty) (b :: bs) with
    | none => (r, fields)
    | some (r', none, rest) => decodeLoop fuel r' fields rest
    | some (r', some f, rest) => decodeLoop fuel r' (fields ++ [f]) rest

/-- The context behind a block, and the fields read. -/
def decode (r : Reference) (block : Bytes) : Reference × List Field :=
  decodeLoop block.length r [] block

/-- The context behind some blocks. -/
def after (ceiling : Nat) (blocks : List Bytes) : Reference :=
  blocks.foldl (fun r block => (r.decode block).1) (new ceiling)

end Reference

/-! ## §2. Strings and names. -/

/-- The decoder holds what the reference holds. -/
structure Agrees (d : Decoder) (r : Reference) : Prop where
  valid : d.table.Valid
  entries : d.table.entries = r.entries
  limit : d.table.limit = r.limit
  capacity : d.table.capacity = r.ceiling
  ceiling : d.ceiling = r.ceiling

theorem agrees_new (ceiling : Nat) : Agrees (Decoder.new ceiling) (Reference.new ceiling) :=
  ⟨DynamicTable.new_valid ceiling, rfl, rfl, rfl, rfl⟩

variable {d : Decoder} {r : Reference}

theorem Agrees.lookup (h : Agrees d r) (index : Nat) : d.lookup index = r.lookup index := by
  unfold Decoder.lookup Reference.lookup
  rw [DynamicTable.at_eq h.valid, h.entries]

/-- What is read under a limit: the reference's, or nothing where that would be `bad`. -/
def Limited {α : Type} (got : Except Result α) (ref : Option α) (bad : α → Prop) : Prop :=
  (got = match ref with
      | none => .error .malformed
      | some x => .ok x) ∨
    (got = .error .tooLarge ∧ ∀ x, ref = some x → bad x)

theorem readString_limit (in_ : Bytes) (maxOut : Nat) :
    Limited (Decoder.readString in_ maxOut) (Reference.string in_) fun x => maxOut < x.1.length := by
  unfold Decoder.readString
  cases in_ with
  | nil => exact .inl rfl
  | cons b bs =>
    rw [prefixedString_cons, Reference.string_cons]
    cases hint : readInteger 7 (b :: bs) with
    | none => exact .inl rfl
    | some lr =>
      obtain ⟨len, rest⟩ := lr
      dsimp only
      unfold readString
      by_cases hlong : len > rest.length
      · rw [if_pos hlong, if_pos hlong]
        exact .inl rfl
      rw [if_neg hlong, if_neg hlong]
      have hlen : (rest.take len).length = len := by
        rw [List.length_take]
        omega
      by_cases hhuff : b &&& 0x80 ≠ 0
      · rw [if_pos hhuff, if_pos (decide_eq_true hhuff)]
        have hlimit := huffmanDecode_limit (rest.take len) maxOut
        rw [hlen] at hlimit
        cases hd : huffmanDecode (rest.take len) (huffmanRoom len) with
        | ok s =>
          rw [hd] at hlimit
          rcases hlimit with heq | ⟨hcut, hlonger⟩
          · left
            rw [heq]
          right
          rw [hcut]
          refine ⟨rfl, ?_⟩
          intro x hx
          cases hx
          exact hlonger _ rfl
        | error e =>
          rw [hd] at hlimit
          have hnone : ∀ x : Bytes × Bytes, none = some x → maxOut < x.1.length :=
            fun _ h => absurd h (by simp)
          rcases hlimit with heq | ⟨hcut, -⟩
          · rw [heq]
            cases e with
            | malformed => exact .inl rfl
            | tooLarge => exact .inr ⟨rfl, hnone⟩
          · rw [hcut]
            exact .inr ⟨rfl, hnone⟩
      · rw [if_neg hhuff, if_neg (by simpa using hhuff)]
        by_cases hbig : len > maxOut
        · right
          rw [if_pos hbig]
          refine ⟨rfl, ?_⟩
          intro x hx
          cases hx
          show maxOut < (rest.take len).length
          omega
        · left
          rw [if_neg hbig]

theorem Agrees.literalName (h : Agrees d r) (limit total prefixBits : Nat) (in_ : Bytes) :
    Limited (d.literalName limit total prefixBits in_) (r.literalName prefixBits in_)
      fun x => limit < total + 32 + x.1.length := by
  unfold Decoder.literalName Reference.literalName
  cases hint : readInteger prefixBits in_ with
  | none => exact .inl rfl
  | some ir =>
    obtain ⟨index, rest⟩ := ir
    dsimp only
    by_cases hzero : index = 0
    · rw [if_pos hzero, if_pos hzero]
      rcases readString_limit rest (Decoder.budget limit total 0) with heq | ⟨hcut, hlong⟩
      · exact .inl heq
      refine .inr ⟨hcut, ?_⟩
      intro x hx
      have := hlong x hx
      unfold Decoder.budget at this
      omega
    · rw [if_neg hzero, if_neg hzero, h.lookup]
      cases r.lookup index with
      | none => exact .inl rfl
      | some e =>
        dsimp only [Option.map_some]
        by_cases hbig : e.1.length > Decoder.budget limit total 0
        · rw [if_pos hbig]
          refine .inr ⟨rfl, ?_⟩
          intro x hx
          cases hx
          unfold Decoder.budget at hbig
          show limit < total + 32 + e.1.length
          omega
        · rw [if_neg hbig]
          exact .inl rfl

theorem literalValue_limit (limit total : Nat) (name in_ : Bytes) :
    Limited (Decoder.literalValue limit total name in_) (Reference.literalValue name in_)
      fun x => limit < total + fieldSize x.1 := by
  unfold Decoder.literalValue Reference.literalValue
  rcases readString_limit in_ (Decoder.budget limit total name.length) with heq | ⟨hcut, hlong⟩
  · left
    rw [heq]
    cases Reference.string in_ with
    | none => rfl
    | some x => rfl
  · right
    rw [hcut]
    refine ⟨rfl, ?_⟩
    intro x hx
    cases hs : Reference.string in_ with
    | none =>
      rw [hs] at hx
      simp at hx
    | some y =>
      rw [hs] at hx
      cases hx
      have := hlong y hs
      unfold Decoder.budget at this
      show limit < total + (name.length + y.1.length + 32)
      omega

theorem literalValue_name {name in_ : Bytes} {x : Field × Bytes}
    (h : Reference.literalValue name in_ = some x) : x.1.1 = name := by
  unfold Reference.literalValue at h
  cases hs : Reference.string in_ with
  | none =>
    rw [hs] at h
    simp at h
  | some y =>
    rw [hs] at h
    cases h
    rfl

theorem Agrees.literal (h : Agrees d r) (maxListSize total prefixBits : Nat) (in_ : Bytes) :
    Limited (d.literal maxListSize total prefixBits in_) (r.literal prefixBits in_)
      fun x => maxListSize < total + fieldSize x.1 := by
  unfold Decoder.literal Reference.literal
  rcases h.literalName maxListSize total prefixBits in_ with heq | ⟨hcut, hlong⟩
  · rw [heq]
    cases r.literalName prefixBits in_ with
    | none => exact .inl rfl
    | some y => exact literalValue_limit maxListSize total y.1 y.2
  · right
    rw [hcut]
    refine ⟨rfl, ?_⟩
    intro x hx
    cases hn : r.literalName prefixBits in_ with
    | none =>
      rw [hn] at hx
      simp at hx
    | some y =>
      rw [hn] at hx
      -- the name alone is over the limit
      have hlen := hlong y hn
      have hname := literalValue_name hx
      show maxListSize < total + (x.1.1.length + x.1.2.length + 32)
      rw [hname]
      omega

theorem Agrees.indexed (h : Agrees d r) (limit total : Nat) (in_ : Bytes) :
    Limited (d.indexed limit total in_) (r.indexed in_) fun x => limit < total + fieldSize x.1 := by
  unfold Decoder.indexed Reference.indexed
  cases readInteger 7 in_ with
  | none => exact .inl rfl
  | some ir =>
    dsimp only
    rw [h.lookup]
    cases r.lookup ir.1 with
    | none => exact .inl rfl
    | some f =>
      dsimp only [Option.map_some]
      by_cases hbig : fieldSize f > limit - min total limit
      · rw [if_pos hbig]
        refine .inr ⟨rfl, ?_⟩
        intro x hx
        cases hx
        show limit < total + fieldSize f
        omega
      · rw [if_neg hbig]
        exact .inl rfl

/-! ## §3. A block. -/

/-- An insertion keeps the tables the same. -/
theorem Agrees.add (h : Agrees d r) (f : Field) : Agrees { d with table := (d.table.add f.1 f.2).2 }
      { r with entries := fit fieldSize r.limit (f :: r.entries) } := by
  obtain ⟨hv, he, hl, hc, -⟩ := DynamicTable.add_spec h.valid f.1 f.2
  refine ⟨hv, ?_, hl.trans h.limit, hc.trans h.capacity, h.ceiling⟩
  rw [he, h.limit, h.entries]

theorem Agrees.setLimit (h : Agrees d r) {size : Nat} (hsize : size ≤ r.ceiling) :
    Agrees { d with table := d.table.setLimit size }
      { r with entries := fit fieldSize size r.entries, limit := size } := by
  obtain ⟨hv, he, hl, hc⟩ := @DynamicTable.setLimit_spec _ h.valid size
    (by rw [h.capacity]; exact hsize)
  refine ⟨hv, ?_, hl, hc.trans h.capacity, h.ceiling⟩
  rw [he, h.entries]

/-- The outcome of one representation for both: an error, the same field and tables that agree, or
    a field over the limit. -/
def Round (maxListSize total : Nat) (got : Except Result (Decoder × Option Field × Bytes))
    (ref : Option (Reference × Option Field × Bytes)) : Prop :=
  (ref = none ∧ got = .error .malformed) ∨
    (∃ r' f rest d', ref = some (r', f, rest) ∧ got = .ok (d', f, rest) ∧ Agrees d' r') ∨
    (got = .error .tooLarge ∧ ∀ r' f rest, ref = some (r', f, rest) →
      ∃ g, f = some g ∧ maxListSize < total + fieldSize g)

/-- A representation of a field, from how the field is read. -/
theorem round_field {limit total : Nat} {got : Except Result (Field × Bytes)}
    {ref : Option (Field × Bytes)} (hlim : Limited got ref fun x => limit < total + fieldSize x.1)
    (d' : Field → Decoder) (r' : Field → Reference) (hagree : ∀ f, Agrees (d' f) (r' f)) :
    Round limit total (Decoder.withField d' got) (ref.map fun x => (r' x.1, some x.1, x.2)) := by
  rcases hlim with heq | ⟨hcut, hover⟩
  · rw [heq]
    cases ref with
    | none => exact .inl ⟨rfl, rfl⟩
    | some x => exact .inr (.inl ⟨_, _, _, _, rfl, rfl, hagree x.1⟩)
  · rw [hcut]
    refine .inr (.inr ⟨rfl, ?_⟩)
    intro r'' f rest hr
    cases ref with
    | none => simp at hr
    | some x =>
      simp only [Option.map_some, Option.some.injEq, Prod.mk.injEq] at hr
      exact ⟨x.1, hr.2.1.symm, hover x rfl⟩

/-- **Round lemma.** -/
theorem Agrees.nextField (h : Agrees d r) (limit total : Nat) (started : Bool) (in_ : Bytes) :
    Round limit total (d.nextField limit total started in_) (r.next started in_) := by
  cases in_ with
  | nil => exact .inl ⟨rfl, rfl⟩
  | cons b bs =>
    unfold Decoder.nextField Reference.next
    dsimp only
    by_cases h80 : b &&& 0x80 ≠ 0
    · rw [if_pos h80, if_pos h80]
      exact round_field (h.indexed limit total (b :: bs)) (fun _ => d) (fun _ => r) fun _ => h
    rw [if_neg h80, if_neg h80]
    by_cases h40 : b &&& 0x40 ≠ 0
    · rw [if_pos h40, if_pos h40]
      exact round_field (h.literal limit total 6 (b :: bs)) _ _ h.add
    rw [if_neg h40, if_neg h40]
    by_cases h20 : b &&& 0x20 ≠ 0
    · rw [if_pos h20, if_pos h20]
      cases started with
      | true => exact .inl ⟨rfl, rfl⟩
      | false =>
        rw [if_neg Bool.false_ne_true, if_neg Bool.false_ne_true]
        unfold Decoder.sizeUpdate
        cases readInteger 5 (b :: bs) with
        | none => exact .inl ⟨rfl, rfl⟩
        | some sr =>
          dsimp only
          rw [h.ceiling]
          by_cases hbig : sr.1 > r.ceiling
          · rw [if_pos hbig, if_pos hbig]
            exact .inl ⟨rfl, rfl⟩
          rw [if_neg hbig, if_neg hbig]
          have hle : sr.1 ≤ r.ceiling := by omega
          have hset := h.setLimit hle
          rw [h.ceiling] at hset
          exact .inr (.inl ⟨_, _, _, _, rfl, rfl, hset⟩)
    rw [if_neg h20, if_neg h20]
    exact round_field (h.literal limit total 4 (b :: bs)) (fun _ => d) (fun _ => r) fun _ => h

theorem Reference.decodeLoop_prefix (fuel : Nat) (r : Reference) (fields : List Field) (in_ : Bytes) :
    fields <+: (r.decodeLoop fuel fields in_).2 := by
  induction fuel generalizing r fields in_ with
  | zero => cases in_ <;> exact List.prefix_rfl
  | succ fuel ih =>
    cases in_ with
    | nil => exact List.prefix_rfl
    | cons b bs =>
      unfold Reference.decodeLoop
      split
      · exact List.prefix_rfl
      · exact ih _ _ _
      · exact (List.prefix_append _ _).trans (ih _ _ _)

/-- **Block lemma.**  The tables agree behind a decode that is not cut for its size, and behind
    every decode of a list that fits. -/
theorem Agrees.decodeLoop (h : Agrees d r) (maxListSize fuel : Nat) {total : Nat}
    {fields : List Field} (htotal : total = weight fieldSize fields) (in_ : Bytes)
    (hfits : (d.decodeLoop maxListSize (fun _ => true) fuel total fields in_).2.1 ≠ .tooLarge ∨
      weight fieldSize (r.decodeLoop fuel fields in_).2 ≤ maxListSize) :
    Agrees (d.decodeLoop maxListSize (fun _ => true) fuel total fields in_).1
      (r.decodeLoop fuel fields in_).1 := by
  induction fuel generalizing d r total fields in_ with
  | zero => cases in_ <;> exact h
  | succ fuel ih =>
    cases in_ with
    | nil => exact h
    | cons b bs =>
      unfold Decoder.decodeLoop Reference.decodeLoop at hfits ⊢
      -- a field over the limit is in the reference's list
      have hover : ∀ (r' : Reference) (g : Field) (rest : Bytes), maxListSize < total + fieldSize g →
          ¬ weight fieldSize (r'.decodeLoop fuel (fields ++ [g]) rest).2 ≤ maxListSize := by
        intro r' g rest hlt hle
        have hpre := weight_le_of_prefix fieldSize
          (Reference.decodeLoop_prefix fuel r' (fields ++ [g]) rest)
        rw [weight_append, weight_cons, weight_nil] at hpre
        omega
      rcases h.nextField maxListSize total (!fields.isEmpty) (b :: bs) with
        ⟨href, hgot⟩ | ⟨r', f, rest, d', href, hgot, hagree⟩ | ⟨hgot, hlong⟩
      · rw [href, hgot]
        exact h
      · rw [href, hgot] at hfits ⊢
        cases f with
        | none => exact ih hagree htotal rest hfits
        | some g =>
          dsimp only at hfits ⊢
          by_cases hbig : total + fieldSize g > maxListSize
          · rw [if_pos hbig] at hfits
            rcases hfits with hne | hle
            · exact absurd rfl hne
            · exact absurd hle (hover r' g rest hbig)
          · rw [if_neg hbig] at hfits ⊢
            rw [if_neg (by simp)] at hfits ⊢
            refine ih hagree ?_ rest hfits
            rw [weight_append, weight_cons, weight_nil, htotal]
            rfl
      · rw [hgot] at hfits ⊢
        rcases hfits with hne | hle
        · exact absurd rfl hne
        cases href : r.next (!fields.isEmpty) (b :: bs) with
        | none => exact h
        | some x =>
          obtain ⟨r', f, rest⟩ := x
          obtain ⟨g, rfl, hlt⟩ := hlong r' f rest href
          rw [href] at hle
          exact absurd hle (hover r' g rest hlt)

/-- A decode that is not cut for its size leaves the reference's table. -/
theorem Agrees.decode_uncut (h : Agrees d r) (block : Bytes) (limit : Nat)
    (hres : (d.decode block limit fun _ => true).2.1 ≠ .tooLarge) :
    Agrees (d.decode block limit fun _ => true).1 (r.decode block).1 :=
  h.decodeLoop limit block.length (show 0 = weight fieldSize ([] : List Field) from rfl) block (.inl hres)

/-- A decode of a list that fits leaves the reference's table, whatever its result. -/
theorem Agrees.decode_fits (h : Agrees d r) (block : Bytes) (limit : Nat)
    (hfits : weight fieldSize (r.decode block).2 ≤ limit) :
    Agrees (d.decode block limit fun _ => true).1 (r.decode block).1 :=
  h.decodeLoop limit block.length (show 0 = weight fieldSize ([] : List Field) from rfl) block (.inr hfits)

end Agensio.Hpack
