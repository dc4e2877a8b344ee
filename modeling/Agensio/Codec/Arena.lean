/-
  Agensio.Codec.Arena — decoded strings in the caller's arena.

  The decoders of `http2/hpack.cpp` and `http3/qpack.cpp` append what
  they decode to a string of the caller and hand out views of it.  The
  arena is reserved once, so the views live as long as it does not grow
  over what was reserved: its size is followed at every point, also where
  `huffman_decode` stretches it for the longest output and cuts it back.

  Main results:
    * `prefixedString_free` — a limit on a string refuses the longer ones
      as too large and changes nothing else;
    * `prefixedStringInto_spec` — a string is placed within its limit;
    * `ListInto.snoc` — a list of fields within its limit stays readable
      through its views.
-/
import Agensio.Codec.Strings
import Agensio.Codec.DynamicTable

namespace Agensio.Codec

open Agensio.Lib

/-! ## §1. Strings without a limit. -/

/-- The string at the front, however long it is. -/
def freeString (prefixBits : Nat) (hBit : UInt8) (bs : Bytes) : Option (Bytes × Bytes) :=
  match prefixedString prefixBits hBit (huffmanRoom bs.length) bs with
  | .error _ => none
  | .ok r => some r

variable {in_ s rest bs content content' : Bytes} {room prefixBits : Nat} {hBit : UInt8} {v : View}

/-- What one limit lets through another lets through or finds too large. -/
theorem huffmanDecode_relimit (h : huffmanDecode in_ room = .ok s) (maxOut : Nat) :
    huffmanDecode in_ maxOut = if s.length ≤ maxOut then .ok s else .error .tooLarge := by
  have hfree : huffmanDecode in_ (huffmanRoom in_.length) = .ok s := by
    rcases huffmanDecode_limit in_ room with heq | ⟨hcut, -⟩
    · rw [← heq, h]
    rw [hcut] at h
    simp at h
  rcases huffmanDecode_limit in_ maxOut with heq | ⟨hcut, hlong⟩
  · have hs : huffmanDecode in_ maxOut = .ok s := by rw [heq, hfree]
    rw [hs, if_pos (huffmanDecode_le hs).1]
  have := hlong s hfree
  rw [hcut, if_neg (by omega)]

theorem readString_relimit {huffman : Bool} {len : Nat}
    (h : readString in_ huffman len room = .ok (s, rest)) (maxOut : Nat) :
    s.length ≤ huffmanRoom in_.length ∧ readString in_ huffman len maxOut =
        if s.length ≤ maxOut then .ok (s, rest) else .error .tooLarge := by
  obtain ⟨hlen, hrest, -, -⟩ := readString_ok h
  have hin : ¬ len > in_.length := Nat.not_lt.mpr hlen
  have htake : (in_.take len).length = len := by
    rw [List.length_take]
    omega
  unfold readString at h ⊢
  rw [if_neg hin] at h ⊢
  cases huffman with
  | true =>
    rw [if_pos rfl] at h ⊢
    split at h
    next s' hs' =>
      obtain ⟨rfl, -⟩ := Prod.mk.inj (Except.ok.inj h)
      have hle := (huffmanDecode_le hs').2
      rw [htake] at hle
      rw [huffmanDecode_relimit hs']
      refine ⟨?_, ?_⟩
      · unfold huffmanRoom at hle ⊢
        omega
      · by_cases hmax : s'.length ≤ maxOut
        · rw [if_pos hmax, if_pos hmax, hrest]
        · rw [if_neg hmax, if_neg hmax]
    · simp at h
    · simp at h
  | false =>
    rw [if_neg Bool.false_ne_true] at h ⊢
    split at h
    · simp at h
    obtain ⟨rfl, -⟩ := Prod.mk.inj (Except.ok.inj h)
    rw [htake]
    refine ⟨?_, ?_⟩
    · unfold huffmanRoom
      omega
    · by_cases hmax : len ≤ maxOut
      · rw [if_neg (by omega), if_pos hmax, hrest]
      · rw [if_pos (by omega), if_neg hmax]

theorem prefixedString_relimit (h : prefixedString prefixBits hBit room bs = .ok (s, rest)) (maxOut : Nat) :
    s.length ≤ huffmanRoom bs.length ∧ prefixedString prefixBits hBit maxOut bs =
        if s.length ≤ maxOut then .ok (s, rest) else .error .tooLarge := by
  cases bs with
  | nil => simp [prefixedString] at h
  | cons b bs =>
    rw [prefixedString_cons] at h ⊢
    cases hint : readInteger prefixBits (b :: bs) with
    | none =>
      rw [hint] at h
      simp at h
    | some x =>
      obtain ⟨len, body⟩ := x
      rw [hint] at h
      obtain ⟨hroom, heq⟩ := readString_relimit h maxOut
      refine ⟨?_, heq⟩
      obtain ⟨-, m, -, hm⟩ := readInteger_append hint []
      rw [hm, List.length_append]
      unfold huffmanRoom at hroom ⊢
      omega

/-- **A limit only refuses.** -/
theorem prefixedString_free (h : freeString prefixBits hBit bs = some (s, rest)) (maxOut : Nat) :
    prefixedString prefixBits hBit maxOut bs =
      if s.length ≤ maxOut then .ok (s, rest) else .error .tooLarge := by
  unfold freeString at h
  split at h
  · simp at h
  next r hr =>
    cases h
    exact (prefixedString_relimit hr maxOut).2

/-- What a limit lets through is read without one. -/
theorem freeString_of_ok {maxOut : Nat} (h : prefixedString prefixBits hBit maxOut bs = .ok (s, rest)) :
    freeString prefixBits hBit bs = some (s, rest) := by
  obtain ⟨hroom, heq⟩ := prefixedString_relimit h (huffmanRoom bs.length)
  unfold freeString
  rw [heq, if_pos hroom]

/-! ## §2. The arena. -/

/-- The caller's string, and the largest size it has had. -/
structure Arena where
  content : Bytes
  peak : Nat

/-- What the sink is given: bytes of a static table, or a part of the arena. -/
inductive View where
  | static (s : Bytes)
  | part (start length : Nat)
  deriving DecidableEq

def View.size : View → Nat
  | .static s => s.length
  | .part _ length => length

/-- The text a view shows. -/
def View.text (content : Bytes) : View → Bytes
  | .static s => s
  | .part start length => (content.drop start).take length

/-- The part lies in the arena. -/
def View.Within (content : Bytes) : View → Prop
  | .static _ => True
  | .part start length => start + length ≤ content.length

namespace Arena

/-- The caller's arena as it is handed over. -/
def start (content : Bytes) : Arena := { content := content, peak := content.length }

/-- `arena.append(s)`, and the view of what was appended. -/
def append (a : Arena) (s : Bytes) : View × Arena :=
  (.part a.content.length s.length,
    { content := a.content ++ s, peak := max a.peak (a.content.length + s.length) })

/-- `out.resize(start + cap)`: the size before the output is cut to what was decoded. -/
def stretch (a : Arena) (cap : Nat) : Arena :=
  { a with peak := max a.peak (a.content.length + cap) }

end Arena

/-- `read_string` with its arena. -/
def readStringInto (in_ : Bytes) (huffman : Bool) (len maxOut : Nat) (a : Arena) :
    Except StrStatus (View × Bytes) × Arena :=
  if len > in_.length then (.error .incomplete, a)
  else if huffman then
    let stretched := a.stretch (min maxOut ((in_.take len).length * 8 / 5 + 1))
    match huffmanDecode (in_.take len) maxOut with
    | .ok s => (.ok ((stretched.append s).1, in_.drop len), (stretched.append s).2)
    | .error .malformed => (.error .malformed, stretched)
    | .error .tooLarge => (.error .tooLarge, stretched)
  else if len > maxOut then (.error .tooLarge, a)
  else (.ok ((a.append (in_.take len)).1, in_.drop len), (a.append (in_.take len)).2)

/-- `prefixed_string` with its arena. -/
def prefixedStringInto (prefixBits : Nat) (hBit : UInt8) (maxOut : Nat) (bs : Bytes) (a : Arena) :
    Except StrStatus (View × Bytes) × Arena :=
  match bs with
  | [] => (.error .incomplete, a)
  | b :: bs =>
    match readInteger prefixBits (b :: bs) with
    | none => (.error .incomplete, a)
    | some (len, rest) => readStringInto rest (b &&& hBit ≠ 0) len maxOut a

/-! ## §3. What is placed. -/

/-- A view shows the same in a longer arena. -/
theorem View.text_append (h : v.Within content)
    (hpre : content <+: content') : v.text content' = v.text content := by
  obtain ⟨more, rfl⟩ := hpre
  cases v with
  | static s => rfl
  | part start length =>
    have hin : start + length ≤ content.length := h
    show ((content ++ more).drop start).take length = (content.drop start).take length
    rw [List.drop_append_of_le_length (by omega), List.take_append_of_le_length]
    rw [List.length_drop]
    omega

theorem View.within_append (h : v.Within content) (hpre : content <+: content') : v.Within content' := by
  have hle := hpre.length_le
  cases v with
  | static s => exact trivial
  | part start length =>
    have hin : start + length ≤ content.length := h
    show start + length ≤ content'.length
    omega

/-- From `a` to `a'` at most `room` bytes were placed at any time, and `used` of them stay. -/
structure Placed (room used : Nat) (a a' : Arena) : Prop where
  kept : a.content <+: a'.content
  length : a'.content.length ≤ a.content.length + used
  peak : a'.peak ≤ max a.peak (a.content.length + room)

theorem Placed.refl (room : Nat) (a : Arena) : Placed room 0 a a where
  kept := List.prefix_rfl
  length := le_rfl
  peak := Nat.le_max_left _ _

theorem Placed.trans {room' used used' : Nat} {a a' a'' : Arena} (h : Placed room used a a')
    (h' : Placed room' used' a' a'') (hroom : used + room' ≤ room) :
    Placed room (used + used') a a'' where
  kept := h.kept.trans h'.kept
  length := by
    have := h.length
    have := h'.length
    omega
  peak := by
    have := h.length
    have := h.peak
    have := h'.peak
    omega

theorem Placed.mono {room' used used' : Nat} {a a' : Arena} (h : Placed room used a a')
    (hroom : room ≤ room') (hused : used ≤ used') : Placed room' used' a a' where
  kept := h.kept
  length := by
    have := h.length
    omega
  peak := by
    have := h.peak
    omega

theorem append_spec (a : Arena) (s : Bytes) (hs : s.length ≤ room) :
    Placed room s.length a (a.append s).2 ∧ (a.append s).1.Within (a.append s).2.content ∧
      (a.append s).1.text (a.append s).2.content = s := by
  refine ⟨⟨List.prefix_append _ _, ?_, ?_⟩, ?_, ?_⟩
  · show (a.content ++ s).length ≤ _
    rw [List.length_append]
  · show max a.peak (a.content.length + s.length) ≤ _
    omega
  · show a.content.length + s.length ≤ (a.content ++ s).length
    rw [List.length_append]
  · show ((a.content ++ s).drop a.content.length).take s.length = s
    rw [List.drop_left, List.take_length]

theorem View.length_text (h : v.Within content) : (v.text content).length = v.size := by
  cases v with
  | static s => rfl
  | part start length =>
    have hin : start + length ≤ content.length := h
    show ((content.drop start).take length).length = length
    rw [List.length_take, List.length_drop]
    omega

/-- A string into the arena: what is read without one, placed within its limit. -/
inductive StringInto {ε γ : Type} (room : Nat) (a : Arena) :
    Except ε (Bytes × γ) → Except ε (View × γ) × Arena → Prop where
  | error {e : ε} {a' : Arena} (h : Placed room 0 a a') : StringInto room a (.error e) (.error e, a')
  | ok {v : View} {s : Bytes} {x : γ} {a' : Arena} (hw : v.Within a'.content)
      (ht : v.text a'.content = s) (hs : s.length ≤ room) (h : Placed room s.length a a') :
      StringInto room a (.ok (s, x)) (.ok (v, x), a')

theorem stringInto_append (a : Arena) (hs : s.length ≤ room) {ε γ : Type} (x : γ) :
    StringInto room a (.ok (s, x) : Except ε (Bytes × γ)) (.ok ((a.append s).1, x), (a.append s).2) := by
  obtain ⟨hplaced, hwithin, htext⟩ := append_spec a s hs
  exact .ok hwithin htext hs hplaced

theorem stretch_placed (a : Arena) (cap : Nat) : Placed cap 0 a (a.stretch cap) where
  kept := List.prefix_rfl
  length := le_rfl
  peak := le_rfl

theorem readStringInto_spec (in_ : Bytes) (huffman : Bool) (len maxOut : Nat) (a : Arena) :
    StringInto maxOut a (readString in_ huffman len maxOut) (readStringInto in_ huffman len maxOut a) := by
  unfold readString readStringInto
  by_cases hlen : len > in_.length
  · rw [if_pos hlen, if_pos hlen]
    exact .error ((Placed.refl 0 a).mono (Nat.zero_le _) le_rfl)
  rw [if_neg hlen, if_neg hlen]
  cases huffman with
  | true =>
    rw [if_pos rfl, if_pos rfl]
    -- the output is stretched to the limit at most, and the string stays in that
    have hstretch := (stretch_placed a (min maxOut ((in_.take len).length * 8 / 5 + 1))).mono
      (Nat.min_le_left _ _) (Nat.le_refl 0)
    dsimp only
    cases hdecode : huffmanDecode (in_.take len) maxOut with
    | ok s =>
      dsimp only
      have hs := (huffmanDecode_le hdecode).1
      obtain ⟨hplaced, hwithin, htext⟩ :=
        append_spec (a.stretch (min maxOut ((in_.take len).length * 8 / 5 + 1))) s hs
      have hboth := hstretch.trans hplaced (by omega)
      rw [Nat.zero_add] at hboth
      exact .ok hwithin htext hs hboth
    | error e =>
      cases e with
      | malformed => exact .error hstretch
      | tooLarge => exact .error hstretch
  | false =>
    rw [if_neg Bool.false_ne_true, if_neg Bool.false_ne_true]
    by_cases hmax : len > maxOut
    · rw [if_pos hmax, if_pos hmax]
      exact .error ((Placed.refl 0 a).mono (Nat.zero_le _) le_rfl)
    rw [if_neg hmax, if_neg hmax]
    refine stringInto_append a ?_ _
    rw [List.length_take]
    omega

/-- **A string in the arena.** -/
theorem prefixedStringInto_spec (prefixBits : Nat) (hBit : UInt8) (maxOut : Nat) (bs : Bytes)
    (a : Arena) : StringInto maxOut a (prefixedString prefixBits hBit maxOut bs)
      (prefixedStringInto prefixBits hBit maxOut bs a) := by
  have hnone := (Placed.refl 0 a).mono (Nat.zero_le maxOut) (Nat.le_refl 0)
  cases bs with
  | nil => exact .error hnone
  | cons b bs =>
    rw [prefixedString_cons]
    unfold prefixedStringInto
    dsimp only
    cases hint : readInteger prefixBits (b :: bs) with
    | none => exact .error hnone
    | some x => exact readStringInto_spec x.2 _ x.1 maxOut a

/-! ## §4. Fields. -/

/-- The size of a header list (RFC 7541 4.1, RFC 9114 4.2.2). -/
def listSize (fields : List Field) : Nat := (fields.map fieldSize).sum

theorem listSize_append (fields fields' : List Field) :
    listSize (fields ++ fields') = listSize fields + listSize fields' := by
  unfold listSize
  rw [List.map_append, List.sum_append]

theorem listSize_singleton (f : Field) : listSize [f] = fieldSize f := Nat.add_zero _

/-- The field two views show. -/
def shown (content : Bytes) (v : View × View) : Field := (v.1.text content, v.2.text content)

theorem shown_append {v : View × View} (h₁ : v.1.Within content)
    (h₂ : v.2.Within content) (hpre : content <+: content') : shown content' v = shown content v := by
  unfold shown
  rw [View.text_append h₁ hpre, View.text_append h₂ hpre]

/-- A field into the arena. -/
inductive FieldInto {ε γ : Type} (room : Nat) (a : Arena) :
    Except ε (Field × γ) → Except ε ((View × View) × γ) × Arena → Prop where
  | error {e : ε} {used : Nat} {a' : Arena} (h : Placed room used a a') :
      FieldInto room a (.error e) (.error e, a')
  | ok {v : View × View} {f : Field} {x : γ} {a' : Arena} (h₁ : v.1.Within a'.content)
      (h₂ : v.2.Within a'.content) (hf : shown a'.content v = f)
      (h : Placed room (f.1.length + f.2.length) a a') :
      FieldInto room a (.ok (f, x)) (.ok (v, x), a')

/-- The list so far in the arena: what the views show, how much was placed, how large it was. -/
structure ListInto (size₀ maxListSize total : Nat) (a : Arena) (fields : List Field)
    (views : List (View × View)) : Prop where
  fits : total ≤ maxListSize
  length : a.content.length ≤ size₀ + total
  peak : a.peak ≤ size₀ + maxListSize
  within : ∀ v ∈ views, v.1.Within a.content ∧ v.2.Within a.content
  same : views.map (shown a.content) = fields

namespace ListInto

variable {size₀ maxListSize total : Nat} {a : Arena} {fields : List Field} {views : List (View × View)}

theorem nil (content : Bytes) (maxListSize : Nat) :
    ListInto content.length maxListSize 0 (Arena.start content) [] [] where
  fits := Nat.zero_le _
  length := le_rfl
  peak := Nat.le_add_right _ _
  within := fun _ h => absurd h (by simp)
  same := rfl

/-- What is placed next keeps to the limit and leaves the views as they are. -/
theorem placed (h : ListInto size₀ maxListSize total a fields views) {used : Nat} {a' : Arena}
    (hp : Placed (maxListSize - total) used a a') :
    a'.peak ≤ size₀ + maxListSize ∧ views.map (shown a'.content) = fields ∧
      ∀ v ∈ views, v.1.Within a'.content ∧ v.2.Within a'.content := by
  refine ⟨?_, ?_, ?_⟩
  · have := h.fits
    have := h.length
    have := h.peak
    have := hp.peak
    omega
  · rw [← h.same]
    refine List.map_congr_left ?_
    intro v hv
    exact shown_append (h.within v hv).1 (h.within v hv).2 hp.kept
  · intro v hv
    exact ⟨View.within_append (h.within v hv).1 hp.kept, View.within_append (h.within v hv).2 hp.kept⟩

/-- One more field. -/
theorem snoc (h : ListInto size₀ maxListSize total a fields views) {v : View × View} {a' : Arena}
    {f : Field} (hp : Placed (maxListSize - total) (f.1.length + f.2.length) a a')
    (h₁ : v.1.Within a'.content) (h₂ : v.2.Within a'.content) (hf : shown a'.content v = f)
    (hfits : total + fieldSize f ≤ maxListSize) :
    ListInto size₀ maxListSize (total + fieldSize f) a' (fields ++ [f]) (views ++ [v]) := by
  obtain ⟨hpeak, hsame, hwithin⟩ := h.placed hp
  refine ⟨hfits, ?_, hpeak, ?_, ?_⟩
  · have := h.length
    have := hp.length
    unfold fieldSize
    omega
  · intro w hw
    rcases List.mem_append.mp hw with hw | hw
    · exact hwithin w hw
    rw [List.mem_singleton.mp hw]
    exact ⟨h₁, h₂⟩
  · rw [List.map_append, hsame, List.map_singleton, hf]

end ListInto

end Agensio.Codec
