/-
  Agensio.Http1.Rendering — a head that is written, and what is read of it.

  A request line and fields are put together as every writer of a head does
  it, and `parse_request` is run on the text.  What the parser asks of one
  field at a time and of the fields together is said on lists of fields, so
  that a writer's fields can be judged without a run of the parser.

  Main results:
    * `Scan.fields_complete` — a completed head as a run over its lines;
    * `readFields_ok_iff` — the fields the parser's switch lets through;
    * `readsBack_iff` — a written head is read as it was meant exactly when
      its parts are lexically clean and its fields coherent.
-/
import Mathlib.Data.Nat.Digits.Defs
import Agensio.Http1.Parser

namespace Agensio.Http1

open Agensio.Http (kCapacity edgeByte parseMethod)
open Agensio.Codec (Field)

/-! ## §1. The text of a head. -/

abbrev crlf : Bytes := [cr, lf]

/-- `name: value`. -/
def fieldText (f : Field) : Bytes := f.1 ++ colon :: sp :: f.2

def fieldLines (fs : List Field) : Bytes := fs.flatMap fun f => fieldText f ++ crlf

def requestText (method target : Bytes) : Bytes := method ++ sp :: (target ++ sp :: bytes "HTTP/1.1")

/-- What the request line alone gives. -/
def lineRequest (m t : Bytes) : Request :=
  { methodName := m, method := parseMethod m, target := t, versionMinor := 1 }

/-- `std::to_string` of an unsigned number. -/
def decimalText (n : Nat) : Bytes :=
  if n = 0 then [0x30] else (Nat.digits 10 n).reverse.map fun d => UInt8.ofNat (0x30 + d)

def headText (method target : Bytes) (fs : List Field) : Bytes :=
  requestText method target ++ crlf ++ (fieldLines fs ++ crlf)

/-- A field as the parser stores it, without the blanks around its value. -/
def trimmed (f : Field) : Field := (f.1, trim f.2)

/-- The text is one head, up to its very end, of this method and target and these fields. -/
def ReadsBack (method target : Bytes) (fs : List Field) : Prop :=
  ∃ r, parseRequest (headText method target fs) = (.complete, r) ∧
    r.length = (headText method target fs).length ∧ r.methodName = method ∧ r.target = target ∧
    r.versionMinor = 1 ∧ r.headers = fs.map trimmed

/-! ## §2. What is asked of the fields. -/

def isToken (n : Bytes) : Bool := !n.isEmpty && n.all isTchar

/-- No control character but a tab. -/
def noCtl (v : Bytes) : Bool := v.all fun c => !Scan.isCtl c

/-- A request target: not empty, no blank and no control character. -/
def isTarget (t : Bytes) : Bool := !t.isEmpty && t.all fun c => !(c ≤ 0x20 || c = 0x7f)

def hostValue (v : Bytes) : Bool :=
  v.all fun c => !(c ≤ 0x20 || [0x2f, 0x5c, 0x22, 0x3c, 0x3e].contains c)

def lengthValue (v : Bytes) : Bool :=
  !v.isEmpty && v.length ≤ kMaxContentLengthDigits && v.all fun c => !(c < 0x30 || c > 0x39)

abbrev hostName : Bytes := bytes "host"
abbrev expectName : Bytes := bytes "expect"

/-- The values of the fields of one name. -/
def values (name : Bytes) (fs : List Field) : List Bytes := (fs.filter (named name)).map Prod.snd

/-- Values of which one was `seen` or not: at most one altogether, and of the right kind. -/
def OnceFit (right : Bytes → Bool) (seen : Bool) (vs : List Bytes) : Prop :=
  vs.length + seen.toNat ≤ 1 ∧ ∀ v ∈ vs, right v = true

/-- Content-lengths after `last`: numbers, and one and the same. -/
def LengthsFit (last : Option Bytes) (vs : List Bytes) : Prop :=
  ∀ v ∈ vs, lengthValue v = true ∧ ∀ w ∈ last.toList ++ vs, v = w

def isChunked (v : Bytes) : Bool := iequals v (bytes "chunked")

def ExpectsFit (vs : List Bytes) : Prop := ∀ v ∈ vs, iequals v (bytes "100-continue") = true

/-- What the parser asks of the fields together. -/
structure Coherent (fs : List Field) : Prop where
  hosts : OnceFit hostValue false (values hostName fs)
  lengths : LengthsFit none (values contentLengthName fs)
  codings : OnceFit isChunked false (values transferEncodingName fs)
  expects : ExpectsFit (values expectName fs)
  /-- Not framed in two ways. -/
  framing : values contentLengthName fs = [] ∨ values transferEncodingName fs = []

theorem forall_byte {P : UInt8 → Prop} (h : ∀ n < 256, P (UInt8.ofNat n)) (c : UInt8) : P c := by
  have := h c.toNat c.toNat_lt
  rwa [UInt8.ofNat_toNat] at this

@[simp] theorem noCtl_append (u v : Bytes) : noCtl (u ++ v) = (noCtl u && noCtl v) :=
  List.all_append

@[simp] theorem noCtl_nil : noCtl [] = true := rfl

theorem noCtl_decimalText (n : Nat) : noCtl (decimalText n) = true := by
  unfold decimalText
  split
  · decide
  unfold noCtl
  rw [List.all_eq_true]
  intro c hc
  obtain ⟨d, hd, rfl⟩ := List.mem_map.mp hc
  have hlt : d < 10 := Nat.digits_lt_base (by decide) (List.mem_reverse.mp hd)
  have hdigit : ∀ d < 10, (!Scan.isCtl (UInt8.ofNat (0x30 + d))) = true := by decide
  exact hdigit d hlt

@[simp] theorem values_nil (name : Bytes) : values name [] = [] := rfl

@[simp] theorem values_append (name : Bytes) (fs gs : List Field) :
    values name (fs ++ gs) = values name fs ++ values name gs := by
  unfold values
  rw [List.filter_append, List.map_append]

theorem values_cons_of_named {name n v : Bytes} {fs : List Field} (h : iequals n name = true) :
    values name ((n, v) :: fs) = v :: values name fs := by
  unfold values
  rw [List.filter_cons_of_pos (show named name (n, v) = true from h)]
  rfl

theorem values_cons_of_not {name n v : Bytes} {fs : List Field} (h : iequals n name = false) :
    values name ((n, v) :: fs) = values name fs := by
  unfold values
  rw [List.filter_cons_of_neg (by rw [show named name (n, v) = false from h]; decide)]

theorem onceFit_cons {right : Bytes → Bool} {seen : Bool} {v : Bytes} {vs : List Bytes} :
    OnceFit right seen (v :: vs) ↔ seen = false ∧ right v = true ∧ OnceFit right true vs := by
  unfold OnceFit
  rw [List.length_cons, List.forall_mem_cons]
  cases seen with
  | true => constructor <;> intro h <;> simp at h
  | false =>
    simp only [Bool.toNat_false, Bool.toNat_true, true_and]
    constructor
    · rintro ⟨hn, hv, hvs⟩
      exact ⟨hv, by omega, hvs⟩
    · rintro ⟨hv, hn, hvs⟩
      exact ⟨by omega, hv, hvs⟩

theorem lengthsFit_cons {last : Option Bytes} {v : Bytes} {vs : List Bytes} : LengthsFit last (v :: vs) ↔
      lengthValue v = true ∧ (∀ w ∈ last, v = w) ∧ LengthsFit (some v) vs := by
  constructor
  · intro h
    have hv := h v (.head _)
    refine ⟨hv.1, fun w hw => hv.2 w (List.mem_append_left _ (Option.mem_toList.mpr hw)), ?_⟩
    intro u hu
    have hu' := h u (.tail _ hu)
    refine ⟨hu'.1, fun w hw => ?_⟩
    exact hu'.2 w (List.mem_append_right _ hw)
  · rintro ⟨hl, hlast, hvs⟩ u hu
    -- every value is `v`, and so is the last one before them
    have hall : ∀ w ∈ last.toList ++ v :: vs, w = v := by
      intro w hw
      rcases List.mem_append.mp hw with hw | hw
      · exact (hlast w (Option.mem_toList.mp hw)).symm
      rcases List.mem_cons.mp hw with rfl | hw
      · rfl
      · exact (hvs w hw).2 v (.head _)
    have huv : u = v := hall u (List.mem_append_right _ hu)
    exact ⟨huv ▸ hl, fun w hw => huv.trans (hall w hw).symm⟩

/-! ## §3. The switch, one field after another. -/

namespace Scan

variable {s s' : Scan} {n v : Bytes}

/-- The fields of a head that is lexically clean. -/
def readFields (s : Scan) : List Field → Except Answer Scan
  | [] => .ok s
  | f :: fs =>
    match (s.addHeader f.1 f.2).onField f.1 f.2 with
    | .error a => .error a
    | .ok s' => s'.readFields fs

theorem readFields_error {f : Field} {fs : List Field} {a : Answer}
    (h : (s.addHeader f.1 f.2).onField f.1 f.2 = .error a) : s.readFields (f :: fs) = .error a := by
  unfold readFields
  rw [h]

theorem readFields_ok {f : Field} {fs : List Field} (h : (s.addHeader f.1 f.2).onField f.1 f.2 = .ok s') :
    s.readFields (f :: fs) = s'.readFields fs := by
  rw [readFields, h]

/-- What the fields still to come have to be, after those that were read. -/
structure Fits (s : Scan) (fs : List Field) : Prop where
  hosts : OnceFit hostValue s.seenHost (values hostName fs)
  lengths : LengthsFit (if s.seenContentLength then some s.contentLength else none)
    (values contentLengthName fs)
  codings : OnceFit isChunked s.seenTransferEncoding (values transferEncodingName fs)
  expects : ExpectsFit (values expectName fs)

/-- Nothing the rules look at is changed. -/
structure SameSeen (s s' : Scan) : Prop where
  host : s'.seenHost = s.seenHost
  length : s'.seenContentLength = s.seenContentLength ∧ s'.contentLength = s.contentLength
  coding : s'.seenTransferEncoding = s.seenTransferEncoding
  version : s'.out.versionMinor = s.out.versionMinor

theorem onField_host (h : iequals n hostName = true) : s.onField n v = s.onHost v := by
  unfold onField
  rw [show n.head?.map lower = some 0x68 from lower_head h]
  show (if iequals n hostName = true then _ else _) = _
  rw [if_pos h]

theorem onField_length (h : iequals n contentLengthName = true) : s.onField n v = s.onContentLength v := by
  unfold onField
  rw [show n.head?.map lower = some 0x63 from lower_head h]
  show (if iequals n (bytes "connection") = true then _ else _) = _
  have hconn : ¬ iequals n (bytes "connection") = true := by
    intro hc
    have h₁ : n.map lower = _ := of_decide_eq_true hc
    have h₂ : n.map lower = _ := of_decide_eq_true h
    cases h₁.symm.trans h₂
  rw [if_neg hconn, if_pos h]

theorem onField_coding (h : iequals n transferEncodingName = true) :
    s.onField n v = s.onTransferEncoding v := by
  unfold onField
  rw [show n.head?.map lower = some 0x74 from lower_head h]
  show (if iequals n transferEncodingName = true then _ else _) = _
  rw [if_pos h]

theorem onField_expect (h : iequals n expectName = true) (hver : s.out.versionMinor = 1) :
    s.onField n v = s.onExpect v := by
  unfold onField
  rw [show n.head?.map lower = some 0x65 from lower_head h]
  show (if (iequals n expectName && decide (s.out.versionMinor ≥ 1)) = true then _ else _) = _
  rw [if_pos (by rw [h, hver]; rfl)]

/-- A field with no rule of its own. -/
theorem onField_plain (hh : iequals n hostName = false) (hl : iequals n contentLengthName = false)
    (hc : iequals n transferEncodingName = false) (he : iequals n expectName = false) :
    ∃ s', s.onField n v = .ok s' ∧ SameSeen s s' := by
  unfold onField
  rw [hh, hl, hc, he]
  simp only [Bool.false_and, Bool.false_eq_true, if_false]
  split
  all_goals
    try split_ifs
    all_goals exact ⟨_, rfl, rfl, ⟨rfl, rfl⟩, rfl, rfl⟩

theorem onHost_ok_iff : (∃ s', s.onHost v = .ok s') ↔ s.seenHost = false ∧ hostValue v = true := by
  unfold onHost hostValue
  rw [← List.not_any_eq_all_not]
  cases s.seenHost with
  | true => simp
  | false =>
    rw [if_neg (by decide)]
    split
    · rename_i h
      rw [h]
      simp
    · rename_i h
      rw [Bool.eq_false_iff.mpr h]
      simp

theorem onHost_ok (h : s.onHost v = .ok s') :
    s' = { s with seenHost := true, out := { s.out with host := v } } := by
  unfold onHost at h
  split_ifs at h
  cases h
  rfl

theorem onExpect_ok_iff : (∃ s', s.onExpect v = .ok s') ↔ iequals v (bytes "100-continue") = true := by
  unfold onExpect
  cases iequals v (bytes "100-continue") <;> simp

theorem onExpect_ok (h : s.onExpect v = .ok s') :
    s' = { s with out := { s.out with expectContinue := true } } := by
  unfold onExpect at h
  split_ifs at h
  cases h
  rfl

theorem onTransferEncoding_ok_iff (hver : s.out.versionMinor = 1) : (∃ s', s.onTransferEncoding v = .ok s') ↔
      s.seenTransferEncoding = false ∧ isChunked v = true := by
  unfold onTransferEncoding isChunked
  rw [if_neg (by omega)]
  cases s.seenTransferEncoding <;> cases iequals v (bytes "chunked") <;> simp

theorem onTransferEncoding_ok (h : s.onTransferEncoding v = .ok s') :
    s' = { s with seenTransferEncoding := true, out := { s.out with chunked := true, hasBody := true } } := by
  unfold onTransferEncoding at h
  split_ifs at h
  cases h
  rfl

/-- A number of at most 19 digits fits into 64 bits. -/
theorem decimal_lt_of_lengthValue (h : lengthValue v = true) : decimal v < 2 ^ 64 := by
  unfold lengthValue at h
  simp only [Bool.and_eq_true, List.all_eq_true, Bool.not_eq_true', Bool.or_eq_false_iff,
    decide_eq_false_iff_not, UInt8.not_lt] at h
  have hle : v.length ≤ 19 := of_decide_eq_true h.1.2
  calc decimal v < 10 ^ v.length := decimal_lt h.2
    _ ≤ 10 ^ 19 := Nat.pow_le_pow_right (by decide) hle
    _ < 2 ^ 64 := by decide

theorem onContentLength_ok_iff : (∃ s', s.onContentLength v = .ok s') ↔
    lengthValue v = true ∧ (s.seenContentLength = true → v = s.contentLength) := by
  have hval : lengthValue v = true ↔
      ¬ (v.isEmpty || decide (v.length > kMaxContentLengthDigits)) = true ∧
        ¬ (v.any fun c => c < 0x30 || c > 0x39) = true := by
    unfold lengthValue
    rw [← List.not_any_eq_all_not]
    cases v.isEmpty <;> cases (v.any fun c => c < 0x30 || c > 0x39) <;> simp
  constructor
  · rintro ⟨s', h⟩
    unfold onContentLength at h
    split at h
    · cases h
    rename_i h₁
    split at h
    · cases h
    rename_i h₂
    split at h
    · cases h
    rename_i h₃
    refine ⟨hval.mpr ⟨h₁, h₂⟩, fun hs => ?_⟩
    by_contra hne
    exact h₃ (by rw [hs, decide_eq_true hne]; rfl)
  · rintro ⟨hv, hs⟩
    unfold onContentLength
    rw [if_neg (hval.mp hv).1, if_neg (hval.mp hv).2, if_neg]
    · dsimp only
      rw [if_pos (decimal_lt_of_lengthValue hv)]
      split <;> exact ⟨_, rfl⟩
    · intro h
      simp only [Bool.and_eq_true, decide_eq_true_eq] at h
      exact h.2 (hs h.1)

theorem onContentLength_ok (h : s.onContentLength v = .ok s') :
    s'.seenHost = s.seenHost ∧ (s'.seenContentLength = true ∧ s'.contentLength = v) ∧
      s'.seenTransferEncoding = s.seenTransferEncoding ∧ s'.out.versionMinor = s.out.versionMinor := by
  unfold onContentLength at h
  split_ifs at h
  all_goals
    cases h
    exact ⟨rfl, ⟨rfl, rfl⟩, rfl, rfl⟩

theorem SameSeen.fits {fs : List Field} (h : SameSeen s s') : s'.Fits fs ↔ s.Fits fs := by
  constructor <;> intro hf
  · exact ⟨h.host ▸ hf.hosts, by rw [← h.length.1, ← h.length.2]; exact hf.lengths,
      h.coding ▸ hf.codings, hf.expects⟩
  · exact ⟨h.host.symm ▸ hf.hosts, by rw [h.length.1, h.length.2]; exact hf.lengths,
      h.coding.symm ▸ hf.codings, hf.expects⟩

/-- Two names that differ. -/
theorem not_iequals {a b : Bytes} (h : iequals n a = true) (hab : a.map lower ≠ b.map lower) :
    iequals n b = false := by
  by_contra hb
  have h₁ : n.map lower = _ := of_decide_eq_true h
  have h₂ : n.map lower = _ := of_decide_eq_true (Bool.not_eq_false _ ▸ hb)
  exact hab (h₁.symm.trans h₂)

section Step

variable {fs : List Field}

/-- A name with one rule has no other. -/
theorem fits_host (hh : iequals n hostName = true) : s.Fits ((n, v) :: fs) ↔
    (s.seenHost = false ∧ hostValue v = true) ∧ Fits { s with seenHost := true } fs := by
  have hl : iequals n contentLengthName = false := not_iequals hh (by decide)
  have hc : iequals n transferEncodingName = false := not_iequals hh (by decide)
  have he : iequals n expectName = false := not_iequals hh (by decide)
  constructor
  · rintro ⟨h₁, h₂, h₃, h₄⟩
    rw [values_cons_of_named hh, onceFit_cons] at h₁
    rw [values_cons_of_not hl] at h₂
    rw [values_cons_of_not hc] at h₃
    rw [values_cons_of_not he] at h₄
    exact ⟨⟨h₁.1, h₁.2.1⟩, h₁.2.2, h₂, h₃, h₄⟩
  · rintro ⟨⟨hs, hv⟩, h₁, h₂, h₃, h₄⟩
    refine ⟨?_, ?_, ?_, ?_⟩
    · rw [values_cons_of_named hh, onceFit_cons]; exact ⟨hs, hv, h₁⟩
    · rw [values_cons_of_not hl]; exact h₂
    · rw [values_cons_of_not hc]; exact h₃
    · rw [values_cons_of_not he]; exact h₄

theorem fits_length (hl : iequals n contentLengthName = true) : s.Fits ((n, v) :: fs) ↔
    (lengthValue v = true ∧ (s.seenContentLength = true → v = s.contentLength)) ∧
      Fits { s with seenContentLength := true, contentLength := v } fs := by
  have hh : iequals n hostName = false := not_iequals hl (by decide)
  have hc : iequals n transferEncodingName = false := not_iequals hl (by decide)
  have he : iequals n expectName = false := not_iequals hl (by decide)
  have hlast : (∀ w ∈ (if s.seenContentLength then some s.contentLength else none), v = w) ↔
      (s.seenContentLength = true → v = s.contentLength) := by
    cases s.seenContentLength <;> simp
  constructor
  · rintro ⟨h₁, h₂, h₃, h₄⟩
    rw [values_cons_of_not hh] at h₁
    rw [values_cons_of_named hl, lengthsFit_cons, hlast] at h₂
    rw [values_cons_of_not hc] at h₃
    rw [values_cons_of_not he] at h₄
    exact ⟨⟨h₂.1, h₂.2.1⟩, h₁, h₂.2.2, h₃, h₄⟩
  · rintro ⟨⟨hv, hs⟩, h₁, h₂, h₃, h₄⟩
    refine ⟨?_, ?_, ?_, ?_⟩
    · rw [values_cons_of_not hh]; exact h₁
    · rw [values_cons_of_named hl, lengthsFit_cons, hlast]; exact ⟨hv, hs, h₂⟩
    · rw [values_cons_of_not hc]; exact h₃
    · rw [values_cons_of_not he]; exact h₄

theorem fits_coding (hc : iequals n transferEncodingName = true) : s.Fits ((n, v) :: fs) ↔
    (s.seenTransferEncoding = false ∧ isChunked v = true) ∧
      Fits { s with seenTransferEncoding := true } fs := by
  have hh : iequals n hostName = false := not_iequals hc (by decide)
  have hl : iequals n contentLengthName = false := not_iequals hc (by decide)
  have he : iequals n expectName = false := not_iequals hc (by decide)
  constructor
  · rintro ⟨h₁, h₂, h₃, h₄⟩
    rw [values_cons_of_not hh] at h₁
    rw [values_cons_of_not hl] at h₂
    rw [values_cons_of_named hc, onceFit_cons] at h₃
    rw [values_cons_of_not he] at h₄
    exact ⟨⟨h₃.1, h₃.2.1⟩, h₁, h₂, h₃.2.2, h₄⟩
  · rintro ⟨⟨hs, hv⟩, h₁, h₂, h₃, h₄⟩
    refine ⟨?_, ?_, ?_, ?_⟩
    · rw [values_cons_of_not hh]; exact h₁
    · rw [values_cons_of_not hl]; exact h₂
    · rw [values_cons_of_named hc, onceFit_cons]; exact ⟨hs, hv, h₃⟩
    · rw [values_cons_of_not he]; exact h₄

theorem fits_other (hh : iequals n hostName = false) (hl : iequals n contentLengthName = false)
    (hc : iequals n transferEncodingName = false) : s.Fits ((n, v) :: fs) ↔
      (iequals n expectName = true → iequals v (bytes "100-continue") = true) ∧ s.Fits fs := by
  have hexp : ExpectsFit (values expectName ((n, v) :: fs)) ↔
      (iequals n expectName = true → iequals v (bytes "100-continue") = true) ∧
        ExpectsFit (values expectName fs) := by
    cases he : iequals n expectName with
    | true => rw [values_cons_of_named he]; simp [ExpectsFit]
    | false => rw [values_cons_of_not he]; simp
  constructor
  · rintro ⟨h₁, h₂, h₃, h₄⟩
    rw [values_cons_of_not hh] at h₁
    rw [values_cons_of_not hl] at h₂
    rw [values_cons_of_not hc] at h₃
    exact ⟨(hexp.mp h₄).1, h₁, h₂, h₃, (hexp.mp h₄).2⟩
  · rintro ⟨hv, h₁, h₂, h₃, h₄⟩
    refine ⟨?_, ?_, ?_, hexp.mpr ⟨hv, h₄⟩⟩
    · rw [values_cons_of_not hh]; exact h₁
    · rw [values_cons_of_not hl]; exact h₂
    · rw [values_cons_of_not hc]; exact h₃

/-- A rule that lets the field through, and the scan it leaves. -/
theorem step_iff {r : Except Answer Scan} {P : Prop} {t : Scan} (hver : t.out.versionMinor = 1)
    (hiff : (∃ s', r = .ok s') ↔ P) (hok : ∀ s', r = .ok s' → SameSeen t s') :
    (P ∧ t.Fits fs) ↔ ∃ s', r = .ok s' ∧ s'.out.versionMinor = 1 ∧ s'.Fits fs := by
  constructor
  · rintro ⟨hp, hf⟩
    obtain ⟨s', hs'⟩ := hiff.mpr hp
    have hsame := hok s' hs'
    exact ⟨s', hs', hsame.version.trans hver, hsame.fits.mpr hf⟩
  · rintro ⟨s', hs', _, hf⟩
    exact ⟨hiff.mp ⟨s', hs'⟩, (hok s' hs').fits.mp hf⟩

/-- **One field**: the switch lets it through exactly when it fits, and the rest fits then. -/
theorem fits_cons (hver : s.out.versionMinor = 1) : s.Fits ((n, v) :: fs) ↔
    ∃ s', s.onField n v = .ok s' ∧ s'.out.versionMinor = 1 ∧ s'.Fits fs := by
  cases hh : iequals n hostName with
  | true =>
    rw [fits_host hh, onField_host hh]
    refine step_iff hver onHost_ok_iff fun s' hs' => ?_
    rw [onHost_ok hs']
    exact ⟨rfl, ⟨rfl, rfl⟩, rfl, rfl⟩
  | false =>
  cases hl : iequals n contentLengthName with
  | true =>
    rw [fits_length hl, onField_length hl]
    refine step_iff hver onContentLength_ok_iff fun s' hs' => ?_
    obtain ⟨h₁, h₂, h₃, h₄⟩ := onContentLength_ok hs'
    exact ⟨h₁, h₂, h₃, h₄⟩
  | false =>
  cases hc : iequals n transferEncodingName with
  | true =>
    rw [fits_coding hc, onField_coding hc]
    refine step_iff hver (onTransferEncoding_ok_iff hver) fun s' hs' => ?_
    rw [onTransferEncoding_ok hs']
    exact ⟨rfl, ⟨rfl, rfl⟩, rfl, rfl⟩
  | false =>
  rw [fits_other hh hl hc]
  cases he : iequals n expectName with
  | true =>
    rw [onField_expect he hver]
    refine step_iff hver (onExpect_ok_iff.trans (by simp)) fun s' hs' => ?_
    rw [onExpect_ok hs']
    exact ⟨rfl, ⟨rfl, rfl⟩, rfl, rfl⟩
  | false =>
    obtain ⟨s₁, hs₁, hsame⟩ := onField_plain (s := s) (v := v) hh hl hc he
    rw [hs₁]
    refine step_iff hver (by simp) fun s' hs' => ?_
    cases hs'
    exact hsame

end Step

/-- What a field leaves of the scan, beside its own entry. -/
theorem onField_kept (h : (s.addHeader n v).onField n v = .ok s') :
    s'.out.headers = s.out.headers ++ [(n, v)] ∧ s'.out.methodName = s.out.methodName ∧
      s'.out.target = s.out.target ∧
      s'.seenContentLength = (s.seenContentLength || iequals n contentLengthName) ∧
      s'.seenTransferEncoding = (s.seenTransferEncoding || iequals n transferEncodingName) := by
  have ht := onField_took h
  refine ⟨ht.headers, ht.methodName, ht.target, ?_, ?_⟩
  · have hl := ht.length
    cases hn : iequals n contentLengthName with
    | true =>
      rw [if_pos hn] at hl
      rw [hl.2.2.1, Bool.or_true]
    | false =>
      rw [if_neg (by rw [hn]; decide)] at hl
      rw [hl.1, Bool.or_false]
      rfl
  · have hc := ht.coding
    cases hn : iequals n transferEncodingName with
    | true =>
      rw [if_pos hn] at hc
      rw [hc.2.1, Bool.or_true]
    | false =>
      rw [if_neg (by rw [hn]; decide)] at hc
      rw [hc.1, Bool.or_false]
      rfl

theorem onField_version (h : s.onField n v = .ok s') : s'.out.versionMinor = s.out.versionMinor := by
  unfold onField onHost onContentLength onExpect onTransferEncoding at h
  split at h
  all_goals try split_ifs at h
  all_goals
    cases h
    rfl

/-- The version a run over fields ends with is the one it began with. -/
theorem readFields_version {fs : List Field} (h : s.readFields fs = .ok s')
    (hver : s'.out.versionMinor = 1) : s.out.versionMinor = 1 := by
  induction fs generalizing s with
  | nil =>
    cases h
    exact hver
  | cons f fs ih =>
    unfold readFields at h
    cases hf : (s.addHeader f.1 f.2).onField f.1 f.2 with
    | error a => rw [hf] at h; cases h
    | ok s₁ =>
      rw [hf] at h
      rw [← ih h]
      exact (onField_version hf).symm

/-- The scan behind a run over fields. -/
theorem readFields_kept {fs : List Field} (h : s.readFields fs = .ok s') :
    s'.out.headers = s.out.headers ++ fs ∧ s'.out.methodName = s.out.methodName ∧
      s'.out.target = s.out.target ∧
      s'.seenContentLength = (s.seenContentLength || !(values contentLengthName fs).isEmpty) ∧
      s'.seenTransferEncoding =
        (s.seenTransferEncoding || !(values transferEncodingName fs).isEmpty) := by
  induction fs generalizing s with
  | nil =>
    cases h
    simp
  | cons f fs ih =>
    unfold readFields at h
    cases hf : (s.addHeader f.1 f.2).onField f.1 f.2 with
    | error a => rw [hf] at h; cases h
    | ok s₁ =>
      rw [hf] at h
      obtain ⟨h₁, h₂, h₃, h₄, h₅⟩ := onField_kept hf
      obtain ⟨k₁, k₂, k₃, k₄, k₅⟩ := ih h
      refine ⟨by rw [k₁, h₁, List.append_assoc]; rfl, k₂.trans h₂, k₃.trans h₃, ?_, ?_⟩
      · rw [k₄, h₄]
        cases hn : iequals f.1 contentLengthName with
        | true => rw [show f = (f.1, f.2) from rfl, values_cons_of_named hn]; simp
        | false => rw [show f = (f.1, f.2) from rfl, values_cons_of_not hn, Bool.or_false]
      · rw [k₅, h₅]
        cases hn : iequals f.1 transferEncodingName with
        | true => rw [show f = (f.1, f.2) from rfl, values_cons_of_named hn]; simp
        | false => rw [show f = (f.1, f.2) from rfl, values_cons_of_not hn, Bool.or_false]

/-- **The fields the switch lets through.** -/
theorem readFields_ok_iff {l : List Field} (hver : s.out.versionMinor = 1) :
    (∃ s', s.readFields l = .ok s' ∧ s'.out.versionMinor = 1) ↔ s.Fits l := by
  induction l generalizing s with
  | nil =>
    constructor
    · intro _
      exact ⟨⟨by cases s.seenHost <;> decide, nofun⟩, nofun,
        ⟨by cases s.seenTransferEncoding <;> decide, nofun⟩, nofun⟩
    · intro _
      exact ⟨s, rfl, hver⟩
  | cons f l ih =>
    have hadd : (s.addHeader f.1 f.2).Fits (f :: l) ↔ s.Fits (f :: l) :=
      SameSeen.fits ⟨rfl, ⟨rfl, rfl⟩, rfl, rfl⟩
    rw [← hadd, show f :: l = (f.1, f.2) :: l from rfl, fits_cons (s := s.addHeader f.1 f.2) hver]
    unfold readFields
    constructor
    · rintro ⟨s', h, hv⟩
      cases hf : (s.addHeader f.1 f.2).onField f.1 f.2 with
      | error a => rw [hf] at h; cases h
      | ok s₁ =>
        rw [hf] at h
        -- the version is the one the run ends with
        have hv₁ : s₁.out.versionMinor = 1 := (onField_version hf).trans hver
        exact ⟨s₁, rfl, hv₁, (ih hv₁).mp ⟨s', h, hv⟩⟩
    · rintro ⟨s₁, hf, hv₁, hfits⟩
      rw [hf]
      exact (ih hv₁).mpr hfits

/-! ## §4. From a completed head to its fields. -/

theorem fieldLine_ok {line : Bytes} (h : s.fieldLine line = .ok s') :
    isToken (fieldOf line).1 = true ∧ noCtl (fieldOf line).2 = true ∧
      (s.addHeader (fieldOf line).1 (fieldOf line).2).onField (fieldOf line).1 (fieldOf line).2 = .ok s' := by
  unfold Scan.fieldLine at h
  split at h
  · cases h
  split at h
  · cases h
  dsimp only at h
  split at h
  · cases h
  rename_i hcolon
  split at h
  · cases h
  rename_i htok
  split at h
  · cases h
  split at h
  · cases h
  rename_i hctl
  simp only [Bool.or_eq_true, decide_eq_true_eq, not_or] at hcolon
  have hne : (line.take (line.idxOf colon)).isEmpty = false := by
    rw [List.isEmpty_eq_false_iff]
    intro hnil
    rcases List.take_eq_nil_iff.mp hnil with h0 | hl
    · exact hcolon.2 h0
    rw [hl] at hcolon
    exact hcolon.2 rfl
  refine ⟨?_, ?_, h⟩
  · unfold isToken fieldOf
    rw [hne]
    simpa using htok
  · unfold noCtl fieldOf
    rw [← List.not_any_eq_all_not]
    simpa using hctl

/-- **A completed head is a run over its lines.** -/
theorem fields_complete {buf : Bytes} {left pos : Nat} {r : Request}
    (h : s.fields buf left pos = (.complete, r)) :
    ∃ gs s', gs.length ≤ left ∧ (∀ g ∈ gs, isToken g.1 = true ∧ noCtl g.2 = true) ∧
      s.readFields gs = .ok s' ∧ s'.finish r.length = (.complete, r) := by
  -- the end of the head, with any number of fields still allowed
  have hend : ∀ {s : Scan} {next left : Nat}, s.finish next = (.complete, r) →
      ∃ gs s', gs.length ≤ left ∧ (∀ g ∈ gs, isToken g.1 = true ∧ noCtl g.2 = true) ∧
        s.readFields gs = .ok s' ∧ s'.finish r.length = (.complete, r) := by
    intro s next left hfin
    refine ⟨[], s, Nat.zero_le _, nofun, rfl, ?_⟩
    have hnext : r.length = next := by
      unfold finish at hfin
      split at hfin
      · cases hfin
      cases hfin
      rfl
    rw [hnext]
    exact hfin
  induction left generalizing pos s with
  | zero =>
    unfold Scan.fields at h
    cases hl : nextLine buf pos with
    | none => rw [hl] at h; cases h
    | some l =>
      rw [hl] at h
      dsimp only at h
      split at h
      · exact hend h
      · cases h
  | succ left ih =>
    unfold Scan.fields at h
    cases hl : nextLine buf pos with
    | none => rw [hl] at h; cases h
    | some l =>
      rw [hl] at h
      dsimp only at h
      split at h
      · exact hend h
      cases hf : s.fieldLine l.1 with
      | error a =>
        rw [hf] at h
        exact absurd (congrArg Prod.fst h) (fieldLine_error hf)
      | ok s₁ =>
        rw [hf] at h
        obtain ⟨h₁, h₂, h₃⟩ := fieldLine_ok hf
        obtain ⟨gs, s', hlen, hlex, hread, hfin⟩ := ih h
        refine ⟨fieldOf l.1 :: gs, s', by simpa using hlen,
          List.forall_mem_cons.mpr ⟨⟨h₁, h₂⟩, hlex⟩, ?_, hfin⟩
        unfold readFields
        rw [h₃]
        exact hread

end Scan

/-- A request line that is taken has a target, without blanks. -/
theorem requestLine_target {line : Bytes} {out : Request} (h : requestLine line = .ok out) :
    isTarget out.target = true := by
  unfold requestLine at h
  dsimp only at h
  split at h
  · cases h
  split at h
  · cases h
  rename_i hsp
  split at h
  · cases h
  split at h
  · cases h
  rename_i htgt
  simp only [Bool.or_eq_true, decide_eq_true_eq, not_or] at hsp
  have hne : ((line.drop (line.idxOf sp + 1)).take
      ((line.drop (line.idxOf sp + 1)).idxOf sp)).isEmpty = false := by
    rw [List.isEmpty_eq_false_iff]
    intro hnil
    rcases List.take_eq_nil_iff.mp hnil with h0 | hl
    · exact hsp.2 h0
    rw [hl] at hsp
    exact hsp.2 rfl
  have hall : isTarget ((line.drop (line.idxOf sp + 1)).take
      ((line.drop (line.idxOf sp + 1)).idxOf sp)) = true := by
    unfold isTarget
    rw [hne, ← List.not_any_eq_all_not]
    simpa using htgt
  split_ifs at h
  all_goals
    cases h
    exact hall

/-! ## §5. From the text of a head to its fields. -/

section Text

variable {buf rest l m t : Bytes} {pos : Nat} {f : Field} {fs : List Field}

/-- A line of a text. -/
theorem nextLine_text (h : buf.drop pos = l ++ cr :: lf :: rest) (hl : lf ∉ l) :
    nextLine buf pos = some (l, pos + (l.length + 2)) := by
  have hfind : (buf.drop pos).findIdx? (· = lf) = some (l.length + 1) := by
    rw [h, List.findIdx?_append, List.findIdx?_eq_none_iff.mpr fun c hc => by
      rw [decide_eq_false_iff_not]; exact fun hcl => hl (hcl ▸ hc)]
    rw [List.findIdx?_cons, if_neg (by decide), List.findIdx?_cons, if_pos (by decide)]
    show some (1 + l.length) = _
    rw [Nat.add_comm]
  unfold nextLine
  rw [hfind]
  dsimp only
  have hcr : (buf.drop pos)[l.length + 1 - 1]? = some cr := by
    rw [h, Nat.add_sub_cancel, List.getElem?_append_right le_rfl, Nat.sub_self]
    rfl
  rw [hcr, if_pos (by simp), h, Nat.add_sub_cancel, List.take_left']
  · rfl
  · rfl

theorem isToken_spec {n : Bytes} (h : isToken n = true) : n ≠ [] ∧ ∀ c ∈ n, isTchar c = true := by
  unfold isToken at h
  simp only [Bool.and_eq_true, Bool.not_eq_true', List.isEmpty_eq_false_iff, List.all_eq_true] at h
  exact h

/-- A byte that is not in any token. -/
theorem notMem_token {n : Bytes} {c : UInt8} (h : isToken n = true) (hc : isTchar c = false) : c ∉ n := by
  intro hmem
  have := (isToken_spec h).2 c hmem
  rw [hc] at this
  cases this

theorem notMem_noCtl {v : Bytes} {c : UInt8} (h : noCtl v = true) (hc : Scan.isCtl c = true) : c ∉ v := by
  intro hmem
  have := List.all_eq_true.mp h c hmem
  rw [hc] at this
  cases this

theorem lf_notMem_fieldText (hn : isToken f.1 = true) (hv : noCtl f.2 = true) : lf ∉ fieldText f := by
  unfold fieldText
  simp only [List.mem_append, List.mem_cons, not_or]
  exact ⟨notMem_token hn (by decide), by decide, by decide, notMem_noCtl hv (by decide)⟩

theorem fieldText_ne_nil : (fieldText f).isEmpty = false := by
  rw [List.isEmpty_eq_false_iff]
  unfold fieldText
  simp

/-- **A field's line**: all that is left to say is the switch. -/
theorem Scan.fieldLine_text {s : Scan} (hn : isToken f.1 = true) (hv : noCtl f.2 = true)
    (hroom : s.out.headers.length < kCapacity) :
    s.fieldLine (fieldText f) = (s.addHeader f.1 (trim f.2)).onField f.1 (trim f.2) := by
  obtain ⟨hne, htok⟩ := isToken_spec hn
  have hidx : (fieldText f).idxOf colon = f.1.length := by
    unfold fieldText
    rw [List.idxOf_append_of_notMem (notMem_token hn (by decide)), List.idxOf_cons_self, Nat.add_zero]
  have hlen : (fieldText f).length = f.1.length + f.2.length + 2 := by
    unfold fieldText
    rw [List.length_append, List.length_cons, List.length_cons]
    omega
  have htake : (fieldText f).take f.1.length = f.1 := by
    unfold fieldText
    exact List.take_left' rfl
  have hdrop : trim ((fieldText f).drop (f.1.length + 1)) = trim f.2 := by
    unfold fieldText
    rw [List.drop_append, List.drop_eq_nil_of_le (Nat.le_succ _), List.nil_append, Nat.add_sub_cancel_left]
    rfl
  have hhead : (fieldText f).head?.any edgeByte = false := by
    unfold fieldText
    cases hf : f.1 with
    | nil => exact absurd hf hne
    | cons c cs =>
      have hc := htok c (by rw [hf]; exact .head _)
      show edgeByte c = false
      unfold edgeByte
      rw [Bool.or_eq_false_iff, decide_eq_false_iff_not, decide_eq_false_iff_not]
      refine ⟨?_, ?_⟩ <;> rintro rfl <;> cases hc
  have hcr : (fieldText f).contains cr = false := by
    rw [List.contains_eq_mem, decide_eq_false_iff_not]
    unfold fieldText
    simp only [List.mem_append, List.mem_cons, not_or]
    exact ⟨notMem_token hn (by decide), by decide, by decide, notMem_noCtl hv (by decide)⟩
  have hpos : f.1.length ≠ 0 := fun h0 => hne (List.length_eq_zero_iff.mp h0)
  have hctl : (trim f.2).any isCtl = false := by
    rw [List.any_eq_false]
    intro c hc hcc
    have hmem : c ∈ f.2 := by
      unfold trim at hc
      exact (List.dropWhile_sublist _).mem ((List.rdropWhile_prefix _ _).sublist.mem hc)
    exact notMem_noCtl hv hcc hmem
  have hall : f.1.all isTchar = true := List.all_eq_true.mpr htok
  unfold Scan.fieldLine
  rw [if_neg (by rw [hhead]; decide), if_neg (by rw [hcr]; decide)]
  dsimp only
  rw [hidx, if_neg, htake, hdrop, hall]
  · show (if s.out.headers.length ≥ kCapacity then _ else _) = _
    rw [if_neg (by omega)]
    rw [if_neg (by rw [hctl]; decide)]
  · rw [hlen, Bool.or_eq_true, decide_eq_true_eq, decide_eq_true_eq]
    omega

/-- **The loop over the lines of a text.** -/
theorem Scan.fields_text {s : Scan} {left : Nat} (h : buf.drop pos = fieldLines fs ++ crlf)
    (hlex : ∀ g ∈ fs, isToken g.1 = true ∧ noCtl g.2 = true) (hleft : fs.length ≤ left)
    (hroom : s.out.headers.length + fs.length ≤ kCapacity) : s.fields buf left pos =
      match s.readFields (fs.map trimmed) with
      | .error a => a
      | .ok s' => s'.finish (pos + ((fieldLines fs).length + 2)) := by
  induction fs generalizing pos s left with
  | nil =>
    have hl : nextLine buf pos = some ([], pos + 2) :=
      @nextLine_text _ [] [] _ h (by simp)
    unfold Scan.fields
    rw [hl]
    rfl
  | cons f fs ih =>
    obtain ⟨⟨hn, hv⟩, hrest⟩ := List.forall_mem_cons.mp hlex
    have htext : buf.drop pos = fieldText f ++ cr :: lf :: (fieldLines fs ++ crlf) := by
      rw [h]
      unfold fieldLines
      rw [List.flatMap_cons]
      simp
    have hl := nextLine_text htext (lf_notMem_fieldText hn hv)
    have hdrop : buf.drop (pos + ((fieldText f).length + 2)) = fieldLines fs ++ crlf := by
      rw [← List.drop_drop, htext, ← List.drop_drop, List.drop_left' rfl]
      rfl
    have hlen : (fieldLines (f :: fs)).length = (fieldText f).length + 2 + (fieldLines fs).length := by
      unfold fieldLines
      rw [List.flatMap_cons, List.length_append, List.length_append]
      rfl
    obtain ⟨left, rfl⟩ : ∃ k, left = k + 1 := ⟨left - 1, by rw [List.length_cons] at hleft; omega⟩
    rw [List.length_cons] at hleft hroom
    unfold Scan.fields
    rw [hl]
    dsimp only
    rw [if_neg (by rw [fieldText_ne_nil]; decide), Scan.fieldLine_text hn hv (by omega),
      List.map_cons]
    cases hf : (s.addHeader f.1 (trim f.2)).onField f.1 (trim f.2) with
    | error a => rw [Scan.readFields_error (f := trimmed f) hf]
    | ok s₁ =>
      rw [Scan.readFields_ok (f := trimmed f) hf]
      dsimp only
      have hh := (Scan.onField_kept hf).1
      rw [ih hdrop hrest (by omega) (by rw [hh, List.length_append, List.length_singleton]; omega), hlen,
        Nat.add_assoc pos, ← Nat.add_assoc _ _ 2]

/-- A request line, taken apart again. -/
theorem requestLine_text (hm : isToken m = true) (ht : isTarget t = true) :
    requestLine (requestText m t) = .ok (lineRequest m t) := by
  obtain ⟨hne, htok⟩ := isToken_spec hm
  unfold isTarget at ht
  simp only [Bool.and_eq_true, Bool.not_eq_true', List.isEmpty_eq_false_iff] at ht
  have hsp : sp ∉ t := by
    intro hmem
    have := List.all_eq_true.mp ht.2 sp hmem
    cases this
  have hi : (requestText m t).idxOf sp = m.length := by
    unfold requestText
    rw [List.idxOf_append_of_notMem (notMem_token hm (by decide)), List.idxOf_cons_self, Nat.add_zero]
  have hd : (requestText m t).drop (m.length + 1) = t ++ sp :: bytes "HTTP/1.1" := by
    unfold requestText
    rw [List.drop_append, List.drop_eq_nil_of_le (Nat.le_succ _), List.nil_append, Nat.add_sub_cancel_left]
    rfl
  have htk : (requestText m t).take m.length = m := by
    unfold requestText
    exact List.take_left' rfl
  have hi2 : (t ++ sp :: bytes "HTTP/1.1").idxOf sp = t.length := by
    rw [List.idxOf_append_of_notMem hsp, List.idxOf_cons_self, Nat.add_zero]
  have hv : (t ++ sp :: bytes "HTTP/1.1").drop (t.length + 1) = bytes "HTTP/1.1" := by
    rw [List.drop_append, List.drop_eq_nil_of_le (Nat.le_succ _), List.nil_append, Nat.add_sub_cancel_left]
    rfl
  have hlm : m.length ≠ 0 := fun h => hne (List.length_eq_zero_iff.mp h)
  have hlt : t.length ≠ 0 := fun h => ht.1 (List.length_eq_zero_iff.mp h)
  have hall : m.all isTchar = true := List.all_eq_true.mpr htok
  have hany : (t.any fun c => c ≤ 0x20 || c = 0x7f) = false := by
    rw [← Bool.not_eq_true', List.not_any_eq_all_not]
    exact ht.2
  unfold requestLine
  dsimp only
  rw [hi, hd, htk, hi2, hv, if_neg, if_neg, hall, List.take_left' rfl, hany]
  · rfl
  · rw [Bool.or_eq_true, decide_eq_true_eq, decide_eq_true_eq, List.length_append, List.length_cons]
    omega
  · unfold requestText
    rw [Bool.or_eq_true, decide_eq_true_eq, decide_eq_true_eq, List.length_append, List.length_cons]
    omega

end Text

/-! ## §6. Read as it was meant. -/

section ReadsBack

variable {m t : Bytes} {fs : List Field}

/-- The blanks at the ends are no control characters. -/
theorem noCtl_trim (v : Bytes) : noCtl (trim v) = noCtl v := by
  have hdrop : ∀ l : Bytes, noCtl (l.dropWhile edgeByte) = noCtl l := by
    intro l
    induction l with
    | nil => rfl
    | cons c cs ih =>
      rw [List.dropWhile_cons]
      split
      · rename_i hc
        have hctl : Scan.isCtl c = false := by
          unfold edgeByte at hc
          rw [Bool.or_eq_true, decide_eq_true_eq, decide_eq_true_eq] at hc
          rcases hc with rfl | rfl <;> decide
        rw [ih]
        unfold noCtl
        rw [List.all_cons, hctl]
        rfl
      · rfl
  have hrev : ∀ l : Bytes, noCtl l.reverse = noCtl l := fun l => List.all_reverse
  unfold trim List.rdropWhile
  rw [hrev, hdrop, hrev, hdrop]

/-- What is asked of each part on its own. -/
structure Lexical (m t : Bytes) (fs : List Field) : Prop where
  method : isToken m = true
  target : isTarget t = true
  fields : ∀ f ∈ fs, isToken f.1 = true ∧ noCtl f.2 = true

theorem length_headText : (headText m t fs).length =
    (requestText m t).length + 2 + ((fieldLines fs).length + 2) := by
  unfold headText
  simp only [List.length_append, List.length_cons, List.length_nil]

/-- The parser on a head whose parts are clean: the switch decides. -/
theorem parseRequest_headText (hlex : Lexical m t fs) (hroom : fs.length ≤ kCapacity) :
    parseRequest (headText m t fs) =
      match Scan.readFields { out := lineRequest m t } (fs.map trimmed) with
      | .error a => a
      | .ok s' => s'.finish (headText m t fs).length := by
  obtain ⟨hne, htok⟩ := isToken_spec hlex.method
  have hlf : lf ∉ requestText m t := by
    unfold requestText
    simp only [List.mem_append, List.mem_cons, not_or]
    refine ⟨notMem_token hlex.method (by decide), by decide, fun hmem => ?_, by decide, by decide⟩
    have hall := hlex.target
    unfold isTarget at hall
    simp only [Bool.and_eq_true] at hall
    cases List.all_eq_true.mp hall.2 lf hmem
  -- nothing is skipped in front of a method
  have hskip : ((headText m t fs).takeWhile fun c => c = cr || c = lf).length = 0 := by
    unfold headText requestText
    cases hm : m with
    | nil => exact absurd hm hne
    | cons c cs =>
      have hc := htok c (by rw [hm]; exact .head _)
      have hcl : (decide (c = cr) || decide (c = lf)) = false := by
        rw [Bool.or_eq_false_iff, decide_eq_false_iff_not, decide_eq_false_iff_not]
        refine ⟨?_, ?_⟩ <;> rintro rfl <;> cases hc
      simp only [List.cons_append, List.takeWhile_cons, hcl]
      rfl
  have hl : nextLine (headText m t fs) 0 =
      some (requestText m t, 0 + ((requestText m t).length + 2)) := by
    refine @nextLine_text _ (fieldLines fs ++ crlf) _ _ ?_ hlf
    unfold headText
    simp
  have hdrop : (headText m t fs).drop (0 + ((requestText m t).length + 2)) = fieldLines fs ++ crlf := by
    unfold headText
    rw [Nat.zero_add]
    exact List.drop_left' (by simp)
  unfold parseRequest
  dsimp only
  rw [hskip, hl]
  dsimp only
  rw [requestLine_text hlex.method hlex.target]
  dsimp only
  have hfields := Scan.fields_text (s := { out := lineRequest m t }) hdrop hlex.fields
    (show fs.length ≤ kMaxHeaderCount from hroom) (by simpa [lineRequest] using hroom)
  rw [hfields, length_headText, Nat.zero_add]

/-- A scan that ends completes when its fields are not framed in two ways. -/
theorem Scan.finish_complete_iff {s : Scan} {pos : Nat} : (∃ r, s.finish pos = (.complete, r)) ↔
      ¬ (s.seenContentLength = true ∧ s.seenTransferEncoding = true) := by
  unfold Scan.finish
  cases s.seenContentLength <;> cases s.seenTransferEncoding <;> simp

theorem Scan.finish_kept {s : Scan} {pos : Nat} {r : Request} (h : s.finish pos = (.complete, r)) :
    r.length = pos ∧ r.methodName = s.out.methodName ∧ r.target = s.out.target ∧
      r.versionMinor = s.out.versionMinor ∧ r.headers = s.out.headers := by
  unfold Scan.finish at h
  split at h
  · cases h
  cases h
  exact ⟨rfl, rfl, rfl, rfl, rfl⟩

/-- The rules on the fields together, from a fresh request line. -/
theorem coherent_iff {out : Request} {gs : List Field} (hver : out.versionMinor = 1) :
    Coherent gs ↔ ∃ s', Scan.readFields { out := out } gs = .ok s' ∧ s'.out.versionMinor = 1 ∧
      ¬ (s'.seenContentLength = true ∧ s'.seenTransferEncoding = true) := by
  have hfits := Scan.readFields_ok_iff (s := { out := out }) (l := gs) hver
  have hboth : ∀ s', Scan.readFields { out := out } gs = .ok s' →
      (¬ (s'.seenContentLength = true ∧ s'.seenTransferEncoding = true) ↔
        values contentLengthName gs = [] ∨ values transferEncodingName gs = []) := by
    intro s' hs'
    obtain ⟨_, _, _, h₁, h₂⟩ := Scan.readFields_kept hs'
    rw [h₁, h₂]
    cases values contentLengthName gs <;> cases values transferEncodingName gs <;> simp
  constructor
  · rintro ⟨h₁, h₂, h₃, h₄, h₅⟩
    obtain ⟨s', hs', hv⟩ := hfits.mpr ⟨h₁, h₂, h₃, h₄⟩
    exact ⟨s', hs', hv, (hboth s' hs').mpr h₅⟩
  · rintro ⟨s', hs', hv, hn⟩
    obtain ⟨h₁, h₂, h₃, h₄⟩ := hfits.mp ⟨s', hs', hv⟩
    exact ⟨h₁, h₂, h₃, h₄, (hboth s' hs').mp hn⟩

/-- What a completed head shows of its parts. -/
theorem parseRequest_parts {buf : Bytes} {r : Request} (h : parseRequest buf = (.complete, r))
    (hver : r.versionMinor = 1) : isToken r.methodName = true ∧ isTarget r.target = true ∧
      (∀ g ∈ r.headers, isToken g.1 = true ∧ noCtl g.2 = true) ∧ r.headers.length ≤ kCapacity ∧
      Coherent r.headers := by
  have hm := (parseRequest_framed h).1.method
  unfold parseRequest at h
  dsimp only at h
  cases hl : nextLine buf (buf.takeWhile fun c => c = cr || c = lf).length with
  | none => rw [hl] at h; cases h
  | some l =>
    rw [hl] at h
    dsimp only at h
    cases hr : requestLine l.1 with
    | error a =>
      rw [hr] at h
      exact absurd (congrArg Prod.fst h) (requestLine_error hr)
    | ok out =>
      rw [hr] at h
      obtain ⟨gs, s', hlen, hlex, hread, hfin⟩ := Scan.fields_complete h
      obtain ⟨_, h₂, h₃, h₄, h₅⟩ := Scan.finish_kept hfin
      obtain ⟨k₁, k₂, k₃, _⟩ := Scan.readFields_kept hread
      have hnone : out.headers = [] := (requestLine_inv hr).2
      have hgs : r.headers = gs := by
        rw [h₅, k₁]
        rw [hnone, List.nil_append]
      have htgt : isTarget r.target = true := by
        rw [h₃, k₃]
        exact requestLine_target hr
      have htok : isToken r.methodName = true := by
        unfold isToken
        rw [Bool.and_eq_true, Bool.not_eq_true', List.isEmpty_eq_false_iff]
        exact ⟨hm.1, List.all_eq_true.mpr hm.2⟩
      rw [hgs]
      refine ⟨htok, htgt, hlex, hlen, (coherent_iff (show out.versionMinor = 1 from ?_)).mpr ?_⟩
      · exact Scan.readFields_version hread (h₄ ▸ hver)
      · exact ⟨s', hread, h₄ ▸ hver, Scan.finish_complete_iff.mp ⟨r, hfin⟩⟩

/-- **A written head is read as it was meant** exactly when each part is clean, the fields
    are coherent and there are not too many of them. -/
theorem readsBack_iff : ReadsBack m t fs ↔
    Lexical m t fs ∧ Coherent (fs.map trimmed) ∧ fs.length ≤ kCapacity := by
  constructor
  · rintro ⟨r, hr, _, hm, ht, hver, hh⟩
    obtain ⟨h₁, h₂, h₃, h₄, h₅⟩ := parseRequest_parts hr hver
    rw [hm] at h₁
    rw [ht] at h₂
    rw [hh] at h₃ h₄ h₅
    refine ⟨⟨h₁, h₂, fun f hf => ?_⟩, h₅, by simpa using h₄⟩
    have := h₃ (trimmed f) (List.mem_map_of_mem hf)
    exact ⟨this.1, noCtl_trim f.2 ▸ this.2⟩
  · rintro ⟨hlex, hcoh, hroom⟩
    obtain ⟨s', hread, hver, hone⟩ := (coherent_iff (show (lineRequest m t).versionMinor = 1 from rfl)).mp hcoh
    have hparse := parseRequest_headText hlex hroom
    rw [hread] at hparse
    obtain ⟨r, hr⟩ := (@Scan.finish_complete_iff _ (headText m t fs).length).mpr hone
    obtain ⟨h₁, h₂, h₃, h₄, h₅⟩ := Scan.finish_kept hr
    obtain ⟨k₁, k₂, k₃, _⟩ := Scan.readFields_kept hread
    exact ⟨r, hparse.trans hr, h₁, h₂.trans k₂, h₃.trans k₃, h₄.trans hver, h₅.trans k₁⟩

-- a value with a line end in it is read as two fields, and a request target as two lines
example : (parseRequest (headText (bytes "GET") (bytes "/ HTTP/1.1\r\nX: y") [])).2.target =
    bytes "/" := by decide +kernel

end ReadsBack

end Agensio.Http1
