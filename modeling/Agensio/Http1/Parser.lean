/-
  Agensio.Http1.Parser — the HTTP/1 request head.

  Model of `parse_request` (`http1/parser.cpp`): leading line ends are
  skipped, then one line is taken at a time, and a line is looked at only
  once its LF is there.  The buffer is a byte string and a view is the bytes
  it shows; an answer is the status together with the request as far as it
  was filled.  The loop over the fields is a recursion on the number of
  fields that may still come.

  Main results:
    * `parseRequest_arrival` — both, and that the segmentation of the bytes
      has no part in the outcome.
-/
import Mathlib.Data.List.DropRight
import Agensio.Http.RequestAssembly

namespace Agensio.Http1

open Agensio.Http (Method parseMethod kCapacity edgeByte)

/-! ## §1. The helpers. -/

abbrev cr : UInt8 := 0x0d
abbrev lf : UInt8 := 0x0a
abbrev sp : UInt8 := 0x20
abbrev colon : UInt8 := 0x3a
abbrev comma : UInt8 := 0x2c

def lower (c : UInt8) : UInt8 := if 0x41 ≤ c && c ≤ 0x5a then c + 32 else c

def trim (s : Bytes) : Bytes := (s.dropWhile edgeByte).rdropWhile edgeByte

/-- The next line, without its line end, and the index just past it; `none` while its LF
    is not there. -/
def nextLine (buf : Bytes) (pos : Nat) : Option (Bytes × Nat) :=
  match (buf.drop pos).findIdx? (· = lf) with
  | none => none
  | some k =>
    -- a CR right before the LF belongs to the line end
    let stop := if k > 0 && (buf.drop pos)[k - 1]? = some cr then k - 1 else k
    some ((buf.drop pos).take stop, pos + k + 1)

def isTchar (c : UInt8) : Bool :=
  (0x61 ≤ c && c ≤ 0x7a) || (0x41 ≤ c && c ≤ 0x5a) || (0x30 ≤ c && c ≤ 0x39) ||
    [0x21, 0x23, 0x24, 0x25, 0x26, 0x27, 0x2a, 0x2b, 0x2d, 0x2e, 0x5e, 0x5f, 0x60, 0x7c, 0x7e].contains c

def iequals (a b : Bytes) : Bool := a.map lower = b.map lower

/-- `has_token`, from a segment already begun. -/
def hasTokenFrom (token : Bytes) : Bytes → Bytes → Bool
  | seg, [] => !seg.isEmpty && iequals (trim seg) token
  | seg, c :: rest =>
    if c = comma then iequals (trim seg) token || hasTokenFrom token [] rest
    else hasTokenFrom token (seg ++ [c]) rest

def hasToken (value token : Bytes) : Bool := hasTokenFrom token [] value

/-- `std::from_chars` on digits. -/
def decimal (ds : Bytes) : Nat := ds.foldl (fun n c => n * 10 + (c.toNat - 0x30)) 0

/-! ## §2. The request. -/

inductive ParseStatus where
  | complete
  | incomplete
  | badRequest
  | versionNotSupported
  | tooManyHeaders
  | unsupportedTransferEncoding
  | expectationFailed
  deriving DecidableEq

/-- `Request`, with what only the HTTP/1 parser fills. -/
structure Request extends Http.Request where
  connection : Bytes := []
  hasBody : Bool := false
  chunked : Bool := false
  expectContinue : Bool := false
  contentLength : Nat := 0
  deriving DecidableEq

abbrev Answer := ParseStatus × Request

/-- `kMaxHeaderCount`, the capacity of `Headers`. -/
def kMaxHeaderCount : Nat := kCapacity
def kMaxContentLengthDigits : Nat := 19

/-- `method SP request-target SP HTTP-version` into a fresh request. -/
def requestLine (line : Bytes) : Except Answer Request :=
  let sp1 := line.idxOf sp
  if sp1 = line.length || sp1 = 0 then .error (.badRequest, {})
  else
    let rest := line.drop (sp1 + 1)
    let len := rest.idxOf sp
    if len = rest.length || len = 0 then .error (.badRequest, {})
    else
      let out : Request := { methodName := line.take sp1 }
      if !out.methodName.all isTchar then .error (.badRequest, out)
      else
        let out := { out with method := parseMethod out.methodName, target := rest.take len }
        if out.target.any (fun c => c ≤ 0x20 || c = 0x7f) then .error (.badRequest, out)
        else
          let version := rest.drop (len + 1)
          if version.length ≠ 8 || version.take 5 ≠ bytes "HTTP/" || version[6]? ≠ some 0x2e then
            .error (.badRequest, out)
          else if version[5]? ≠ some 0x31 then .error (.versionNotSupported, out)
          else if version[7]? = some 0x31 then .ok { out with versionMinor := 1 }
          else if version[7]? = some 0x30 then .ok { out with versionMinor := 0 }
          else .error (.versionNotSupported, out)

/-- The request and the loop's own variables. -/
structure Scan where
  out : Request
  seenHost : Bool := false
  seenContentLength : Bool := false
  seenTransferEncoding : Bool := false
  contentLength : Bytes := []
  deriving DecidableEq

namespace Scan

def onHost (s : Scan) (value : Bytes) : Except Answer Scan :=
  if s.seenHost then .error (.badRequest, s.out)
  else if value.any fun c => c ≤ 0x20 || [0x2f, 0x5c, 0x22, 0x3c, 0x3e].contains c then
    .error (.badRequest, s.out)
  else .ok { s with seenHost := true, out := { s.out with host := value } }

def onContentLength (s : Scan) (value : Bytes) : Except Answer Scan :=
  if value.isEmpty || value.length > kMaxContentLengthDigits then .error (.badRequest, s.out)
  else if value.any fun c => c < 0x30 || c > 0x39 then .error (.badRequest, s.out)
  -- duplicates are only tolerated when identical
  else if s.seenContentLength && value ≠ s.contentLength then .error (.badRequest, s.out)
  else
    let s := { s with seenContentLength := true, contentLength := value }
    if value.any (· ≠ 0x30) then
      let s := { s with out := { s.out with hasBody := true } }
      if decimal value < 2 ^ 64 then .ok { s with out := { s.out with contentLength := decimal value } }
      else .error (.badRequest, s.out)
    else .ok s

def onExpect (s : Scan) (value : Bytes) : Except Answer Scan :=
  if !iequals value (bytes "100-continue") then .error (.expectationFailed, s.out)
  else .ok { s with out := { s.out with expectContinue := true } }

def onTransferEncoding (s : Scan) (value : Bytes) : Except Answer Scan :=
  if s.out.versionMinor = 0 then .error (.badRequest, s.out)
  else if s.seenTransferEncoding then .error (.badRequest, s.out)
  else if !iequals value (bytes "chunked") then .error (.unsupportedTransferEncoding, s.out)
  else .ok { s with seenTransferEncoding := true, out := { s.out with chunked := true, hasBody := true } }

/-- The `switch` on the first letter of the name. -/
def onField (s : Scan) (name value : Bytes) : Except Answer Scan :=
  match name.head?.map lower with
  | some 0x61 =>
    if iequals name (bytes "accept-encoding") then
      .ok { s with out := { s.out with acceptEncoding := value } }
    else .ok s
  | some 0x68 => if iequals name (bytes "host") then s.onHost value else .ok s
  | some 0x63 =>
    if iequals name (bytes "connection") then
      .ok { s with out := { s.out with connection := value } }
    else if iequals name (bytes "content-length") then s.onContentLength value
    else .ok s
  | some 0x65 =>
    if iequals name (bytes "expect") && s.out.versionMinor ≥ 1 then s.onExpect value else .ok s
  | some 0x69 =>
    if iequals name (bytes "if-none-match") then
      .ok { s with out := { s.out with ifNoneMatch := value } }
    else if iequals name (bytes "if-modified-since") then
      .ok { s with out := { s.out with ifModifiedSince := value } }
    else if iequals name (bytes "if-range") then
      .ok { s with out := { s.out with ifRange := value } }
    else .ok s
  | some 0x72 =>
    if iequals name (bytes "range") then .ok { s with out := { s.out with range := value } }
    else .ok s
  | some 0x74 =>
    if iequals name (bytes "transfer-encoding") then s.onTransferEncoding value else .ok s
  | _ => .ok s

/-- `out.headers.add`. -/
def addHeader (s : Scan) (name value : Bytes) : Scan :=
  { s with out := { s.out with headers := s.out.headers ++ [(name, value)] } }

/-- A control character other than a tab. -/
def isCtl (c : UInt8) : Bool := (c < 0x20 && c ≠ 0x09) || c = 0x7f

/-- One field line, which is not empty. -/
def fieldLine (s : Scan) (line : Bytes) : Except Answer Scan :=
  -- obs-fold and bare CR
  if line.head?.any edgeByte then .error (.badRequest, s.out)
  else if line.contains cr then .error (.badRequest, s.out)
  else
    let at_ := line.idxOf colon
    if at_ = line.length || at_ = 0 then .error (.badRequest, s.out)
    else
      let name := line.take at_
      if !name.all isTchar then .error (.badRequest, s.out)
      else
        let value := trim (line.drop (at_ + 1))
        if s.out.headers.length ≥ kCapacity then .error (.tooManyHeaders, s.out)
        else
          let s := s.addHeader name value
          if value.any isCtl then .error (.badRequest, s.out)
          else s.onField name value

/-- The head has ended at `pos`. -/
def finish (s : Scan) (pos : Nat) : Answer :=
  if s.seenContentLength && s.seenTransferEncoding then (.badRequest, s.out)
  else
    let keepAlive :=
      if s.out.versionMinor = 1 then !hasToken s.out.connection (bytes "close")
      else hasToken s.out.connection (bytes "keep-alive")
    (.complete, { s.out with keepAlive := keepAlive, length := pos })

/-- The loop over the field lines, with `left` fields still allowed. -/
def fields (buf : Bytes) : Nat → Nat → Scan → Answer
  | left, pos, s =>
    match nextLine buf pos with
    | none => (.incomplete, s.out)
    | some (line, next) =>
      if line.isEmpty then s.finish next
      else
        match left with
        | 0 => (.tooManyHeaders, s.out)
        | left + 1 =>
          match s.fieldLine line with
          | .error a => a
          | .ok s => fields buf left next s

end Scan

/-- `parse_request`. -/
def parseRequest (buf : Bytes) : Answer :=
  let pos := (buf.takeWhile fun c => c = cr || c = lf).length
  match nextLine buf pos with
  | none => (.incomplete, {})
  | some (line, next) =>
    match requestLine line with
    | .error a => a
    | .ok out => Scan.fields buf kMaxHeaderCount next { out := out }

/-! ## §3. What follows an answer does not change it. -/

section Arrival

variable {buf more line : Bytes} {pos next : Nat}

/-- A line that is there has its LF inside the buffer. -/
theorem nextLine_some (h : nextLine buf pos = some (line, next)) :
    ∃ k, (buf.drop pos).findIdx? (· = lf) = some k ∧ next = pos + k + 1 ∧ next ≤ buf.length := by
  unfold nextLine at h
  cases hk : (buf.drop pos).findIdx? (· = lf) with
  | none => rw [hk] at h; cases h
  | some k =>
    rw [hk] at h
    have hlt : k < (buf.drop pos).length := (List.findIdx?_eq_some_iff_getElem.mp hk).1
    rw [List.length_drop] at hlt
    injection h with h
    injection h with _ hnext
    exact ⟨k, rfl, hnext.symm, by omega⟩

/-- **A line that has ended stays the line it is.** -/
theorem nextLine_append (h : nextLine buf pos = some (line, next)) :
    nextLine (buf ++ more) pos = some (line, next) := by
  obtain ⟨k, hk, _, _⟩ := nextLine_some h
  have hlt : k < (buf.drop pos).length := (List.findIdx?_eq_some_iff_getElem.mp hk).1
  have hpos : pos ≤ buf.length := by rw [List.length_drop] at hlt; omega
  unfold nextLine at h ⊢
  rw [hk] at h
  rw [List.drop_append_of_le_length hpos, List.findIdx?_append, hk]
  dsimp only [Option.or] at h ⊢
  rw [List.getElem?_append_left (by omega), List.take_append_of_le_length (by split <;> omega)]
  exact h

/-- The loop's answer, once it is one. -/
theorem Scan.fields_append {left : Nat} {s : Scan} (h : (s.fields buf left pos).1 ≠ .incomplete) :
    s.fields (buf ++ more) left pos = s.fields buf left pos := by
  -- on the fields still allowed: each round reads one whole line of `buf`
  induction left generalizing pos s with
  | zero =>
    unfold fields at h ⊢
    cases hl : nextLine buf pos with
    | none => rw [hl] at h; exact absurd rfl h
    | some r => rw [nextLine_append hl]
  | succ left ih =>
    unfold fields at h ⊢
    cases hl : nextLine buf pos with
    | none => rw [hl] at h; exact absurd rfl h
    | some r =>
      rw [hl] at h
      rw [nextLine_append hl]
      dsimp only at h ⊢
      split
      · rfl
      rename_i hne
      rw [if_neg hne] at h
      cases hf : s.fieldLine r.1 with
      | error a => rfl
      | ok s' =>
        rw [hf] at h
        exact ih h

/-- The line ends skipped in front are the same ones. -/
theorem takeWhile_append_of_mem {p : UInt8 → Bool} {c : UInt8} (hc : c ∈ buf) (hp : p c = false) :
    (buf ++ more).takeWhile p = buf.takeWhile p := by
  induction buf with
  | nil => cases hc
  | cons b bs ih =>
    rw [List.cons_append, List.takeWhile_cons, List.takeWhile_cons]
    by_cases hb : p b = true
    · rw [if_pos hb, if_pos hb]
      rcases List.mem_cons.mp hc with rfl | hmem
      · rw [hp] at hb; cases hb
      · rw [ih hmem]
    · rw [if_neg hb, if_neg hb]

/-- With a line after the skipped ones there is a byte that stopped the skipping. -/
theorem exists_not_lineEnd {p : UInt8 → Bool}
    (h : nextLine buf (buf.takeWhile p).length = some (line, next)) : ∃ c ∈ buf, p c = false := by
  obtain ⟨k, hk, _, hle⟩ := nextLine_some h
  by_contra hall
  push Not at hall
  have hw : buf.takeWhile p = buf := List.takeWhile_eq_self_iff.mpr fun c hc => by
    simpa using hall c hc
  rw [hw, List.drop_length] at hk
  cases hk

/-- **An answer is not changed by what follows.** -/
theorem parseRequest_append (h : (parseRequest buf).1 ≠ .incomplete) :
    parseRequest (buf ++ more) = parseRequest buf := by
  unfold parseRequest at h ⊢
  dsimp only at h ⊢
  cases hl : nextLine buf (buf.takeWhile fun c => c = cr || c = lf).length with
  | none => rw [hl] at h; exact absurd rfl h
  | some r =>
    rw [hl] at h
    obtain ⟨c, hc, hp⟩ := exists_not_lineEnd hl
    rw [takeWhile_append_of_mem hc hp, nextLine_append hl]
    dsimp only at h ⊢
    cases hr : requestLine r.1 with
    | error a => rfl
    | ok out =>
      rw [hr] at h
      exact Scan.fields_append h

/-- The connection's way to an answer: the buffer is parsed after every arrival until there
    is one. -/
def arrive (buf : Bytes) : List Bytes → Answer
  | [] => parseRequest buf
  | seg :: segs =>
    if (parseRequest buf).1 ≠ .incomplete then parseRequest buf else arrive (buf ++ seg) segs

/-- **How the bytes were cut has no part in the outcome.** -/
theorem arrive_eq (segs : List Bytes) : arrive buf segs = parseRequest (buf ++ segs.flatten) := by
  induction segs generalizing buf with
  | nil => rw [List.flatten_nil, List.append_nil]; rfl
  | cons seg segs ih =>
    unfold arrive
    split
    · rename_i h
      exact (parseRequest_append h).symm
    · rw [ih, List.flatten_cons, List.append_assoc]

end Arrival

/-! ## §4. The shape and the framing of what is completed. -/

def named (n : Bytes) (f : Codec.Field) : Bool := iequals f.1 n

abbrev contentLengthName : Bytes := bytes "content-length"
abbrev transferEncodingName : Bytes := bytes "transfer-encoding"

/-- What the parser promises of a request it completes. -/
structure Accepted (r : Request) : Prop where
  method : r.methodName ≠ [] ∧ ∀ c ∈ r.methodName, isTchar c = true
  names : ∀ f ∈ r.headers, f.1 ≠ [] ∧ ∀ c ∈ f.1, isTchar c = true
  values : ∀ f ∈ r.headers, cr ∉ f.2 ∧ lf ∉ f.2 ∧ (0 : UInt8) ∉ f.2
  /-- Not both framing fields. -/
  one : r.headers.any (named contentLengthName) = false ∨
    r.headers.any (named transferEncodingName) = false
  /-- One decimal number below `2 ^ 64`, the request's `content_length`. -/
  length : ∀ f ∈ r.headers, named contentLengthName f = true →
    f.2 ≠ [] ∧ (∀ c ∈ f.2, 0x30 ≤ c ∧ c ≤ 0x39) ∧ decimal f.2 = r.contentLength ∧
      r.contentLength < 2 ^ 64
  /-- `chunked` alone, and once. -/
  coding : (∀ f ∈ r.headers, named transferEncodingName f = true → iequals f.2 (bytes "chunked") = true) ∧
    r.headers.countP (named transferEncodingName) ≤ 1
  /-- The framing that the body reader is given. -/
  framing : r.chunked = r.headers.any (named transferEncodingName) ∧
    r.hasBody = (r.chunked || decide (0 < r.contentLength))

/-- The field of a line, as it is stored. -/
def fieldOf (line : Bytes) : Codec.Field :=
  (line.take (line.idxOf colon), trim (line.drop (line.idxOf colon + 1)))

/-- The lines from `pos` on: non-empty ones, then the empty one that ends the head at `stop`. -/
inductive Lines (buf : Bytes) (stop : Nat) : Nat → List Bytes → Prop where
  | last {pos : Nat} : nextLine buf pos = some ([], stop) → Lines buf stop pos []
  | more {pos next : Nat} {line : Bytes} {lines : List Bytes} : line ≠ [] →
      nextLine buf pos = some (line, next) → Lines buf stop next lines →
      Lines buf stop pos (line :: lines)

theorem lower_head {name : Bytes} {word : Bytes} (h : iequals name word = true) :
    name.head?.map lower = word.head?.map lower := by
  have hmap : name.map lower = word.map lower := of_decide_eq_true h
  rw [← List.head?_map, ← List.head?_map, hmap]

variable {ds : Bytes}

/-- A decimal number of `n` digits. -/
theorem decimal_lt (hd : ∀ c ∈ ds, 0x30 ≤ c ∧ c ≤ 0x39) : decimal ds < 10 ^ ds.length := by
  -- on the digits, from the last one
  unfold decimal
  induction ds using List.reverseRecOn with
  | nil => decide
  | append_singleton ds c ih =>
    have hc := (hd c (List.mem_append_right _ (List.mem_singleton_self c))).2
    have hle : c.toNat ≤ 0x39 := hc
    have := ih fun b hb => hd b (List.mem_append_left _ hb)
    rw [List.foldl_append, List.length_append, Nat.pow_add]
    simp only [List.foldl_cons, List.foldl_nil, List.length_singleton, Nat.pow_one]
    omega

theorem decimal_zeros (hz : ∀ c ∈ ds, c = 0x30) : decimal ds = 0 := by
  unfold decimal
  induction ds using List.reverseRecOn with
  | nil => rfl
  | append_singleton ds c ih =>
    rw [List.foldl_append, ih fun b hb => hz b (List.mem_append_left _ hb),
      hz c (List.mem_append_right _ (List.mem_singleton_self c))]
    rfl

theorem decimal_pos (hd : ∀ c ∈ ds, 0x30 ≤ c ∧ c ≤ 0x39) (hz : ∃ c ∈ ds, c ≠ 0x30) : 0 < decimal ds := by
  unfold decimal
  induction ds using List.reverseRecOn with
  | nil => obtain ⟨c, hc, _⟩ := hz; cases hc
  | append_singleton ds c ih =>
    rw [List.foldl_append]
    simp only [List.foldl_cons, List.foldl_nil]
    by_cases hc : c = 0x30
    · obtain ⟨b, hb, hne⟩ := hz
      rcases List.mem_append.mp hb with hb | hb
      · have := ih (fun b hb => hd b (List.mem_append_left _ hb)) ⟨b, hb, hne⟩
        omega
      · exact absurd (List.mem_singleton.mp hb ▸ hc) hne
    · have hle : 0x30 ≤ c.toNat := (hd c (List.mem_append_right _ (List.mem_singleton_self c))).1
      have hne : c.toNat ≠ 0x30 := fun h => hc (UInt8.toNat_inj.mp h)
      omega

namespace Scan

variable {s s' : Scan} {name value : Bytes}

/-- All that the `switch` may do with a field, as far as framing goes. -/
structure Took (s : Scan) (name value : Bytes) (s' : Scan) : Prop where
  headers : s'.out.headers = s.out.headers
  methodName : s'.out.methodName = s.out.methodName
  target : s'.out.target = s.out.target
  length : if iequals name contentLengthName then
      (value ≠ [] ∧ value.length ≤ 19 ∧ (∀ c ∈ value, 0x30 ≤ c ∧ c ≤ 0x39)) ∧
        (s.seenContentLength = true → value = s.contentLength) ∧
        s'.seenContentLength = true ∧ s'.contentLength = value ∧
        s'.out.contentLength = (if value.any (· ≠ 0x30) then decimal value else s.out.contentLength)
    else
      s'.seenContentLength = s.seenContentLength ∧ s'.contentLength = s.contentLength ∧
        s'.out.contentLength = s.out.contentLength
  coding : if iequals name transferEncodingName then
      s.seenTransferEncoding = false ∧ s'.seenTransferEncoding = true ∧ s'.out.chunked = true ∧
        iequals value (bytes "chunked") = true
    else s'.seenTransferEncoding = s.seenTransferEncoding ∧ s'.out.chunked = s.out.chunked
  body : s'.out.hasBody = (s.out.hasBody ||
    (iequals name contentLengthName && value.any (· ≠ 0x30)) || iequals name transferEncodingName)

/-- A field that is neither of the framing ones. -/
theorem Took.other (hcl : iequals name contentLengthName = false)
    (hte : iequals name transferEncodingName = false)
    (hframe : s'.out.headers = s.out.headers ∧ s'.out.methodName = s.out.methodName ∧
      s'.out.target = s.out.target)
    (hlen : s'.seenContentLength = s.seenContentLength ∧ s'.contentLength = s.contentLength ∧
      s'.out.contentLength = s.out.contentLength)
    (hcod : s'.seenTransferEncoding = s.seenTransferEncoding ∧ s'.out.chunked = s.out.chunked)
    (hbody : s'.out.hasBody = s.out.hasBody) : Took s name value s' where
  headers := hframe.1
  methodName := hframe.2.1
  target := hframe.2.2
  length := by rw [hcl]; exact hlen
  coding := by rw [hte]; exact hcod
  body := by rw [hcl, hte, hbody]; simp

/-- The first letter tells the names apart. -/
theorem not_named {c : UInt8} {word : Bytes} (h : name.head?.map lower = some c)
    (hc : word.head?.map lower ≠ some c) : iequals name word = false := by
  by_contra hn
  have := lower_head (Bool.not_eq_false _ ▸ hn)
  rw [h] at this
  exact hc this.symm

theorem onHost_took (h : s.onHost value = .ok s') (hcl : iequals name contentLengthName = false)
    (hte : iequals name transferEncodingName = false) : Took s name value s' := by
  unfold onHost at h
  split at h
  · cases h
  split at h
  · cases h
  cases h
  exact .other hcl hte ⟨rfl, rfl, rfl⟩ ⟨rfl, rfl, rfl⟩ ⟨rfl, rfl⟩ rfl

theorem onExpect_took (h : s.onExpect value = .ok s') (hcl : iequals name contentLengthName = false)
    (hte : iequals name transferEncodingName = false) : Took s name value s' := by
  unfold onExpect at h
  split at h
  · cases h
  cases h
  exact .other hcl hte ⟨rfl, rfl, rfl⟩ ⟨rfl, rfl, rfl⟩ ⟨rfl, rfl⟩ rfl

theorem onContentLength_took (h : s.onContentLength value = .ok s')
    (hcl : iequals name contentLengthName = true)
    (hte : iequals name transferEncodingName = false) : Took s name value s' := by
  unfold onContentLength at h
  split at h
  · cases h
  rename_i hlen
  split at h
  · cases h
  rename_i hdig
  split at h
  · cases h
  rename_i hsame
  simp only [Bool.or_eq_true, not_or, List.isEmpty_iff] at hlen
  have hle : value.length ≤ 19 := by simpa [kMaxContentLengthDigits] using hlen.2
  simp only [List.any_eq_true, not_exists, not_and, Bool.or_eq_true, decide_eq_true_eq, not_or,
    UInt8.not_lt] at hdig
  have hseen : s.seenContentLength = true → value = s.contentLength := by
    intro hs
    by_contra hne
    exact hsame (by rw [hs, decide_eq_true hne]; rfl)
  split at h
  · rename_i hnz
    split at h
    · cases h
      refine ⟨rfl, rfl, rfl, ?_, ?_, ?_⟩
      · rw [if_pos hcl, if_pos hnz]
        exact ⟨⟨hlen.1, hle, hdig⟩, hseen, rfl, rfl, rfl⟩
      · rw [hte]; exact ⟨rfl, rfl⟩
      · rw [hcl, hnz, hte]; simp
    · cases h
  · rename_i hz
    cases h
    refine ⟨rfl, rfl, rfl, ?_, ?_, ?_⟩
    · rw [if_pos hcl, if_neg hz]
      exact ⟨⟨hlen.1, hle, hdig⟩, hseen, rfl, rfl, rfl⟩
    · rw [hte]; exact ⟨rfl, rfl⟩
    · rw [hcl, hte, Bool.eq_false_iff.mpr hz]; simp

theorem onTransferEncoding_took (h : s.onTransferEncoding value = .ok s')
    (hcl : iequals name contentLengthName = false)
    (hte : iequals name transferEncodingName = true) : Took s name value s' := by
  unfold onTransferEncoding at h
  split at h
  · cases h
  split at h
  · cases h
  rename_i hseen
  split at h
  · cases h
  rename_i hval
  cases h
  refine ⟨rfl, rfl, rfl, ?_, ?_, ?_⟩
  · rw [hcl]; exact ⟨rfl, rfl, rfl⟩
  · rw [if_pos hte]
    exact ⟨Bool.eq_false_iff.mpr hseen, rfl, rfl, by simpa using hval⟩
  · rw [hte]; simp

/-- **What a field does to the framing**, whatever its first letter leads to. -/
theorem onField_took (h : s.onField name value = .ok s') : Took s name value s' := by
  unfold onField at h
  split at h
  · -- accept-encoding
    rename_i hc
    have hcl : iequals name contentLengthName = false := not_named hc (by decide)
    have hte : iequals name transferEncodingName = false := not_named hc (by decide)
    split at h <;> cases h <;>
      exact .other hcl hte ⟨rfl, rfl, rfl⟩ ⟨rfl, rfl, rfl⟩ ⟨rfl, rfl⟩ rfl
  · -- host
    rename_i hc
    have hcl : iequals name contentLengthName = false := not_named hc (by decide)
    have hte : iequals name transferEncodingName = false := not_named hc (by decide)
    split at h
    · exact onHost_took h hcl hte
    cases h
    exact .other hcl hte ⟨rfl, rfl, rfl⟩ ⟨rfl, rfl, rfl⟩ ⟨rfl, rfl⟩ rfl
  · -- connection, content-length
    rename_i hc
    have hte : iequals name transferEncodingName = false := not_named hc (by decide)
    split at h
    · rename_i hconn
      have hcl : iequals name contentLengthName = false := by
        by_contra hn
        have h₁ : name.map lower = _ := of_decide_eq_true hconn
        have h₂ : name.map lower = _ := of_decide_eq_true (Bool.not_eq_false _ ▸ hn)
        cases h₁.symm.trans h₂
      cases h
      exact .other hcl hte ⟨rfl, rfl, rfl⟩ ⟨rfl, rfl, rfl⟩ ⟨rfl, rfl⟩ rfl
    · split at h
      · rename_i hcl
        exact onContentLength_took h hcl hte
      rename_i hcl
      cases h
      exact .other (Bool.eq_false_iff.mpr hcl) hte ⟨rfl, rfl, rfl⟩ ⟨rfl, rfl, rfl⟩ ⟨rfl, rfl⟩ rfl
  · -- expect
    rename_i hc
    have hcl : iequals name contentLengthName = false := not_named hc (by decide)
    have hte : iequals name transferEncodingName = false := not_named hc (by decide)
    split at h
    · exact onExpect_took h hcl hte
    cases h
    exact .other hcl hte ⟨rfl, rfl, rfl⟩ ⟨rfl, rfl, rfl⟩ ⟨rfl, rfl⟩ rfl
  · -- the conditions
    rename_i hc
    have hcl : iequals name contentLengthName = false := not_named hc (by decide)
    have hte : iequals name transferEncodingName = false := not_named hc (by decide)
    split at h
    · cases h
      exact .other hcl hte ⟨rfl, rfl, rfl⟩ ⟨rfl, rfl, rfl⟩ ⟨rfl, rfl⟩ rfl
    split at h
    · cases h
      exact .other hcl hte ⟨rfl, rfl, rfl⟩ ⟨rfl, rfl, rfl⟩ ⟨rfl, rfl⟩ rfl
    split at h <;> cases h <;>
      exact .other hcl hte ⟨rfl, rfl, rfl⟩ ⟨rfl, rfl, rfl⟩ ⟨rfl, rfl⟩ rfl
  · -- range
    rename_i hc
    have hcl : iequals name contentLengthName = false := not_named hc (by decide)
    have hte : iequals name transferEncodingName = false := not_named hc (by decide)
    split at h <;> cases h <;>
      exact .other hcl hte ⟨rfl, rfl, rfl⟩ ⟨rfl, rfl, rfl⟩ ⟨rfl, rfl⟩ rfl
  · -- transfer-encoding
    rename_i hc
    have hcl : iequals name contentLengthName = false := not_named hc (by decide)
    split at h
    · rename_i hte
      exact onTransferEncoding_took h hcl hte
    rename_i hte
    cases h
    exact .other hcl (Bool.eq_false_iff.mpr hte) ⟨rfl, rfl, rfl⟩ ⟨rfl, rfl, rfl⟩ ⟨rfl, rfl⟩ rfl
  · -- no field of interest has this letter
    rename_i _ _ hc _ _ _ ht
    have hcl : iequals name contentLengthName = false := by
      by_contra hn
      exact hc ((lower_head (Bool.not_eq_false _ ▸ hn)).trans (by decide))
    have hte : iequals name transferEncodingName = false := by
      by_contra hn
      exact ht ((lower_head (Bool.not_eq_false _ ▸ hn)).trans (by decide))
    cases h
    exact .other hcl hte ⟨rfl, rfl, rfl⟩ ⟨rfl, rfl, rfl⟩ ⟨rfl, rfl⟩ rfl

/-- What holds of the scan between two lines. -/
structure Inv (s : Scan) : Prop where
  method : s.out.methodName ≠ [] ∧ ∀ c ∈ s.out.methodName, isTchar c = true
  names : ∀ f ∈ s.out.headers, f.1 ≠ [] ∧ ∀ c ∈ f.1, isTchar c = true
  values : ∀ f ∈ s.out.headers, ∀ c ∈ f.2, isCtl c = false
  lengths : ∀ f ∈ s.out.headers, named contentLengthName f = true →
    s.seenContentLength = true ∧ f.2 = s.contentLength
  digits : s.seenContentLength = true → (s.contentLength ≠ [] ∧ s.contentLength.length ≤ 19 ∧
    ∀ c ∈ s.contentLength, 0x30 ≤ c ∧ c ≤ 0x39) ∧ s.out.contentLength = decimal s.contentLength
  unseen : s.seenContentLength = false → s.out.contentLength = 0
  codings : ∀ f ∈ s.out.headers, named transferEncodingName f = true →
    iequals f.2 (bytes "chunked") = true
  once : s.out.headers.countP (named transferEncodingName) = if s.seenTransferEncoding then 1 else 0
  chunked : s.out.chunked = s.seenTransferEncoding
  body : s.out.hasBody = (s.out.chunked || decide (0 < s.out.contentLength))

/-- The number the request holds after a content-length. -/
theorem Inv.number (hi : Inv s) (hd : ∀ c ∈ value, 0x30 ≤ c ∧ c ≤ 0x39)
    (hsame : s.seenContentLength = true → value = s.contentLength) :
    (if value.any (· ≠ 0x30) then decimal value else s.out.contentLength) = decimal value ∧
      decide (0 < decimal value) = value.any (· ≠ 0x30) := by
  by_cases hz : value.any (· ≠ 0x30) = true
  · have hpos : 0 < decimal value := decimal_pos hd (by simpa using hz)
    rw [if_pos hz, hz]
    exact ⟨rfl, decide_eq_true hpos⟩
  · have hzero : decimal value = 0 := decimal_zeros fun c hc => by
      by_contra hne
      exact hz (List.any_eq_true.mpr ⟨c, hc, decide_eq_true hne⟩)
    rw [if_neg hz, hzero, Bool.eq_false_iff.mpr hz]
    refine ⟨?_, rfl⟩
    -- what was there is nothing, or the same number
    cases hs : s.seenContentLength with
    | false => exact hi.unseen hs
    | true => rw [(hi.digits hs).2, ← hsame hs, hzero]

/-- One field more. -/
theorem Inv.took (hi : Inv s) (hname : name ≠ [] ∧ ∀ c ∈ name, isTchar c = true)
    (hvalue : ∀ c ∈ value, isCtl c = false) (ht : Took (s.addHeader name value) name value s') :
    Inv s' ∧ s'.out.headers = s.out.headers ++ [(name, value)] := by
  have hh : s'.out.headers = s.out.headers ++ [(name, value)] := ht.headers
  have hmem : ∀ {P : Codec.Field → Prop}, (∀ f ∈ s.out.headers, P f) → P (name, value) →
      ∀ f ∈ s'.out.headers, P f := by
    intro P hold hnew f hf
    rw [hh] at hf
    rcases List.mem_append.mp hf with hf | hf
    · exact hold f hf
    · exact List.mem_singleton.mp hf ▸ hnew
  have hlen := ht.length
  have hcod := ht.coding
  have hbody := ht.body
  refine ⟨?_, hh⟩
  -- the two framing names, each taken or left as it was
  have hcount : s'.out.headers.countP (named transferEncodingName) =
      s.out.headers.countP (named transferEncodingName) +
        if iequals name transferEncodingName then 1 else 0 := by
    rw [hh, List.countP_append, List.countP_singleton]
    rfl
  have hnum : (s'.seenContentLength = true → (s'.contentLength ≠ [] ∧ s'.contentLength.length ≤ 19 ∧
      ∀ c ∈ s'.contentLength, 0x30 ≤ c ∧ c ≤ 0x39) ∧ s'.out.contentLength = decimal s'.contentLength) ∧
      (s'.seenContentLength = false → s'.out.contentLength = 0) ∧
      decide (0 < s'.out.contentLength) = (decide (0 < s.out.contentLength) ||
        (iequals name contentLengthName && value.any (· ≠ 0x30))) := by
    by_cases hcl : iequals name contentLengthName = true
    · rw [if_pos hcl] at hlen
      obtain ⟨hd, hsame, hseen, hval, hn⟩ := hlen
      obtain ⟨h₁, h₂⟩ := hi.number hd.2.2 hsame
      have hn' : s'.out.contentLength = decimal value := hn.trans h₁
      refine ⟨fun _ => ⟨hval ▸ hd, by rw [hn', hval]⟩, fun h => absurd (hseen.symm.trans h) (by decide), ?_⟩
      rw [hn', h₂, hcl, Bool.true_and]
      cases hs : s.seenContentLength with
      | false => rw [hi.unseen hs]; rfl
      | true =>
        rw [(hi.digits hs).2, show s.contentLength = value from (hsame hs).symm, h₂, Bool.or_self]
    · rw [if_neg hcl] at hlen
      obtain ⟨h₁, h₂, h₃⟩ := hlen
      rw [h₁, h₂, h₃, Bool.eq_false_iff.mpr hcl, Bool.false_and, Bool.or_false]
      exact ⟨hi.digits, hi.unseen, rfl⟩
  refine ⟨?_, hmem hi.names hname, hmem hi.values hvalue, ?_, hnum.1, hnum.2.1, ?_, ?_, ?_, ?_⟩
  · rw [ht.methodName]; exact hi.method
  · by_cases hcl : iequals name contentLengthName = true
    · rw [if_pos hcl] at hlen
      refine hmem (fun f hf hn => ?_) fun _ => ⟨hlen.2.2.1, hlen.2.2.2.1.symm⟩
      obtain ⟨hseen, hval⟩ := hi.lengths f hf hn
      exact ⟨hlen.2.2.1, by rw [hval, hlen.2.2.2.1]; exact (hlen.2.1 hseen).symm⟩
    · rw [if_neg hcl] at hlen
      rw [hlen.1, hlen.2.1]
      exact hmem hi.lengths fun hn => absurd hn hcl
  · refine hmem hi.codings fun hn => ?_
    rw [if_pos (show iequals name transferEncodingName = true from hn)] at hcod
    exact hcod.2.2.2
  · rw [hcount, hi.once]
    by_cases hte : iequals name transferEncodingName = true
    · rw [if_pos hte] at hcod
      rw [if_pos hte, hcod.2.1, show s.seenTransferEncoding = false from hcod.1]
      rfl
    · rw [if_neg hte] at hcod
      rw [if_neg hte, hcod.1]
      rfl
  · by_cases hte : iequals name transferEncodingName = true
    · rw [if_pos hte] at hcod
      rw [hcod.2.1, hcod.2.2.1]
    rw [if_neg hte] at hcod
    rw [hcod.1, hcod.2]
    exact hi.chunked
  · rw [hbody, hnum.2.2, show (s.addHeader name value).out.hasBody = s.out.hasBody from rfl, hi.body]
    have hch : s'.out.chunked = (s.out.chunked || iequals name transferEncodingName) := by
      by_cases hte : iequals name transferEncodingName = true
      · rw [if_pos hte] at hcod
        rw [hcod.2.2.1, hte, Bool.or_true]
      rw [if_neg hte] at hcod
      rw [hcod.2, Bool.eq_false_iff.mpr hte, Bool.or_false]
      rfl
    rw [hch]
    cases s.out.chunked <;> cases iequals name transferEncodingName <;> simp

/-- **One line more**: the invariant stays, and the line's field is stored. -/
theorem Inv.fieldLine {line : Bytes} (hi : Inv s) (h : s.fieldLine line = .ok s') :
    Inv s' ∧ s'.out.headers = s.out.headers ++ [fieldOf line] := by
  unfold Scan.fieldLine at h
  split at h
  · cases h
  split at h
  · cases h
  dsimp only at h
  split at h
  · cases h
  rename_i hcolon
  split at h
  · cases h
  rename_i htok
  split at h
  · cases h
  split at h
  · cases h
  rename_i hctl
  simp only [Bool.or_eq_true, decide_eq_true_eq, not_or] at hcolon
  simp only [Bool.not_eq_true', Bool.not_eq_false, List.all_eq_true] at htok
  have hne : line.take (line.idxOf colon) ≠ [] := by
    intro hnil
    rcases List.take_eq_nil_iff.mp hnil with h0 | hl
    · exact hcolon.2 h0
    rw [hl] at hcolon
    exact hcolon.2 rfl
  refine hi.took ⟨hne, htok⟩ (fun c hc => ?_) (onField_took h)
  by_contra hcc
  exact hctl (List.any_eq_true.mpr ⟨c, hc, Bool.not_eq_false _ ▸ hcc⟩)

variable {r : Request}

/-- The request a completed head leaves. -/
theorem Inv.accepted (hi : Inv s) {pos : Nat} (h : s.finish pos = (.complete, r)) :
    Accepted r ∧ r.headers = s.out.headers ∧ r.length = pos := by
  unfold finish at h
  split at h
  · cases h
  rename_i hboth
  cases h
  refine ⟨⟨hi.method, hi.names, ?_, ?_, ?_, ⟨hi.codings, ?_⟩, ?_, hi.body⟩, rfl, rfl⟩
  · intro f hf
    have hv := hi.values f hf
    exact ⟨fun hc => absurd (hv _ hc) (by decide), fun hc => absurd (hv _ hc) (by decide),
      fun hc => absurd (hv _ hc) (by decide)⟩
  · by_contra hn
    rw [not_or, Bool.not_eq_false, Bool.not_eq_false] at hn
    obtain ⟨f, hf, hcl⟩ := List.any_eq_true.mp hn.1
    have hcount : 0 < s.out.headers.countP (named transferEncodingName) :=
      List.countP_pos_iff.mpr (List.any_eq_true.mp hn.2)
    rw [hi.once] at hcount
    split at hcount
    · rename_i hte
      exact hboth (by rw [(hi.lengths f hf hcl).1, hte]; rfl)
    · omega
  · intro f hf hcl
    obtain ⟨hseen, hval⟩ := hi.lengths f hf hcl
    obtain ⟨hd, hnum⟩ := hi.digits hseen
    rw [hval]
    refine ⟨hd.1, hd.2.2, hnum.symm, ?_⟩
    calc s.out.contentLength = decimal s.contentLength := hnum
      _ < 10 ^ s.contentLength.length := decimal_lt hd.2.2
      _ ≤ 10 ^ 19 := Nat.pow_le_pow_right (by decide) hd.2.1
      _ < 2 ^ 64 := by decide
  · rw [hi.once]
    split <;> omega
  · show s.out.chunked = s.out.headers.any (named transferEncodingName)
    rw [hi.chunked]
    have honce := hi.once
    cases hs : s.seenTransferEncoding with
    | true =>
      rw [hs, if_pos rfl] at honce
      exact (List.any_eq_true.mpr (List.countP_pos_iff.mp (by omega))).symm
    | false =>
      rw [hs, if_neg (by decide), List.countP_eq_zero] at honce
      symm
      rw [List.any_eq_false]
      exact honce

/-- A field's error is not an end of the head. -/
theorem onField_error {a : Answer} (h : s.onField name value = .error a) : a.1 ≠ .complete := by
  unfold onField onHost onContentLength onExpect onTransferEncoding at h
  split at h
  all_goals try split_ifs at h
  all_goals cases h <;> exact nofun

theorem fieldLine_error {line : Bytes} {a : Answer} (h : s.fieldLine line = .error a) : a.1 ≠ .complete := by
  unfold Scan.fieldLine at h
  dsimp only at h
  split_ifs at h
  all_goals first
    | exact onField_error h
    | (cases h; exact nofun)

/-- The empty line. -/
theorem Inv.ended {buf line : Bytes} {pos next : Nat} (hi : Inv s)
    (hl : nextLine buf pos = some (line, next)) (hempty : line.isEmpty = true)
    (h : s.finish next = (.complete, r)) : Accepted r ∧ ∃ lines, Lines buf r.length pos lines ∧
      r.headers = s.out.headers ++ lines.map fieldOf := by
  obtain ⟨ha, hh, hp⟩ := hi.accepted h
  rw [List.isEmpty_iff.mp hempty, ← hp] at hl
  exact ⟨ha, [], .last hl, by rw [hh, List.map_nil, List.append_nil]⟩

/-- **The loop**: a completed head is the lines up to the empty one, each a field. -/
theorem Inv.fields {buf : Bytes} {left pos : Nat} (hi : Inv s) (h : s.fields buf left pos = (.complete, r)) :
    Accepted r ∧ ∃ lines, Lines buf r.length pos lines ∧ r.headers = s.out.headers ++ lines.map fieldOf := by
  induction left generalizing pos s with
  | zero =>
    unfold Scan.fields at h
    cases hl : nextLine buf pos with
    | none => rw [hl] at h; cases h
    | some l =>
      rw [hl] at h
      dsimp only at h
      split at h
      · rename_i hempty
        exact hi.ended hl hempty h
      · cases h
  | succ left ih =>
    unfold Scan.fields at h
    cases hl : nextLine buf pos with
    | none => rw [hl] at h; cases h
    | some l =>
      rw [hl] at h
      dsimp only at h
      split at h
      · rename_i hempty
        exact hi.ended hl hempty h
      rename_i hne
      cases hf : s.fieldLine l.1 with
      | error a =>
        rw [hf] at h
        exact absurd (congrArg Prod.fst h) (fieldLine_error hf)
      | ok s' =>
        rw [hf] at h
        obtain ⟨hi', hh⟩ := hi.fieldLine hf
        obtain ⟨ha, lines, hlines, hr⟩ := ih hi' h
        refine ⟨ha, l.1 :: lines, .more (fun hn => hne (by rw [hn]; rfl)) hl hlines, ?_⟩
        rw [hr, hh, List.append_assoc]
        rfl

end Scan

/-- The request line: a method that is a token, and nothing else the framing reads. -/
theorem requestLine_inv {line : Bytes} {out : Request} (h : requestLine line = .ok out) :
    Scan.Inv { out := out } ∧ out.headers = [] := by
  unfold requestLine at h
  dsimp only at h
  split at h
  · cases h
  rename_i hsp
  split at h
  · cases h
  split at h
  · cases h
  rename_i htok
  simp only [Bool.or_eq_true, decide_eq_true_eq, not_or] at hsp
  simp only [Bool.not_eq_true', Bool.not_eq_false, List.all_eq_true] at htok
  have hne : line.take (line.idxOf sp) ≠ [] := by
    intro hnil
    rcases List.take_eq_nil_iff.mp hnil with h0 | hl
    · exact hsp.2 h0
    rw [hl] at hsp
    exact hsp.2 rfl
  have hfresh : ∀ r : Request, r.headers = [] → r.methodName = line.take (line.idxOf sp) →
      r.contentLength = 0 → r.chunked = false → r.hasBody = false → Scan.Inv { out := r } := by
    intro r h₁ h₂ h₃ h₄ h₅
    have hnone : ∀ f, f ∉ r.headers := fun f hf => by rw [h₁] at hf; cases hf
    exact
      { method := by rw [h₂]; exact ⟨hne, htok⟩
        names := fun f hf => absurd hf (hnone f)
        values := fun f hf => absurd hf (hnone f)
        lengths := fun f hf => absurd hf (hnone f)
        digits := fun h => nomatch h
        unseen := fun _ => h₃
        codings := fun f hf => absurd hf (hnone f)
        once := by rw [h₁]; rfl
        chunked := h₄
        body := by rw [h₃, h₄, h₅]; rfl }
  split_ifs at h
  · cases h
    exact ⟨hfresh _ rfl rfl rfl rfl rfl, rfl⟩
  cases h
  exact ⟨hfresh _ rfl rfl rfl rfl rfl, rfl⟩

theorem requestLine_error {line : Bytes} {a : Answer} (h : requestLine line = .error a) :
    a.1 ≠ .complete := by
  unfold requestLine at h
  dsimp only at h
  split_ifs at h
  all_goals
    cases h
    exact nofun

/-- **What is completed**: a request line, then field lines, each one of the request's
    fields, up to the empty line at `length`; the whole framed in one way. -/
theorem parseRequest_framed {buf : Bytes} {r : Request} (h : parseRequest buf = (.complete, r)) :
    Accepted r ∧ ∃ line next lines,
      nextLine buf (buf.takeWhile fun c => c = cr || c = lf).length = some (line, next) ∧
      Lines buf r.length next lines ∧ r.headers = lines.map fieldOf := by
  unfold parseRequest at h
  dsimp only at h
  cases hl : nextLine buf (buf.takeWhile fun c => c = cr || c = lf).length with
  | none => rw [hl] at h; cases h
  | some l =>
    rw [hl] at h
    dsimp only at h
    cases hr : requestLine l.1 with
    | error a =>
      rw [hr] at h
      exact absurd (congrArg Prod.fst h) (requestLine_error hr)
    | ok out =>
      rw [hr] at h
      obtain ⟨hi, hnone⟩ := requestLine_inv hr
      obtain ⟨ha, lines, hlines, hh⟩ := hi.fields h
      refine ⟨ha, l.1, l.2, lines, rfl, hlines, ?_⟩
      rw [hh, hnone, List.nil_append]

/-- **The parser is stable under arrival, and what it completes is framed in one way.** -/
theorem parseRequest_arrival (buf : Bytes) :
    ((parseRequest buf).1 ≠ .incomplete → ∀ more, parseRequest (buf ++ more) = parseRequest buf) ∧
    (∀ segs, arrive buf segs = parseRequest (buf ++ segs.flatten)) ∧
    (∀ r, parseRequest buf = (.complete, r) → Accepted r ∧ ∃ line next lines,
        nextLine buf (buf.takeWhile fun c => c = cr || c = lf).length = some (line, next) ∧
        Lines buf r.length next lines ∧ r.headers = lines.map fieldOf) :=
  ⟨fun h _ => parseRequest_append h, arrive_eq, fun _ h => parseRequest_framed h⟩

-- a head in three arrivals, and what a pipelined next request does to it: nothing
example : (arrive (bytes "POST /a HTTP/1.1\r") [bytes "\nHost: h\r\nContent-Le",
    bytes "ngth: 5\r\n\r\n"]).2.contentLength = 5 := by decide +kernel

end Agensio.Http1
