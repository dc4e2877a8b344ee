/-
  Agensio.Http1.ChunkedBody — a chunked body line by line.

  A reference for `ChunkedDecoder`: RFC 9112 7.1 read off the front of the
  body, a size line, the data it announces, the line end behind them, and
  behind the last chunk the trailer lines up to an empty one.  What is in
  an extension or a trailer line is not looked at; the decoder's limits on
  their lengths are part of the reference, and so is that a trailer line
  does not start with a blank.

  The decoder is called with any part of the bytes that are there and any
  room for its output.

  Main results:
    * `decoded_exactly` — and it does so call by call, without a byte of
      what follows the body.
-/
import Agensio.Http1.Chunked

namespace Agensio.Http1

open ChunkedDecoder (kMaxLine kMaxTrailers hexValue)

/-! ## §1. The reference. -/

namespace ChunkedBody

/-- The bytes end, are malformed, or are read up to `rest`. -/
inductive Verdict where
  | more
  | bad
  | done (rest : Bytes)
  deriving DecidableEq

def crlf : Bytes → Verdict
  | [] => .more
  | [c] => if c = cr then .more else .bad
  | c :: l :: rest => if c = cr ∧ l = lf then .done rest else .bad

def isHex (c : UInt8) : Bool := (hexValue c).isSome

/-- Not a line end. -/
def isText (c : UInt8) : Bool := c != cr && c != lf

/-- `chunk-size [ chunk-ext ] CRLF`. -/
def sizeLine (bs : Bytes) : Verdict :=
  if 16 < (bs.takeWhile isHex).length then .bad
  else
    match bs.dropWhile isHex with
    | [] => .more
    | c :: cs =>
      if bs.takeWhile isHex = [] then .bad
      else if c = 0x3b then
        if kMaxLine < (cs.takeWhile isText).length then .bad else crlf (cs.dropWhile isText)
      else crlf (c :: cs)

def addDigit (size : Nat) (c : UInt8) : Nat := size * 16 + (hexValue c).getD 0

def chunkSize (bs : Bytes) : Nat := (bs.takeWhile isHex).foldl addDigit 0

/-- A trailer line behind its first byte, with which `count` bytes of the section are read; the
    limit is looked at from the second byte on. -/
def trailerLine (count : Nat) (cs : Bytes) : Verdict :=
  let text := cs.takeWhile isText
  if text ≠ [] ∧ kMaxTrailers < count + text.length then .bad
  else
    match cs.dropWhile isText with
    | [] => .more
    | e :: rest =>
      if e = cr ∧ kMaxTrailers < count + text.length + 1 then .bad else crlf (e :: rest)

theorem crlf_length {bs rest : Bytes} (h : crlf bs = .done rest) : rest.length + 2 = bs.length := by
  unfold crlf at h
  split at h
  · simp at h
  · split at h <;> simp at h
  split at h
  · obtain rfl := Verdict.done.inj h
    rfl
  · simp at h

theorem length_dropWhile_le (p : UInt8 → Bool) (bs : Bytes) : (bs.dropWhile p).length ≤ bs.length :=
  (List.dropWhile_suffix p).length_le

theorem trailerLine_length {count : Nat} {cs rest : Bytes} (h : trailerLine count cs = .done rest) :
    rest.length < cs.length := by
  have hle := length_dropWhile_le isText cs
  unfold trailerLine at h
  dsimp only at h
  split at h
  · simp at h
  split at h
  · simp at h
  next e rest' heq =>
    split at h
    · simp at h
    have := crlf_length h
    rw [heq] at hle
    omega

theorem sizeLine_length {bs rest : Bytes} (h : sizeLine bs = .done rest) : rest.length < bs.length := by
  have hle := length_dropWhile_le isHex bs
  unfold sizeLine at h
  split at h
  · simp at h
  split at h
  · simp at h
  next c cs heq =>
    rw [heq] at hle
    split at h
    · simp at h
    split at h
    · split at h
      · simp at h
      have := crlf_length h
      have := length_dropWhile_le isText cs
      rw [List.length_cons] at hle
      omega
    · have := crlf_length h
      omega

/-- `trailer-section CRLF`, `count` bytes of it before. -/
def trailers (count : Nat) (bs : Bytes) : Verdict :=
  match bs with
  | [] => .more
  | c :: cs =>
    if c = cr then crlf (c :: cs)
    else if c = 0x20 ∨ c = 0x09 ∨ c = lf then .bad
    else
      match _h : trailerLine (count + 1) cs with
      | .done rest => trailers (count + 1 + (cs.takeWhile isText).length + 1) rest
      | v => v
termination_by bs.length
decreasing_by
  have := trailerLine_length _h
  rw [List.length_cons]
  omega

/-- `chunked-body`: the data, and where it ends. -/
def body (bs : Bytes) : Bytes × Verdict :=
  match _h : sizeLine bs with
  | .done rest =>
    if chunkSize bs = 0 then ([], trailers 0 rest)
    else
      match _h' : crlf (rest.drop (chunkSize bs)) with
      | .done rest' => (rest.take (chunkSize bs) ++ (body rest').1, (body rest').2)
      | v => (rest.take (chunkSize bs), v)
  | v => ([], v)
termination_by bs.length
decreasing_by
  all_goals
    have := sizeLine_length _h
    have := crlf_length _h'
    rw [List.length_drop] at this
    omega

theorem body_eq (bs : Bytes) : body bs =
    match sizeLine bs with
    | .done rest =>
      if chunkSize bs = 0 then ([], trailers 0 rest)
      else
        match crlf (rest.drop (chunkSize bs)) with
        | .done rest' => (rest.take (chunkSize bs) ++ (body rest').1, (body rest').2)
        | v => (rest.take (chunkSize bs), v)
    | v => ([], v) := by
  rw [body]
  split
  next rest h =>
    rw [h]
    dsimp only
    by_cases hzero : chunkSize bs = 0
    · rw [if_pos hzero, if_pos hzero]
    rw [if_neg hzero, if_neg hzero]
    split
    next rest' h' => rw [h']
    next =>
      cases h' : crlf (rest.drop (chunkSize bs)) <;> simp_all
  next =>
    cases h : sizeLine bs <;> simp_all

end ChunkedBody

open ChunkedBody

/-! ## §2. What the decoder sees. -/

namespace ChunkedDecoder

/-- What a call tells its caller. -/
def Fed.seen (f : Fed) : Bytes × Verdict :=
  (f.out, match f.status with
    | .ok => .more
    | .error => .bad
    | .done => .done f.rest)

theorem Fed.seen_after (out : Bytes) (f : Fed) : (f.after out).seen = (out ++ f.seen.1, f.seen.2) := rfl

section Lines

variable {r k n : Nat}

variable (bs : Bytes)

theorem seen_dataCr : ((⟨.dataCr, r, k, n⟩ : ChunkedDecoder).feed bs).seen =
    match crlf bs with
    | .done rest => ((⟨.size, r, 0, n⟩ : ChunkedDecoder).feed rest).seen
    | v => ([], v) := by
  rcases bs with _ | ⟨c, _ | ⟨l, rest⟩⟩
  · rfl
  · by_cases hc : c = cr <;> simp [feed, step, crlf, Fed.seen, statusOf, fail, hc]
  by_cases hc : c = cr <;> by_cases hl : l = lf <;>
    simp [feed, step, crlf, Fed.seen, fail, hc, hl]

/-- What follows a size line. -/
def behindLine (r k n : Nat) : Verdict → Bytes × Verdict
  | .done rest =>
    if r = 0 then ((⟨.trailerStart, 0, k, 0⟩ : ChunkedDecoder).feed rest).seen
    else ((⟨.data, r, k, n⟩ : ChunkedDecoder).feed rest).seen
  | v => ([], v)

theorem seen_sizeLf : ((⟨.sizeLf, r, k, n⟩ : ChunkedDecoder).feed bs).seen =
    behindLine r k n (crlf (cr :: bs)) := by
  cases bs with
  | nil => rfl
  | cons l rest =>
    by_cases hl : l = lf
    · by_cases hr : r = 0 <;> simp [feed, step, crlf, behindLine, hl, hr]
    · simp [feed, step, crlf, behindLine, Fed.seen, fail, hl]

theorem seen_ext (hn : n ≤ kMaxLine) (bs : Bytes) : ((⟨.ext, r, k, n⟩ : ChunkedDecoder).feed bs).seen =
      if kMaxLine < n + (bs.takeWhile isText).length then ([], .bad)
      else behindLine r k (n + (bs.takeWhile isText).length) (crlf (bs.dropWhile isText)) := by
  induction bs generalizing n with
  | nil =>
    rw [if_neg (by simpa using hn)]
    rfl
  | cons c cs ih =>
    by_cases hcr : c = cr
    · have htext : isText c = false := by simp [isText, hcr]
      rw [List.takeWhile_cons_of_neg (by simp [htext]), List.dropWhile_cons_of_neg (by simp [htext]),
        if_neg (by simpa using hn), hcr, List.length_nil, Nat.add_zero, ← seen_sizeLf]
      simp [feed, step]
    · by_cases hlf : c = lf
      · have htext : isText c = false := by simp [isText, hlf]
        rw [List.takeWhile_cons_of_neg (by simp [htext]), List.dropWhile_cons_of_neg (by simp [htext]),
          if_neg (by simpa using hn)]
        have hbad : crlf (c :: cs) = .bad := by cases cs <;> simp [crlf, hcr]
        rw [hbad]
        simp [feed, step, Fed.seen, fail, behindLine, hlf, show lf ≠ cr by decide]
      · have htext : isText c = true := by simp [isText, hcr, hlf]
        rw [List.takeWhile_cons_of_pos htext, List.dropWhile_cons_of_pos htext, List.length_cons]
        by_cases hlong : n + 1 > kMaxLine
        · rw [if_pos (by omega)]
          simp [feed, step, Fed.seen, fail, hcr, hlf, hlong]
        have hstep : ((⟨.ext, r, k, n⟩ : ChunkedDecoder).feed (c :: cs)).seen =
            ((⟨.ext, r, k, n + 1⟩ : ChunkedDecoder).feed cs).seen := by
          simp [feed, step, hcr, hlf, hlong]
        rw [hstep, ih (Nat.not_lt.mp hlong), Nat.add_right_comm n 1, Nat.add_assoc]

theorem seen_size (hk : k ≤ 16) (bs : Bytes) : ((⟨.size, r, k, n⟩ : ChunkedDecoder).feed bs).seen =
      if 16 < k + (bs.takeWhile isHex).length then ([], .bad)
      else
        match bs.dropWhile isHex with
        | [] => ([], .more)
        | c :: cs =>
          if k + (bs.takeWhile isHex).length = 0 then ([], .bad)
          else
            let size := (bs.takeWhile isHex).foldl addDigit r
            let digits := k + (bs.takeWhile isHex).length
            if c = 0x3b then
              if kMaxLine < (cs.takeWhile isText).length then ([], .bad)
              else behindLine size digits (cs.takeWhile isText).length (crlf (cs.dropWhile isText))
            else behindLine size digits n (crlf (c :: cs)) := by
  induction bs generalizing r k with
  | nil =>
    rw [if_neg (by simpa using hk)]
    rfl
  | cons c cs ih =>
    cases hv : hexValue c with
    | some v =>
      have hhex : isHex c = true := by simp [isHex, hv]
      rw [List.takeWhile_cons_of_pos hhex, List.dropWhile_cons_of_pos hhex, List.length_cons, List.foldl_cons]
      by_cases hlong : k + 1 > 16
      · rw [if_pos (by omega)]
        simp [feed, step, hv, Fed.seen, fail, hlong]
      have hstep : ((⟨.size, r, k, n⟩ : ChunkedDecoder).feed (c :: cs)).seen =
          ((⟨.size, addDigit r c, k + 1, n⟩ : ChunkedDecoder).feed cs).seen := by
        simp [feed, step, hv, hlong, addDigit]
      rw [hstep, ih (Nat.not_lt.mp hlong), Nat.add_right_comm k 1, Nat.add_assoc]
    | none =>
      have hhex : isHex c = false := by simp [isHex, hv]
      rw [List.takeWhile_cons_of_neg (by simp [hhex]), List.dropWhile_cons_of_neg (by simp [hhex]),
        if_neg (by simpa using hk)]
      dsimp only [List.length_nil, Nat.add_zero, List.foldl_nil]
      by_cases hzero : k = 0
      · rw [if_pos hzero]
        simp [feed, step, hv, Fed.seen, fail, hzero]
      rw [if_neg hzero]
      by_cases hsemi : c = 0x3b
      · have hstep : ((⟨.size, r, k, n⟩ : ChunkedDecoder).feed (c :: cs)).seen =
            ((⟨.ext, r, k, 0⟩ : ChunkedDecoder).feed cs).seen := by
          rw [hsemi] at hv ⊢
          simp [feed, step, hv, hzero]
        rw [if_pos hsemi, hstep, seen_ext (Nat.zero_le _), Nat.zero_add]
      · rw [if_neg hsemi]
        by_cases hcr : c = cr
        · rw [hcr, ← seen_sizeLf]
          rw [hcr] at hv
          simp [feed, step, hv, hzero, show cr ≠ 0x3b by decide]
        · have hbad : crlf (c :: cs) = .bad := by cases cs <;> simp [crlf, hcr]
          rw [hbad]
          simp [feed, step, hv, hzero, hsemi, hcr, Fed.seen, fail, behindLine]

theorem seen_data (hr : r ≠ 0) (bs : Bytes) : ((⟨.data, r, k, n⟩ : ChunkedDecoder).feed bs).seen =
      (bs.take r ++ ((⟨.dataCr, 0, k, n⟩ : ChunkedDecoder).feed (bs.drop r)).seen.1,
        ((⟨.dataCr, 0, k, n⟩ : ChunkedDecoder).feed (bs.drop r)).seen.2) := by
  induction bs generalizing r with
  | nil =>
    rw [List.take_nil, List.drop_nil]
    rfl
  | cons c cs ih =>
    obtain ⟨m, rfl⟩ := Nat.exists_eq_succ_of_ne_zero hr
    rw [Nat.succ_eq_add_one, List.take_succ_cons, List.drop_succ_cons]
    have hstep : ((⟨.data, m + 1, k, n⟩ : ChunkedDecoder).feed (c :: cs)).seen =
        (c :: ((⟨if m = 0 then .dataCr else .data, m, k, n⟩ : ChunkedDecoder).feed cs).seen.1,
          ((⟨if m = 0 then .dataCr else .data, m, k, n⟩ : ChunkedDecoder).feed cs).seen.2) := by
      by_cases hm : m = 0 <;> simp [feed, step, hm, Fed.seen_after]
    rw [hstep]
    by_cases hm : m = 0
    · subst hm
      rfl
    rw [if_neg hm, ih hm]
    rfl

theorem seen_trailerLf : ((⟨.trailerLf, 0, k, n⟩ : ChunkedDecoder).feed bs).seen =
    match crlf (cr :: bs) with
    | .done rest => ((⟨.trailerStart, 0, k, n⟩ : ChunkedDecoder).feed rest).seen
    | v => ([], v) := by
  cases bs with
  | nil => rfl
  | cons l rest =>
    by_cases hl : l = lf <;> simp [feed, step, crlf, Fed.seen, fail, hl]

theorem seen_endLf : ((⟨.endLf, 0, k, n⟩ : ChunkedDecoder).feed bs).seen = ([], crlf (cr :: bs)) := by
  cases bs with
  | nil => rfl
  | cons l rest =>
    by_cases hl : l = lf <;> simp [feed, step, crlf, Fed.seen, fail, hl]

theorem seen_trailerLine : ((⟨.trailerLine, 0, k, n⟩ : ChunkedDecoder).feed bs).seen =
    match trailerLine n bs with
    | .done rest =>
      ((⟨.trailerStart, 0, k, n + (bs.takeWhile isText).length + 1⟩ : ChunkedDecoder).feed rest).seen
    | v => ([], v) := by
  unfold trailerLine
  dsimp only
  induction bs generalizing n with
  | nil =>
    rw [if_neg (by simp)]
    rfl
  | cons c cs ih =>
    by_cases htext : isText c = true
    · have hne : c ≠ cr ∧ c ≠ lf := by simpa [isText] using htext
      rw [List.takeWhile_cons_of_pos htext, List.dropWhile_cons_of_pos htext, List.length_cons]
      by_cases hlong : n + 1 > kMaxTrailers
      · rw [if_pos ⟨List.cons_ne_nil _ _, by omega⟩]
        simp [feed, step, Fed.seen, fail, hne.2, hlong]
      have hstep : ((⟨.trailerLine, 0, k, n⟩ : ChunkedDecoder).feed (c :: cs)).seen =
          ((⟨.trailerLine, 0, k, n + 1⟩ : ChunkedDecoder).feed cs).seen := by
        simp [feed, step, hne.1, hne.2, hlong]
      have hlimit : (cs.takeWhile isText ≠ [] ∧ kMaxTrailers < n + 1 + (cs.takeWhile isText).length) ↔
          (c :: cs.takeWhile isText ≠ [] ∧
            kMaxTrailers < n + ((cs.takeWhile isText).length + 1)) := by
        cases cs.takeWhile isText with
        | nil => simp; omega
        | cons x xs => simp; omega
      rw [hstep, ih, show n + 1 + (cs.takeWhile isText).length =
        n + ((cs.takeWhile isText).length + 1) by omega]
      rw [show n + 1 + (cs.takeWhile isText).length =
        n + ((cs.takeWhile isText).length + 1) by omega] at hlimit
      by_cases h : c :: cs.takeWhile isText ≠ [] ∧
          kMaxTrailers < n + ((cs.takeWhile isText).length + 1)
      · rw [if_pos h, if_pos (hlimit.mpr h)]
      · rw [if_neg h, if_neg fun h' => h (hlimit.mp h')]
    · rw [List.takeWhile_cons_of_neg htext, List.dropWhile_cons_of_neg htext, if_neg (by simp)]
      dsimp only [List.length_nil, Nat.add_zero]
      by_cases hcr : c = cr
      · by_cases hlong : n + 1 > kMaxTrailers
        · rw [if_pos ⟨hcr, by omega⟩]
          simp [feed, step, Fed.seen, fail, hcr, hlong]
        rw [if_neg fun h => hlong (by omega), hcr, ← seen_trailerLf]
        simp [feed, step, hlong, show cr ≠ lf by decide]
      · have hlf : c = lf := by
          by_contra hlf
          exact htext (by simp [isText, hcr, hlf])
        have hbad : crlf (c :: cs) = .bad := by cases cs <;> simp [crlf, hcr]
        rw [if_neg (fun h => hcr h.1), hbad]
        simp [feed, step, Fed.seen, fail, hlf]

theorem seen_trailers : ((⟨.trailerStart, 0, k, n⟩ : ChunkedDecoder).feed bs).seen = ([], trailers n bs) := by
  induction hlen : bs.length using Nat.strong_induction_on generalizing bs n with
  | _ len ih =>
    cases bs with
    | nil =>
      rw [trailers]
      rfl
    | cons c cs =>
      rw [trailers]
      by_cases hcr : c = cr
      · rw [if_pos hcr, hcr, ← seen_endLf (k := k) (n := n + 1)]
        simp [feed, step]
      rw [if_neg hcr]
      by_cases hblank : c = 0x20 ∨ c = 0x09 ∨ c = lf
      · rw [if_pos hblank]
        simp [feed, step, Fed.seen, fail, hcr, or_assoc, hblank]
      have hstep : ((⟨.trailerStart, 0, k, n⟩ : ChunkedDecoder).feed (c :: cs)).seen =
          ((⟨.trailerLine, 0, k, n + 1⟩ : ChunkedDecoder).feed cs).seen := by
        simp [feed, step, hcr, or_assoc, hblank]
      rw [if_neg hblank, hstep, seen_trailerLine]
      cases h : trailerLine (n + 1) cs with
      | more => rfl
      | bad => rfl
      | done rest =>
        have hlt := trailerLine_length h
        exact ih rest.length (by rw [← hlen, List.length_cons]; omega) rest rfl

/-- **The decoder sees what the reference reads.** -/
theorem seen_eq_body : ((⟨.size, 0, 0, n⟩ : ChunkedDecoder).feed bs).seen = body bs := by
  induction hlen : bs.length using Nat.strong_induction_on generalizing bs n with
  | _ len ih =>
    -- a chunk, or the trailers, behind the size line
    have hbehind : ∀ k n' v, sizeLine bs = v →
        behindLine (chunkSize bs) k n' v = body bs := by
      intro k n' v hv
      rw [body_eq, hv]
      cases v with
      | more => rfl
      | bad => rfl
      | done rest =>
        have hlt := sizeLine_length hv
        dsimp only [behindLine]
        by_cases hzero : chunkSize bs = 0
        · rw [if_pos hzero, if_pos hzero, seen_trailers]
        rw [if_neg hzero, if_neg hzero, seen_data hzero, seen_dataCr]
        cases hc : crlf (rest.drop (chunkSize bs)) with
        | more => simp
        | bad => simp
        | done rest' =>
          have := crlf_length hc
          rw [List.length_drop] at this
          simp only
          rw [ih rest'.length (by omega) rest' rfl]
    rw [seen_size (Nat.zero_le _)]
    dsimp only
    rw [Nat.zero_add]
    by_cases hlong : 16 < (bs.takeWhile isHex).length
    · rw [if_pos hlong]
      exact hbehind 0 0 .bad (by unfold sizeLine; rw [if_pos hlong])
    rw [if_neg hlong]
    cases hdrop : bs.dropWhile isHex with
    | nil => exact hbehind 0 0 .more (by rw [sizeLine, if_neg hlong, hdrop])
    | cons c cs =>
      have hline : sizeLine bs = if bs.takeWhile isHex = [] then .bad
          else if c = 0x3b then
            if kMaxLine < (cs.takeWhile isText).length then .bad else crlf (cs.dropWhile isText)
          else crlf (c :: cs) := by
        rw [sizeLine, if_neg hlong, hdrop]
      dsimp only
      by_cases hnone : bs.takeWhile isHex = []
      · rw [if_pos hnone] at hline
        rw [if_pos (by rw [hnone]; rfl)]
        exact hbehind 0 0 .bad hline
      · rw [if_neg hnone] at hline
        rw [if_neg (by simpa using hnone)]
        by_cases hsemi : c = 0x3b
        · rw [if_pos hsemi] at hline ⊢
          by_cases hext : kMaxLine < (cs.takeWhile isText).length
          · rw [if_pos hext] at hline ⊢
            exact hbehind 0 0 .bad hline
          rw [if_neg hext] at hline ⊢
          exact hbehind _ _ _ hline
        · rw [if_neg hsemi] at hline ⊢
          exact hbehind _ _ _ hline

end Lines

/-! ## §3. Call by call. -/

/-- A body on its way in: what is not taken yet, and what was given so far. -/
structure Session where
  decoder : ChunkedDecoder := {}
  rest : Bytes
  out : Bytes := []
  status : Status := .ok

/-- A call with the next `len` bytes and room for `room`; after `done` and `error` there is none. -/
def Session.call (s : Session) (c : Nat × Nat) : Session :=
  if s.status = .ok then
    let f := s.decoder.decode c.2 (s.rest.take c.1)
    ⟨f.decoder, f.rest ++ s.rest.drop c.1, s.out ++ f.out, f.status⟩
  else s

def session (wire : Bytes) (calls : List (Nat × Nat)) : Session := calls.foldl Session.call { rest := wire }

/-- What one run over the whole of `wire` comes to, seen from `s`. -/
def Session.Leads (s : Session) (wire : Bytes) : Prop :=
  ({} : ChunkedDecoder).feed wire =
      (if s.status = .ok then (s.decoder.feed s.rest).after s.out else ⟨s.decoder, s.out, s.rest, s.status⟩) ∧
    (s.status = .ok → s.decoder.state ≠ .complete) ∧ s.rest <:+ wire

theorem Session.Leads.call {s : Session} {wire : Bytes} (h : s.Leads wire) (c : Nat × Nat) :
    (s.call c).Leads wire := by
  unfold Session.call
  by_cases hok : s.status = .ok
  · rw [if_pos hok]
    refine ⟨?_, decode_ok, ?_⟩
    · rw [h.1, if_pos hok]
      conv_lhs => rw [← List.take_append_drop c.1 s.rest, feed_decode (s.rest.drop c.1) _ _ c.2]
      dsimp only
      split
      · rw [Fed.after_after]
      · rfl
    · obtain ⟨before, htake⟩ := decode_suffix s.decoder c.2 (s.rest.take c.1)
      refine List.IsSuffix.trans ⟨before, ?_⟩ h.2.2
      rw [← List.append_assoc, htake, List.take_append_drop]
  · rwa [if_neg hok]

theorem session_leads (wire : Bytes) (calls : List (Nat × Nat)) : (session wire calls).Leads wire := by
  suffices h : ∀ s : Session, s.Leads wire → (calls.foldl Session.call s).Leads wire from
    h { rest := wire } ⟨rfl, fun _ => nofun, List.suffix_refl _⟩
  induction calls with
  | nil => exact fun s hs => hs
  | cons c calls ih => exact fun s hs => ih _ (hs.call c)

/-- Each call takes a byte while there is one. -/
theorem session_progress {wire : Bytes} {calls : List (Nat × Nat)} (hcalls : ∀ c ∈ calls, 0 < c.1 ∧ 0 < c.2)
    (hok : (session wire calls).status = .ok) :
    (session wire calls).rest = [] ∨ (session wire calls).rest.length + calls.length ≤ wire.length := by
  induction calls using List.reverseRecOn with
  | nil => exact .inr le_rfl
  | append_singleton calls c ih =>
    have hlast : session wire (calls ++ [c]) = (session wire calls).call c := by
      simp [session]
    rw [hlast] at hok ⊢
    generalize session wire calls = s at ih hok ⊢
    unfold Session.call at hok ⊢
    by_cases hs : s.status = .ok
    · rw [if_pos hs] at hok ⊢
      dsimp only at hok ⊢
      obtain ⟨hlen, hroom⟩ := hcalls c (by simp)
      rcases ih (fun c' hc' => hcalls c' (by simp [hc'])) hs with hrest | hrest
      · left
        simp [hrest, decode]
      by_cases hnil : s.rest = []
      · left
        simp [hnil, decode]
      right
      have hne : s.rest.take c.1 ≠ [] := by
        rw [Ne, List.take_eq_nil_iff]
        rintro (h | h)
        · omega
        · exact hnil h
      have hlt := decode_rest_lt hroom hne hok
      rw [List.length_append, List.length_append, List.length_singleton, List.length_drop]
      rw [List.length_take] at hlt
      omega
    · rw [if_neg hs] at hok
      exact absurd hok hs

end ChunkedDecoder

open ChunkedDecoder

/-- **Chunked coding is decoded exactly.**  However the bytes are cut into calls and whatever room each
    has: what was given is what the reference reads, `done` comes with its end and with all that
    follows left where it is, `error` where it finds the body malformed, and the bytes are all taken
    by calls that have a byte and room for one.  And what the encoder writes for pieces is read as
    these pieces, up to the end of the last chunk. -/
theorem decoded_exactly : (∀ (wire : Bytes) (calls : List (Nat × Nat)), ((session wire calls).status = .done →
        body wire = ((session wire calls).out, .done (session wire calls).rest)) ∧
      ((session wire calls).status = .error → body wire = ((session wire calls).out, .bad)) ∧
      ((session wire calls).status = .ok → (session wire calls).rest = [] →
        body wire = ((session wire calls).out, .more)) ∧
      (session wire calls).out <+: (body wire).1 ∧ (session wire calls).rest <:+ wire ∧
      ((∀ c ∈ calls, 0 < c.1 ∧ 0 < c.2) → wire.length ≤ calls.length →
        (session wire calls).status = .ok → (session wire calls).rest = [])) ∧
    ∀ pieces : List Bytes, (∀ bs ∈ pieces, bs ≠ [] ∧ bs.length < 2 ^ 64) → ∀ tail : Bytes,
      body (pieces.flatMap (fun bs => chunkSizeLine bs.length ++ bs ++ [cr, lf]) ++ kLastChunk ++ tail) =
        (pieces.flatten, .done tail) := by
  refine ⟨fun wire calls => ?_, fun pieces hpieces tail => ?_⟩
  · obtain ⟨hwhole, hnot, hsuffix⟩ := session_leads wire calls
    have hprogress := @session_progress wire calls
    have hbody : body wire = (({} : ChunkedDecoder).feed wire).seen := (seen_eq_body wire).symm
    rw [hbody, hwhole]
    generalize session wire calls = s at hnot hprogress hsuffix ⊢
    refine ⟨fun h => ?_, fun h => ?_, fun h hrest => ?_, ?_, hsuffix, fun hcalls hlen h => ?_⟩
    · simp [h, Fed.seen]
    · simp [h, Fed.seen]
    · have hstatus : s.decoder.statusOf = .ok := if_neg (hnot h)
      simp [h, hrest, feed, Fed.seen, hstatus]
    · split
      · exact ⟨_, rfl⟩
      · exact ⟨[], by simp [Fed.seen]⟩
    · rcases hprogress hcalls h with hrest | hrest
      · exact hrest
      · exact List.length_eq_zero_iff.mp (by omega)
  · have htext : pieces.flatMap (fun bs => chunkSizeLine bs.length ++ bs ++ [cr, lf]) =
        pieces.flatMap chunkText := by
      refine List.flatMap_congr fun bs hbs => ?_
      rw [chunkText, if_neg (hpieces bs hbs).1]
    obtain ⟨hout, hrest, hstatus⟩ := feed_chunks (fun bs hbs => (hpieces bs hbs).2) tail
    rw [htext, ← seen_eq_body (n := 0), Fed.seen, hout, hrest, hstatus]

/-- A chunk cut in its size line and in its data, and the next request behind the body. -/
theorem decoded_exactly_hello :
    body (bytes "5\r\nhello\r\n0\r\n\r\nGET") = (bytes "hello", .done (bytes "GET")) := by
  have h := (decoded_exactly.1 (bytes "5\r\nhello\r\n0\r\n\r\nGET") [(2, 4), (30, 2), (30, 9)]).1 (by decide)
  rw [h]
  decide

end Agensio.Http1
