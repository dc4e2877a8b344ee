/-
  Agensio.Quic.SendBatch — the datagrams of one wake-up, sent together.

  Model of `SendBatch` (`quic/udp.hpp`).  The buffer is what every byte of
  it holds; `fill` is what a caller writes at the pointer `reserve` gave
  it.  A message is a region of the buffer, which the kernel cuts into
  datagrams of the message's segment size.  What `sendmmsg` answers comes
  from outside, as a list.

  `committed` is a HISTORY VARIABLE: the datagrams committed since the
  batch was last emptied, as they were then, each with where it was
  written.

  Main results:
    * `flush_keeps` — and what the kernel takes is part of what was committed,
      what it did not take is counted, exactly when segmentation is not
      refused part of the way through.
-/
import Agensio.Bytes
import Mathlib.Algebra.GroupWithZero.Nat
import Mathlib.Data.List.Flatten
import Mathlib.Data.List.Nodup
import Mathlib.Data.List.Range

namespace Agensio.Quic.SendBatch

/-! ## §1. Messages. -/

def kMaxSegments : Nat := 64

/-- The bytes of an address, as many as its length says. -/
abbrev Address := Bytes

/-- A datagram: where it was written, its bytes and where it goes. -/
structure Datagram where
  off : Nat
  bytes : Bytes
  dest : Address
  deriving DecidableEq

/-- `Msg`. -/
structure Msg where
  off : Nat
  len : Nat
  seg : Nat
  segments : Nat
  closed : Bool := false
  dest : Address
  deriving DecidableEq

/-- A region cut at a segment size: the regions of the datagrams, the last one what is left. -/
def cuts (seg : Nat) : (fuel : Nat) → (off left : Nat) → List (Nat × Nat)
  | 0, _, _ => []
  | fuel + 1, off, left =>
    if left = 0 then []
    else (off, min left seg) :: cuts seg fuel (off + min left seg) (left - min left seg)

/-- The regions of a message's datagrams. -/
def Msg.regions (m : Msg) : List (Nat × Nat) := cuts m.seg m.len m.off m.len

/-- The bytes of a region. -/
def slice (buf : Nat → UInt8) (r : Nat × Nat) : Bytes := (List.range' r.1 r.2).map buf

/-- The datagrams the kernel makes of a message. -/
def Msg.datagrams (buf : Nat → UInt8) (m : Msg) : List Datagram :=
  m.regions.map fun r => ⟨r.1, slice buf r, m.dest⟩

/-! ## §2. The batch. -/

/-- The datagrams of one wake-up. -/
structure Batch where
  size : Nat
  buf : Nat → UInt8
  pos : Nat := 0
  msgs : List Msg := []
  gso : Bool := true
  committed : List Datagram := []

/-- The message with one more datagram; a shorter one is its last. -/
def Msg.join (m : Msg) (len : Nat) : Msg :=
  { m with len := m.len + len, segments := m.segments + 1, closed := decide (len < m.seg) || m.closed }

namespace Batch

/-- `reserve`: where a datagram of up to `max` bytes may be written. -/
def reserve (b : Batch) (max : Nat) : Option Nat := if b.pos + max ≤ b.size then some b.pos else none

/-- What a caller writes where it reserved. -/
def fill (b : Batch) (data : Bytes) : Batch :=
  { b with
    buf := fun i => if b.pos ≤ i then (data[i - b.pos]?).getD (b.buf i) else b.buf i }

/-- The last message takes one more datagram. -/
def joins (b : Batch) (m : Msg) (len : Nat) (dest : Address) : Bool :=
  b.gso && !m.closed && decide (m.dest = dest) && decide (len ≤ m.seg) &&
    decide (m.segments < kMaxSegments) && decide (m.len + len ≤ 65535) && decide (m.off + m.len = b.pos)

/-- `commit`. -/
def commit (b : Batch) (len : Nat) (dest : Address) : Batch :=
  if len = 0 then b
  else
    let committed := b.committed ++ [⟨b.pos, slice b.buf (b.pos, len), dest⟩]
    let single : Msg := { off := b.pos, len, seg := len, segments := 1, dest }
    match b.msgs.getLast? with
    | some m =>
      if b.joins m len dest then
        { b with msgs := b.msgs.dropLast ++ [m.join len], pos := b.pos + len, committed }
      else { b with msgs := b.msgs ++ [single], pos := b.pos + len, committed }
    | none => { b with msgs := b.msgs ++ [single], pos := b.pos + len, committed }

/-- `set_gso`. -/
def setGso (b : Batch) (on : Bool) : Batch := { b with gso := on }

/-- `clear`. -/
def clear (b : Batch) : Batch := { b with msgs := [], pos := 0, committed := [] }

end Batch

/-! ## §3. Sending. -/

/-- What one `sendmmsg` answers: a count of messages taken, `EINTR`, `EMSGSIZE`, `EIO` or `EINVAL`,
or another error. -/
inductive Outcome where
  | sent (k : Nat)
  | interrupted
  | tooBig
  | refused
  | failed
  deriving DecidableEq

/-- A pass over the messages: the messages taken, the datagrams dropped, whether segmentation was
refused, and the answers not asked for. -/
structure Pass where
  accepted : List Msg
  dropped : Nat
  refused : Bool
  answers : List Outcome
  deriving DecidableEq

/-- The datagrams of the messages, by their counts. -/
def count (ms : List Msg) : Nat := (ms.map (·.segments)).sum

/-- The loop of `flush` over the messages from `done` on; nothing while an answer is missing. -/
def sendLoop (gso : Bool) : (answers : List Outcome) → (left : List Msg) → Option Pass
  | answers, [] => some ⟨[], 0, false, answers⟩
  | [], _ :: _ => none
  | .interrupted :: answers, m :: ms => sendLoop gso answers (m :: ms)
  | .refused :: answers, m :: ms =>
    if gso then some ⟨[], 0, true, answers⟩ else some ⟨[], count (m :: ms), false, answers⟩
  | .tooBig :: answers, m :: ms =>
    (sendLoop gso answers ms).map fun r => { r with dropped := m.segments + r.dropped }
  | .failed :: answers, m :: ms => some ⟨[], count (m :: ms), false, answers⟩
  | .sent k :: answers, m :: ms =>
    (sendLoop gso answers ((m :: ms).drop k)).map fun r =>
      { r with accepted := (m :: ms).take k ++ r.accepted }

/-- `split_all`, one message. -/
def Msg.split (m : Msg) : List Msg :=
  m.regions.map fun r => { m with off := r.1, len := r.2, seg := r.2, segments := 1 }

/-- `flush`: what the kernel took, the count returned, and the batch after; nothing while an answer
is missing. -/
def Batch.flush (b : Batch) (answers : List Outcome) : Option (List Datagram × Nat × Batch) :=
  if b.msgs = [] then some ([], 0, b)
  else
    match sendLoop b.gso answers b.msgs with
    | none => none
    | some first =>
      let taken := first.accepted.flatMap (Msg.datagrams b.buf)
      if !first.refused then some (taken, first.dropped, b.clear)
      else
        match sendLoop false first.answers (b.msgs.flatMap Msg.split) with
        | none => none
        | some second =>
          some (taken ++ second.accepted.flatMap (Msg.datagrams b.buf), first.dropped + second.dropped,
            { b with gso := false }.clear)

/-! ## §4. What a message holds. -/

/-- A message of `n` datagrams of the segment size and one of `last` bytes more. -/
structure Msg.Shaped (m : Msg) (n last : Nat) : Prop where
  segments : m.segments = n + 1
  len : m.len = n * m.seg + last
  pos : 0 < last
  le : last ≤ m.seg
  open_ : m.closed = false → last = m.seg

/-- The limits of a message: at most 64 segments and 65535 bytes, of one size but the last. -/
structure Msg.Limits (m : Msg) : Prop where
  segments : m.segments ≤ kMaxSegments
  len : m.len ≤ 65535
  counted : m.regions.length = m.segments
  whole : ∀ r ∈ m.regions.dropLast, r.2 = m.seg
  last : ∀ r ∈ m.regions, 0 < r.2 ∧ r.2 ≤ m.seg

variable {last n len pos : Nat} {m : Msg} {b : Batch} {ms : List Msg} {gso : Bool}
  {answers : List Outcome} {r : Pass}

/-- The regions of `n` datagrams of one size and a last one. -/
theorem cuts_eq (seg : Nat) (h0 : 0 < last) (hl : last ≤ seg) : ∀ (n fuel off : Nat), n < fuel →
      cuts seg fuel off (n * seg + last)
        = (List.range n).map (fun i => (off + i * seg, seg)) ++ [(off + n * seg, last)] := by
  intro n
  induction n with
  | zero =>
    intro fuel off hf
    obtain ⟨f, rfl⟩ : ∃ f, fuel = f + 1 := ⟨fuel - 1, by omega⟩
    have hmin : min last seg = last := by omega
    have hnil : cuts seg f (off + last) (last - last) = [] := by
      cases f <;> simp [cuts]
    simp only [Nat.zero_mul, Nat.zero_add, cuts, hmin, hnil, List.range_zero, List.map_nil,
      List.nil_append, Nat.add_zero]
    rw [if_neg (by omega)]
  | succ n ih =>
    intro fuel off hf
    obtain ⟨f, rfl⟩ : ∃ f, fuel = f + 1 := ⟨fuel - 1, by omega⟩
    have hlen : (n + 1) * seg + last = seg + (n * seg + last) := by rw [Nat.succ_mul]; omega
    have hmin : min (seg + (n * seg + last)) seg = seg := by omega
    have hleft : seg + (n * seg + last) - seg = n * seg + last := by omega
    have hsum (k : Nat) : off + seg + k * seg = off + (k + 1) * seg := by rw [Nat.succ_mul]; omega
    rw [hlen, cuts, if_neg (by omega), hmin, hleft, ih f (off + seg) (by omega), List.range_succ_eq_map]
    simp only [List.map_cons, List.map_map, List.cons_append, Nat.zero_mul, Nat.add_zero, hsum,
      Function.comp_def, Nat.succ_eq_add_one]

/-- The regions of a message. -/
theorem Msg.Shaped.regions (h : m.Shaped n last) :
    m.regions = (List.range n).map (fun i => (m.off + i * m.seg, m.seg)) ++ [(m.off + n * m.seg, last)] := by
  have hseg : 0 < m.seg := Nat.lt_of_lt_of_le h.pos h.le
  have hn : n < m.len := by
    have := Nat.le_mul_of_pos_right n hseg
    have := h.len
    have := h.pos
    omega
  unfold Msg.regions
  have := cuts_eq m.seg h.pos h.le n m.len m.off hn
  rwa [← h.len] at this

/-- A datagram of a message lies inside it. -/
theorem Msg.Shaped.inside (h : m.Shaped n last) :
    ∀ r ∈ m.regions, m.off ≤ r.1 ∧ r.1 + r.2 ≤ m.off + m.len := by
  intro r hr
  rw [h.regions, List.mem_append, List.mem_map, List.mem_singleton] at hr
  rcases hr with ⟨i, hi, rfl⟩ | rfl
  · have hi := List.mem_range.mp hi
    have : (i + 1) * m.seg ≤ n * m.seg := Nat.mul_le_mul_right _ hi
    rw [Nat.succ_mul] at this
    have := h.len
    omega
  · have := h.len
    omega

/-- A message of that shape keeps the limits. -/
theorem Msg.Shaped.limits (h : m.Shaped n last) (hs : m.segments ≤ kMaxSegments)
    (hl : m.len ≤ 65535) : m.Limits := by
  have hle := h.le
  have hpos := h.pos
  refine ⟨hs, hl, ?_, ?_, ?_⟩
  · rw [h.regions, h.segments]
    simp
  · intro r hr
    rw [h.regions, List.dropLast_concat, List.mem_map] at hr
    obtain ⟨i, -, rfl⟩ := hr
    rfl
  · intro r hr
    rw [h.regions, List.mem_append, List.mem_map, List.mem_singleton] at hr
    rcases hr with ⟨i, -, rfl⟩ | rfl
    · exact ⟨by show 0 < m.seg; omega, le_rfl⟩
    · exact ⟨hpos, hle⟩

/-- A message of one datagram. -/
theorem Msg.shaped_single (off len : Nat) (dest : Address) (h : 0 < len) :
    ({ off, len, seg := len, segments := 1, dest } : Msg).Shaped 0 len :=
  ⟨rfl, (by simp), h, le_rfl, fun _ => rfl⟩

/-- An open message takes one more datagram of at most its segment size. -/
theorem Msg.Shaped.join (h : m.Shaped n last) (hc : m.closed = false)
    (h0 : 0 < len) (hle : len ≤ m.seg) : (m.join len).Shaped (n + 1) len := by
  have hlast := h.open_ hc
  refine ⟨?_, ?_, h0, hle, ?_⟩
  · show m.segments + 1 = n + 1 + 1
    rw [h.segments]
  · show m.len + len = (n + 1) * m.seg + len
    rw [h.len, hlast, Nat.succ_mul]
  · intro hcl
    have : ¬len < m.seg := by
      intro hlt
      simp [Msg.join, hlt] at hcl
    show len = m.seg
    omega

/-- The regions after one more datagram. -/
theorem Msg.Shaped.join_regions (h : m.Shaped n last) (hc : m.closed = false)
    (h0 : 0 < len) (hle : len ≤ m.seg) : (m.join len).regions = m.regions ++ [(m.off + m.len, len)] := by
  have hlast := h.open_ hc
  have hend : m.off + (n + 1) * m.seg = m.off + m.len := by
    rw [h.len, hlast, Nat.succ_mul]
  rw [(h.join hc h0 hle).regions, h.regions]
  show (List.range (n + 1)).map (fun i => (m.off + i * m.seg, m.seg)) ++ [(m.off + (n + 1) * m.seg, len)] = _
  rw [hend, List.range_succ, List.map_append, List.map_cons, List.map_nil, hlast]

/-! ## §5. The messages hold what was committed. -/

/-- A message of a batch: within the limits, and in the part of the buffer already used. -/
structure Msg.Sound (pos : Nat) (m : Msg) : Prop where
  shaped : ∃ n last, m.Shaped n last
  segments : m.segments ≤ kMaxSegments
  len : m.len ≤ 65535
  inside : m.off + m.len ≤ pos

theorem Msg.Sound.limits (h : m.Sound pos) : m.Limits := by
  obtain ⟨n, last, hs⟩ := h.shaped
  exact hs.limits h.segments h.len

theorem Msg.Sound.mono {pos' : Nat} (h : m.Sound pos) (hp : pos ≤ pos') : m.Sound pos' :=
  ⟨h.shaped, h.segments, h.len, Nat.le_trans h.inside hp⟩

/-- The messages of a batch hold what was committed, each datagram in a place of its own. -/
structure Inv (b : Batch) : Prop where
  sound : ∀ m ∈ b.msgs, m.Sound b.pos
  held : b.msgs.flatMap (Msg.datagrams b.buf) = b.committed
  rising : (b.committed.map (·.off)).Pairwise (· < ·)
  below : ∀ d ∈ b.committed, d.off < b.pos

/-- A region holds the same bytes in buffers that agree on it. -/
theorem slice_congr {f g : Nat → UInt8} {r : Nat × Nat} (h : ∀ i, i < r.1 + r.2 → f i = g i) :
    slice f r = slice g r := by
  unfold slice
  refine List.map_congr_left fun i hi => h i ?_
  obtain ⟨k, hk, rfl⟩ := List.mem_range'.mp hi
  omega

/-- Writing where nothing is held yet changes no message. -/
theorem datagrams_congr {f g : Nat → UInt8} (h : ∀ i, i < pos → f i = g i)
    (hm : m.Sound pos) : m.datagrams f = m.datagrams g := by
  obtain ⟨n, last, hs⟩ := hm.shaped
  unfold Msg.datagrams
  refine List.map_congr_left fun r hr => ?_
  have hin := hs.inside r hr
  have hpos := hm.inside
  rw [slice_congr fun i hi => h i (by omega)]

/-- An empty batch. -/
theorem Inv.empty (hm : b.msgs = []) (hc : b.committed = []) : Inv b where
  sound := by simp [hm]
  held := by simp [hm, hc]
  rising := by simp [hc]
  below := by simp [hc]

theorem Inv.fill (h : Inv b) (data : Bytes) : Inv (b.fill data) where
  sound := h.sound
  held := by
    show b.msgs.flatMap (Msg.datagrams (b.fill data).buf) = b.committed
    rw [← h.held]
    refine List.flatMap_congr fun m hm => datagrams_congr (fun i hi => ?_) (h.sound m hm)
    have : ¬b.pos ≤ i := by omega
    simp [Batch.fill, this]
  rising := h.rising
  below := h.below

/-- A batch that holds one more datagram: what is left to show is that its messages do. -/
theorem Inv.grow (h : Inv b) (h0 : 0 < len) {dest : Address} (hs : ∀ m ∈ ms, m.Sound (b.pos + len))
    (hh : ms.flatMap (Msg.datagrams b.buf)
        = b.msgs.flatMap (Msg.datagrams b.buf) ++ [⟨b.pos, slice b.buf (b.pos, len), dest⟩]) :
    Inv { b with
      msgs := ms, pos := b.pos + len,
      committed := b.committed ++ [⟨b.pos, slice b.buf (b.pos, len), dest⟩] } where
  sound := hs
  held := by
    rw [hh, h.held]
  rising := by
    rw [List.map_append, List.pairwise_append]
    refine ⟨h.rising, (by simp), fun x hx y hy => ?_⟩
    obtain ⟨d, hd, rfl⟩ := List.mem_map.mp hx
    have := h.below d hd
    simp only [List.map_cons, List.map_nil, List.mem_singleton] at hy
    omega
  below := by
    intro d hd
    show d.off < b.pos + len
    rcases List.mem_append.mp hd with hd | hd
    · have := h.below d hd
      omega
    rw [List.mem_singleton.mp hd]
    show b.pos < b.pos + len
    omega

/-- A message of its own for a datagram. -/
theorem Inv.single (h : Inv b) (h0 : 0 < len) (hl : len ≤ 65535) (dest : Address) :
    Inv { b with
      msgs := b.msgs ++ [{ off := b.pos, len, seg := len, segments := 1, dest }], pos := b.pos + len,
      committed := b.committed ++ [⟨b.pos, slice b.buf (b.pos, len), dest⟩] } := by
  have hshape := Msg.shaped_single b.pos len dest h0
  refine h.grow h0 ?_ ?_
  · intro m hm
    rcases List.mem_append.mp hm with hm | hm
    · exact (h.sound m hm).mono (by omega)
    rw [List.mem_singleton.mp hm]
    exact ⟨⟨0, len, hshape⟩, (by show 1 ≤ 64; omega), hl, le_rfl⟩
  · rw [List.flatMap_append, List.flatMap_singleton, Msg.datagrams, hshape.regions]
    simp

/-- The last message with one more datagram. -/
theorem Inv.joined (h : Inv b) (h0 : 0 < len) {dest : Address}
    {before : List Msg} (hb : b.msgs = before ++ [m]) (hj : b.joins m len dest = true) :
    Inv { b with
      msgs := before ++ [m.join len], pos := b.pos + len,
      committed := b.committed ++ [⟨b.pos, slice b.buf (b.pos, len), dest⟩] } := by
  simp only [Batch.joins, Bool.and_eq_true, Bool.not_eq_eq_eq_not, Bool.not_true, decide_eq_true_eq] at hj
  obtain ⟨⟨⟨⟨⟨⟨-, hc⟩, hdest⟩, hle⟩, hsegs⟩, hlen⟩, hpos⟩ := hj
  have hm := h.sound m (by rw [hb]; simp)
  obtain ⟨n, last, hs⟩ := hm.shaped
  refine h.grow h0 ?_ ?_
  · intro x hx
    rcases List.mem_append.mp hx with hx | hx
    · exact (h.sound x (by rw [hb]; exact List.mem_append_left _ hx)).mono (by omega)
    rw [List.mem_singleton.mp hx]
    refine ⟨⟨n + 1, len, hs.join hc h0 hle⟩, ?_, hlen, ?_⟩
    · show m.segments + 1 ≤ kMaxSegments
      omega
    · show m.off + (m.len + len) ≤ b.pos + len
      omega
  · have hone : (m.join len).datagrams b.buf
        = m.datagrams b.buf ++ [⟨b.pos, slice b.buf (b.pos, len), dest⟩] := by
      rw [Msg.datagrams, hs.join_regions hc h0 hle, List.map_append]
      show m.datagrams b.buf ++ [⟨m.off + m.len, slice b.buf (m.off + m.len, len), m.dest⟩] = _
      rw [hpos, hdest]
    rw [hb, List.flatMap_append, List.flatMap_append, List.flatMap_singleton, List.flatMap_singleton, hone,
      List.append_assoc]

theorem Inv.commit (h : Inv b) (hl : len ≤ 65535) (dest : Address) : Inv (b.commit len dest) := by
  unfold Batch.commit
  by_cases h0 : len = 0
  · rwa [if_pos h0]
  rw [if_neg h0]
  have hpos : 0 < len := by omega
  cases hlast : b.msgs.getLast? with
  | none => exact h.single hpos hl dest
  | some m =>
    dsimp only
    have hb : b.msgs = b.msgs.dropLast ++ [m] := (List.dropLast_append_getLast? m hlast).symm
    split
    · next hj => exact h.joined hpos hb hj
    · exact h.single hpos hl dest

/-! ## §6. One pass. -/

/-- The messages gone before the first refusal of segmentation, if nothing ends the pass before. -/
def refusalAt : List Outcome → Option Nat
  | [] => none
  | .refused :: _ => some 0
  | .failed :: _ => none
  | .interrupted :: answers => refusalAt answers
  | .tooBig :: answers => (refusalAt answers).map (1 + ·)
  | .sent k :: answers => (refusalAt answers).map (k + ·)

/-- What a pass does with the messages it is given. -/
structure Passed (gso : Bool) (answers : List Outcome) (left : List Msg) (r : Pass) : Prop where
  accepted : r.accepted.Sublist left
  /-- Not refused, it accounts for every datagram. -/
  complete : r.refused = false → r.dropped + count r.accepted = count left
  /-- Refused, for those of the messages before the refusal. -/
  stopped : r.refused = true → gso = true ∧ ∃ k, refusalAt answers = some k ∧ k < left.length ∧
    r.accepted.Sublist (left.take k) ∧ r.dropped + count r.accepted = count (left.take k)
  /-- Not refused while segmentation is on, it was done before the refusal. -/
  done : r.refused = false → gso = true → ∀ k, refusalAt answers = some k → left.length ≤ k

@[simp] theorem count_nil : count [] = 0 := rfl

@[simp] theorem count_cons (m : Msg) (ms : List Msg) : count (m :: ms) = m.segments + count ms := by
  simp [count]

theorem count_append (xs ys : List Msg) : count (xs ++ ys) = count xs + count ys := by
  simp [count]

/-- The pass that ends with its messages. -/
theorem Passed.nil (gso : Bool) (answers : List Outcome) : Passed gso answers [] ⟨[], 0, false, answers⟩ where
  accepted := .slnil
  complete := fun _ => rfl
  stopped := by simp
  done := by simp

/-- A pass that leaves what is left unsent. -/
theorem Passed.unsent {rest : List Outcome} {left : List Msg}
    (h : gso = true → refusalAt answers = none) : Passed gso answers left ⟨[], count left, false, rest⟩ where
  accepted := List.nil_sublist _
  complete := fun _ => rfl
  stopped := by simp
  done := by
    intro _ hg k hk
    rw [h hg] at hk
    cases hk

/-- `k` messages gone, then the pass over the rest. -/
theorem Passed.after {o : Outcome} {left : List Msg}
    {k d : Nat} {took : List Msg} (h : Passed gso answers (left.drop k) r)
    (ho : refusalAt (o :: answers) = (refusalAt answers).map (k + ·)) (ht : took.Sublist (left.take k))
    (hd : d + count took = count (left.take k)) :
    Passed gso (o :: answers) left { r with accepted := took ++ r.accepted, dropped := d + r.dropped } where
  accepted := by
    have hparts := ht.append h.accepted
    rwa [List.take_append_drop] at hparts
  complete := by
    intro hr
    have hrest := h.complete hr
    have hall : count left = count (left.take k) + count (left.drop k) := by
      rw [← count_append, List.take_append_drop]
    show d + r.dropped + count (took ++ r.accepted) = count left
    rw [count_append]
    omega
  stopped := by
    intro hr
    obtain ⟨hg, j, hj, hlt, hacc, hrest⟩ := h.stopped hr
    rw [List.length_drop] at hlt
    refine ⟨hg, k + j, (by rw [ho, hj]; rfl), (by omega), ?_, ?_⟩
    · rw [List.take_add]
      exact ht.append hacc
    · show d + r.dropped + count (took ++ r.accepted) = count (left.take (k + j))
      rw [List.take_add, count_append, count_append]
      omega
  done := by
    intro hr hg i hi
    rw [ho, Option.map_eq_some_iff] at hi
    obtain ⟨j, hj, rfl⟩ := hi
    have := h.done hr hg j hj
    rw [List.length_drop] at this
    omega

/-- What a pass does. -/
theorem sendLoop_spec (gso : Bool) :
    ∀ (answers : List Outcome) (left : List Msg) (r : Pass), sendLoop gso answers left = some r →
      Passed gso answers left r := by
  intro answers
  induction answers with
  | nil =>
    intro left r h
    cases left with
    | nil =>
      simp only [sendLoop, Option.some.injEq] at h
      exact h ▸ Passed.nil gso []
    | cons m ms => simp [sendLoop] at h
  | cons o answers ih =>
    intro left r h
    cases left with
    | nil =>
      simp only [sendLoop, Option.some.injEq] at h
      exact h ▸ Passed.nil gso (o :: answers)
    | cons m ms =>
      cases o with
      | interrupted =>
        have hrest := ih (m :: ms) r (by simpa only [sendLoop] using h)
        exact ⟨hrest.accepted, hrest.complete, hrest.stopped, hrest.done⟩
      | refused =>
        simp only [sendLoop] at h
        cases gso with
        | true =>
          simp only [if_true, Option.some.injEq] at h
          subst h
          exact ⟨List.nil_sublist _, (by simp), fun _ => ⟨rfl, 0, rfl, (by simp), .slnil, rfl⟩, (by simp)⟩
        | false =>
          simp only [Bool.false_eq_true, if_false, Option.some.injEq] at h
          exact h ▸ Passed.unsent (by simp)
      | failed =>
        simp only [sendLoop, Option.some.injEq] at h
        exact h ▸ Passed.unsent fun _ => rfl
      | tooBig =>
        simp only [sendLoop, Option.map_eq_some_iff] at h
        obtain ⟨r', hr', rfl⟩ := h
        have hgone : (m :: ms).drop 1 = ms := rfl
        have hrest := ih ms r' hr'
        rw [← hgone] at hrest
        have := hrest.after (o := .tooBig) rfl (List.nil_sublist _) (d := m.segments) (by simp)
        simpa using this
      | sent k =>
        simp only [sendLoop, Option.map_eq_some_iff] at h
        obtain ⟨r', hr', rfl⟩ := h
        have := Passed.after (d := 0) (ih _ r' hr') (o := .sent k) rfl (List.Sublist.refl _) (by simp)
        simpa using this

/-! ## §7. Runs of a batch. -/

/-- The batches a worker gets, from an empty one: written and committed where there is room, with
segmentation switched on or off, emptied and sent, whatever the kernel answers. -/
inductive Reachable (size : Nat) : Batch → Prop
  | start (buf : Nat → UInt8) : Reachable size { size, buf }
  | fill {b : Batch} {max p : Nat} {data : Bytes} (h : Reachable size b) (hr : b.reserve max = some p)
      (hd : data.length ≤ max) : Reachable size (b.fill data)
  | commit {b : Batch} {len p : Nat} (h : Reachable size b) (hr : b.reserve len = some p)
      (hl : len ≤ 65535) (dest : Address) : Reachable size (b.commit len dest)
  | setGso {b : Batch} (h : Reachable size b) (on : Bool) : Reachable size (b.setGso on)
  | clear {b : Batch} (h : Reachable size b) : Reachable size b.clear
  | flush {b b' : Batch} {answers : List Outcome} {taken : List Datagram} {dropped : Nat}
      (h : Reachable size b) (hf : b.flush answers = some (taken, dropped, b')) : Reachable size b'

/-- What is left after a flush is empty. -/
theorem Batch.flush_empty {b' : Batch} {taken : List Datagram} {dropped : Nat}
    (h : Inv b) (hf : b.flush answers = some (taken, dropped, b')) : b'.msgs = [] ∧ b'.committed = [] := by
  unfold Batch.flush at hf
  split at hf
  · next hm =>
    simp only [Option.some.injEq, Prod.mk.injEq] at hf
    obtain ⟨-, -, rfl⟩ := hf
    exact ⟨hm, by rw [← h.held, hm]; rfl⟩
  · split at hf
    · cases hf
    split at hf
    · simp only [Option.some.injEq, Prod.mk.injEq] at hf
      obtain ⟨-, -, rfl⟩ := hf
      exact ⟨rfl, rfl⟩
    · split at hf
      · cases hf
      simp only [Option.some.injEq, Prod.mk.injEq] at hf
      obtain ⟨-, -, rfl⟩ := hf
      exact ⟨rfl, rfl⟩

/-- The messages of every batch hold what was committed. -/
theorem reachable_inv {size : Nat} (h : Reachable size b) : Inv b := by
  induction h with
  | start buf => exact Inv.empty rfl rfl
  | fill _ _ _ ih => exact ih.fill _
  | commit _ _ hl dest ih => exact ih.commit hl dest
  | setGso _ on ih => exact ⟨ih.sound, ih.held, ih.rising, ih.below⟩
  | clear _ _ => exact Inv.empty rfl rfl
  | flush _ hf ih => exact Inv.empty (Batch.flush_empty ih hf).1 (Batch.flush_empty ih hf).2

/-! ## §8. A flush returns. -/

/-- An answer after which a pass goes on with fewer messages, or ends. -/
def Outcome.moves : Outcome → Bool
  | .interrupted => false
  | .sent k => decide (0 < k)
  | _ => true

/-- A pass uses at most one such answer for each message. -/
theorem sendLoop_returns (gso : Bool) :
    ∀ (answers : List Outcome) (left : List Msg), left.length ≤ answers.countP Outcome.moves →
      ∃ r, sendLoop gso answers left = some r ∧
        answers.countP Outcome.moves ≤ r.answers.countP Outcome.moves + left.length := by
  intro answers
  induction answers with
  | nil =>
    intro left h
    have : left = [] := by simpa using h
    subst this
    exact ⟨_, rfl, by simp⟩
  | cons o answers ih =>
    intro left h
    cases left with
    | nil => exact ⟨_, rfl, by simp⟩
    | cons m ms =>
      rw [List.length_cons] at h
      cases o with
      | interrupted =>
        simp only [List.countP_cons, Outcome.moves, Bool.false_eq_true, if_false, Nat.add_zero] at h ⊢
        exact ih (m :: ms) h
      | refused =>
        simp only [List.countP_cons, Outcome.moves, if_true, List.length_cons, sendLoop]
        split <;> exact ⟨_, rfl, by dsimp only; omega⟩
      | failed =>
        simp only [List.countP_cons, Outcome.moves, if_true, List.length_cons, sendLoop]
        exact ⟨_, rfl, by dsimp only; omega⟩
      | tooBig =>
        simp only [List.countP_cons, Outcome.moves, if_true, List.length_cons, sendLoop] at h ⊢
        obtain ⟨r, hr, hle⟩ := ih ms (by omega)
        exact ⟨_, by rw [hr]; rfl, by dsimp only; omega⟩
      | sent k =>
        simp only [List.countP_cons, Outcome.moves, decide_eq_true_eq, List.length_cons, sendLoop] at h ⊢
        have hdrop : ((m :: ms).drop k).length = ms.length + 1 - k := by simp
        obtain ⟨r, hr, hle⟩ := ih ((m :: ms).drop k) (by rw [hdrop]; split at h <;> omega)
        refine ⟨_, by rw [hr]; rfl, ?_⟩
        rw [hdrop] at hle
        dsimp only
        split <;> omega

/-- **A flush returns** once there is such an answer for every message of both attempts. -/
theorem Inv.flush_returns (hinv : Inv b) (answers : List Outcome)
    (ha : b.msgs.length + b.committed.length ≤ answers.countP Outcome.moves) :
    ∃ accepted dropped b', b.flush answers = some (accepted, dropped, b') := by
  have hsingle : (b.msgs.flatMap Msg.split).length = b.committed.length := by
    rw [← hinv.held, List.length_flatMap, List.length_flatMap]
    simp only [Msg.split, Msg.datagrams, List.length_map]
  unfold Batch.flush
  dsimp only
  split
  · exact ⟨_, _, _, rfl⟩
  · obtain ⟨r, hr, hle⟩ := sendLoop_returns b.gso answers b.msgs (by omega)
    rw [hr]
    dsimp only
    split
    · exact ⟨_, _, _, rfl⟩
    · obtain ⟨r₂, hr₂, -⟩ := sendLoop_returns false r.answers (b.msgs.flatMap Msg.split) (by omega)
      rw [hr₂]
      exact ⟨_, _, _, rfl⟩

/-! ## §9. What a flush keeps. -/

/-- A message's datagrams are as many as it counts. -/
theorem Msg.Sound.length (h : m.Sound pos) (buf : Nat → UInt8) : (m.datagrams buf).length = m.segments := by
  rw [Msg.datagrams, List.length_map, h.limits.counted]

theorem length_datagrams (h : ∀ m ∈ ms, m.Sound pos) (buf : Nat → UInt8) :
    (ms.flatMap (Msg.datagrams buf)).length = count ms := by
  induction ms with
  | nil => rfl
  | cons m ms ih =>
    rw [List.flatMap_cons, List.length_append, (h m List.mem_cons_self).length, count_cons,
      ih fun x hx => h x (.tail _ hx)]

/-- A message split into single ones is sound. -/
theorem Msg.Sound.split (h : m.Sound pos) : ∀ x ∈ m.split, x.Sound pos := by
  intro x hx
  obtain ⟨r, hr, rfl⟩ := List.mem_map.mp hx
  obtain ⟨n, last, hs⟩ := h.shaped
  have hin := hs.inside r hr
  have hpos := h.limits.last r hr
  have hlen := h.len
  have hend := h.inside
  refine ⟨⟨0, r.2, rfl, (by simp), hpos.1, le_rfl, fun _ => rfl⟩, ?_, ?_, ?_⟩
  · show 1 ≤ 64
    omega
  · show r.2 ≤ 65535
    omega
  · show r.1 + r.2 ≤ pos
    omega

/-- A single message sends the datagram of its region. -/
theorem datagrams_single {r : Nat × Nat} (h : 0 < r.2) (buf : Nat → UInt8) :
    Msg.datagrams buf { m with off := r.1, len := r.2, seg := r.2, segments := 1 }
      = [⟨r.1, slice buf r, m.dest⟩] := by
  have hs : Msg.Shaped { m with off := r.1, len := r.2, seg := r.2, segments := 1 } 0 r.2 :=
    ⟨rfl, (by simp), h, le_rfl, fun _ => rfl⟩
  rw [Msg.datagrams, hs.regions]
  simp

/-- Splitting a message keeps its datagrams. -/
theorem Msg.Sound.split_datagrams (h : m.Sound pos) (buf : Nat → UInt8) :
    m.split.flatMap (Msg.datagrams buf) = m.datagrams buf := by
  have hlast := h.limits.last
  unfold Msg.split Msg.datagrams
  generalize m.regions = rs at hlast
  induction rs with
  | nil => rfl
  | cons r rs ih =>
    rw [List.map_cons, List.flatMap_cons, ih fun x hx => hlast x (.tail _ hx)]
    show Msg.datagrams buf { m with off := r.1, len := r.2, seg := r.2, segments := 1 } ++ _ = _
    rw [datagrams_single (hlast r List.mem_cons_self).1]
    rfl

/-- The messages of the second attempt. -/
theorem Inv.split (h : Inv b) : (∀ m ∈ b.msgs.flatMap Msg.split, m.Sound b.pos) ∧
      (b.msgs.flatMap Msg.split).flatMap (Msg.datagrams b.buf) = b.committed := by
  constructor
  · intro x hx
    obtain ⟨m, hm, hx⟩ := List.mem_flatMap.mp hx
    exact (h.sound m hm).split x hx
  · rw [List.flatMap_assoc, ← h.held]
    exact List.flatMap_congr fun m hm => (h.sound m hm).split_datagrams b.buf

/-- What a flush is to do: messages within the limits in both attempts, what the kernel takes part
of what was committed, in order and each once, and the rest counted. -/
structure Kept (b : Batch) (accepted : List Datagram) (dropped : Nat) : Prop where
  limits : ∀ m ∈ b.msgs ++ b.msgs.flatMap Msg.split, m.Limits
  part : accepted.Sublist b.committed
  once : accepted.Nodup
  counted : dropped + accepted.length = b.committed.length

/-- Segmentation is refused after messages have gone. -/
def Late (b : Batch) (answers : List Outcome) : Prop :=
  b.gso = true ∧ ∃ k, refusalAt answers = some k ∧ 0 < k ∧ k < b.msgs.length

/-- A pass over all the datagrams, none refused. -/
theorem Passed.kept (h : Inv b)
    (hs : ∀ m ∈ ms, m.Sound b.pos) (hd : ms.flatMap (Msg.datagrams b.buf) = b.committed)
    (hp : Passed gso answers ms r) (hr : r.refused = false) :
    Kept b (r.accepted.flatMap (Msg.datagrams b.buf)) r.dropped := by
  have hpart : (r.accepted.flatMap (Msg.datagrams b.buf)).Sublist b.committed := by
    rw [← hd]
    exact hp.accepted.flatMap _
  refine ⟨?_, hpart, ?_, ?_⟩
  · intro m hm
    rcases List.mem_append.mp hm with hm | hm
    · exact (h.sound m hm).limits
    · exact (h.split.1 m hm).limits
  · have hnd : b.committed.Nodup :=
      List.Nodup.of_map _ (h.rising.imp fun hlt => Nat.ne_of_lt hlt)
    exact hpart.nodup hnd
  · rw [length_datagrams fun m hm => hs m (hp.accepted.subset hm), hp.complete hr, ← hd,
      length_datagrams hs]

/-- The messages before a refusal hold at least one datagram each. -/
theorem count_take_pos (h : ∀ m ∈ ms, m.Sound pos) {k : Nat} (h0 : 0 < k)
    (hk : k < ms.length) : 0 < count (ms.take k) := by
  cases ms with
  | nil => simp at hk
  | cons m ms =>
    obtain ⟨j, rfl⟩ : ∃ j, k = j + 1 := ⟨k - 1, by omega⟩
    obtain ⟨n, last, hs⟩ := (h m List.mem_cons_self).shaped
    rw [List.take_succ_cons, count_cons, hs.segments]
    omega

/-- With segmentation off a pass is never refused. -/
theorem Passed.not_refused (h : Passed false answers ms r) : r.refused = false := by
  cases hr : r.refused with
  | false => rfl
  | true => exact absurd (h.stopped hr).1 (by simp)

/-- A flush that returned kept the datagrams exactly when segmentation was not refused after some had
gone. -/
theorem Inv.flush_kept {b : Batch} (hinv : Inv b) {answers : List Outcome}
    {accepted : List Datagram} {dropped : Nat} {b' : Batch}
    (hf : b.flush answers = some (accepted, dropped, b')) : Kept b accepted dropped ↔ ¬Late b answers := by
  unfold Batch.flush at hf
  split at hf
  · next hm =>
    simp only [Option.some.injEq, Prod.mk.injEq] at hf
    obtain ⟨rfl, rfl, -⟩ := hf
    refine ⟨fun _ => ?_, fun _ => ?_⟩
    · rintro ⟨-, k, -, -, hk⟩
      simp [hm] at hk
    · have hc : b.committed = [] := by rw [← hinv.held, hm]; rfl
      exact ⟨(by simp [hm]), List.nil_sublist _, List.nodup_nil, (by simp [hc])⟩
  split at hf
  · cases hf
  next first hfirst =>
  have hp := sendLoop_spec _ _ _ _ hfirst
  have hkept := hp.kept hinv hinv.sound hinv.held
  cases hr : first.refused with
  | false =>
    -- one attempt: had segmentation been refused, it would have been after the last message
    simp only [hr, Bool.not_false, if_true, Option.some.injEq, Prod.mk.injEq] at hf
    obtain ⟨rfl, rfl, -⟩ := hf
    refine ⟨fun _ => ?_, fun _ => hkept hr⟩
    rintro ⟨hg, k, hk, -, hlt⟩
    have := hp.done hr hg k hk
    omega
  | true =>
    -- two attempts: the second one sends everything, also what went out before the refusal
    simp only [hr, Bool.not_true, Bool.false_eq_true, if_false] at hf
    obtain ⟨hg, k, hk, hlt, hacc, hcount⟩ := hp.stopped hr
    split at hf
    · cases hf
    next second hsecond =>
    simp only [Option.some.injEq, Prod.mk.injEq] at hf
    obtain ⟨rfl, rfl, -⟩ := hf
    have hp₂ := sendLoop_spec _ _ _ _ hsecond
    have hkept₂ := hp₂.kept hinv hinv.split.1 hinv.split.2 hp₂.not_refused
    constructor
    · rintro hall ⟨-, i, hi, h0, -⟩
      obtain rfl : k = i := Option.some.inj (hk.symm.trans hi)
      have hfirst_count := length_datagrams (fun m hm => hinv.sound m (hp.accepted.subset hm)) b.buf
      have h1 := hall.counted
      have h2 := hkept₂.counted
      have h3 := count_take_pos hinv.sound h0 hlt
      rw [List.length_append] at h1
      omega
    · intro hlate
      have h0 : k = 0 := by
        by_contra hne
        exact hlate ⟨hg, k, hk, by omega, hlt⟩
      subst h0
      have hnone : first.accepted = [] := List.sublist_nil.mp (by simpa using hacc)
      have hzero : first.dropped = 0 := by
        simpa [hnone] using hcount
      simpa [hnone, hzero] using hkept₂

/-- **A flush returns, and keeps the datagrams** exactly when segmentation is not refused after some
have gone.  It returns once the kernel has taken, skipped or refused something for each message of both
attempts, however often it was interrupted in between. -/
theorem flush_keeps {size : Nat} {b : Batch} (h : Reachable size b) (answers : List Outcome) :
    (b.msgs.length + b.committed.length ≤ answers.countP Outcome.moves →
      ∃ accepted dropped b', b.flush answers = some (accepted, dropped, b')) ∧
    ∀ accepted dropped b', b.flush answers = some (accepted, dropped, b') →
      (Kept b accepted dropped ↔ ¬Late b answers) := by
  have hinv := reachable_inv h
  exact ⟨hinv.flush_returns answers, fun _ _ _ hf => hinv.flush_kept hf⟩

/-- A datagram to one peer, then two that one message holds to another. -/
def twoPeers : Batch :=
  ((({ size := 8, buf := fun _ => 0 } : Batch).commit 1 [1]).commit 1 [2]).commit 1 [2]

theorem twoPeers_reachable : Reachable 8 twoPeers :=
  .commit (p := 2) (.commit (p := 1) (.commit (p := 0) (.start _) rfl (by decide) _) rfl (by decide) _) rfl
    (by decide) _

/-- The second message is skipped as too big, after an interruption: two of three are not sent. -/
theorem flush_keeps_two_peers :
    ∃ accepted dropped b', Kept twoPeers accepted dropped ∧ accepted = twoPeers.committed.take 1 ∧
      dropped = 2 ∧ twoPeers.flush ([.interrupted, .sent 1, .tooBig] ++ List.replicate 3 (.sent 1)) =
        some (accepted, dropped, b') := by
  obtain ⟨hreturns, hkept⟩ := flush_keeps twoPeers_reachable
    ([.interrupted, .sent 1, .tooBig] ++ List.replicate 3 (.sent 1))
  obtain ⟨accepted, dropped, b', hf⟩ := hreturns (by decide)
  refine ⟨accepted, dropped, b', (hkept _ _ _ hf).mpr ?_, ?_⟩
  · rintro ⟨-, k, hk, -⟩
    simp [refusalAt] at hk
  · have hsent : twoPeers.flush ([.interrupted, .sent 1, .tooBig] ++ List.replicate 3 (.sent 1)) =
        some (twoPeers.committed.take 1, 2, twoPeers.clear) := rfl
    obtain ⟨rfl, rfl, rfl⟩ : _ ∧ _ ∧ _ := by simpa using hf.symm.trans hsent
    exact ⟨rfl, rfl, hsent⟩

/-- The message that needs no segmentation goes out, the next one is refused: the second attempt
sends the first datagram again. -/
theorem refused_half_way :
    ¬∀ (size : Nat) (b : Batch) (answers : List Outcome) (accepted : List Datagram) (dropped : Nat) (b' : Batch),
      Reachable size b → b.flush answers = some (accepted, dropped, b') → Kept b accepted dropped := by
  intro hall
  have hk := hall 8 twoPeers [.sent 1, .refused, .sent 3] _ _ _ twoPeers_reachable rfl
  exact absurd hk.counted (by decide)

end Agensio.Quic.SendBatch
