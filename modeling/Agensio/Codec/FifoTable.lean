/-
  Agensio.Codec.FifoTable — the dynamic table is a first-in first-out list.

  `codec::DynamicTable` (`http/field_codec.cpp`) keeps its entries in a
  ring that is made once and wraps.  What it stands for is a limit and a
  list (`Fifo`): an entry is added behind, and the oldest entries go while
  the rest is too heavy.

  Main results:
    * `table_is_fifo`.
-/
import Agensio.Codec.DynamicTable
import Agensio.Codec.Integer

namespace Agensio.Codec

open Agensio.Lib

/-! ## §1. The list. -/

/-- A call that changes a table. -/
inductive TableCall where
  | add (name value : Bytes)
  | setLimit (limit : Nat)

/-- The limits set are at most the capacity. -/
def TableCall.Within (capacity : Nat) : TableCall → Prop
  | add _ _ => True
  | setLimit limit => limit ≤ capacity

/-- A limit and the entries, oldest first. -/
structure Fifo where
  limit : Nat
  items : List Field := []

namespace Fifo

/-- The oldest entries go while the rest is too heavy. -/
def trim (limit : Nat) : List Field → List Field
  | [] => []
  | e :: es => if limit < weight fieldSize (e :: es) then trim limit es else e :: es

def call (q : Fifo) : TableCall → Fifo
  | .add name value =>
    -- RFC 7541 4.4: an entry larger than the limit empties the table
    if q.limit < fieldSize (name, value) then { q with items := [] }
    else { q with items := trim q.limit (q.items ++ [(name, value)]) }
  | .setLimit limit => { limit, items := trim limit q.items }

end Fifo

theorem weight_reverse (l : List Field) : weight fieldSize l.reverse = weight fieldSize l := by
  unfold weight
  rw [List.map_reverse, List.sum_reverse]

/-- Seen from the newest entry, what is left is what fits. -/
theorem trim_reverse (limit : Nat) (l : List Field) :
    (Fifo.trim limit l).reverse = fit fieldSize limit l.reverse := by
  induction l with
  | nil => rfl
  | cons e es ih =>
    unfold Fifo.trim
    rw [← weight_reverse]
    split
    next hheavy =>
      have hcut := fit_dropLast fieldSize hheavy
      rw [List.reverse_cons, List.dropLast_concat] at hcut
      rw [ih, hcut, List.reverse_cons]
    next hlight => exact (fit_eq_self fieldSize (by omega)).symm

/-! ## §2. The ring does what the list does. -/

namespace DynamicTable

def call (t : DynamicTable) : TableCall → DynamicTable
  | .add name value => (t.add name value).2
  | .setLimit limit => t.setLimit limit

/-- The table stands for the list. -/
structure Simulates (t : DynamicTable) (q : Fifo) : Prop where
  valid : t.Valid
  limit : t.limit = q.limit
  entries : t.entries = q.items.reverse

variable {t : DynamicTable} {q : Fifo}

/-- **The step lemma.** -/
theorem Simulates.call (h : t.Simulates q) {c : TableCall} (hc : c.Within t.capacity) :
    (t.call c).Simulates (q.call c) ∧ (t.call c).capacity = t.capacity := by
  cases c with
  | add name value =>
    obtain ⟨hv, he, hl, hcap, -⟩ := add_spec h.valid name value
    rw [h.limit, h.entries] at he
    rw [Fifo.call]
    by_cases hbig : q.limit < fieldSize (name, value)
    · rw [if_pos hbig]
      exact ⟨⟨hv, hl.trans h.limit, he.trans (fit_cons_of_lt fieldSize hbig _)⟩, hcap⟩
    rw [if_neg hbig]
    refine ⟨⟨hv, hl.trans h.limit, he.trans ?_⟩, hcap⟩
    rw [trim_reverse, List.reverse_append]
    rfl
  | setLimit limit =>
    obtain ⟨hv, he, hl, hcap⟩ := setLimit_spec h.valid hc
    exact ⟨⟨hv, hl, by rw [DynamicTable.call, he, h.entries]; exact (trim_reverse limit q.items).symm⟩, hcap⟩

/-- **The run lemma.** -/
theorem simulates_run (calls : List TableCall) (h : t.Simulates q) (hc : ∀ c ∈ calls, c.Within t.capacity) :
    (calls.foldl DynamicTable.call t).Simulates (calls.foldl Fifo.call q) := by
  induction calls generalizing t q with
  | nil => exact h
  | cons c calls ih =>
    obtain ⟨hstep, hcap⟩ := h.call (hc c List.mem_cons_self)
    refine ih hstep fun c' hc' => ?_
    rw [hcap]
    exact hc c' (.tail _ hc')

/-! ## §3. Inside the calls. -/

/-- Along the loop of `evict_to`, no index or size goes below zero. -/
def NoUnderflow (limit : Nat) : Nat → DynamicTable → Prop
  | 0, _ => True
  | fuel + 1, t =>
    t.count > 0 ∧ t.size > limit →
      t.count - 1 ≤ t.head + t.ring.length ∧ 0 < t.ring.length ∧
      fieldSize (t.ring.getD ((t.head + t.ring.length - (t.count - 1)) % t.ring.length) ([], [])) ≤ t.size ∧
      NoUnderflow limit fuel t.evictOldest

theorem evictLoop_noUnderflow (limit fuel : Nat) (h : t.Valid) : NoUnderflow limit fuel t := by
  induction fuel generalizing t with
  | zero => trivial
  | succ fuel ih =>
    rintro ⟨hpos, -⟩
    obtain ⟨hlen, hhead⟩ := h.ring_of_pos hpos
    have hcount := h.count_le
    refine ⟨by omega, by omega, ?_, ih (evictOldest_valid h hpos)⟩
    rw [oldest_eq_place hhead (by omega), h.sized, (entries_evictOldest h hpos).2, weight_append,
      weight_cons, weight_nil]
    omega

/-- The slot the next entry is written to holds no entry of the table. -/
theorem place_ne_next (h : t.Valid) {k : Nat} (hk : k < t.count) :
    t.place k ≠ (t.head + 1) % t.ring.length := by
  obtain ⟨hlen, hhead⟩ := h.ring_of_pos (by omega)
  have hcount := h.count_le
  unfold place
  by_cases hwrap : t.head + 1 = t.ring.length
  · rw [hwrap, Nat.mod_self]
    split <;> omega
  rw [Nat.mod_eq_of_lt (by omega)]
  split <;> omega

end DynamicTable

/-- **The codec's table and integers.**  After any calls the table is the list: its limit, its
entries, its size, what it adds, finds and answers for a place; its evictions take no more from the
size than there is, and an entry is written to no other entry's slot.  A value under a prefix comes
back from its bytes, and what is read is exactly the value of the bytes in front. -/
theorem table_is_fifo : (∀ (capacity : Nat) (calls : List TableCall), (∀ c ∈ calls, c.Within capacity) →
      let t := calls.foldl DynamicTable.call (DynamicTable.new capacity)
      let q := calls.foldl Fifo.call { limit := capacity }
      t.limit = q.limit ∧ t.entries = q.items.reverse ∧ t.size = weight fieldSize q.items ∧ t.size ≤ q.limit ∧
      (∀ name value, (t.add name value).1 = decide (fieldSize (name, value) ≤ q.limit)) ∧
      (∀ k, t.at k = q.items.reverse[k]?) ∧
      (∀ name value, t.find name value = q.items.reverse.findIdx? fun e => e = (name, value)) ∧
      (∀ limit, DynamicTable.NoUnderflow limit t.count t) ∧ (∀ limit k, k < (t.evictTo limit).count →
        (t.evictTo limit).place k ≠ ((t.evictTo limit).head + 1) % (t.evictTo limit).ring.length)) ∧
    (∀ (prefixBits value : Nat) (flags : UInt8) (rest : Bytes), 3 ≤ prefixBits → prefixBits ≤ 8 →
      flags.toNat % 2 ^ prefixBits = 0 → value < 2 ^ 32 →
      readInteger prefixBits (appendInteger value prefixBits flags ++ rest) = some (value, rest)) ∧
    (∀ (prefixBits value : Nat) (bs rest : Bytes), readInteger prefixBits bs = some (value, rest) →
      ∃ m, bs = m ++ rest ∧ Exact prefixBits m value) := by
  refine ⟨fun capacity calls hc => ?_, fun _ _ _ rest _ hp hf hv => readInteger_appendInteger hp hf hv rest,
    fun _ _ _ _ h => readInteger_iff.mp h⟩
  have hnew : (DynamicTable.new capacity).Simulates { limit := capacity } :=
    ⟨DynamicTable.new_valid capacity, rfl, rfl⟩
  have h := DynamicTable.simulates_run calls hnew hc
  refine ⟨h.limit, h.entries, ?_, ?_, ?_, ?_, ?_, ?_, ?_⟩
  · rw [h.valid.sized, h.entries, weight_reverse]
  · rw [← h.limit]
    exact h.valid.fits
  · intro name value
    rw [← h.limit]
    exact (DynamicTable.add_spec h.valid name value).2.2.2.2
  · intro k
    rw [← h.entries]
    exact DynamicTable.at_eq h.valid k
  · intro name value
    rw [← h.entries]
    exact DynamicTable.find_eq h.valid name value
  · exact fun limit => DynamicTable.evictLoop_noUnderflow limit _ h.valid
  · exact fun limit k hk => DynamicTable.place_ne_next (DynamicTable.evictTo_spec limit h.valid).1 hk

end Agensio.Codec
