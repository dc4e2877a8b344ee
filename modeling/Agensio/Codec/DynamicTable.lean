/-
  Agensio.Codec.DynamicTable — the dynamic table as a ring.

  Model of `codec::DynamicTable` (`http/field_codec.cpp`).  The ring keeps
  the newest entry at `head`; `entries` reads it off as a list, newest
  first, and every operation is given by what it does to that list: the
  table is the bounded store of `Lib.Fifo` over the sizes of RFC 7541 4.1.

  The mark `checked` of an entry is left out: no operation of the table or
  of the codecs reads it.

  Main results: `Valid` is kept, and
    * `entries_setLimit` / `entries_add` — `fit` at the limit;
    * `at_eq` / `find_eq` — the lookups are the list's.
-/
import Agensio.Bytes
import Agensio.Lib.Fifo

namespace Agensio.Codec

open Agensio.Lib

/-! ## §1. The model. -/

/-- A name and a value. -/
abbrev Field := Bytes × Bytes

/-- The size of an entry, RFC 7541 4.1. -/
def fieldSize (f : Field) : Nat := f.1.length + f.2.length + 32

/-- A ring of entries with the size they count for. -/
structure DynamicTable where
  ring : List Field := []
  head : Nat := 0
  count : Nat := 0
  size : Nat := 0
  capacity : Nat
  limit : Nat
  deriving DecidableEq

namespace DynamicTable

def new (capacity : Nat) : DynamicTable := { capacity := capacity, limit := capacity }

/-- Where the entry `k` places from the newest is. -/
def place (t : DynamicTable) (k : Nat) : Nat :=
  if t.head ≥ k then t.head - k else t.head + t.ring.length - k

/-- The loop of `evict_to`; it runs at most `count` times. -/
def evictLoop (limit : Nat) : Nat → DynamicTable → DynamicTable
  | 0, t => t
  | fuel + 1, t =>
    if t.count > 0 ∧ t.size > limit then
      let oldest := (t.head + t.ring.length - (t.count - 1)) % t.ring.length
      let e := t.ring.getD oldest ([], [])
      evictLoop limit fuel { t with
        size := t.size - fieldSize e
        ring := t.ring.set oldest ([], [])
        count := t.count - 1 }
    else t

def evictTo (limit : Nat) (t : DynamicTable) : DynamicTable := evictLoop limit t.count t

def setLimit (t : DynamicTable) (limit : Nat) : DynamicTable :=
  evictTo limit { t with limit := limit }

/-- The second half of `add`: the ring is made on the first insertion. -/
def push (t : DynamicTable) (name value : Bytes) : DynamicTable :=
  let ring := if t.ring = [] then List.replicate (t.capacity / 32 + 1) ([], []) else t.ring
  let head := (t.head + 1) % ring.length
  { t with
    ring := ring.set head (name, value)
    head := head
    count := t.count + 1
    size := t.size + fieldSize (name, value) }

def add (t : DynamicTable) (name value : Bytes) : Bool × DynamicTable :=
  let need := name.length + value.length + 32
  if need > t.limit then (false, t.evictTo 0)
  else (true, (t.evictTo (t.limit - need)).push name value)

def «at» (t : DynamicTable) (k : Nat) : Option Field :=
  if k ≥ t.count ∨ t.ring = [] then none else some (t.ring.getD (t.place k) ([], []))

/-- The loop of `find`: `i` is the slot of the entry `k` places from the newest. -/
def findLoop (t : DynamicTable) (name value : Bytes) : Nat → Nat → Nat → Option Nat
  | 0, _, _ => none
  | fuel + 1, i, k =>
    if t.ring.getD i ([], []) = (name, value) then some k
    else findLoop t name value fuel (if i = 0 then t.ring.length - 1 else i - 1) (k + 1)

def find (t : DynamicTable) (name value : Bytes) : Option Nat :=
  t.findLoop name value t.count t.head 0

/-! ## §2. The ring as a list. -/

/-- The entries, newest first. -/
def entries (t : DynamicTable) : List Field :=
  (List.range t.count).map fun k => t.ring.getD (t.place k) ([], [])

/-- What every operation keeps: the size counts the entries and is within the limit. -/
structure Valid (t : DynamicTable) : Prop where
  sized : t.size = weight fieldSize t.entries
  fits : t.size ≤ t.limit
  bounded : t.limit ≤ t.capacity
  ring : t.ring = [] ∧ t.count = 0 ∧ t.head = 0 ∨
    t.ring.length = t.capacity / 32 + 1 ∧ t.head < t.ring.length

@[simp] theorem length_entries (t : DynamicTable) : t.entries.length = t.count := by
  simp [entries]

theorem entries_getElem? (t : DynamicTable) (k : Nat) :
    t.entries[k]? = if k < t.count then some (t.ring.getD (t.place k) ([], [])) else none := by
  by_cases h : k < t.count
  · simp [entries, h]
  · simp [entries, h]

theorem new_valid (capacity : Nat) : (new capacity).Valid where
  sized := rfl
  fits := Nat.zero_le _
  bounded := Nat.le_refl _
  ring := .inl ⟨rfl, rfl, rfl⟩

theorem fieldSize_ge (f : Field) : 32 ≤ fieldSize f := Nat.le_add_left ..

variable {t : DynamicTable} {k : Nat}

/-- The entries are few enough for the ring, with a slot to spare. -/
theorem Valid.count_le (h : t.Valid) : t.count ≤ t.capacity / 32 := by
  have hmul := length_mul_le_weight fieldSize fieldSize_ge t.entries
  rw [length_entries, ← h.sized] at hmul
  have := h.fits
  have := h.bounded
  omega

/-- An entry in the table needs a ring. -/
theorem Valid.ring_of_pos (h : t.Valid) (hc : 0 < t.count) :
    t.ring.length = t.capacity / 32 + 1 ∧ t.head < t.ring.length := by
  rcases h.ring with ⟨-, hzero, -⟩ | hring
  · omega
  · exact hring

theorem place_inj {j : Nat} (hj : j < t.ring.length)
    (hk : k < t.ring.length) (h : t.place j = t.place k) : j = k := by
  unfold place at h
  split at h <;> split at h <;> omega

/-- The slot `evict_to` computes is the oldest entry's. -/
theorem oldest_eq_place (hh : t.head < t.ring.length)
    (hk : k < t.ring.length) : (t.head + t.ring.length - k) % t.ring.length = t.place k := by
  unfold place
  split
  · rw [show t.head + t.ring.length - k = t.head - k + t.ring.length by omega, Nat.add_mod_right,
      Nat.mod_eq_of_lt (by omega)]
  · exact Nat.mod_eq_of_lt (by omega)

theorem getD_set_ne {l : List Field} {i j : Nat} {f : Field} (h : j ≠ i) :
    (l.set i f).getD j ([], []) = l.getD j ([], []) := by
  simp [List.getD_eq_getElem?_getD, Ne.symm h]

theorem getD_set_self {l : List Field} {i : Nat} {f : Field} (h : i < l.length) :
    (l.set i f).getD i ([], []) = f := by
  simp [List.getD_eq_getElem?_getD, h]

/-! ## §3. Eviction. -/

/-- One round of `evict_to`. -/
def evictOldest (t : DynamicTable) : DynamicTable :=
  let oldest := (t.head + t.ring.length - (t.count - 1)) % t.ring.length
  { t with
    size := t.size - fieldSize (t.ring.getD oldest ([], []))
    ring := t.ring.set oldest ([], [])
    count := t.count - 1 }

theorem entries_evictOldest (h : t.Valid) (hc : 0 < t.count) : t.evictOldest.entries = t.entries.dropLast ∧
      t.entries = t.evictOldest.entries ++ [t.ring.getD (t.place (t.count - 1)) ([], [])] := by
  obtain ⟨hlen, hhead⟩ := h.ring_of_pos hc
  have hcount := h.count_le
  have hslot := oldest_eq_place hhead (show t.count - 1 < t.ring.length by omega)
  have hpre : t.evictOldest.entries =
      (List.range (t.count - 1)).map fun k => t.ring.getD (t.place k) ([], []) := by
    unfold entries
    apply List.map_congr_left
    intro k hk
    have hk' : k < t.count - 1 := List.mem_range.mp hk
    have hplace : t.evictOldest.place k = t.place k := by
      simp [place, evictOldest]
    show (t.ring.set _ ([], [])).getD (t.evictOldest.place k) ([], []) = _
    rw [hplace, hslot, getD_set_ne]
    intro heq
    have := place_inj (by omega) (by omega) heq
    omega
  have hall : t.entries = t.evictOldest.entries ++ [t.ring.getD (t.place (t.count - 1)) ([], [])] := by
    rw [hpre]
    conv_lhs => rw [entries, show t.count = t.count - 1 + 1 by omega, List.range_succ, List.map_append]
    rfl
  refine ⟨?_, hall⟩
  rw [hall, List.dropLast_concat]

theorem evictOldest_valid (h : t.Valid) (hc : 0 < t.count) : t.evictOldest.Valid := by
  obtain ⟨hlen, hhead⟩ := h.ring_of_pos hc
  have hcount := h.count_le
  have hslot := oldest_eq_place hhead (show t.count - 1 < t.ring.length by omega)
  obtain ⟨-, hall⟩ := entries_evictOldest h hc
  have hsize : t.size = weight fieldSize t.evictOldest.entries +
      fieldSize (t.ring.getD (t.place (t.count - 1)) ([], [])) := by
    rw [h.sized]
    conv_lhs => rw [hall]
    rw [weight_append, weight_cons, weight_nil, Nat.add_zero]
  have hnew : t.evictOldest.size =
      t.size - fieldSize (t.ring.getD (t.place (t.count - 1)) ([], [])) := by
    rw [← hslot]
    rfl
  constructor
  · omega
  · have hfits := h.fits
    show t.evictOldest.size ≤ t.limit
    omega
  · exact h.bounded
  · refine .inr ⟨?_, ?_⟩
    · show (t.ring.set _ _).length = _
      rw [List.length_set]
      exact hlen
    · show t.head < (t.ring.set _ _).length
      rw [List.length_set]
      exact hhead

theorem evictLoop_succ (limit fuel : Nat) (t : DynamicTable) : evictLoop limit (fuel + 1) t =
      if t.count > 0 ∧ t.size > limit then evictLoop limit fuel t.evictOldest else t := rfl

/-- What the loop leaves: the newest entries that fit. -/
theorem evictLoop_spec (limit fuel : Nat) (h : t.Valid) (hf : t.count ≤ fuel) :
    (evictLoop limit fuel t).Valid ∧ (evictLoop limit fuel t).entries = fit fieldSize limit t.entries ∧
      (evictLoop limit fuel t).limit = t.limit ∧ (evictLoop limit fuel t).capacity = t.capacity := by
  induction fuel generalizing t with
  | zero =>
    have hnil : t.entries = [] := List.length_eq_zero_iff.mp (by rw [length_entries]; omega)
    refine ⟨h, ?_, rfl, rfl⟩
    show t.entries = _
    rw [hnil]
    rfl
  | succ fuel ih =>
    rw [evictLoop_succ]
    by_cases hcond : t.count > 0 ∧ t.size > limit
    · rw [if_pos hcond]
      have hheavy : limit < weight fieldSize t.entries := by
        rw [← h.sized]
        exact hcond.2
      obtain ⟨hv, he, hl, hcap⟩ := ih (evictOldest_valid h hcond.1)
        (by show t.count - 1 ≤ fuel; omega)
      refine ⟨hv, ?_, hl, hcap⟩
      rw [he, (entries_evictOldest h hcond.1).1, fit_dropLast fieldSize hheavy]
    · rw [if_neg hcond]
      refine ⟨h, (fit_eq_self fieldSize ?_).symm, rfl, rfl⟩
      rw [← h.sized]
      by_cases hc : t.count > 0
      · have : ¬ t.size > limit := fun hs => hcond ⟨hc, hs⟩
        omega
      have hnil : t.entries = [] := List.length_eq_zero_iff.mp (by rw [length_entries]; omega)
      rw [h.sized, hnil]
      exact Nat.zero_le _

theorem evictTo_spec (limit : Nat) (h : t.Valid) :
    (t.evictTo limit).Valid ∧ (t.evictTo limit).entries = fit fieldSize limit t.entries ∧
      (t.evictTo limit).limit = t.limit ∧ (t.evictTo limit).capacity = t.capacity :=
  evictLoop_spec limit t.count h (Nat.le_refl _)

/-- The limit plays no part in the eviction itself. -/
theorem evictLoop_limit (limit fuel m : Nat) (t : DynamicTable) :
    evictLoop limit fuel { t with limit := m } = { evictLoop limit fuel t with limit := m } := by
  induction fuel generalizing t with
  | zero => rfl
  | succ fuel ih =>
    rw [evictLoop_succ, evictLoop_succ]
    by_cases hcond : t.count > 0 ∧ t.size > limit
    · rw [if_pos hcond, if_pos hcond]
      exact ih t.evictOldest
    · rw [if_neg hcond, if_neg hcond]

/-- `set_limit`. -/
theorem setLimit_spec (h : t.Valid) {limit : Nat} (hl : limit ≤ t.capacity) :
    (t.setLimit limit).Valid ∧ (t.setLimit limit).entries = fit fieldSize limit t.entries ∧
      (t.setLimit limit).limit = limit ∧ (t.setLimit limit).capacity = t.capacity := by
  obtain ⟨hv, he, -, hcap⟩ := evictTo_spec limit h
  have heq : t.setLimit limit = { t.evictTo limit with limit := limit } :=
    evictLoop_limit limit t.count limit t
  have hent : (t.setLimit limit).entries = (t.evictTo limit).entries := by
    rw [heq]
    rfl
  refine ⟨?_, hent.trans he, by rw [heq], by rw [heq]; exact hcap⟩
  rw [heq]
  constructor
  · exact hv.sized
  · show (t.evictTo limit).size ≤ limit
    rw [hv.sized, he]
    exact weight_fit_le fieldSize limit t.entries
  · show limit ≤ (t.evictTo limit).capacity
    rw [hcap]
    exact hl
  · exact hv.ring

/-! ## §4. Insertion. -/

/-- The place of an older entry after the head has moved on. -/
theorem place_push {n h : Nat} (hn : t.ring.length = n) (hh : h < n)
    (ht : t.head = (h + 1) % n) (hk : k + 1 < n) :
    t.place (k + 1) = if h ≥ k then h - k else h + n - k := by
  unfold place
  rw [hn, ht]
  by_cases hwrap : h + 1 = n
  · rw [hwrap, Nat.mod_self]
    split <;> split <;> omega
  rw [Nat.mod_eq_of_lt (by omega)]
  split <;> split <;> omega

theorem push_spec (h : t.Valid) (name value : Bytes) (hfit : t.size + fieldSize (name, value) ≤ t.limit) :
    (t.push name value).Valid ∧ (t.push name value).entries = (name, value) :: t.entries ∧
      (t.push name value).limit = t.limit ∧ (t.push name value).capacity = t.capacity := by
  -- the ring after the first insertion, whether or not this is it
  let ring := if t.ring = [] then List.replicate (t.capacity / 32 + 1) ([], []) else t.ring
  have hring : ring.length = t.capacity / 32 + 1 ∧ t.head < ring.length := by
    show (if t.ring = [] then _ else t.ring).length = _ ∧
      _ < (if t.ring = [] then _ else t.ring).length
    rcases h.ring with ⟨hnil, -, hzero⟩ | hlen
    · rw [if_pos hnil, hzero, List.length_replicate]
      exact ⟨rfl, Nat.succ_pos _⟩
    rw [if_neg (fun hnil => by rw [hnil] at hlen; exact absurd hlen.2 (Nat.not_lt_zero _))]
    exact hlen
  have hcount : t.count < t.capacity / 32 := by
    have hmul := length_mul_le_weight fieldSize fieldSize_ge t.entries
    rw [length_entries, ← h.sized] at hmul
    have := fieldSize_ge (name, value)
    have := h.bounded
    omega
  let head := (t.head + 1) % ring.length
  have hhead : head < ring.length := Nat.mod_lt _ (by omega)
  have hentries : (t.push name value).entries = (name, value) :: t.entries := by
    have hnew : (ring.set head (name, value)).getD ((t.push name value).place 0) ([], []) =
        (name, value) := by
      rw [show (t.push name value).place 0 = head by simp [place, push, head, ring]]
      exact getD_set_self hhead
    have hold : ∀ k < t.count,
        (ring.set head (name, value)).getD ((t.push name value).place (k + 1)) ([], []) =
          t.ring.getD (t.place k) ([], []) := by
      intro k hk
      have hpos := h.ring_of_pos (show 0 < t.count by omega)
      have hsame : ring = t.ring := by
        show (if t.ring = [] then _ else t.ring) = t.ring
        rw [if_neg]
        intro hnil
        rw [hnil] at hpos
        exact absurd hpos.2 (Nat.not_lt_zero _)
      have hplace : (t.push name value).place (k + 1) = t.place k := by
        have := place_push (t := t.push name value) (k := k) (n := ring.length) (h := t.head)
          (by show (ring.set head (name, value)).length = _; rw [List.length_set]) hring.2 rfl
          (by omega)
        rw [this, hsame]
        rfl
      have hne : (t.push name value).place (k + 1) ≠ head := by
        intro heq
        have hzero : (t.push name value).place 0 = head := by simp [place, push, head, ring]
        have hlen : (t.push name value).ring.length = ring.length := List.length_set ..
        have := place_inj (t := t.push name value) (j := k + 1) (k := 0)
          (by rw [hlen]; omega) (by rw [hlen]; omega) (heq.trans hzero.symm)
        omega
      rw [getD_set_ne hne, hplace, hsame]
    unfold entries
    show (List.range (t.count + 1)).map _ = _
    rw [List.range_succ_eq_map, List.map_cons, List.map_map]
    refine congrArg₂ List.cons hnew (List.map_congr_left ?_)
    intro k hk
    exact hold k (List.mem_range.mp hk)
  refine ⟨⟨?_, hfit, h.bounded, .inr ⟨?_, ?_⟩⟩, hentries, rfl, rfl⟩
  · rw [hentries, weight_cons, ← h.sized]
    exact Nat.add_comm _ _
  · show (ring.set head (name, value)).length = _
    rw [List.length_set]
    exact hring.1
  · show head < (ring.set head (name, value)).length
    rw [List.length_set]
    exact hhead

/-- `add`: the entry in front, the oldest cut off; an entry larger than the table empties it. -/
theorem add_spec {t : DynamicTable} (h : t.Valid) (name value : Bytes) : (t.add name value).2.Valid ∧
      (t.add name value).2.entries = fit fieldSize t.limit ((name, value) :: t.entries) ∧
      (t.add name value).2.limit = t.limit ∧ (t.add name value).2.capacity = t.capacity ∧
      (t.add name value).1 = decide (fieldSize (name, value) ≤ t.limit) := by
  unfold add
  dsimp only
  have hneed : name.length + value.length + 32 = fieldSize (name, value) := rfl
  rw [hneed]
  by_cases hbig : fieldSize (name, value) > t.limit
  · rw [if_pos hbig]
    obtain ⟨hv, he, hl, hc⟩ := evictTo_spec 0 h
    refine ⟨hv, ?_, hl, hc, (decide_eq_false (by omega)).symm⟩
    rw [fit_cons_of_lt fieldSize hbig, he]
    cases t.entries with
    | nil => rfl
    | cons e es => exact fit_cons_of_lt fieldSize (by have := fieldSize_ge e; omega) es
  · rw [if_neg hbig]
    obtain ⟨hv, he, hl, hc⟩ := evictTo_spec (t.limit - fieldSize (name, value)) h
    have hsize : (t.evictTo (t.limit - fieldSize (name, value))).size ≤
        t.limit - fieldSize (name, value) := by
      rw [hv.sized, he]
      exact weight_fit_le fieldSize _ _
    obtain ⟨hv', he', hl', hc'⟩ := push_spec hv name value (by rw [hl]; omega)
    refine ⟨hv', ?_, hl'.trans hl, hc'.trans hc, (decide_eq_true (by omega)).symm⟩
    rw [he', he, fit_cons_of_le fieldSize (by omega)]

/-! ## §5. Lookups. -/

theorem at_eq (h : t.Valid) (k : Nat) : t.at k = t.entries[k]? := by
  rw [entries_getElem?]
  unfold «at»
  by_cases hk : k < t.count
  · have hpos := h.ring_of_pos (by omega)
    have hne : t.ring ≠ [] := by
      intro hnil
      rw [hnil] at hpos
      exact absurd hpos.2 (Nat.not_lt_zero _)
    rw [if_pos hk, if_neg]
    rintro (hge | hnil)
    · omega
    · exact hne hnil
  · rw [if_neg hk, if_pos (.inl (by omega))]

theorem findLoop_eq (h : t.Valid) (name value : Bytes) (fuel k : Nat) (hk : k + fuel = t.count) :
    t.findLoop name value fuel (t.place k) k =
      ((t.entries.drop k).findIdx? fun e => e = (name, value)).map (· + k) := by
  induction fuel generalizing k with
  | zero =>
    rw [List.drop_eq_nil_of_le (by rw [length_entries]; omega)]
    rfl
  | succ fuel ih =>
    have hpos := h.ring_of_pos (by omega)
    have hcount := h.count_le
    have hget := entries_getElem? t k
    rw [if_pos (by omega)] at hget
    obtain ⟨hlt, hval⟩ := List.getElem?_eq_some_iff.mp hget
    rw [List.drop_eq_getElem_cons hlt, hval, List.findIdx?_cons]
    unfold findLoop
    by_cases heq : t.ring.getD (t.place k) ([], []) = (name, value)
    · rw [if_pos heq, decide_eq_true heq]
      simp
    rw [if_neg heq, decide_eq_false heq]
    have hnext : (if t.place k = 0 then t.ring.length - 1 else t.place k - 1) =
        t.place (k + 1) := by
      unfold place
      split <;> split <;> split <;> omega
    cases fuel with
    | zero =>
      rw [List.drop_eq_nil_of_le (by rw [length_entries]; omega)]
      rfl
    | succ fuel =>
      rw [hnext, ih (k + 1) (by omega)]
      simp [Option.map_map, Function.comp_def]
      congr 1
      funext i
      omega

/-- The newest entry with this name and value. -/
theorem find_eq (h : t.Valid) (name value : Bytes) :
    t.find name value = t.entries.findIdx? fun e => e = (name, value) := by
  have hzero : t.place 0 = t.head := by simp [place]
  have := findLoop_eq h name value t.count 0 (Nat.zero_add _)
  rw [hzero] at this
  unfold find
  rw [this, List.drop_zero]
  cases t.entries.findIdx? fun e => e = (name, value) <;> rfl

end DynamicTable

end Agensio.Codec
