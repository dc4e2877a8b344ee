/-
  Agensio.Codec.Marks — the marks of the dynamic table.

  Model of `Entry::checked` (`http/field_codec.cpp`).  A mark belongs to a
  slot of the ring and not to an entry: an eviction leaves it, an insertion
  clears the one of the slot it takes.  `Checked P` says what a mark is
  worth: the entry in a marked slot satisfies `P`.

  Main results: `Checked` is kept by `set_limit` (`checked_setLimit`), by
  `add` (`checked_add`) and by a mark that is set for an entry with `P`
  (`checked_set`).
-/
import Agensio.Codec.DynamicTable

namespace Agensio.Codec

open Agensio.Lib

/-! ## §1. The model. -/

/-- `checked` of each slot. -/
abbrev Marks := Nat → Bool

def Marks.set (m : Marks) (slot : Nat) (mark : Bool) : Marks :=
  fun i => if i = slot then mark else m i

namespace DynamicTable

/-- What `add` does to the marks: the slot it takes is cleared. -/
def addMarks (t : DynamicTable) (name value : Bytes) (m : Marks) : Marks :=
  if (t.add name value).1 then m.set (t.add name value).2.head false else m

/-- The slot of `newest_mark`. -/
def newestSlot (t : DynamicTable) : Option Nat := if t.count > 0 then some t.head else none

/-- The slot `at` points to. -/
def slotAt (t : DynamicTable) (k : Nat) : Option Nat :=
  if k ≥ t.count ∨ t.ring = [] then none else some (t.place k)

/-- The entry in a marked slot satisfies `P`. -/
def Checked (P : Field → Prop) (t : DynamicTable) (m : Marks) : Prop :=
  ∀ k f, t.entries[k]? = some f → m (t.place k) = true → P f

/-! ## §2. What stays in its slot. -/

theorem evictLoop_frame (limit fuel : Nat) (t : DynamicTable) : (evictLoop limit fuel t).head = t.head ∧
      (evictLoop limit fuel t).ring.length = t.ring.length := by
  induction fuel generalizing t with
  | zero => exact ⟨rfl, rfl⟩
  | succ fuel ih =>
    rw [evictLoop_succ]
    split
    · obtain ⟨hh, hr⟩ := ih t.evictOldest
      exact ⟨hh, hr.trans (List.length_set ..)⟩
    · exact ⟨rfl, rfl⟩

variable {t : DynamicTable} {P : Field → Prop} {m : Marks}

theorem place_congr {t' : DynamicTable} (hh : t'.head = t.head)
    (hr : t'.ring.length = t.ring.length) (k : Nat) : t'.place k = t.place k := by
  unfold place
  rw [hh, hr]

theorem place_evictTo (limit : Nat) (t : DynamicTable) (k : Nat) : (t.evictTo limit).place k = t.place k :=
  place_congr (evictLoop_frame ..).1 (evictLoop_frame ..).2 k

theorem place_setLimit (limit : Nat) (t : DynamicTable) (k : Nat) : (t.setLimit limit).place k = t.place k :=
  place_evictTo limit { t with limit := limit } k

/-- A table that kept the newest entries in their slots. -/
theorem checked_of_prefix {t' : DynamicTable}
    (h : t.Checked P m) (hp : t'.entries <+: t.entries) (hplace : ∀ k, t'.place k = t.place k) :
    t'.Checked P m := by
  intro k f hk hm
  rw [hplace] at hm
  obtain ⟨older, holder⟩ := hp
  refine h k f ?_ hm
  rw [← holder, List.getElem?_append_left (List.getElem?_eq_some_iff.mp hk).1, hk]

theorem checked_setLimit (hv : t.Valid)
    (h : t.Checked P m) {limit : Nat} (hl : limit ≤ t.capacity) : (t.setLimit limit).Checked P m := by
  refine checked_of_prefix h ?_ (place_setLimit limit t)
  rw [(setLimit_spec hv hl).2.1]
  exact fit_prefix fieldSize limit t.entries

/-! ## §3. Insertion and marking. -/

/-- A mark for an entry that satisfies `P`. -/
theorem checked_set (hv : t.Valid)
    (h : t.Checked P m) {k : Nat} {f : Field} (hk : t.entries[k]? = some f) (hP : P f) :
    t.Checked P (m.set (t.place k) true) := by
  intro j g hj hm
  have hjlt := (List.getElem?_eq_some_iff.mp hj).1
  have hklt := (List.getElem?_eq_some_iff.mp hk).1
  rw [length_entries] at hjlt hklt
  unfold Marks.set at hm
  split at hm
  · next heq =>
    have hring := hv.ring_of_pos (Nat.zero_lt_of_lt hklt)
    have hcount := hv.count_le
    obtain rfl : j = k := place_inj (by omega) (by omega) heq
    cases hk.symm.trans hj
    exact hP
  · exact h j g hj hm

/-- The slots after a `push`: the new entry has one that no other has. -/
theorem place_push_eq (hv : t.Valid) (name value : Bytes)
    (hfit : t.size + fieldSize (name, value) ≤ t.limit) :
    (t.push name value).place 0 = (t.push name value).head ∧
      ∀ k < t.count, (t.push name value).place (k + 1) = t.place k := by
  refine ⟨by simp [place], fun k hk => ?_⟩
  obtain ⟨hpv, hentries, -, hcap⟩ := push_spec hv name value hfit
  have hring := hv.ring_of_pos (Nat.zero_lt_of_lt hk)
  have hne : t.ring ≠ [] := by
    intro hnil
    rw [hnil] at hring
    exact absurd hring.2 (Nat.not_lt_zero _)
  have hcount : t.count + 1 ≤ t.capacity / 32 := by
    have := hpv.count_le
    rw [← length_entries, hentries, List.length_cons, length_entries, hcap] at this
    exact this
  have hlen : (t.push name value).ring.length = t.ring.length := by
    unfold push
    dsimp only
    rw [if_neg hne, List.length_set]
  have hhead : (t.push name value).head = (t.head + 1) % t.ring.length := by
    unfold push
    dsimp only
    rw [if_neg hne]
  exact place_push hlen hring.2 hhead (by omega)

theorem checked_add (hv : t.Valid) (h : t.Checked P m) (name value : Bytes) :
    (t.add name value).2.Checked P (t.addMarks name value m) := by
  obtain ⟨hav, hentries, -, -, htaken⟩ := add_spec hv name value
  unfold addMarks
  by_cases hfit : fieldSize (name, value) ≤ t.limit
  · rw [htaken, decide_eq_true hfit, if_pos rfl]
    -- the evictions first, then the new entry
    have hadd : (t.add name value).2 =
        (t.evictTo (t.limit - fieldSize (name, value))).push name value := by
      unfold add
      dsimp only
      rw [if_neg (show ¬ name.length + value.length + 32 > t.limit from Nat.not_lt.mpr hfit)]
      rfl
    obtain ⟨hev, heent, hel, -⟩ := evictTo_spec (t.limit - fieldSize (name, value)) hv
    have hsize : (t.evictTo (t.limit - fieldSize (name, value))).size + fieldSize (name, value) ≤
        (t.evictTo (t.limit - fieldSize (name, value))).limit := by
      have := weight_fit_le fieldSize (t.limit - fieldSize (name, value)) t.entries
      rw [hev.sized, heent, hel]
      omega
    have hkept : (t.evictTo (t.limit - fieldSize (name, value))).Checked P m :=
      checked_of_prefix h (by rw [heent]; exact fit_prefix ..) (place_evictTo _ t)
    rw [hadd]
    generalize t.evictTo (t.limit - fieldSize (name, value)) = e at hev hsize hkept
    obtain ⟨hpv, hpent, -, -⟩ := push_spec hev name value hsize
    obtain ⟨hzero, hsucc⟩ := place_push_eq hev name value hsize
    intro k f hk hm
    cases k with
    | zero =>
      rw [hzero] at hm
      simp [Marks.set] at hm
    | succ k =>
      have hlt := (List.getElem?_eq_some_iff.mp hk).1
      rw [length_entries] at hlt
      have hring := hpv.ring_of_pos (Nat.zero_lt_of_lt hlt)
      have hcount := hpv.count_le
      rw [hpent, List.getElem?_cons_succ] at hk
      have hklt := (List.getElem?_eq_some_iff.mp hk).1
      rw [length_entries] at hklt
      -- the slot of an older entry is not the new one
      have hother : (e.push name value).place (k + 1) ≠ (e.push name value).head := by
        rw [← hzero]
        intro heq
        have := place_inj (by omega) (by omega) heq
        omega
      unfold Marks.set at hm
      rw [if_neg hother, hsucc k hklt] at hm
      exact hkept k f hk hm
  · rw [htaken, decide_eq_false hfit, if_neg Bool.false_ne_true]
    have hnil : (t.add name value).2.entries = [] := by
      rw [hentries, fit_cons_of_lt fieldSize (by omega)]
    intro k f hk _
    rw [hnil] at hk
    simp at hk

/-- The slot of an entry that is there. -/
theorem slotAt_eq (hv : t.Valid) {k : Nat} {f : Field}
    (hk : t.at k = some f) : t.slotAt k = some (t.place k) ∧ t.entries[k]? = some f := by
  refine ⟨?_, by rw [← at_eq hv, hk]⟩
  unfold slotAt
  unfold «at» at hk
  split at hk
  · simp at hk
  · next hc => rw [if_neg hc]

/-- The newest entry is the one just added. -/
theorem newestSlot_add (hv : t.Valid) {name value : Bytes} (h : (t.add name value).1 = true) :
    (t.add name value).2.newestSlot = some ((t.add name value).2.place 0) ∧
      (t.add name value).2.entries[0]? = some (name, value) := by
  obtain ⟨-, hentries, -, -, htaken⟩ := add_spec hv name value
  rw [h] at htaken
  have hfit := of_decide_eq_true htaken.symm
  have hfirst : (t.add name value).2.entries[0]? = some (name, value) := by
    rw [hentries, fit_cons_of_le fieldSize hfit]
    rfl
  have hpos := (List.getElem?_eq_some_iff.mp hfirst).1
  rw [length_entries] at hpos
  refine ⟨?_, hfirst⟩
  unfold newestSlot
  rw [if_pos hpos]
  simp [place]

end DynamicTable

end Agensio.Codec
