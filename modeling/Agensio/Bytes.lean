/-
  Agensio.Bytes — byte strings.

  Every buffer of the program (`std::string`, `std::string_view`,
  `unsigned char*` with a length) is a list of bytes; an `append_*`
  function of the source is modelled as the bytes it appends.
-/
import Mathlib.Algebra.Group.Nat.Defs
import Mathlib.Data.List.Basic

namespace Agensio

abbrev Bytes := List UInt8

/-- The bytes of a literal of the source (all of them are ASCII). -/
def bytes (s : String) : Bytes := s.toList.map fun c => UInt8.ofNat c.toNat

theorem forall_mem_of_all {s : Bytes} {p : UInt8 → Prop} [DecidablePred p]
    (h : s.all (fun c => decide (p c)) = true) : ∀ c ∈ s, p c :=
  fun c hc => of_decide_eq_true (List.all_eq_true.mp h c hc)

/-- `memcpy` of `src` to offset `at_`, the buffer first grown with zeros to hold it
    (`if (buf.size() < rel + len) buf.resize(rel + len)`). -/
def writeAt (buf : Bytes) (at_ : Nat) (src : Bytes) : Bytes :=
  let grown := buf ++ List.replicate (at_ + src.length - buf.length) 0
  grown.take at_ ++ src ++ grown.drop (at_ + src.length)

end Agensio
