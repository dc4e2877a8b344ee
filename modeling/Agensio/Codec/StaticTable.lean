/-
  Agensio.Codec.StaticTable — lookups by name in a static table.

  Both codecs list each name of their static table once, with the index of
  its first entry (`names` in `http3/qpack.cpp`, `names_by_name` in
  `http2/hpack.cpp`; HPACK counts from 1).  The lists are sorted there for
  a binary search, which finds what `find?` finds since no name is listed
  twice.
-/
import Agensio.Codec.DynamicTable

namespace Agensio.Codec

/-- A row is listed if no row before it has its name. -/
def noteName (out : List (Bytes × Nat)) (row : Field × Nat) : List (Bytes × Nat) :=
  if out.all fun e => e.1 ≠ row.1.1 then out ++ [(row.1.1, row.2)] else out

/-- Each name of `table` with the index of its first entry, the table counted from `start`. -/
def namesFrom (start : Nat) (table : List Field) : List (Bytes × Nat) :=
  (table.zipIdx start).foldl noteName []

/-- The first entry with this name. -/
def firstNamed (start : Nat) (table : List Field) (name : Bytes) : Option Nat :=
  ((namesFrom start table).find? fun e => e.1 = name).map Prod.snd

/-- `static_pair` of `http3/qpack.cpp`: the table scanned from the first entry of the name. -/
def scanPair (table : List Field) (name value : Bytes) : Option Nat :=
  match firstNamed 0 table name with
  | none => none
  | some first => ((table.drop first).findIdx? fun e => e = (name, value)).map fun k => k + first

end Agensio.Codec
