/-
  Agensio.Http.Path — the path of a request target.

  Model of `normalize_target` (`path.cpp`): a target that needs no work is
  cut at its query, any other is percent-decoded once and its empty, `.` and
  `..` segments are taken out.  The buffer that is rewritten in place is the
  part already written and the segments still to read.
-/
import Mathlib.Data.List.DropRight
import Agensio.Bytes

namespace Agensio.Http

abbrev slash : UInt8 := 0x2f
abbrev question : UInt8 := 0x3f
abbrev fragmentMark : UInt8 := 0x23
abbrev percent : UInt8 := 0x25
abbrev dot : UInt8 := 0x2e
abbrev backslash : UInt8 := 0x5c

def hexVal (c : UInt8) : Option Nat :=
  if 0x30 ≤ c && c ≤ 0x39 then some (c.toNat - 0x30)
  else if 0x61 ≤ c && c ≤ 0x66 then some (c.toNat - 0x61 + 10)
  else if 0x41 ≤ c && c ≤ 0x46 then some (c.toNat - 0x41 + 10)
  else none

/-- NUL and the other control characters. -/
def isControl (c : UInt8) : Bool := c < 0x20 || c = 0x7f

/-- The length of the path part of a target that needs no work. -/
def plainPath : Bytes → Option Nat
  | [] => some 0
  | c :: cs =>
    if c = question || c = fragmentMark then some 0
    else if c = percent || isControl c then none
    -- an empty segment, or one that starts with a dot
    else if c = slash && (cs.head? = some slash || cs.head? = some dot) then none
    else (plainPath cs).map (· + 1)

/-- One pass of percent-decoding, and whether a separator was encoded. -/
def percentDecode : Bytes → Option (Bytes × Bool)
  | [] => some ([], false)
  | c :: cs =>
    if c = percent then
      match cs with
      | hi :: lo :: rest =>
        match hexVal hi, hexVal lo with
        | some h, some l =>
          let d := UInt8.ofNat (h * 16 + l)
          if isControl d then none
          else (percentDecode rest).map fun r => (d :: r.1, d = slash || d = backslash || r.2)
        | _, _ => none
      | _ => none
    else if isControl c then none
    else (percentDecode cs).map fun r => (c :: r.1, r.2)

/-- The last segment written, and the slash in front of it, are taken back. -/
def dropSegment (w : Bytes) : Bytes := (w.rdropWhile (· ≠ slash)).dropLast

/-- The segments in order; `w` is what is written so far, `dir` that a slash is to follow. -/
def normalizeSegments : List Bytes → Bytes → Bool → Option (Bytes × Bool)
  | [], w, dir => some (w, dir)
  | seg :: rest, w, _ =>
    if seg = [] || seg = [dot] then normalizeSegments rest w true
    else if seg = [dot, dot] then
      -- it would climb above the root
      if w = [] then none else normalizeSegments rest (dropSegment w) true
    else normalizeSegments rest (w ++ slash :: seg) false

/-- `normalize_target`: the path, and whether a separator in it was encoded. -/
def normalizeTarget (target : Bytes) : Option (Bytes × Bool) :=
  if target.head? ≠ some slash then none
  else
    match plainPath target with
    | some n => some (target.take n, false)
    | none =>
      let path := (target.takeWhile (· ≠ question)).takeWhile (· ≠ fragmentMark)
      match percentDecode path with
      | none => none
      | some (out, encoded) =>
        match normalizeSegments ((out.drop 1).splitOn slash) [] false with
        | none => none
        | some (w, dir) => some (if w = [] || dir then w ++ [slash] else w, encoded)

-- what is left of a climb, and a query that is not looked at
example : normalizeTarget (bytes "/a/b/%2e./c?x y") = some (bytes "/a/c", false) := by decide +kernel

end Agensio.Http
