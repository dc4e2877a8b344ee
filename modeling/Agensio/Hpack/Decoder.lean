/-
  Agensio.Hpack.Decoder — the HPACK decoder.

  Model of `hpack::Decoder` (`http2/hpack.cpp`): a header block is a list
  of representations (RFC 7541 6), each of which names a field, and some
  of which change the dynamic table.  The list size is added up on the
  way and the decode stops at the first field over `max_list_size`.

  The arena is not modelled: a string is returned instead of a view of
  it.  A sink is a function of the fields it was given so far, the new
  one last; where a field came from (`Origin`) is the sink's and does not
  reach the table.
-/
import Agensio.Codec.Strings
import Agensio.Codec.DynamicTable

namespace Agensio.Hpack

open Agensio.Lib Agensio.Codec

/-! ## §1. The static table. -/

/-- `kStaticTable`, RFC 7541 appendix A; index 1 is the first. -/
def kStaticTable : List Field :=
  [(":authority", ""), (":method", "GET"), (":method", "POST"), (":path", "/"),
   (":path", "/index.html"), (":scheme", "http"), (":scheme", "https"), (":status", "200"),
   (":status", "204"), (":status", "206"), (":status", "304"), (":status", "400"),
   (":status", "404"), (":status", "500"), ("accept-charset", ""),
   ("accept-encoding", "gzip, deflate"), ("accept-language", ""), ("accept-ranges", ""),
   ("accept", ""), ("access-control-allow-origin", ""), ("age", ""), ("allow", ""),
   ("authorization", ""), ("cache-control", ""), ("content-disposition", ""),
   ("content-encoding", ""), ("content-language", ""), ("content-length", ""),
   ("content-location", ""), ("content-range", ""), ("content-type", ""), ("cookie", ""),
   ("date", ""), ("etag", ""), ("expect", ""), ("expires", ""), ("from", ""), ("host", ""),
   ("if-match", ""), ("if-modified-since", ""), ("if-none-match", ""), ("if-range", ""),
   ("if-unmodified-since", ""), ("last-modified", ""), ("link", ""), ("location", ""),
   ("max-forwards", ""), ("proxy-authenticate", ""), ("proxy-authorization", ""), ("range", ""),
   ("referer", ""), ("refresh", ""), ("retry-after", ""), ("server", ""), ("set-cookie", ""),
   ("strict-transport-security", ""), ("transfer-encoding", ""), ("user-agent", ""), ("vary", ""),
   ("via", ""), ("www-authenticate", "")].map
    fun f => (bytes f.1, bytes f.2)

/-! ## §2. The decoder. -/

/-- Why a decode ends. -/
inductive Result where
  | ok
  | malformed
  | tooLarge
  | tooMany
  deriving DecidableEq

structure Decoder where
  table : DynamicTable
  ceiling : Nat
  deriving DecidableEq

namespace Decoder

def new (ceiling : Nat) : Decoder := { table := DynamicTable.new ceiling, ceiling := ceiling }

def lookup (d : Decoder) (index : Nat) : Option Field :=
  if index = 0 then none
  else if index ≤ kStaticTable.length then kStaticTable[index - 1]?
  else d.table.at (index - kStaticTable.length - 1)

/-- `read_string`. -/
def readString (in_ : Bytes) (maxOut : Nat) : Except Result (Bytes × Bytes) :=
  match prefixedString 7 0x80 maxOut in_ with
  | .ok r => .ok r
  | .error .tooLarge => .error .tooLarge
  | .error _ => .error .malformed

/-- `budget`: decoded bytes a field may still take. -/
def budget (maxListSize total used : Nat) : Nat := maxListSize - (total + 32 + used)

/-- The name of a literal: an index under a prefix, or a string. -/
def literalName (d : Decoder) (maxListSize total prefixBits : Nat) (in_ : Bytes) :
    Except Result (Bytes × Bytes) :=
  match readInteger prefixBits in_ with
  | none => .error .malformed
  | some (index, rest) =>
    if index = 0 then readString rest (budget maxListSize total 0)
    else
      match d.lookup index with
      | none => .error .malformed
      | some (name, _) =>
        if name.length > budget maxListSize total 0 then .error .tooLarge else .ok (name, rest)

/-- The value of a literal, behind its name. -/
def literalValue (maxListSize total : Nat) (name in_ : Bytes) : Except Result (Field × Bytes) :=
  match readString in_ (budget maxListSize total name.length) with
  | .error e => .error e
  | .ok (value, rest) => .ok ((name, value), rest)

/-- 6.2. -/
def literal (d : Decoder) (maxListSize total prefixBits : Nat) (in_ : Bytes) :
    Except Result (Field × Bytes) :=
  match d.literalName maxListSize total prefixBits in_ with
  | .error e => .error e
  | .ok (name, rest) => literalValue maxListSize total name rest

/-- 6.1. -/
def indexed (d : Decoder) (maxListSize total : Nat) (in_ : Bytes) : Except Result (Field × Bytes) :=
  match readInteger 7 in_ with
  | none => .error .malformed
  | some (index, rest) =>
    match d.lookup index with
    | none => .error .malformed
    | some f =>
      if fieldSize f > maxListSize - min total maxListSize then .error .tooLarge else .ok (f, rest)

/-- 6.3. -/
def sizeUpdate (d : Decoder) (in_ : Bytes) : Except Result (Decoder × Bytes) :=
  match readInteger 5 in_ with
  | none => .error .malformed
  | some (size, rest) =>
    if size > d.ceiling then .error .malformed
    else .ok ({ d with table := d.table.setLimit size }, rest)

/-- A representation that is a field, and the decoder behind it. -/
def withField (next : Field → Decoder) :
    Except Result (Field × Bytes) → Except Result (Decoder × Option Field × Bytes)
  | .error e => .error e
  | .ok (f, rest) => .ok (next f, some f, rest)

/-- One round of the loop of `decode`: the decoder, the field if there is one, and the bytes
    behind it. -/
def nextField (d : Decoder) (maxListSize total : Nat) (started : Bool) :
    Bytes → Except Result (Decoder × Option Field × Bytes)
  | [] => .error .malformed
  | b :: bs =>
    if b &&& 0x80 ≠ 0 then
      withField (fun _ => d) (d.indexed maxListSize total (b :: bs))
    else if b &&& 0x40 ≠ 0 then
      withField (fun f => { d with table := (d.table.add f.1 f.2).2 })
        (d.literal maxListSize total 6 (b :: bs))
    else if b &&& 0x20 ≠ 0 then
      if started then .error .malformed
      else
        match d.sizeUpdate (b :: bs) with
        | .error e => .error e
        | .ok (d', rest) => .ok (d', none, rest)
    else withField (fun _ => d) (d.literal maxListSize total 4 (b :: bs))

/-- The loop of `decode`; a representation is a byte at least, so the length of the block is fuel
    enough. -/
def decodeLoop (maxListSize : Nat) (sink : List Field → Bool) :
    Nat → Decoder → Nat → List Field → Bytes → Decoder × Result × List Field
  | _, d, _, fields, [] => (d, .ok, fields)
  | 0, d, _, fields, _ :: _ => (d, .malformed, fields)
  | fuel + 1, d, total, fields, b :: bs =>
    match d.nextField maxListSize total (!fields.isEmpty) (b :: bs) with
    | .error e => (d, e, fields)
    | .ok (d', none, rest) => decodeLoop maxListSize sink fuel d' total fields rest
    | .ok (d', some f, rest) =>
      if total + fieldSize f > maxListSize then (d', .tooLarge, fields)
      else if !sink (fields ++ [f]) then (d', .tooMany, fields ++ [f])
      else decodeLoop maxListSize sink fuel d' (total + fieldSize f) (fields ++ [f]) rest

/-- `decode`: the decoder afterwards, the result and the fields the sink was given. -/
def decode (d : Decoder) (block : Bytes) (maxListSize : Nat) (sink : List Field → Bool) :
    Decoder × Result × List Field :=
  decodeLoop maxListSize sink block.length d 0 [] block

end Decoder

end Agensio.Hpack
