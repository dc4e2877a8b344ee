/-
  Agensio.Upstream.Fcgi — FastCGI records.

  Model of the records of `upstream/fcgi.hpp`: `append_record`,
  `append_stream` and `append_begin_request` write them, `next_record` cuts
  them off the front of a buffer.  A server reads them with the same rules.

  Main results:
    * `readRecords_append` — the records written are read, however the bytes
      are cut, nothing is left;
    * `stdinOf_stream` — the contents of a stream's records are its bytes.
-/
import Agensio.Bytes
import Agensio.Lib.Framing

namespace Agensio.Upstream.Fcgi

open Agensio.Lib

/-! ## §1. Writing. -/

def kVersion : UInt8 := 1
def kHeaderSize : Nat := 8
def kMaxContent : Nat := 65535

inductive RecordType
  | beginRequest
  | abortRequest
  | endRequest
  | params
  | stdin_
  | stdout_
  | stderr_
  | data
  | getValues
  | getValuesResult
  | unknownType
  deriving DecidableEq

def RecordType.code : RecordType → UInt8
  | .beginRequest => 1
  | .abortRequest => 2
  | .endRequest => 3
  | .params => 4
  | .stdin_ => 5
  | .stdout_ => 6
  | .stderr_ => 7
  | .data => 8
  | .getValues => 9
  | .getValuesResult => 10
  | .unknownType => 11

def padding (len : Nat) : Nat := (8 - len % 8) % 8

/-- `append_record`. -/
def recordText (type : RecordType) (id : Nat) (content : Bytes) : Bytes :=
  [kVersion, type.code, UInt8.ofNat (id / 256), UInt8.ofNat (id % 256), UInt8.ofNat (content.length / 256),
    UInt8.ofNat (content.length % 256), UInt8.ofNat (padding content.length), 0] ++ content ++
    List.replicate (padding content.length) 0

/-- The contents of a stream's records. -/
def pieces : Nat → Bytes → List Bytes
  | 0, _ => []
  | fuel + 1, content =>
    if content = [] then [] else content.take kMaxContent :: pieces fuel (content.drop kMaxContent)

/-- `append_stream`. -/
def streamText (type : RecordType) (id : Nat) (content : Bytes) (terminate : Bool) : Bytes :=
  (pieces content.length content).flatMap (recordText type id) ++ if terminate then recordText type id [] else []

/-! ## §2. Reading. -/

structure RecordHeader where
  version : UInt8
  type : UInt8
  requestId : Nat
  contentLength : Nat
  paddingLength : Nat
  deriving DecidableEq

structure Record where
  type : UInt8
  requestId : Nat
  content : Bytes
  deriving DecidableEq

/-- `parse_header`. -/
def parseHeader : Bytes → Option RecordHeader
  | b0 :: b1 :: b2 :: b3 :: b4 :: b5 :: b6 :: _ :: _ =>
    some ⟨b0, b1, b2.toNat * 256 + b3.toNat, b4.toNat * 256 + b5.toNat, b6.toNat⟩
  | _ => none

/-- `next_record`, behind the records read so far. -/
def nextRecord (got : List Record) (bs : Bytes) : Outcome (List Record) UInt8 :=
  match parseHeader bs with
  | none => .incomplete
  | some h =>
    if h.version ≠ kVersion then .failed
    else if bs.length < kHeaderSize + h.contentLength + h.paddingLength then .incomplete
    else .done (got ++ [⟨h.type, h.requestId, (bs.drop kHeaderSize).take h.contentLength⟩])
      (bs.drop (kHeaderSize + h.contentLength + h.paddingLength))

/-- All records of a buffer, and the bytes left. -/
def readRecords (bs : Bytes) : Option (List Record × Bytes) := frames nextRecord bs.length [] bs

/-- The body a server takes: the contents of the STDIN records of request 1, up to the empty one;
    and the records behind it. -/
def stdinOf : List Record → Option (Bytes × List Record)
  | [] => none
  | r :: rs =>
    if r.type = RecordType.stdin_.code && r.requestId = 1 then
      if r.content = [] then some ([], rs)
      else (stdinOf rs).map fun x => (r.content ++ x.1, x.2)
    else stdinOf rs

/-! ## §3. Records are read back. -/

/-- A record as it is written. -/
structure Message where
  type : RecordType
  content : Bytes
  fits : content.length ≤ kMaxContent

namespace Message

def text (m : Message) : Bytes := recordText m.type 1 m.content

def record (m : Message) : Record := ⟨m.type.code, 1, m.content⟩

end Message

section Reading

variable {m : Message} {got : List Record}

theorem length_text (m : Message) : m.text.length = kHeaderSize + m.content.length + padding m.content.length := by
  unfold Message.text recordText kHeaderSize
  simp only [List.length_append, List.length_cons, List.length_nil, List.length_replicate]

theorem text_ne_nil (m : Message) : m.text ≠ [] := by
  intro h
  have := congrArg List.length h
  rw [length_text] at this
  simp [kHeaderSize] at this

theorem toNat_ofNat_of_lt {n : Nat} (h : n < 256) : (UInt8.ofNat n).toNat = n := by
  simp [UInt8.toNat_ofNat', Nat.mod_eq_of_lt h]

theorem parseHeader_text (m : Message) (rest : Bytes) : parseHeader (m.text ++ rest) =
    some ⟨kVersion, m.type.code, 1, m.content.length, padding m.content.length⟩ := by
  have hlen := m.fits
  unfold kMaxContent at hlen
  have hpad : padding m.content.length < 256 := by
    unfold padding
    omega
  unfold Message.text recordText
  simp only [List.cons_append, List.nil_append, parseHeader]
  rw [toNat_ofNat_of_lt (n := m.content.length / 256) (by omega),
    toNat_ofNat_of_lt (n := m.content.length % 256) (by omega), toNat_ofNat_of_lt hpad]
  have h0 : (UInt8.ofNat (1 / 256)).toNat * 256 + (UInt8.ofNat (1 % 256)).toNat = 1 := by decide
  rw [h0, Nat.div_add_mod']

/-- A whole record is read, whatever follows it. -/
theorem nextRecord_text (m : Message) (rest : Bytes) :
    nextRecord got (m.text ++ rest) = .done (got ++ [m.record]) rest := by
  unfold nextRecord
  rw [parseHeader_text]
  dsimp only
  have hlong : ¬ (m.text ++ rest).length < kHeaderSize + m.content.length + padding m.content.length := by
    rw [List.length_append, length_text]
    omega
  rw [if_neg fun h => h rfl, if_neg hlong]
  have hdrop : (m.text ++ rest).drop (kHeaderSize + m.content.length + padding m.content.length) = rest := by
    rw [← length_text, List.drop_left]
  have hcontent : ((m.text ++ rest).drop kHeaderSize).take m.content.length = m.content := by
    unfold Message.text recordText kHeaderSize
    simp
  rw [hdrop, hcontent]
  rfl

/-- A record cut short is waited for. -/
theorem nextRecord_cut {p : Bytes} (hp : p <+: m.text) (hne : p ≠ m.text) : nextRecord got p = .incomplete := by
  have hlt : p.length < m.text.length := by
    refine Nat.lt_of_le_of_ne hp.length_le fun h => hne (hp.eq_of_length h)
  unfold nextRecord
  cases hparse : parseHeader p with
  | none => rfl
  | some h =>
    -- the header is there, as in the whole record
    obtain ⟨rest, hrest⟩ := hp
    have hsame : parseHeader (p ++ rest) = some h := by
      match p, hparse with
      | b0 :: b1 :: b2 :: b3 :: b4 :: b5 :: b6 :: b7 :: cs, hparse => exact hparse
    rw [hrest] at hsame
    have := parseHeader_text m []
    rw [List.append_nil, hsame] at this
    rw [Option.some.inj this]
    dsimp only
    rw [if_neg fun h => h rfl, if_pos (by rw [← length_text]; exact hlt)]

/-- **The records written are read**, and nothing is left. -/
theorem readRecords_append (ms : List Message) :
    readRecords (ms.flatMap Message.text) = some (ms.map Message.record, []) := by
  have hok : AllOk (fun _ _ => True) (fun (got : List Record) m => got ++ [Message.record m]) [] ms := by
    have : ∀ (ms : List Message) (got : List Record),
        AllOk (fun _ _ => True) (fun (got : List Record) m => got ++ [Message.record m]) got ms := by
      intro ms
      induction ms with
      | nil => intro got; exact trivial
      | cons m ms ih => intro got; exact ⟨trivial, ih _⟩
    exact this ms []
  obtain ⟨ms₁, ms₂, kept, rfl, hbs, hw, hrun⟩ := frames_spec text_ne_nil
    (fun got m rest _ => nextRecord_text m rest)
    (fun got m p _ _ hp hne => nextRecord_cut hp hne) _ hok (List.prefix_refl _) (Nat.le_refl _)
  have hkept : kept = ms₂.flatMap Message.text := by
    rw [List.flatMap_append] at hbs
    exact (List.append_cancel_left hbs).symm
  have hnil := hw.eq_nil hkept
  subst hnil
  rw [List.append_nil] at hrun ⊢
  have hfold : ∀ (ms : List Message) (got : List Record),
      ms.foldl (fun got m => got ++ [Message.record m]) got = got ++ ms.map Message.record := by
    intro ms
    induction ms with
    | nil => intro got; simp
    | cons m ms ih =>
      intro got
      rw [List.foldl_cons, ih, List.map_cons, List.append_assoc]
      rfl
  unfold readRecords
  rw [hrun, hfold, hkept]
  rfl

end Reading

/-! ## §4. Streams. -/

theorem pieces_spec : ∀ (fuel : Nat) (content : Bytes), content.length ≤ fuel →
    (pieces fuel content).flatten = content ∧ ∀ c ∈ pieces fuel content, c ≠ [] ∧ c.length ≤ kMaxContent := by
  intro fuel
  induction fuel with
  | zero =>
    intro content h
    rw [List.eq_nil_of_length_eq_zero (Nat.le_zero.mp h)]
    exact ⟨rfl, nofun⟩
  | succ fuel ih =>
    intro content h
    unfold pieces
    split
    · next hnil =>
      rw [hnil]
      exact ⟨rfl, nofun⟩
    · next hne =>
      have hpos := List.length_pos_iff.mpr hne
      have hdrop : (content.drop kMaxContent).length ≤ fuel := by
        rw [List.length_drop]
        unfold kMaxContent
        omega
      obtain ⟨hflat, hall⟩ := ih _ hdrop
      refine ⟨by rw [List.flatten_cons, hflat, List.take_append_drop], ?_⟩
      intro c hc
      rcases List.mem_cons.mp hc with rfl | hc
      · refine ⟨?_, List.length_take_le ..⟩
        intro htake
        have := congrArg List.length htake
        rw [List.length_take] at this
        unfold kMaxContent at this
        simp only [List.length_nil] at this
        omega
      · exact hall c hc

/-- The records of a stream's bytes. -/
def streamMessages (type : RecordType) (content : Bytes) : List Message :=
  (pieces content.length content).attach.map fun c =>
    ⟨type, c.1, ((pieces_spec _ _ (Nat.le_refl _)).2 c.1 c.2).2⟩

theorem streamMessages_record (type : RecordType) (content : Bytes) :
    (streamMessages type content).map Message.record =
      (pieces content.length content).map fun c => ⟨type.code, 1, c⟩ := by
  unfold streamMessages
  rw [List.map_map]
  conv_rhs => rw [← List.attach_map_subtype_val (pieces content.length content), List.map_map]
  rfl

theorem streamText_eq (type : RecordType) (content : Bytes) (terminate : Bool) :
    streamText type 1 content terminate =
      (streamMessages type content ++ if terminate then [Message.mk type [] (Nat.zero_le _)] else []).flatMap
        Message.text := by
  unfold streamText streamMessages
  rw [List.flatMap_append, List.flatMap_map]
  have hpieces : (pieces content.length content).flatMap (recordText type 1) =
      (pieces content.length content).attach.flatMap fun c => recordText type 1 c.1 := by
    conv_lhs => rw [← List.attach_map_subtype_val (pieces content.length content), List.flatMap_map]
  rw [hpieces]
  cases terminate with
  | true => simp [Message.text]
  | false => simp [Message.text]

theorem stdinOf_cons (r : Record) (rs : List Record) : stdinOf (r :: rs) =
    if r.type = RecordType.stdin_.code && r.requestId = 1 then
      if r.content = [] then some ([], rs)
      else (stdinOf rs).map fun x => (r.content ++ x.1, x.2)
    else stdinOf rs := rfl

/-- **The contents of a stream's records are its bytes.** -/
theorem stdinOf_stream (cs : List Bytes) (hne : ∀ c ∈ cs, c ≠ []) (rest : List Record) :
    stdinOf ((cs.map fun c => ⟨RecordType.stdin_.code, 1, c⟩) ++ rest) =
      (stdinOf rest).map fun x => (cs.flatten ++ x.1, x.2) := by
  induction cs with
  | nil => simp
  | cons c cs ih =>
    rw [List.map_cons, List.cons_append, stdinOf_cons]
    dsimp only
    rw [decide_eq_true rfl, decide_eq_true rfl, if_pos (Bool.and_self true), if_neg (hne c (.head _)),
      ih fun c hc => hne c (.tail _ hc), Option.map_map, List.flatten_cons]
    congr 1
    funext x
    show (c ++ (cs.flatten ++ x.1), x.2) = (c ++ cs.flatten ++ x.1, x.2)
    rw [List.append_assoc]

end Agensio.Upstream.Fcgi
