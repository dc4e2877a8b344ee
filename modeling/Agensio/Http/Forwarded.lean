/-
  Agensio.Http.Forwarded — the client behind trusted proxies.

  Model of `resolve_forwarded` (`core/forwarded.hpp`).  The lines of
  X-Forwarded-For are one list, which is read from its right end: over the
  entries that are addresses of trusted proxies, up to the first one that
  is not, or that is no address.  What a text reads as,
  `asio::ip::make_address`, is a parameter.

  Main results:
    * `readEntry_iff` — the forms an entry has;
    * `walk_scan`, `walkFields_scan` — the two loops are one over the list;
    * `scan_append` — entries left of the one that stops it are not read;
    * `resolveForwarded_client` — which entry is the client, and when
      membership and inclusion of ranges are what they are called.
-/
import Agensio.Http.Redirect
import Agensio.Lib.Splitting
import Agensio.Net.Cidr

namespace Agensio.Http

open Agensio.Http1 (trim iequals decimal decimalText comma colon)
open Agensio.Http.Redirect (rfind rfind_some rfind_none)
open Agensio.Codec (Field)
open Agensio.Net (IpAddress Cidr inAny Beside bit)
open Agensio.Lib

/-! ## §1. The code. -/

abbrev openBracket : UInt8 := 0x5b
abbrev closeBracket : UInt8 := 0x5d

def validPort (s : Bytes) : Bool :=
  if s = [] || s.length > 5 then false
  else s.all (fun c => 0x30 ≤ c && c ≤ 0x39) && 1 ≤ decimal s && decimal s ≤ 65535

/-- `ConnectionInfo`, what a request's forwarding fields set. -/
structure ConnectionInfo where
  clientAddress : Bytes := []
  clientIp : Option IpAddress := none
  forwardedHttps : Bool := false

/-- An entry without its brackets and its port; `none` where these are bad. -/
def entryText (entry : Bytes) : Option Bytes :=
  if entry.head? = some openBracket then
    let inner := (entry.drop 1).takeWhile (· ≠ closeBracket)
    let port := entry.drop (inner.length + 2)
    if !(entry.contains closeBracket) ||
        !(port = [] || (port.length > 1 && port.head? = some colon && validPort (port.drop 1))) then none
    else some inner
  else
    let front := entry.takeWhile (· ≠ colon)
    let port := entry.drop (front.length + 1)
    -- a bare IPv6 address has several colons
    if entry.contains colon && !port.contains colon then if validPort port then some front else none
    else some entry

/-- `to_string` of an IPv4 address. -/
def dotted (a : IpAddress) : Bytes := [dot].intercalate (a.bytes.map fun b => decimalText b.toNat)

section Code

variable (make : Bytes → Option IpAddress) (trusted : List Cidr)

/-- The text of the address an entry names, and what it reads as. -/
def readEntry (entry : Bytes) : Option (Bytes × IpAddress) :=
  match entryText entry with
  | none => none
  | some text =>
    match make text with
    | none => none
    | some given => if text.contains percent then none else some (text, given)

/-- The text that is recorded of a client. -/
def recorded (found : Bytes × IpAddress) : Bytes :=
  if found.2.unmapped = found.2 then found.1 else dotted found.2.unmapped

def ConnectionInfo.record (conn : ConnectionInfo) (found : Bytes × IpAddress) : ConnectionInfo :=
  { conn with clientAddress := recorded found, clientIp := some found.2.unmapped }

/-- A line's last item, and the line before it. -/
def lastItem (xff : Bytes) : Bytes × Bytes :=
  match rfind xff comma with
  | none => (xff, [])
  | some c => (xff.drop (c + 1), xff.take c)

/-- The loop over one line, and whether the walk is done. -/
def walk : Nat → Bytes → ConnectionInfo → ConnectionInfo × Bool
  | 0, _, conn => (conn, false)
  | n + 1, xff, conn =>
    if xff = [] then (conn, false)
    else
      let entry := trim (lastItem xff).1
      let xff := (lastItem xff).2
      if entry = [] then walk n xff conn
      else
        match readEntry make entry with
        | none => (conn, true)
        | some found =>
          if inAny trusted found.2.unmapped then walk n xff (conn.record found) else (conn.record found, true)

/-- The loop over the fields, the last one first. -/
def walkFields : List Field → ConnectionInfo → ConnectionInfo
  | [], conn => conn
  | f :: rest, conn =>
    if iequals f.1 (bytes "x-forwarded-for") then
      match walk make trusted (f.2.length + 1) f.2 conn with
      | (conn, true) => conn
      | (conn, false) => walkFields rest conn
    else walkFields rest conn

/-- The nearest proxy's X-Forwarded-Proto says `https`. -/
def forwardedHttps (h : List Field) : Bool :=
  match h.reverse.find? fun f => iequals f.1 (bytes "x-forwarded-proto") with
  | none => false
  | some f =>
    iequals (trim (lastItem f.2).1) (bytes "https")

def resolveForwarded (h : List Field) (conn : ConnectionInfo) : ConnectionInfo :=
  { walkFields make trusted h.reverse conn with forwardedHttps := forwardedHttps h }

end Code

/-! ## §2. What an entry names. -/

/-- Digits for 1 to 65535. -/
def IsPort (p : Bytes) : Prop :=
  p ≠ [] ∧ p.length ≤ 5 ∧ (∀ c ∈ p, 0x30 ≤ c ∧ c ≤ 0x39) ∧ 1 ≤ decimal p ∧ decimal p ≤ 65535

/-- The text of the address in an entry. -/
inductive Written : Bytes → Bytes → Prop where
  | bracketed (text : Bytes) (h : closeBracket ∉ text) : Written (openBracket :: text ++ [closeBracket]) text
  | bracketedPort (text p : Bytes) (h : closeBracket ∉ text) (hp : IsPort p) :
      Written (openBracket :: text ++ closeBracket :: colon :: p) text
  | port (text p : Bytes) (hb : (text ++ colon :: p).head? ≠ some openBracket) (h : colon ∉ text) (hp : IsPort p) :
      Written (text ++ colon :: p) text
  | bare (text : Bytes) (hb : text.head? ≠ some openBracket) (h : text.count colon ≠ 1) : Written text text

/-- An entry that names an address. -/
structure Names (make : Bytes → Option IpAddress) (entry : Bytes) (found : Bytes × IpAddress) : Prop where
  written : Written entry found.1
  reads : make found.1 = some found.2
  noZone : percent ∉ found.1

theorem validPort_iff (p : Bytes) : validPort p = true ↔ IsPort p := by
  unfold validPort IsPort
  split
  · next h =>
    simp only [Bool.or_eq_true, decide_eq_true_eq] at h
    constructor
    · intro hf
      cases hf
    · rintro ⟨hne, hlen, _⟩
      rcases h with h | h
      · exact absurd h hne
      · omega
  · next h =>
    simp only [Bool.or_eq_true, decide_eq_true_eq, not_or] at h
    simp only [Bool.and_eq_true, List.all_eq_true, decide_eq_true_eq, and_assoc]
    exact ⟨fun hp => ⟨h.1, by omega, hp.1, hp.2.1, hp.2.2⟩, fun hp => ⟨hp.2.2.1, hp.2.2.2.1, hp.2.2.2.2⟩⟩

theorem entryText_iff (entry text : Bytes) : entryText entry = some text ↔ Written entry text := by
  constructor
  · intro h
    unfold entryText at h
    dsimp only at h
    split at h
    · next hfront =>
      cases entry with
      | nil => cases hfront
      | cons b rest =>
        have hb : b = openBracket := Option.some.inj hfront
        subst hb
        rw [List.drop_one, List.tail_cons] at h
        split at h
        · cases h
        next hport =>
        rw [Bool.not_eq_true, Bool.or_eq_false_iff, Bool.not_eq_false', Bool.not_eq_false'] at hport
        obtain ⟨hclose, hport⟩ := hport
        have hmem : closeBracket ∈ rest := by
          rw [List.contains_iff_mem] at hclose
          exact (List.mem_cons.mp hclose).resolve_left (by decide)
        have hcut := eq_takeWhile_ne hmem
        have hnot := not_mem_takeWhile_ne closeBracket rest
        cases h
        generalize hi : (rest.takeWhile fun x => decide (x ≠ closeBracket)) = inner at *
        have hdrop : (openBracket :: rest).drop (inner.length + 2) = rest.drop (inner.length + 1) := rfl
        rw [hdrop] at hport
        generalize rest.drop (inner.length + 1) = port at *
        rw [hcut]
        cases port with
        | nil => exact Written.bracketed inner hnot
        | cons c p =>
          simp only [Bool.or_eq_true, Bool.and_eq_true, decide_eq_true_eq, reduceCtorEq, false_or, List.head?_cons,
            Option.some.injEq, List.drop_one, List.tail_cons] at hport
          obtain ⟨⟨_, rfl⟩, hp⟩ := hport
          exact Written.bracketedPort inner p hnot ((validPort_iff p).mp hp)
    · next hfront =>
      split at h
      · next hone =>
        rw [Bool.and_eq_true, Bool.not_eq_true', List.contains_iff_mem] at hone
        split at h
        · next hp =>
          cases h
          have hcut := eq_takeWhile_ne hone.1
          have hnot := not_mem_takeWhile_ne colon entry
          generalize (entry.takeWhile fun x => decide (x ≠ colon)) = front at *
          rw [hcut] at hfront ⊢
          exact Written.port front _ hfront hnot ((validPort_iff _).mp hp)
        · cases h
      · next hmany =>
        cases h
        refine Written.bare entry hfront fun hcount => ?_
        have hmem : colon ∈ entry := List.count_pos_iff.mp (by omega)
        have hcut := eq_takeWhile_ne hmem
        -- a second colon would stand behind the first one
        rw [List.contains_iff_mem.mpr hmem, Bool.true_and, Bool.not_eq_true, Bool.not_eq_false', List.contains_iff_mem,
          ← List.count_pos_iff] at hmany
        rw [hcut, List.count_append, List.count_cons_self] at hcount
        omega
  · intro h
    have hdrop : ∀ (inner rest : Bytes), (openBracket :: inner ++ closeBracket :: rest).drop (inner.length + 2) = rest := by
      intro inner rest
      rw [List.cons_append, List.drop_succ_cons, ← List.drop_drop, List.drop_left]
      rfl
    unfold entryText
    dsimp only
    cases h with
    | bracketed text h =>
      have hinner : ((openBracket :: text ++ [closeBracket]).drop 1).takeWhile (fun x => decide (x ≠ closeBracket)) = text :=
        takeWhile_ne_append h []
      have hclose : (openBracket :: text ++ [closeBracket]).contains closeBracket = true :=
        List.contains_iff_mem.mpr (by simp)
      rw [hinner, hdrop, hclose, if_pos (show (openBracket :: text ++ [closeBracket]).head? = some openBracket from rfl)]
      rfl
    | bracketedPort text p h hp =>
      have hinner : ((openBracket :: text ++ closeBracket :: colon :: p).drop 1).takeWhile
          (fun x => decide (x ≠ closeBracket)) = text := takeWhile_ne_append h (colon :: p)
      have hclose : (openBracket :: text ++ closeBracket :: colon :: p).contains closeBracket = true :=
        List.contains_iff_mem.mpr (by simp)
      have hlen : (colon :: p).length > 1 := by
        have := List.length_pos_iff.mpr hp.1
        rw [List.length_cons]
        omega
      have hfront : (openBracket :: text ++ closeBracket :: colon :: p).head? = some openBracket := rfl
      rw [hinner, hdrop, hclose, if_pos hfront, List.drop_one, List.tail_cons, (validPort_iff p).mpr hp,
        decide_eq_true hlen]
      simp
    | port text p hb h hp =>
      have hnot : p.contains colon = false := by
        rw [← Bool.not_eq_true, List.contains_iff_mem]
        intro hmem
        exact absurd (hp.2.2.1 colon hmem).2 (by decide)
      have hmem : (text ++ colon :: p).contains colon = true := List.contains_iff_mem.mpr (by simp)
      have hport : (text ++ colon :: p).drop (text.length + 1) = p := by
        rw [← List.drop_drop, List.drop_left]
        rfl
      rw [if_neg hb, takeWhile_ne_append h p, hport, hmem, hnot, (validPort_iff p).mpr hp]
      rfl
    | bare _ hb h =>
      rw [if_neg hb, if_neg]
      intro hone
      rw [Bool.and_eq_true, Bool.not_eq_true', ← Bool.not_eq_true, List.contains_iff_mem, List.contains_iff_mem] at hone
      have hcut := eq_takeWhile_ne hone.1
      have hfront : (entry.takeWhile fun x => decide (x ≠ colon)).count colon = 0 :=
        List.count_eq_zero_of_not_mem (not_mem_takeWhile_ne colon entry)
      have hport := List.count_eq_zero_of_not_mem hone.2
      rw [hcut, List.count_append, hfront, List.count_cons_self, hport] at h
      exact h rfl

section Reading

variable {make : Bytes → Option IpAddress}

theorem readEntry_iff (entry : Bytes) (found : Bytes × IpAddress) :
    readEntry make entry = some found ↔ Names make entry found := by
  constructor
  · intro h
    unfold readEntry at h
    split at h
    · cases h
    next text htext =>
    split at h
    · cases h
    next given hgiven =>
    split at h
    · cases h
    next hzone =>
    cases h
    rw [Bool.not_eq_true, ← Bool.not_eq_true, List.contains_iff_mem] at hzone
    exact ⟨(entryText_iff entry text).mp htext, hgiven, hzone⟩
  · rintro ⟨hwritten, hreads, hzone⟩
    have hcontains : found.1.contains percent = false := by
      rw [← Bool.not_eq_true, List.contains_iff_mem]
      exact hzone
    unfold readEntry
    rw [(entryText_iff entry found.1).mpr hwritten]
    dsimp only
    rw [hreads]
    dsimp only
    rw [hcontains]
    rfl

theorem readEntry_none (entry : Bytes) : readEntry make entry = none ↔ ¬ ∃ found, Names make entry found := by
  rw [Option.eq_none_iff_forall_not_mem, not_exists]
  exact forall_congr' fun found => not_congr (readEntry_iff entry found)

end Reading

/-! ## §3. One list. -/

/-- The entries of one line, the empty items left out. -/
def items (value : Bytes) : List Bytes := ((value.splitOn comma).map trim).filter fun e => e ≠ []

/-- The entries of all lines, in order. -/
def entries (h : List Field) : List Bytes :=
  (h.filter fun f => iequals f.1 (bytes "x-forwarded-for")).flatMap fun f => items f.2

theorem items_append (xff last : Bytes) : items (xff ++ comma :: last) = items xff ++ items last := by
  unfold items
  rw [List.splitOn_append_cons_self, List.map_append, List.filter_append]

theorem items_single {last : Bytes} (hlast : comma ∉ last) :
    items last = if trim last = [] then [] else [trim last] := by
  unfold items
  rw [List.splitOn_eq_singleton hlast, List.map_singleton]
  by_cases ht : trim last = []
  · rw [if_pos ht, ht]
    rfl
  rw [if_neg ht, List.filter_cons, if_pos (decide_eq_true ht)]
  rfl

/-- What the loop takes off a line is its last item. -/
theorem items_lastItem {xff : Bytes} (hne : xff ≠ []) : (lastItem xff).2.length < xff.length ∧
    items xff = items (lastItem xff).2 ++ if trim (lastItem xff).1 = [] then [] else [trim (lastItem xff).1] := by
  have hpos := List.length_pos_iff.mpr hne
  unfold lastItem
  cases hc : rfind xff comma with
  | none => exact ⟨hpos, items_single (rfind_none hc)⟩
  | some c =>
    obtain ⟨hlt, hcut, hlast⟩ := rfind_some hc
    dsimp only
    refine ⟨by rw [List.length_take]; omega, ?_⟩
    rw [← items_single hlast, ← items_append, ← hcut]

section Scan

variable (make : Bytes → Option IpAddress) (trusted : List Cidr)

/-- The loop over the entries, the last one first. -/
def scan : List Bytes → ConnectionInfo → ConnectionInfo × Bool
  | [], conn => (conn, false)
  | e :: rest, conn =>
    match readEntry make e with
    | none => (conn, true)
    | some found => if inAny trusted found.2.unmapped then scan rest (conn.record found) else (conn.record found, true)

theorem scan_cons (e : Bytes) (rest : List Bytes) (conn : ConnectionInfo) : scan make trusted (e :: rest) conn =
    match readEntry make e with
    | none => (conn, true)
    | some found =>
      if inAny trusted found.2.unmapped then scan make trusted rest (conn.record found) else (conn.record found, true) :=
  rfl

theorem walk_scan : ∀ (n : Nat) (xff : Bytes) (conn : ConnectionInfo), xff.length < n →
    walk make trusted n xff conn = scan make trusted (items xff).reverse conn := by
  intro n
  induction n with
  | zero =>
    intro xff conn h
    omega
  | succ n ih =>
    intro xff conn hlen
    unfold walk
    split
    · next hnil =>
      rw [hnil]
      rfl
    · next hne =>
      obtain ⟨hcut, hitems⟩ := items_lastItem hne
      rw [hitems]
      dsimp only
      split
      · -- an item with nothing in it
        rw [ih _ _ (by omega), List.append_nil]
      rw [List.reverse_append, List.reverse_singleton, List.singleton_append]
      unfold scan
      split
      · rfl
      next found _ =>
      split
      · exact ih _ _ (by omega)
      · rfl

theorem scan_append (es left : List Bytes) (conn : ConnectionInfo) : scan make trusted (es ++ left) conn =
      if (scan make trusted es conn).2 then scan make trusted es conn else scan make trusted left (scan make trusted es conn).1 := by
  induction es generalizing conn with
  | nil => rfl
  | cons e es ih =>
    rw [List.cons_append, scan_cons, scan_cons]
    cases readEntry make e with
    | none => rfl
    | some found =>
      dsimp only
      split
      · exact ih _
      · rfl

theorem walkFields_scan (fs : List Field) (conn : ConnectionInfo) :
    walkFields make trusted fs conn = (scan make trusted
      ((fs.filter fun f => iequals f.1 (bytes "x-forwarded-for")).flatMap fun f => (items f.2).reverse) conn).1 := by
  induction fs generalizing conn with
  | nil => rfl
  | cons f fs ih =>
    unfold walkFields
    by_cases hname : iequals f.1 (bytes "x-forwarded-for") = true
    · rw [if_pos hname, List.filter_cons, if_pos hname, List.flatMap_cons, scan_append,
        walk_scan make trusted _ f.2 conn (Nat.lt_succ_self _)]
      rcases scan make trusted (items f.2).reverse conn with ⟨conn', done⟩
      cases done with
      | true => rfl
      | false => exact ih conn'
    · rw [if_neg hname, List.filter_cons, if_neg hname]
      exact ih conn

end Scan

/-! ## §4. The client. -/

section Client

variable {make : Bytes → Option IpAddress} {trusted : List Cidr}

/-- An entry that is the address of a trusted proxy. -/
def FromProxy (make : Bytes → Option IpAddress) (trusted : List Cidr) (e : Bytes) : Prop :=
  ∃ found, Names make e found ∧ inAny trusted found.2.unmapped = true

/-- What a connection shows of the client. -/
def ConnectionInfo.Shows (conn : ConnectionInfo) : Option (Bytes × IpAddress) → Prop
  | none => conn.clientAddress = []
  | some found => conn.clientAddress = recorded found ∧ conn.clientIp = some found.2.unmapped

/-- The leftmost entry, which is the one read last. -/
def Leftmost (make : Bytes → Option IpAddress) : List Bytes → Option (Bytes × IpAddress) → Prop
  | [], found => found = none
  | e :: _, found => ∃ f, Names make e f ∧ found = some f

/-- The client, by the entries of all lines: the first one from the right that is an address
    outside the trusted ranges, or the trusted one read last. -/
structure Resolves (make : Bytes → Option IpAddress) (trusted : List Cidr) (es : List Bytes) (conn : ConnectionInfo) :
    Prop where
  outside : ∀ left e read found, es = left ++ e :: read → (∀ x ∈ read, FromProxy make trusted x) → Names make e found →
    inAny trusted found.2.unmapped = false → conn.Shows (some found)
  malformed : ∀ left e read, es = left ++ e :: read → (∀ x ∈ read, FromProxy make trusted x) →
    (∀ found, ¬ Names make e found) → ∃ found, Leftmost make read found ∧ conn.Shows found
  exhausted : (∀ x ∈ es, FromProxy make trusted x) → ∃ found, Leftmost make es found ∧ conn.Shows found

/-- Over trusted proxies the walk goes on, with the last one read as the client. -/
theorem scan_proxies : ∀ (read : List Bytes) (conn : ConnectionInfo), conn.clientAddress = [] →
    (∀ x ∈ read, FromProxy make trusted x) → (scan make trusted read.reverse conn).2 = false ∧
      ∃ found, Leftmost make read found ∧ (scan make trusted read.reverse conn).1.Shows found
  | [], _, hconn, _ => ⟨rfl, none, rfl, hconn⟩
  | e :: read, conn, hconn, hall => by
    obtain ⟨hgo, _⟩ := scan_proxies read conn hconn fun x hx => hall x (.tail _ hx)
    obtain ⟨found, hnames, hin⟩ := hall e List.mem_cons_self
    rw [List.reverse_cons, scan_append, hgo, if_neg Bool.false_ne_true, scan_cons, (readEntry_iff e found).mpr hnames]
    dsimp only
    rw [hin, if_pos rfl]
    exact ⟨rfl, some found, ⟨found, hnames, rfl⟩, rfl, rfl⟩

/-- An entry that is no trusted proxy's ends the walk. -/
theorem scan_stops {e : Bytes} (he : ¬ FromProxy make trusted e) (conn : ConnectionInfo) (left : List Bytes) :
    scan make trusted (e :: left) conn = scan make trusted [e] conn := by
  rw [scan_cons, scan_cons]
  cases hread : readEntry make e with
  | none => rfl
  | some found =>
    dsimp only
    rw [if_neg, if_neg]
    all_goals exact fun hin => he ⟨found, (readEntry_iff e found).mp hread, hin⟩

theorem resolveForwarded_scan (h : List Field) (conn : ConnectionInfo) : resolveForwarded make trusted h conn =
    { (scan make trusted (entries h).reverse conn).1 with forwardedHttps := forwardedHttps h } := by
  unfold resolveForwarded entries
  rw [walkFields_scan, List.filter_reverse, List.reverse_flatMap]
  rfl

/-- **The client is the first entry from the right that the trusted ranges do not hold.** -/
theorem resolveForwarded_resolves (h : List Field) (conn : ConnectionInfo) (hconn : conn.clientAddress = []) :
    Resolves make trusted (entries h) (resolveForwarded make trusted h conn) := by
  rw [resolveForwarded_scan]
  refine ⟨fun left e read found hes hread hnames hout => ?_, fun left e read hes hread hbad => ?_, fun hall => ?_⟩
  · obtain ⟨hgo, _⟩ := scan_proxies read conn hconn hread
    rw [hes, List.reverse_append, List.reverse_cons, List.append_assoc, scan_append, hgo, if_neg Bool.false_ne_true,
      List.singleton_append, scan_cons, (readEntry_iff e found).mpr hnames]
    dsimp only
    rw [hout, if_neg Bool.false_ne_true]
    exact ⟨rfl, rfl⟩
  · obtain ⟨hgo, found, hleft, hshows⟩ := scan_proxies read conn hconn hread
    have hnone : readEntry make e = none := (readEntry_none e).mpr (not_exists.mpr hbad)
    rw [hes, List.reverse_append, List.reverse_cons, List.append_assoc, scan_append, hgo, if_neg Bool.false_ne_true,
      List.singleton_append, scan_cons, hnone]
    exact ⟨found, hleft, by cases found <;> exact hshows⟩
  · obtain ⟨_, found, hleft, hshows⟩ := scan_proxies (entries h) conn hconn hall
    exact ⟨found, hleft, by cases found <;> exact hshows⟩

/-- **Entries to the left of the one that stops the walk have no part in the client.** -/
theorem resolveForwarded_left {h h' : List Field} {left left' read : List Bytes} {e : Bytes} (conn : ConnectionInfo)
    (hes : entries h = left ++ e :: read) (hes' : entries h' = left' ++ e :: read) (he : ¬ FromProxy make trusted e) :
    (resolveForwarded make trusted h conn).clientAddress = (resolveForwarded make trusted h' conn).clientAddress ∧
      (resolveForwarded make trusted h conn).clientIp = (resolveForwarded make trusted h' conn).clientIp := by
  have hsame : ∀ {fs : List Field} {front : List Bytes}, entries fs = front ++ e :: read →
      (scan make trusted (entries fs).reverse conn).1 = (scan make trusted (read.reverse ++ [e]) conn).1 := by
    intro fs front hfs
    rw [hfs, List.reverse_append, List.reverse_cons, List.append_assoc, List.singleton_append, scan_append, scan_stops he,
      ← scan_append]
  rw [resolveForwarded_scan, resolveForwarded_scan, hsame hes, hsame hes']
  exact ⟨rfl, rfl⟩

/-- The client behind trusted proxies is not forged: `a` and `b` are two ranges. -/
structure Unforged (make : Bytes → Option IpAddress) (trusted : List Cidr) (a b : Cidr) : Prop where
  -- `client_address` is cleared before each request
  client : ∀ h conn, conn.clientAddress = [] → Resolves make trusted (entries h) (resolveForwarded make trusted h conn)
  left : ∀ h h' left left' e read conn, entries h = left ++ e :: read → entries h' = left' ++ e :: read →
    ¬ FromProxy make trusted e →
    (resolveForwarded make trusted h conn).clientAddress = (resolveForwarded make trusted h' conn).clientAddress ∧
      (resolveForwarded make trusted h conn).clientIp = (resolveForwarded make trusted h' conn).clientIp
  membership : ∀ (c : Cidr) (x : IpAddress), c.contains x = true ↔
    x.unmapped.v6 = c.base.v6 ∧ ∀ i < c.bits, bit x.unmapped.bytes i = bit c.base.bytes i
  inclusion : a.within b = true ↔ ∀ x, a.contains x = true → b.contains x = true

/-- **No client is forged, and `within` is inclusion but at one pair of ranges**: those beside
    the IPv6 addresses that map IPv4. -/
theorem client_unforged (make : Bytes → Option IpAddress) (trusted : List Cidr) (a b : Cidr) :
    Unforged make trusted a b ↔ ¬ Beside a b := by
  constructor
  · intro h
    exact (Net.within_exact_iff a b).mp h.inclusion
  · intro h
    exact {
      client := fun hs conn hconn => resolveForwarded_resolves hs conn hconn
      left := fun _ _ _ _ _ _ conn hes hes' he => resolveForwarded_left conn hes hes' he
      membership := Net.contains_iff
      inclusion := (Net.within_exact_iff a b).mpr h }

/-- `::fffe:0:0` with a prefix of `n`. -/
def besideRange (n : Nat) (h : n ≤ 128) : Cidr where
  base := ⟨true, Net.besideFront ++ [0, 0, 0, 0], rfl⟩
  bits := n
  fits := h
  unmapped := rfl

/-- Each address of `::fffe:0:0/95` is in `::fffe:0:0/96`, and `within` says no. -/
theorem beside_not_within : ¬ ((besideRange 95 (by decide)).within (besideRange 96 (by decide)) = true ↔
    ∀ x, (besideRange 95 (by decide)).contains x = true → (besideRange 96 (by decide)).contains x = true) := by
  intro h
  have hbeside : Beside (besideRange 95 (by decide)) (besideRange 96 (by decide)) := ⟨rfl, rfl, rfl, rfl, rfl, rfl⟩
  have hwithin := h.mpr fun x hx => Net.beside_contains hbeside hx
  cases hwithin

end Client

end Agensio.Http
