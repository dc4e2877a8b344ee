/-
  Agensio.Control.OffHost — sending visitors off the host waits for a person.

  Model of the part of the approval gate that reads upstreams and redirects
  (`url_host`, `upstream_off_host`, `approval_reasons`, `control/approvals.cpp`)
  beside what reads the same text to serve it: `parse_upstreams`
  (`config.cpp`), `parse_upstream_address` (`upstream/client.cpp`) and
  `compile_to` (`Agensio.Http.RedirectRules`).  The two read a URL apart:
  the gate looks for `://`, the loader for the schemes it knows, and takes
  an address without one.  How an IP literal is read is asio's, a parameter.

  Main results:
    * `off_host_waits` — when nobody is sent off the host unasked.
-/
import Agensio.Control.Hsts
import Agensio.Http.RedirectRules
import Agensio.Net.Cidr

namespace Agensio.Control.OffHost

open Agensio.Lib
open Agensio.Control.Json
open Agensio.Control.Hsts (validDomain)
open Agensio.Http (slash percent hexVal question fragmentMark)
open Agensio.Http1 (lower decimalText colon forall_byte)
open Agensio.Http.Redirect (compileTo splitAuthority splitOrigin Target letter digit)
open Agensio.Net (IpAddress)

/-! ## §1. The loader's reading. -/

abbrev atSign : UInt8 := 0x40
abbrev openBracket : UInt8 := 0x5b
abbrev closeBracket : UInt8 := 0x5d

/-- What stands before the last of a byte (`substr(0, rfind(c))`). -/
def beforeLast (c : UInt8) (s : Bytes) : Bytes :=
  (s.reverse.drop ((s.reverse.takeWhile (· ≠ c)).length + 1)).reverse

/-- What stands behind the last of a byte, or all of it. -/
def afterLast (c : UInt8) (s : Bytes) : Bytes := (s.reverse.takeWhile (· ≠ c)).reverse

/-- `asio::ip::make_address` and `to_string`. -/
structure Literals where
  make : Bytes → Option IpAddress
  text : IpAddress → Bytes

/-- `UpstreamAddress`; what its host was read as in place of the text. -/
structure UpstreamAddress where
  unix : Bool := false
  path : Bytes := []
  host : Option IpAddress := none
  port : Nat := 0
  key : Bytes := []
  tls : Bool := false
  deriving DecidableEq

/-- The loop over the digits of a port. -/
def portLoop : Nat → Bytes → Option Nat
  | p, [] => some p
  | p, c :: rest =>
    if !digit c || 65535 < p * 10 + (c.toNat - 0x30) then none
    else portLoop (p * 10 + (c.toNat - 0x30)) rest

/-- The host and the port of an address that is no socket. -/
def splitAddress (text : Bytes) : Except Bytes (Bytes × Bytes) :=
  if text.head? = some openBracket then
    let host := (text.drop 1).takeWhile (· ≠ closeBracket)
    let behind := text.drop (host.length + 1)
    -- the closing bracket, the colon and the port
    if behind.head? ≠ some closeBracket || behind[1]? ≠ some colon then
      .error (bytes "expected [ipv6]:port in '" ++ text ++ bytes "'")
    else .ok (host, behind.drop 2)
  else if !(text.contains colon) || beforeLast colon text = [] then
    .error (bytes "expected host:port or unix:/path in '" ++ text ++ bytes "'")
  else .ok (beforeLast colon text, afterLast colon text)

section Loader

variable (asio : Literals)

/-- `parse_upstream_address`. -/
def parseUpstreamAddress (text : Bytes) : Except Bytes UpstreamAddress :=
  if text = [] then .error (bytes "empty upstream address")
  else if bytes "unix:" <+: text || text.head? = some slash then
    let path := if bytes "unix:" <+: text then text.drop 5 else text
    if path.head? ≠ some slash then
      .error (bytes "unix socket path must be absolute: '" ++ text ++ bytes "'")
    else .ok { unix := true, path, key := bytes "unix:" ++ path }
  else
    match splitAddress text with
    | .error why => .error why
    | .ok (host, port) =>
      match asio.make host with
      | none =>
        .error (bytes "upstream host must be an IP literal (names are resolved in a later phase): '" ++
          host ++ bytes "'")
      | some addr =>
        match portLoop 0 port with
        | none => .error (bytes "bad port in '" ++ text ++ bytes "'")
        | some p =>
          if p = 0 || port = [] then .error (bytes "bad port in '" ++ text ++ bytes "'")
          else
            let shown := asio.text addr
            let named := if addr.v6 then bytes "[" ++ shown ++ bytes "]" else shown
            .ok { host := some addr, port := p, key := named ++ bytes ":" ++ decimalText p }

/-- A member of the group without its scheme, and whether TLS is spoken to it. -/
def withoutScheme (text : Bytes) : Bytes × Bool :=
  if bytes "http://" <+: text then (text.drop 7, false)
  else if bytes "https://" <+: text then (text.drop 8, true)
  else (text, false)

/-- A member of the group as the loop of `parse_upstreams` reads it: its address, and its URI part. -/
def readMember (where_ given : Bytes) : Except Bytes (UpstreamAddress × Bytes) :=
  let text := (withoutScheme given).1
  let tls := (withoutScheme given).2
  let address := if bytes "unix:" <+: text then text else text.takeWhile (· ≠ slash)
  let uri := if bytes "unix:" <+: text then [] else text.dropWhile (· ≠ slash)
  let rewrite := if uri = [] || uri.getLast? = some slash then uri else uri ++ [slash]
  match parseUpstreamAddress asio address with
  | .error why => .error (where_ ++ bytes ": " ++ why)
  | .ok a =>
    if tls && a.unix then .error (where_ ++ bytes ": TLS over a unix socket is not supported")
    else .ok (if tls then { a with tls := true, key := bytes "https://" ++ a.key } else a, rewrite)

/-- The loop of `parse_upstreams`; `first` is the URI part of the first member. -/
def memberLoop (where_ : Bytes) : Option Bytes → List UpstreamAddress → List Bytes →
    Except Bytes (List UpstreamAddress)
  | _, out, [] => .ok out
  | first, out, given :: rest =>
    match readMember asio where_ given with
    | .error why => .error why
    | .ok (a, rewrite) =>
      if first.any (· ≠ rewrite) then
        .error (where_ ++ bytes ": every member of the group needs the same URI part")
      else if out.any fun other => other.key = a.key then
        .error (where_ ++ bytes ": " ++ a.key ++ bytes " listed twice")
      else memberLoop where_ (some (first.getD rewrite)) (out ++ [a]) rest

/-- `parse_upstreams` on a site, whose preset is a prefix location. -/
def parseUpstreams (where_ : Bytes) (upstreams : List Bytes) : Except Bytes (List UpstreamAddress) :=
  if upstreams = [] then .error (where_ ++ bytes ": empty list")
  else memberLoop asio where_ none [] upstreams

end Loader

/-! ## §2. The gate's reading. -/

/-- What stands behind the first `://`. -/
def behindScheme : Bytes → Option Bytes
  | [] => none
  | c :: rest => if bytes "://" <+: c :: rest then some (rest.drop 2) else behindScheme rest

/-- The host of `host:port` as the gate reads it. -/
def hostOf (hp : Bytes) : Bytes :=
  if hp.head? = some openBracket then (hp.drop 1).takeWhile (· ≠ closeBracket)
  else if hp.contains colon then beforeLast colon hp
  else hp

/-- `url_host`. -/
def urlHost (url : Bytes) : Bytes :=
  match behindScheme url with
  | none => []
  | some rest =>
    let hp := rest.takeWhile fun c => c ≠ slash && c ≠ question && c ≠ fragmentMark
    (hostOf (afterLast atSign hp)).map lower

/-- `upstream_off_host`. -/
def upstreamOffHost (upstream : Bytes) : Bool :=
  if bytes "unix:" <+: upstream then false
  else
    let host := urlHost upstream
    -- not a URL this reads: taken for one the loader refuses
    if host = [] then false
    else !(host = bytes "localhost" || host = bytes "::1" || bytes "127." <+: host)

/-- `has_name`. -/
def hasName (names : List Bytes) (host : Bytes) : Bool :=
  names.any fun n => n.map lower = host.map lower

/-- `escape_line`. -/
def escapeLine (text : Bytes) : Bytes :=
  let hex (n : Nat) : UInt8 := UInt8.ofNat (if n < 10 then 0x30 + n else 0x61 + n - 10)
  text.flatMap fun c =>
    if 0x20 ≤ c && c < 0x7f && c ≠ 0x5c then [c]
    else bytes "\\x" ++ [hex (c.toNat / 16), hex (c.toNat % 16)]

/-- What `SiteSpec` says of a site's names, and of where it sends visitors. -/
structure SiteSpec where
  domain : Bytes
  aliases : List Bytes
  upstream : Bytes
  redirects : Value

/-- `POST /v1/sites`, or `site_update` of a site. -/
inductive Command
  | create
  -- the site as it is stored, and whether the gate found its file
  | update (before : SiteSpec) (seen : Bool)

/-- `ctx.current`. -/
def Command.current : Command → Option SiteSpec
  | update before true => some before
  | _ => none

def textsOf (v : Value) : List Bytes := (v.items.filter Value.isText).map Value.str

/-- `ctx.site_names`, as `mutate` fills it. -/
def siteNames (cmd : Command) (body : Value) : List Bytes :=
  (match cmd.current with
    | some current => current.domain :: current.aliases
    | none => []) ++
  (match cmd with
    | .create => [body.get "domain"]
    | .update _ _ => []) ++
  textsOf (body.field "aliases")

/-- A rule of these texts among a site's. -/
def hadRule (redirects : Value) (rule : Value) : Bool :=
  redirects.items.any fun old => old.get "from" = rule.get "from" && old.get "to" = rule.get "to"

/-- What the gate says of the upstream. -/
def upstreamReasons (cmd : Command) (body : Value) : List Bytes :=
  match body.field "upstream" with
  | .text up =>
    match cmd with
    | .update _ _ =>
      if cmd.current.all fun cur => up ≠ cur.upstream then
        [bytes "sends the site's visitors to another application: " ++ up ++
          (if upstreamOffHost up then bytes ", off this host" else [])]
      else []
    | .create =>
      if upstreamOffHost up then
        [bytes "sends the site's visitors to an application off this host: " ++ up]
      else []
  | _ => []

/-- A redirect the gate asks about. -/
def asksRedirect (cmd : Command) (body : Value) (rule : Value) : Bool :=
  let host := urlHost (rule.get "to")
  !(host = [] || hasName (siteNames cmd body) host) &&
    !(cmd.current.any fun cur => hadRule cur.redirects rule)

/-- What the gate says of the redirects. -/
def redirectReasons (cmd : Command) (body : Value) : List Bytes :=
  ((body.field "redirects").items.filter (asksRedirect cmd body)).map fun rule =>
    bytes "redirects " ++ rule.get "from" ++ bytes " to another host: " ++ rule.get "to"

/-- `approval_reasons` for the fields of a site.  `others` are the lines about the other fields
    before them (`app`, `root`, `served_dir`, `rules`), `logs` those between. -/
def approvalReasons (cmd : Command) (body : Value) (others logs : List Bytes) : List Bytes :=
  (others ++ upstreamReasons cmd body ++ logs ++ redirectReasons cmd body).map escapeLine

/-! ## §3. What the loader has read. -/

theorem not_mem_afterLast (c : UInt8) (s : Bytes) : c ∉ afterLast c s := by
  intro h
  exact not_mem_takeWhile_ne c s.reverse (List.mem_reverse.mp h)

variable {c : UInt8} {s port text host scheme given : Bytes} {a : UpstreamAddress} {cmd : Command}
  {body rule : Value}

/-- A text is cut at the last of a byte. -/
theorem eq_beforeLast (h : c ∈ s) : s = beforeLast c s ++ c :: afterLast c s := by
  have hcut := eq_takeWhile_ne (List.mem_reverse.mpr h)
  calc s = s.reverse.reverse := (List.reverse_reverse s).symm
    _ = beforeLast c s ++ c :: afterLast c s := by
        rw [hcut, List.reverse_append, List.reverse_cons, List.append_assoc]
        rfl

theorem afterLast_of_not_mem (h : c ∉ s) : afterLast c s = s := by
  have hall : ∀ x ∈ s.reverse, decide (x ≠ c) = true := by
    intro x hx
    have hne : x ≠ c := by
      rintro rfl
      exact h (List.mem_reverse.mp hx)
    simpa using hne
  unfold afterLast
  rw [List.takeWhile_eq_self_iff.mpr hall, List.reverse_reverse]

theorem portLoop_digits : ∀ {p q : Nat}, portLoop p port = some q → ∀ c ∈ port, digit c = true := by
  induction port with
  | nil => intro p q _ c hc; simp at hc
  | cons x rest ih =>
    intro p q h c hc
    unfold portLoop at h
    split at h
    · simp at h
    rename_i hx
    obtain rfl | hc := List.mem_cons.mp hc
    · by_contra hno
      simp [hno] at hx
    · exact ih h c hc

/-- The two forms of `host:port`. -/
inductive HostPort (host port : Bytes) : Bytes → Prop
  | bracketed (h : closeBracket ∉ host) :
      HostPort host port (openBracket :: host ++ closeBracket :: colon :: port)
  | plain (hne : host ≠ []) (hopen : host.head? ≠ some openBracket) (hport : colon ∉ port) :
      HostPort host port (host ++ colon :: port)

theorem splitAddress_ok (h : splitAddress text = .ok (host, port)) : HostPort host port text := by
  unfold splitAddress at h
  split at h
  · rename_i hopen
    dsimp only at h
    split at h
    · simp at h
    rename_i hbehind
    obtain ⟨rest, rfl⟩ : ∃ rest, text = openBracket :: rest := by
      cases text with
      | nil => simp at hopen
      | cons c rest =>
        obtain rfl : c = openBracket := by simpa using hopen
        exact ⟨rest, rfl⟩
    obtain ⟨hhost, hport⟩ := Prod.mk.inj (Except.ok.inj h)
    simp only [List.drop_succ_cons, List.drop_zero] at hhost hport hbehind
    rw [hhost] at hport hbehind
    have hnot : closeBracket ∉ host := by
      rw [← hhost]
      exact not_mem_takeWhile_ne closeBracket rest
    -- the two bytes behind the host
    obtain ⟨x, y, behind, hdrop⟩ : ∃ x y behind, rest.drop host.length = x :: y :: behind := by
      cases hd : rest.drop host.length with
      | nil => simp [hd] at hbehind
      | cons x tail =>
        cases tail with
        | nil => simp [hd] at hbehind
        | cons y behind => exact ⟨x, y, behind, rfl⟩
    rw [hdrop] at hport hbehind
    simp only [List.head?_cons, List.getElem?_cons_succ, List.getElem?_cons_zero, ne_eq,
      Option.some.injEq, decide_not, Bool.or_eq_true, Bool.not_eq_true', decide_eq_false_iff_not,
      not_or, not_not] at hbehind
    obtain ⟨rfl, rfl⟩ := hbehind
    simp only [List.drop_succ_cons, List.drop_zero] at hport
    have hrest : rest = host ++ closeBracket :: colon :: port := by
      have htake : rest.take host.length = host := by
        have hpre : host <+: rest := hhost ▸ List.takeWhile_prefix _
        exact (List.prefix_iff_eq_take.mp hpre).symm
      calc rest = rest.take host.length ++ rest.drop host.length :=
            (List.take_append_drop host.length rest).symm
        _ = host ++ closeBracket :: colon :: port := by rw [htake, hdrop, hport]
    rw [hrest]
    exact .bracketed hnot
  · rename_i hopen
    split at h
    · simp at h
    rename_i hcolon
    obtain ⟨hhost, hport⟩ := Prod.mk.inj (Except.ok.inj h)
    simp only [Bool.or_eq_true, Bool.not_eq_true', List.contains_eq_mem, decide_eq_false_iff_not,
      decide_eq_true_eq, not_or, not_not] at hcolon
    have htext := eq_beforeLast hcolon.1
    have hnot := not_mem_afterLast colon text
    rw [hhost, hport] at htext
    rw [hport] at hnot
    have hne : host ≠ [] := hhost ▸ hcolon.2
    rw [htext]
    refine .plain hne ?_ hnot
    intro hh
    rw [htext] at hopen
    cases host with
    | nil => exact hne rfl
    | cons c host => exact hopen hh

/-! ## §4. What the gate reads of it. -/

theorem beforeLast_append (pre : Bytes) {post : Bytes} (h : c ∉ post) :
    beforeLast c (pre ++ c :: post) = pre := by
  have hrev : (pre ++ c :: post).reverse = post.reverse ++ c :: pre.reverse := by simp
  have hnot : c ∉ post.reverse := fun hmem => h (List.mem_reverse.mp hmem)
  unfold beforeLast
  rw [hrev, takeWhile_ne_append hnot, ← List.drop_drop, List.drop_left, List.drop_succ_cons,
    List.drop_zero, List.reverse_reverse]

/-- Both read the same host. -/
theorem HostPort.hostOf (h : HostPort host port text) : hostOf text = host := by
  unfold OffHost.hostOf
  cases h with
  | bracketed hnot =>
    rw [if_pos (by simp), List.cons_append, List.drop_succ_cons, List.drop_zero]
    exact takeWhile_ne_append hnot _
  | plain hne hopen hport =>
    have hhead : (host ++ colon :: port).head? ≠ some openBracket := by
      cases host with
      | nil => exact absurd rfl hne
      | cons c host => exact hopen
    rw [if_neg hhead, if_pos (by simp)]
    exact beforeLast_append host hport

/-- A byte that ends an authority. -/
def endsAuthority (c : UInt8) : Bool := c = slash || c = question || c = fragmentMark

/-- The schemes the loader and the gate both know. -/
def Scheme (scheme : Bytes) : Prop := scheme = bytes "http://" ∨ scheme = bytes "https://"

theorem behindScheme_scheme (h : Scheme scheme) (rest : Bytes) :
    behindScheme (scheme ++ rest) = some rest := by
  obtain rfl | rfl := h
  · simp [bytes, behindScheme, List.prefix_cons_iff]
  · simp [bytes, behindScheme, List.prefix_cons_iff]

/-- Behind a scheme, the gate reads the host of the authority. -/
theorem urlHost_schemed {authority tail : Bytes} (hs : Scheme scheme)
    (hauth : ∀ c ∈ authority, endsAuthority c = false) (hat : atSign ∉ authority)
    (htail : tail.head?.all endsAuthority = true) :
    urlHost (scheme ++ (authority ++ tail)) = (hostOf authority).map lower := by
  have hp : (authority ++ tail).takeWhile
      (fun c => c ≠ slash && c ≠ question && c ≠ fragmentMark) = authority := by
    have hall : ∀ c ∈ authority,
        (c ≠ slash && c ≠ question && c ≠ fragmentMark : Bool) = true := by
      intro c hc
      simpa [endsAuthority, and_assoc] using hauth c hc
    rw [List.takeWhile_append_of_pos hall]
    cases tail with
    | nil => simp
    | cons c tail =>
      have hc : endsAuthority c = true := by simpa using htail
      have hstop : ¬ (c ≠ slash && c ≠ question && c ≠ fragmentMark : Bool) = true := by
        intro hgo
        simp [endsAuthority] at hc hgo
        tauto
      rw [List.takeWhile_cons, if_neg hstop, List.append_nil]
  unfold urlHost
  rw [behindScheme_scheme hs]
  dsimp only
  rw [hp, afterLast_of_not_mem hat]

/-! ## §5. What stays on the host. -/

def loopbackV6 : List UInt8 := [0, 0, 0, 0, 0, 0, 0, 0, 0, 0, 0, 0, 0, 0, 0, 1]

/-- 127.0.0.0/8, or ::1. -/
def isLoopback (ip : IpAddress) : Bool :=
  if ip.v6 then ip.bytes = loopbackV6 else ip.bytes.head? = some 127

/-- A socket, or an address of this host. -/
def UpstreamAddress.local_ (a : UpstreamAddress) : Bool := a.unix || a.host.any isLoopback

/-- A byte of an IP literal without a zone. -/
def literalByte (c : UInt8) : Bool := (hexVal c).isSome || c = colon || c = 0x2e

/-- What is documented of `make_address`: an IPv4 address in dotted decimal form, or an IPv6
    address in hexadecimal notation, behind which a zone may follow a percent sign. -/
structure Documented (asio : Literals) : Prop where
  nonempty : asio.make [] = none
  bytes_ : ∀ text ip, asio.make text = some ip → percent ∉ text → ∀ c ∈ text, literalByte c = true
  dotted : ∀ text ip, asio.make text = some ip → percent ∉ text → bytes "127." <+: text →
    ip.v6 = false ∧ ip.bytes.head? = some 127
  one : ∀ ip, asio.make (bytes "::1") = some ip → ip.v6 = true ∧ ip.bytes = loopbackV6

theorem byte_plain : ∀ c : UInt8, (literalByte c = true →
      endsAuthority c = false ∧ c ≠ atSign ∧ lower c ≠ 0x6c ∧ (lower c < 0x61 → lower c = c)) ∧
    (digit c = true → endsAuthority c = false ∧ c ≠ atSign) :=
  forall_byte (by decide +kernel)

theorem literalByte_plain (c : UInt8) (h : literalByte c = true) :
    endsAuthority c = false ∧ c ≠ atSign ∧ lower c ≠ 0x6c ∧ (lower c < 0x61 → lower c = c) :=
  (byte_plain c).1 h

/-- The case of a literal matters only in its letters. -/
theorem eq_of_map_lower {w : Bytes} (hs : ∀ c ∈ s, literalByte c = true)
    (hw : ∀ d ∈ w, d < 0x61) (h : s.map lower = w) : s = w := by
  have hsame : s.map lower = s.map id := by
    refine List.map_congr_left fun c hc => ?_
    have hmem : lower c ∈ w := h ▸ List.mem_map_of_mem hc
    exact (literalByte_plain c (hs c hc)).2.2.2 (hw _ hmem)
  rw [← h, hsame, List.map_id]

/-- What the gate takes for local is, where the loader reads an address without a zone. -/
theorem loopback_of_local {asio : Literals} (hdoc : Documented asio)
    {ip : IpAddress} (hmake : asio.make host = some ip) (hzone : percent ∉ host)
    (h : host.map lower = [] ∨ host.map lower = bytes "localhost" ∨
      host.map lower = bytes "::1" ∨ bytes "127." <+: host.map lower) : isLoopback ip = true := by
  have hbytes := hdoc.bytes_ host ip hmake hzone
  obtain hnil | hlocal | hone | hdot := h
  · obtain rfl : host = [] := by simpa using hnil
    simp [hdoc.nonempty] at hmake
  · -- a name is no literal
    cases host with
    | nil => cases hlocal
    | cons c rest =>
      have hl : lower c = 0x6c := (List.cons.inj hlocal).1
      exact absurd hl (literalByte_plain c (hbytes c List.mem_cons_self)).2.2.1
  · obtain rfl : host = bytes "::1" := eq_of_map_lower hbytes (forall_mem_of_all (by decide)) hone
    obtain ⟨hv, hb⟩ := hdoc.one ip hmake
    simp [isLoopback, hv, hb]
  · have htake : (host.take 4).map lower = bytes "127." := by
      rw [List.map_take]
      exact (List.prefix_iff_eq_take.mp hdot).symm
    have hfour : host.take 4 = bytes "127." :=
      eq_of_map_lower (fun c hc => hbytes c (List.mem_of_mem_take hc)) (forall_mem_of_all (by decide)) htake
    have hpre : bytes "127." <+: host := hfour ▸ List.take_prefix 4 host
    obtain ⟨hv, hb⟩ := hdoc.dotted host ip hmake hzone hpre
    simp [isLoopback, hv, hb]

/-- What `parse_upstream_address` makes of a text: a socket, or a literal and a port. -/
theorem parseUpstreamAddress_ok {asio : Literals} (h : parseUpstreamAddress asio text = .ok a) :
    a.unix = true ∨ ∃ host port ip, HostPort host port text ∧ asio.make host = some ip ∧
      (∀ c ∈ port, digit c = true) ∧ a.host = some ip ∧ a.unix = false := by
  unfold parseUpstreamAddress at h
  split at h
  · simp at h
  split at h
  · left
    dsimp only at h
    generalize (if bytes "unix:" <+: text then text.drop 5 else text) = path at h
    split at h
    · simp at h
    · rw [← Except.ok.inj h]
  · right
    split at h
    · simp at h
    rename_i host port hsplit
    split at h
    · simp at h
    rename_i ip hmake
    split at h
    · simp at h
    rename_i p hport
    split at h
    · simp at h
    have heq := Except.ok.inj h
    refine ⟨host, port, ip, splitAddress_ok hsplit, hmake, portLoop_digits hport, ?_, ?_⟩
    · rw [← heq]
    · rw [← heq]

/-- The text of a member up to its URI part. -/
def addressText (given : Bytes) : Bytes :=
  let text := (withoutScheme given).1
  if bytes "unix:" <+: text then text else text.takeWhile (· ≠ slash)

theorem readMember_ok {asio : Literals} {where_ rewrite : Bytes}
    (h : readMember asio where_ given = .ok (a, rewrite)) :
    ∃ read, parseUpstreamAddress asio (addressText given) = .ok read ∧ a.unix = read.unix ∧
      a.host = read.host := by
  unfold readMember at h
  dsimp only at h
  split at h
  · simp at h
  rename_i read hread
  split at h
  · simp at h
  obtain ⟨ha, -⟩ := Prod.mk.inj (Except.ok.inj h)
  refine ⟨read, hread, ?_, ?_⟩
  · rw [← ha]
    split <;> rfl
  · rw [← ha]
    split <;> rfl

theorem parseUpstreams_one {asio : Literals} {where_ : Bytes} {addrs : List UpstreamAddress}
    (h : parseUpstreams asio where_ [given] = .ok addrs) :
    ∃ a rewrite, readMember asio where_ given = .ok (a, rewrite) ∧ addrs = [a] := by
  unfold parseUpstreams at h
  rw [if_neg (by simp)] at h
  unfold memberLoop at h
  split at h
  · simp at h
  rename_i a rewrite hread
  simp only [Option.any_none, Bool.false_eq_true, if_false, List.any_nil, List.nil_append, memberLoop] at h
  exact ⟨a, rewrite, hread, (Except.ok.inj h).symm⟩

theorem HostPort.mem (h : HostPort host port text) :
    ∀ c ∈ text, c ∈ host ∨ c ∈ port ∨ c = openBracket ∨ c = closeBracket ∨ c = colon := by
  intro c hc
  cases h with
  | bracketed =>
    simp only [List.cons_append, List.mem_cons, List.mem_append] at hc
    tauto
  | plain =>
    simp only [List.mem_append, List.mem_cons] at hc
    tauto

/-- A literal and a port have no byte at which the gate would cut them. -/
theorem HostPort.uncut (h : HostPort host port text)
    (hhost : ∀ c ∈ host, literalByte c = true) (hport : ∀ c ∈ port, digit c = true) :
    (∀ c ∈ text, endsAuthority c = false) ∧ atSign ∉ text := by
  have hall : ∀ c ∈ text, endsAuthority c = false ∧ c ≠ atSign := by
    intro c hc
    obtain hc | hc | rfl | rfl | rfl := h.mem c hc
    · have hp := literalByte_plain c (hhost c hc)
      exact ⟨hp.1, hp.2.1⟩
    · exact (byte_plain c).2 (hport c hc)
    · decide
    · decide
    · decide
  exact ⟨fun c hc => (hall c hc).1, fun hmem => (hall _ hmem).2 rfl⟩

theorem HostPort.host_subset (h : HostPort host port text) : ∀ c ∈ host, c ∈ text := by
  intro c hc
  cases h with
  | bracketed => simp [hc]
  | plain => simp [hc]

/-- A literal does not begin as a socket does. -/
theorem HostPort.not_unix (h : HostPort host port text)
    (hhost : ∀ c ∈ host, literalByte c = true) : ¬ bytes "unix:" <+: text := by
  intro hpre
  cases h with
  | bracketed =>
    simp only [bytes, List.cons_append] at hpre
    exact absurd (List.cons_prefix_cons.mp hpre).1 (by decide)
  | plain hne =>
    cases host with
    | nil => exact hne rfl
    | cons c host =>
      have hc : 0x75 = c := by
        simp only [bytes, List.cons_append] at hpre
        exact (List.cons_prefix_cons.mp hpre).1
      exact absurd (hhost c List.mem_cons_self) (by rw [← hc]; decide)

/-- The value names its scheme, and no zone in its address. -/
def Schemed (given : Bytes) : Prop :=
  (∃ scheme, Scheme scheme ∧ scheme <+: given) ∧ percent ∉ addressText given

theorem withoutScheme_schemed (h : Scheme scheme) (rest : Bytes) :
    (withoutScheme (scheme ++ rest)).1 = rest := by
  obtain rfl | rfl := h
  · simp [withoutScheme, bytes]
  · simp [withoutScheme, bytes, List.cons_prefix_cons]

theorem unix_not_schemed (h : Scheme scheme) (rest : Bytes) : ¬ bytes "unix:" <+: scheme ++ rest := by
  obtain rfl | rfl := h <;> simp [bytes, List.cons_prefix_cons]

theorem endsAuthority_dropWhile (text : Bytes) :
    (text.dropWhile (· ≠ slash)).head?.all endsAuthority = true := by
  induction text with
  | nil => rfl
  | cons c rest ih =>
    by_cases hc : c = slash
    · simp [hc, endsAuthority]
    rw [List.dropWhile_cons, if_pos (by simpa using hc)]
    exact ih

/-- Of a URL with a scheme and no zone, the gate and the loader read one host. -/
theorem local_of_schemed {asio : Literals} (hdoc : Documented asio)
    {where_ rewrite : Bytes} (hs : Schemed given)
    (hoff : upstreamOffHost given = false) (hread : readMember asio where_ given = .ok (a, rewrite)) :
    a.local_ = true := by
  obtain ⟨⟨scheme, hscheme, rest, rfl⟩, hzone⟩ := hs
  obtain ⟨read, hparse, hunix, hhost⟩ := readMember_ok hread
  obtain hu | ⟨host, port, ip, hform, hmake, hport, hip, -⟩ := parseUpstreamAddress_ok hparse
  · simp [UpstreamAddress.local_, hunix, hu]
  have hz : percent ∉ host := fun hmem => hzone (hform.host_subset _ hmem)
  have hbytes := hdoc.bytes_ host ip hmake hz
  obtain ⟨hends, hat⟩ := hform.uncut hbytes hport
  have haddr : addressText (scheme ++ rest) = rest.takeWhile (· ≠ slash) := by
    have hnot := hform.not_unix hbytes
    unfold addressText at hnot ⊢
    rw [withoutScheme_schemed hscheme] at hnot ⊢
    dsimp only at hnot ⊢
    split at hnot
    · rename_i hpre
      exact absurd hpre hnot
    rename_i hpre
    rw [if_neg hpre]
  rw [haddr] at hends hat hform
  have hurl : urlHost (scheme ++ rest) = host.map lower := by
    conv_lhs => rw [← List.takeWhile_append_dropWhile (p := (· ≠ slash)) (l := rest)]
    rw [urlHost_schemed hscheme hends hat (endsAuthority_dropWhile rest), hform.hostOf]
  have hgate : host.map lower = [] ∨ host.map lower = bytes "localhost" ∨
      host.map lower = bytes "::1" ∨ bytes "127." <+: host.map lower := by
    unfold upstreamOffHost at hoff
    rw [if_neg (unix_not_schemed hscheme rest), hurl] at hoff
    by_cases hnil : host.map lower = []
    · exact .inl hnil
    rw [if_neg hnil] at hoff
    simp only [Bool.not_eq_false', Bool.or_eq_true, decide_eq_true_eq, or_assoc] at hoff
    exact .inr hoff
  have hlocal := loopback_of_local hdoc hmake hz hgate
  simp [UpstreamAddress.local_, hhost, hip, hlocal]

/-! ## §6. The host of a redirect. -/

/-- A host without the brackets of an IPv6 literal. -/
def bareHost (host : Bytes) : Bytes :=
  if host.head? = some openBracket then (host.drop 1).dropLast else host

/-- The host `compile_to` reads in a target that names one. -/
def redirectHost (text : Bytes) : Option Bytes :=
  let scheme := if bytes "https://" <+: text then bytes "https://"
    else if bytes "http://" <+: text then bytes "http://" else []
  if scheme = [] then none
  else
    let rest := text.drop scheme.length
    match splitAuthority (rest.takeWhile fun c => c ≠ slash && c ≠ question && c ≠ fragmentMark) with
    | .error _ => none
    | .ok (host, _) => some ((bareHost host).map lower)

theorem hostOf_splitAuthority {authority : Bytes}
    (h : splitAuthority authority = .ok (host, port)) (hport : ∀ c ∈ port, digit c = true) :
    hostOf authority = bareHost host := by
  unfold splitAuthority at h
  split at h
  · rename_i hopen
    obtain ⟨rest, rfl⟩ : ∃ rest, authority = openBracket :: rest := by
      cases authority with
      | nil => simp at hopen
      | cons c rest =>
        obtain rfl : c = openBracket := by simpa using hopen
        exact ⟨rest, rfl⟩
    split at h
    · simp at h
    dsimp only at h
    split at h
    · simp at h
    split at h
    · simp at h
    obtain ⟨hhost, -⟩ := Prod.mk.inj (Except.ok.inj h)
    have htake : (openBracket :: rest).takeWhile (fun x => decide (x ≠ 0x5d)) =
        openBracket :: rest.takeWhile (fun x => decide (x ≠ 0x5d)) := by
      rw [List.takeWhile_cons, if_pos (by decide)]
    rw [← hhost, htake]
    unfold hostOf bareHost
    rw [if_pos (by simp), if_pos (by simp), List.cons_append, List.drop_succ_cons,
      List.drop_succ_cons, List.drop_zero, List.drop_zero, List.dropLast_concat]
  · rename_i hopen
    dsimp only at h
    split at h
    · simp at h
    rename_i hgood
    obtain ⟨hhost, hp⟩ := Prod.mk.inj (Except.ok.inj h)
    have hne : host ≠ [] := by
      intro hnil
      rw [hhost, hnil] at hgood
      simp at hgood
    have hhead : host.head? ≠ some openBracket := by
      intro hh
      have hpre : host <+: authority := hhost ▸ List.takeWhile_prefix _
      obtain ⟨tail, rfl⟩ := hpre
      cases host with
      | nil => exact hne rfl
      | cons c host => exact hopen hh
    have hbare : bareHost host = host := by
      unfold bareHost
      rw [if_neg hhead]
    rw [hbare]
    unfold hostOf
    rw [if_neg hopen]
    by_cases hc : colon ∈ authority
    · rw [if_pos (by simpa using hc)]
      have hcut := eq_takeWhile_ne hc
      rw [hp, hhost] at hcut
      rw [hcut]
      refine beforeLast_append host fun hmem => ?_
      cases hport colon hmem
    · rw [if_neg (by simpa using hc), ← hhost]
      refine (List.takeWhile_eq_self_iff.mpr fun c hmem => ?_).symm
      have hneq : c ≠ colon := by
        rintro rfl
        exact hc hmem
      simpa using hneq

theorem compileTo_origin {target : Target} (h : compileTo text = .ok target) :
    ∃ rest, splitOrigin text = .ok (target.origin, rest) := by
  unfold compileTo at h
  split at h
  · simp at h
  split at h
  · simp at h
  split at h
  · simp at h
  rename_i origin rest hsplit
  dsimp only at h
  split at h
  · simp at h
  split at h
  · simp at h
  split at h
  · cases h
    exact ⟨rest, hsplit⟩
  · simp at h

/-- The authority at the front of a text. -/
def authorityOf (rest : Bytes) : Bytes :=
  rest.takeWhile fun c => c ≠ slash && c ≠ question && c ≠ fragmentMark

theorem authorityOf_split (rest : Bytes) :
    ∃ tail, rest = authorityOf rest ++ tail ∧ (∀ c ∈ authorityOf rest, endsAuthority c = false) ∧
      tail.head?.all endsAuthority = true := by
  refine ⟨rest.dropWhile fun c => c ≠ slash && c ≠ question && c ≠ fragmentMark,
    (List.takeWhile_append_dropWhile ..).symm, ?_, ?_⟩
  · intro c hc
    have hp := List.mem_takeWhile_imp hc
    simpa [endsAuthority, and_assoc] using hp
  · induction rest with
    | nil => rfl
    | cons c rest ih =>
      by_cases hc : endsAuthority c = true
      · have hstop : ¬ (c ≠ slash && c ≠ question && c ≠ fragmentMark : Bool) = true := by
          intro hgo
          simp only [endsAuthority, Bool.or_eq_true, decide_eq_true_eq] at hc
          simp only [ne_eq, Bool.and_eq_true, decide_eq_true_eq] at hgo
          tauto
        rw [List.dropWhile_cons, if_neg hstop]
        simpa using hc
      · have hgo : (c ≠ slash && c ≠ question && c ≠ fragmentMark : Bool) = true := by
          simpa [endsAuthority, and_assoc] using hc
        rw [List.dropWhile_cons, if_pos hgo]
        exact ih

/-- The scheme both find in front of a text. -/
def schemeOf (text : Bytes) : Bytes :=
  if bytes "https://" <+: text then bytes "https://"
  else if bytes "http://" <+: text then bytes "http://" else []

theorem schemeOf_split (h : schemeOf text ≠ []) :
    Scheme (schemeOf text) ∧ text = schemeOf text ++ text.drop (schemeOf text).length := by
  unfold schemeOf at h ⊢
  split
  · rename_i hpre
    refine ⟨.inr rfl, ?_⟩
    obtain ⟨rest, rfl⟩ := hpre
    rw [List.drop_left]
  · rename_i hno
    rw [if_neg hno] at h
    split
    · rename_i hpre
      refine ⟨.inl rfl, ?_⟩
      obtain ⟨rest, rfl⟩ := hpre
      rw [List.drop_left]
    · rename_i hno'
      exact absurd (by rw [if_neg hno']) h

/-- A target with an origin is a scheme, an authority of a host and a port, and the rest. -/
theorem splitOrigin_ok {origin rest : Bytes} (h : splitOrigin text = .ok (origin, rest)) (hne : origin ≠ []) :
    ∃ scheme authority tail host port, Scheme scheme ∧ text = scheme ++ (authority ++ tail) ∧
      (∀ c ∈ authority, endsAuthority c = false) ∧ atSign ∉ authority ∧
      tail.head?.all endsAuthority = true ∧ splitAuthority authority = .ok (host, port) ∧
      (∀ c ∈ port, digit c = true) ∧ redirectHost text = some ((bareHost host).map lower) := by
  have hread : redirectHost text = if schemeOf text = [] then none else
      match splitAuthority (authorityOf (text.drop (schemeOf text).length)) with
      | .error _ => none
      | .ok (host, _) => some ((bareHost host).map lower) := rfl
  unfold splitOrigin at h
  rw [show (if bytes "https://" <+: text then bytes "https://"
    else if bytes "http://" <+: text then bytes "http://" else []) = schemeOf text from rfl] at h
  dsimp only at h
  by_cases hscheme : schemeOf text = []
  · -- a path of the site has no origin
    rw [if_neg (by simpa using hscheme)] at h
    split at h
    · simp at h
    split at h
    · simp at h
    · exact absurd (Prod.mk.inj (Except.ok.inj h)).1.symm hne
  · obtain ⟨hs, htext⟩ := schemeOf_split hscheme
    obtain ⟨tail, hrest, hends, htail⟩ := authorityOf_split (text.drop (schemeOf text).length)
    rw [if_pos hscheme] at h
    rw [show (text.drop (schemeOf text).length).takeWhile
      (fun c => c ≠ slash && c ≠ question && c ≠ fragmentMark) =
        authorityOf (text.drop (schemeOf text).length) from rfl] at h
    generalize authorityOf (text.drop (schemeOf text).length) = authority at h hrest hends hread
    rw [if_neg hscheme] at hread
    split at h
    · simp at h
    split at h
    · simp at h
    rename_i hat
    split at h
    · simp at h
    rename_i host port hauth
    split at h
    · simp at h
    rename_i hport
    rw [hauth] at hread
    refine ⟨schemeOf text, authority, tail, host, port, hs, ?_, hends, by simpa using hat,
      htail, hauth, ?_, hread⟩
    · rw [← hrest]
      exact htext
    · intro c hc
      have hnonempty : port ≠ [] := List.ne_nil_of_mem hc
      by_contra hno
      refine hport ?_
      have hall : port.all digit = false := by
        rw [List.all_eq_false]
        exact ⟨c, hc, by simpa using hno⟩
      simp [hnonempty, hall]

/-- The gate reads the host of a redirect as the loader does. -/
theorem urlHost_redirect {target : Target} (h : compileTo text = .ok target)
    (hne : target.origin ≠ []) : redirectHost text = some (urlHost text) := by
  obtain ⟨rest, hsplit⟩ := compileTo_origin h
  obtain ⟨scheme, authority, tail, host, port, hs, htext, hends, hat, htail, hauth, hport, hread⟩ :=
    splitOrigin_ok hsplit hne
  rw [hread, htext, urlHost_schemed hs hends hat htail, hostOf_splitAuthority hauth hport]

/-! ## §7. What a request leaves. -/

/-- `string_list`. -/
def stringList (v : Value) : List Bytes := (if v.isText then [v.str] else []) ++ textsOf v

/-- A list without rules clears them. -/
def clears (v : Value) : Bool :=
  match v with
  | .null => true
  | .array [] => true
  | _ => false

/-- What `apply_request` does with the names, the upstream and the redirects. -/
def applyFields (body : Value) (spec : SiteSpec) : SiteSpec where
  domain := if body.hasKey "domain" then body.get "domain" else spec.domain
  aliases := if body.hasKey "aliases" then stringList (body.field "aliases") else spec.aliases
  upstream := if body.hasKey "upstream" then body.get "upstream" else spec.upstream
  redirects :=
    if body.hasKey "redirects" then
      if clears (body.field "redirects") then .null else body.field "redirects"
    else spec.redirects

/-- The site before the request; none yet for a new one. -/
def Command.before : Command → SiteSpec
  | create => { domain := [], aliases := [], upstream := [], redirects := .null }
  | update before _ => before

/-- The site after it. -/
def Command.after (cmd : Command) (body : Value) : SiteSpec := applyFields body cmd.before

def SiteSpec.names (s : SiteSpec) : List Bytes := s.domain :: s.aliases

/-- `apply_request` takes the names. -/
def NamesAccepted (cmd : Command) (body : Value) : Prop :=
  ∀ n ∈ (cmd.after body).names, validDomain n = true

instance (cmd : Command) (body : Value) : Decidable (NamesAccepted cmd body) :=
  inferInstanceAs (Decidable (∀ n ∈ (cmd.after body).names, validDomain n = true))

section Names

variable (asio : Literals) (where_ : Bytes)

/-- The addresses an upstream value has. -/
def readAddresses (upstream : Bytes) : List UpstreamAddress :=
  match parseUpstreams asio where_ [upstream] with
  | .ok addrs => addrs
  | .error _ => []

/-- Visitors are sent nowhere new off the host: an address the site did not have is local, and a
    redirect to an origin names the site, or was there. -/
def StaysOnHost (cmd : Command) (body : Value) : Prop :=
  (∀ a ∈ readAddresses asio where_ (cmd.after body).upstream,
    a ∈ readAddresses asio where_ cmd.before.upstream ∨ a.local_ = true) ∧
  ∀ rule ∈ (cmd.after body).redirects.items, ∀ target,
    compileTo (rule.get "to") = .ok target → target.origin ≠ [] →
      (∃ host, redirectHost (rule.get "to") = some host ∧
        hasName (cmd.after body).names host = true) ∨
      hadRule cmd.before.redirects rule = true

/-- A host that is the site's before the request and not after it. -/
def Lost (cmd : Command) (body : Value) (host : Bytes) : Prop :=
  hasName cmd.before.names host = true ∧ hasName (cmd.after body).names host = false

/-- A new site's upstream has a scheme and no zone, or local addresses only; and a redirect to an
    origin has a host, and not one the request takes from the site. -/
def Plain (cmd : Command) (body : Value) : Prop :=
  (cmd = .create → ∀ up, body.field "upstream" = .text up →
    Schemed up ∨ ∀ a ∈ readAddresses asio where_ up, a.local_ = true) ∧
  ∀ rule ∈ (body.field "redirects").items, ∀ target,
    compileTo (rule.get "to") = .ok target → target.origin ≠ [] →
      (∃ host, redirectHost (rule.get "to") = some host ∧ host ≠ [] ∧ ¬ Lost cmd body host) ∨
      hadRule cmd.before.redirects rule = true

/-- The gate asks about an upstream. -/
def AsksUpstream (up : Bytes) : Command → Prop
  | .create => upstreamOffHost up = true
  | .update before seen => seen = false ∨ up ≠ before.upstream

/-- Something in the request waits for a person already. -/
def Asked (cmd : Command) (body : Value) (others logs : List Bytes) : Prop :=
  others ≠ [] ∨ logs ≠ [] ∨
  (∃ up, body.field "upstream" = .text up ∧ AsksUpstream up cmd) ∨
  ∃ rule ∈ (body.field "redirects").items, asksRedirect cmd body rule = true

end Names

theorem upstreamReasons_nil (cmd : Command) (body : Value) : upstreamReasons cmd body = [] ↔
    ¬ ∃ up, body.field "upstream" = .text up ∧ AsksUpstream up cmd := by
  unfold upstreamReasons
  cases hf : body.field "upstream" with
  | text up =>
    cases cmd with
    | create => cases hoff : upstreamOffHost up <;> simp [hoff, AsksUpstream]
    | update before seen =>
      cases seen with
      | false => simp [Command.current, AsksUpstream]
      | true => simp [Command.current, AsksUpstream]
  | null => simp
  | boolean => simp
  | number => simp
  | array => simp
  | object => simp

theorem approvalReasons_nil (cmd : Command) (body : Value) (others logs : List Bytes) :
    approvalReasons cmd body others logs = [] ↔ ¬ Asked cmd body others logs := by
  unfold approvalReasons Asked redirectReasons
  rw [List.map_eq_nil_iff, List.append_eq_nil_iff, List.append_eq_nil_iff, List.append_eq_nil_iff,
    List.map_eq_nil_iff, List.filter_eq_nil_iff, upstreamReasons_nil]
  simp only [not_or, not_exists, not_and, ne_eq, not_not]
  tauto

theorem hasName_iff (names : List Bytes) (host : Bytes) :
    hasName names host = true ↔ ∃ n ∈ names, n.map lower = host.map lower := by
  simp [hasName]

/-- The gate knows the names before the request, and those it gives. -/
theorem hasName_siteNames (hne : host ≠ []) (h : hasName (siteNames cmd body) host = true) :
    hasName cmd.before.names host = true ∨ hasName (cmd.after body).names host = true := by
  obtain ⟨n, hn, heq⟩ := (hasName_iff _ _).mp h
  unfold siteNames at hn
  rw [List.mem_append, List.mem_append] at hn
  obtain (hn | hn) | hn := hn
  · left
    refine (hasName_iff _ _).mpr ⟨n, ?_, heq⟩
    cases cmd with
    | create => simp [Command.current] at hn
    | update before seen =>
      cases seen with
      | false => simp [Command.current] at hn
      | true => exact hn
  · cases cmd with
    | update before seen => simp at hn
    | create =>
      right
      obtain rfl : n = body.get "domain" := by simpa using hn
      refine (hasName_iff _ _).mpr ⟨_, ?_, heq⟩
      by_cases hk : body.hasKey "domain" = true
      · simp [SiteSpec.names, Command.after, applyFields, hk]
      -- without a domain the name is empty
      exfalso
      have hnull : body.get "domain" = [] := by
        cases hf : body.field "domain" with
        | null => simp [Value.get, hf, Value.str]
        | text s => simp [Value.hasKey, hf, Value.isNull] at hk
        | _ => simp [Value.get, hf, Value.str]
      rw [hnull] at heq
      exact hne (by simpa using heq.symm)
  · right
    refine (hasName_iff _ _).mpr ⟨n, ?_, heq⟩
    have hk : body.hasKey "aliases" = true := by
      cases hf : body.field "aliases" with
      | null => simp [hf, textsOf, Value.items] at hn
      | _ => simp [Value.hasKey, hf, Value.isNull]
    simp [SiteSpec.names, Command.after, applyFields, hk, stringList, hn]

theorem readAddresses_nil (asio : Literals) (where_ : Bytes) : readAddresses asio where_ [] = [] := by
  simp [readAddresses, parseUpstreams, memberLoop, readMember, parseUpstreamAddress, withoutScheme, bytes]

theorem mem_readAddresses {asio : Literals} {where_ up : Bytes} (h : a ∈ readAddresses asio where_ up) :
    ∃ rewrite, readMember asio where_ up = .ok (a, rewrite) := by
  unfold readAddresses at h
  split at h
  · rename_i addrs hparse
    obtain ⟨a', rewrite, hread, rfl⟩ := parseUpstreams_one hparse
    obtain rfl := List.mem_singleton.mp h
    exact ⟨rewrite, hread⟩
  · simp at h

/-- The upstream after a request: the one before, the text it gives, or none. -/
theorem after_upstream (cmd : Command) (body : Value) : (cmd.after body).upstream = cmd.before.upstream ∨
      (∃ up, body.field "upstream" = .text up ∧ (cmd.after body).upstream = up) ∨
      (cmd.after body).upstream = [] := by
  show (if body.hasKey "upstream" then body.get "upstream" else cmd.before.upstream) = _ ∨
    (∃ up, _ ∧ (if body.hasKey "upstream" then body.get "upstream" else cmd.before.upstream) = up) ∨
    (if body.hasKey "upstream" then body.get "upstream" else cmd.before.upstream) = []
  cases hf : body.field "upstream" with
  | null => simp [Value.hasKey, hf, Value.isNull]
  | text up => simp [Value.hasKey, Value.get, hf, Value.isNull]
  | _ => simp [Value.hasKey, Value.get, hf, Value.isNull, Value.str]

/-- A redirect after a request is one it gives, or one from before. -/
theorem mem_after_redirects (h : rule ∈ (cmd.after body).redirects.items) :
    rule ∈ (body.field "redirects").items ∨ rule ∈ cmd.before.redirects.items := by
  have hr : (cmd.after body).redirects =
      if body.hasKey "redirects" then
        if clears (body.field "redirects") then .null else body.field "redirects"
      else cmd.before.redirects := rfl
  rw [hr] at h
  split at h
  · split at h
    · simp [Value.items] at h
    · exact .inl h
  · exact .inr h

theorem mem_given_redirects
    (h : rule ∈ (body.field "redirects").items) : rule ∈ (cmd.after body).redirects.items := by
  have hr : (cmd.after body).redirects =
      if body.hasKey "redirects" then
        if clears (body.field "redirects") then .null else body.field "redirects"
      else cmd.before.redirects := rfl
  cases hf : body.field "redirects" with
  | array items =>
    rw [hf] at h
    cases items with
    | nil => simp [Value.items] at h
    | cons r rest => simpa [hr, Value.hasKey, hf, Value.isNull, clears] using h
  | _ => simp [hf, Value.items] at h

theorem hadRule_of_mem {redirects : Value} (h : rule ∈ redirects.items) : hadRule redirects rule = true := by
  unfold hadRule
  rw [List.any_eq_true]
  exact ⟨rule, h, by simp⟩

/-- An upstream the gate does not ask about stays on the host, where it is plain. -/
theorem upstream_stays {asio : Literals} {where_ : Bytes} (hdoc : Documented asio)
    (hno : ∀ up, body.field "upstream" = .text up → ¬ AsksUpstream up cmd)
    (hplain : cmd = .create → ∀ up, body.field "upstream" = .text up →
      Schemed up ∨ ∀ a ∈ readAddresses asio where_ up, a.local_ = true)
    (ha : a ∈ readAddresses asio where_ (cmd.after body).upstream) :
    a ∈ readAddresses asio where_ cmd.before.upstream ∨ a.local_ = true := by
  obtain hsame | ⟨up, hf, hafter⟩ | hnil := after_upstream cmd body
  · exact .inl (hsame ▸ ha)
  · rw [hafter] at ha
    have hnoUp := hno up hf
    cases cmd with
    | update before seen =>
      -- a change of it is asked about
      have hsame : up = before.upstream := by
        by_contra hdiff
        exact hnoUp (.inr hdiff)
      exact .inl (hsame ▸ ha)
    | create =>
      right
      obtain hs | hall := hplain rfl up hf
      · obtain ⟨rewrite, hread⟩ := mem_readAddresses ha
        exact local_of_schemed hdoc hs (by simpa [AsksUpstream] using hnoUp) hread
      · exact hall a ha
  · rw [hnil, readAddresses_nil] at ha
    simp at ha

/-- A redirect the gate does not ask about names the site, or was there. -/
theorem redirect_stays
    (hhost : urlHost (rule.get "to") = host) (hne : host ≠ []) (hlost : ¬ Lost cmd body host)
    (hno : asksRedirect cmd body rule = false) :
    hasName (cmd.after body).names host = true ∨ hadRule cmd.before.redirects rule = true := by
  unfold asksRedirect at hno
  rw [hhost] at hno
  simp only [Bool.and_eq_false_iff, Bool.not_eq_false', Bool.or_eq_true, decide_eq_true_eq] at hno
  obtain (hnil | hname) | hhad := hno
  · exact absurd hnil hne
  · left
    obtain hbefore | hafter := hasName_siteNames hne hname
    · by_contra hno
      exact hlost ⟨hbefore, by simpa using hno⟩
    · exact hafter
  · right
    cases cmd with
    | create => simp [Command.current] at hhad
    | update before seen =>
      cases seen with
      | false => simp [Command.current] at hhad
      | true => exact hhad

/-- What stays on the host is plain. -/
theorem StaysOnHost.plain {asio : Literals} {where_ : Bytes}
    (hnames : NamesAccepted cmd body) (h : StaysOnHost asio where_ cmd body) :
    Plain asio where_ cmd body := by
  refine ⟨fun hc up hf => .inr fun a ha => ?_, fun rule hrule target hto hne => ?_⟩
  · -- a new site had no address before
    subst hc
    have hafter : (Command.create.after body).upstream = up := by
      simp [Command.after, applyFields, Value.hasKey, Value.get, hf, Value.isNull, Value.str]
    obtain hbefore | hlocal := h.1 a (by rw [hafter]; exact ha)
    · simp [Command.before, readAddresses_nil] at hbefore
    · exact hlocal
  · obtain ⟨host, hread, hname⟩ | hhad := h.2 rule (mem_given_redirects hrule) target hto hne
    · refine .inl ⟨host, hread, ?_, fun hlost => ?_⟩
      · -- every name has a byte
        rintro rfl
        obtain ⟨n, hn, heq⟩ := (hasName_iff _ _).mp hname
        have hnil : n = [] := by simpa using heq
        exact absurd (hnames n hn) (by rw [hnil]; decide)
      · simp [hlost.2] at hname
    · exact .inr hhad

/-- **Nobody is sent off the host unasked** exactly where something in the request waits for a
    person already, or what the gate and the loader read apart is not in it. -/
theorem off_host_waits {asio : Literals} {where_ : Bytes} {cmd : Command} {body : Value}
    (others logs : List Bytes) (hdoc : Documented asio) (hnames : NamesAccepted cmd body) :
    (approvalReasons cmd body others logs = [] → StaysOnHost asio where_ cmd body) ↔
      Asked cmd body others logs ∨ Plain asio where_ cmd body := by
  rw [approvalReasons_nil]
  constructor
  · intro h
    by_cases hasked : Asked cmd body others logs
    · exact .inl hasked
    · exact .inr ((h hasked).plain hnames)
  · intro h hasked
    obtain hasked' | ⟨hup, hred⟩ := h
    · exact absurd hasked' hasked
    refine ⟨fun a ha => upstream_stays hdoc ?_ hup ha, fun rule hrule target hto hne => ?_⟩
    · intro up hf hask
      exact hasked (.inr (.inr (.inl ⟨up, hf, hask⟩)))
    · obtain hgiven | hold := mem_after_redirects hrule
      · obtain ⟨host, hread, hne', hlost⟩ | hhad := hred rule hgiven target hto hne
        · have hno : asksRedirect cmd body rule = false := by
            by_contra hask
            exact hasked (.inr (.inr (.inr ⟨rule, hgiven, by simpa using hask⟩)))
          have hhost : urlHost (rule.get "to") = host := by
            have hboth := urlHost_redirect hto hne
            rw [hread] at hboth
            exact (Option.some.inj hboth).symm
          obtain hname | hhad := redirect_stays hhost hne' hlost hno
          · exact .inl ⟨host, hread, hname⟩
          · exact .inr hhad
        · exact .inr hhad
      · exact .inr (hadRule_of_mem hold)

/-- Two literals as they are read. -/
def twoLiterals : Literals where
  make := fun text =>
    if text = bytes "203.0.113.5" then some ⟨false, [203, 0, 113, 5], rfl⟩
    else if text = bytes "127.0.0.1" then some ⟨false, [127, 0, 0, 1], rfl⟩
    else none
  text := fun ip => [0x2e].intercalate (ip.bytes.map fun b => decimalText b.toNat)

theorem twoLiterals_documented : Documented twoLiterals := by
  have hcases : ∀ text ip, twoLiterals.make text = some ip →
      text = bytes "203.0.113.5" ∨ text = bytes "127.0.0.1" ∧ ip = ⟨false, [127, 0, 0, 1], rfl⟩ := by
    intro text ip h
    simp only [twoLiterals] at h
    split at h
    · rename_i ht
      exact .inl ht
    split at h
    · rename_i ht
      exact .inr ⟨ht, (Option.some.inj h).symm⟩
    · simp at h
  refine ⟨by decide, fun text ip h _ => ?_, fun text ip h _ hpre => ?_, fun ip h => ?_⟩
  · obtain rfl | ⟨rfl, -⟩ := hcases text ip h
    · exact forall_mem_of_all (by decide)
    · exact forall_mem_of_all (by decide)
  · obtain rfl | ⟨-, rfl⟩ := hcases text ip h
    · exact absurd hpre (by decide)
    · decide
  · have hnone : twoLiterals.make (bytes "::1") = none := by decide
    rw [hnone] at h
    simp at h

/-- A new proxy site of these members. -/
def newSite (members : List (String × Value)) : Value :=
  .object (("domain", .text (bytes "a.example")) :: ("app", .text (bytes "proxy")) :: members)

/-- To a path of the site, and to its own host. -/
def ownRedirects : List Value :=
  [.object [("from", .text (bytes "/a")), ("to", .text (bytes "/b"))],
    .object [("from", .text (bytes "/c")), ("to", .text (bytes "https://a.example/d"))]]

theorem off_host_waits_local : StaysOnHost twoLiterals (bytes "site.upstream") .create
      (newSite [("upstream", .text (bytes "http://127.0.0.1:3000/")), ("redirects", .array ownRedirects)]) := by
  refine (off_host_waits [] [] twoLiterals_documented (by decide)).mpr
    (.inr ⟨fun _ up hf => ?_, fun rule hrule target ht hne => ?_⟩) (by decide)
  · obtain rfl : bytes "http://127.0.0.1:3000/" = up := Value.text.inj hf
    exact .inl ⟨⟨bytes "http://", .inl rfl, by decide⟩, by decide⟩
  · rcases List.mem_pair.mp (show rule ∈ ownRedirects from hrule) with rfl | rfl
    · have hto : (compileTo (bytes "/b")).map (·.origin) = .ok [] := by decide +kernel
      rw [show compileTo (bytes "/b") = .ok target from ht] at hto
      exact absurd (Except.ok.inj hto) hne
    · exact .inl ⟨bytes "a.example", by decide, by decide, fun h => by cases h.1⟩

/-- An upstream without a scheme is served, and the gate reads no host in it. -/
theorem schemeless_upstream_unasked :
    ¬ ∀ (asio : Literals) (where_ : Bytes) (cmd : Command) (body : Value), Documented asio →
        NamesAccepted cmd body → approvalReasons cmd body [] [] = [] → StaysOnHost asio where_ cmd body := by
  intro hall
  have hstays := hall twoLiterals [] .create
    (newSite [("upstream", .text (bytes "203.0.113.5:8080"))]) twoLiterals_documented
    (by decide) (by decide)
  have haddr := hstays.1
    { host := some ⟨false, [203, 0, 113, 5], rfl⟩, port := 8080, key := bytes "203.0.113.5:8080" }
    (by decide)
  exact absurd haddr (by decide)

end Agensio.Control.OffHost
