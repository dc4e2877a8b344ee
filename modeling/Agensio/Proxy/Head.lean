/-
  Agensio.Proxy.Head — the head a proxied request is sent with.

  Model of `ProxyHandler::build_head` (`handlers/proxy.cpp`) and
  `HttpRequest::encode_head` (`upstream/http_client.cpp`).  Every
  `out.append(name).append(": ")…append("\r\n")` of the source is one field
  of a list, in the same order; `fieldLines` writes them out.  What the
  loader has checked of a configured name or value, and what an address or a
  user name is made of, are fields of the records.

  Main results:
    * `encodeHead_buildHead` — the text that goes to the origin is one
      request line and the fields that were decided on.
-/
import Agensio.Http1.Rendering

namespace Agensio.Proxy

open Agensio.Codec (Field)
open Agensio.Http1

/-! ## §1. The configuration and the request. -/

inductive HostPolicy where
  | pass
  | upstream
  | literal (name : Bytes)
  deriving DecidableEq

inductive ForwardedPolicy where
  | xForwarded
  | forwarded
  | both
  | off
  deriving DecidableEq

/-- `UpstreamConfig`, as far as the head is concerned; `authority` is `address.authority()`. -/
structure UpstreamConfig where
  host : HostPolicy := .pass
  forwarded : ForwardedPolicy := .xForwarded
  setHeaders : List Field := []
  upgrade : Bool := true
  authority : Bytes := []
  deriving DecidableEq

/-- `ConnectionInfo`.  Addresses are written by the address library. -/
structure Conn where
  trustedPeer : Bool := false
  remoteAddress : Bytes
  clientAddress : Bytes := []
  tls : Bool := true
  forwardedHttps : Bool := false
  localPort : Nat := 443
  remote_clean : noCtl remoteAddress = true
  client_clean : noCtl clientAddress = true

/-- `AuthState`: a field name of letters, digits and `-` that the loader accepts (it refuses
    Host among others), and a user name without control characters. -/
structure Auth where
  forwardField : Bytes := []
  user : Bytes := []
  field_token : forwardField = [] ∨ isToken forwardField = true
  field_not_host : iequals forwardField hostName = false
  user_clean : noCtl user = true

/-- The request, as far as its head to the origin goes. -/
structure Stream where
  request : Http.Request
  hasBody : Bool := false
  conn : Conn
  auth : Auth
  /-- The site compresses and keeps `Accept-Encoding` from the application. -/
  offload : Bool := false

/-! ## §2. The helpers. -/

/-- The first field of this name, or nothing. -/
def get (fs : List Field) (name : Bytes) : Bytes :=
  ((fs.find? fun f => iequals f.1 name).map Prod.snd).getD []

def isHopByHop (name : Bytes) : Bool :=
  [bytes "connection", bytes "keep-alive", bytes "proxy-connection", bytes "te", bytes "trailer",
    bytes "transfer-encoding", bytes "upgrade", bytes "content-length"].any fun h => iequals name h

def connectionLists (list name : Bytes) : Bool :=
  (list.splitOn comma).any fun token => iequals (trim token) name

inductive AddressClaim where
  | none
  | realIp
  | cdn
  deriving DecidableEq

def kClaimFields : List (Bytes × AddressClaim) :=
  [(bytes "x-real-ip", .realIp), (bytes "client-ip", .cdn), (bytes "x-client-ip", .cdn),
    (bytes "x-forwarded", .cdn), (bytes "forwarded-for", .cdn), (bytes "true-client-ip", .cdn),
    (bytes "cf-pseudo-ipv4", .cdn), (bytes "x-plausible-ip", .cdn), (bytes "b-forwarded-for", .cdn),
    (bytes "cf-connecting-ip", .cdn), (bytes "fastly-client-ip", .cdn), (bytes "do-connecting-ip", .cdn),
    (bytes "cf-connecting-ipv6", .cdn), (bytes "x-cluster-client-ip", .cdn),
    (bytes "x-appengine-user-ip", .cdn), (bytes "x-nf-client-connection-ip", .cdn)]

def addressClaim (name : Bytes) : AddressClaim :=
  ((kClaimFields.find? fun f => iequals name f.1).map Prod.snd).getD .none

abbrev dollar : UInt8 := 0x24

namespace Stream

def client (s : Stream) : Bytes :=
  if s.conn.clientAddress.isEmpty then s.conn.remoteAddress else s.conn.clientAddress

def scheme (s : Stream) : Bytes :=
  if s.conn.tls || s.conn.forwardedHttps then bytes "https" else bytes "http"

/-- The names `expand` knows, in the order it tries them. -/
def expansions (s : Stream) : List (Bytes × Bytes) :=
  [(bytes "$host", s.request.host), (bytes "$remote_addr", s.client), (bytes "$scheme", s.scheme),
    (bytes "$server_name", s.request.host), (bytes "$server_port", decimalText s.conn.localPort)]

/-- `expand`, for at most `fuel` bytes of the value. -/
def expandFrom (s : Stream) : Nat → Bytes → Bytes
  | 0, _ => []
  | _ + 1, [] => []
  | fuel + 1, c :: cs =>
    if c ≠ dollar then c :: s.expandFrom fuel cs
    else
      match s.expansions.find? fun x => x.1.isPrefixOf (c :: cs) with
      | some x => x.2 ++ s.expandFrom fuel ((c :: cs).drop x.1.length)
      | none => dollar :: s.expandFrom fuel cs

def expand (s : Stream) (value : Bytes) : Bytes := s.expandFrom value.length value

end Stream

/-- RFC 7239 wants an IPv6 address in brackets and quotes. -/
def forwardedFor (addr : Bytes) : Bytes :=
  if addr.contains colon then bytes "\"[" ++ addr ++ bytes "]\"" else addr

/-- `append_lines`: the values of a field that was sent on several lines. -/
def appendLines (fs : List Field) (name : Bytes) : Bytes :=
  fs.flatMap fun f => if iequals f.1 name && !f.2.isEmpty then f.2 ++ bytes ", " else []

/-! ## §3. The head. -/

namespace UpstreamConfig

variable (p : UpstreamConfig) (s : Stream)

def configured (name : Bytes) : Bool := p.setHeaders.any fun h => iequals h.1 name

def xForwarded : Bool := p.forwarded = .xForwarded || p.forwarded = .both
def rfcForwarded : Bool := p.forwarded = .forwarded || p.forwarded = .both

def upgrading : Bool :=
  p.upgrade && !(get s.request.headers (bytes "upgrade")).isEmpty && !s.hasBody &&
    connectionLists (get s.request.headers (bytes "connection")) (bytes "upgrade")

/-- A field of the client that is left out before its name is compared with any other. -/
def leftOut (name : Bytes) : Bool :=
  let connection := get s.request.headers (bytes "connection")
  isHopByHop name || iequals name (bytes "expect") ||
    (!connection.isEmpty && connectionLists connection name) ||
    name.contains 0x5f || p.configured name || (s.offload && iequals name (bytes "accept-encoding"))

end UpstreamConfig

/-- The variables of the loop over the client's fields. -/
structure Loop where
  out : List Field := []
  xfh : Bytes := []
  xffLines : Bool := false
  forwardedLines : Bool := false
  cookieSent : Bool := false
  deriving DecidableEq

abbrev cookieName : Bytes := bytes "cookie"
abbrev xffName : Bytes := bytes "x-forwarded-for"
abbrev xfhName : Bytes := bytes "x-forwarded-host"
abbrev forwardedName : Bytes := bytes "forwarded"

/-- The other crumbs behind the first one. -/
def crumbs (fs : List Field) : Bytes :=
  fs.flatMap fun g => if iequals g.1 cookieName then bytes "; " ++ g.2 else []

/-- A client that names its own address is not believed. -/
def claims (trusted : Bool) (name : Bytes) : Bool :=
  addressClaim name = .realIp || (addressClaim name = .cdn && !trusted)

namespace UpstreamConfig

variable (p : UpstreamConfig) (s : Stream)

def headLoop : List Field → Loop → Loop
  | [], l => l
  | (n, v) :: rest, l =>
    if p.leftOut s n then headLoop rest l
    else if iequals n cookieName then
      if l.cookieSent then headLoop rest l
      else headLoop rest { l with cookieSent := true, out := l.out ++ [(n, v ++ crumbs rest)] }
    else if iequals n hostName then
      if p.host = .pass then headLoop rest { l with out := l.out ++ [(bytes "Host", v)] }
      else headLoop rest l
    else if iequals n xffName then headLoop rest { l with xffLines := s.conn.trustedPeer }
    else if iequals n xfhName then
      if s.conn.trustedPeer then headLoop rest { l with xfh := v } else headLoop rest l
    else if iequals n (bytes "x-forwarded-proto") || iequals n (bytes "x-forwarded-port") then
      headLoop rest l
    else if iequals n forwardedName then headLoop rest { l with forwardedLines := s.conn.trustedPeer }
    else if claims s.conn.trustedPeer n then headLoop rest l
    else headLoop rest { l with out := l.out ++ [(n, v)] }

def hostLine : List Field :=
  if p.configured hostName then []
  else
    match p.host with
    | .upstream => [(bytes "Host", p.authority)]
    | .literal name => [(bytes "Host", name)]
    | .pass =>
      if (get s.request.headers hostName).isEmpty && !s.request.host.isEmpty then
        [(bytes "Host", s.request.host)] else []

/-- The host to tell: the one a trusted proxy told, or the request's own. -/
def told (xfh : Bytes) : Bytes := if xfh.isEmpty then s.request.host else xfh

def xffLine (xffLines : Bool) : List Field :=
  if p.configured xffName then []
  else [(bytes "X-Forwarded-For",
    (if xffLines then appendLines s.request.headers xffName else []) ++ s.conn.remoteAddress)]

def protoLine : List Field :=
  if p.configured (bytes "x-forwarded-proto") then [] else [(bytes "X-Forwarded-Proto", s.scheme)]

def xfhLine (xfh : Bytes) : List Field :=
  if !(told s xfh).isEmpty && (p.host ≠ .pass || !xfh.isEmpty) && !p.configured xfhName then
    [(bytes "X-Forwarded-Host", told s xfh)] else []

def forwardedLine (forwardedLines : Bool) (xfh : Bytes) : List Field :=
  if p.rfcForwarded && !p.configured forwardedName then
    [(bytes "Forwarded",
      (if forwardedLines then appendLines s.request.headers forwardedName else []) ++
        bytes "for=" ++ forwardedFor s.conn.remoteAddress ++ bytes ";proto=" ++ s.scheme ++
        if (told s xfh).isEmpty then [] else bytes ";host=" ++ told s xfh)]
  else []

def realIpLine : List Field :=
  if p.forwarded ≠ .off && !p.configured (bytes "x-real-ip") then
    [(bytes "X-Real-IP", s.client)] else []

def userLine : List Field :=
  if !s.auth.forwardField.isEmpty && !s.auth.user.isEmpty && !p.configured s.auth.forwardField then
    [(s.auth.forwardField, s.auth.user)] else []

/-- The configured fields; an empty value removes. -/
def setLines : List Field :=
  (p.setHeaders.filter fun h => !h.2.isEmpty).map fun h => (h.1, s.expand h.2)

/-- The fields of the head, in the order they are written. -/
def headFields : List Field :=
  let l := p.headLoop s s.request.headers {}
  (if p.upgrading s then [(bytes "Upgrade", get s.request.headers (bytes "upgrade"))] else []) ++
    l.out ++ p.hostLine s ++
    (if p.xForwarded then p.xffLine s l.xffLines ++ p.protoLine s ++ p.xfhLine s l.xfh else []) ++
    p.forwardedLine s l.forwardedLines l.xfh ++ p.realIpLine s ++ p.userLine s ++ p.setLines s

/-- `build_head`; whether the request upgrades is `upgrading`. -/
def buildHead (target : Bytes) : Bytes :=
  requestText s.request.methodName target ++ crlf ++ fieldLines (p.headFields s)

end UpstreamConfig

/-- `UpstreamBodyInput` and the options that `encode_head` reads. -/
structure Outgoing where
  stream : Bool := false
  sizeKnown : Bool := false
  spillOpen : Bool := false
  memory : Bytes := []
  size : Nat := 0
  upgrade : Bool := false
  keepConn : Bool := true
  deriving DecidableEq

namespace Outgoing

def haveBody (b : Outgoing) : Bool := b.stream || b.spillOpen || !b.memory.isEmpty || b.size > 0

/-- The framing of what is sent, and the fate of the connection. -/
def framingFields (b : Outgoing) (head : Bytes) : List Field :=
  (if !b.stream || b.sizeKnown then
    if b.haveBody || b.size > 0 || (bytes "POST").isPrefixOf head || (bytes "PUT").isPrefixOf head ||
        (bytes "PATCH").isPrefixOf head then
      [(bytes "Content-Length", decimalText b.size)] else []
  else [(bytes "Transfer-Encoding", bytes "chunked")]) ++
  if b.upgrade then [(bytes "Connection", bytes "Upgrade")]
  else if b.keepConn then [] else [(bytes "Connection", bytes "close")]

/-- `encode_head`. -/
def encodeHead (b : Outgoing) (head : Bytes) : Bytes :=
  head ++ fieldLines (b.framingFields head) ++ crlf

end Outgoing

/-- All the fields of the head that reaches the origin. -/
def sentFields (p : UpstreamConfig) (s : Stream) (target : Bytes) (b : Outgoing) : List Field :=
  p.headFields s ++ b.framingFields (p.buildHead s target)

theorem fieldLines_append (fs gs : List Field) :
    fieldLines (fs ++ gs) = fieldLines fs ++ fieldLines gs := List.flatMap_append

/-- **One request line, and the fields that were decided on.** -/
theorem encodeHead_buildHead (p : UpstreamConfig) (s : Stream) (target : Bytes) (b : Outgoing) :
    b.encodeHead (p.buildHead s target) = headText s.request.methodName target (sentFields p s target b) := by
  unfold Outgoing.encodeHead headText sentFields
  rw [fieldLines_append, show p.buildHead s target =
    requestText s.request.methodName target ++ crlf ++ fieldLines (p.headFields s) from rfl]
  simp only [List.append_assoc]

end Agensio.Proxy
