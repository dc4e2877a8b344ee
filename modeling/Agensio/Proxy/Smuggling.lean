/-
  Agensio.Proxy.Smuggling — what a client of HTTP/2 or HTTP/3 can write to an origin.

  The head `build_head` and `encode_head` write for the request of an
  accepted section is one HTTP/1.1 head exactly when the values that reach it
  are clean.  Nothing between the decoder and the head looks at `:method`,
  `:authority` or the query of `:path`, so this is a condition and not a law.

  Main results:
    * `forwarded_as_meant_iff` — the same for a section, and for redirects.
-/
import Agensio.Http.Redirect
import Agensio.Proxy.Assembled

namespace Agensio.Proxy

open Agensio.Codec (Field)
open Agensio.Http
open Agensio.Http1

/-! ## §1. The loop over the client's fields. -/

section Loop

variable {p : UpstreamConfig} {s : Stream} {hs : List Field} {l : Loop}

/-- The other names the loop knows, which are not passed on as they are. -/
def isOwn (trusted : Bool) (name : Bytes) : Bool :=
  iequals name xffName || iequals name xfhName || iequals name (bytes "x-forwarded-proto") ||
    iequals name (bytes "x-forwarded-port") || iequals name forwardedName || claims trusted name

/-- The line a field of the client becomes, when it is the only cookie. -/
def UpstreamConfig.line (p : UpstreamConfig) (s : Stream) (f : Field) : Option Field :=
  if p.leftOut s f.1 then none
  else if iequals f.1 cookieName then some f
  else if iequals f.1 hostName then if p.host = .pass then some (bytes "Host", f.2) else none
  else if isOwn s.conn.trustedPeer f.1 then none
  else some f

/-- The lines of the head that come from the client's fields; `sent` once the cookies are. -/
def UpstreamConfig.clientLines (p : UpstreamConfig) (s : Stream) : Bool → List Field → List Field
  | _, [] => []
  | sent, f :: rest =>
    if p.leftOut s f.1 then clientLines p s sent rest
    else if iequals f.1 cookieName then
      if sent then clientLines p s sent rest else (f.1, f.2 ++ crumbs rest) :: clientLines p s true rest
    else if iequals f.1 hostName then
      (if p.host = .pass then [(bytes "Host", f.2)] else []) ++ clientLines p s sent rest
    else if isOwn s.conn.trustedPeer f.1 then clientLines p s sent rest
    else f :: clientLines p s sent rest

/-- A field that one of the flags is for. -/
def UpstreamConfig.met (p : UpstreamConfig) (s : Stream) (name : Bytes) (f : Field) : Bool :=
  iequals f.1 name && !p.leftOut s f.1

section Met

variable {n v k : Bytes} {rest : List Field}

theorem met_of_leftOut (h : p.leftOut s n = true) : p.met s k (n, v) = false := by
  unfold UpstreamConfig.met
  rw [h, Bool.not_true, Bool.and_false]

theorem met_of_not_named (h : iequals n k = false) : p.met s k (n, v) = false := by
  unfold UpstreamConfig.met
  rw [h, Bool.false_and]

/-- A name that is another one. -/
theorem met_of_named {k' : Bytes} (h : iequals n k' = true) (hk : k'.map lower ≠ k.map lower) :
    p.met s k (n, v) = false := met_of_not_named (Scan.not_iequals h hk)

theorem met_self (h : iequals n k = true) (hl : ¬ p.leftOut s n = true) : p.met s k (n, v) = true := by
  unfold UpstreamConfig.met
  rw [h, Bool.eq_false_iff.mpr hl]
  rfl

/-- What one field of the client does to the loop: its lines, and the flag it is for. -/
structure Took (p : UpstreamConfig) (s : Stream) (f : Field) (rest : List Field) (l l' : Loop) : Prop where
  lines : l'.out ++ p.clientLines s l'.cookieSent rest = l.out ++ p.clientLines s l.cookieSent (f :: rest)
  xffLines : l'.xffLines = if p.met s xffName f then s.conn.trustedPeer else l.xffLines
  forwardedLines : l'.forwardedLines =
    if p.met s forwardedName f then s.conn.trustedPeer else l.forwardedLines
  xfh : l'.xfh = if p.met s xfhName f && s.conn.trustedPeer then f.2 else l.xfh

/-- A field that no flag is for. -/
theorem Took.other {f : Field} {l' : Loop} (hx : p.met s xffName f = false)
    (hf : p.met s forwardedName f = false) (hh : p.met s xfhName f = false)
    (hflags : (l'.xffLines, l'.forwardedLines, l'.xfh) = (l.xffLines, l.forwardedLines, l.xfh))
    (hlines : l'.out ++ p.clientLines s l'.cookieSent rest =
      l.out ++ p.clientLines s l.cookieSent (f :: rest)) : Took p s f rest l l' := by
  rw [Prod.mk.injEq, Prod.mk.injEq] at hflags
  refine ⟨hlines, ?_, ?_, ?_⟩
  · rw [hx, hflags.1]
    rfl
  · rw [hf, hflags.2.1]
    rfl
  · rw [hh, hflags.2.2]
    rfl

theorem headLoop_round (p : UpstreamConfig) (s : Stream) (n v : Bytes) (rest : List Field) (l : Loop) :
    ∃ l', p.headLoop s ((n, v) :: rest) l = p.headLoop s rest l' ∧ Took p s (n, v) rest l l' := by
  rw [UpstreamConfig.headLoop]
  split
  · next hleft =>
    exact ⟨l, rfl, .other (met_of_leftOut hleft) (met_of_leftOut hleft) (met_of_leftOut hleft) rfl
      (by simp [UpstreamConfig.clientLines, hleft])⟩
  next hleft =>
  split
  · next hcookie =>
    split
    all_goals
      next hsent =>
      exact ⟨_, rfl, .other (met_of_named hcookie (by decide)) (met_of_named hcookie (by decide))
        (met_of_named hcookie (by decide)) rfl (by simp [UpstreamConfig.clientLines, hleft, hcookie, hsent])⟩
  next hcookie =>
  split
  · next hhost =>
    split
    all_goals
      next hpass =>
      exact ⟨_, rfl, .other (met_of_named hhost (by decide)) (met_of_named hhost (by decide))
        (met_of_named hhost (by decide)) rfl (by simp [UpstreamConfig.clientLines, hleft, hcookie, hhost, hpass])⟩
  next hhost =>
  split
  · next hxff =>
    refine ⟨_, rfl, ⟨by simp [UpstreamConfig.clientLines, isOwn, hleft, hcookie, hhost, hxff], ?_, ?_, ?_⟩⟩
    · rw [met_self hxff hleft]
      rfl
    · rw [met_of_named hxff (by decide)]
      rfl
    · rw [met_of_named hxff (by decide)]
      rfl
  next hxff =>
  have hx : p.met s xffName (n, v) = false := met_of_not_named (Bool.eq_false_iff.mpr hxff)
  split
  · next hxfh =>
    have hf : p.met s forwardedName (n, v) = false := met_of_named hxfh (by decide)
    split
    all_goals
      next htrusted =>
      refine ⟨_, rfl, ⟨by simp [UpstreamConfig.clientLines, isOwn, hleft, hcookie, hhost, hxfh], ?_, ?_, ?_⟩⟩
      · rw [hx]
        rfl
      · rw [hf]
        rfl
      · simp [met_self hxfh hleft, htrusted]
  next hxfh =>
  have hh : p.met s xfhName (n, v) = false := met_of_not_named (Bool.eq_false_iff.mpr hxfh)
  split
  · next hproto =>
    have hown := hproto
    rw [Bool.or_eq_true] at hown
    refine ⟨_, rfl, .other hx ?_ hh rfl ?_⟩
    · rcases hown with h | h <;> exact met_of_named h (by decide)
    · rcases hown with h | h <;> simp [UpstreamConfig.clientLines, isOwn, hleft, hcookie, hhost, h]
  next hproto =>
  rw [Bool.or_eq_true, not_or] at hproto
  split
  · next hfwd =>
    refine ⟨_, rfl, ⟨by simp [UpstreamConfig.clientLines, isOwn, hleft, hcookie, hhost, hfwd], ?_, ?_, ?_⟩⟩
    · rw [hx]
      rfl
    · rw [met_self hfwd hleft]
      rfl
    · rw [hh]
      rfl
  next hfwd =>
  have hf : p.met s forwardedName (n, v) = false := met_of_not_named (Bool.eq_false_iff.mpr hfwd)
  split
  all_goals
    next hclaim =>
    exact ⟨_, rfl, .other hx hf hh rfl (by
      simp [UpstreamConfig.clientLines, isOwn, hleft, hcookie, hhost, hxff, hxfh, hproto.1, hproto.2, hfwd, hclaim])⟩

end Met

/-- **The loop writes the client's lines**, for any fields. -/
theorem headLoop_lines : (p.headLoop s hs l).out = l.out ++ p.clientLines s l.cookieSent hs := by
  induction hs generalizing l with
  | nil => exact (List.append_nil _).symm
  | cons f rest ih =>
    obtain ⟨l', hround, htook⟩ := headLoop_round p s f.1 f.2 rest l
    rw [hround, ih, htook.lines]

/-- A chain of addresses goes on only from a trusted proxy. -/
theorem headLoop_xffLines : (p.headLoop s hs l).xffLines =
    if hs.any (p.met s xffName) then s.conn.trustedPeer else l.xffLines := by
  induction hs generalizing l with
  | nil => rfl
  | cons f rest ih =>
    obtain ⟨l', hround, htook⟩ := headLoop_round p s f.1 f.2 rest l
    rw [hround, ih, htook.xffLines, List.any_cons]
    cases p.met s xffName f with
    | false => rfl
    | true => cases rest.any (p.met s xffName) <;> rfl

/-- …and so does the standard's own chain. -/
theorem headLoop_forwardedLines : (p.headLoop s hs l).forwardedLines =
    if hs.any (p.met s forwardedName) then s.conn.trustedPeer else l.forwardedLines := by
  induction hs generalizing l with
  | nil => rfl
  | cons f rest ih =>
    obtain ⟨l', hround, htook⟩ := headLoop_round p s f.1 f.2 rest l
    rw [hround, ih, htook.forwardedLines, List.any_cons]
    cases p.met s forwardedName f with
    | false => rfl
    | true => cases rest.any (p.met s forwardedName) <;> rfl

/-- The last host a trusted proxy told. -/
theorem headLoop_xfh : (p.headLoop s hs l).xfh =
    if s.conn.trustedPeer then ((hs.filter (p.met s xfhName)).getLast?.map Prod.snd).getD l.xfh
    else l.xfh := by
  induction hs generalizing l with
  | nil => cases s.conn.trustedPeer <;> rfl
  | cons f rest ih =>
    obtain ⟨l', hround, htook⟩ := headLoop_round p s f.1 f.2 rest l
    rw [hround, ih, htook.xfh, List.filter_cons]
    cases p.met s xfhName f with
    | false => simp
    | true =>
      cases s.conn.trustedPeer with
      | false => rfl
      | true =>
        show _ = ((f :: rest.filter (p.met s xfhName)).getLast?.map Prod.snd).getD l.xfh
        rw [List.getLast?_cons]
        cases (rest.filter (p.met s xfhName)).getLast? <;> rfl

theorem crumbs_of_none (h : hs.countP (named cookieName) = 0) : crumbs hs = [] := by
  unfold crumbs
  rw [List.flatMap_eq_nil_iff]
  intro f hf
  have hn : ¬ iequals f.1 cookieName = true := List.countP_eq_zero.mp h f hf
  rw [if_neg hn]

/-- With one cookie at most, every field is a line of its own. -/
theorem clientLines_eq : ∀ {sent : Bool}, hs.countP (named cookieName) + sent.toNat ≤ 1 →
    p.clientLines s sent hs = hs.filterMap (p.line s) := by
  induction hs with
  | nil => intro sent _; rfl
  | cons f rest ih =>
    intro sent h
    have htail : rest.countP (named cookieName) + sent.toNat ≤ 1 := by
      rw [List.countP_cons] at h
      omega
    unfold UpstreamConfig.clientLines
    rw [ih htail]
    by_cases hleft : p.leftOut s f.1
    · simp [UpstreamConfig.line, hleft]
    by_cases hcookie : iequals f.1 cookieName = true
    · -- the one cookie: none follows it
      rw [List.countP_cons_of_pos (show named cookieName f = true from hcookie)] at h
      have hnone : rest.countP (named cookieName) = 0 := by omega
      have hsent : sent = false := by
        cases sent with
        | false => rfl
        | true => simp at h
      rw [ih (by rw [hnone]; exact Nat.le_refl 1), crumbs_of_none hnone]
      simp [UpstreamConfig.line, hleft, hcookie, hsent]
    · by_cases hhost : iequals f.1 hostName = true
      · by_cases hpass : p.host = .pass <;>
          simp [UpstreamConfig.line, hleft, hcookie, hhost, hpass]
      by_cases hown : isOwn s.conn.trustedPeer f.1 = true <;>
        simp [UpstreamConfig.line, hleft, hcookie, hhost, hown]

/-- **The fields that are passed on**, with one cookie at most. -/
theorem headLoop_out (h : hs.countP (named cookieName) + l.cookieSent.toNat ≤ 1) :
    (p.headLoop s hs l).out = l.out ++ hs.filterMap (p.line s) := by
  rw [headLoop_lines, clientLines_eq h]

end Loop

/-! ## §2. The head of a request from a section. -/

section Names

variable {n k : Bytes}

theorem nameByte_plain : ∀ c : UInt8, nameByte c = true → lower c = c ∧ isTchar c = true :=
  forall_byte (by decide +kernel)

theorem isToken_of_validName (h : validName n = true) : isToken n = true := by
  unfold validName at h
  unfold isToken
  rw [Bool.and_eq_true, List.all_eq_true] at h ⊢
  exact ⟨h.1, fun c hc => (nameByte_plain c (h.2 c hc)).2⟩

/-- Names of a section are lower-case, so a comparison is an equality. -/
theorem iequals_of_validName (h : validName n = true) (hk : k.map lower = k) :
    iequals n k = decide (n = k) := by
  unfold validName at h
  rw [Bool.and_eq_true, List.all_eq_true] at h
  have hn : n.map lower = n := by
    conv_rhs => rw [← List.map_id n]
    exact List.map_congr_left fun c hc => (nameByte_plain c (h.2 c hc)).1
  unfold iequals
  rw [hn, hk]

end Names

section Section

variable {p : UpstreamConfig} {s : Stream} {f : Field}

/-- A field that is connection-specific is not there. -/
theorem FromSection.get_none (hr : FromSection s.request) {k : Bytes} (hk : k.map lower = k)
    (hc : connectionSpecific k = true) : get s.request.headers k = [] := by
  have hfind : (s.request.headers.find? fun f => iequals f.1 k) = none := by
    rw [List.find?_eq_none]
    intro f hf hn
    obtain ⟨hv, hs⟩ := hr.names f hf
    rw [iequals_of_validName hv hk, decide_eq_true_eq] at hn
    rw [hn, hc] at hs
    cases hs
  unfold get
  rw [hfind]
  rfl

theorem FromSection.not_upgrading (hr : FromSection s.request) : p.upgrading s = false := by
  unfold UpstreamConfig.upgrading
  rw [hr.get_none (k := bytes "upgrade") (by decide) (by decide)]
  simp

/-- Without a Connection field, what is left out depends on the name alone. -/
theorem FromSection.leftOut (hr : FromSection s.request) (n : Bytes) :
    p.leftOut s n = (isHopByHop n || iequals n expectName || n.contains 0x5f || p.configured n ||
      (s.offload && iequals n (bytes "accept-encoding"))) := by
  unfold UpstreamConfig.leftOut
  rw [hr.get_none (k := bytes "connection") (by decide) (by decide)]
  simp only [List.isEmpty_nil, Bool.not_true, Bool.false_and, Bool.or_false]

/-- A name with no other reason to be left out is left out when it is configured. -/
theorem FromSection.leftOut_configured (hr : FromSection s.request) {k : Bytes}
    (hk : (isHopByHop k || iequals k expectName || k.contains 0x5f ||
      iequals k (bytes "accept-encoding")) = false) : p.leftOut s k = p.configured k := by
  simp only [Bool.or_eq_false_iff] at hk
  rw [hr.leftOut, hk.1.1.1, hk.1.1.2, hk.1.2, hk.2]
  simp

theorem FromSection.met (hr : FromSection s.request) {k : Bytes} (hk : k.map lower = k)
    (hplain : (isHopByHop k || iequals k expectName || k.contains 0x5f ||
      iequals k (bytes "accept-encoding")) = false) (hf : f ∈ s.request.headers) :
    p.met s k f = (named k f && !p.configured k) := by
  unfold UpstreamConfig.met named
  rw [iequals_of_validName (hr.names f hf).1 hk]
  by_cases hn : f.1 = k
  · rw [hn, hr.leftOut_configured hplain]
  · rw [decide_eq_false hn, Bool.false_and, Bool.false_and]

/-- The host a trusted proxy told, or nothing. -/
def UpstreamConfig.toldHost (p : UpstreamConfig) (s : Stream) : Bytes :=
  if s.conn.trustedPeer && !p.configured xfhName then
    ((values xfhName s.request.headers).getLast?).getD [] else []

theorem FromSection.xfh (hr : FromSection s.request) :
    (p.headLoop s s.request.headers {}).xfh = p.toldHost s := by
  rw [headLoop_xfh]
  unfold UpstreamConfig.toldHost
  cases s.conn.trustedPeer with
  | false => rfl
  | true =>
    have hfilter : s.request.headers.filter (p.met s xfhName) =
        s.request.headers.filter fun f => named xfhName f && !p.configured xfhName :=
      List.filter_congr fun f hf => hr.met (by decide) (by decide) hf
    rw [if_pos rfl, hfilter, Bool.true_and]
    cases p.configured xfhName with
    | true => simp
    | false =>
      unfold values
      simp

theorem appendLines_nil {fs : List Field} {k : Bytes} (h : fs.any (named k) = false) :
    appendLines fs k = [] := by
  unfold appendLines
  rw [List.flatMap_eq_nil_iff]
  intro f hf
  have hn : iequals f.1 k = false := Bool.eq_false_iff.mpr (List.any_eq_false.mp h f hf)
  rw [hn, Bool.false_and]
  rfl

/-- A chain is written when the peer is trusted; without lines of it nothing is. -/
theorem FromSection.chain (hr : FromSection s.request) {k : Bytes} (hk : k.map lower = k)
    (hplain : (isHopByHop k || iequals k expectName || k.contains 0x5f ||
      iequals k (bytes "accept-encoding")) = false) (hc : p.configured k = false) :
    (if (if s.request.headers.any (p.met s k) then s.conn.trustedPeer else false) then
      appendLines s.request.headers k else []) =
      if s.conn.trustedPeer then appendLines s.request.headers k else [] := by
  have hany : s.request.headers.any (p.met s k) = s.request.headers.any (named k) := by
    rw [Bool.eq_iff_iff, List.any_eq_true, List.any_eq_true]
    refine exists_congr fun f => and_congr_right fun hf => ?_
    rw [hr.met hk hplain hf, hc, Bool.not_false, Bool.and_true]
  rw [hany]
  cases hn : s.request.headers.any (named k) with
  | true => rfl
  | false =>
    rw [appendLines_nil hn]
    cases s.conn.trustedPeer <;> rfl

/-- The fields that agensio writes of its own accord. -/
def UpstreamConfig.ownLines (p : UpstreamConfig) (s : Stream) : List Field :=
  (if p.xForwarded then p.xffLine s s.conn.trustedPeer ++ p.protoLine s ++ p.xfhLine s (p.toldHost s)
    else []) ++ p.forwardedLine s s.conn.trustedPeer (p.toldHost s) ++ p.realIpLine s

/-- The fields the configuration asks for, and the framing. -/
def UpstreamConfig.setAndFramed (p : UpstreamConfig) (s : Stream) (b : Outgoing) : List Field :=
  p.userLine s ++ p.setLines s ++
    b.framingFields (requestText s.request.methodName s.request.target)

/-- The framing looks at the method alone. -/
theorem framingFields_head (b : Outgoing) (m t rest : Bytes) :
    b.framingFields (requestText m t ++ rest) = b.framingFields (requestText m t) := by
  have hpre : ∀ w : Bytes, w.length ≤ 9 →
      w.isPrefixOf (requestText m t ++ rest) = w.isPrefixOf (requestText m t) := by
    intro w hw
    have hlen : w.length ≤ (requestText m t).length := by
      unfold requestText
      rw [List.length_append, List.length_cons, List.length_append, List.length_cons]
      have : (bytes "HTTP/1.1").length = 8 := rfl
      omega
    rw [Bool.eq_iff_iff, List.isPrefixOf_iff_prefix, List.isPrefixOf_iff_prefix]
    constructor
    · intro h
      exact List.prefix_of_prefix_length_le h (List.prefix_append ..) hlen
    · intro h
      exact h.trans (List.prefix_append ..)
  unfold Outgoing.framingFields
  rw [hpre _ (by decide), hpre _ (by decide), hpre _ (by decide)]

/-- **The head by where its fields come from**: the client, agensio, the configuration. -/
theorem FromSection.sentFields_eq (hr : FromSection s.request) (b : Outgoing) :
    sentFields p s s.request.target b = s.request.headers.filterMap (p.line s) ++ p.hostLine s ++
      p.ownLines s ++ p.setAndFramed s b := by
  have hcookies : s.request.headers.countP (named cookieName) + (false).toNat ≤ 1 := by
    have hcongr : s.request.headers.countP (named cookieName) =
        s.request.headers.countP (·.1 = cookieName) :=
      List.countP_congr fun f hf => by
        unfold named
        rw [iequals_of_validName (hr.names f hf).1 (by decide)]
    rw [hcongr]
    exact hr.cookies
  have hout := headLoop_out (p := p) (s := s) (l := {}) hcookies
  rw [List.nil_append] at hout
  have hxff : p.xffLine s (p.headLoop s s.request.headers {}).xffLines =
      p.xffLine s s.conn.trustedPeer := by
    unfold UpstreamConfig.xffLine
    split
    · rfl
    rename_i hc
    rw [headLoop_xffLines, hr.chain (by decide) (by decide) (Bool.eq_false_iff.mpr hc)]
  have hfwd : ∀ x, p.forwardedLine s (p.headLoop s s.request.headers {}).forwardedLines x =
      p.forwardedLine s s.conn.trustedPeer x := by
    intro x
    unfold UpstreamConfig.forwardedLine
    split
    · rename_i hc
      rw [Bool.and_eq_true, Bool.not_eq_true'] at hc
      rw [headLoop_forwardedLines, hr.chain (by decide) (by decide) hc.2]
    · rfl
  unfold sentFields UpstreamConfig.headFields UpstreamConfig.buildHead
  dsimp only
  rw [hr.not_upgrading, hout, hxff, hfwd, hr.xfh, List.append_assoc _ crlf, framingFields_head]
  unfold UpstreamConfig.ownLines UpstreamConfig.setAndFramed
  simp only [Bool.false_eq_true, if_false, List.nil_append, List.append_assoc]

end Section

/-! ## §3. Where the values go. -/

/-- A value that may stand in a Host line. -/
def isHost (v : Bytes) : Bool := noCtl v && hostValue (trim v)

namespace UpstreamConfig

variable (p : UpstreamConfig) (s : Stream)

/-- The client's field of this name is passed on as it is; the host is not among them. -/
def passesOn (name : Bytes) : Bool :=
  !p.leftOut s name && (iequals name cookieName ||
    !(iequals name hostName || isOwn s.conn.trustedPeer name))

/-- The client's field becomes a line of the head. -/
def becomesLine (name : Bytes) : Bool :=
  p.passesOn s name || (!p.leftOut s name && iequals name hostName && p.host = .pass)

/-- The name the request is for is written besides the Host line. -/
def tellsHost : Bool :=
  (p.xForwarded && (p.host ≠ .pass || !(p.toldHost s).isEmpty) && !p.configured xfhName) ||
    (p.rfcForwarded && !p.configured forwardedName)

/-- How many lines are written beside the client's own. -/
def otherLines (b : Outgoing) : Nat :=
  (p.hostLine s).length +
    (if p.xForwarded then (!p.configured xffName).toNat + (!p.configured (bytes "x-forwarded-proto")).toNat +
      (p.xfhLine s (p.toldHost s)).length else 0) +
    (p.rfcForwarded && !p.configured forwardedName).toNat +
    (decide (p.forwarded ≠ .off) && !p.configured (bytes "x-real-ip")).toNat +
    (p.setAndFramed s b).length

/-- What has to be known of the Host line that is not a configured one. -/
def HostFits : Prop :=
  match p.host with
  | .pass => isHost s.request.host = true ∧ (hostName, []) ∉ s.request.headers
  | .upstream => isHost p.authority = true
  | .literal name => isHost name = true

end UpstreamConfig

/-- **When a request may be forwarded**: a condition on what the client sent, on the
    configuration and on the room in a head. -/
structure Forwardable (p : UpstreamConfig) (s : Stream) (b : Outgoing) : Prop where
  method : isToken s.request.methodName = true
  target : isTarget s.request.target = true
  /-- The fields that are passed on. -/
  fields : ∀ f ∈ s.request.headers, p.passesOn s f.1 = true → noCtl f.2 = true
  /-- The chains of a trusted proxy. -/
  addresses : p.xForwarded = true → p.configured xffName = false → s.conn.trustedPeer = true →
    ∀ v ∈ values xffName s.request.headers, noCtl v = true
  chain : p.rfcForwarded = true → p.configured forwardedName = false → s.conn.trustedPeer = true →
    ∀ v ∈ values forwardedName s.request.headers, noCtl v = true
  /-- The host that is told in other fields. -/
  told : p.tellsHost s = true → noCtl (UpstreamConfig.told s (p.toldHost s)) = true
  host : p.configured hostName = false → p.HostFits s
  /-- The configured fields, which may hold the host. -/
  set : ∀ h ∈ p.setHeaders, h.2 ≠ [] → isToken h.1 = true ∧ noCtl (s.expand h.2) = true
  framing : Coherent ((p.setAndFramed s b).map trimmed)
  room : s.request.headers.countP (fun f => p.becomesLine s f.1) + p.otherLines s b ≤ kCapacity

section Values

variable {p : UpstreamConfig} {s : Stream} {b : Outgoing} {k : Bytes} {fs gs : List Field}

theorem values_map_trimmed (k : Bytes) (fs : List Field) :
    values k (fs.map trimmed) = (values k fs).map trim := by
  unfold values
  rw [List.filter_map, List.map_map, List.map_map]
  rfl

theorem values_eq_nil_iff : values k fs = [] ↔ ∀ f ∈ fs, named k f = false := by
  unfold values
  rw [List.map_eq_nil_iff, List.filter_eq_nil_iff]
  exact forall₂_congr fun f _ => Bool.eq_false_iff.symm

theorem noCtl_appendLines (fs : List Field) (k : Bytes) :
    noCtl (appendLines fs k) = true ↔ ∀ v ∈ values k fs, noCtl v = true := by
  induction fs with
  | nil => simp [appendLines]
  | cons f fs ih =>
    have hsplit : appendLines (f :: fs) k =
        (if iequals f.1 k && !f.2.isEmpty then f.2 ++ bytes ", " else []) ++ appendLines fs k := rfl
    rw [hsplit, noCtl_append, Bool.and_eq_true, ih]
    cases hn : iequals f.1 k with
    | false =>
      rw [show f = (f.1, f.2) from rfl, values_cons_of_not hn]
      simp
    | true =>
      rw [show f = (f.1, f.2) from rfl, values_cons_of_named hn, List.forall_mem_cons]
      refine and_congr_left fun _ => ?_
      cases hv : f.2 with
      | nil => simp
      | cons c cs =>
        show noCtl (c :: cs ++ bytes ", ") = true ↔ _
        rw [noCtl_append, show noCtl (bytes ", ") = true from by decide, Bool.and_true]

/-- The line of a field, by what becomes of it. -/
theorem line_eq (f : Field) : p.line s f = if p.passesOn s f.1 then some f
    else if !p.leftOut s f.1 && iequals f.1 hostName && p.host = .pass then some (bytes "Host", f.2)
    else none := by
  unfold UpstreamConfig.line UpstreamConfig.passesOn
  cases p.leftOut s f.1 with
  | true => rfl
  | false =>
    cases hc : iequals f.1 cookieName with
    | true => rfl
    | false =>
      cases iequals f.1 hostName with
      | true => simp
      | false => cases isOwn s.conn.trustedPeer f.1 <;> rfl

theorem isSome_line (f : Field) : (p.line s f).isSome = p.becomesLine s f.1 := by
  rw [line_eq]
  unfold UpstreamConfig.becomesLine
  cases p.passesOn s f.1 with
  | true => rfl
  | false => cases !p.leftOut s f.1 && iequals f.1 hostName && decide (p.host = .pass) <;> rfl

/-- The client's lines: their names are tokens already. -/
theorem FromSection.clientLines (hr : FromSection s.request) :
    (∀ g ∈ s.request.headers.filterMap (p.line s), isToken g.1 = true ∧ noCtl g.2 = true) ↔
      (∀ f ∈ s.request.headers, p.passesOn s f.1 = true → noCtl f.2 = true) ∧ ∀ f ∈ s.request.headers,
        (!p.leftOut s f.1 && iequals f.1 hostName && p.host = .pass) = true → noCtl f.2 = true := by
  constructor
  · intro h
    refine ⟨fun f hf hp => ?_, fun f hf hh => ?_⟩
    · exact (h f (List.mem_filterMap.mpr ⟨f, hf, by rw [line_eq, if_pos hp]⟩)).2
    · by_cases hp : p.passesOn s f.1 = true
      · exact (h f (List.mem_filterMap.mpr ⟨f, hf, by rw [line_eq, if_pos hp]⟩)).2
      refine (h (bytes "Host", f.2) (List.mem_filterMap.mpr ⟨f, hf, ?_⟩)).2
      rw [line_eq, if_neg hp, if_pos hh]
  · rintro ⟨hpass, hhost⟩ g hg
    obtain ⟨f, hf, hline⟩ := List.mem_filterMap.mp hg
    rw [line_eq] at hline
    split at hline
    · rename_i hp
      rw [← Option.some.inj hline]
      exact ⟨isToken_of_validName (hr.names f hf).1, hpass f hf hp⟩
    · split at hline
      · rename_i hh
        cases hline
        exact ⟨(by decide : isToken (bytes "Host") = true), hhost f hf hh⟩
      · cases hline

theorem length_clientLines : (s.request.headers.filterMap (p.line s)).length =
    s.request.headers.countP fun f => p.becomesLine s f.1 := by
  rw [List.length_filterMap_eq_countP]
  exact List.countP_congr fun f _ => by rw [isSome_line]

end Values

section Parts

variable {p : UpstreamConfig} {s : Stream} {b : Outgoing}

theorem noCtl_scheme : noCtl s.scheme = true := by
  unfold Stream.scheme
  split <;> decide

theorem noCtl_client : noCtl s.client = true := by
  unfold Stream.client
  split
  · exact s.conn.remote_clean
  · exact s.conn.client_clean

theorem noCtl_forwardedFor : noCtl (forwardedFor s.conn.remoteAddress) = true := by
  unfold forwardedFor
  split
  · rw [noCtl_append, noCtl_append, s.conn.remote_clean]
    decide
  · exact s.conn.remote_clean

/-- A chain in front of an address. -/
theorem noCtl_chain {k : Bytes} : noCtl (if s.conn.trustedPeer then appendLines s.request.headers k else []) =
    true ↔ (s.conn.trustedPeer = true → ∀ v ∈ values k s.request.headers, noCtl v = true) := by
  cases s.conn.trustedPeer with
  | true =>
    rw [if_pos rfl, noCtl_appendLines]
    simp
  | false => simp

/-- The lines of one writer, each as it should be. -/
def Clean (gs : List Field) : Prop := ∀ g ∈ gs, isToken g.1 = true ∧ noCtl g.2 = true

theorem clean_append {fs gs : List Field} : Clean (fs ++ gs) ↔ Clean fs ∧ Clean gs := by
  unfold Clean
  rw [List.forall_mem_append]

theorem clean_nil : Clean [] := nofun

theorem clean_singleton {n v : Bytes} (hn : isToken n = true) : Clean [(n, v)] ↔ noCtl v = true := by
  unfold Clean
  rw [List.forall_mem_singleton, hn]
  exact ⟨fun h => h.2, fun h => ⟨rfl, h⟩⟩

theorem clean_xffLine : Clean (p.xffLine s s.conn.trustedPeer) ↔
    (p.configured xffName = false → s.conn.trustedPeer = true →
      ∀ v ∈ values xffName s.request.headers, noCtl v = true) := by
  unfold UpstreamConfig.xffLine
  cases p.configured xffName with
  | true => simp [clean_nil]
  | false =>
    rw [if_neg (by decide), clean_singleton (by decide), noCtl_append, s.conn.remote_clean,
      Bool.and_true, noCtl_chain]
    simp

theorem clean_protoLine : Clean (p.protoLine s) := by
  unfold UpstreamConfig.protoLine
  split
  · exact clean_nil
  · exact (clean_singleton (by decide)).mpr noCtl_scheme

theorem clean_xfhLine {xfh : Bytes} : Clean (p.xfhLine s xfh) ↔
    ((decide (p.host ≠ .pass) || !xfh.isEmpty) && !p.configured xfhName) = true →
      noCtl (UpstreamConfig.told s xfh) = true := by
  unfold UpstreamConfig.xfhLine
  cases ht : UpstreamConfig.told s xfh with
  | nil => simp [clean_nil]
  | cons c cs =>
    split
    · rename_i hc
      rw [clean_singleton (by decide)]
      exact ⟨fun h _ => h, fun h => h hc⟩
    · rename_i hc
      exact ⟨fun _ h => absurd h hc, fun _ => clean_nil⟩

theorem clean_forwardedLine {xfh : Bytes} : Clean (p.forwardedLine s s.conn.trustedPeer xfh) ↔
    ((p.rfcForwarded && !p.configured forwardedName) = true →
      (s.conn.trustedPeer = true → ∀ v ∈ values forwardedName s.request.headers, noCtl v = true) ∧
        noCtl (UpstreamConfig.told s xfh) = true) := by
  unfold UpstreamConfig.forwardedLine
  split
  · rename_i hc
    have htold : noCtl (if (UpstreamConfig.told s xfh).isEmpty then []
        else bytes ";host=" ++ UpstreamConfig.told s xfh) = noCtl (UpstreamConfig.told s xfh) := by
      split
      · rename_i he
        rw [List.isEmpty_iff.mp he]
      · rw [noCtl_append, show noCtl (bytes ";host=") = true from by decide, Bool.true_and]
    rw [clean_singleton (by decide)]
    simp only [noCtl_append, noCtl_forwardedFor, noCtl_scheme, htold, Bool.and_eq_true, noCtl_chain,
      show noCtl (bytes "for=") = true from by decide,
      show noCtl (bytes ";proto=") = true from by decide, and_true]
    exact ⟨fun h _ => h, fun h => h (by simpa using hc)⟩
  · rename_i hc
    exact ⟨fun _ h => absurd h hc, fun _ => clean_nil⟩

theorem clean_realIpLine : Clean (p.realIpLine s) := by
  unfold UpstreamConfig.realIpLine
  split
  · exact (clean_singleton (by decide)).mpr noCtl_client
  · exact clean_nil

/-- Agensio's own lines. -/
theorem clean_ownLines : Clean (p.ownLines s) ↔
    (p.xForwarded = true → p.configured xffName = false → s.conn.trustedPeer = true →
      ∀ v ∈ values xffName s.request.headers, noCtl v = true) ∧
    (p.rfcForwarded = true → p.configured forwardedName = false → s.conn.trustedPeer = true →
      ∀ v ∈ values forwardedName s.request.headers, noCtl v = true) ∧
    (p.tellsHost s = true → noCtl (UpstreamConfig.told s (p.toldHost s)) = true) := by
  have hx : Clean (if p.xForwarded then p.xffLine s s.conn.trustedPeer ++ p.protoLine s ++
      p.xfhLine s (p.toldHost s) else []) ↔ (p.xForwarded = true →
        Clean (p.xffLine s s.conn.trustedPeer) ∧ Clean (p.xfhLine s (p.toldHost s))) := by
    cases p.xForwarded with
    | true =>
      rw [if_pos rfl, clean_append, clean_append]
      simp [clean_protoLine]
    | false => simp [clean_nil]
  unfold UpstreamConfig.ownLines UpstreamConfig.tellsHost
  rw [clean_append, clean_append, hx, clean_xffLine, clean_xfhLine, clean_forwardedLine]
  simp only [clean_realIpLine, and_true, Bool.or_eq_true, Bool.and_eq_true, Bool.not_eq_true']
  constructor
  · rintro ⟨hown, hrfc⟩
    refine ⟨fun hxf => (hown hxf).1, fun hr hc => (hrfc ⟨hr, hc⟩).1, ?_⟩
    rintro (⟨⟨hxf, hh⟩, hc⟩ | hr)
    · exact (hown hxf).2 ⟨hh, hc⟩
    · exact (hrfc hr).2
  · rintro ⟨haddr, hchain, htold⟩
    exact ⟨fun hxf => ⟨haddr hxf, fun hh => htold (.inl ⟨⟨hxf, hh.1⟩, hh.2⟩)⟩,
      fun hr => ⟨hchain hr.1 hr.2, htold (.inr hr)⟩⟩

/-- The fields the configuration asks for, and the framing. -/
theorem clean_setAndFramed : Clean (p.setAndFramed s b) ↔
    ∀ h ∈ p.setHeaders, h.2 ≠ [] → isToken h.1 = true ∧ noCtl (s.expand h.2) = true := by
  have huser : Clean (p.userLine s) := by
    unfold UpstreamConfig.userLine
    split
    · rename_i hc
      simp only [Bool.and_eq_true, Bool.not_eq_true', List.isEmpty_eq_false_iff] at hc
      exact (clean_singleton (s.auth.field_token.resolve_left hc.1.1)).mpr s.auth.user_clean
    · exact clean_nil
  have hframing : ∀ head, Clean (b.framingFields head) := by
    intro head
    unfold Outgoing.framingFields
    rw [clean_append]
    refine ⟨?_, ?_⟩
    · split
      · split
        · exact (clean_singleton (by decide)).mpr (noCtl_decimalText _)
        · exact clean_nil
      · exact (clean_singleton (by decide)).mpr (by decide)
    · split
      · exact (clean_singleton (by decide)).mpr (by decide)
      split
      · exact clean_nil
      · exact (clean_singleton (by decide)).mpr (by decide)
  have hset : Clean (p.setLines s) ↔
      ∀ h ∈ p.setHeaders, h.2 ≠ [] → isToken h.1 = true ∧ noCtl (s.expand h.2) = true := by
    unfold Clean UpstreamConfig.setLines
    rw [List.forall_mem_map]
    simp only [List.mem_filter, Bool.not_eq_true', List.isEmpty_eq_false_iff, and_imp]
  unfold UpstreamConfig.setAndFramed
  rw [clean_append, clean_append, hset]
  exact ⟨fun h => h.1.2, fun h => ⟨⟨huser, h⟩, hframing _⟩⟩

/-- Names of the rules the parser has for fields together. -/
theorem values_ownLines {k : Bytes} (hk : ([bytes "X-Forwarded-For", bytes "X-Forwarded-Proto",
    bytes "X-Forwarded-Host", bytes "Forwarded", bytes "X-Real-IP"].all fun n => !iequals n k) = true) :
    values k (p.ownLines s) = [] := by
  rw [values_eq_nil_iff]
  intro g hg
  have hname : g.1 ∈ [bytes "X-Forwarded-For", bytes "X-Forwarded-Proto", bytes "X-Forwarded-Host",
      bytes "Forwarded", bytes "X-Real-IP"] := by
    unfold UpstreamConfig.ownLines UpstreamConfig.xffLine UpstreamConfig.protoLine
      UpstreamConfig.xfhLine UpstreamConfig.forwardedLine UpstreamConfig.realIpLine at hg
    simp only [List.mem_append] at hg
    rcases hg with (hg | hg) | hg
    · split at hg
      · simp only [List.mem_append] at hg
        rcases hg with (hg | hg) | hg
        all_goals
          split at hg
          all_goals first
            | (rw [List.mem_singleton.mp hg]; simp)
            | cases hg
      · cases hg
    all_goals
      split at hg
      · rw [List.mem_singleton.mp hg]; simp
      · cases hg
  simpa [named] using List.all_eq_true.mp hk g.1 hname

theorem values_hostLine {k : Bytes} (hk : iequals (bytes "Host") k = false) :
    values k (p.hostLine s) = [] := by
  rw [values_eq_nil_iff]
  intro g hg
  have hname : g.1 = bytes "Host" := by
    unfold UpstreamConfig.hostLine at hg
    split at hg
    · cases hg
    split at hg
    · rw [List.mem_singleton.mp hg]
    · rw [List.mem_singleton.mp hg]
    split at hg
    · rw [List.mem_singleton.mp hg]
    · cases hg
  unfold named
  rw [hname, hk]

/-- The client's framing and expectations are not passed on. -/
theorem values_clientLines {k : Bytes} (hk : iequals (bytes "Host") k = false)
    (hleft : ∀ n, iequals n k = true → p.leftOut s n = true) :
    values k (s.request.headers.filterMap (p.line s)) = [] := by
  rw [values_eq_nil_iff]
  intro g hg
  obtain ⟨f, hf, hline⟩ := List.mem_filterMap.mp hg
  unfold named
  rw [line_eq] at hline
  split at hline
  · rename_i hp
    rw [← Option.some.inj hline]
    by_contra hn
    unfold UpstreamConfig.passesOn at hp
    rw [hleft f.1 (Bool.not_eq_false _ ▸ hn)] at hp
    cases hp
  · split at hline
    · cases hline
      exact hk
    · cases hline

theorem leftOut_of_hopByHop {n k : Bytes} (hk : k ∈ [bytes "connection", bytes "keep-alive",
    bytes "proxy-connection", bytes "te", bytes "trailer", bytes "transfer-encoding",
    bytes "upgrade", bytes "content-length"]) (h : iequals n k = true) : p.leftOut s n = true := by
  have hhop : isHopByHop n = true := List.any_eq_true.mpr ⟨k, hk, h⟩
  unfold UpstreamConfig.leftOut
  rw [hhop]
  simp

theorem leftOut_of_expect {n : Bytes} (h : iequals n expectName = true) : p.leftOut s n = true := by
  unfold UpstreamConfig.leftOut
  rw [show iequals n (bytes "expect") = true from h]
  simp

/-- The host lines of any fields, when a host's line is known. -/
theorem hosts_filterMap {hs : List Field} {P : Prop} [Decidable P]
    (hline : ∀ f ∈ hs, named hostName f = true →
      p.line s f = if P then some (bytes "Host", f.2) else none) :
    values hostName (hs.filterMap (p.line s)) = if P then values hostName hs else [] := by
  have hother : ∀ f, named hostName f = false → ∀ g, p.line s f = some g → named hostName g = false := by
    intro f hn g hg
    rw [line_eq] at hg
    split at hg
    · cases hg
      exact hn
    rw [show iequals f.1 hostName = false from hn] at hg
    simp at hg
  induction hs with
  | nil => simp
  | cons f fs ih =>
    have ih' := ih fun g hg => hline g (.tail _ hg)
    rw [List.filterMap_cons]
    cases hn : named hostName f with
    | true =>
      have hself := hline f (.head _) hn
      rw [hself, show f = (f.1, f.2) from rfl,
        values_cons_of_named (show iequals f.1 hostName = true from hn)]
      by_cases hc : P
      · rw [if_pos hc] at ih' ⊢
        rw [if_pos hc]
        rw [values_cons_of_named (by decide), ih']
      · rw [if_neg hc] at ih' ⊢
        rw [if_neg hc]
        exact ih'
    | false =>
      have hskip : values hostName (f :: fs) = values hostName fs :=
        values_cons_of_not (n := f.1) (v := f.2) hn
      rw [hskip, ← ih']
      cases hg : p.line s f with
      | none => rfl
      | some g => exact values_cons_of_not (n := g.1) (v := g.2) (hother f hn g hg)

/-- The hosts among the client's lines. -/
theorem FromSection.hosts_clientLines (hr : FromSection s.request) :
    values hostName (s.request.headers.filterMap (p.line s)) =
      if p.configured hostName = false ∧ p.host = .pass then values hostName s.request.headers else [] := by
  have hleft : p.leftOut s hostName = p.configured hostName :=
    hr.leftOut_configured (k := hostName) (by decide)
  refine hosts_filterMap fun f hf hn => ?_
  have hname : f.1 = hostName := by
    rw [named, iequals_of_validName (hr.names f hf).1 (by decide), decide_eq_true_eq] at hn
    exact hn
  unfold UpstreamConfig.line
  rw [hname, hleft]
  cases p.configured hostName with
  | true => rfl
  | false =>
    rw [if_neg (by decide), if_neg (by decide), if_pos (by decide)]
    simp

/-- The values a section has for its host: none, or one that is empty or the request's. -/
theorem FromSection.host_values (hr : FromSection s.request) :
    values hostName s.request.headers = [] ∧ (hostName, []) ∉ s.request.headers ∨
      values hostName s.request.headers = [[]] ∧ (hostName, []) ∈ s.request.headers ∨
      values hostName s.request.headers = [s.request.host] ∧ (hostName, []) ∉ s.request.headers := by
  have hfilter : s.request.headers.filter (named hostName) =
      s.request.headers.filter (·.1 = hostName) :=
    List.filter_congr fun f hf => by
      unfold named
      rw [iequals_of_validName (hr.names f hf).1 (by decide)]
  have hcount : (s.request.headers.filter (·.1 = hostName)).length ≤ 1 := by
    rw [← List.countP_eq_length_filter]
    exact hr.hosts
  have hmem : (hostName, []) ∈ s.request.headers ↔
      (hostName, []) ∈ s.request.headers.filter (·.1 = hostName) := by
    simp
  unfold values
  rw [hfilter, hmem]
  have hval : ∀ f ∈ s.request.headers.filter (·.1 = hostName), f.2 = [] ∨ f.2 = s.request.host := by
    intro f hf
    rw [List.mem_filter, decide_eq_true_eq] at hf
    exact hr.host.2 f hf.1 hf.2
  have hname : ∀ f ∈ s.request.headers.filter (·.1 = hostName), f.1 = hostName := by
    intro f hf
    rw [List.mem_filter, decide_eq_true_eq] at hf
    exact hf.2
  generalize s.request.headers.filter (·.1 = hostName) = hosts at hcount hval hname ⊢
  match hosts with
  | [] => exact .inl ⟨rfl, List.not_mem_nil⟩
  | f :: g :: rest => simp at hcount
  | [f] =>
    rw [List.forall_mem_singleton] at hval hname
    refine .inr ?_
    rcases hval with hv | hv
    · refine .inl ⟨by rw [List.map_singleton, hv], ?_⟩
      rw [List.mem_singleton, ← hname, ← hv]
    refine .inr ⟨by rw [List.map_singleton, hv], ?_⟩
    rw [List.mem_singleton]
    rintro rfl
    exact hr.host.1 hv.symm

/-- `get` shows the first of the values. -/
theorem get_eq_head (fs : List Field) (k : Bytes) : get fs k = (values k fs).head?.getD [] := by
  unfold get values
  rw [List.head?_map, List.head?_filter]
  rfl

theorem onceFit_singleton {right : Bytes → Bool} {v : Bytes} : OnceFit right false [v] ↔ right v = true := by
  rw [onceFit_cons]
  exact ⟨fun h => h.2.1, fun h => ⟨rfl, h, by decide, nofun⟩⟩

/-- **The Host line**, when the configuration does not set it. -/
theorem FromSection.hostFits_iff (hr : FromSection s.request) (hc : p.configured hostName = false) :
    (Clean (p.hostLine s) ∧ (∀ f ∈ s.request.headers,
        (!p.leftOut s f.1 && iequals f.1 hostName && p.host = .pass) = true → noCtl f.2 = true) ∧
      OnceFit hostValue false ((values hostName (s.request.headers.filterMap (p.line s)) ++
        values hostName (p.hostLine s)).map trim)) ↔ p.HostFits s := by
  have hleft : p.leftOut s hostName = false :=
    (hr.leftOut_configured (k := hostName) (by decide)).trans hc
  rw [hr.hosts_clientLines]
  unfold UpstreamConfig.hostLine UpstreamConfig.HostFits isHost
  rw [if_neg (by rw [hc]; decide)]
  cases hp : p.host with
  | upstream =>
    simp [clean_singleton (show isToken (bytes "Host") = true by decide), onceFit_singleton,
      values_cons_of_named (show iequals (bytes "Host") hostName = true by decide)]
  | literal name =>
    simp [clean_singleton (show isToken (bytes "Host") = true by decide), onceFit_singleton,
      values_cons_of_named (show iequals (bytes "Host") hostName = true by decide)]
  | pass =>
    have hclient : (∀ f ∈ s.request.headers, (!p.leftOut s f.1 && iequals f.1 hostName &&
        decide (HostPolicy.pass = .pass)) = true → noCtl f.2 = true) ↔
        ∀ v ∈ values hostName s.request.headers, noCtl v = true := by
      unfold values
      rw [List.forall_mem_map]
      refine ⟨fun h f hf => ?_, fun h f hf hn => ?_⟩
      · rw [List.mem_filter] at hf
        have hname : f.1 = hostName := by
          have hn := hf.2
          rw [named, iequals_of_validName (hr.names f hf.1).1 (by decide), decide_eq_true_eq] at hn
          exact hn
        refine h f hf.1 ?_
        rw [hname, hleft]
        decide
      · rw [Bool.and_eq_true, Bool.and_eq_true] at hn
        exact h f (List.mem_filter.mpr ⟨hf, hn.1.2⟩)
    have htok : isToken (bytes "Host") = true := by decide
    have hself : iequals (bytes "Host") hostName = true := by decide
    have hhost := hr.host.1
    have hdup : ∀ u v : Bytes, ¬ OnceFit hostValue false [u, v] := fun u v h => by
      have := h.1
      simp at this
    have hvalues : (if p.configured hostName = false ∧ HostPolicy.pass = .pass then
        values hostName s.request.headers else []) = values hostName s.request.headers :=
      if_pos ⟨hc, rfl⟩
    have hline : (if ((get s.request.headers hostName).isEmpty && !s.request.host.isEmpty) = true then
        [(bytes "Host", s.request.host)] else []) =
        if (values hostName s.request.headers).head?.getD [] = [] then [(bytes "Host", s.request.host)]
        else [] := by
      rw [get_eq_head, List.isEmpty_eq_false_iff.mpr hhost]
      simp
    rw [hclient, hvalues, hline]
    -- no host field, an empty one, or the request's own
    rcases hr.host_values with ⟨hv, hm⟩ | ⟨hv, hm⟩ | ⟨hv, hm⟩
    · rw [hv, if_pos (show ([] : List Bytes).head?.getD [] = [] from rfl), clean_singleton htok,
        values_cons_of_named hself]
      simp [onceFit_singleton, hm]
    · rw [hv, if_pos (show ([[]] : List Bytes).head?.getD [] = [] from rfl), values_cons_of_named hself]
      constructor
      · rintro ⟨_, _, h⟩
        exact absurd h (hdup _ _)
      · intro h
        exact absurd hm h.2
    · rw [hv, if_neg (show ¬ ([s.request.host] : List Bytes).head?.getD [] = [] from hhost)]
      simp [onceFit_singleton, hm, clean_nil]

/-- The rules on the fields together, as far as they are decided by the configuration. -/
theorem coherent_sent_iff :
    Coherent ((s.request.headers.filterMap (p.line s) ++ p.hostLine s ++ p.ownLines s ++
      p.setAndFramed s b).map trimmed) ↔
      OnceFit hostValue false ((values hostName (s.request.headers.filterMap (p.line s)) ++
        values hostName (p.hostLine s) ++ values hostName (p.setAndFramed s b)).map trim) ∧
      LengthsFit none ((values contentLengthName (p.setAndFramed s b)).map trim) ∧
      OnceFit isChunked false ((values transferEncodingName (p.setAndFramed s b)).map trim) ∧
      ExpectsFit ((values expectName (p.setAndFramed s b)).map trim) ∧
      ((values contentLengthName (p.setAndFramed s b)).map trim = [] ∨
        (values transferEncodingName (p.setAndFramed s b)).map trim = []) := by
  have hall : ∀ {k : Bytes}, iequals (bytes "Host") k = false →
      (∀ n, iequals n k = true → p.leftOut s n = true) →
      ([bytes "X-Forwarded-For", bytes "X-Forwarded-Proto", bytes "X-Forwarded-Host",
        bytes "Forwarded", bytes "X-Real-IP"].all fun n => !iequals n k) = true →
      values k ((s.request.headers.filterMap (p.line s) ++ p.hostLine s ++ p.ownLines s ++
        p.setAndFramed s b).map trimmed) = (values k (p.setAndFramed s b)).map trim := by
    intro k h₁ h₂ h₃
    rw [values_map_trimmed, values_append, values_append, values_append, values_clientLines h₁ h₂,
      values_hostLine h₁, values_ownLines h₃]
    rfl
  have hhost : values hostName ((s.request.headers.filterMap (p.line s) ++ p.hostLine s ++
      p.ownLines s ++ p.setAndFramed s b).map trimmed) =
      (values hostName (s.request.headers.filterMap (p.line s)) ++ values hostName (p.hostLine s) ++
        values hostName (p.setAndFramed s b)).map trim := by
    rw [values_map_trimmed, values_append, values_append, values_append,
      values_ownLines (k := hostName) (by decide), List.append_nil]
  have hlen := hall (k := contentLengthName) (by decide) (fun n => leftOut_of_hopByHop (by decide))
    (by decide)
  have hcod := hall (k := transferEncodingName) (by decide) (fun n => leftOut_of_hopByHop (by decide))
    (by decide)
  have hexp := hall (k := expectName) (by decide) (fun n => leftOut_of_expect) (by decide)
  constructor
  · rintro ⟨h₁, h₂, h₃, h₄, h₅⟩
    rw [hhost] at h₁
    rw [hlen] at h₂ h₅
    rw [hcod] at h₃ h₅
    rw [hexp] at h₄
    exact ⟨h₁, h₂, h₃, h₄, h₅⟩
  · rintro ⟨h₁, h₂, h₃, h₄, h₅⟩
    rw [← hhost] at h₁
    rw [← hlen] at h₂ h₅
    rw [← hcod] at h₃ h₅
    rw [← hexp] at h₄
    exact ⟨h₁, h₂, h₃, h₄, h₅⟩

/-- A configured host keeps every other Host line away; without one there is none here. -/
theorem values_host_setAndFramed (hc : p.configured hostName = false) :
    values hostName (p.setAndFramed s b) = [] := by
  rw [values_eq_nil_iff]
  intro g hg
  unfold UpstreamConfig.setAndFramed UpstreamConfig.userLine UpstreamConfig.setLines
    Outgoing.framingFields at hg
  simp only [List.mem_append] at hg
  rcases hg with (hg | hg) | hg | hg
  · split at hg
    · rw [List.mem_singleton.mp hg]
      exact s.auth.field_not_host
    · cases hg
  · obtain ⟨h, hh, rfl⟩ := List.mem_map.mp hg
    exact Bool.eq_false_iff.mpr (List.any_eq_false.mp hc h (List.mem_filter.mp hh).1)
  · split at hg
    · split at hg
      · rw [List.mem_singleton.mp hg]
        exact (by decide : iequals (bytes "Content-Length") hostName = false)
      · cases hg
    · rw [List.mem_singleton.mp hg]
      decide
  · split at hg
    · rw [List.mem_singleton.mp hg]
      decide
    split at hg
    · cases hg
    rw [List.mem_singleton.mp hg]
    decide

theorem length_otherLines : (p.hostLine s ++ p.ownLines s ++ p.setAndFramed s b).length =
    p.otherLines s b := by
  have hx : (if p.xForwarded then p.xffLine s s.conn.trustedPeer ++ p.protoLine s ++
      p.xfhLine s (p.toldHost s) else []).length =
      if p.xForwarded then (!p.configured xffName).toNat +
        (!p.configured (bytes "x-forwarded-proto")).toNat + (p.xfhLine s (p.toldHost s)).length else 0 := by
    unfold UpstreamConfig.xffLine UpstreamConfig.protoLine
    cases p.xForwarded with
    | false => rfl
    | true =>
      rw [if_pos rfl, if_pos rfl, List.length_append, List.length_append]
      cases p.configured xffName <;> cases p.configured (bytes "x-forwarded-proto") <;> rfl
  have hf : (p.forwardedLine s s.conn.trustedPeer (p.toldHost s)).length =
      (p.rfcForwarded && !p.configured forwardedName).toNat := by
    unfold UpstreamConfig.forwardedLine
    cases p.rfcForwarded && !p.configured forwardedName <;> rfl
  have hr : (p.realIpLine s).length =
      (decide (p.forwarded ≠ .off) && !p.configured (bytes "x-real-ip")).toNat := by
    unfold UpstreamConfig.realIpLine
    cases decide (p.forwarded ≠ .off) && !p.configured (bytes "x-real-ip") <;> rfl
  unfold UpstreamConfig.otherLines UpstreamConfig.ownLines
  rw [List.length_append, List.length_append, List.length_append, List.length_append, hx, hf, hr]
  omega

/-- **A request of a section, as the origin reads it.** -/
theorem FromSection.readsBack_iff (hr : FromSection s.request) :
    ReadsBack s.request.methodName s.request.target (sentFields p s s.request.target b) ↔
      Forwardable p s b := by
  have hlength : (sentFields p s s.request.target b).length =
      s.request.headers.countP (fun f => p.becomesLine s f.1) + p.otherLines s b := by
    rw [hr.sentFields_eq, List.append_assoc, List.append_assoc, ← List.append_assoc (p.hostLine s),
      List.length_append, length_clientLines, length_otherLines]
  have hclean : (∀ f ∈ sentFields p s s.request.target b, isToken f.1 = true ∧ noCtl f.2 = true) ↔
      ((Clean (s.request.headers.filterMap (p.line s)) ∧ Clean (p.hostLine s)) ∧
        Clean (p.ownLines s)) ∧ Clean (p.setAndFramed s b) := by
    rw [hr.sentFields_eq, ← clean_append, ← clean_append, ← clean_append]
    rfl
  have hcoh := coherent_sent_iff (p := p) (s := s) (b := b)
  rw [← hr.sentFields_eq] at hcoh
  have hclient := hr.clientLines (p := p)
  rw [Http1.readsBack_iff, hcoh, hlength]
  constructor
  · rintro ⟨⟨hm, ht, hfields⟩, ⟨c₁, c₂, c₃, c₄, c₅⟩, hroom⟩
    obtain ⟨⟨⟨k₁, k₂⟩, k₃⟩, k₄⟩ := hclean.mp hfields
    obtain ⟨hpass, hhosts⟩ := hclient.mp k₁
    obtain ⟨o₁, o₂, o₃⟩ := clean_ownLines.mp k₃
    refine ⟨hm, ht, hpass, o₁, o₂, o₃, ?_, clean_setAndFramed.mp k₄, ?_, hroom⟩
    · intro hc
      rw [values_host_setAndFramed hc, List.append_nil] at c₁
      exact (hr.hostFits_iff hc).mp ⟨k₂, hhosts, c₁⟩
    · -- the configured hosts are some of all hosts
      refine ⟨?_, ?_, ?_, ?_, ?_⟩
      · rw [values_map_trimmed]
        rw [List.map_append] at c₁
        have hsub := c₁.1
        rw [List.length_append] at hsub
        exact ⟨by omega, fun v hv => c₁.2 v (List.mem_append_right _ hv)⟩
      all_goals simp only [values_map_trimmed]
      · exact c₂
      · exact c₃
      · exact c₄
      · exact c₅
  · intro h
    obtain ⟨f₁, f₂, f₃, f₄, f₅⟩ := h.framing
    simp only [values_map_trimmed] at f₁ f₂ f₃ f₄ f₅
    cases hc : p.configured hostName with
    | false =>
      obtain ⟨k₂, hhosts, c₁⟩ := (hr.hostFits_iff hc).mpr (h.host hc)
      refine ⟨⟨h.method, h.target, hclean.mpr ⟨⟨⟨hclient.mpr ⟨h.fields, hhosts⟩, k₂⟩, ?_⟩, ?_⟩⟩,
        ⟨?_, f₂, f₃, f₄, f₅⟩, h.room⟩
      · exact clean_ownLines.mpr ⟨h.addresses, h.chain, h.told⟩
      · exact clean_setAndFramed.mpr h.set
      · rw [values_host_setAndFramed hc, List.append_nil]
        exact c₁
    | true =>
      -- no host of the client's and none of agensio's
      have hleft : p.leftOut s hostName = true :=
        (hr.leftOut_configured (k := hostName) (by decide)).trans hc
      have hline : p.hostLine s = [] := by
        unfold UpstreamConfig.hostLine
        rw [if_pos hc]
      have hhosts : ∀ f ∈ s.request.headers,
          (!p.leftOut s f.1 && iequals f.1 hostName && p.host = .pass) = true → noCtl f.2 = true := by
        intro f hf hn
        rw [Bool.and_eq_true, Bool.and_eq_true] at hn
        have hname := hn.1.2
        rw [iequals_of_validName (hr.names f hf).1 (by decide), decide_eq_true_eq] at hname
        rw [hname, hleft] at hn
        cases hn.1.1
      refine ⟨⟨h.method, h.target, hclean.mpr ⟨⟨⟨hclient.mpr ⟨h.fields, hhosts⟩, ?_⟩, ?_⟩, ?_⟩⟩,
        ⟨?_, f₂, f₃, f₄, f₅⟩, h.room⟩
      · rw [hline]
        exact clean_nil
      · exact clean_ownLines.mpr ⟨h.addresses, h.chain, h.told⟩
      · exact clean_setAndFramed.mpr h.set
      · rw [hr.hosts_clientLines, if_neg (by rw [hc]; exact fun h => nomatch h.1), hline, values_nil,
          List.nil_append, List.nil_append]
        exact f₁

end Parts

/-! ## §4. From a section to the origin. -/

/-- What goes to the origin is one head, up to its very end: this method, this target, and the
    fields that were decided on. -/
def OneHead (p : UpstreamConfig) (s : Stream) (b : Outgoing) : Prop :=
  ∃ r, parseRequest (b.encodeHead (p.buildHead s s.request.target)) = (.complete, r) ∧
    r.length = (b.encodeHead (p.buildHead s s.request.target)).length ∧
    r.methodName = s.request.methodName ∧ r.target = s.request.target ∧ r.versionMinor = 1 ∧
    r.headers = (sentFields p s s.request.target b).map trimmed

theorem oneHead_iff_readsBack {p : UpstreamConfig} {s : Stream} {b : Outgoing} : OneHead p s b ↔
    ReadsBack s.request.methodName s.request.target (sentFields p s s.request.target b) := by
  unfold OneHead ReadsBack
  rw [encodeHead_buildHead]

/-- **A section is forwarded as it was meant** exactly when its values are clean where they
    are written; and so is the Location of a redirect. -/
theorem forwarded_as_meant_iff {fs : List Sunk} {protocol : Bytes} {s : Stream}
    (h : assembles fs protocol s.request) (p : UpstreamConfig) (b : Outgoing)
    (site : Redirect.Site) (https : Bool) (path : Bytes) (rule : Option Redirect.Rule) :
    (OneHead p s b ↔ Forwardable p s b) ∧
    ((∀ l ∈ site.redirectHttps s.request.host s.request.target path rule, Redirect.OneLine l) ↔
      ∀ name ∈ site.httpsName s.request.host, Redirect.AnswerFits
        (if site.sameNameFirst s.request.host then none else rule) name s.request.target) ∧
    ((∀ l ∈ site.redirectHost https s.request.host s.request.target path rule, Redirect.OneLine l) ↔
      ((Redirect.splitHost s.request.host).1 = [] ∨
        iequals (Redirect.splitHost s.request.host).1 site.canonical = true ∨
        site.listedName (Redirect.splitHost s.request.host).1 = none ∨
        Redirect.AnswerFits rule site.canonical s.request.target)) := by
  refine ⟨?_, Redirect.redirectHttps_iff .., Redirect.redirectHost_iff ..⟩
  rw [oneHead_iff_readsBack]
  exact (accepted_assembled h).readsBack_iff

/-- A literal field, no mark to read. -/
def literal (name value : Bytes) : Sunk :=
  { name := name, value := value, static_clean := fun h => absurd h (by decide), mark_means := fun h => absurd h (by simp) }

/-- A client of a plain network with no login. -/
def streamOf (request : Http.Request) : Stream where
  request := request
  conn := { remoteAddress := bytes "192.0.2.7", remote_clean := by decide, client_clean := by decide }
  auth := { field_token := .inl rfl, field_not_host := by decide, user_clean := by decide }

def plainSection : List Sunk :=
  [literal (bytes ":method") (bytes "GET"), literal (bytes ":scheme") (bytes "https"),
    literal (bytes ":path") (bytes "/a?b=c"), literal (bytes ":authority") (bytes "www.example.com"),
    literal (bytes "accept") (bytes "text/html"), literal (bytes "cookie") (bytes "k=1"),
    literal (bytes "cookie") (bytes "l=2"), literal (bytes "te") (bytes "trailers")]

/-- The stream of a section. -/
def streamFor (fs : List Sunk) : Stream := streamOf (finishRequest (sinkSection {} fs) []).2.1.req

theorem assembles_streamFor {fs : List Sunk} (h : (finishRequest (sinkSection {} fs) []).1 = .ok) :
    assembles fs [] (streamFor fs).request := ⟨h, rfl⟩

/-- The head of a request without a body, with nothing configured. -/
def headFor (fs : List Sunk) : Bytes :=
  ({} : Outgoing).encodeHead (({} : UpstreamConfig).buildHead (streamFor fs) (streamFor fs).request.target)

/-- Both sides evaluated. -/
theorem oneHead_streamFor {fs : List Sunk} : OneHead {} (streamFor fs) {} ↔
    (parseRequest (headFor fs)).1 = .complete ∧ (parseRequest (headFor fs)).2.length = (headFor fs).length ∧
      (parseRequest (headFor fs)).2.methodName = (streamFor fs).request.methodName ∧
      (parseRequest (headFor fs)).2.target = (streamFor fs).request.target ∧
      (parseRequest (headFor fs)).2.versionMinor = 1 ∧ (parseRequest (headFor fs)).2.headers =
        (sentFields {} (streamFor fs) (streamFor fs).request.target {}).map trimmed := by
  constructor
  · rintro ⟨r, hr, hrest⟩
    have h₁ : (parseRequest (headFor fs)).1 = .complete := congrArg Prod.fst hr
    have h₂ : (parseRequest (headFor fs)).2 = r := congrArg Prod.snd hr
    rw [h₁, h₂]
    exact ⟨rfl, hrest⟩
  · rintro ⟨h₁, hrest⟩
    have hr : parseRequest (headFor fs) = (.complete, (parseRequest (headFor fs)).2) := by
      rw [← h₁]
    exact ⟨(parseRequest (headFor fs)).2, hr, hrest⟩

theorem forwarded_as_meant_iff_plainSection : assembles plainSection [] (streamFor plainSection).request ∧
      Forwardable {} (streamFor plainSection) {} ∧ OneHead {} (streamFor plainSection) {} := by
  have h : assembles plainSection [] (streamFor plainSection).request :=
    assembles_streamFor (by decide +kernel)
  have hone : OneHead {} (streamFor plainSection) {} :=
    oneHead_streamFor.mpr (by decide +kernel)
  have hiff := (forwarded_as_meant_iff h {} {} { serverNames := [] } true [] none).1
  exact ⟨h, hiff.mp hone, hone⟩

/-- A query with line ends in it. -/
def splitSection : List Sunk :=
  [literal (bytes ":method") (bytes "GET"), literal (bytes ":scheme") (bytes "https"),
    literal (bytes ":path") (bytes "/?q HTTP/1.1\r\nHost: a\r\n\r\nGET /internal"),
    literal (bytes ":authority") (bytes "www.example.com")]

/-- **The client ends the head**: the origin reads a request of the client's own making and
    then another one, on a connection that is kept. -/
theorem split_by_query :
    ¬ ∀ (fs : List Sunk) (protocol : Bytes) (s : Stream) (p : UpstreamConfig) (b : Outgoing),
      assembles fs protocol s.request → (normalizeTarget s.request.target).isSome = true → OneHead p s b := by
  intro h
  have hone := h splitSection [] (streamFor splitSection) {} {}
    (assembles_streamFor (by decide +kernel)) (by decide +kernel)
  have hshort : (parseRequest (headFor splitSection)).2.length ≠ (headFor splitSection).length := by
    decide +kernel
  have hwhole := (oneHead_streamFor.mp hone).2.1
  exact hshort hwhole

end Agensio.Proxy
