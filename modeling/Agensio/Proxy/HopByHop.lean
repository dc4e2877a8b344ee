/-
  Agensio.Proxy.HopByHop — the request side: which of a client's fields reach the origin.

  Over the model of `build_head` (`Proxy.Head`): the lines of the head that
  come from the client, whatever its fields are and however often one is
  repeated, apart from the lines the server writes itself.  `check_auth`
  takes the field of `forward_user` off the request before.

  `build_head` reads one Connection line, the first; a field that a later
  line names is passed on.  Of the forwarding fields it knows four names
  under `x-forwarded-` and passes the others.

  Main results:
    * `headFields_eq` — the head: an upgrade, the client's lines, the server's own;
    * `headFields_unclaimed_iff` — the head is the same whatever the client claims;
    * `requestApart_iff` — when nothing crosses to the origin.
-/
import Agensio.Proxy.Smuggling
import Agensio.Response.Resolved

namespace Agensio.Proxy

open Agensio.Codec (Field)
open Agensio.Http1
open Agensio.Response (iequals_iff)

abbrev connectionName : Bytes := bytes "connection"
abbrev upgradeName : Bytes := bytes "upgrade"

/-! ## §1. The client's lines. -/

namespace UpstreamConfig

variable (p : UpstreamConfig) (s : Stream)

/-- The lines the server writes, of its own and of the configuration. -/
def serverLines (l : Loop) : List Field :=
  p.hostLine s ++
    (if p.xForwarded then p.xffLine s l.xffLines ++ p.protoLine s ++ p.xfhLine s l.xfh else []) ++
    p.forwardedLine s l.forwardedLines l.xfh ++ p.realIpLine s ++ p.userLine s ++ p.setLines s

/-- The Upgrade of an upgrade that is asked for. -/
def upgradeLine : List Field :=
  if p.upgrading s then [(bytes "Upgrade", get s.request.headers upgradeName)] else []

/-- The client's field is left out by another rule than Connection's. -/
def dropped (name : Bytes) : Bool :=
  p.leftOut s name || (!iequals name cookieName &&
    if iequals name hostName then p.host ≠ .pass else isOwn s.conn.trustedPeer name)

end UpstreamConfig

section Lines

variable {p : UpstreamConfig} {s : Stream} {hs : List Field} {l : Loop}

/-- The head: an upgrade, the client's lines, the server's own. -/
theorem headFields_eq (p : UpstreamConfig) (s : Stream) : p.headFields s =
    p.upgradeLine s ++ p.clientLines s false s.request.headers ++
      p.serverLines s (p.headLoop s s.request.headers {}) := by
  unfold UpstreamConfig.headFields UpstreamConfig.upgradeLine UpstreamConfig.serverLines
  dsimp only
  rw [headLoop_lines]
  simp only [List.nil_append, List.append_assoc]

/-- A line of the client's bears the name of a field that is not dropped. -/
theorem mem_clientLines {f : Field} : ∀ {sent : Bool}, f ∈ p.clientLines s sent hs →
    ∃ g ∈ hs, (f.1 = g.1 ∨ (f.1 = bytes "Host" ∧ iequals g.1 hostName = true)) ∧ p.dropped s g.1 = false := by
  induction hs with
  | nil => intro sent h; cases h
  | cons g rest ih =>
    intro sent h
    have hrest : ∀ {sent : Bool}, f ∈ p.clientLines s sent rest →
        ∃ g' ∈ g :: rest, (f.1 = g'.1 ∨ (f.1 = bytes "Host" ∧ iequals g'.1 hostName = true)) ∧
          p.dropped s g'.1 = false := by
      intro sent h
      obtain ⟨g', hg', hname⟩ := ih h
      exact ⟨g', .tail _ hg', hname⟩
    unfold UpstreamConfig.clientLines at h
    split at h
    · exact hrest h
    next hleft =>
    rw [Bool.not_eq_true] at hleft
    split at h
    · next hcookie =>
      split at h
      · exact hrest h
      rcases List.mem_cons.mp h with rfl | h
      · refine ⟨g, .head _, .inl rfl, ?_⟩
        unfold UpstreamConfig.dropped
        rw [hleft, hcookie]
        rfl
      · exact hrest h
    · next hcookie =>
      rw [Bool.not_eq_true] at hcookie
      split at h
      · next hhost =>
        rw [List.mem_append] at h
        rcases h with h | h
        · split at h
          · next hpass =>
            rw [List.mem_singleton.mp h]
            refine ⟨g, .head _, .inr ⟨rfl, hhost⟩, ?_⟩
            unfold UpstreamConfig.dropped
            rw [hleft, hcookie, hhost]
            simp [hpass]
          · cases h
        · exact hrest h
      · next hhost =>
        rw [Bool.not_eq_true] at hhost
        split at h
        · exact hrest h
        next hown =>
        rw [Bool.not_eq_true] at hown
        rcases List.mem_cons.mp h with rfl | h
        · refine ⟨f, .head _, .inl rfl, ?_⟩
          unfold UpstreamConfig.dropped
          rw [hleft, hcookie, hhost, hown]
          rfl
        · exact hrest h

/-- A field that is not dropped is a line; of the cookies, the first. -/
theorem exists_clientLine {g : Field} (hg : g ∈ hs) (hdrop : p.dropped s g.1 = false) :
    ∀ sent : Bool, (sent = true → iequals g.1 cookieName = false) →
      ∃ f ∈ p.clientLines s sent hs, iequals f.1 g.1 = true := by
  have hleft : p.leftOut s g.1 = false := by
    unfold UpstreamConfig.dropped at hdrop
    exact (Bool.or_eq_false_iff.mp hdrop).1
  induction hs with
  | nil => cases hg
  | cons x rest ih =>
    intro sent hsent
    rcases List.mem_cons.mp hg with rfl | hg
    · unfold UpstreamConfig.dropped at hdrop
      rw [hleft, Bool.false_or] at hdrop
      unfold UpstreamConfig.clientLines
      rw [hleft, if_neg (by simp)]
      cases hcookie : iequals g.1 cookieName with
      | true =>
        have hs : sent = false := by
          by_contra h
          rw [Bool.not_eq_false] at h
          rw [hsent h] at hcookie
          cases hcookie
        rw [if_pos rfl, hs, if_neg (by simp)]
        exact ⟨_, .head _, iequals_iff.mpr rfl⟩
      | false =>
        rw [if_neg (by simp)]
        rw [hcookie, Bool.not_false, Bool.true_and] at hdrop
        cases hhost : iequals g.1 hostName with
        | true =>
          rw [hhost, if_pos rfl, decide_eq_false_iff_not, not_not] at hdrop
          rw [if_pos rfl, if_pos hdrop]
          refine ⟨_, List.mem_append_left _ (List.mem_singleton.mpr rfl), ?_⟩
          exact iequals_iff.mpr ((show (bytes "Host").map lower = hostName.map lower by decide).trans
            (iequals_iff.mp hhost).symm)
        | false =>
          rw [hhost, if_neg (by simp)] at hdrop
          rw [if_neg (by simp), hdrop, if_neg (by simp)]
          exact ⟨_, .head _, iequals_iff.mpr rfl⟩
    · -- a line before does not take this one's place, unless it is the cookie's own
      unfold UpstreamConfig.clientLines
      split
      · exact ih hg sent hsent
      split
      · next hx =>
        split
        · exact ih hg sent hsent
        by_cases hcookie : iequals g.1 cookieName = true
        · exact ⟨_, .head _, iequals_iff.mpr ((iequals_iff.mp hx).trans (iequals_iff.mp hcookie).symm)⟩
        obtain ⟨f, hf, hname⟩ := ih hg true fun _ => Bool.eq_false_iff.mpr hcookie
        exact ⟨f, .tail _ hf, hname⟩
      · split
        · obtain ⟨f, hf, hname⟩ := ih hg sent hsent
          exact ⟨f, List.mem_append_right _ hf, hname⟩
        split
        · exact ih hg sent hsent
        obtain ⟨f, hf, hname⟩ := ih hg sent hsent
        exact ⟨f, .tail _ hf, hname⟩

/-- The Host lines that come from the client. -/
theorem countP_host_clientLines (hs : List Field) : ∀ sent : Bool, (p.clientLines s sent hs).countP (named hostName) =
    if p.host = .pass then hs.countP (fun f => named hostName f && !p.leftOut s f.1) else 0 := by
  induction hs with
  | nil => intro sent; simp [UpstreamConfig.clientLines]
  | cons g rest ih =>
    intro sent
    have hskip : (named hostName g && !p.leftOut s g.1) = false →
        (if p.host = .pass then (g :: rest).countP (fun f => named hostName f && !p.leftOut s f.1) else 0) =
          if p.host = .pass then rest.countP (fun f => named hostName f && !p.leftOut s f.1) else 0 := by
      intro h
      rw [List.countP_cons_of_neg (by rw [h]; decide)]
    unfold UpstreamConfig.clientLines
    split
    · next hleft => rw [ih, hskip (by rw [hleft, Bool.not_true, Bool.and_false])]
    next hleft =>
    split
    · next hcookie =>
      have hnot : named hostName g = false := Scan.not_iequals hcookie (by decide)
      split
      · rw [ih, hskip (by rw [hnot, Bool.false_and])]
      · rw [List.countP_cons_of_neg (by simpa [named] using hnot), ih, hskip (by rw [hnot, Bool.false_and])]
    · split
      · next hhost =>
        have hyes : (named hostName g && !p.leftOut s g.1) = true := by
          rw [Bool.eq_false_iff.mpr hleft]
          simpa [named] using hhost
        rw [List.countP_append, ih, List.countP_cons, if_pos hyes]
        by_cases hpass : p.host = .pass
        · rw [if_pos hpass, if_pos hpass, if_pos hpass, List.countP_singleton,
            if_pos (show named hostName (bytes "Host", g.2) = true from (by decide : iequals (bytes "Host") hostName = true))]
          omega
        · rw [if_neg hpass, if_neg hpass, if_neg hpass]
          rfl
      · next hhost =>
        have hnot : named hostName g = false := Bool.eq_false_iff.mpr hhost
        split
        · rw [ih, hskip (by rw [hnot, Bool.false_and])]
        · rw [List.countP_cons_of_neg (by simp [hnot]), ih, hskip (by rw [hnot, Bool.false_and])]

/-- The cookies are one line. -/
theorem countP_cookie_clientLines (hs : List Field) : ∀ sent : Bool,
    (p.clientLines s sent hs).countP (named cookieName) ≤ (!sent).toNat := by
  induction hs with
  | nil => intro sent; simp [UpstreamConfig.clientLines]
  | cons g rest ih =>
    intro sent
    unfold UpstreamConfig.clientLines
    split
    · exact ih sent
    split
    · next hcookie =>
      split
      · exact ih sent
      next hsent =>
      rw [Bool.not_eq_true] at hsent
      rw [List.countP_cons_of_pos (show named cookieName (g.1, g.2 ++ crumbs rest) = true from hcookie), hsent]
      have := ih true
      simpa using this
    · next hcookie =>
      split
      · rw [List.countP_append]
        have hnone : (if p.host = .pass then [(bytes "Host", g.2)] else []).countP (named cookieName) = 0 := by
          split
          · rw [List.countP_singleton,
              if_neg (show ¬ named cookieName (bytes "Host", g.2) = true from
                (by decide : ¬ iequals (bytes "Host") cookieName = true))]
          · rfl
        rw [hnone, Nat.zero_add]
        exact ih sent
      · split
        · exact ih sent
        rw [List.countP_cons_of_neg (show ¬ named cookieName g = true from hcookie)]
        exact ih sent

end Lines

/-! ## §2. What a client may claim with. -/

/-- A name under `x-forwarded-`. -/
def startsForwarded (n : Bytes) : Bool := (bytes "x-forwarded-").isPrefixOf (n.map lower)

/-- A field a client claims an address, a host or a scheme with. -/
def claimName (n : Bytes) : Bool :=
  startsForwarded n || iequals n forwardedName || addressClaim n ≠ .none

/-- A name under `x-forwarded-` that `build_head` does not know. -/
def otherForwarded (n : Bytes) : Bool :=
  startsForwarded n && !(iequals n xffName || iequals n xfhName || iequals n (bytes "x-forwarded-proto") ||
    iequals n (bytes "x-forwarded-port"))

namespace Stream

variable (s : Stream)

def withHeaders (hs : List Field) : Stream := { s with request := { s.request with headers := hs } }

/-- The field of `forward_user`. -/
def userField (f : Field) : Bool := !s.auth.forwardField.isEmpty && iequals f.1 s.auth.forwardField

/-- `check_auth`: only the server sets this field. -/
def received : Stream := s.withHeaders (s.request.headers.filter fun f => !s.userField f)

/-- The request without any claim of the client's. -/
def unclaimed : Stream := s.withHeaders (s.request.headers.filter fun f => !claimName f.1 && !s.userField f)

end Stream

section Claims

variable {p : UpstreamConfig} {s : Stream} {hs : List Field}

theorem claimName_congr {a b : Bytes} (h : iequals a b = true) : claimName a = claimName b := by
  have hi : ∀ w : Bytes, iequals a w = iequals b w := by
    intro w
    unfold iequals
    rw [iequals_iff.mp h]
  have hc : addressClaim a = addressClaim b := by
    unfold addressClaim
    simp only [hi]
  unfold claimName startsForwarded
  rw [hi, hc, iequals_iff.mp h]

theorem get_filter {k : Bytes} {keep : Field → Bool} (h : ∀ f ∈ hs, iequals f.1 k = true → keep f = true) :
    get (hs.filter keep) k = get hs k := by
  unfold get
  congr 2
  induction hs with
  | nil => rfl
  | cons g rest ih =>
    have ih' := ih fun f hf => h f (.tail _ hf)
    rw [List.find?_cons]
    cases hk : iequals g.1 k with
    | true => rw [List.filter_cons_of_pos (h g (.head _) hk), List.find?_cons, hk]
    | false =>
      rw [List.filter_cons]
      split
      · rw [List.find?_cons, hk]
        exact ih'
      · exact ih'

/-- Names that are no claims are found as before. -/
theorem get_unclaimed (hs : List Field) {k : Bytes} (hk : claimName k = false) :
    get (hs.filter fun f => !claimName f.1) k = get hs k := by
  refine get_filter fun f _ hf => ?_
  rw [claimName_congr hf, hk]
  rfl

theorem crumbs_unclaimed : crumbs (hs.filter fun f => !claimName f.1) = crumbs hs := by
  unfold crumbs
  induction hs with
  | nil => rfl
  | cons g rest ih =>
    rw [List.filter_cons]
    cases hg : claimName g.1 with
    | false =>
      rw [if_pos (show (!false) = true from rfl), List.flatMap_cons, List.flatMap_cons, ih]
    | true =>
      have hnot : iequals g.1 cookieName = false := by
        by_contra h
        rw [Bool.not_eq_false] at h
        rw [claimName_congr h] at hg
        cases hg
      rw [if_neg (by simp), ih, List.flatMap_cons, hnot, if_neg (by simp), List.nil_append]

theorem not_claim_of_known {g : Field} {k : Bytes} (h : iequals g.1 k = true) (hk : claimName k = false) :
    claimName g.1 = false := by
  rw [claimName_congr h, hk]

/-- **The client's lines without its claims** are those lines less the claims. -/
theorem clientLines_unclaimed : ∀ sent : Bool, p.clientLines s sent (hs.filter fun f => !claimName f.1) =
      (p.clientLines s sent hs).filter fun f => !claimName f.1 := by
  induction hs with
  | nil => intro sent; rfl
  | cons g rest ih =>
    intro sent
    rw [List.filter_cons]
    cases hg : claimName g.1 with
    | true =>
      rw [if_neg (by simp)]
      have hcookie : iequals g.1 cookieName = false := by
        by_contra h
        rw [Bool.not_eq_false] at h
        rw [not_claim_of_known h (by decide)] at hg
        cases hg
      have hhost : iequals g.1 hostName = false := by
        by_contra h
        rw [Bool.not_eq_false] at h
        rw [not_claim_of_known h (by decide)] at hg
        cases hg
      conv_rhs => unfold UpstreamConfig.clientLines
      split
      · exact ih sent
      rw [hcookie, hhost, if_neg (by simp), if_neg (by simp)]
      split
      · exact ih sent
      rw [List.filter_cons_of_neg (by simp [hg])]
      exact ih sent
    | false =>
      rw [if_pos (show (!false) = true from rfl)]
      unfold UpstreamConfig.clientLines
      split
      · exact ih sent
      split
      · split
        · exact ih sent
        · rw [List.filter_cons_of_pos (by simp [hg]), ih, crumbs_unclaimed]
      · split
        · rw [List.filter_append, ih]
          congr 1
          split
          · rw [List.filter_cons_of_pos (by rw [show claimName (bytes "Host") = false by decide]; rfl)]
            rfl
          · rfl
        · split
          · exact ih sent
          · rw [List.filter_cons_of_pos (by simp [hg]), ih]

theorem received_unclaimed : s.unclaimed.received =
    s.received.withHeaders (s.received.request.headers.filter fun f => !claimName f.1) := by
  unfold Stream.unclaimed Stream.received Stream.withHeaders Stream.userField
  dsimp only
  rw [List.filter_filter, List.filter_filter]
  congr 3
  funext f
  cases claimName f.1 <;> simp

end Claims

/-! ## §3. The head whatever a client claims. -/

section TwoRuns

variable {p : UpstreamConfig} {s : Stream} {hs : List Field}

theorem clientLines_congr {t : Stream} (hleft : ∀ n, p.leftOut t n = p.leftOut s n)
    (htrust : t.conn.trustedPeer = s.conn.trustedPeer) :
    ∀ sent : Bool, p.clientLines t sent hs = p.clientLines s sent hs := by
  induction hs with
  | nil => intro sent; rfl
  | cons g rest ih =>
    intro sent
    unfold UpstreamConfig.clientLines
    rw [hleft, htrust, ih, ih]

theorem expand_withHeaders (hs : List Field) (v : Bytes) : (s.withHeaders hs).expand v = s.expand v := by
  have hfrom : ∀ (fuel : Nat) (v : Bytes), (s.withHeaders hs).expandFrom fuel v = s.expandFrom fuel v := by
    intro fuel
    induction fuel with
    | zero => intro v; rfl
    | succ fuel ih =>
      intro v
      cases v with
      | nil => rfl
      | cons c cs =>
        unfold Stream.expandFrom
        rw [show (s.withHeaders hs).expansions = s.expansions from rfl]
        simp only [ih]
  exact hfrom _ _

/-- The server's lines, when nothing of the client's is believed. -/
theorem serverLines_withHeaders {l l' : Loop} (hxff : l.xffLines = false) (hfwd : l.forwardedLines = false)
    (hxfh : l.xfh = []) (hxff' : l'.xffLines = false) (hfwd' : l'.forwardedLines = false) (hxfh' : l'.xfh = [])
    (hhost : get hs hostName = get s.request.headers hostName) :
    p.serverLines (s.withHeaders hs) l' = p.serverLines s l := by
  have hset : p.setLines (s.withHeaders hs) = p.setLines s := by
    unfold UpstreamConfig.setLines
    simp only [expand_withHeaders]
  have hline : p.hostLine (s.withHeaders hs) = p.hostLine s := by
    unfold UpstreamConfig.hostLine
    rw [show (s.withHeaders hs).request.headers = hs from rfl, hhost]
    rfl
  unfold UpstreamConfig.serverLines
  rw [hset, hline, hxff, hfwd, hxfh, hxff', hfwd', hxfh']
  rfl

/-- The loop's flags stay down for a client nobody trusts. -/
theorem headLoop_untrusted (p : UpstreamConfig) (hs : List Field) (htrust : s.conn.trustedPeer = false) :
    (p.headLoop s hs {}).xffLines = false ∧ (p.headLoop s hs {}).forwardedLines = false ∧
      (p.headLoop s hs {}).xfh = [] := by
  rw [headLoop_xffLines, headLoop_forwardedLines, headLoop_xfh, htrust]
  refine ⟨?_, ?_, rfl⟩
  · split <;> rfl
  · split <;> rfl

/-- **The head without the client's claims**, for a client nobody trusts. -/
theorem headFields_unclaimed (htrust : s.conn.trustedPeer = false) :
    p.headFields (s.withHeaders (s.request.headers.filter fun f => !claimName f.1)) =
      p.upgradeLine s ++ (p.clientLines s false s.request.headers).filter (fun f => !claimName f.1) ++
        p.serverLines s (p.headLoop s s.request.headers {}) := by
  have hconn := get_unclaimed s.request.headers (k := connectionName) (by decide)
  have hup := get_unclaimed s.request.headers (k := upgradeName) (by decide)
  have hhost := get_unclaimed s.request.headers (k := hostName) (by decide)
  have hleft : ∀ n, p.leftOut (s.withHeaders (s.request.headers.filter fun f => !claimName f.1)) n =
      p.leftOut s n := by
    intro n
    unfold UpstreamConfig.leftOut
    rw [show (s.withHeaders (s.request.headers.filter fun f => !claimName f.1)).request.headers =
      s.request.headers.filter fun f => !claimName f.1 from rfl, hconn]
    rfl
  have hupgrade : p.upgradeLine (s.withHeaders (s.request.headers.filter fun f => !claimName f.1)) =
      p.upgradeLine s := by
    unfold UpstreamConfig.upgradeLine UpstreamConfig.upgrading
    rw [show (s.withHeaders (s.request.headers.filter fun f => !claimName f.1)).request.headers =
      s.request.headers.filter fun f => !claimName f.1 from rfl, hconn, hup]
    rfl
  obtain ⟨h₁, h₂, h₃⟩ := headLoop_untrusted p s.request.headers htrust
  obtain ⟨h₁', h₂', h₃'⟩ := headLoop_untrusted p
    (s := s.withHeaders (s.request.headers.filter fun f => !claimName f.1))
    (s.request.headers.filter fun f => !claimName f.1) htrust
  rw [headFields_eq, hupgrade, clientLines_congr hleft rfl]
  rw [show (s.withHeaders (s.request.headers.filter fun f => !claimName f.1)).request.headers =
    s.request.headers.filter fun f => !claimName f.1 from rfl, clientLines_unclaimed,
    serverLines_withHeaders h₁ h₂ h₃ h₁' h₂' h₃' hhost]

/-- The claims `build_head` knows are its own to write. -/
theorem isOwn_of_claim {n : Bytes} (h : claimName n = true) (hother : otherForwarded n = false) :
    isOwn false n = true := by
  unfold claimName at h
  unfold isOwn claims
  rw [Bool.or_eq_true, Bool.or_eq_true, decide_eq_true_eq] at h
  rcases h with (h | h) | h
  · unfold otherForwarded at hother
    rw [h, Bool.true_and, Bool.not_eq_false'] at hother
    simp only [Bool.or_eq_true] at hother ⊢
    rcases hother with ((h | h) | h) | h <;> simp [h]
  · simp [h]
  · cases hc : addressClaim n with
    | none => exact absurd hc h
    | realIp => simp
    | cdn => simp

/-- **The same head whatever the client claims**, exactly when no other name under `x-forwarded-`
    passes. -/
theorem headFields_unclaimed_iff (htrust : s.conn.trustedPeer = false) :
    p.headFields s = p.headFields (s.withHeaders (s.request.headers.filter fun f => !claimName f.1)) ↔
      ∀ f ∈ s.request.headers, otherForwarded f.1 = true → p.dropped s f.1 = true := by
  rw [headFields_unclaimed htrust, headFields_eq, List.append_left_inj, List.append_right_inj]
  rw [eq_comm, List.filter_eq_self]
  constructor
  · intro h f hf hother
    by_contra hdrop
    rw [Bool.not_eq_true] at hdrop
    obtain ⟨g, hg, hname⟩ := exists_clientLine hf hdrop false nofun
    have hclaim : claimName f.1 = true := by
      unfold otherForwarded at hother
      unfold claimName
      rw [(Bool.and_eq_true_iff.mp hother).1]
      rfl
    have := h g hg
    rw [claimName_congr hname, hclaim] at this
    cases this
  · intro h f hf
    obtain ⟨g, hg, hname, hdrop⟩ := mem_clientLines hf
    rcases hname with hname | ⟨hname, -⟩
    · rw [hname, Bool.not_eq_true']
      by_contra hclaim
      rw [Bool.not_eq_false] at hclaim
      cases hother : otherForwarded g.1 with
      | true =>
        rw [h g hg hother] at hdrop
        cases hdrop
      | false =>
        have hown := isOwn_of_claim hclaim hother
        have hcookie : iequals g.1 cookieName = false := by
          by_contra hc
          rw [Bool.not_eq_false] at hc
          rw [not_claim_of_known hc (by decide)] at hclaim
          cases hclaim
        have hhost : iequals g.1 hostName = false := by
          by_contra hc
          rw [Bool.not_eq_false] at hc
          rw [not_claim_of_known hc (by decide)] at hclaim
          cases hclaim
        unfold UpstreamConfig.dropped at hdrop
        rw [hcookie, hhost, htrust, hown] at hdrop
        simp at hdrop
    · rw [hname]
      decide

end TwoRuns

/-! ## §4. One Host, one Cookie. -/

/-- What the loader and the parsers have seen to: one value for a configured name, no Cookie as the
    field of `forward_user`, one Host line. -/
structure Checked (p : UpstreamConfig) (s : Stream) : Prop where
  distinct : p.setHeaders.Pairwise fun a b => iequals a.1 b.1 = false
  userNotCookie : iequals s.auth.forwardField cookieName = false
  oneHost : s.request.headers.countP (named hostName) ≤ 1

section Counts

variable {p : UpstreamConfig} {s : Stream} {k : Bytes} {l : Loop}

/-- A configured name is written once at most. -/
theorem countP_setLines (h : p.setHeaders.Pairwise fun a b => iequals a.1 b.1 = false) :
    (p.setLines s).countP (named k) ≤ (p.configured k).toNat := by
  unfold UpstreamConfig.setLines UpstreamConfig.configured
  rw [List.countP_map, List.countP_filter]
  generalize hp : (fun a : Field => (named k ∘ fun h => (h.1, s.expand h.2)) a && !a.2.isEmpty) = test
  have htest : ∀ a, test a = true → iequals a.1 k = true := by
    intro a ha
    rw [← hp] at ha
    exact (Bool.and_eq_true_iff.mp ha).1
  clear hp
  generalize p.setHeaders = L at h
  induction L with
  | nil => simp
  | cons a rest ih =>
    obtain ⟨ha, hrest⟩ := List.pairwise_cons.mp h
    rw [List.countP_cons, List.any_cons]
    cases hk : iequals a.1 k with
    | false =>
      have hnot : ¬ test a = true := by
        intro ht
        rw [htest a ht] at hk
        cases hk
      rw [if_neg hnot, Nat.add_zero, Bool.false_or]
      exact ih hrest
    | true =>
      -- no other has this name
      have hzero : rest.countP test = 0 := by
        rw [List.countP_eq_zero]
        intro b hb ht
        have := ha b hb
        rw [iequals_iff.mpr ((iequals_iff.mp hk).trans (iequals_iff.mp (htest b ht)).symm)] at this
        cases this
      rw [hzero]
      split <;> simp

/-- A name only the client, the Host line and the configuration use. -/
theorem countP_serverLines (hown : ([bytes "X-Forwarded-For", bytes "X-Forwarded-Proto", bytes "X-Forwarded-Host",
      bytes "Forwarded", bytes "X-Real-IP"].any fun n => iequals n k) = false)
    (huser : iequals s.auth.forwardField k = false) : (p.serverLines s l).countP (named k) =
      (p.hostLine s).countP (named k) + (p.setLines s).countP (named k) := by
  have hnot : ∀ n ∈ [bytes "X-Forwarded-For", bytes "X-Forwarded-Proto", bytes "X-Forwarded-Host",
      bytes "Forwarded", bytes "X-Real-IP"], ∀ v, ¬ named k (n, v) = true := by
    intro n hn v hv
    rw [List.any_eq_false] at hown
    exact hown n hn hv
  have hone : ∀ n ∈ [bytes "X-Forwarded-For", bytes "X-Forwarded-Proto", bytes "X-Forwarded-Host",
      bytes "Forwarded", bytes "X-Real-IP"], ∀ v, List.countP (named k) [(n, v)] = 0 := by
    intro n hn v
    rw [List.countP_singleton, if_neg (hnot n hn v)]
  have hxff : (p.xffLine s l.xffLines).countP (named k) = 0 := by
    unfold UpstreamConfig.xffLine
    split
    · rfl
    · exact hone _ (by simp) _
  have hproto : (p.protoLine s).countP (named k) = 0 := by
    unfold UpstreamConfig.protoLine
    split
    · rfl
    · exact hone _ (by simp) _
  have hxfh : (p.xfhLine s l.xfh).countP (named k) = 0 := by
    unfold UpstreamConfig.xfhLine
    split
    · exact hone _ (by simp) _
    · rfl
  have hfwd : (p.forwardedLine s l.forwardedLines l.xfh).countP (named k) = 0 := by
    unfold UpstreamConfig.forwardedLine
    split
    · exact hone _ (by simp) _
    · rfl
  have hreal : (p.realIpLine s).countP (named k) = 0 := by
    unfold UpstreamConfig.realIpLine
    split
    · exact hone _ (by simp) _
    · rfl
  have huserLine : (p.userLine s).countP (named k) = 0 := by
    unfold UpstreamConfig.userLine
    split
    · rw [List.countP_singleton, if_neg (by simpa [named] using huser)]
    · rfl
  unfold UpstreamConfig.serverLines
  simp only [List.countP_append, hfwd, hreal, huserLine, Nat.add_zero]
  split
  · simp only [List.countP_append, hxff, hproto, hxfh, Nat.add_zero]
  · rfl

theorem countP_upgradeLine (hk : iequals (bytes "Upgrade") k = false) : (p.upgradeLine s).countP (named k) = 0 := by
  unfold UpstreamConfig.upgradeLine
  split
  · rw [List.countP_singleton, if_neg (by simpa [named] using hk)]
  · rfl

/-- A configured name leaves the client's out. -/
theorem leftOut_of_configured {n : Bytes} (hn : iequals n k = true) (h : p.configured k = true) :
    p.leftOut s n = true := by
  have hc : p.configured n = true := by
    unfold UpstreamConfig.configured at h ⊢
    rw [List.any_eq_true] at h ⊢
    obtain ⟨a, ha, hak⟩ := h
    exact ⟨a, ha, iequals_iff.mpr ((iequals_iff.mp hak).trans (iequals_iff.mp hn).symm)⟩
  unfold UpstreamConfig.leftOut
  rw [hc]
  simp

/-- **One Cookie line.** -/
theorem countP_cookie (h : Checked p s) : (p.headFields s).countP (named cookieName) ≤ 1 := by
  rw [headFields_eq, List.countP_append, List.countP_append, countP_upgradeLine (by decide),
    countP_serverLines (by decide) h.userNotCookie]
  have hhost : (p.hostLine s).countP (named cookieName) = 0 := by
    have hone : ∀ v, List.countP (named cookieName) [(bytes "Host", v)] = 0 := by
      intro v
      rw [List.countP_singleton, if_neg (show ¬ named cookieName (bytes "Host", v) = true from
        (by decide : ¬ iequals (bytes "Host") cookieName = true))]
    unfold UpstreamConfig.hostLine
    split
    · rfl
    split
    · exact hone _
    · exact hone _
    split
    · exact hone _
    · rfl
  have hset := countP_setLines (s := s) (k := cookieName) h.distinct
  have hclient := countP_cookie_clientLines (p := p) (s := s) s.request.headers false
  cases hc : p.configured cookieName with
  | false =>
    rw [hc] at hset
    simp only [Bool.toNat_false, Bool.not_false, Bool.toNat_true] at hset hclient
    omega
  | true =>
    -- the client's are left out for the configured one
    have hzero : (p.clientLines s false s.request.headers).countP (named cookieName) = 0 := by
      rw [List.countP_eq_zero]
      intro f hf hn
      obtain ⟨g, -, hname, hdrop⟩ := mem_clientLines hf
      rcases hname with hname | ⟨hname, -⟩
      · rw [named, hname] at hn
        unfold UpstreamConfig.dropped at hdrop
        rw [leftOut_of_configured hn hc] at hdrop
        cases hdrop
      · rw [named, hname] at hn
        cases hn
    rw [hc] at hset
    simp only [Bool.toNat_true] at hset
    omega

/-- The client's Host line does not stand beside one of the server's: none that is passed is empty
    while the request names a host. -/
def HostApart (p : UpstreamConfig) (s : Stream) : Prop :=
  p.configured hostName = false → p.host = .pass → s.request.host ≠ [] →
    ∀ f ∈ s.request.headers, named hostName f = true → p.leftOut s f.1 = false → f.2 ≠ []

/-- **One Host line**, exactly when no empty one is passed beside the request's host. -/
theorem countP_host_iff (h : Checked p s) : (p.headFields s).countP (named hostName) ≤ 1 ↔ HostApart p s := by
  have hset := countP_setLines (s := s) (k := hostName) h.distinct
  rw [headFields_eq, List.countP_append, List.countP_append, countP_upgradeLine (by decide),
    countP_serverLines (by decide) s.auth.field_not_host, countP_host_clientLines]
  have hone : ∀ v, List.countP (named hostName) [(bytes "Host", v)] = 1 := by
    intro v
    rw [List.countP_singleton, if_pos (show named hostName (bytes "Host", v) = true from
      (by decide : iequals (bytes "Host") hostName = true))]
  have hle : s.request.headers.countP (fun f => named hostName f && !p.leftOut s f.1) ≤ 1 :=
    Nat.le_trans (List.countP_mono_left fun f _ hf => (Bool.and_eq_true_iff.mp hf).1) h.oneHost
  unfold HostApart
  cases hc : p.configured hostName with
  | true =>
    -- the client's is left out, and the one line is the configuration's
    have hzero : s.request.headers.countP (fun f => named hostName f && !p.leftOut s f.1) = 0 := by
      rw [List.countP_eq_zero]
      intro f _ hf
      rw [Bool.and_eq_true, Bool.not_eq_true'] at hf
      rw [leftOut_of_configured hf.1 hc] at hf
      cases hf.2
    have hline : p.hostLine s = [] := by
      unfold UpstreamConfig.hostLine
      rw [hc]
      rfl
    rw [hc] at hset
    rw [hzero, hline]
    simp only [Bool.toNat_true] at hset
    refine ⟨fun _ => nofun, fun _ => ?_⟩
    simp only [ite_self, List.countP_nil]
    omega
  | false =>
    rw [hc] at hset
    simp only [Bool.toNat_false] at hset
    rw [Nat.le_zero.mp hset]
    cases hp : p.host with
    | upstream =>
      have hline : p.hostLine s = [(bytes "Host", p.authority)] := by
        unfold UpstreamConfig.hostLine
        rw [hc, hp]
        rfl
      rw [hline, if_neg (by simp)]
      simp [hone]
    | literal name =>
      have hline : p.hostLine s = [(bytes "Host", name)] := by
        unfold UpstreamConfig.hostLine
        rw [hc, hp]
        rfl
      rw [hline, if_neg (by simp)]
      simp [hone]
    | pass =>
      have hline : p.hostLine s = if (get s.request.headers hostName).isEmpty && !s.request.host.isEmpty then
          [(bytes "Host", s.request.host)] else [] := by
        unfold UpstreamConfig.hostLine
        rw [hc, hp]
        rfl
      rw [hline, if_pos rfl]
      -- the one Host line there is, if there is one
      have hget : ∀ f ∈ s.request.headers, named hostName f = true → get s.request.headers hostName = f.2 := by
        intro f hf hn
        have hlen := h.oneHost
        rw [List.countP_eq_length_filter] at hlen
        have hmem : f ∈ s.request.headers.filter (named hostName) := List.mem_filter.mpr ⟨hf, hn⟩
        have hsingle : s.request.headers.filter (named hostName) = [f] := by
          cases hfs : s.request.headers.filter (named hostName) with
          | nil => rw [hfs] at hmem; cases hmem
          | cons a rest =>
            rw [hfs] at hlen hmem
            have hrest : rest = [] := List.eq_nil_of_length_eq_zero (by simpa using hlen)
            rw [hrest] at hmem ⊢
            rw [List.mem_singleton.mp hmem]
        unfold get
        rw [show (s.request.headers.find? fun f => iequals f.1 hostName) = s.request.headers.find? (named hostName) from rfl,
          ← List.head?_filter, hsingle]
        rfl
      constructor
      · intro hcount _ _ hreq f hf hn hleft hempty
        have hpos : 0 < s.request.headers.countP (fun f => named hostName f && !p.leftOut s f.1) :=
          List.countP_pos_iff.mpr ⟨f, hf, by rw [hn, hleft]; rfl⟩
        rw [hget f hf hn, hempty] at hcount
        have hne : s.request.host.isEmpty = false := by
          cases hh : s.request.host with
          | nil => exact absurd hh hreq
          | cons c cs => rfl
        rw [hne, if_pos (by rfl), hone] at hcount
        omega
      · intro hfits
        split
        · next hboth =>
          rw [Bool.and_eq_true, Bool.not_eq_true', List.isEmpty_iff] at hboth
          have hreq : s.request.host ≠ [] := by
            intro he
            rw [he] at hboth
            cases hboth.2
          have hzero : s.request.headers.countP (fun f => named hostName f && !p.leftOut s f.1) = 0 := by
            rw [List.countP_eq_zero]
            intro f hf hfn
            rw [Bool.and_eq_true, Bool.not_eq_true'] at hfn
            exact hfits rfl rfl hreq f hf hfn.1 hfn.2 ((hget f hf hfn.1).symm.trans hboth.1)
          rw [hzero, hone]
        · rw [List.countP_nil]
          omega

end Counts

/-! ## §5. Nothing crosses to the origin. -/

/-- What the origin is sent of a request `s`, as the client sent it. -/
structure RequestApart (p : UpstreamConfig) (s : Stream) : Prop where
  /-- The head: an accepted upgrade, the client's lines, the server's own. -/
  head : p.headFields s.received = p.upgradeLine s.received ++
    p.clientLines s.received false s.received.request.headers ++
      p.serverLines s.received (p.headLoop s.received s.received.request.headers {})
  /-- No hop-by-hop field of the client's, and none with an underscore. -/
  plain : ∀ f ∈ p.clientLines s.received false s.received.request.headers,
    isHopByHop f.1 = false ∧ f.1.contains 0x5f = false
  /-- None that a Connection line of the client's names. -/
  listed : ∀ f ∈ p.clientLines s.received false s.received.request.headers,
    ∀ c ∈ s.request.headers, named connectionName c = true → connectionLists c.2 f.1 = false
  host : (p.headFields s.received).countP (named hostName) ≤ 1
  cookie : (p.headFields s.received).countP (named cookieName) ≤ 1
  /-- Nobody is believed but a trusted proxy. -/
  claims : s.conn.trustedPeer = false → p.headFields s.received = p.headFields s.unclaimed.received

/-- When that is so: a condition on what the client sent. -/
structure RequestFits (p : UpstreamConfig) (s : Stream) : Prop where
  /-- What a Connection line names is left out for another reason, or the line is the first. -/
  listed : ∀ f ∈ s.received.request.headers, ∀ c ∈ s.request.headers, named connectionName c = true →
    connectionLists c.2 f.1 = true → p.dropped s.received f.1 = true
  host : HostApart p s.received
  /-- No other name under `x-forwarded-` passes. -/
  claims : s.conn.trustedPeer = false → ∀ f ∈ s.received.request.headers, otherForwarded f.1 = true →
    p.dropped s.received f.1 = true

section Request

variable {p : UpstreamConfig} {s : Stream}

theorem connectionLists_congr {v a b : Bytes} (h : iequals a b = true) : connectionLists v a = connectionLists v b := by
  unfold connectionLists iequals
  rw [iequals_iff.mp h]

/-- A line's name is a name that is not dropped. -/
theorem leftOut_of_line {f : Field} {hs : List Field} {sent : Bool} (hf : f ∈ p.clientLines s sent hs) :
    isHopByHop f.1 = false ∧ f.1.contains 0x5f = false := by
  obtain ⟨g, -, hname, hdrop⟩ := mem_clientLines hf
  rcases hname with hname | ⟨hname, -⟩
  · unfold UpstreamConfig.dropped UpstreamConfig.leftOut at hdrop
    simp only [Bool.or_eq_false_iff] at hdrop
    rw [hname]
    exact ⟨hdrop.1.1.1.1.1.1, hdrop.1.1.1.2⟩
  · rw [hname]
    decide

theorem listed_iff : (∀ f ∈ p.clientLines s.received false s.received.request.headers,
      ∀ c ∈ s.request.headers, named connectionName c = true → connectionLists c.2 f.1 = false) ↔
    ∀ f ∈ s.received.request.headers, ∀ c ∈ s.request.headers, named connectionName c = true →
      connectionLists c.2 f.1 = true → p.dropped s.received f.1 = true := by
  constructor
  · intro h f hf c hc hn hlist
    by_contra hdrop
    rw [Bool.not_eq_true] at hdrop
    obtain ⟨g, hg, hname⟩ := exists_clientLine hf hdrop false nofun
    have := h g hg c hc hn
    rw [connectionLists_congr hname, hlist] at this
    cases this
  · intro h f hf c hc hn
    obtain ⟨g, hg, hname, hdrop⟩ := mem_clientLines hf
    have hsame : iequals g.1 f.1 = true := by
      rcases hname with hname | ⟨hname, hhost⟩
      · rw [hname]
        exact iequals_iff.mpr rfl
      rw [hname]
      exact iequals_iff.mpr ((iequals_iff.mp hhost).trans
        (show hostName.map lower = (bytes "Host").map lower by decide))
    by_contra hlist
    rw [Bool.not_eq_false, ← connectionLists_congr hsame] at hlist
    rw [h g hg c hc hn hlist] at hdrop
    cases hdrop

theorem Checked.received (h : Checked p s) : Checked p s.received where
  distinct := h.distinct
  userNotCookie := h.userNotCookie
  oneHost := by
    refine Nat.le_trans ?_ h.oneHost
    exact List.Sublist.countP_le List.filter_sublist

/-- **When nothing crosses to the origin.** -/
theorem requestApart_iff (h : Checked p s) : RequestApart p s ↔ RequestFits p s := by
  constructor
  · intro ha
    refine ⟨listed_iff.mp ha.listed, (countP_host_iff h.received).mp ha.host, ?_⟩
    intro htrust
    have hsame := ha.claims htrust
    rw [received_unclaimed] at hsame
    exact (headFields_unclaimed_iff (s := s.received) htrust).mp hsame
  · intro hf
    refine
      { head := headFields_eq p s.received, plain := fun f hf => leftOut_of_line hf
        listed := listed_iff.mpr hf.listed, host := (countP_host_iff h.received).mpr hf.host
        cookie := countP_cookie h.received, claims := ?_ }
    intro htrust
    rw [received_unclaimed]
    exact (headFields_unclaimed_iff (s := s.received) htrust).mpr (hf.claims htrust)

end Request

end Agensio.Proxy
