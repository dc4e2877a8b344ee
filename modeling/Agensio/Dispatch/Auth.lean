/-
  Agensio.Dispatch.Auth — one password check.

  Model of `core/auth.cpp` (the Authorization value, the cache of verified
  logins) and of `Dispatcher::check_auth` and the completion of
  `start_auth` (`handlers/dispatch.cpp`).  A check reads what the request,
  the connection and the worker remember: the result of a verification the
  pool ran for THIS REQUEST, the connection's last login with the user file
  it was checked against, and the worker's keys of (user, stored hash,
  password).

  libxcrypt and the HMAC are `Crypto`: an arbitrary test of a password
  against a hash, and a key that tells every two logins apart.

  Main results:
    * `checkAuth_spec` — what a check can answer, one case a branch;
    * `Cache.Sound.insert` / `Cache.Sound.find` — the cache holds verified
      logins only.
-/
import Agensio.Dispatch.Site

namespace Agensio.Dispatch

/-! ## §1. The Authorization value (`parse_basic`). -/

inductive Parsed
  | absent
  | malformed
  | ok (user password : Bytes)
  deriving DecidableEq

def sextet (c : UInt8) : Option Nat :=
  if 0x41 ≤ c && c ≤ 0x5a then some (c.toNat - 0x41)
  else if 0x61 ≤ c && c ≤ 0x7a then some (c.toNat - 0x61 + 26)
  else if 0x30 ≤ c && c ≤ 0x39 then some (c.toNat - 0x30 + 52)
  else if c = 0x2b then some 62
  else if c = 0x2f then some 63
  else none

/-- The bytes of four sextets, without the `pad` last ones. -/
def quadBytes (a b c d pad : Nat) : Bytes :=
  let n := a * 2 ^ 18 + b * 2 ^ 12 + c * 2 ^ 6 + d
  [UInt8.ofNat (n / 2 ^ 16), UInt8.ofNat (n / 2 ^ 8), UInt8.ofNat n].take (3 - pad)

/-- One group of four; `=` stands in the last two places of the last group only. -/
def decodeQuad (last : Bool) (a b c d : UInt8) : Option Bytes :=
  match sextet a, sextet b with
  | some va, some vb =>
    if c = 0x3d then
      if last && d = 0x3d then some (quadBytes va vb 0 0 2) else none
    else
      match sextet c with
      | none => none
      | some vc =>
        if d = 0x3d then
          if last then some (quadBytes va vb vc 0 1) else none
        else (sextet d).map fun vd => quadBytes va vb vc vd 0
  | _, _ => none

def decodeBase64 : Bytes → Option Bytes
  | [] => some []
  | a :: b :: c :: d :: rest =>
    match decodeQuad rest.isEmpty a b c d with
    | none => none
    | some out => (decodeBase64 rest).map (out ++ ·)
  | _ => none

def maxDecoded : Nat := 255 + 1 + 512

/-- The decoded credentials cut at their first colon. -/
def splitCredentials (scratch : Bytes) : Parsed :=
  let colon := scratch.idxOf 0x3a
  if scratch.length > maxDecoded || scratch.any Http.isControl then .malformed
  else if colon = scratch.length || colon = 0 || colon > 255 || scratch.length - colon - 1 > 512 then
    .malformed
  else .ok (scratch.take colon) (scratch.drop (colon + 1))

/-- The scheme of a value, in either case of each letter. -/
def isBasic (value : Bytes) : Bool :=
  (value.take 5).map (fun c => if 0x41 ≤ c && c ≤ 0x5a then c + 32 else c) = bytes "basic"

def parseBasic (value : Bytes) : Parsed :=
  if value.length < 5 || !isBasic value then .absent
  else if value.length = 5 then .malformed
  else if value[5]? ≠ some 0x20 then .absent
  else
    let token := (value.drop 5).dropWhile (· = 0x20)
    if token = [] || token.length % 4 ≠ 0 || token.length / 4 * 3 > maxDecoded + 2 then .malformed
    else
      match decodeBase64 token with
      | none => .malformed
      | some scratch => splitCredentials scratch

-- RFC 7617's own example
example : parseBasic (bytes "Basic QWxhZGRpbjpvcGVuIHNlc2FtZQ==") =
    .ok (bytes "Aladdin") (bytes "open sesame") := by decide +kernel

/-! ## §2. Users. -/

/-- One line of a user file; 0 never expires. -/
structure User where
  name : Bytes
  hash : Bytes
  expires : Nat := 0
  deriving DecidableEq

namespace User

def locked (u : User) : Bool := u.hash.head? = some 0x21 || u.hash = bytes "*"

def unexpired (u : User) (now : Nat) : Bool := u.expires = 0 || now < u.expires

end User

/-- A load of a user file: `parse_users` refuses an empty one and a name listed twice. -/
structure UserFile where
  users : List User
  users_ne : users ≠ []
  named : (users.map User.name).Nodup

/-! ## §3. libxcrypt and the HMAC. -/

/-- What is outside the source.  The key is an HMAC-SHA256 under a random key of the process. -/
structure Crypto where
  Key : Type
  [keyEq : DecidableEq Key]
  cacheKey : Bytes → Bytes → Bytes → Key
  /-- Its first byte, which picks the set. -/
  set : Key → UInt8
  /-- The password against a stored hash (`crypt_rn`). -/
  verify : Bytes → Bytes → Bool
  cacheKey_inj : ∀ {u h p u' h' p'}, cacheKey u h p = cacheKey u' h' p' → u = u' ∧ h = h' ∧ p = p'

instance (K : Crypto) : DecidableEq K.Key := K.keyEq

/-! ## §4. One worker's verified logins. -/

structure Entry (K : Crypto) where
  key : Option K.Key := none
  -- 0: empty
  until_ : Nat := 0
  stamp : Nat := 0

/-- 256 sets of four entries. -/
structure Cache (K : Crypto) where
  sets : UInt8 → List (Entry K) := fun _ => List.replicate 4 {}
  clock : Nat := 0

namespace Cache

variable {K : Crypto}

def find (c : Cache K) (key : K.Key) (now : Nat) : Bool :=
  (c.sets (K.set key)).any fun e => now < e.until_ && e.key = some key

/-- The entry `insert` writes: the key's own, an empty one, else the oldest. -/
def slotOf (key : K.Key) : List (Entry K) → Nat → Option (Nat × Entry K) → Option Nat
  | [], _, best => best.map Prod.fst
  | e :: es, i, best =>
    if e.until_ ≠ 0 && e.key = some key then some i
    else if best.all fun b => e.until_ = 0 || (b.2.until_ ≠ 0 && e.stamp < b.2.stamp) then
      slotOf key es (i + 1) (some (i, e))
    else slotOf key es (i + 1) best

def insert (c : Cache K) (key : K.Key) (t : Nat) : Cache K :=
  let slot := (slotOf key (c.sets (K.set key)) 0 none).getD 0
  { sets := Function.update c.sets (K.set key)
      ((c.sets (K.set key)).set slot { key := some key, until_ := t, stamp := c.clock + 1 })
    clock := c.clock + 1 }

/-- Every entry is the key of a login that was verified. -/
def Sound (c : Cache K) : Prop :=
  ∀ s, ∀ e ∈ c.sets s, ∀ k, e.key = some k →
    ∃ user hash password, k = K.cacheKey user hash password ∧ K.verify password hash = true

theorem sound_empty : Sound ({} : Cache K) := by
  intro s e he k hk
  obtain rfl := List.eq_of_mem_replicate he
  cases hk

theorem Sound.insert {c : Cache K} (h : c.Sound) {user hash password : Bytes}
    (hv : K.verify password hash = true) (t : Nat) : (c.insert (K.cacheKey user hash password) t).Sound := by
  intro s e he k hk
  unfold Cache.insert at he
  dsimp only at he
  by_cases hs : s = K.set (K.cacheKey user hash password)
  · subst hs
    rw [Function.update_self] at he
    rcases List.mem_or_eq_of_mem_set he with hold | rfl
    · exact h _ e hold k hk
    · exact ⟨user, hash, password, by simpa using hk.symm, hv⟩
  · rw [Function.update_of_ne hs] at he
    exact h s e he k hk

/-- A key that is found was verified. -/
theorem Sound.find {c : Cache K} (h : c.Sound) {user hash password : Bytes} {now : Nat}
    (hf : c.find (K.cacheKey user hash password) now = true) : K.verify password hash = true := by
  unfold Cache.find at hf
  rw [List.any_eq_true] at hf
  obtain ⟨e, he, hk⟩ := hf
  rw [Bool.and_eq_true, decide_eq_true_eq, decide_eq_true_eq] at hk
  obtain ⟨u, g, p, hkey, hv⟩ := h _ e he _ hk.2
  obtain ⟨rfl, rfl, rfl⟩ := K.cacheKey_inj hkey
  exact hv

end Cache

/-! ## §5. What the request and the connection remember. -/

inductive AuthResult
  | unasked
  | verified
  | failed
  | busy
  deriving DecidableEq

/-- `AuthState`: what the password rules decided for one request. -/
structure AuthState where
  result : AuthResult := .unasked
  protectedPath : Bool := false
  user : Bytes := []
  forwardField : Bytes := []
  deriving DecidableEq

/-- `AuthMemo`: a connection's last verified login. -/
structure AuthMemo where
  value : Bytes := []
  usersId : Nat := 0
  user : Bytes := []
  until_ : Nat := 0
  deriving DecidableEq

/-- What the connection knows of its client (`ConnectionInfo`). -/
structure Client where
  address : Address
  loopback : Bool := false
  peerLoopback : Bool := false
  trustedPeer : Bool := false
  forwardedHttps : Bool := false
  tls : Bool := true
  deriving DecidableEq

namespace Client

def secure (c : Client) : Bool := if c.trustedPeer then c.forwardedHttps else c.tls

def isLocal (c : Client) : Bool := if c.trustedPeer then c.loopback else c.peerLoopback

end Client

/-- The part of a request a check reads and writes; the field is empty once it is removed. -/
structure Asking where
  client : Client
  authorization : Bytes
  auth : AuthState := {}
  deriving DecidableEq

/-- `WorkerState::AuthJob`, without the texts of its log lines. -/
structure Job (K : Crypto) where
  password : Bytes
  hash : Bytes
  key : K.Key
  known : Bool
  locked : Bool
  expires : Nat

/-- An answer is the status of the page. -/
inductive AuthOutcome (K : Crypto)
  | allowed
  | answered (status : Nat)
  | pending (job : Job K)

/-! ## §6. `check_auth`. -/

/-- How long a login is remembered. -/
def rememberUntil (now expires : Nat) : Nat := if expires = 0 then now + 300 else min (now + 300) expires

namespace AuthRule

def skips (rule : AuthRule) (c : Client) : Bool := rule.skip ≠ [] && inAny rule.skip c.address

end AuthRule

namespace Asking

/-- The lambda `strip`. -/
def strip (q : Asking) (rule : AuthRule) : Asking :=
  if rule.credentials = .strip then { q with authorization := [] } else q

/-- A rule asks: the path is protected, and only the server sets its forward field. -/
def enter (q : Asking) (rule : AuthRule) : Asking :=
  { q with auth := { q.auth with
      protectedPath := true
      forwardField := if rule.forwardUser = [] then q.auth.forwardField else rule.forwardUser } }

def login (q : Asking) (user : Bytes) : Asking := { q with auth := { q.auth with user := user } }

end Asking

namespace AuthMemo

/-- The connection's last login is this very header, checked against this load. -/
def hits (memo : AuthMemo) (q : Asking) (rule : AuthRule) (now : Nat) : Bool :=
  q.authorization ≠ [] && memo.usersId = rule.users && now < memo.until_ &&
    memo.value = q.authorization && q.auth.result = .unasked

end AuthMemo

/-- The lambda `remember`. -/
def remember (q : Asking) (rule : AuthRule) (now : Nat) (user : Bytes) (expires : Nat) : AuthMemo :=
  { value := q.authorization, usersId := rule.users, user := user, until_ := rememberUntil now expires }

namespace UserFile

/-- The user of that name. -/
def named? (f : UserFile) (name : Bytes) : Option User := f.users.find? fun u => u.name = name

/-- The hash a login is checked against: an unknown user gets the first unlocked entry's. -/
def hashFor (f : UserFile) (name : Bytes) : Bytes :=
  match f.named? name with
  | some u => u.hash
  | none =>
    match f.users.find? fun u => !u.locked with
    | some u => u.hash
    | none => (f.users.head f.users_ne).hash

/-- The expiry the verified branch reads: the last line of that name. -/
def lastExpires (f : UserFile) (name : Bytes) : Nat :=
  f.users.foldl (fun e u => if u.name = name then u.expires else e) 0

end UserFile

section Check

variable {K : Crypto} (load : Nat → UserFile) (verifier : Bool) (now : Nat) (cache : Cache K)
  (inflight : Nat)

/-- The login is a known, unlocked and unexpired user's, and its key is remembered. -/
def remembered (f : UserFile) (user password : Bytes) : Option User :=
  (f.named? user).filter fun u =>
    !u.locked && u.unexpired now && cache.find (K.cacheKey user (f.hashFor user) password) now

def jobFor (f : UserFile) (user password : Bytes) : Job K :=
  { password := password
    hash := f.hashFor user
    key := K.cacheKey user (f.hashFor user) password
    known := (f.named? user).isSome
    locked := (f.named? user).any User.locked
    expires := ((f.named? user).map User.expires).getD 0 }

/-- `Dispatcher::check_auth`. -/
def checkAuth (memo : AuthMemo) (q₀ : Asking) (rule : AuthRule) :
    AuthOutcome K × Asking × AuthMemo :=
  let q := q₀.enter rule
  if rule.skips q.client then (.allowed, { q with authorization := [] }, memo)
  else if !rule.plainHttp && !q.client.secure && !q.client.isLocal then (.answered 403, q, memo)
  else if memo.hits q rule now then (.allowed, (q.login memo.user).strip rule, memo)
  else
    match parseBasic q.authorization with
    | .absent => (.answered 401, q, memo)
    | .malformed => (.answered 401, q, memo)
    | .ok user password =>
      let f := load rule.users
      match q.auth.result with
      | .verified =>
        (.allowed, (q.login user).strip rule, remember q rule now user (f.lastExpires user))
      | .failed => (.answered 401, q, memo)
      | .busy => (.answered 503, q, memo)
      | .unasked =>
        match remembered now cache f user password with
        | some u => (.allowed, (q.login user).strip rule, remember q rule now user u.expires)
        | none =>
          -- at most eight hashes per worker at a time
          if !verifier || 8 ≤ inflight then (.answered 503, q, memo)
          else (.pending (jobFor f user password), q, memo)

/-- What a check answers, one constructor a branch of the source. -/
inductive Checked (memo : AuthMemo) (q : Asking) (rule : AuthRule) :
    AuthOutcome K → Asking → AuthMemo → Prop
  | skipped (hs : rule.skips q.client = true) :
    Checked memo q rule .allowed { q.enter rule with authorization := [] } memo
  | plain (hs : rule.skips q.client = false) : Checked memo q rule (.answered 403) (q.enter rule) memo
  | memo (hs : rule.skips q.client = false) (hh : memo.hits q rule now = true) :
    Checked memo q rule .allowed (((q.enter rule).login memo.user).strip rule) memo
  | unreadable (hs : rule.skips q.client = false)
      (hp : ∀ user password, parseBasic q.authorization ≠ .ok user password) :
    Checked memo q rule (.answered 401) (q.enter rule) memo
  | verified {user password} (hs : rule.skips q.client = false)
      (hp : parseBasic q.authorization = .ok user password) (hr : q.auth.result = .verified) :
    Checked memo q rule .allowed (((q.enter rule).login user).strip rule)
      (remember q rule now user ((load rule.users).lastExpires user))
  | failed {user password} (hs : rule.skips q.client = false)
      (hp : parseBasic q.authorization = .ok user password) (hr : q.auth.result = .failed) :
    Checked memo q rule (.answered 401) (q.enter rule) memo
  | busy (hs : rule.skips q.client = false) : Checked memo q rule (.answered 503) (q.enter rule) memo
  | cached {user password u} (hs : rule.skips q.client = false)
      (hp : parseBasic q.authorization = .ok user password) (hr : q.auth.result = .unasked)
      (hu : remembered now cache (load rule.users) user password = some u) :
    Checked memo q rule .allowed (((q.enter rule).login user).strip rule)
      (remember q rule now user u.expires)
  | pending {user password} (hs : rule.skips q.client = false)
      (hp : parseBasic q.authorization = .ok user password) (hr : q.auth.result = .unasked) :
    Checked memo q rule (.pending (jobFor (load rule.users) user password)) (q.enter rule) memo

/-- **What a check can answer.** -/
theorem checkAuth_spec (memo : AuthMemo) (q : Asking) (rule : AuthRule) {o : AuthOutcome K}
    {q' : Asking} {memo' : AuthMemo}
    (h : checkAuth load verifier now cache inflight memo q rule = (o, q', memo')) :
    Checked load now cache memo q rule o q' memo' := by
  unfold checkAuth at h
  dsimp only at h
  split at h
  · next hs =>
    cases h
    exact .skipped hs
  next hs =>
  replace hs : rule.skips q.client = false := by simpa [Asking.enter] using hs
  split at h
  · cases h
    exact .plain hs
  split at h
  · next hh =>
    cases h
    exact .memo hs hh
  split at h
  · next hp =>
    cases h
    exact .unreadable hs fun user password hc => by cases hp.symm.trans hc
  · next hp =>
    cases h
    exact .unreadable hs fun user password hc => by cases hp.symm.trans hc
  · next user password hp =>
    split at h
    · next hr =>
      cases h
      exact .verified hs hp hr
    · next hr =>
      cases h
      exact .failed hs hp hr
    · cases h
      exact .busy hs
    · next hr =>
      split at h
      · next u hu =>
        cases h
        exact .cached hs hp hr hu
      · split at h
        · cases h
          exact .busy hs
        cases h
        exact .pending hs hp hr

/-- The completion of `start_auth`: the pool compared the password with the job's hash. -/
def finishJob (clock : Nat) (job : Job K) : AuthResult × Cache K :=
  if job.known && !job.locked && K.verify job.password job.hash &&
      (job.expires = 0 || clock < job.expires) then
    (.verified, cache.insert job.key (rememberUntil clock job.expires))
  else (.failed, cache)

end Check

end Agensio.Dispatch
