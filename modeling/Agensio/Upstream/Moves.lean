/-
  Agensio.Upstream.Moves — what an exchange does, said once.

  A slot begins an attempt.  Every step is a chain of small moves: the head
  is written, the exchange goes on to the next phase, sees a byte, resends,
  moves to another member, ends.  Each move says which of the things the
  later results speak of it changes, under which guard, and what it asks of
  the pool.

  Main results:
    * `onSlot_cases`, `step_moves` — every step is a chain of moves, behind a
      slot or not;
    * `step_keeps` — what slots and moves keep, every step keeps.
-/
import Agensio.Upstream.Exchange

namespace Agensio.Upstream.Exchange

/-! ## §1. Moves. -/

/-- What is asked of the pool's slots. -/
def ofPool : Action → Bool
  | .acquire _ | .release _ | .dequeue _ => true
  | _ => false

/-- The same attempt, in the same phase. -/
structure Quiet (s t : Exchange) : Prop where
  group : t.group = s.group
  retryOk : t.retryOk = s.retryOk
  phase : t.phase = s.phase
  member : t.member = s.member
  tried : t.tried = s.tried
  attempts : t.attempts = s.attempts
  sentAny : t.sentAny = s.sentAny
  log : t.log = s.log
  written : t.written = s.written
  seen : t.seen = s.seen
  headBytes : s.headBytes ≤ t.headBytes
  decoding : t.decoding = true → s.decoding = true
  dataOf : t.dataOf = s.dataOf
  ops : ∀ o ∈ t.ops, o ∈ s.ops ∨ (o.attempt = s.attempt ∧ o.op ≠ .writeHead)
  read : t.reading = true → (s.reading = true ∧ ∀ o ∈ s.ops, o.op = .read → o ∈ t.ops) ∨ ∃ o ∈ t.ops, o.op = .read

theorem Quiet.refl (s : Exchange) : Quiet s s :=
  ⟨rfl, rfl, rfl, rfl, rfl, rfl, rfl, rfl, rfl, rfl, Nat.le_refl _, id, rfl, fun _ ho => .inl ho,
    fun hr => .inl ⟨hr, fun _ ho _ => ho⟩⟩

/-- The exchange behind the slot it asked for. -/
def slotted (s : Exchange) (reused : Bool) : Exchange :=
  { s with attempts := s.attempts + 1, conn := some reused, log := s.log ++ [⟨s.member, false⟩],
           phase := if reused then .sending else .connecting }

/-- The moves.  `fair` says that what was read was counted, and that a written head is the attempt's own. -/
inductive Move (fair : Prop) (env : Env) : Exchange → List Action → Exchange → Prop
  | quiet {s t acts} (h : Quiet s t) (hacts : ∀ a ∈ acts, ofPool a = false) : Move fair env s acts t
  | sendHead {s} (hphase : s.phase = .sending) : Move fair env s [.sendHead] s.sendHead.1
  | proceed {s} (p : Phase)
    (h : s.phase = .connecting ∧ p = .sending ∨ s.phase = .sendingBody ∧ p = .receiving) :
    Move fair env s [] { s with phase := p }
  | headWritten {s} (o : Started) (p : Phase) (ho : o ∈ s.ops) (hop : o.op = .writeHead)
    (hown : fair → o.attempt = s.attempt) (hphase : s.phase = .sending) (hp : p = .sendingBody ∨ p = .receiving) :
    Move fair env s [] { s with ops := s.ops.erase o, phase := p }
  | data {s} (o : Started) (n : Nat) (ho : o ∈ s.ops) (hphase : s.phase = .receiving) :
    Move fair env s []
      { s with ops := s.ops.erase o, reading := false, inData := true, decoding := true, seen := s.seen || 0 < n,
               dataOf := o.attempt }
  | resend {s} (hretry : s.retryOk = true) (hattempts : s.attempts = 1) (hbytes : s.headBytes = 0)
    (hphase : s.phase = .sending ∨ s.phase = .receiving)
    (hcounted : fair → s.phase = .receiving → s.seen = true → 0 < s.headBytes) :
    Move fair env s []
      { s with conn := some false, attempts := s.attempts + 1, log := s.log ++ [Attempt.mk s.member true],
               decoding := false, phase := .connecting }
  | moveTo {s} (why : Failure) (next : Nat) (hnext : s.nextAddress env why = some next)
    (hphase : s.phase.holds = true) (hcounted : fair → s.phase = .receiving → s.seen = true → 0 < s.headBytes) :
    Move fair env s (s.moveTo env next).2 (s.moveTo env next).1
  /-- The end, from a phase with a slot. -/
  | close {s} (p : Phase) (c : Option Bool) (f : Option Failure) (d : Bool) (hphase : s.phase.holds = true)
    (hp : p.over = true) :
    Move fair env s [.release s.poolKey]
      { s with phase := p, conn := c, failure := f, headDelivered := d, decoding := false }
  /-- The end in the queue; the refused are not in it. -/
  | leave {s acts} (p : Phase) (c : Option Bool) (f : Option Failure) (hphase : s.phase = .queued) (hp : p.over = true)
    (hacts : acts = [] ∨ acts = [.dequeue s.poolKey]) :
    Move fair env s acts { s with phase := p, conn := c, failure := f, decoding := false }
  /-- An exchange that is over is cancelled. -/
  | forget {s} (hphase : s.phase.over = true) :
    Move fair env s [] { s with phase := .cancelled, conn := none, decoding := false }

/-- A chain of moves. -/
inductive Moves (fair : Prop) (env : Env) : Exchange → List Action → Exchange → Prop
  | nil {s} : Moves fair env s [] s
  | cons {s m t a b} (h : Move fair env s a m) (hs : Moves fair env m b t) : Moves fair env s (a ++ b) t

section Chains

variable {fair : Prop} {env : Env} {s m t : Exchange} {a b : List Action}

theorem Moves.single (h : Move fair env s a t) : Moves fair env s a t := by
  have := Moves.cons h .nil
  rw [List.append_nil] at this
  exact this

theorem Moves.append (h : Moves fair env s a m) (h' : Moves fair env m b t) : Moves fair env s (a ++ b) t := by
  induction h with
  | nil => exact h'
  | cons hm _ ih =>
    rw [List.append_assoc]
    exact .cons hm (ih h')

/-- **What every move keeps, every chain keeps.** -/
theorem Moves.keeps {I : Exchange → Prop} (hmove : ∀ s a t, I s → Move fair env s a t → I t) (hs : I s)
    (h : Moves fair env s a t) : I t := by
  induction h with
  | nil => exact hs
  | cons hm _ ih => exact ih (hmove _ _ _ hs hm)

end Chains

/-! ## §2. Every step is a chain of moves. -/

section Steps

variable {fair : Prop} {env : Env} {s : Exchange}

/-- The condition under which what was read is counted when an attempt is given up. -/
def Counted (s : Exchange) : Prop := s.phase = .receiving → s.seen = true → 0 < s.headBytes

theorem quiet_start (s : Exchange) {op : Op} (hop : op ≠ .writeHead) : Quiet s (s.start op) := by
  refine ⟨rfl, rfl, rfl, rfl, rfl, rfl, rfl, rfl, rfl, rfl, Nat.le_refl _, id, rfl, fun o ho => ?_,
    fun hr => .inl ⟨hr, fun o ho _ => List.mem_append_left _ ho⟩⟩
  rcases List.mem_append.mp ho with ho | ho
  · exact .inl ho
  rw [List.mem_singleton.mp ho]
  exact .inr ⟨rfl, hop⟩

theorem moves_start (s : Exchange) {op : Op} (hop : op ≠ .writeHead) : Moves fair env s [] (s.start op) :=
  .single (.quiet (quiet_start s hop) nofun)

theorem moves_deliverHead (s : Exchange) : Moves fair env s s.deliverHead.2 s.deliverHead.1 := by
  unfold deliverHead
  split
  · exact .nil
  refine .single (.quiet ?_ ?_)
  · have h := Quiet.refl s
    exact ⟨rfl, rfl, rfl, rfl, rfl, rfl, rfl, rfl, rfl, rfl, Nat.le_refl _, id, rfl, h.ops, h.read⟩
  · intro a ha
    rw [List.mem_singleton.mp ha]
    rfl

theorem Phase.not_over_of_holds {p : Phase} (h : p.holds = true) : p.over = false ∧ p ≠ .queued := by
  cases p with
  | connecting | sending | sendingBody | receiving => exact ⟨rfl, nofun⟩
  | queued | finished | failed | cancelled => cases h

theorem moves_marks (s : Exchange) (why : Failure) : Moves fair env s (s.marks why) s := by
  refine .single (.quiet (.refl s) ?_)
  unfold marks
  split
  · nofun
  intro a ha
  rw [List.mem_singleton.mp ha]
  rfl

/-- An attempt fails. -/
theorem moves_fail (env : Env) (why : Failure) (hphase : s.phase.holds = true) (hcounted : fair → s.Counted) :
    Moves fair env s (s.fail env why).2 (s.fail env why).1 := by
  obtain ⟨hlive, hqueued⟩ := Phase.not_over_of_holds hphase
  rcases fail_cases env s why with ⟨hover, _⟩ | ⟨_, next, hnext, h⟩ | ⟨_, _, h⟩
  · rw [hlive] at hover
    cases hover
  · rw [h]
    exact (moves_marks s why).append (.single (.moveTo why next hnext hphase hcounted))
  rw [h]
  refine Moves.append ((moves_marks s why).append ?_) ?_ (m := s.failed why)
  · have hgiven : s.given = .release s.poolKey := if_neg hqueued
    rw [hgiven]
    exact .single (.close .failed _ _ _ hphase rfl)
  · refine .single (.quiet (.refl _) ?_)
    split
    · nofun
    intro a ha
    rw [List.mem_singleton.mp ha]
    rfl

/-- An attempt fails before a byte can be read. -/
theorem moves_fail_early (env : Env) (why : Failure) (hphase : s.phase.holds = true) (hne : s.phase ≠ .receiving) :
    Moves fair env s (s.fail env why).2 (s.fail env why).1 :=
  moves_fail env why hphase fun _ hr => absurd hr hne

theorem moves_connected (hphase : s.phase = .connecting) : Moves fair env s s.connected.2 s.connected.1 :=
  .cons (.proceed .sending (.inl ⟨hphase, rfl⟩)) (.single (.sendHead rfl))

theorem moves_handshake (hphase : s.phase = .connecting) :
    Moves fair env s (s.handshake env).2 (s.handshake env).1 := by
  unfold handshake
  split
  · exact moves_fail_early env _ (by rw [hphase]; rfl) (by rw [hphase]; nofun)
  · exact .cons (.proceed .sending (.inl ⟨hphase, rfl⟩)) (moves_start _ nofun)

/-- `connect`, from a state that is connecting already. -/
theorem moves_connect (hphase : s.phase = .connecting) : Moves fair env s (s.connect env).2 (s.connect env).1 := by
  have heq : { s with phase := .connecting } = s := by rw [← hphase]
  unfold connect
  rw [heq]
  dsimp only
  split
  · exact moves_start s nofun
  · exact moves_fail_early env _ (by rw [hphase]; rfl) (by rw [hphase]; nofun)

theorem moves_readMore (env : Env) (s : Exchange) : Moves fair env s (s.readMore env).2 (s.readMore env).1 := by
  unfold readMore
  split
  · exact .nil
  split
  · exact .nil
  refine .single (.quiet ?_ ?_)
  · have h : Quiet s (s.start .read) := quiet_start s nofun
    exact ⟨rfl, rfl, rfl, rfl, rfl, rfl, rfl, rfl, rfl, rfl, Nat.le_refl _, id, rfl, h.ops,
      fun _ => .inr ⟨⟨.read, s.attempt⟩, by simp [start], rfl⟩⟩
  · intro a ha
    rw [List.mem_singleton.mp ha]
    rfl

theorem moves_sendBodyNext (hphase : s.phase = .sendingBody) :
    Moves fair env s (s.sendBodyNext env).2 (s.sendBodyNext env).1 := by
  unfold sendBodyNext
  split
  · exact moves_start s nofun
  split
  · exact moves_fail_early env _ (by rw [hphase]; rfl) (by rw [hphase]; nofun)
  · exact moves_start s nofun

theorem moves_retry {ec : Ec} (h : s.retries ec = true) (hphase : s.phase = .sending ∨ s.phase = .receiving)
    (hcounted : fair → s.Counted) : Moves fair env s (s.retry env).2 (s.retry env).1 := by
  obtain ⟨hretry, hattempts, _, hbytes⟩ := retries_spec h
  exact .cons (.resend hretry hattempts hbytes hphase hcounted) (moves_connect rfl)

theorem moves_finish (hphase : s.phase.holds = true) : Moves fair env s s.finish.2 s.finish.1 := by
  have hmark : Moves fair env s [.markSuccess s.key] s := by
    refine .single (.quiet (.refl s) ?_)
    intro a ha
    rw [List.mem_singleton.mp ha]
    rfl
  have hclose : Moves fair env s [.release s.poolKey] { s with phase := .finished, conn := none, decoding := false } :=
    .single (.close .finished none s.failure s.headDelivered hphase rfl)
  exact (hmark.append hclose).append (moves_deliverHead _)

theorem moves_finishUpgraded (hphase : s.phase.holds = true) : Moves fair env s s.finishUpgraded.2 s.finishUpgraded.1 := by
  have hclose : Moves fair env s [.release s.poolKey] { s with phase := .finished, decoding := false } :=
    .single (.close .finished s.conn s.failure s.headDelivered hphase rfl)
  exact hclose.append (moves_deliverHead _)

/-- An operation is out of the list, and no read is in flight if it was one. -/
theorem quiet_erase (s : Exchange) (o : Started) :
    Quiet s { s with ops := s.ops.erase o, reading := s.reading && o.op ≠ .read } := by
  refine ⟨rfl, rfl, rfl, rfl, rfl, rfl, rfl, rfl, rfl, rfl, Nat.le_refl _, id, rfl,
    fun _ ho => .inl (List.mem_of_mem_erase ho), fun hr => .inl ?_⟩
  simp only [Bool.and_eq_true, decide_eq_true_eq] at hr
  refine ⟨hr.1, fun o' ho' hread => (List.mem_erase_of_ne ?_).mpr ho'⟩
  rintro rfl
  exact hr.2 hread

/-- What was read is counted when an attempt is given up; and the head that is written is the
    attempt's own. -/
def Orderly (s : Exchange) (l : Label) : Prop :=
  match l.2 with
  | .tick | .decodeFail _ => s.Counted
  | .completed o r =>
    (o.op = .writeHead → s.phase = .sending → o.attempt = s.attempt) ∧ ((∃ ec, r = .error ec) → s.Counted)
  | _ => True

theorem moves_onConnect (hphase : s.phase = .connecting) (r : Result) :
    Moves fair env s (s.onConnect env r).2 (s.onConnect env r).1 := by
  unfold onConnect
  split
  · exact moves_fail_early env _ (by rw [hphase]; rfl) (by rw [hphase]; nofun)
  split
  · exact moves_handshake hphase
  · exact moves_connected hphase

theorem moves_onHandshake (hphase : s.phase = .sending) (r : Result) :
    Moves fair env s (s.onHandshake env r).2 (s.onHandshake env r).1 := by
  unfold onHandshake
  split
  · exact moves_fail_early env _ (by rw [hphase]; rfl) (by rw [hphase]; nofun)
  · exact .single (.sendHead hphase)

/-- The head could not be written. -/
theorem moves_onHeadWritten_error (hphase : s.phase = .sending) (ec : Ec) :
    Moves fair env s (s.onHeadWritten env (.error ec)).2 (s.onHeadWritten env (.error ec)).1 := by
  unfold onHeadWritten
  dsimp only
  split
  · next hretry =>
    refine moves_retry hretry (.inl hphase) fun _ hr => ?_
    rw [hphase] at hr
    cases hr
  · exact moves_fail_early env _ (by rw [hphase]; rfl) (by rw [hphase]; nofun)

theorem moves_onBodyRead (hphase : s.phase = .sendingBody) (r : Result) :
    Moves fair env s (s.onBodyRead env r).2 (s.onBodyRead env r).1 := by
  unfold onBodyRead
  split
  · exact moves_fail_early env _ (by rw [hphase]; rfl) (by rw [hphase]; nofun)
  · exact moves_start s nofun

theorem moves_onBodyWritten (hphase : s.phase = .sendingBody) (last : Bool) (r : Result) :
    Moves fair env s (s.onBodyWritten env last r).2 (s.onBodyWritten env last r).1 := by
  unfold onBodyWritten
  split
  · exact moves_fail_early env _ (by rw [hphase]; rfl) (by rw [hphase]; nofun)
  split
  · exact .cons (.proceed .receiving (.inr ⟨hphase, rfl⟩)) (moves_readMore env _)
  · exact moves_sendBodyNext hphase

/-- A read that failed. -/
theorem moves_onRead_error (hphase : s.phase = .receiving) (a : Nat) (ec : Ec) (hcounted : fair → s.Counted) :
    Moves fair env s (s.onRead env a (.error ec)).2 (s.onRead env a (.error ec)).1 := by
  unfold onRead
  dsimp only
  split
  · next hretry => exact moves_retry hretry (.inr hphase) hcounted
  split
  · exact moves_finish (by rw [hphase]; rfl)
  · exact moves_fail env _ (by rw [hphase]; rfl) hcounted

/-- **A completion is a chain of moves.** -/
theorem moves_completed {o : Started} {r : Result} (ho : o ∈ s.ops)
    (hown : fair → o.op = .writeHead → s.phase = .sending → o.attempt = s.attempt)
    (hcounted : fair → (∃ ec, r = .error ec) → s.Counted) :
    Moves fair env s (({ s with ops := s.ops.erase o } : Exchange).completed env o.op o.attempt r).2
      (({ s with ops := s.ops.erase o } : Exchange).completed env o.op o.attempt r).1 := by
  have hgone := quiet_erase s o
  have herase : o.op ≠ .read → Moves fair env s [] { s with ops := s.ops.erase o } := by
    intro hop
    rw [decide_eq_true hop, Bool.and_true] at hgone
    exact .single (.quiet hgone nofun)
  cases hop : o.op with
  | connect =>
    unfold completed
    dsimp only
    split
    · exact herase (by rw [hop]; nofun)
    next hphase =>
    have hnow : ({ s with ops := s.ops.erase o } : Exchange).phase = .connecting := not_not.mp hphase
    exact (herase (by rw [hop]; nofun)).append (moves_onConnect hnow r)
  | handshake =>
    unfold completed
    dsimp only
    split
    · exact herase (by rw [hop]; nofun)
    next hphase =>
    have hnow : ({ s with ops := s.ops.erase o } : Exchange).phase = .sending := not_not.mp hphase
    exact (herase (by rw [hop]; nofun)).append (moves_onHandshake hnow r)
  | writeHead =>
    unfold completed
    dsimp only
    split
    · exact herase (by rw [hop]; nofun)
    next hphase =>
    have hsending : s.phase = .sending := not_not.mp hphase
    cases r with
    | error ec =>
      have hnow : ({ s with ops := s.ops.erase o } : Exchange).phase = .sending := hsending
      exact (herase (by rw [hop]; nofun)).append (moves_onHeadWritten_error hnow ec)
    | ok n =>
      unfold onHeadWritten
      dsimp only
      split
      · exact .cons (.headWritten o .receiving ho hop (fun hf => hown hf hop hsending) hsending (.inr rfl))
          (moves_readMore env _)
      exact .cons (.headWritten o .sendingBody ho hop (fun hf => hown hf hop hsending) hsending (.inl rfl))
        (moves_sendBodyNext rfl)
  | readBody =>
    unfold completed
    dsimp only
    split
    · exact herase (by rw [hop]; nofun)
    next hphase =>
    have hnow : ({ s with ops := s.ops.erase o } : Exchange).phase = .sendingBody := not_not.mp hphase
    exact (herase (by rw [hop]; nofun)).append (moves_onBodyRead hnow r)
  | writeBody last =>
    unfold completed
    dsimp only
    split
    · exact herase (by rw [hop]; nofun)
    next hphase =>
    have hnow : ({ s with ops := s.ops.erase o } : Exchange).phase = .sendingBody := not_not.mp hphase
    exact (herase (by rw [hop]; nofun)).append (moves_onBodyWritten hnow last r)
  | read =>
    have hflag : Moves fair env s [] { s with ops := s.ops.erase o, reading := false } := by
      rw [hop, decide_eq_false fun h => h rfl, Bool.and_false] at hgone
      exact .single (.quiet hgone nofun)
    unfold completed
    dsimp only
    split
    · exact hflag
    next hphase =>
    have hreceiving : s.phase = .receiving := not_not.mp hphase
    cases r with
    | error ec =>
      have hnow : ({ s with ops := s.ops.erase o, reading := false } : Exchange).phase = .receiving := hreceiving
      exact hflag.append (moves_onRead_error hnow o.attempt ec fun hf => hcounted hf ⟨ec, rfl⟩)
    | ok n => exact .single (.data o n ho hreceiving)

/-- A slot is given back, or an attempt begins. -/
theorem onSlot_cases (env : Env) (s : Exchange) (reused : Bool) :
    (s.phase ≠ .queued ∧ s.onSlot env reused = (s, [.release s.poolKey])) ∨
      (s.phase = .queued ∧ Moves fair env (s.slotted reused) (s.onSlot env reused).2 (s.onSlot env reused).1) := by
  by_cases hphase : s.phase = .queued
  · refine .inr ⟨hphase, ?_⟩
    unfold onSlot
    rw [if_neg fun h => h hphase]
    cases reused with
    | true => exact .single (.sendHead rfl (s := s.slotted true))
    | false => exact moves_connect rfl (s := s.slotted false)
  · exact .inl ⟨hphase, if_pos hphase⟩

/-- **Every step but a slot is a chain of moves.** -/
theorem step_moves {ev : Event} {st : Step} (hd : s.decoding = true → s.phase = .receiving)
    (hev : ∀ reused, ev ≠ .slot reused) (h : s.step env ev = some st) :
    Moves (s.Orderly (env, ev)) env s st.2 st.1 := by
  cases ev with
  | slot reused => exact absurd rfl (hev reused)
  | refused =>
    cases h
    unfold onQueueRefused
    split
    · exact .nil
    next hphase =>
    have hnot : s.decoding = false := by
      cases hdec : s.decoding with
      | false => rfl
      | true => exact absurd (hd hdec) (by rw [not_not.mp hphase]; nofun)
    have hleave : Moves (s.Orderly (env, .refused)) env s []
        { s with phase := .failed, failure := some .poolSaturated, decoding := false } :=
      .single (.leave .failed s.conn (some .poolSaturated) (not_not.mp hphase) rfl (.inl rfl))
    have heq : ({ s with phase := .failed, failure := some .poolSaturated, decoding := false } : Exchange) =
        { s with phase := .failed, failure := some .poolSaturated } := by rw [← hnot]
    rw [heq] at hleave
    exact hleave.append (moves_deliverHead _)
  | tick =>
    cases h
    have hfail : ∀ why, s.phase.holds = true → Moves (s.Orderly (env, .tick)) env s (s.fail env why).2 (s.fail env why).1 :=
      fun why hholds => moves_fail env why hholds fun hf => hf
    unfold onTick
    split
    · next hphase =>
      have hnot : s.decoding = false := by
        cases hdec : s.decoding with
        | false => rfl
        | true => exact absurd (hd hdec) (by rw [hphase]; nofun)
      have hleave : Moves (s.Orderly (env, .tick)) env s [.dequeue s.poolKey]
          { s with phase := .failed, failure := some .queueTimeout, decoding := false } :=
        .single (.leave .failed s.conn (some .queueTimeout) hphase rfl (.inr rfl))
      have heq : ({ s with phase := .failed, failure := some .queueTimeout, decoding := false } : Exchange) =
          { s with phase := .failed, failure := some .queueTimeout } := by rw [← hnot]
      rw [heq] at hleave
      exact hleave.append (moves_deliverHead _)
    · next hphase => exact hfail _ (by rw [hphase]; rfl)
    · next hphase => exact hfail _ (by rw [hphase]; rfl)
    · next hphase => exact hfail _ (by rw [hphase]; rfl)
    · next hphase => exact hfail _ (by rw [hphase]; rfl)
    · exact .nil
  | completed o r =>
    unfold step at h
    dsimp only at h
    split at h
    · next ho =>
      cases h
      exact moves_completed ho (fun hf => hf.1) fun hf => hf.2
    · cases h
  | feedHead k complete =>
    unfold step at h
    dsimp only at h
    split at h
    · cases h
    cases h
    have hfed : Moves (s.Orderly (env, .feedHead k complete)) env s [] { s with headBytes := s.headBytes + k } := by
      have h := Quiet.refl s
      refine .single (.quiet ?_ nofun)
      exact ⟨rfl, rfl, rfl, rfl, rfl, rfl, rfl, rfl, rfl, rfl, Nat.le_add_right .., id, rfl, h.ops, h.read⟩
    split
    · exact hfed.append (moves_deliverHead _)
    · exact hfed
  | capReached =>
    unfold step at h
    dsimp only at h
    split at h
    · cases h
    cases h
    have hcap : Moves (s.Orderly (env, .capReached)) env s [] { s with buffering := false } := by
      have h := Quiet.refl s
      refine .single (.quiet ?_ nofun)
      exact ⟨rfl, rfl, rfl, rfl, rfl, rfl, rfl, rfl, rfl, rfl, Nat.le_refl _, id, rfl, h.ops, h.read⟩
    exact hcap.append (moves_deliverHead _)
  | decodeFail why =>
    unfold step at h
    dsimp only at h
    split at h
    · cases h
    next hdec =>
    cases h
    exact moves_fail env why (by rw [hd (by simpa using hdec)]; rfl) fun hf => hf
  | decodeFinish =>
    unfold step at h
    dsimp only at h
    split at h
    · cases h
    next hdec =>
    cases h
    exact moves_finish (by rw [hd (by simpa using hdec)]; rfl)
  | decodeUpgraded =>
    unfold step at h
    dsimp only at h
    split at h
    · cases h
    next hdec =>
    cases h
    exact moves_finishUpgraded (by rw [hd (by simpa using hdec)]; rfl)
  | decodeEnd more =>
    unfold step at h
    dsimp only at h
    split at h
    · cases h
    cases h
    have hend : Moves (s.Orderly (env, .decodeEnd more)) env s [] { s with inData := false, decoding := false } := by
      have h := Quiet.refl s
      refine .single (.quiet ?_ nofun)
      exact ⟨rfl, rfl, rfl, rfl, rfl, rfl, rfl, rfl, rfl, rfl, Nat.le_refl _, nofun, rfl, h.ops, h.read⟩
    split
    · exact hend.append (moves_readMore env _)
    · exact hend
  | cancel =>
    cases h
    unfold cancel
    split
    · exact .nil
    cases hphase : s.phase with
    | queued => exact .single (.leave .cancelled none s.failure hphase rfl (.inr rfl))
    | connecting | sending | sendingBody | receiving =>
      exact .single (.close .cancelled none s.failure s.headDelivered (by rw [hphase]; rfl) rfl)
    | finished | failed | cancelled => exact .single (.forget (by rw [hphase]; rfl))
  | pull =>
    cases h
    exact moves_readMore env s

end Steps

/-! ## §3. The decoder runs while the answer is received. -/

theorem Move.decoding {fair : Prop} {env : Env} {s t : Exchange} {acts : List Action} (h : Move fair env s acts t)
    (hs : s.decoding = true → s.phase = .receiving) : t.decoding = true → t.phase = .receiving := by
  cases h with
  | quiet hq _ => exact fun hd => hq.phase.trans (hs (hq.decoding hd))
  | sendHead _ => exact hs
  | proceed p hp =>
    intro hd
    have hr := hs hd
    rcases hp with ⟨hc, _⟩ | ⟨hb, rfl⟩
    · rw [hc] at hr
      cases hr
    · rfl
  | headWritten o p _ _ _ hphase _ =>
    intro hd
    have := hs hd
    rw [hphase] at this
    cases this
  | data o n _ hphase => exact fun _ => hphase
  | resend _ _ _ _ _ => exact nofun
  | moveTo why next _ _ _ =>
    rw [moveTo_fst]
    exact nofun
  | close p c f d _ _ => exact nofun
  | leave p c f _ _ _ => exact nofun
  | forget _ => exact nofun

/-- **What slots and moves keep, every step keeps.** -/
theorem step_keeps {I : Exchange → Prop} {s : Exchange} {env : Env} {ev : Event} {st : Step}
    (hslot : ∀ s reused, I s → s.phase = .queued → I (s.slotted reused))
    (hmove : ∀ u a v, I u → Move (s.Orderly (env, ev)) env u a v → I v)
    (hd : s.decoding = true → s.phase = .receiving) (hs : I s) (h : s.step env ev = some st) : I st.1 := by
  by_cases hev : ∃ reused, ev = .slot reused
  · obtain ⟨reused, rfl⟩ := hev
    cases h
    rcases onSlot_cases env s reused with ⟨_, heq⟩ | ⟨hphase, hmoves⟩
    · rw [heq]
      exact hs
    · exact hmoves.keeps hmove (hslot s reused hs hphase)
  · exact (step_moves hd (fun reused heq => hev ⟨reused, heq⟩) h).keeps hmove hs

theorem next_decoding {s t : Exchange} {l : Label} (hs : s.decoding = true → s.phase = .receiving)
    (h : s.next l = some t) : t.decoding = true → t.phase = .receiving := by
  obtain ⟨st, hst, rfl⟩ := Option.map_eq_some_iff.mp h
  refine step_keeps (I := fun u => u.decoding = true → u.phase = .receiving) ?_ (fun _ _ _ hi hm => hm.decoding hi) hs
    hs hst
  intro u reused hu hphase hd
  have := hu hd
  rw [hphase] at this
  cases this

end Agensio.Upstream.Exchange
