/-
  Agensio.Upstream.Isolation — the completions of an attempt that was given up.

  A run of an exchange is any sequence of events: deadlines, completions in
  any order, calls of the decoder, cancellation.  An exchange is isolated
  when a completion that was started for an earlier attempt changes nothing
  and asks for nothing, and no read is left out for the sake of an earlier
  attempt's.

  Main results:
    * `isolated_runs` — when a run is isolated.
-/
import Agensio.Upstream.Moves

namespace Agensio.Upstream.Exchange

open Agensio.Lib

/-! ## §1. Isolation. -/

/-- **An earlier attempt's completion** changes nothing but the list of operations, and the flag of
    its own read; and nothing is asked for. -/
def StaleQuiet (s : Exchange) : Prop :=
  ∀ env o r t acts, o.attempt < s.attempt → s.step env (.completed o r) = some (t, acts) →
    acts = [] ∧ t = { s with ops := s.ops.erase o, reading := s.reading && o.op ≠ .read }

/-- **The end of `on_data`** with an earlier attempt's bytes takes the flags down, and reads nothing more. -/
def EndQuiet (s : Exchange) : Prop :=
  ∀ env more t acts, s.dataOf < s.attempt → s.step env (.decodeEnd more) = some (t, acts) →
    acts = [] ∧ t = { s with inData := false, decoding := false }

/-- A read that is left out, since one is in flight or since the decoder runs, is left out for a read of its
    own attempt, or for bytes that its own attempt has read. -/
def ReadOwn (s : Exchange) : Prop :=
  s.phase = .receiving → (s.reading = true → ∃ o ∈ s.ops, o.op = .read ∧ o.attempt = s.attempt) ∧
    (s.inData = true → s.dataOf = s.attempt)

def Isolated (s : Exchange) : Prop := s.StaleQuiet ∧ s.EndQuiet ∧ s.ReadOwn

/-- No operation of an earlier attempt is in flight that belongs to the phase the exchange is in; nor is an
    earlier attempt's answer still being decoded when the exchange has come to read the next one. -/
def PhasesApart (s : Exchange) : Prop :=
  (∀ o ∈ s.ops, o.attempt < s.attempt → o.op.phase ≠ s.phase) ∧
    (s.inData = true → s.dataOf < s.attempt → s.phase ≠ .receiving)

/-- The deadline does not move the exchange to another member under an operation in flight. -/
def MovesIdle (s : Exchange) (l : Label) : Prop :=
  l.2 = .tick → s.ops = [] ∨ ∀ why, s.nextAddress l.1 why = none

/-- The operation writes the rest of the request. -/
def writesRest (s : Exchange) : Op → Bool
  | .writeHead => s.rest = .nothing
  | .writeBody last => last
  | _ => false

/-- The rest of a request is not written while the decoder still runs on an answer. -/
def WritesApart (s : Exchange) (l : Label) : Prop :=
  s.inData = true → ∀ o n, l.2 = .completed o (.ok n) → o.op.phase = s.phase → s.writesRest o.op = false

def Clear (s : Exchange) (l : Label) : Prop := s.MovesIdle l ∧ s.WritesApart l

/-! ## §2. The operations in flight. -/

/-- The operations in flight, and the bytes the decoder has, belong to attempts that were made; and the flag
    says that a read is in flight. -/
structure InFlight (s : Exchange) : Prop where
  past : ∀ o ∈ s.ops, o.attempt ≤ s.attempt
  read : s.reading = true → ∃ o ∈ s.ops, o.op = .read
  data : s.dataOf ≤ s.attempt

section Moving

variable {fair : Prop} {env : Env} {s t : Exchange} {acts : List Action}

/-- No operation is started, and another attempt may be made. -/
theorem InFlight.congr (h : InFlight s) (hops : t.ops = s.ops) (hlog : s.log.length ≤ t.log.length)
    (hread : t.reading = s.reading) (hdata : t.dataOf = s.dataOf) : InFlight t where
  past o ho := Nat.le_trans (h.past o (hops ▸ ho)) hlog
  read hr := hops ▸ h.read (hread ▸ hr)
  data := Nat.le_trans (Nat.le_of_eq hdata) (Nat.le_trans h.data hlog)

/-- **Every move keeps it.** -/
theorem Move.inFlight (h : InFlight s) (hmove : Move fair env s acts t) : InFlight t := by
  cases hmove with
  | quiet hq _ =>
    have hattempt : t.attempt = s.attempt := congrArg List.length hq.log
    refine ⟨fun o ho => ?_, fun hr => ?_, ?_⟩
    · rcases hq.ops o ho with ho | ⟨hown, _⟩
      · exact hattempt ▸ h.past o ho
      · exact Nat.le_of_eq (hown.trans hattempt.symm)
    · rcases hq.read hr with ⟨hr, hkept⟩ | hnow
      · obtain ⟨o, ho, hop⟩ := h.read hr
        exact ⟨o, hkept o ho hop, hop⟩
      · exact hnow
    · rw [hq.dataOf, hattempt]
      exact h.data
  | sendHead _ =>
    refine ⟨fun o ho => ?_, fun hr => ?_, h.data⟩
    · rcases List.mem_append.mp ho with ho | ho
      · exact h.past o ho
      rw [List.mem_singleton.mp ho]
      exact Nat.le_refl _
    · obtain ⟨o, ho, hop⟩ := h.read hr
      exact ⟨o, List.mem_append_left _ ho, hop⟩
  | headWritten o p ho hop _ _ _ =>
    refine ⟨fun o' ho' => h.past o' (List.mem_of_mem_erase ho'), fun hr => ?_, h.data⟩
    obtain ⟨o', ho', hread⟩ := h.read hr
    refine ⟨o', (List.mem_erase_of_ne ?_).mpr ho', hread⟩
    rintro rfl
    rw [hop] at hread
    cases hread
  | data o n ho _ => exact ⟨fun o' ho' => h.past o' (List.mem_of_mem_erase ho'), nofun, h.past o ho⟩
  | resend _ _ _ _ _ =>
    refine h.congr rfl ?_ rfl rfl
    rw [List.length_append]
    omega
  | moveTo why next _ _ _ =>
    rw [moveTo_fst]
    exact h.congr rfl (Nat.le_refl _) rfl rfl
  | proceed | close | leave | forget => exact h.congr rfl (Nat.le_refl _) rfl rfl

/-- **Every step keeps it.** -/
theorem next_inFlight {l : Label} (hs : InFlight s ∧ (s.decoding = true → s.phase = .receiving))
    (h : s.next l = some t) : InFlight t ∧ (t.decoding = true → t.phase = .receiving) := by
  refine ⟨?_, next_decoding hs.2 h⟩
  obtain ⟨st, hst, rfl⟩ := Option.map_eq_some_iff.mp h
  refine step_keeps (fun u reused hu _ => ?_) (fun _ _ _ hu hmove => hmove.inFlight hu) hs.2 hs.1 hst
  refine hu.congr rfl ?_ rfl rfl
  show _ ≤ (u.log ++ [_]).length
  rw [List.length_append]
  omega

end Moving

/-! ## §3. Isolation is that the phases are apart. -/

/-- A completion that fails, for the phase the exchange is in, is not quiet. -/
theorem completed_error_loud {s : Exchange} (env : Env) (op : Op) (a : Nat) (hphase : op.phase = s.phase) :
    (s.completed env op a (.error .other)).2 ≠ [] := by
  have hretries : s.retries .other = false := by
    unfold retries
    simp
  have hfail : ∀ (u : Exchange) (why : Failure), why.ours = false → u.phase.over = false →
      (u.fail env why).2 ≠ [] := by
    intro u why hours hlive
    have hmarks : u.marks why ≠ [] := by
      unfold marks
      rw [hours]
      nofun
    rcases fail_cases env u why with ⟨hover, _⟩ | ⟨_, next, _, h⟩ | ⟨_, _, h⟩
    · rw [hlive] at hover
      cases hover
    · rw [h]
      intro hnil
      exact hmarks (List.append_eq_nil_iff.mp hnil).1
    · rw [h]
      intro hnil
      exact hmarks (List.append_eq_nil_iff.mp (List.append_eq_nil_iff.mp hnil).1).1
  cases op with
  | connect =>
    unfold completed onConnect
    dsimp only
    rw [if_neg fun hne => hne hphase.symm]
    exact hfail s _ rfl (by rw [← hphase]; rfl)
  | handshake =>
    unfold completed onHandshake
    dsimp only
    rw [if_neg fun hne => hne hphase.symm]
    exact hfail s _ rfl (by rw [← hphase]; rfl)
  | writeHead =>
    unfold completed onHeadWritten
    dsimp only
    rw [if_neg fun hne => hne hphase.symm, hretries, if_neg Bool.false_ne_true]
    exact hfail s _ rfl (by rw [← hphase]; rfl)
  | readBody =>
    unfold completed onBodyRead
    dsimp only
    rw [if_neg fun hne => hne hphase.symm]
    exact hfail s _ rfl (by rw [← hphase]; rfl)
  | writeBody last =>
    unfold completed onBodyWritten
    dsimp only
    rw [if_neg fun hne => hne hphase.symm]
    exact hfail s _ rfl (by rw [← hphase]; rfl)
  | read =>
    unfold completed onRead
    dsimp only
    rw [if_neg fun hne => hne hphase.symm]
    have hr : ({ s with reading := false } : Exchange).retries .other = false := hretries
    rw [hr, if_neg Bool.false_ne_true, if_neg (by simp)]
    exact hfail _ _ rfl (show s.phase.over = false by rw [← hphase]; rfl)

/-- A completion for another phase is quiet. -/
theorem completed_apart {s : Exchange} (env : Env) (op : Op) (a : Nat) (r : Result) (hphase : op.phase ≠ s.phase) :
    s.completed env op a r = ({ s with reading := s.reading && op ≠ .read }, []) := by
  have hne : s.phase ≠ op.phase := Ne.symm hphase
  cases op with
  | read =>
    unfold completed
    rw [if_pos (show s.phase ≠ .receiving from hne), decide_eq_false fun h => h rfl, Bool.and_false]
  | connect | handshake | writeHead | readBody | writeBody last =>
    unfold completed
    dsimp only [Op.phase] at hne ⊢
    rw [if_pos hne, decide_eq_true (by simp), Bool.and_true]

/-- Somewhere to be. -/
def quietWorld : Env := ⟨fun _ => {}, 0, true, true, some 0, false, false, false⟩

/-- **An exchange is isolated while the phases are apart**, and only then. -/
theorem isolated_iff {s : Exchange} (hs : InFlight s) : s.Isolated ↔ s.PhasesApart := by
  constructor
  · rintro ⟨hquiet, -, hown⟩
    constructor
    · intro o ho hstale hphase
      -- its operation may be aborted
      have hstep : s.step quietWorld (.completed o (.error .other)) =
          some (({ s with ops := s.ops.erase o } : Exchange).completed quietWorld o.op o.attempt (.error .other)) :=
        if_pos ho
      have := (hquiet quietWorld o _ _ _ hstale hstep).1
      exact completed_error_loud quietWorld o.op o.attempt (s := { s with ops := s.ops.erase o }) hphase this
    · intro hdata hstale hphase
      have := (hown hphase).2 hdata
      omega
  · rintro ⟨hapart, hdecoded⟩
    refine ⟨?_, ?_, ?_⟩
    · intro env o r t acts hstale hstep
      unfold step at hstep
      dsimp only at hstep
      split at hstep
      · next ho =>
        have hphase := hapart o ho hstale
        rw [completed_apart env o.op o.attempt r (s := { s with ops := s.ops.erase o }) hphase] at hstep
        cases hstep
        exact ⟨rfl, rfl⟩
      · cases hstep
    · intro env more t acts hstale hstep
      unfold step at hstep
      dsimp only at hstep
      split at hstep
      · cases hstep
      next hdata =>
      have hphase : s.phase ≠ .receiving := hdecoded (by simpa using hdata) hstale
      -- nothing is read in another phase
      have hnothing : ({ s with inData := false, decoding := false } : Exchange).readMore env =
          ({ s with inData := false, decoding := false }, []) := by
        unfold readMore
        rw [if_pos (by simp [hphase])]
      rw [hnothing, ite_self] at hstep
      cases hstep
      exact ⟨rfl, rfl⟩
    · intro hphase
      constructor
      · intro hr
        obtain ⟨o, ho, hop⟩ := hs.read hr
        refine ⟨o, ho, hop, ?_⟩
        by_contra hne
        have hstale : o.attempt < s.attempt := Nat.lt_of_le_of_ne (hs.past o ho) hne
        refine hapart o ho hstale ?_
        rw [hop, hphase]
        rfl
      · intro hdata
        by_contra hne
        exact hdecoded hdata (Nat.lt_of_le_of_ne hs.data hne) hphase

/-! ## §4. One operation at a time. -/

/-- While the exchange is on, at most one operation is in flight: its own attempt's, in the phase it
    belongs to. -/
structure Tidy (s : Exchange) : Prop where
  own : s.phase.over = false → ∀ o ∈ s.ops, o.attempt = s.attempt ∧ o.op.phase = s.phase ∧
    (o.op = .read → s.reading = true)
  one : s.phase.over = false → s.ops.length ≤ 1
  read : s.phase.over = false → s.reading = true → ∃ o ∈ s.ops, o.op = .read
  inData : s.phase.over = false → s.inData = true → s.reading = false
  decoding : s.decoding = true → s.phase = .receiving ∧ s.inData = true
  data : s.phase = .receiving → s.inData = true → s.dataOf = s.attempt

/-- Nothing is in flight. -/
structure Idle (s : Exchange) : Prop where
  ops : s.ops = []
  reading : s.reading = false
  decoding : s.decoding = false

section Tidiness

variable {env : Env} {s t : Exchange} {why : Failure}

theorem Op.phase_live (op : Op) : op.phase.over = false ∧ op.phase ≠ .queued := by
  cases op <;> exact ⟨rfl, nofun⟩

theorem Tidy.phasesApart (h : Tidy s) : s.PhasesApart := by
  constructor
  · intro o ho hstale hphase
    have hlive : s.phase.over = false := by
      rw [← hphase]
      exact (Op.phase_live o.op).1
    have := (h.own hlive o ho).1
    omega
  · intro hdata hstale hphase
    have := h.data hphase hdata
    omega

theorem tidy_of_over (hover : s.phase.over = true) (hdec : s.decoding = false) : Tidy s := by
  have hno : s.phase.over ≠ false := by
    rw [hover]
    nofun
  refine ⟨fun h => absurd h hno, fun h => absurd h hno, fun h => absurd h hno, fun h => absurd h hno, fun h => ?_,
    fun h => ?_⟩
  · rw [hdec] at h
    cases h
  · rw [h] at hover
    cases hover

theorem Idle.tidy (h : Idle s) (hdata : s.phase = .receiving → s.inData = false) : Tidy s where
  own _ o ho := by
    rw [h.ops] at ho
    cases ho
  one _ := by
    rw [h.ops]
    exact Nat.zero_le _
  read _ hr := by
    rw [h.reading] at hr
    cases hr
  inData _ _ := h.reading
  decoding hd := by
    rw [h.decoding] at hd
    cases hd
  data hphase hd := by
    rw [hdata hphase] at hd
    cases hd

theorem Idle.start (h : Idle s) {op : Op} (hphase : op.phase = s.phase) (hop : op ≠ .read) : Tidy (s.start op) where
  own _ o ho := by
    have ho : o ∈ s.ops ++ [⟨op, s.attempt⟩] := ho
    rw [h.ops, List.nil_append, List.mem_singleton] at ho
    rw [ho]
    exact ⟨rfl, hphase, fun heq => absurd heq hop⟩
  one _ := by
    show (s.ops ++ [_]).length ≤ 1
    rw [h.ops]
    exact Nat.le_refl 1
  read _ hr := by
    have hr : s.reading = true := hr
    rw [h.reading] at hr
    cases hr
  inData _ _ := h.reading
  decoding hd := by
    have hd : s.decoding = true := hd
    rw [h.decoding] at hd
    cases hd
  data hp _ := by
    -- only a read belongs to this phase
    have hp : s.phase = .receiving := hp
    rw [hp] at hphase
    cases op with
    | read => exact absurd rfl hop
    | connect | handshake | writeHead | readBody | writeBody last => cases hphase

/-- Only a read belongs to the phase of the answer. -/
theorem Tidy.ops_of_receiving (h : Tidy s) (hphase : s.phase = .receiving) (hread : s.reading = false) :
    s.ops = [] := by
  have hlive : s.phase.over = false := by
    rw [hphase]
    rfl
  refine List.eq_nil_iff_forall_not_mem.mpr fun o ho => ?_
  obtain ⟨_, hop, hflag⟩ := h.own hlive o ho
  rw [hphase] at hop
  have : o.op = .read := by
    cases hkind : o.op with
    | read => rfl
    | connect | handshake | writeHead | readBody | writeBody last => rw [hkind] at hop; cases hop
  rw [hflag this] at hread
  cases hread

/-- An attempt that fails with nothing in flight leaves nothing in flight. -/
theorem tidy_fail (hlive : s.phase.over = false) (hops : s.ops = []) (hread : s.reading = false) (why : Failure) :
    Tidy (s.fail env why).1 := by
  rcases fail_cases env s why with ⟨hover, _⟩ | ⟨_, next, _, h⟩ | ⟨_, _, h⟩
  · rw [hlive] at hover
    cases hover
  · rw [h, moveTo_fst]
    exact Idle.tidy ⟨hops, hread, rfl⟩ nofun
  rw [h]
  exact tidy_of_over rfl rfl

theorem tidy_readMore (h : Tidy s) : Tidy (s.readMore env).1 := by
  unfold readMore
  split
  · exact h
  split
  · exact h
  next hgo _ =>
  rw [Bool.or_eq_true, Bool.or_eq_true, decide_eq_true_eq, not_or, not_or, Bool.not_eq_true, Bool.not_eq_true,
    not_not] at hgo
  obtain ⟨⟨hread, hdata⟩, hphase⟩ := hgo
  have hlive : s.phase.over = false := by
    rw [hphase]
    rfl
  -- no read is in flight, so nothing is
  have hnil : s.ops = [] := h.ops_of_receiving hphase hread
  exact
    { own := fun _ o ho => by
        have ho : o ∈ s.ops ++ [⟨.read, s.attempt⟩] := ho
        rw [hnil, List.nil_append, List.mem_singleton] at ho
        rw [ho]
        exact ⟨rfl, hphase.symm, fun _ => rfl⟩
      one := fun _ => by
        show (s.ops ++ [_]).length ≤ 1
        rw [hnil]
        exact Nat.le_refl 1
      read := fun _ _ => ⟨⟨.read, s.attempt⟩, List.mem_append_right _ (List.mem_singleton_self _), rfl⟩
      inData := fun _ hd => by
        have hd : s.inData = true := hd
        rw [hdata] at hd
        cases hd
      decoding := fun hd => by
        have := (h.decoding hd).2
        rw [hdata] at this
        cases this
      data := fun _ hd => by
        have hd : s.inData = true := hd
        rw [hdata] at hd
        cases hd }

theorem Idle.inPhase (h : Idle s) (p : Phase) : Idle { s with phase := p } := ⟨h.ops, h.reading, h.decoding⟩

theorem tidy_sendHead (h : Idle s) (hphase : s.phase = .sending) : Tidy s.sendHead.1 := by
  have hstart : Tidy (s.start .writeHead) := h.start hphase.symm nofun
  exact ⟨hstart.own, hstart.one, hstart.read, hstart.inData, hstart.decoding, hstart.data⟩

theorem tidy_connected (h : Idle s) : Tidy s.connected.1 := tidy_sendHead (h.inPhase .sending) rfl

theorem tidy_connect (h : Idle s) : Tidy (s.connect env).1 := by
  unfold connect
  split
  · exact (h.inPhase .connecting).start rfl nofun
  have h' := h.inPhase .connecting
  exact tidy_fail (s := { s with phase := .connecting }) rfl h'.ops h'.reading .connectError

theorem tidy_handshake (h : Idle s) (hlive : s.phase.over = false) : Tidy (s.handshake env).1 := by
  unfold handshake
  split
  · exact tidy_fail hlive h.ops h.reading .tlsError
  · exact (h.inPhase .sending).start rfl nofun

theorem tidy_bodySent (h : Idle s) (hdata : s.inData = false) : Tidy (s.bodySent env).1 :=
  tidy_readMore ((h.inPhase .receiving).tidy fun _ => hdata)

theorem tidy_sendBodyNext (h : Idle s) (hphase : s.phase = .sendingBody) : Tidy (s.sendBodyNext env).1 := by
  unfold sendBodyNext
  split
  · exact h.start hphase.symm nofun
  split
  · exact tidy_fail (by rw [hphase]; rfl) h.ops h.reading .spillError
  · exact h.start hphase.symm nofun

theorem tidy_retry (h : Idle s) : Tidy (s.retry env).1 := tidy_connect ⟨h.ops, h.reading, rfl⟩

/-- A completion in its phase, with nothing else in flight. -/
theorem tidy_completed (h : Idle s) {op : Op} (hphase : op.phase = s.phase) {a : Nat} (ha : a = s.attempt)
    (r : Result) (hwrites : (∃ n, r = .ok n) → s.writesRest op = true → s.inData = false) :
    Tidy (s.completed env op a r).1 := by
  have hlive : s.phase.over = false := by
    rw [← hphase]
    exact (Op.phase_live op).1
  have hfail : ∀ why, Tidy (s.fail env why).1 := fun why => tidy_fail hlive h.ops h.reading why
  cases op with
  | connect =>
    unfold completed onConnect
    dsimp only
    rw [if_neg fun hne => hne hphase.symm]
    split
    · exact hfail _
    split
    · exact tidy_handshake h hlive
    · exact tidy_connected h
  | handshake =>
    unfold completed onHandshake
    dsimp only
    rw [if_neg fun hne => hne hphase.symm]
    split
    · exact hfail _
    · exact tidy_sendHead h hphase.symm
  | writeHead =>
    unfold completed onHeadWritten
    dsimp only
    rw [if_neg fun hne => hne hphase.symm]
    split
    · split
      · exact tidy_retry h
      · exact hfail _
    next n =>
    split
    · next hrest => exact tidy_bodySent h (hwrites ⟨n, rfl⟩ (decide_eq_true hrest))
    · exact tidy_sendBodyNext (h.inPhase .sendingBody) rfl
  | readBody =>
    unfold completed onBodyRead
    dsimp only
    rw [if_neg fun hne => hne hphase.symm]
    split
    · exact hfail _
    · exact h.start hphase nofun
  | writeBody last =>
    unfold completed onBodyWritten
    dsimp only
    rw [if_neg fun hne => hne hphase.symm]
    split
    · exact hfail _
    next n =>
    split
    · next hlast => exact tidy_bodySent h (hwrites ⟨n, rfl⟩ hlast)
    · exact tidy_sendBodyNext h hphase.symm
  | read =>
    have h' : Idle { s with reading := false } := ⟨h.ops, rfl, h.decoding⟩
    unfold completed onRead
    dsimp only
    rw [if_neg fun hne => hne hphase.symm]
    split
    · split
      · exact tidy_retry h'
      split
      · obtain ⟨hp, hd⟩ := finish_phase { s with reading := false }
        exact tidy_of_over (by rw [hp]; rfl) hd
      · exact tidy_fail (s := { s with reading := false }) hlive h.ops rfl _
    · -- the bytes go to the decoder
      exact
        { own := fun _ o ho => by
            rw [h.ops] at ho
            cases ho
          one := fun _ => by
            rw [h.ops]
            exact Nat.zero_le _
          read := fun _ hr => nomatch hr
          inData := fun _ _ => rfl
          decoding := fun _ => ⟨hphase.symm, rfl⟩
          data := fun _ _ => ha }

/-- Nothing is in flight while it is queued. -/
theorem Tidy.idle_of_queued (h : Tidy s) (hphase : s.phase = .queued) : Idle s := by
  have hlive : s.phase.over = false := by
    rw [hphase]
    rfl
  have hops : s.ops = [] := by
    refine List.eq_nil_iff_forall_not_mem.mpr fun o ho => ?_
    have := (h.own hlive o ho).2.1
    rw [hphase] at this
    exact (Op.phase_live o.op).2 this
  refine ⟨hops, ?_, ?_⟩
  · cases hr : s.reading with
    | false => rfl
    | true =>
      obtain ⟨o, ho, _⟩ := h.read hlive hr
      rw [hops] at ho
      cases ho
  · cases hd : s.decoding with
    | false => rfl
    | true =>
      have := (h.decoding hd).1
      rw [hphase] at this
      cases this

/-- Nor while the decoder runs. -/
theorem Tidy.ops_of_decoding (h : Tidy s) (hd : s.decoding = true) :
    s.phase.over = false ∧ s.ops = [] ∧ s.reading = false := by
  obtain ⟨hphase, hdata⟩ := h.decoding hd
  have hlive : s.phase.over = false := by
    rw [hphase]
    rfl
  have hread := h.inData hlive hdata
  exact ⟨hlive, h.ops_of_receiving hphase hread, hread⟩

/-- What a completion finds when its operation is out of the list. -/
theorem Tidy.idle_of_erase (h : Tidy s) (hlive : s.phase.over = false) {o : Started} (ho : o ∈ s.ops) :
    s.ops.erase o = [] ∧ s.decoding = false ∧ (o.op ≠ .read → s.reading = false) := by
  have hone := h.one hlive
  have hops : s.ops = [o] := by
    match hm : s.ops, ho, hone with
    | [o'], ho, _ =>
      rw [List.mem_singleton.mp ho]
    | _ :: _ :: _, _, hone =>
      simp only [List.length_cons] at hone
      omega
  refine ⟨by rw [hops, List.erase_cons_head], ?_, ?_⟩
  · cases hd : s.decoding with
    | false => rfl
    | true =>
      have := (h.ops_of_decoding hd).2.1
      rw [hops] at this
      cases this
  · intro hop
    cases hr : s.reading with
    | false => rfl
    | true =>
      obtain ⟨o', ho', hread⟩ := h.read hlive hr
      rw [hops, List.mem_singleton] at ho'
      rw [ho'] at hread
      exact absurd hread hop

end Tidiness

/-- A step that leaves the operations, the phase and the flags of the decoder alone. -/
theorem Tidy.congr {s t : Exchange} (h : Tidy s) (hops : t.ops = s.ops) (hphase : t.phase = s.phase)
    (hlog : t.log = s.log) (hread : t.reading = s.reading) (hdata : t.inData = s.inData)
    (hdec : t.decoding = s.decoding) (hdataOf : t.dataOf = s.dataOf) : Tidy t := by
  have hattempt : t.attempt = s.attempt := congrArg List.length hlog
  constructor
  · rw [hphase, hops, hattempt, hread]
    exact h.own
  · rw [hphase, hops]
    exact h.one
  · rw [hphase, hops, hread]
    exact h.read
  · rw [hphase, hdata, hread]
    exact h.inData
  · rw [hphase, hdata, hdec]
    exact h.decoding
  · rw [hphase, hdata, hdataOf, hattempt]
    exact h.data

theorem Tidy.deliverHead {s : Exchange} (h : Tidy s) : Tidy s.deliverHead.1 := by
  rcases s.deliverHead_fst with heq | heq <;> rw [heq]
  · exact h
  · exact h.congr rfl rfl rfl rfl rfl rfl rfl

/-- **A step keeps one operation in flight at most**, unless it moves on under one; and the decoder's bytes are
    the attempt's own, unless its request was sent while the decoder ran. -/
theorem next_tidy {s t : Exchange} {l : Label} (h : Tidy s) (hl : s.Clear l) (hn : s.next l = some t) :
    Tidy t := by
  obtain ⟨st, hst, rfl⟩ := Option.map_eq_some_iff.mp hn
  obtain ⟨env, ev⟩ := l
  cases ev with
  | slot reused =>
    cases hst
    unfold onSlot
    split
    · exact h
    next hphase =>
    have hidle := h.idle_of_queued (not_not.mp hphase)
    split
    · exact tidy_connected ⟨hidle.ops, hidle.reading, hidle.decoding⟩
    · exact tidy_connect ⟨hidle.ops, hidle.reading, hidle.decoding⟩
  | refused =>
    cases hst
    unfold onQueueRefused
    split
    · exact h
    next hphase =>
    have hdec := (h.idle_of_queued (not_not.mp hphase)).decoding
    have hover : Tidy { s with phase := .failed, failure := some .poolSaturated } := tidy_of_over rfl hdec
    exact hover.deliverHead
  | tick =>
    cases hst
    -- what is in flight at a deadline stops the exchange from moving on
    have hfail : ∀ why, s.phase.over = false → Tidy (s.fail env why).1 := by
      intro why hlive
      rcases hl.1 rfl with hops | hstay
      · refine tidy_fail hlive hops ?_ why
        cases hr : s.reading with
        | false => rfl
        | true =>
          obtain ⟨o, ho, _⟩ := h.read hlive hr
          rw [hops] at ho
          cases ho
      · rcases fail_cases env s why with ⟨hover, _⟩ | ⟨_, next, hnext, _⟩ | ⟨_, _, heq⟩
        · rw [hlive] at hover
          cases hover
        · have hnone : s.nextAddress env why = none := hstay why
          rw [hnone] at hnext
          cases hnext
        · rw [heq]
          exact tidy_of_over rfl rfl
    unfold onTick
    split
    · next hphase =>
      have hdec := (h.idle_of_queued hphase).decoding
      have hover : Tidy { s with phase := .failed, failure := some .queueTimeout } := tidy_of_over rfl hdec
      exact hover.deliverHead
    · next hphase => exact hfail _ (by rw [hphase]; rfl)
    · next hphase => exact hfail _ (by rw [hphase]; rfl)
    · next hphase => exact hfail _ (by rw [hphase]; rfl)
    · next hphase => exact hfail _ (by rw [hphase]; rfl)
    · exact h
  | completed o r =>
    unfold step at hst
    dsimp only at hst
    split at hst
    · next ho =>
      cases hst
      cases hover : s.phase.over with
      | true =>
        -- nobody waits for it
        have hphase : o.op.phase ≠ s.phase := by
          intro heq
          rw [← heq, (Op.phase_live o.op).1] at hover
          cases hover
        have hdec : s.decoding = false := by
          cases hd : s.decoding with
          | false => rfl
          | true =>
            have := (h.ops_of_decoding hd).1
            rw [hover] at this
            cases this
        rw [completed_apart env o.op o.attempt r (s := { s with ops := s.ops.erase o }) hphase]
        exact tidy_of_over hover hdec
      | false =>
        obtain ⟨hops, hdec, hread⟩ := h.idle_of_erase hover ho
        obtain ⟨hattempt, hphase, -⟩ := h.own hover o ho
        have hwrites : (∃ n, r = .ok n) → s.writesRest o.op = true → s.inData = false := by
          rintro ⟨n, rfl⟩ hrest
          cases hdata : s.inData with
          | false => rfl
          | true =>
            rw [hl.2 hdata o n rfl hphase] at hrest
            cases hrest
        by_cases hop : o.op = .read
        · -- the flag goes down before anything else
          have hidle : Idle { s with ops := s.ops.erase o, reading := false } := ⟨hops, rfl, hdec⟩
          have : Tidy (completed env _ o.op o.attempt r).1 := tidy_completed hidle hphase hattempt r hwrites
          rw [hop] at this ⊢
          exact this
        · have hidle : Idle { s with ops := s.ops.erase o } := ⟨hops, hread hop, hdec⟩
          exact tidy_completed hidle hphase hattempt r hwrites
    · cases hst
  | feedHead k complete =>
    unfold step at hst
    dsimp only at hst
    split at hst
    · cases hst
    cases hst
    have hfed : Tidy { s with headBytes := s.headBytes + k } := h.congr rfl rfl rfl rfl rfl rfl rfl
    split
    · exact hfed.deliverHead
    · exact hfed
  | capReached =>
    unfold step at hst
    dsimp only at hst
    split at hst
    · cases hst
    cases hst
    have hcap : Tidy { s with buffering := false } := h.congr rfl rfl rfl rfl rfl rfl rfl
    exact hcap.deliverHead
  | decodeFail why =>
    unfold step at hst
    dsimp only at hst
    split at hst
    · cases hst
    next hd =>
    cases hst
    obtain ⟨hlive, hops, hread⟩ := h.ops_of_decoding (by simpa using hd)
    exact tidy_fail hlive hops hread why
  | decodeFinish =>
    unfold step at hst
    dsimp only at hst
    split at hst
    · cases hst
    cases hst
    obtain ⟨hp, hd⟩ := finish_phase s
    exact tidy_of_over (by rw [hp]; rfl) hd
  | decodeUpgraded =>
    unfold step at hst
    dsimp only at hst
    split at hst
    · cases hst
    cases hst
    obtain ⟨hp, hd⟩ := finishUpgraded_phase s
    exact tidy_of_over (by rw [hp]; rfl) hd
  | decodeEnd more =>
    unfold step at hst
    dsimp only at hst
    split at hst
    · cases hst
    cases hst
    have hend : Tidy { s with inData := false, decoding := false } :=
      ⟨h.own, h.one, h.read, nofun, nofun, nofun⟩
    split
    · exact tidy_readMore hend
    · exact hend
  | cancel =>
    cases hst
    unfold cancel
    split
    · exact h
    · exact tidy_of_over rfl rfl
  | pull =>
    cases hst
    exact tidy_readMore h

/-! ## §5. Isolated runs. -/

variable (group : List Address) (getOrHead : Bool) (rest : Rest) (bodySize : Nat) (buffering : Bool)
  (first : Option Nat)

theorem begun_inFlight : InFlight (begun group getOrHead rest bodySize buffering first) :=
  ⟨nofun, nofun, Nat.le_refl _⟩

theorem begun_tidy : Tidy (begun group getOrHead rest bodySize buffering first) := Idle.tidy ⟨rfl, rfl, rfl⟩ nofun

/-- **Isolation of the attempts**: in every state of every run it is that the phases are apart, and
    it holds in every run in which no deadline moves the exchange on under an operation in flight, and no
    request is sent to its end while the decoder runs. -/
theorem isolated_runs {ls : List Label} {s : Exchange}
    (h : run next (begun group getOrHead rest bodySize buffering first) ls = some s) :
    (s.Isolated ↔ s.PhasesApart) ∧
      (Meets next Clear (begun group getOrHead rest bodySize buffering first) ls → s.Isolated) := by
  have hany : Meets next (fun _ _ => True) (begun group getOrHead rest bodySize buffering first) ls :=
    meets_of_forall fun _ _ => trivial
  have hflight : InFlight s :=
    (run_invariant (fun _ _ _ hi _ hn => next_inFlight hi hn)
      ⟨begun_inFlight group getOrHead rest bodySize buffering first, nofun⟩ h hany).1
  refine ⟨isolated_iff hflight, fun hmeets => ?_⟩
  have htidy : Tidy s :=
    run_invariant (fun _ _ _ hi hl hn => next_tidy hi hl hn) (begun_tidy group getOrHead rest bodySize buffering first) h hmeets
  exact (isolated_iff hflight).mpr htidy.phasesApart

/-- Two origins. -/
def twoMembers : List Address := [⟨false, bytes "a:80", bytes "a:80"⟩, ⟨false, bytes "b:80", bytes "b:80"⟩]

/-- A GET over the two, at the first of them. -/
def fetching : Exchange := begun twoMembers true .nothing 0 true (some 0)

/-- The connect to the first member takes too long, and the second member is tried. -/
def secondConnect : List Label := [(quietWorld, .slot false), (quietWorld, .tick), (quietWorld, .slot false)]

/-- The state in which the second connect, and the first one still, are in flight. -/
def connectingTwice : Exchange :=
  { fetching with
    phase := .connecting, member := some 1, tried := 3, attempts := 1, conn := some false,
    ops := [⟨.connect, 1⟩, ⟨.connect, 2⟩], log := [⟨some 0, false⟩, ⟨some 1, false⟩] }

theorem run_secondConnect : run next fetching secondConnect = some connectingTwice := rfl

/-- The connect to the first member fails; the second member's kept connection turns out to be closed, and on a
    fresh one the answer begins. -/
def thirdAttempt : List Label :=
  [(quietWorld, .slot false), (quietWorld, .completed ⟨.connect, 1⟩ (.error .other)), (quietWorld, .slot true),
    (quietWorld, .completed ⟨.writeHead, 2⟩ (.ok 0)), (quietWorld, .completed ⟨.read, 2⟩ (.error .eof)),
    (quietWorld, .completed ⟨.connect, 3⟩ (.ok 0)), (quietWorld, .completed ⟨.writeHead, 3⟩ (.ok 0)),
    (quietWorld, .completed ⟨.read, 3⟩ (.ok 60)), (quietWorld, .feedHead 60 true), (quietWorld, .decodeEnd true)]

theorem isolated_runs_thirdAttempt : ∃ s, run next fetching thirdAttempt = some s ∧ s.log.length = 3 ∧
    s.ops = [⟨.read, 3⟩] ∧ s.PhasesApart ∧ s.Isolated := by
  have hruns := @isolated_runs twoMembers true .nothing 0 true (some 0) thirdAttempt _ rfl
  have hclear : Meets next Clear fetching thirdAttempt :=
    ⟨⟨nofun, nofun⟩, ⟨nofun, nofun⟩, ⟨nofun, nofun⟩, ⟨nofun, nofun⟩, ⟨nofun, nofun⟩, ⟨nofun, nofun⟩, ⟨nofun, nofun⟩,
      ⟨nofun, nofun⟩, ⟨nofun, nofun⟩, ⟨nofun, nofun⟩, trivial⟩
  exact ⟨_, rfl, rfl, rfl, hruns.1.mp (hruns.2 hclear), hruns.2 hclear⟩

/-- The first connect is aborted, and the second attempt fails of it. -/
theorem late_abort_fails_next : ¬ ∀ group getOrHead rest bodySize buffering first ls s,
    run next (begun group getOrHead rest bodySize buffering first) ls = some s → s.Isolated := by
  intro h
  obtain ⟨hquiet, _⟩ := h twoMembers true .nothing 0 true (some 0) secondConnect connectingTwice run_secondConnect
  have hstep : connectingTwice.step quietWorld (.completed ⟨.connect, 1⟩ (.error .operationAborted)) =
      some (({ connectingTwice with ops := [⟨.connect, 2⟩] } : Exchange).fail quietWorld .connectError) := rfl
  have hacts := (hquiet _ _ _ _ _ (by decide) hstep).1
  have hmark : (({ connectingTwice with ops := [⟨.connect, 2⟩] } : Exchange).fail quietWorld .connectError).2 =
      [.markFailure (bytes "b:80"), .release (bytes "b:80"), .deliver] := rfl
  exact List.cons_ne_nil _ _ (hmark.symm.trans hacts)

end Agensio.Upstream.Exchange
