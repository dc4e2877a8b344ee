/-
  Agensio.Quic.Timers — the one timer of an endpoint.

  Model of `schedule`, `unschedule`, `arm_if_earlier` and `fire`
  (`quic/udp.hpp`) over the deadline heap.  The system timer is what the
  library documents: setting its expiry cancels the wait that is out, but
  not a handler that is already queued to run.  `armed` is `armed_`, no
  time being `time_point::max()`; `pending` is the expiry of the wait that
  is out; `queued` counts the handlers that will run.  What a connection
  does when its timer runs, and what the tail of `fire` does after, are
  lists of schedulings, any lists.

  Main results:
    * `timer_fires_in_time` — the same over every run.
-/
import Agensio.Quic.TimerHeap
import Mathlib.Algebra.Order.Monoid.Unbundled.WithTop
import Mathlib.Order.WithBot

namespace Agensio.Quic

namespace Timers

open TimerHeap

variable {α Time : Type} [LinearOrder Time] [OrderTop Time]

/-! ## §1. The timer. -/

/-- The heap of deadlines and the system timer. -/
structure WorkerTimer (α Time : Type) where
  heap : TimerHeap α Time
  armed : Time
  pending : Option Time
  queued : Nat

namespace WorkerTimer

/-- `arm_if_earlier`. -/
def armIfEarlier (d : Time) (s : WorkerTimer α Time) : WorkerTimer α Time :=
  if s.armed ≠ ⊤ ∧ s.armed ≤ d then s else { s with armed := d, pending := some d }

/-- The end of `fire`. -/
def rearm (s : WorkerTimer α Time) : WorkerTimer α Time :=
  if s.heap.v = [] then s else armIfEarlier s.heap.earliest s

/-- The handler that runs: `armed_` is cleared before `fire`. -/
def handle (s : WorkerTimer α Time) : WorkerTimer α Time :=
  { s with armed := ⊤, queued := s.queued - 1 }

end WorkerTimer

open WorkerTimer

/-- The heap is in order, every deadline in it is a time, and `armed` is the expiry of the wait that
is out, unless a handler is to run. -/
structure Sound (s : WorkerTimer α Time) : Prop where
  heap : TimerHeap.Inv s.heap
  finite : ∀ t ∈ s.heap.v, s.heap.deadline t ≠ ⊤
  out : s.armed ≠ ⊤ → 0 < s.queued ∨ s.pending = some s.armed

/-- The timer is armed, not later than any deadline. -/
def Early (s : WorkerTimer α Time) : Prop :=
  ∀ t ∈ s.heap.v, s.armed ≠ ⊤ ∧ s.armed ≤ s.heap.deadline t

theorem armIfEarlier_heap (d : Time) (s : WorkerTimer α Time) : (armIfEarlier d s).heap = s.heap := by
  unfold armIfEarlier
  split <;> rfl

theorem armIfEarlier_le {d : Time} (hd : d ≠ ⊤) (s : WorkerTimer α Time) :
    (armIfEarlier d s).armed ≠ ⊤ ∧ (armIfEarlier d s).armed ≤ d := by
  unfold armIfEarlier
  by_cases h : s.armed ≠ ⊤ ∧ s.armed ≤ d
  · rw [if_pos h]
    exact h
  rw [if_neg h]
  exact ⟨hd, le_refl d⟩

/-- Arming never makes the timer later. -/
theorem armIfEarlier_early {d : Time} {s : WorkerTimer α Time} {e : Time}
    (h : s.armed ≠ ⊤ ∧ s.armed ≤ e) : (armIfEarlier d s).armed ≤ e := by
  unfold armIfEarlier
  by_cases hle : s.armed ≠ ⊤ ∧ s.armed ≤ d
  · rw [if_pos hle]
    exact h.2
  rw [if_neg hle]
  have hlt : d < s.armed := by
    rw [← not_le]
    exact fun hle' => hle ⟨h.1, hle'⟩
  exact le_trans (le_of_lt hlt) h.2

theorem Sound.arm {s : WorkerTimer α Time} (h : Sound s) (d : Time) : Sound (armIfEarlier d s) := by
  unfold armIfEarlier
  by_cases hle : s.armed ≠ ⊤ ∧ s.armed ≤ d
  · rw [if_pos hle]
    exact h
  rw [if_neg hle]
  exact ⟨h.heap, h.finite, fun _ => .inr rfl⟩

/-- While the handler runs nothing is armed. -/
theorem Sound.handle {s : WorkerTimer α Time} (h : Sound s) : Sound (handle s) :=
  ⟨h.heap, h.finite, fun hne => absurd rfl hne⟩

theorem Sound.rearm {s : WorkerTimer α Time} (h : Sound s) : Sound (rearm s) := by
  unfold WorkerTimer.rearm
  split
  · exact h
  · exact h.arm _

/-- **The end of `fire` arms the timer** for the earliest deadline, whatever was scheduled. -/
theorem early_rearm {s : WorkerTimer α Time} (h : Sound s) : Early (rearm s) := by
  unfold WorkerTimer.rearm
  by_cases hv : s.heap.v = []
  · rw [if_pos hv]
    intro t ht
    rw [hv] at ht
    cases ht
  · rw [if_neg hv]
    obtain ⟨first, rest, hcons⟩ := List.exists_cons_of_ne_nil hv
    have htop : s.heap.top = some first := by
      show s.heap.v.head? = some first
      rw [hcons]
      rfl
    have hne : s.heap.earliest ≠ ⊤ := by
      rw [earliest_top htop]
      exact h.finite first (hcons ▸ .head _)
    intro t ht
    rw [armIfEarlier_heap] at ht ⊢
    obtain ⟨harmed, hle⟩ := armIfEarlier_le hne s
    exact ⟨harmed, le_trans hle (h.heap.earliest_le ht)⟩

/-! ## §2. The operations. -/

variable [DecidableEq α]

namespace WorkerTimer

/-- `unschedule`. -/
def unschedule (t : α) (s : WorkerTimer α Time) : WorkerTimer α Time := { s with heap := remove t s.heap }

/-- `schedule`. -/
def schedule (t : α) (d : Time) (s : WorkerTimer α Time) : WorkerTimer α Time :=
  if d = ⊤ then unschedule t s
  else armIfEarlier d { s with heap := update t (setDeadline t d s.heap) }

/-- What a connection asks of the endpoint. -/
inductive Op (α Time : Type) where
  | schedule (t : α) (d : Time)
  | unschedule (t : α)

/-- The connection an operation is about. -/
def Op.about : Op α Time → α
  | .schedule t _ => t
  | .unschedule t => t

def run (s : WorkerTimer α Time) : Op α Time → WorkerTimer α Time
  | .schedule t d => schedule t d s
  | .unschedule t => unschedule t s

def runAll (s : WorkerTimer α Time) (ops : List (Op α Time)) : WorkerTimer α Time := ops.foldl run s

/-- What each connection waits for after one more operation, by the operations alone. -/
def Op.note (wanted : α → Option Time) : Op α Time → α → Option Time
  | .schedule t d => Function.update wanted t (if d = ⊤ then none else some d)
  | .unschedule t => Function.update wanted t none

/-- The deadline that was scheduled last for each connection and not taken back since. -/
def asked (ops : List (Op α Time)) : α → Option Time := ops.foldl Op.note fun _ => none

/-- The loop of `fire`: the connections run, each with what its `on_timer` asked for; `limit` is
half a millisecond past the time now. -/
inductive Due (limit : Time) :
    WorkerTimer α Time → List (α × List (Op α Time)) → WorkerTimer α Time → Prop
  | done {s : WorkerTimer α Time} (h : ∀ t, s.heap.top = some t → limit < s.heap.deadline t) :
      Due limit s [] s
  | next {s s' : WorkerTimer α Time} {t : α} {ops : List (Op α Time)}
      {due : List (α × List (Op α Time))} (htop : s.heap.top = some t)
      (hdue : s.heap.deadline t ≤ limit) (rest : Due limit (runAll (unschedule t s) ops) due s') :
      Due limit s ((t, ops) :: due) s'

/-- The operations of `fire`'s loop: each connection is taken out, then does what it does. -/
def dueOps (due : List (α × List (Op α Time))) : List (Op α Time) :=
  due.flatMap fun x => .unschedule x.1 :: x.2

end WorkerTimer

/-- Nothing is armed. -/
def initial (deadline : α → Time) : WorkerTimer α Time where
  heap := { v := [], deadline, index := fun _ => none }
  armed := ⊤
  pending := none
  queued := 0

/-- One step, with the operations it made: a connection's scheduling, the timer running out, or its
handler. -/
inductive Step : List (Op α Time) → WorkerTimer α Time → WorkerTimer α Time → Prop
  | op {s : WorkerTimer α Time} (o : Op α Time) : Step [o] s (run s o)
  | expire {s : WorkerTimer α Time} {d : Time} (hpending : s.pending = some d) :
      Step [] s { s with pending := none, queued := s.queued + 1 }
  | fire {s s' : WorkerTimer α Time} {limit : Time} {due : List (α × List (Op α Time))}
      (tail : List (Op α Time)) (hqueued : 0 < s.queued) (hdue : Due limit (handle s) due s') :
      Step (dueOps due ++ tail) s (rearm (runAll s' tail))

/-- The endpoints reached from nothing armed, each with the operations made so far. -/
inductive Reachable (deadline : α → Time) : List (Op α Time) → WorkerTimer α Time → Prop
  | start : Reachable deadline [] (initial deadline)
  | step {s s' : WorkerTimer α Time} {log ops : List (Op α Time)} (h : Reachable deadline log s)
      (hstep : Step ops s s') : Reachable deadline (log ++ ops) s'

/-! ## §3. What every operation keeps. -/

theorem Sound.unschedule {s : WorkerTimer α Time} (h : Sound s) (t : α) : Sound (unschedule t s) := by
  obtain ⟨hinv, hdl, hmem⟩ := remove_spec h.heap t
  refine ⟨hinv, ?_, h.out⟩
  intro x hx
  show (remove t s.heap).deadline x ≠ ⊤
  rw [hdl]
  exact h.finite x ((hmem x).mp hx).1

theorem Early.unschedule {s : WorkerTimer α Time} (hs : Sound s) (h : Early s) (t : α) :
    Early (unschedule t s) := by
  obtain ⟨-, hdl, hmem⟩ := remove_spec hs.heap t
  intro x hx
  obtain ⟨harmed, hle⟩ := h x ((hmem x).mp hx).1
  refine ⟨harmed, ?_⟩
  show s.armed ≤ (remove t s.heap).deadline x
  rw [hdl]
  exact hle

theorem Sound.schedule {s : WorkerTimer α Time} (h : Sound s) (t : α) (d : Time) :
    Sound (schedule t d s) := by
  unfold WorkerTimer.schedule
  by_cases hd : d = ⊤
  · rw [if_pos hd]
    exact h.unschedule t
  rw [if_neg hd]
  obtain ⟨hinv, hdl, hmem⟩ := update_spec h.heap t d
  apply Sound.arm
  refine ⟨hinv, ?_, h.out⟩
  intro x hx
  show (update t (setDeadline t d s.heap)).deadline x ≠ ⊤
  rw [hdl]
  by_cases hxt : x = t
  · rw [hxt, Function.update_self]
    exact hd
  rw [Function.update_of_ne hxt]
  exact h.finite x (((hmem x).mp hx).resolve_right hxt)

theorem Early.schedule {s : WorkerTimer α Time} (hs : Sound s) (h : Early s) (t : α) (d : Time) :
    Early (schedule t d s) := by
  unfold WorkerTimer.schedule
  by_cases hd : d = ⊤
  · rw [if_pos hd]
    exact h.unschedule hs t
  rw [if_neg hd]
  obtain ⟨-, hdl, hmem⟩ := update_spec hs.heap t d
  intro x hx
  rw [armIfEarlier_heap] at hx ⊢
  obtain ⟨hne, hle⟩ :=
    armIfEarlier_le hd { s with heap := update t (setDeadline t d s.heap) }
  refine ⟨hne, ?_⟩
  show _ ≤ (update t (setDeadline t d s.heap)).deadline x
  rw [hdl]
  by_cases hxt : x = t
  · rw [hxt, Function.update_self]
    exact hle
  -- the others were not before the timer
  rw [Function.update_of_ne hxt]
  have hx' : x ∈ s.heap.v := ((hmem x).mp hx).resolve_right hxt
  exact armIfEarlier_early (h x hx')

theorem Sound.run {s : WorkerTimer α Time} (h : Sound s) (o : Op α Time) : Sound (run s o) := by
  cases o with
  | schedule t d => exact h.schedule t d
  | unschedule t => exact h.unschedule t

theorem Early.run {s : WorkerTimer α Time} (hs : Sound s) (h : Early s) (o : Op α Time) :
    Early (run s o) := by
  cases o with
  | schedule t d => exact h.schedule hs t d
  | unschedule t => exact h.unschedule hs t

theorem Sound.runAll {s : WorkerTimer α Time} (h : Sound s) (ops : List (Op α Time)) :
    Sound (runAll s ops) := by
  induction ops generalizing s with
  | nil => exact h
  | cons o ops ih => exact ih (h.run o)

/-! ## §4. The handler. -/

theorem Sound.due {limit : Time} {s s' : WorkerTimer α Time} {due : List (α × List (Op α Time))}
    (h : Sound s) (hdue : Due limit s due s') : Sound s' := by
  induction hdue with
  | done _ => exact h
  | next _ _ _ ih => exact ih ((h.unschedule _).runAll _)

/-- Nothing that is not about `t` moves it. -/
theorem run_other {s : WorkerTimer α Time} (h : Sound s) {o : Op α Time} {t : α} (hne : o.about ≠ t)
    (ht : t ∈ s.heap.v) : t ∈ (run s o).heap.v ∧ (run s o).heap.deadline t = s.heap.deadline t := by
  have hunsched : ∀ x, x ≠ t → t ∈ (unschedule x s).heap.v ∧
      (unschedule x s).heap.deadline t = s.heap.deadline t := by
    intro x hx
    obtain ⟨-, hdl, hmem⟩ := remove_spec h.heap x
    exact ⟨(hmem t).mpr ⟨ht, Ne.symm hx⟩, congrFun hdl t⟩
  cases o with
  | unschedule x => exact hunsched x hne
  | schedule x d =>
    have hx : x ≠ t := hne
    show t ∈ (schedule x d s).heap.v ∧ (schedule x d s).heap.deadline t = _
    unfold WorkerTimer.schedule
    by_cases hd : d = ⊤
    · rw [if_pos hd]
      exact hunsched x hx
    rw [if_neg hd, armIfEarlier_heap]
    obtain ⟨-, hdl, hmem⟩ := update_spec h.heap x d
    refine ⟨(hmem t).mpr (.inl ht), ?_⟩
    show (update x (setDeadline x d s.heap)).deadline t = _
    rw [hdl, Function.update_of_ne (Ne.symm hx)]

theorem runAll_other {s : WorkerTimer α Time} (h : Sound s) {ops : List (Op α Time)} {t : α}
    (hne : ∀ o ∈ ops, o.about ≠ t) (ht : t ∈ s.heap.v) :
    t ∈ (runAll s ops).heap.v ∧ (runAll s ops).heap.deadline t = s.heap.deadline t := by
  induction ops generalizing s with
  | nil => exact ⟨ht, rfl⟩
  | cons o ops ih =>
    obtain ⟨hmem, hdl⟩ := run_other h (hne o List.mem_cons_self) ht
    obtain ⟨hmem', hdl'⟩ := ih (h.run o) (fun o ho => hne o (.tail _ ho)) hmem
    exact ⟨hmem', hdl'.trans hdl⟩

/-- **A connection whose deadline has passed is run**, unless a scheduling before its turn concerned
it. -/
theorem WorkerTimer.Due.served {limit : Time} {s s' : WorkerTimer α Time} {due : List (α × List (Op α Time))}
    (hdue : Due limit s due s') (h : Sound s) {t : α} (ht : t ∈ s.heap.v)
    (hpast : s.heap.deadline t ≤ limit) : t ∈ due.map (·.1) ∨ ∃ x ∈ due, ∃ o ∈ x.2, Op.about o = t := by
  induction hdue with
  | @done s hend =>
    -- the loop does not end before it
    exfalso
    obtain ⟨first, rest, hcons⟩ := List.exists_cons_of_ne_nil (List.ne_nil_of_mem ht)
    have htop : s.heap.top = some first := by
      show s.heap.v.head? = some first
      rw [hcons]
      rfl
    have hle := h.heap.earliest_le ht
    rw [earliest_top htop] at hle
    exact absurd (lt_of_lt_of_le (hend first htop) hle) (not_lt_of_ge hpast)
  | @next s s' first ops due htop hle rest ih =>
    by_cases hft : first = t
    · exact .inl (by simp [hft])
    by_cases hops : ∀ o ∈ ops, o.about ≠ t
    · obtain ⟨hmem, hdl⟩ := run_other h (show (Op.unschedule first : Op α Time).about ≠ t from hft) ht
      obtain ⟨hmem', hdl'⟩ := runAll_other (h.unschedule first) hops hmem
      have hpast' : (WorkerTimer.runAll (WorkerTimer.unschedule first s) ops).heap.deadline t ≤ limit := by
        rw [hdl']
        exact hdl.le.trans hpast
      rcases ih ((h.unschedule first).runAll ops) hmem' hpast' with hin | ⟨x, hx, ho⟩
      · exact .inl (by simp [hin])
      · exact .inr ⟨x, .tail _ hx, ho⟩
    · push Not at hops
      obtain ⟨o, ho, habout⟩ := hops
      exact .inr ⟨_, .head _, o, ho, habout⟩

/-! ## §5. What was asked for. -/

/-- The heap holds the connections that wait for something, each with what it waits for. -/
def Asked (wanted : α → Option Time) (s : WorkerTimer α Time) : Prop :=
  ∀ t d, wanted t = some d ↔ t ∈ s.heap.v ∧ s.heap.deadline t = d

theorem Asked.unschedule {wanted : α → Option Time} {s : WorkerTimer α Time} (hs : Sound s)
    (h : Asked wanted s) (t : α) : Asked (Function.update wanted t none) (unschedule t s) := by
  obtain ⟨-, hdl, hmem⟩ := remove_spec hs.heap t
  intro x d
  show _ ↔ x ∈ (remove t s.heap).v ∧ (remove t s.heap).deadline x = d
  rw [hdl, hmem]
  by_cases hxt : x = t
  · rw [hxt, Function.update_self]
    exact ⟨fun hnone => absurd hnone.symm (Option.some_ne_none d), fun hin => absurd rfl hin.1.2⟩
  · rw [Function.update_of_ne hxt, h x d]
    exact ⟨fun hin => ⟨⟨hin.1, hxt⟩, hin.2⟩, fun hin => ⟨hin.1.1, hin.2⟩⟩

theorem Asked.schedule {wanted : α → Option Time} {s : WorkerTimer α Time} (hs : Sound s)
    (h : Asked wanted s) (t : α) (d : Time) : Asked (Op.note wanted (.schedule t d)) (schedule t d s) := by
  unfold WorkerTimer.schedule
  show Asked (Function.update wanted t (if d = ⊤ then none else some d)) _
  by_cases hd : d = ⊤
  · rw [if_pos hd, if_pos hd]
    exact h.unschedule hs t
  rw [if_neg hd, if_neg hd]
  obtain ⟨-, hdl, hmem⟩ := update_spec hs.heap t d
  intro x e
  rw [armIfEarlier_heap]
  show _ ↔ x ∈ (update t (setDeadline t d s.heap)).v ∧
    (update t (setDeadline t d s.heap)).deadline x = e
  rw [hdl, hmem]
  by_cases hxt : x = t
  · rw [hxt, Function.update_self, Function.update_self]
    exact ⟨fun hde => ⟨.inr rfl, Option.some.inj hde⟩, fun hin => congrArg some hin.2⟩
  · rw [Function.update_of_ne hxt, Function.update_of_ne hxt, h x e]
    exact ⟨fun hin => ⟨.inl hin.1, hin.2⟩, fun hin => ⟨hin.1.resolve_right hxt, hin.2⟩⟩

/-- **One operation**: the heap is what was asked for, before it and after it. -/
theorem Asked.run {wanted : α → Option Time} {s : WorkerTimer α Time} (hs : Sound s)
    (h : Asked wanted s) (o : Op α Time) : Asked (o.note wanted) (run s o) := by
  cases o with
  | schedule t d => exact h.schedule hs t d
  | unschedule t => exact h.unschedule hs t

theorem Asked.runAll {wanted : α → Option Time} {s : WorkerTimer α Time} (hs : Sound s)
    (h : Asked wanted s) (ops : List (Op α Time)) : Asked (ops.foldl Op.note wanted) (runAll s ops) := by
  induction ops generalizing s wanted with
  | nil => exact h
  | cons o ops ih => exact ih (hs.run o) (h.run hs o)

theorem Asked.due {limit : Time} {s s' : WorkerTimer α Time} {due : List (α × List (Op α Time))}
    (hdue : Due limit s due s') {wanted : α → Option Time} (hs : Sound s) (h : Asked wanted s) :
    Asked ((dueOps due).foldl Op.note wanted) s' := by
  induction hdue generalizing wanted with
  | done _ => exact h
  | @next s s' t ops due _ _ _ ih =>
    have hrest := ih ((hs.unschedule t).runAll ops) ((h.unschedule hs t).runAll (hs.unschedule t) ops)
    have hops : dueOps ((t, ops) :: due) = (.unschedule t :: ops) ++ dueOps due := rfl
    rw [hops, List.foldl_append]
    exact hrest

omit [DecidableEq α] in
theorem Asked.rearm {wanted : α → Option Time} {s : WorkerTimer α Time} (h : Asked wanted s) :
    Asked wanted (rearm s) := by
  unfold WorkerTimer.rearm
  split
  · exact h
  · unfold Asked
    rw [armIfEarlier_heap]
    exact h

theorem Asked.step {wanted : α → Option Time} {s s' : WorkerTimer α Time} {ops : List (Op α Time)}
    (hs : Sound s) (h : Asked wanted s) (hstep : Step ops s s') : Asked (ops.foldl Op.note wanted) s' := by
  cases hstep with
  | op o => exact h.run hs o
  | expire hpending => exact h
  | fire tail hqueued hdue =>
    rw [List.foldl_append]
    exact ((Asked.due hdue hs.handle h).runAll (hs.handle.due hdue) tail).rearm

/-! ## §6. Every run. -/

theorem step_inv {s s' : WorkerTimer α Time} {ops : List (Op α Time)} (hs : Sound s) (he : Early s)
    (hstep : Step ops s s') : Sound s' ∧ Early s' := by
  cases hstep with
  | op o => exact ⟨hs.run o, he.run hs o⟩
  | expire hpending => exact ⟨⟨hs.heap, hs.finite, fun _ => .inl (Nat.succ_pos _)⟩, he⟩
  | fire tail hqueued hdue =>
    have hafter := (hs.handle.due hdue).runAll tail
    exact ⟨hafter.rearm, early_rearm hafter⟩

theorem reachable_inv {deadline : α → Time} {s : WorkerTimer α Time} {log : List (Op α Time)}
    (h : Reachable deadline log s) : Sound s ∧ Early s ∧ Asked (asked log) s := by
  induction h with
  | start =>
    refine ⟨⟨⟨?_, ?_⟩, ?_, ?_⟩, ?_, ?_⟩
    · intro t i
      simp [initial]
    · intro i _
      exact le_refl _
    · intro t ht
      cases ht
    · exact fun hne => absurd rfl hne
    · intro t ht
      cases ht
    · intro t d
      exact ⟨fun hnone => absurd hnone.symm (Option.some_ne_none d),
        fun hin => absurd hin.1 List.not_mem_nil⟩
  | step _ hstep ih =>
    obtain ⟨hs, he, ha⟩ := ih
    obtain ⟨hs', he'⟩ := step_inv hs he hstep
    refine ⟨hs', he', ?_⟩
    rw [asked, List.foldl_append]
    exact ha.step hs hstep

/-- **The timer fires in time.**  In every run the heap holds exactly the connections that asked for
a deadline, each with the last it asked for; it is a heap, each connection in it once and at
its stored position, the top one with the earliest deadline; the timer is armed for no later than
any deadline in it, its handler queued or its wait out; and when the handler runs, every connection
whose deadline has passed is run, unless a scheduling before its turn concerned it. -/
theorem timer_fires_in_time {deadline : α → Time} {s : WorkerTimer α Time} {log : List (Op α Time)}
    (h : Reachable deadline log s) : (∀ t d, asked log t = some d ↔ t ∈ s.heap.v ∧ s.heap.deadline t = d) ∧
    Agensio.Lib.HeapOrder.Ordered s.heap.key ∧
    s.heap.v.Nodup ∧ (∀ t i, s.heap.index t = some i ↔ s.heap.v[i]? = some t) ∧
    (∀ t, s.heap.top = some t → ∀ x ∈ s.heap.v, s.heap.deadline t ≤ s.heap.deadline x) ∧
    (∀ t ∈ s.heap.v, s.armed ≠ ⊤ ∧ s.armed ≤ s.heap.deadline t ∧ (0 < s.queued ∨ s.pending = some s.armed)) ∧
    (∀ (limit : Time) (due : List (α × List (Op α Time))) (s' : WorkerTimer α Time),
      Due limit (handle s) due s' → ∀ t ∈ s.heap.v, s.heap.deadline t ≤ limit →
        t ∈ due.map (·.1) ∨ ∃ x ∈ due, ∃ o ∈ x.2, Op.about o = t) := by
  obtain ⟨hs, he, ha⟩ := reachable_inv h
  refine ⟨ha, hs.heap.ordered, hs.heap.indexed.nodup, hs.heap.indexed, ?_, ?_, ?_⟩
  · intro t htop x hx
    rw [← earliest_top htop]
    exact hs.heap.earliest_le hx
  · intro t ht
    obtain ⟨hne, hle⟩ := he t ht
    exact ⟨hne, hle, hs.out hne⟩
  · intro limit due s' hdue t ht hpast
    exact hdue.served hs.handle ht hpast

/-- Three connections, the first moved forward, the second taken back; the timer runs out, the first
is due and asks again: the third is on top now, and the timer is armed for it. -/
theorem timer_fires_in_time_three : ∃ (log : List (Op Nat (WithTop Nat))) (s : WorkerTimer Nat (WithTop Nat)),
      log = [.schedule 0 (5 : Nat), .schedule 1 (3 : Nat), .schedule 2 (9 : Nat), .schedule 0 (2 : Nat),
        .unschedule 1, .unschedule 0, .schedule 0 (12 : Nat)] ∧
      s.heap.v = [2, 0] ∧ s.armed ≤ ((9 : Nat) : WithTop Nat) ∧
      s.heap.deadline 0 = ((12 : Nat) : WithTop Nat) := by
  let ops : List (Op Nat (WithTop Nat)) :=
    [.schedule 0 (5 : Nat), .schedule 1 (3 : Nat), .schedule 2 (9 : Nat), .schedule 0 (2 : Nat),
      .unschedule 1]
  let armed := runAll (initial fun _ => ⊤) ops
  let out : WorkerTimer Nat (WithTop Nat) := { armed with pending := none, queued := armed.queued + 1 }
  let after := runAll (unschedule 0 (handle out)) [.schedule 0 (12 : Nat)]
  have hdue : Due ((4 : Nat) : WithTop Nat) (handle out) [(0, [.schedule 0 (12 : Nat)])] after := by
    refine .next (by decide) (by decide) (.done fun t ht => ?_)
    obtain rfl : 2 = t := Option.some.inj ((show after.heap.top = some 2 by decide).symm.trans ht)
    decide
  have hops : Reachable (fun _ => ⊤) ops armed :=
    .step (.step (.step (.step (.step .start (.op _)) (.op _)) (.op _)) (.op _)) (.op _)
  have hpending : armed.pending = some ((2 : Nat) : WithTop Nat) := by decide
  have hreach := (hops.step (.expire hpending)).step (.fire [] (by decide) hdue)
  have hall := timer_fires_in_time hreach
  have hthird := (hall.1 2 ((9 : Nat) : WithTop Nat)).mp (by decide)
  have hfirst := (hall.1 0 ((12 : Nat) : WithTop Nat)).mp (by decide)
  have harmed := (hall.2.2.2.2.2.1 2 hthird.1).2.1
  exact ⟨_, _, rfl, by decide, hthird.2 ▸ harmed, hfirst.2⟩

end Timers

end Agensio.Quic
