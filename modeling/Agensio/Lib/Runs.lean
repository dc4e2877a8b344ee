/-
  Agensio.Lib.Runs — runs of a partial step function.

  A system is a state type, a type of labels (what may happen next) and
  a step function that answers `none` where the label cannot occur.  A
  run is the fold of the step over a list of labels.  `Meets` says that
  every step of a run meets a condition ON ITS PRE-STATE: a safety
  result of the form "in every run whose steps all meet `ok`" is stated
  with it.

  Main results:
    * `meets_append_left` — the first part of a run;
    * `meets_of_forall` / `meets_and` — conditions on labels, and two
      conditions at once;
    * `run_invariant` — what every conditioned step keeps, every
      conditioned run keeps;
    * `run_rel` — the same for a preorder between the first state and
      the last.
-/
import Mathlib.Logic.Basic

namespace Agensio.Lib

universe u v

variable {S : Type u} {L : Type v}

/-! ## §1. Runs and conditioned runs. -/

/-- The state after the labels `ls`, when each of them can occur in turn. -/
def run (step : S → L → Option S) : S → List L → Option S
  | s, [] => some s
  | s, l :: ls =>
    match step s l with
    | none => none
    | some t => run step t ls

/-- Every step of the run meets `ok` in the state it starts from. -/
def Meets (step : S → L → Option S) (ok : S → L → Prop) : S → List L → Prop
  | _, [] => True
  | s, l :: ls =>
    ok s l ∧
      match step s l with
      | none => True
      | some t => Meets step ok t ls

instance Meets.decidable (step : S → L → Option S) (ok : S → L → Prop)
    [hd : ∀ s l, Decidable (ok s l)] : ∀ s ls, Decidable (Meets step ok s ls)
  | _, [] => inferInstanceAs (Decidable True)
  | s, l :: ls =>
    have : Decidable (match step s l with
        | none => True
        | some t => Meets step ok t ls) :=
      match step s l with
      | none => inferInstanceAs (Decidable True)
      | some t => Meets.decidable step ok t ls
    inferInstanceAs (Decidable (_ ∧ _))

variable {step : S → L → Option S} {ok : S → L → Prop}

@[simp] theorem run_nil (s : S) : run step s [] = some s := rfl

variable {s t : S} {l : L} {ls ls' : List L} {I : S → Prop}

theorem run_cons_of_step (h : step s l = some t) : run step s (l :: ls) = run step t ls := by
  simp [run, h]

theorem meets_cons_of_step (h : step s l = some t) :
    Meets step ok s (l :: ls) ↔ ok s l ∧ Meets step ok t ls := by
  simp [Meets, h]

/-- The first step of a run that goes through. -/
theorem step_of_run_cons (h : run step s (l :: ls) = some t) :
    ∃ m, step s l = some m ∧ run step m ls = some t := by
  cases hs : step s l with
  | none => simp [run, hs] at h
  | some m => exact ⟨m, rfl, by rwa [run_cons_of_step hs] at h⟩

/-- A run that meets the condition meets it in its first half. -/
theorem meets_append_left (h : Meets step ok s (ls ++ ls')) : Meets step ok s ls := by
  induction ls generalizing s with
  | nil => trivial
  | cons l ls ih =>
    refine ⟨h.1, ?_⟩
    have hrest := h.2
    cases hs : step s l with
    | none => trivial
    | some t =>
      rw [hs] at hrest
      exact ih hrest

/-- A run that meets the condition meets it in its second half. -/
theorem meets_of_append {m : S} (h : run step s ls = some m)
    (hok : Meets step ok s (ls ++ ls')) : Meets step ok m ls' := by
  induction ls generalizing s with
  | nil =>
    simp only [run_nil, Option.some.injEq] at h
    exact h ▸ hok
  | cons l ls ih =>
    obtain ⟨n, hn, hrest⟩ := step_of_run_cons h
    rw [List.cons_append, meets_cons_of_step hn] at hok
    exact ih hrest hok.2

/-- A condition on the labels alone. -/
theorem meets_of_forall {P : L → Prop} (h : ∀ l ∈ ls, P l) : Meets step (fun _ l => P l) s ls := by
  induction ls generalizing s with
  | nil => trivial
  | cons l ls ih =>
    have hrest : ∀ l' ∈ ls, P l' := fun l' hl' => h l' (.tail _ hl')
    refine ⟨h l List.mem_cons_self, ?_⟩
    cases step s l with
    | none => trivial
    | some t => exact ih hrest

theorem meets_and {ok' : S → L → Prop} (h : Meets step ok s ls)
    (h' : Meets step ok' s ls) : Meets step (fun s l => ok s l ∧ ok' s l) s ls := by
  induction ls generalizing s with
  | nil => trivial
  | cons l ls ih =>
    refine ⟨⟨h.1, h'.1⟩, ?_⟩
    have hr := h.2
    have hr' := h'.2
    cases hs : step s l with
    | none => trivial
    | some t =>
      rw [hs] at hr hr'
      exact ih hr hr'

/-! ## §2. The invariant rules. -/

/-- **Invariant rule.**  What each step that meets `ok` keeps, a run of such steps keeps. -/
theorem run_invariant (hstep : ∀ s l t, I s → ok s l → step s l = some t → I t)
    (h₀ : I s) (hrun : run step s ls = some t) (hok : Meets step ok s ls) : I t := by
  induction ls generalizing s with
  | nil =>
    simp only [run_nil, Option.some.injEq] at hrun
    exact hrun ▸ h₀
  | cons l ls ih =>
    obtain ⟨m, hm, hrest⟩ := step_of_run_cons hrun
    obtain ⟨hl, hls⟩ := (meets_cons_of_step hm).mp hok
    exact ih (hstep s l m h₀ hl hm) hrest hls

/-- What every step keeps, every run keeps. -/
theorem run_preserves (hstep : ∀ s l t, I s → step s l = some t → I t)
    (h₀ : I s) (hrun : run step s ls = some t) : I t := by
  induction ls generalizing s with
  | nil =>
    simp only [run_nil, Option.some.injEq] at hrun
    exact hrun ▸ h₀
  | cons l ls ih =>
    obtain ⟨m, hm, hrest⟩ := step_of_run_cons hrun
    exact ih (hstep s l m h₀ hm) hrest

/-- **Relation rule.**  A reflexive and transitive relation that holds across each step of a
    conditioned run (an invariant of the states given) holds across the run. -/
theorem run_rel {R : S → S → Prop} (hrefl : ∀ s, R s s) (htrans : ∀ s m t, R s m → R m t → R s t)
    (hinv : ∀ s l t, I s → ok s l → step s l = some t → I t)
    (hstep : ∀ s l t, I s → ok s l → step s l = some t → R s t)
    (h₀ : I s) (hrun : run step s ls = some t) (hok : Meets step ok s ls) : R s t := by
  induction ls generalizing s with
  | nil =>
    simp only [run_nil, Option.some.injEq] at hrun
    exact hrun ▸ hrefl s
  | cons l ls ih =>
    obtain ⟨m, hm, hrest⟩ := step_of_run_cons hrun
    obtain ⟨hl, hls⟩ := (meets_cons_of_step hm).mp hok
    exact htrans s m t (hstep s l m h₀ hl hm) (ih (hinv s l m h₀ hl hm) hrest hls)

end Agensio.Lib
