/-
  Agensio.Response.Resolved — the resolved rules decide as a scan would.

  The plain reading of the rules is a scan of all of them for the most
  specific one that applies and names the field (`scan`, as the fuzz target
  of the source has it): the longest path, an exact rule before a prefix, a
  written one before the baseline, one with a matching ending before one
  without.  The resolution gives the same, whatever order the rules are
  written in.

  Main results:
    * `decisionAt_eq_scan` — the refinement.
-/
import Mathlib.Data.List.Dedup
import Mathlib.Data.List.Pairwise
import Agensio.Http1.Rendering
import Agensio.Response.Rules

namespace Agensio.Response

open Agensio.Http (slash dot)
open Agensio.Http1 (iequals lower)

/-! ## §1. One field of a resolved set. -/

section Fold

theorem iequals_iff {a b : Bytes} : iequals a b = true ↔ a.map lower = b.map lower := by
  simp [iequals]

theorem named_congr {f : FieldDecision} {a b : Bytes} (h : iequals a b = true) : f.named a = f.named b := by
  unfold FieldDecision.named iequals
  rw [iequals_iff.mp h]

/-- The decisions for one field replaced. -/
theorem find_replaced {fs : List FieldDecision} {d : FieldDecision} {n : Bytes} (hd : d.named n = true)
    (hany : fs.any (·.named n) = true) :
    (fs.map fun f => if f.named d.name then d else f).find? (·.named n) = some d := by
  induction fs with
  | nil => cases hany
  | cons f fs ih =>
    rw [List.map_cons, List.find?_cons, named_congr hd]
    cases hf : f.named n with
    | true => simp [hd]
    | false =>
      rw [List.any_cons, hf, Bool.false_or] at hany
      simp only [Bool.false_eq_true, if_false, hf]
      exact ih hany

/-- …and the decisions for another one. -/
theorem find_replaced_other {fs : List FieldDecision} {d : FieldDecision} {n : Bytes}
    (hd : d.named n = false) :
    (fs.map fun f => if f.named d.name then d else f).find? (·.named n) = fs.find? (·.named n) := by
  induction fs with
  | nil => rfl
  | cons f fs ih =>
    rw [List.map_cons, List.find?_cons, List.find?_cons, ih]
    cases hf : f.named d.name with
    | false => simp only [Bool.false_eq_true, if_false]
    | true =>
      have hfn : f.named n = false := by
        rw [← Bool.not_eq_true]
        intro hfn
        have : d.named n = true := iequals_iff.mpr ((iequals_iff.mp hf).symm.trans (iequals_iff.mp hfn))
        rw [hd] at this
        cases this
      simp only [if_true, hd, hfn]

/-- A decision for another field changes nothing; one for this field stands unless it is the
    baseline's and the field is decided. -/
theorem findField_decideField (baseline : Bool) (fs : List FieldDecision) (d : FieldDecision) (n : Bytes) :
    findField (decideField baseline fs d) n = if d.named n then
        if baseline && (findField fs n).isSome then findField fs n else some d
      else findField fs n := by
  have happend : findField (fs ++ [d]) n = (findField fs n).or (if d.named n then some d else none) := by
    rw [findField, List.find?_append, List.find?_singleton]
    rfl
  unfold decideField
  cases hd : d.named n with
  | true =>
    have hn : (fs.any fun f => f.named d.name) = (findField fs n).isSome := by
      rw [findField, List.isSome_find?]
      simp only [named_congr hd]
    rw [hn, if_pos rfl]
    cases hfind : findField fs n with
    | none =>
      simp only [Option.isSome_none, Bool.false_eq_true, if_false, Bool.and_false]
      rw [happend, hfind, hd]
      rfl
    | some x =>
      have hany : fs.any (·.named n) = true := by
        rw [← List.isSome_find?, show fs.find? (·.named n) = some x from hfind]
        rfl
      cases baseline with
      | true => simpa using hfind
      | false => exact find_replaced hd hany
  | false =>
    split
    · split
      · rfl
      · exact find_replaced_other hd
    · rw [happend, hd]
      simp

/-- The decision a rule makes for a name. -/
def HeaderRule.decisionFor (r : HeaderRule) (n : Bytes) : Option FieldDecision := findField r.decisions n

/-- One rule, in the order the rules decide. -/
def pick (n : Bytes) (w : Option FieldDecision) (r : HeaderRule) : Option FieldDecision :=
  match r.decisionFor n with
  | none => w
  | some d => if r.baseline && w.isSome then w else some d

theorem names_decisions (r : HeaderRule) : r.decisions.map (·.name) = r.names := by
  simp [HeaderRule.decisions, HeaderRule.names, Function.comp_def]

/-- Decisions with names apart: at most one of them counts. -/
theorem findField_foldl {baseline : Bool} {ds : List FieldDecision} (h : namesApart (ds.map (·.name)) = true)
    (fs : List FieldDecision) (n : Bytes) : findField (ds.foldl (decideField baseline) fs) n =
      match findField ds n with
      | none => findField fs n
      | some d => if baseline && (findField fs n).isSome then findField fs n else some d := by
  induction ds generalizing fs with
  | nil => rfl
  | cons d ds ih =>
    rw [List.map_cons, namesApart, Bool.and_eq_true] at h
    rw [List.foldl_cons, ih h.2, findField_decideField]
    show _ = match (d :: ds).find? (·.named n) with
      | none => findField fs n
      | some d => if baseline && (findField fs n).isSome then findField fs n else some d
    rw [List.find?_cons]
    cases hd : d.named n with
    | false => rfl
    | true =>
      -- no later name of the rule is this one
      have hnone : findField ds n = none := by
        rw [findField, List.find?_eq_none]
        intro x hx
        have hx' := List.all_eq_true.mp h.1 x.name (List.mem_map_of_mem hx)
        rw [Bool.not_eq_true'] at hx'
        intro hxn
        have heq : iequals d.name x.name = true :=
          iequals_iff.mpr ((iequals_iff.mp hd).trans (iequals_iff.mp hxn).symm)
        rw [hx'] at heq
        cases heq
      rw [hnone]
      rfl

/-- **A resolved set over one name**: the fold of its rules. -/
theorem findField_fill {rules : List HeaderRule} (h : ∀ r ∈ rules, namesApart r.names = true)
    (chain : List Place) (success : Bool) (ending : Option Bytes) (n : Bytes) :
    findField (fill rules chain success ending) n =
      (fillOrder rules chain success ending).foldl (pick n) none := by
  have hmem : ∀ r ∈ fillOrder rules chain success ending, r ∈ rules := by
    intro r hr
    simp only [fillOrder, List.mem_flatMap] at hr
    obtain ⟨_, _, _, _, _, _, hr⟩ := hr
    exact (List.mem_filter.mp hr).1
  have hfold : ∀ (L : List HeaderRule) (fs : List FieldDecision), (∀ r ∈ L, r ∈ rules) →
      findField (L.foldl (fun fs r => r.decisions.foldl (decideField r.baseline) fs) fs) n =
        L.foldl (pick n) (findField fs n) := by
    intro L
    induction L with
    | nil => intro fs _; rfl
    | cons r L ih =>
      intro fs hL
      have hr : namesApart (r.decisions.map (·.name)) = true := by
        rw [names_decisions]
        exact h r (hL r (.head _))
      rw [List.foldl_cons, List.foldl_cons, ih _ fun x hx => hL x (.tail _ hx),
        findField_foldl hr]
      rfl
  exact hfold _ [] hmem

end Fold

/-! ## §2. Who wins a fold. -/

section Winner

variable {n : Bytes}

/-- Specificity: length of the path, exact, written, with endings. -/
def HeaderRule.rank (r : HeaderRule) : Nat :=
  8 * r.path.length + 4 * r.isExact.toNat + 2 * (!r.baseline).toNat + (decide (r.endings ≠ [])).toNat

/-- `r` of `L` decides: it is the highest of the written rules, or one of the baseline's where no
    written rule names the field. -/
structure Wins (n : Bytes) (L : List HeaderRule) (r : HeaderRule) (d : FieldDecision) : Prop where
  mem : r ∈ L
  names : r.decisionFor n = some d
  written : ∀ x ∈ L, x.baseline = false → (x.decisionFor n).isSome = true →
    r.baseline = false ∧ x.rank ≤ r.rank

/-- The last written rule of an ordered list wins, or the first of the baseline's. -/
theorem foldl_pick {L : List HeaderRule} (hsorted : L.Pairwise fun a b =>
    a.baseline = false → b.baseline = false → a.rank ≤ b.rank) :
    match L.foldl (pick n) none with
    | none => ∀ r ∈ L, r.decisionFor n = none
    | some d => ∃ r, Wins n L r d := by
  induction L using List.reverseRecOn with
  | nil => intro r hr; cases hr
  | append_singleton L r ih =>
    obtain ⟨hL, -, hlast⟩ := List.pairwise_append.mp hsorted
    have ih := ih hL
    rw [List.foldl_append, List.foldl_cons, List.foldl_nil, pick]
    cases hr : r.decisionFor n with
    | none =>
      cases hw : L.foldl (pick n) none with
      | none =>
        rw [hw] at ih
        intro x hx
        rcases List.mem_append.mp hx with hx | hx
        · exact ih x hx
        · rw [List.mem_singleton.mp hx]; exact hr
      | some d =>
        rw [hw] at ih
        obtain ⟨x, hx⟩ := ih
        refine ⟨x, List.mem_append_left _ hx.mem, hx.names, ?_⟩
        intro y hy hyb hyn
        rcases List.mem_append.mp hy with hy | hy
        · exact hx.written y hy hyb hyn
        rw [List.mem_singleton.mp hy, hr] at hyn
        cases hyn
    | some d =>
      cases hb : r.baseline with
      | false =>
        -- a written rule: it comes last, so it is the highest
        simp only [Bool.false_and, Bool.false_eq_true, if_false]
        refine ⟨r, List.mem_append_right _ (List.mem_singleton.mpr rfl), hr, ?_⟩
        intro y hy hyb _
        rcases List.mem_append.mp hy with hy | hy
        · exact ⟨hb, hlast y hy r (List.mem_singleton.mpr rfl) hyb hb⟩
        · rw [List.mem_singleton.mp hy]; exact ⟨hb, le_rfl⟩
      | true =>
        cases hw : L.foldl (pick n) none with
        | none =>
          rw [hw] at ih
          simp only [Option.isSome_none, Bool.and_false, Bool.false_eq_true, if_false]
          refine ⟨r, List.mem_append_right _ (List.mem_singleton.mpr rfl), hr, ?_⟩
          intro y hy hyb hyn
          rcases List.mem_append.mp hy with hy | hy
          · rw [ih y hy] at hyn
            cases hyn
          rw [List.mem_singleton.mp hy, hb] at hyb
          cases hyb
        | some d' =>
          rw [hw] at ih
          simp only [Option.isSome_some, Bool.and_true, if_true]
          obtain ⟨x, hx⟩ := ih
          refine ⟨x, List.mem_append_left _ hx.mem, hx.names, ?_⟩
          intro y hy hyb hyn
          rcases List.mem_append.mp hy with hy | hy
          · exact hx.written y hy hyb hyn
          rw [List.mem_singleton.mp hy, hb] at hyb
          cases hyb

end Winner

/-! ## §3. Places along a path. -/

section Places

variable {a k : Place} {p q : Bytes}

theorem iequalPrefix_iff : iequalPrefix p q = true ↔ q.map lower <+: p.map lower := by
  unfold iequalPrefix
  rw [Bool.and_eq_true, decide_eq_true_eq, decide_eq_true_eq, List.map_take, List.prefix_iff_eq_take,
    List.length_map]
  constructor
  · rintro ⟨-, h⟩
    exact h.symm
  · intro h
    refine ⟨?_, h.symm⟩
    have := congrArg List.length h
    rw [List.length_map, List.length_take, List.length_map] at this
    omega

theorem lower_eq_mark : ∀ c : UInt8, (lower c = slash ↔ c = slash) ∧ (lower c = dot ↔ c = dot) :=
  Http1.forall_byte (by decide +kernel)

theorem getElem_slash_iff {i : Nat} : p[i]? = some slash ↔ (p.map lower)[i]? = some slash := by
  rw [List.getElem?_map]
  cases p[i]? with
  | none => simp
  | some c => simp [(lower_eq_mark _).1]

theorem covers_exact_iff (hk : k.isExact = true) : k.covers p = true ↔ p.map lower = k.path.map lower := by
  unfold Place.covers
  rw [if_pos hk, Bool.and_eq_true, decide_eq_true_eq, iequalPrefix_iff]
  constructor
  · rintro ⟨hlen, hpre⟩
    exact (hpre.eq_of_length (by simp [hlen])).symm
  · intro h
    refine ⟨?_, h ▸ List.prefix_rfl⟩
    simpa using congrArg List.length h

theorem covers_prefix_iff (hk : k.isExact = false) (hlen : k.path.length ≠ 1) :
    k.covers p = true ↔ k.path.map lower <+: p.map lower ∧
      (p.length = k.path.length ∨ (p.map lower)[k.path.length]? = some slash) := by
  unfold Place.covers
  rw [if_neg (by simp [hk]), if_neg hlen, Bool.and_eq_true, iequalPrefix_iff, Bool.or_eq_true,
    decide_eq_true_eq, decide_eq_true_eq, getElem_slash_iff]

theorem covers_root (hk : k.isExact = false) (hlen : k.path.length = 1) : k.covers p = true := by
  unfold Place.covers
  rw [if_neg (by simp [hk]), if_pos hlen]

/-- A place covers only paths as long as its own, the root apart. -/
theorem prefix_of_covers (hlen : k.path.length ≠ 1 ∨ k.isExact = true) (h : k.covers p = true) :
    k.path.map lower <+: p.map lower := by
  cases hk : k.isExact with
  | true => exact (covers_exact_iff hk).mp h ▸ List.prefix_rfl
  | false => exact ((covers_prefix_iff hk (hlen.resolve_right (by simp [hk]))).mp h).1

/-- A byte of a folded path before its end is the path's. -/
theorem getElem_of_front {A P : Bytes} {i : Nat} (h : A <+: P) (hi : i < A.length) : A[i]? = P[i]? := by
  obtain ⟨t, rfl⟩ := h
  rw [List.getElem?_append_left hi]

/-- Of two places that cover a path, the shorter prefix covers the other. -/
theorem covers_of_longer (ha : a.isExact = false) (hp : a.covers p = true) (hk : k.covers p = true)
    (hlen : a.path.length ≤ k.path.length) (hpos : 0 < a.path.length) : a.covers k.path = true := by
  by_cases h1 : a.path.length = 1
  · exact covers_root ha h1
  have hk1 : k.path.length ≠ 1 ∨ k.isExact = true := .inl (by omega)
  have hK := prefix_of_covers hk1 hk
  obtain ⟨hA, hend⟩ := (covers_prefix_iff ha h1).mp hp
  have hAK : a.path.map lower <+: k.path.map lower :=
    List.prefix_of_prefix_length_le hA hK (by simpa using hlen)
  rw [covers_prefix_iff ha h1]
  refine ⟨hAK, ?_⟩
  have hKP : k.path.length ≤ p.length := by simpa using hK.length_le
  rcases hend with hend | hend
  · exact .inl (by omega)
  by_cases heq : k.path.length = a.path.length
  · exact .inl heq
  · exact .inr ((getElem_of_front hK (by simp; omega)).trans hend)

/-- A prefix that covers a covering place covers the path. -/
theorem covers_trans (ha : a.isExact = false) (hak : a.covers k.path = true) (hk : k.covers p = true)
    (hpos : 0 < a.path.length) : a.covers p = true := by
  by_cases h1 : a.path.length = 1
  · exact covers_root ha h1
  obtain ⟨hA, hend⟩ := (covers_prefix_iff ha h1).mp hak
  have hlen : a.path.length ≤ k.path.length := by simpa using hA.length_le
  rw [covers_prefix_iff ha h1]
  cases hke : k.isExact with
  | true =>
    have hP := (covers_exact_iff hke).mp hk
    have hpl : p.length = k.path.length := by simpa using congrArg List.length hP
    rw [hP, hpl]
    exact ⟨hA, hend.imp id id⟩
  | false =>
    by_cases hk1 : k.path.length = 1
    · -- `k` is the root: a longer prefix does not cover it
      omega
    obtain ⟨hK, hkend⟩ := (covers_prefix_iff hke hk1).mp hk
    refine ⟨hA.trans hK, ?_⟩
    rcases hend with hend | hend
    · rw [← hend]
      exact hkend
    by_cases hlt : a.path.length < k.path.length
    · exact .inr ((getElem_of_front hK (by simpa using hlt)).symm.trans hend)
    rw [List.getElem?_eq_none (by simp; omega)] at hend
    cases hend

/-- Covering is of the place, not of its spelling. -/
theorem covers_congr (h : a.same k = true) (p : Bytes) : a.covers p = k.covers p := by
  unfold Place.same at h
  rw [Bool.and_eq_true, decide_eq_true_eq, iequals_iff] at h
  obtain ⟨he, hpath⟩ := h
  have hlen : a.path.length = k.path.length := by simpa using congrArg List.length hpath
  rw [Bool.eq_iff_iff]
  cases hk : k.isExact with
  | true => rw [covers_exact_iff hk, covers_exact_iff (he.trans hk), hpath]
  | false =>
    by_cases h1 : k.path.length = 1
    · rw [covers_root hk h1, covers_root (he.trans hk) (hlen.trans h1)]
    · rw [covers_prefix_iff hk h1, covers_prefix_iff (he.trans hk) (by omega), hpath, hlen]

theorem same_refl (a : Place) : a.same a = true := by
  simp [Place.same, iequals]

theorem same_symm (h : a.same k = true) : k.same a = true := by
  simp only [Place.same, Bool.and_eq_true, decide_eq_true_eq, iequals_iff] at h ⊢
  exact ⟨h.1.symm, h.2.symm⟩

theorem same_trans {b : Place} (h₁ : a.same b = true) (h₂ : b.same k = true) : a.same k = true := by
  simp only [Place.same, Bool.and_eq_true, decide_eq_true_eq, iequals_iff] at h₁ h₂ ⊢
  exact ⟨h₁.1.trans h₂.1, h₁.2.trans h₂.2⟩

/-- Two places of one kind and length that cover a path are the same. -/
theorem same_of_covers (ha : a.path.head? = some slash) (hk : k.path.head? = some slash)
    (hap : a.covers p = true) (hkp : k.covers p = true) (he : a.isExact = k.isExact)
    (hlen : a.path.length = k.path.length) : a.same k = true := by
  simp only [Place.same, Bool.and_eq_true, decide_eq_true_eq, iequals_iff]
  refine ⟨he, ?_⟩
  by_cases h1 : k.path.length = 1
  · -- both are the slash alone
    obtain ⟨x, hx⟩ := List.length_eq_one_iff.mp h1
    obtain ⟨y, hy⟩ := List.length_eq_one_iff.mp (hlen.trans h1)
    rw [hx] at hk
    rw [hy] at ha
    rw [hx, hy, Option.some.inj ha, Option.some.inj hk]
  · have hA := prefix_of_covers (.inl (by omega)) hap
    have hK := prefix_of_covers (.inl h1) hkp
    exact (List.prefix_of_prefix_length_le hA hK (by simp [hlen])).eq_of_length (by simp [hlen])

end Places

/-! ## §4. The chain of a place. -/

section Chain

variable {rules : List HeaderRule} {k : Place}

/-- The places of a list of rules: one for each, no two the same. -/
theorem placesOf_spec (rs : List HeaderRule) : ∀ keys : List Place,
    keys.Pairwise (fun a b => a.same b = false) → (placesOf rs keys).Pairwise (fun a b => a.same b = false) ∧
      (∀ c ∈ keys, c ∈ placesOf rs keys) ∧ (∀ c ∈ placesOf rs keys, c ∈ keys ∨ ∃ r ∈ rs, c = r.place) ∧
      ∀ r ∈ rs, ∃ c ∈ placesOf rs keys, r.place.same c = true := by
  induction rs with
  | nil =>
    intro keys h
    exact ⟨h, fun _ hc => hc, fun _ hc => .inl hc, fun _ hr => absurd hr List.not_mem_nil⟩
  | cons r rs ih =>
    intro keys hkeys
    unfold placesOf
    cases hany : keys.any (·.same r.place) with
    | true =>
      obtain ⟨hpair, hkeep, hfrom, hall⟩ := ih keys hkeys
      obtain ⟨c, hc, hsame⟩ := List.any_eq_true.mp hany
      refine ⟨hpair, hkeep, fun x hx => (hfrom x hx).imp_right ?_, ?_⟩
      · rintro ⟨y, hy, rfl⟩
        exact ⟨y, .tail _ hy, rfl⟩
      · intro x hx
        rcases List.mem_cons.mp hx with rfl | hx
        · exact ⟨c, hkeep c hc, same_symm hsame⟩
        · exact hall x hx
    | false =>
      have hnew : (keys ++ [r.place]).Pairwise (fun a b => a.same b = false) := by
        rw [List.pairwise_append]
        refine ⟨hkeys, List.pairwise_singleton _ _, ?_⟩
        intro a ha b hb
        rw [List.mem_singleton.mp hb]
        simpa using List.any_eq_false.mp hany a ha
      obtain ⟨hpair, hkeep, hfrom, hall⟩ := ih _ hnew
      refine ⟨hpair, fun x hx => hkeep x (List.mem_append_left _ hx), ?_, ?_⟩
      · intro x hx
        rcases hfrom x hx with hx | ⟨y, hy, rfl⟩
        · rcases List.mem_append.mp hx with hx | hx
          · exact .inl hx
          · exact .inr ⟨r, .head _, List.mem_singleton.mp hx⟩
        · exact .inr ⟨y, .tail _ hy, rfl⟩
      · intro x hx
        rcases List.mem_cons.mp hx with rfl | hx
        · exact ⟨x.place, hkeep _ (List.mem_append_right _ (List.mem_singleton.mpr rfl)), same_refl _⟩
        · exact hall x hx

variable {c : Place} {pass : Option Bytes} {r : HeaderRule}

theorem mem_chainOf {keys : List Place} : c ∈ chainOf keys k ↔ c = k ∨
    (c ∈ keys ∧ c.isExact = false ∧ (k.isExact = true ∨ iequals c.path k.path = false) ∧
      c.covers k.path = true) := by
  unfold chainOf
  rw [List.mem_append, List.mem_insertionSort, List.mem_filter, List.mem_singleton, or_comm]
  simp only [Bool.and_eq_true, Bool.not_eq_true', Bool.and_eq_false_iff, Bool.not_eq_false', and_assoc]

/-- How specific a place is. -/
def Place.height (c : Place) : Nat := 2 * c.path.length + c.isExact.toNat

/-- The chain of a place rises. -/
theorem chainOf_rises {keys : List Place} (hkeys : keys.Pairwise (fun a b => a.same b = false))
    (hroot : ∀ c ∈ keys, c.path.head? = some slash) (hk : k.path.head? = some slash) :
    (chainOf keys k).Pairwise (fun a b => a.height < b.height) := by
  unfold chainOf
  set below := keys.filter fun a =>
    !a.isExact && !(!k.isExact && iequals a.path k.path) && a.covers k.path with hbelow
  have hmem : ∀ c ∈ below, c ∈ keys ∧ c.isExact = false ∧ (k.isExact = true ∨ iequals c.path k.path = false) ∧
      c.covers k.path = true := by
    intro c hc
    rw [hbelow, List.mem_filter] at hc
    simp only [Bool.and_eq_true, Bool.not_eq_true', Bool.and_eq_false_iff, Bool.not_eq_false'] at hc
    exact ⟨hc.1, hc.2.1.1, hc.2.1.2, hc.2.2⟩
  have hsorted := List.pairwise_insertionSort (fun a b : Place => a.path.length ≤ b.path.length) below
  have hapart : (below.insertionSort fun a b => a.path.length ≤ b.path.length).Pairwise
      (fun a b => a.same b = false) := by
    refine (List.Perm.pairwise_iff ?_ (List.perm_insertionSort _ below)).mpr (hkeys.filter _)
    intro a b h
    rw [← Bool.not_eq_true] at h ⊢
    exact fun h' => h (same_symm h')
  rw [List.pairwise_append]
  refine ⟨?_, List.pairwise_singleton _ _, ?_⟩
  · -- two prefixes of one length that cover `k` are the same place
    refine (hsorted.and hapart).imp_of_mem ?_
    rintro a b ha hb ⟨hle, hne⟩
    obtain ⟨hak, hae, -, hac⟩ := hmem a ((List.mem_insertionSort _).mp ha)
    obtain ⟨hbk, hbe, -, hbc⟩ := hmem b ((List.mem_insertionSort _).mp hb)
    have hlt : a.path.length ≠ b.path.length := by
      intro heq
      rw [same_of_covers (hroot a hak) (hroot b hbk) hac hbc (hae.trans hbe.symm) heq] at hne
      cases hne
    unfold Place.height
    rw [hae, hbe]
    simp only [Bool.toNat_false]
    omega
  · intro c hc x hx
    rw [List.mem_singleton.mp hx]
    obtain ⟨hck, hce, hdiff, hcc⟩ := hmem c ((List.mem_insertionSort _).mp hc)
    have hpos : 0 < k.path.length := List.length_pos_of_mem (List.mem_of_mem_head? hk)
    have hle : c.path.length ≤ k.path.length := by
      by_cases h1 : c.path.length = 1
      · omega
      · simpa using (prefix_of_covers (.inl h1) hcc).length_le
    unfold Place.height
    rw [hce]
    cases hke : k.isExact with
    | true => simp only [Bool.toNat_false, Bool.toNat_true]; omega
    | false =>
      have hkk : k.covers k.path = true := by
        by_cases h1 : k.path.length = 1
        · exact covers_root hke h1
        · exact (covers_prefix_iff hke h1).mpr ⟨List.prefix_rfl, .inl rfl⟩
      have hne : c.path.length ≠ k.path.length := by
        intro heq
        have hsame := same_of_covers (hroot c hck) hk hcc hkk (hce.trans hke.symm) heq
        rw [Place.same, Bool.and_eq_true] at hsame
        rw [hke, hsame.2] at hdiff
        simp at hdiff
      simp only [Bool.toNat_false]
      omega

theorem mem_rulesAt {success written : Bool} :
    r ∈ rulesAt rules success c written pass ↔ r ∈ rules ∧ r.baseline = !written ∧
      r.place.same c = true ∧ (success = true ∨ r.successOnly = false) ∧ r.inPass pass = true := by
  unfold rulesAt
  rw [List.mem_filter]
  simp only [Bool.and_eq_true, decide_eq_true_eq, Bool.or_eq_true, Bool.not_eq_true', and_assoc]

theorem mem_fillOrder {chain : List Place} {success : Bool} {ending : Option Bytes} :
    r ∈ fillOrder rules chain success ending ↔ r ∈ rules ∧ (∃ c ∈ chain, r.place.same c = true) ∧
      (success = true ∨ r.successOnly = false) ∧
      (r.endings = [] ∨ ∃ e, ending = some e ∧ r.inPass (some e) = true) := by
  simp only [fillOrder, List.mem_flatMap, mem_rulesAt]
  constructor
  · rintro ⟨c, hc, w, -, pass, hpass, hr, -, hsame, hs, hin⟩
    refine ⟨hr, ⟨c, hc, hsame⟩, hs, ?_⟩
    rcases List.mem_cons.mp hpass with rfl | hpass
    · exact .inl (by simpa [HeaderRule.inPass] using hin)
    obtain ⟨e, he, rfl⟩ := List.mem_map.mp hpass
    exact .inr ⟨e, Option.mem_toList.mp he, hin⟩
  · rintro ⟨hr, ⟨c, hc, hsame⟩, hs, hin⟩
    refine ⟨c, hc, !r.baseline, by cases r.baseline <;> simp, ?_⟩
    rcases hin with hin | ⟨e, rfl, hin⟩
    · exact ⟨none, .head _, hr, by simp, hsame, hs, by simpa [HeaderRule.inPass] using hin⟩
    · exact ⟨some e, by simp, hr, by simp, hsame, hs, hin⟩

theorem rank_eq (r : HeaderRule) : r.rank =
    4 * r.place.height + 2 * (!r.baseline).toNat + (decide (r.endings ≠ [])).toNat := by
  unfold HeaderRule.rank Place.height HeaderRule.place
  dsimp only
  omega

theorem height_congr {a : Place} (h : a.same c = true) : a.height = c.height := by
  simp only [Place.same, Bool.and_eq_true, decide_eq_true_eq, iequals_iff] at h
  have hlen : a.path.length = c.path.length := by simpa using congrArg List.length h.2
  unfold Place.height
  rw [h.1, hlen]

/-- The second pass is for rules with endings. -/
theorem endings_of_inPass (h : r.inPass pass = true) : decide (r.endings ≠ []) = pass.isSome := by
  cases pass with
  | none => simpa [HeaderRule.inPass] using h
  | some e =>
    simp only [Option.isSome_some, decide_eq_true_eq]
    intro hnil
    rw [HeaderRule.inPass, hnil] at h
    cases h

/-- The rank of a rule of one place and pass. -/
theorem rank_of_rulesAt {success written : Bool}
    (h : r ∈ rulesAt rules success c written pass) (hb : r.baseline = false) :
    r.rank = 4 * c.height + 2 + pass.isSome.toNat := by
  obtain ⟨-, -, hsame, -, hin⟩ := mem_rulesAt.mp h
  rw [rank_eq, height_congr hsame, hb, endings_of_inPass hin]
  rfl

/-- **The written rules decide in rising order.** -/
theorem fillOrder_rises (rules : List HeaderRule) {chain : List Place} (h : chain.Pairwise (fun a b => a.height < b.height))
    (success : Bool) (ending : Option Bytes) : (fillOrder rules chain success ending).Pairwise fun a b =>
      a.baseline = false → b.baseline = false → a.rank ≤ b.rank := by
  unfold fillOrder
  rw [List.pairwise_flatMap]
  constructor
  · intro c hc
    rw [List.pairwise_flatMap]
    constructor
    · intro w hw
      rw [List.pairwise_flatMap]
      constructor
      · -- one pass: the rules are of one rank
        intro pass hpass
        rw [List.pairwise_iff_forall_sublist]
        intro a b hab ha hb
        rw [rank_of_rulesAt (hab.subset (.head _)) ha,
          rank_of_rulesAt (hab.subset (.tail _ (.head _))) hb]
      · -- the pass without endings comes first
        constructor
        · intro pass hpass a ha b hb hab hbb
          rw [rank_of_rulesAt ha hab, rank_of_rulesAt hb hbb]
          simp only [Option.isSome_none, Bool.toNat_false]
          omega
        · cases ending with
          | none => exact List.Pairwise.nil
          | some e => exact List.pairwise_singleton _ _
    · -- the baseline comes after the written rules
      rw [List.pairwise_cons]
      refine ⟨?_, List.pairwise_singleton _ _⟩
      intro w hw a _ b hb _ hbb
      rw [List.mem_singleton.mp hw] at hb
      obtain ⟨pass, -, hb⟩ := List.mem_flatMap.mp hb
      rw [(mem_rulesAt.mp hb).2.1] at hbb
      cases hbb
  · -- places further along are higher
    refine h.imp ?_
    intro c c' hlt a ha b hb hab hbb
    simp only [List.mem_flatMap] at ha hb
    obtain ⟨_, _, pass, _, ha⟩ := ha
    obtain ⟨_, _, pass', _, hb⟩ := hb
    rw [rank_of_rulesAt ha hab, rank_of_rulesAt hb hbb]
    have := pass.isSome.toNat_le
    omega

end Chain

/-! ## §5. The node of a path. -/

section Lookup

variable {rules : List HeaderRule} {path : Bytes}

theorem nodeBefore_iff {a b : HeaderNode} : nodeBefore a b = true ↔ b.place.height ≤ a.place.height := by
  unfold nodeBefore Place.height
  rw [Bool.or_eq_true, decide_eq_true_eq, Bool.and_eq_true, decide_eq_true_eq, Bool.or_eq_true,
    Bool.not_eq_true']
  cases a.place.isExact <;> cases b.place.isExact <;> simp <;> omega

instance : Std.Total fun a b : HeaderNode => nodeBefore a b = true :=
  ⟨fun a b => by rw [nodeBefore_iff, nodeBefore_iff]; omega⟩

instance : IsTrans HeaderNode fun a b => nodeBefore a b = true :=
  ⟨fun a b c => by rw [nodeBefore_iff, nodeBefore_iff, nodeBefore_iff]; omega⟩

/-- The places the rules are resolved at. -/
def keysOf (rules : List HeaderRule) : List Place := placesOf rules []

theorem mem_buildNodes {n : HeaderNode} :
    n ∈ buildNodes rules ↔ ∃ k ∈ keysOf rules, n = nodeOf rules (keysOf rules) k := by
  unfold buildNodes keysOf
  rw [List.mem_insertionSort, List.mem_map]
  simp only [eq_comm]

theorem place_nodeOf (keys : List Place) (k : Place) : (nodeOf rules keys k).place = k := rfl

/-- The first byte of a covering place is the path's, the root's apart. -/
theorem firstByte_of_covers {k : Place} (hk : k.path.head? = some slash)
    (hroot : ¬ (k.path.length = 1 ∧ k.isExact = false)) (h : k.covers path = true) :
    firstByte k.path = firstByte path := by
  have hnot : k.path.length ≠ 1 ∨ k.isExact = true := by
    by_cases h1 : k.path.length = 1
    · exact .inr (by simpa using fun hf => hroot ⟨h1, hf⟩)
    · exact .inl h1
  have hpre := prefix_of_covers hnot h
  have hfold : ∀ q : Bytes, firstByte q = (q.map lower).tail.head?.getD 0 := by
    intro q
    match q with
    | [] => rfl
    | [_] => rfl
    | _ :: _ :: _ => rfl
  rw [hfold, hfold]
  cases hke : k.isExact with
  | true => rw [(covers_exact_iff hke).mp h]
  | false =>
    -- at least two bytes are shared
    obtain ⟨t, ht⟩ := hpre
    rw [← ht]
    match hkp : k.path with
    | [] => rw [hkp] at hk; cases hk
    | [_] => exact absurd ⟨by rw [hkp]; rfl, hke⟩ hroot
    | _ :: _ :: _ => rfl

theorem rooted_of_keysOf (hrooted : ∀ r ∈ rules, r.path.head? = some slash) :
    ∀ k ∈ keysOf rules, k.path.head? = some slash := by
  intro k hk
  rcases (placesOf_spec rules [] List.Pairwise.nil).2.2.1 k hk with h | ⟨r, hr, rfl⟩
  · cases h
  · exact hrooted r hr

/-- The least of the nodes is the root's, if there is one. -/
theorem isRoot_last {last : HeaderNode} (hlast : (buildNodes rules).getLast? = some last)
    (hrooted : ∀ r ∈ rules, r.path.head? = some slash) {k : Place} (hk : k ∈ keysOf rules)
    (hroot : k.path.length = 1 ∧ k.isExact = false) : last.isRoot = true := by
  have hsorted : (buildNodes rules).Pairwise fun a b => nodeBefore a b = true :=
    List.pairwise_insertionSort _ _
  have hmem : last ∈ buildNodes rules := List.mem_of_getLast? hlast
  have hle : last.place.height ≤ k.height := by
    obtain ⟨init, hinit⟩ := List.getLast?_eq_some_iff.mp hlast
    have hkn : nodeOf rules (keysOf rules) k ∈ buildNodes rules := mem_buildNodes.mpr ⟨k, hk, rfl⟩
    rw [hinit] at hkn hsorted
    rcases List.mem_append.mp hkn with hkn | hkn
    · exact nodeBefore_iff.mp ((List.pairwise_append.mp hsorted).2.2 _ hkn _ (List.mem_singleton.mpr rfl))
    rw [← List.mem_singleton.mp hkn]
    exact le_rfl
  obtain ⟨c, hc, rfl⟩ := mem_buildNodes.mp hmem
  have hpos : 0 < c.path.length :=
    List.length_pos_of_mem (List.mem_of_mem_head? (rooted_of_keysOf hrooted c hc))
  rw [place_nodeOf] at hle
  unfold Place.height at hle
  rw [hroot.1, hroot.2] at hle
  unfold HeaderNode.isRoot
  rw [place_nodeOf, Bool.and_eq_true, decide_eq_true_eq, Bool.not_eq_true']
  cases hce : c.isExact with
  | true => rw [hce, Bool.toNat_true, Bool.toNat_false] at hle; omega
  | false =>
    rw [hce] at hle
    exact ⟨by simp only [Bool.toNat_false] at hle; omega, rfl⟩

/-- **The node found is of the highest covering place**, and there is one when a rule covers. -/
theorem lookupNode_spec (path : Bytes) (hrooted : ∀ r ∈ rules, r.path.head? = some slash) :
    match lookupNode (buildNodes rules) path with
    | none => ∀ k ∈ keysOf rules, k.covers path = false
    | some n => ∃ k ∈ keysOf rules, n = nodeOf rules (keysOf rules) k ∧ k.covers path = true ∧
        ∀ c ∈ keysOf rules, c.covers path = true → c.height ≤ k.height := by
  have hnode : ∀ k ∈ keysOf rules, nodeOf rules (keysOf rules) k ∈ buildNodes rules :=
    fun k hk => mem_buildNodes.mpr ⟨k, hk, rfl⟩
  have hsorted : (buildNodes rules).Pairwise fun a b => nodeBefore a b = true :=
    List.pairwise_insertionSort _ _
  -- a covering place the bitmap does not know is the root
  have hmark : ∀ k ∈ keysOf rules, k.covers path = true →
      marksFirst (buildNodes rules) (firstByte path) = false → k.path.length = 1 ∧ k.isExact = false := by
    intro k hk hcov hno
    by_contra hroot
    have := List.any_eq_false.mp hno _ (hnode k hk)
    rw [place_nodeOf, firstByte_of_covers (rooted_of_keysOf hrooted k hk) hroot hcov] at this
    rw [HeaderNode.isRoot, place_nodeOf] at this
    exact hroot (by simpa using this)
  unfold lookupNode
  cases hlast : (buildNodes rules).getLast? with
  | none =>
    intro k hk
    have := hnode k hk
    rw [List.getLast?_eq_none_iff.mp hlast] at this
    cases this
  | some last =>
    have hlmem : last ∈ buildNodes rules := List.mem_of_getLast? hlast
    obtain ⟨kl, hkl, hkleq⟩ := mem_buildNodes.mp hlmem
    have hlcov : last.isRoot = true → kl.path.length = 1 ∧ kl.isExact = false := by
      intro h
      rw [hkleq, HeaderNode.isRoot, place_nodeOf] at h
      simpa using h
    dsimp only
    cases hm : marksFirst (buildNodes rules) (firstByte path) with
    | true =>
      cases hfind : (buildNodes rules).find? fun n => n.place.covers path with
      | some n =>
        -- the first that covers, in falling order
        obtain ⟨hcov, as, bs, hsplit, has⟩ := List.find?_eq_some_iff_append.mp hfind
        have hnmem : n ∈ buildNodes rules := List.mem_of_find?_eq_some hfind
        obtain ⟨k, hk, rfl⟩ := mem_buildNodes.mp hnmem
        refine ⟨k, hk, rfl, hcov, ?_⟩
        intro c hc hccov
        have hcn := hnode c hc
        rw [hsplit] at hcn hsorted
        rcases List.mem_append.mp hcn with hcn | hcn
        · have := has _ hcn
          rw [place_nodeOf, hccov] at this
          cases this
        · rcases List.mem_cons.mp hcn with hcn | hcn
          · have := congrArg HeaderNode.place hcn
            rw [place_nodeOf, place_nodeOf] at this
            rw [this]
          · have hord := (List.pairwise_cons.mp (List.pairwise_append.mp hsorted).2.1).1 _ hcn
            exact nodeBefore_iff.mp hord
      | none =>
        have hnone : ∀ k ∈ keysOf rules, k.covers path = false := by
          intro k hk
          exact Bool.eq_false_iff.mpr (List.find?_eq_none.mp hfind _ (hnode k hk))
        cases hroot : last.isRoot with
        | false => exact hnone
        | true =>
          obtain ⟨h1, he⟩ := hlcov hroot
          have := hnone kl hkl
          rw [covers_root he h1] at this
          cases this
    | false =>
      cases hroot : last.isRoot with
      | true =>
        obtain ⟨h1, he⟩ := hlcov hroot
        refine ⟨kl, hkl, hkleq, covers_root he h1, ?_⟩
        intro c hc hccov
        obtain ⟨hc1, hce⟩ := hmark c hc hccov hm
        unfold Place.height
        rw [h1, he, hc1, hce]
      | false =>
        intro k hk
        rw [← Bool.not_eq_true]
        intro hcov
        rw [isRoot_last hlast hrooted hk (hmark k hk hcov hm)] at hroot
        cases hroot

end Lookup

/-! ## §6. Endings. -/

section Endings

variable {name e e' : Bytes}

/-- A file has an ending: something, a dot and the ending, in any case. -/
theorem hasEnding_iff (he : e.map lower = e) :
    hasEnding name e = true ↔ ∃ X, X ≠ [] ∧ name.map lower = X ++ dot :: e := by
  have hdot : ∀ i : Nat, name[i]? = some dot ↔ (name.map lower)[i]? = some dot := by
    intro i
    rw [List.getElem?_map]
    cases name[i]? with
    | none => simp
    | some c => simp [(lower_eq_mark _).2]
  unfold hasEnding
  rw [Bool.and_eq_true, Bool.and_eq_true, decide_eq_true_eq, decide_eq_true_eq, iequals_iff, he,
    List.map_drop, hdot]
  constructor
  · rintro ⟨⟨hlen, hd⟩, htail⟩
    refine ⟨(name.map lower).take (name.length - e.length - 1), ?_, ?_⟩
    · intro hnil
      have := congrArg List.length hnil
      rw [List.length_take, List.length_map, List.length_nil] at this
      omega
    · obtain ⟨hlt, hget⟩ := List.getElem?_eq_some_iff.mp hd
      have hsplit := List.drop_eq_getElem_cons hlt
      rw [hget, show name.length - e.length - 1 + 1 = name.length - e.length by omega, htail] at hsplit
      rw [← hsplit, List.take_append_drop]
  · rintro ⟨X, hX, hname⟩
    have hlen : name.length = X.length + (e.length + 1) := by
      simpa using congrArg List.length hname
    have hpos : 0 < X.length := List.length_pos_iff.mpr hX
    rw [hname, show name.length - e.length - 1 = X.length by omega,
      show name.length - e.length = X.length + 1 by omega]
    refine ⟨⟨by omega, ?_⟩, ?_⟩
    · rw [List.getElem?_append_right le_rfl, Nat.sub_self]
      rfl
    · rw [List.drop_append, List.drop_eq_nil_of_le (by omega), show X.length + 1 - X.length = 1 by omega]
      rfl

theorem endingWithin_iff : endingWithin e e' = true ↔ e = e' ∨ ∃ Y, Y ≠ [] ∧ e' = Y ++ dot :: e := by
  unfold endingWithin
  rw [Bool.or_eq_true, decide_eq_true_eq, Bool.and_eq_true, Bool.and_eq_true, decide_eq_true_eq,
    decide_eq_true_eq, decide_eq_true_eq]
  refine or_congr_right ?_
  constructor
  · rintro ⟨⟨hlen, hd⟩, htail⟩
    refine ⟨e'.take (e'.length - e.length - 1), ?_, ?_⟩
    · intro hnil
      have := congrArg List.length hnil
      rw [List.length_take, List.length_nil] at this
      omega
    · obtain ⟨hlt, hget⟩ := List.getElem?_eq_some_iff.mp hd
      have hsplit := List.drop_eq_getElem_cons hlt
      rw [hget, show e'.length - e.length - 1 + 1 = e'.length - e.length by omega, htail] at hsplit
      rw [← hsplit, List.take_append_drop]
  · rintro ⟨Y, hY, rfl⟩
    have hpos : 0 < Y.length := List.length_pos_iff.mpr hY
    simp only [List.length_append, List.length_cons]
    rw [show Y.length + (e.length + 1) - e.length - 1 = Y.length by omega,
      show Y.length + (e.length + 1) - e.length = Y.length + 1 by omega]
    refine ⟨⟨by omega, ?_⟩, ?_⟩
    · rw [List.getElem?_append_right le_rfl, Nat.sub_self]
      rfl
    · rw [List.drop_append, List.drop_eq_nil_of_le (by omega), show Y.length + 1 - Y.length = 1 by omega]
      rfl

theorem endingOk_iff : endingOk e = true ↔ e ≠ [] ∧ e.map lower = e ∧ e.head? ≠ some dot := by
  unfold endingOk
  rw [Bool.and_eq_true, Bool.and_eq_true, decide_eq_true_eq, decide_eq_true_eq, decide_eq_true_eq, and_assoc]

/-- Of two endings a file has, the shorter is within the other. -/
theorem endingWithin_of_hasEnding (he : endingOk e = true) (he' : endingOk e' = true)
    (h : hasEnding name e = true) (h' : hasEnding name e' = true) (hlen : e'.length ≤ e.length) :
    endingWithin e' e = true := by
  obtain ⟨-, hlow, hhead⟩ := endingOk_iff.mp he
  obtain ⟨-, hlow', -⟩ := endingOk_iff.mp he'
  obtain ⟨X, hX, hname⟩ := (hasEnding_iff hlow).mp h
  obtain ⟨X', hX', hname'⟩ := (hasEnding_iff hlow').mp h'
  rw [hname] at hname'
  rw [endingWithin_iff]
  have hsum := congrArg List.length hname'
  simp only [List.length_append, List.length_cons] at hsum
  rcases List.append_eq_append_iff.mp hname' with ⟨t, hXt, ht⟩ | ⟨t, hXt, ht⟩
  · -- the longer text before the shorter ending
    cases t with
    | nil =>
      rw [List.nil_append] at ht
      exact .inl (List.cons.inj ht).2.symm
    | cons c t =>
      rw [List.cons_append] at ht
      obtain ⟨-, ht⟩ := List.cons.inj ht
      refine .inr ⟨t, ?_, ht⟩
      rintro rfl
      rw [ht] at hhead
      exact hhead rfl
  · have : t = [] := by
      have := congrArg List.length hXt
      rw [List.length_append] at this
      exact List.length_eq_zero_iff.mp (by omega)
    rw [this, List.nil_append] at ht
    exact .inl (List.cons.inj ht).2

/-- A file with an ending has every ending within it. -/
theorem hasEnding_of_within (he : endingOk e = true) (he' : endingOk e' = true)
    (h : hasEnding name e = true) (hw : endingWithin e' e = true) : hasEnding name e' = true := by
  obtain ⟨-, hlow, -⟩ := endingOk_iff.mp he
  obtain ⟨-, hlow', -⟩ := endingOk_iff.mp he'
  obtain ⟨X, hX, hname⟩ := (hasEnding_iff hlow).mp h
  rcases endingWithin_iff.mp hw with rfl | ⟨Y, -, rfl⟩
  · exact h
  refine (hasEnding_iff hlow').mpr ⟨X ++ dot :: Y, by simp, ?_⟩
  rw [hname]
  simp

end Endings

/-! ## §7. The plain reading. -/

section Scan

variable (path : Bytes) (success : Bool) (file : Option Bytes) (n : Bytes)

/-- The rule applies to an answer of this kind for this path and served file. -/
def HeaderRule.applies (r : HeaderRule) : Bool :=
  r.place.covers path && (success || !r.successOnly) &&
    (r.endings = [] || file.any fun f => r.endings.any (hasEnding (fileName f)))

/-- A rule that applies and names the field. -/
def HeaderRule.counts (r : HeaderRule) : Bool :=
  r.applies path success file && (r.decisionFor n).isSome

/-- The most specific rule so far, or this one if it is more specific. -/
def better (best : Option HeaderRule) (r : HeaderRule) : Option HeaderRule :=
  if r.counts path success file n && best.all fun b => b.rank < r.rank then some r else best

/-- `scan`: the decision of the most specific rule that applies and names the field. -/
def scan (rules : List HeaderRule) : Option FieldDecision :=
  (rules.foldl (better path success file n) none).bind (·.decisionFor n)

variable {path success file n}

/-- The scan ends with the highest rule that counts. -/
theorem foldl_better (path : Bytes) (success : Bool) (file : Option Bytes) (n : Bytes) (rules : List HeaderRule) :
    match rules.foldl (better path success file n) none with
    | none => ∀ r ∈ rules, r.counts path success file n = false
    | some b => b ∈ rules ∧ b.counts path success file n = true ∧
        ∀ r ∈ rules, r.counts path success file n = true → r.rank ≤ b.rank := by
  induction rules using List.reverseRecOn with
  | nil => intro r hr; cases hr
  | append_singleton L r ih =>
    rw [List.foldl_append, List.foldl_cons, List.foldl_nil, better]
    cases hr : r.counts path success file n with
    | false =>
      simp only [Bool.false_and, Bool.false_eq_true, if_false]
      cases hL : L.foldl (better path success file n) none with
      | none =>
        rw [hL] at ih
        intro x hx
        rcases List.mem_append.mp hx with hx | hx
        · exact ih x hx
        · rw [List.mem_singleton.mp hx]; exact hr
      | some b =>
        rw [hL] at ih
        refine ⟨List.mem_append_left _ ih.1, ih.2.1, ?_⟩
        intro x hx hxc
        rcases List.mem_append.mp hx with hx | hx
        · exact ih.2.2 x hx hxc
        rw [List.mem_singleton.mp hx, hr] at hxc
        cases hxc
    | true =>
      rw [Bool.true_and]
      cases hL : L.foldl (better path success file n) none with
      | none =>
        rw [hL] at ih
        simp only [Option.all_none, if_true]
        refine ⟨List.mem_append_right _ (List.mem_singleton.mpr rfl), hr, ?_⟩
        intro x hx hxc
        rcases List.mem_append.mp hx with hx | hx
        · rw [ih x hx] at hxc
          cases hxc
        · rw [List.mem_singleton.mp hx]
      | some b =>
        rw [hL] at ih
        simp only [Option.all_some, decide_eq_true_eq]
        by_cases hlt : b.rank < r.rank
        · rw [if_pos hlt]
          refine ⟨List.mem_append_right _ (List.mem_singleton.mpr rfl), hr, ?_⟩
          intro x hx hxc
          rcases List.mem_append.mp hx with hx | hx
          · exact Nat.le_of_lt (Nat.lt_of_le_of_lt (ih.2.2 x hx hxc) hlt)
          · rw [List.mem_singleton.mp hx]
        · rw [if_neg hlt]
          refine ⟨List.mem_append_left _ ih.1, ih.2.1, ?_⟩
          intro x hx hxc
          rcases List.mem_append.mp hx with hx | hx
          · exact ih.2.2 x hx hxc
          rw [List.mem_singleton.mp hx]
          omega

/-- The rule found by a scan, from its place among those that count. -/
theorem scan_eq_of_highest {rules : List HeaderRule}
    (hinj : ∀ a ∈ rules, ∀ b ∈ rules, a.counts path success file n = true →
      b.counts path success file n = true → a.rank = b.rank → a = b)
    {r : HeaderRule} (hr : r ∈ rules) (hcounts : r.counts path success file n = true)
    (hmax : ∀ x ∈ rules, x.counts path success file n = true → x.rank ≤ r.rank) :
    scan path success file n rules = r.decisionFor n := by
  have hspec := foldl_better path success file n rules
  unfold scan
  cases hfold : rules.foldl (better path success file n) none with
  | none =>
    rw [hfold] at hspec
    rw [hspec r hr] at hcounts
    cases hcounts
  | some b =>
    rw [hfold] at hspec
    obtain ⟨hb, hbc, hbmax⟩ := hspec
    have heq : b.rank = r.rank := Nat.le_antisymm (hmax b hb hbc) (hbmax r hr hcounts)
    rw [hinj b hb r hr hbc hcounts heq]
    rfl

theorem scan_eq_none_iff {rules : List HeaderRule} :
    scan path success file n rules = none ↔ ∀ r ∈ rules, r.counts path success file n = false := by
  have hspec := foldl_better path success file n rules
  unfold scan
  cases hfold : rules.foldl (better path success file n) none with
  | none =>
    rw [hfold] at hspec
    exact ⟨fun _ => hspec, fun _ => rfl⟩
  | some b =>
    rw [hfold] at hspec
    obtain ⟨hb, hbc, -⟩ := hspec
    constructor
    · intro h
      rw [HeaderRule.counts, Bool.and_eq_true, Option.isSome_iff_exists] at hbc
      obtain ⟨-, d, hd⟩ := hbc
      rw [Option.bind_some, hd] at h
      cases h
    · intro h
      rw [h b hb] at hbc
      cases hbc

end Scan

/-! ## §8. What the loader's checks give. -/

namespace LoadedRules

variable (s : LoadedRules)

theorem baseline_ok : ∀ (b : Baseline), ∀ r ∈ b.rules, r.path = [slash] ∧ r.isExact = false ∧ r.baseline = true ∧
    r.endings.all endingOk = true ∧ namesApart r.names = true := by
  intro b
  cases b <;> decide +kernel

/-- No two rules of a baseline name one field. -/
theorem baseline_apart : ∀ (b : Baseline), ∀ r ∈ b.rules, ∀ o ∈ b.rules,
    (r.names.any fun m => o.names.any fun n => iequals n m) = true → r = o := by
  intro b
  cases b <;> decide +kernel

variable {r b : HeaderRule}

theorem written_ok (hr : r ∈ s.written) : r.path.head? = some slash ∧
    r.endings.all endingOk = true ∧ namesApart r.names = true ∧ r.baseline = false := by
  have h := s.wellFormed r hr
  unfold HeaderRule.wellFormed at h
  simp only [Bool.and_eq_true, decide_eq_true_eq, Bool.not_eq_true'] at h
  exact ⟨h.1.1.1.1.1, h.1.1.1.2, h.1.1.2, h.1.2⟩

theorem rules_ok (hr : r ∈ s.rules) : r.path.head? = some slash ∧
    r.endings.all endingOk = true ∧ namesApart r.names = true := by
  rcases List.mem_append.mp hr with hr | hr
  · obtain ⟨h₁, h₂, h₃, -⟩ := s.written_ok hr
    exact ⟨h₁, h₂, h₃⟩
  obtain ⟨h₁, -, -, h₂, h₃⟩ := baseline_ok _ r hr
  exact ⟨by rw [h₁]; rfl, h₂, h₃⟩

theorem mem_names_of_decisionFor {n : Bytes} (h : (r.decisionFor n).isSome = true) :
    ∃ m ∈ r.names, iequals m n = true := by
  rw [HeaderRule.decisionFor, findField, List.find?_isSome] at h
  obtain ⟨d, hd, hdn⟩ := h
  rw [← names_decisions]
  exact ⟨d.name, List.mem_map_of_mem hd, hdn⟩

theorem meet_names {o : HeaderRule} {n : Bytes} (hr : (r.decisionFor n).isSome = true)
    (ho : (o.decisionFor n).isSome = true) :
    (r.names.any fun m => o.names.any fun x => iequals x m) = true := by
  obtain ⟨m, hm, hmn⟩ := mem_names_of_decisionFor hr
  obtain ⟨x, hx, hxn⟩ := mem_names_of_decisionFor ho
  exact List.any_eq_true.mpr ⟨m, hm, List.any_eq_true.mpr
    ⟨x, hx, iequals_iff.mpr ((iequals_iff.mp hxn).trans (iequals_iff.mp hmn).symm)⟩⟩

theorem clash_symm {a : HeaderRule} (h : a.clash b = true) : b.clash a = true := by
  simp only [HeaderRule.clash, Bool.and_eq_true] at h ⊢
  obtain ⟨⟨hsame, hmeet⟩, hnames⟩ := h
  refine ⟨⟨same_symm hsame, ?_⟩, ?_⟩
  · simp only [endingsMeet, Bool.or_eq_true, Bool.and_eq_true, List.any_eq_true] at hmeet ⊢
    rcases hmeet with hmeet | ⟨e, he, f, hf, hw⟩
    · exact .inl hmeet.symm
    · exact .inr ⟨f, hf, e, he, hw.symm⟩
  · simp only [List.any_eq_true] at hnames ⊢
    obtain ⟨m, hm, x, hx, hxm⟩ := hnames
    exact ⟨x, hx, m, hm, iequals_iff.mpr (iequals_iff.mp hxm).symm⟩

theorem pairwise_of_clashFree {rs : List HeaderRule} (h : clashFree rs = true) :
    rs.Pairwise fun a b => a.clash b = false := by
  induction rs with
  | nil => exact List.Pairwise.nil
  | cons r rs ih =>
    rw [clashFree, Bool.and_eq_true] at h
    refine List.pairwise_cons.mpr ⟨?_, ih h.2⟩
    intro o ho
    simpa using List.all_eq_true.mp h.1 o ho

/-- Two different written rules do not clash. -/
theorem written_apart {a : HeaderRule} (ha : a ∈ s.written) (hb : b ∈ s.written) (hne : a ≠ b) :
    a.clash b = false := by
  have : Std.Symm fun a b : HeaderRule => a.clash b = false := by
    refine ⟨fun x y h => ?_⟩
    rw [← Bool.not_eq_true] at h ⊢
    exact fun h' => h (clash_symm h')
  exact (pairwise_of_clashFree s.apart).forall ha hb hne

/-- A rule of the baseline ranks below every written one. -/
theorem rank_baseline_lt {a : HeaderRule} (ha : a ∈ s.baseline.rules) (hb : b ∈ s.written) :
    a.rank < b.rank := by
  obtain ⟨hpath, hexact, hbase, -⟩ := baseline_ok _ a ha
  obtain ⟨hroot, -, -, hw⟩ := s.written_ok hb
  have hpos : 0 < b.path.length := List.length_pos_of_mem (List.mem_of_mem_head? hroot)
  unfold HeaderRule.rank
  rw [hpath, hexact, hbase, hw]
  have := (decide (a.endings ≠ [])).toNat_le
  simp only [List.length_singleton, Bool.toNat_false, Bool.not_true, Bool.not_false, Bool.toNat_true]
  omega

/-- **Among the rules that count, the rank says which one it is.** -/
theorem rank_injective {path : Bytes} {success : Bool} {file : Option Bytes} {n : Bytes}
    {a : HeaderRule} (ha : a ∈ s.rules) (hb : b ∈ s.rules)
    (hac : a.counts path success file n = true) (hbc : b.counts path success file n = true)
    (hrank : a.rank = b.rank) : a = b := by
  unfold HeaderRule.counts HeaderRule.applies at hac hbc
  simp only [Bool.and_eq_true, Bool.or_eq_true] at hac hbc
  obtain ⟨⟨⟨hacov, -⟩, haend⟩, han⟩ := hac
  obtain ⟨⟨⟨hbcov, -⟩, hbend⟩, hbn⟩ := hbc
  rcases List.mem_append.mp ha with haw | hab
  · rcases List.mem_append.mp hb with hbw | hbb
    · by_contra hne
      have hclash := s.written_apart haw hbw hne
      obtain ⟨haroot, haok, -, ha0⟩ := s.written_ok haw
      obtain ⟨hbroot, hbok, -, hb0⟩ := s.written_ok hbw
      -- one kind and one length: the same place
      have hparts : a.path.length = b.path.length ∧ a.isExact = b.isExact ∧
          (a.endings = [] ↔ b.endings = []) := by
        unfold HeaderRule.rank at hrank
        rw [ha0, hb0] at hrank
        cases hae : a.isExact <;> cases hbe : b.isExact <;>
          by_cases h₁ : a.endings = [] <;> by_cases h₂ : b.endings = [] <;>
          simp [hae, hbe, h₁, h₂] at hrank ⊢ <;> omega
      have hsame : a.place.same b.place = true :=
        same_of_covers haroot hbroot hacov hbcov hparts.2.1 hparts.1
      have hmeet : endingsMeet a b = true := by
        unfold endingsMeet
        rw [Bool.or_eq_true]
        by_cases h₁ : a.endings = []
        · exact .inl (by simp [h₁, hparts.2.2.mp h₁])
        right
        -- the file has an ending of each: one is within the other
        rcases haend with haend | haend
        · exact absurd (of_decide_eq_true haend) h₁
        rcases hbend with hbend | hbend
        · exact absurd (hparts.2.2.mpr (of_decide_eq_true hbend)) h₁
        cases file with
        | none => cases haend
        | some f =>
          obtain ⟨e, he, hef⟩ := List.any_eq_true.mp haend
          obtain ⟨e', he', hef'⟩ := List.any_eq_true.mp hbend
          have hek := List.all_eq_true.mp haok e he
          have hek' := List.all_eq_true.mp hbok e' he'
          refine List.any_eq_true.mpr ⟨e', he', List.any_eq_true.mpr ⟨e, he, ?_⟩⟩
          rw [Bool.or_eq_true]
          rcases Nat.le_total e'.length e.length with hle | hle
          · exact .inl (endingWithin_of_hasEnding hek hek' hef hef' hle)
          · exact .inr (endingWithin_of_hasEnding hek' hek hef' hef hle)
      rw [HeaderRule.clash, hsame, hmeet, meet_names hbn han] at hclash
      cases hclash
    · exact absurd hrank (Nat.ne_of_gt (s.rank_baseline_lt hbb haw))
  · rcases List.mem_append.mp hb with hbw | hbb
    · exact absurd hrank (Nat.ne_of_lt (s.rank_baseline_lt hab hbw))
    · exact baseline_apart _ a hab b hbb (meet_names han hbn)

/-! ## §9. The refinement. -/

section Refinement

variable {path : Bytes} {success : Bool} {file : Option Bytes} {n : Bytes}

/-- The rules of a covering place and of its chain are the rules that cover. -/
theorem chain_covers {k : Place} (hk : k ∈ keysOf s.rules) (hcov : k.covers path = true)
    (hmax : ∀ c ∈ keysOf s.rules, c.covers path = true → c.height ≤ k.height) {r : HeaderRule}
    (hr : r ∈ s.rules) :
    (∃ c ∈ chainOf (keysOf s.rules) k, r.place.same c = true) ↔ r.place.covers path = true := by
  have hrooted := rooted_of_keysOf (fun r hr => (s.rules_ok hr).1 : ∀ r ∈ s.rules, r.path.head? = some slash)
  obtain ⟨hapart, -, -, hall⟩ := placesOf_spec s.rules [] List.Pairwise.nil
  have hpos : ∀ c ∈ keysOf s.rules, 0 < c.path.length := fun c hc =>
    List.length_pos_of_mem (List.mem_of_mem_head? (hrooted c hc))
  constructor
  · rintro ⟨c, hc, hsame⟩
    rw [covers_congr hsame]
    rcases mem_chainOf.mp hc with rfl | ⟨hck, hce, -, hcc⟩
    · exact hcov
    · exact covers_trans hce hcc hcov (hpos c hck)
  · intro hrc
    obtain ⟨c, hck, hsame⟩ := hall r hr
    have hcc : c.covers path = true := covers_congr hsame path ▸ hrc
    have hle := hmax c hck hcc
    -- a place as high as `k` is `k`
    have heq : c.same k = true → ∃ c ∈ chainOf (keysOf s.rules) k, r.place.same c = true := fun h =>
      ⟨k, mem_chainOf.mpr (.inl rfl), same_trans hsame h⟩
    unfold Place.height at hle
    cases hce : c.isExact with
    | true =>
      apply heq
      have hcp := (covers_exact_iff hce).mp hcc
      have hlen : path.length = c.path.length := by simpa using congrArg List.length hcp
      have hklen : k.path.length ≤ path.length := by
        by_cases h1 : k.path.length = 1
        · have := hpos c hck; omega
        · simpa using (prefix_of_covers (.inl h1) hcov).length_le
      rw [hce, Bool.toNat_true] at hle
      have hke : k.isExact = true := by
        cases hke : k.isExact with
        | true => rfl
        | false => rw [hke, Bool.toNat_false] at hle; omega
      refine same_of_covers (hrooted c hck) (hrooted k hk) hcc hcov (hce.trans hke.symm) ?_
      rw [hke, Bool.toNat_true] at hle
      omega
    | false =>
      rw [hce, Bool.toNat_false] at hle
      have hlen : c.path.length ≤ k.path.length := by
        have := k.isExact.toNat_le
        omega
      by_cases hsk : c.same k = true
      · exact heq hsk
      refine ⟨c, mem_chainOf.mpr (.inr ⟨hck, hce, ?_, covers_of_longer hce hcc hcov hlen (hpos c hck)⟩), hsame⟩
      cases hke : k.isExact with
      | true => exact .inl rfl
      | false =>
        right
        rw [← Bool.not_eq_true]
        intro hi
        exact hsk (by rw [Place.same, hce, hke, hi]; rfl)

/-- The ending a node goes by: the longest of the file's. -/
def endingAt (k : Place) (file : Option Bytes) : Option Bytes :=
  file.bind fun f => (endingsOf s.rules (chainOf (keysOf s.rules) k)).find? (hasEnding (fileName f))

theorem setFor_nodeOf (k : Place) : setFor (nodeOf s.rules (keysOf s.rules) k) success file =
    fill s.rules (chainOf (keysOf s.rules) k) success (s.endingAt k file) := by
  unfold setFor endingAt
  cases file with
  | none => cases success <;> rfl
  | some f =>
    have hfind : endingSets (nodeOf s.rules (keysOf s.rules) k) f =
        ((endingsOf s.rules (chainOf (keysOf s.rules) k)).find? (hasEnding (fileName f))).map fun e =>
          { ending := e, success := fill s.rules (chainOf (keysOf s.rules) k) true (some e)
            other := fill s.rules (chainOf (keysOf s.rules) k) false (some e) } := by
      rw [endingSets, nodeOf, List.find?_map]
      rfl
    rw [Option.bind_some, Option.bind_some, hfind]
    cases (endingsOf s.rules (chainOf (keysOf s.rules) k)).find? (hasEnding (fileName f)) with
    | none => cases success <;> rfl
    | some e => cases success <;> rfl

theorem mem_endingsOf {rules : List HeaderRule} {chain : List Place} {e : Bytes} :
    e ∈ endingsOf rules chain ↔ ∃ c ∈ chain, ∃ r ∈ rules, r.place.same c = true ∧ e ∈ r.endings := by
  unfold endingsOf
  rw [List.mem_insertionSort, List.mem_reverse, List.mem_dedup, List.mem_reverse, List.mem_flatMap]
  simp only [List.mem_flatMap, List.mem_filter, and_assoc]

/-- The rules with an ending of the file are those the second pass takes. -/
theorem endings_iff {k : Place} {r : HeaderRule} (hr : r ∈ s.rules)
    (hplace : ∃ c ∈ chainOf (keysOf s.rules) k, r.place.same c = true) :
    (∃ e, s.endingAt k file = some e ∧ r.inPass (some e) = true) ↔
      (file.any fun f => r.endings.any (hasEnding (fileName f))) = true := by
  have hok := (s.rules_ok hr).2.1
  have hlisted : ∀ e ∈ r.endings, e ∈ endingsOf s.rules (chainOf (keysOf s.rules) k) := by
    intro e he
    obtain ⟨c, hc, hsame⟩ := hplace
    exact mem_endingsOf.mpr ⟨c, hc, r, hr, hsame, he⟩
  cases file with
  | none => simp [endingAt]
  | some f =>
    unfold endingAt
    rw [Option.bind_some, Option.any_some]
    constructor
    · rintro ⟨e, hfind, hin⟩
      have hef : hasEnding (fileName f) e = true := List.find?_some hfind
      obtain ⟨c, -, r', hr', -, he'⟩ := mem_endingsOf.mp (List.mem_of_find?_eq_some hfind)
      have heok := List.all_eq_true.mp (s.rules_ok hr').2.1 e he'
      obtain ⟨e₀, he₀, hw⟩ := List.any_eq_true.mp hin
      exact List.any_eq_true.mpr
        ⟨e₀, he₀, hasEnding_of_within heok (List.all_eq_true.mp hok e₀ he₀) hef hw⟩
    · intro hany
      obtain ⟨e₀, he₀, hef₀⟩ := List.any_eq_true.mp hany
      cases hfind : (endingsOf s.rules (chainOf (keysOf s.rules) k)).find? (hasEnding (fileName f)) with
      | none => exact absurd hef₀ (List.find?_eq_none.mp hfind e₀ (hlisted e₀ he₀))
      | some e =>
        refine ⟨e, rfl, List.any_eq_true.mpr ⟨e₀, he₀, ?_⟩⟩
        obtain ⟨hef, as, bs, hsplit, has⟩ := List.find?_eq_some_iff_append.mp hfind
        obtain ⟨c, -, r', hr', -, he'⟩ := mem_endingsOf.mp (List.mem_of_find?_eq_some hfind)
        have heok := List.all_eq_true.mp (s.rules_ok hr').2.1 e he'
        -- the longest come first, so `e₀` is not longer than the one found
        have hle : e₀.length ≤ e.length := by
          have hsorted : (endingsOf s.rules (chainOf (keysOf s.rules) k)).Pairwise
              fun a b => b.length ≤ a.length := List.pairwise_insertionSort _ _
          have hmem := hlisted e₀ he₀
          rw [hsplit] at hsorted hmem
          rcases List.mem_append.mp hmem with hmem | hmem
          · have := has e₀ hmem
            rw [hef₀] at this
            cases this
          · rcases List.mem_cons.mp hmem with rfl | hmem
            · exact le_rfl
            · exact (List.pairwise_cons.mp (List.pairwise_append.mp hsorted).2.1).1 e₀ hmem
        exact endingWithin_of_hasEnding heok (List.all_eq_true.mp hok e₀ he₀) hef hef₀ hle

/-- What a node decides with are the rules that apply. -/
theorem mem_fillOrder_iff {k : Place} (success : Bool) (file : Option Bytes) (hk : k ∈ keysOf s.rules) (hcov : k.covers path = true)
    (hmax : ∀ c ∈ keysOf s.rules, c.covers path = true → c.height ≤ k.height) {r : HeaderRule} :
    r ∈ fillOrder s.rules (chainOf (keysOf s.rules) k) success (s.endingAt k file) ↔
      r ∈ s.rules ∧ r.applies path success file = true := by
  rw [mem_fillOrder]
  unfold HeaderRule.applies
  simp only [Bool.and_eq_true, Bool.or_eq_true, decide_eq_true_eq, Bool.not_eq_true']
  constructor
  · rintro ⟨hr, hplace, hs, hend⟩
    exact ⟨hr, ⟨(s.chain_covers hk hcov hmax hr).mp hplace, hs⟩, hend.imp_right (s.endings_iff hr hplace).mp⟩
  · rintro ⟨hr, ⟨hrc, hs⟩, hend⟩
    have hplace := (s.chain_covers hk hcov hmax hr).mpr hrc
    exact ⟨hr, hplace, hs, hend.imp_right (s.endings_iff hr hplace).mpr⟩

theorem decisionAt_eq : decisionAt s.rules path success file n = scan path success file n s.rules := by
  have hrooted : ∀ r ∈ s.rules, r.path.head? = some slash := fun r hr => (s.rules_ok hr).1
  have hnames : ∀ r ∈ s.rules, namesApart r.names = true := fun r hr => (s.rules_ok hr).2.2
  have hlook := lookupNode_spec path hrooted
  unfold decisionAt
  cases hn : lookupNode (buildNodes s.rules) path with
  | none =>
    rw [hn] at hlook
    rw [Option.bind_none, eq_comm, scan_eq_none_iff]
    intro r hr
    obtain ⟨c, hc, hsame⟩ := (placesOf_spec s.rules [] List.Pairwise.nil).2.2.2 r hr
    rw [HeaderRule.counts, HeaderRule.applies, covers_congr hsame, hlook c hc]
    rfl
  | some node =>
    rw [hn] at hlook
    obtain ⟨k, hk, rfl, hcov, hmax⟩ := hlook
    have hchain : (chainOf (keysOf s.rules) k).Pairwise (fun a b => a.height < b.height) :=
      chainOf_rises (placesOf_spec s.rules [] List.Pairwise.nil).1
        (rooted_of_keysOf hrooted) (rooted_of_keysOf hrooted k hk)
    have hmem := fun r => s.mem_fillOrder_iff success file hk hcov hmax (r := r)
    rw [Option.bind_some, s.setFor_nodeOf, findField_fill hnames]
    have hwin := foldl_pick (n := n) (fillOrder_rises s.rules hchain success (s.endingAt k file))
    cases hfold : (fillOrder s.rules (chainOf (keysOf s.rules) k) success (s.endingAt k file)).foldl
        (pick n) none with
    | none =>
      rw [hfold] at hwin
      rw [eq_comm, scan_eq_none_iff]
      intro r hr
      cases happ : r.applies path success file with
      | false => rw [HeaderRule.counts, happ]; rfl
      | true => rw [HeaderRule.counts, hwin r ((hmem r).mpr ⟨hr, happ⟩), Option.isSome_none, Bool.and_false]
    | some d =>
      rw [hfold] at hwin
      obtain ⟨r, hr⟩ := hwin
      obtain ⟨hrr, happ⟩ := (hmem r).mp hr.mem
      have hcounts : r.counts path success file n = true := by
        rw [HeaderRule.counts, happ, hr.names]
        rfl
      rw [← hr.names, eq_comm]
      refine scan_eq_of_highest (fun a ha b hb => s.rank_injective ha hb) hrr hcounts ?_
      intro x hx hxc
      obtain ⟨hxapp, hxn⟩ := (Bool.and_eq_true _ _).mp hxc
      have hxmem := (hmem x).mpr ⟨hx, hxapp⟩
      rcases List.mem_append.mp hx with hxw | hxb
      · exact (hr.written x hxmem (s.written_ok hxw).2.2.2 hxn).2
      rcases List.mem_append.mp hrr with hrw | hrb
      · exact Nat.le_of_lt (s.rank_baseline_lt hxb hrw)
      · rw [baseline_apart _ x hxb r hrb (meet_names hxn (by rw [hr.names]; rfl))]

end Refinement

end LoadedRules

/-- **The most specific rule per field.**  The resolved rules decide a field as the scan does; there
    is no decision exactly when no rule that applies names the field, no node exactly when no rule
    covers the path; and the order of the written rules plays no part. -/
theorem decisionAt_eq_scan (s : LoadedRules) (path : Bytes) (success : Bool) (file : Option Bytes)
    (n : Bytes) : decisionAt s.rules path success file n = scan path success file n s.rules ∧
      (decisionAt s.rules path success file n = none ↔
        ∀ r ∈ s.rules, r.applies path success file = true → r.decisionFor n = none) ∧
      (lookupNode (buildNodes s.rules) path = none ↔ ∀ r ∈ s.rules, r.place.covers path = false) ∧
      ∀ t : LoadedRules, t.baseline = s.baseline → t.written.Perm s.written →
        decisionAt t.rules path success file n = decisionAt s.rules path success file n := by
  refine ⟨s.decisionAt_eq, ?_, ?_, ?_⟩
  · rw [s.decisionAt_eq, scan_eq_none_iff]
    refine forall₂_congr fun r _ => ?_
    rw [HeaderRule.counts, Bool.and_eq_false_iff, Option.isSome_eq_false_iff, Option.isNone_iff_eq_none,
      or_iff_not_imp_left, Bool.not_eq_false]
  · have hlook := lookupNode_spec path (fun r hr => (s.rules_ok hr).1 : ∀ r ∈ s.rules, r.path.head? = some slash)
    obtain ⟨-, -, hfrom, hall⟩ := placesOf_spec s.rules [] List.Pairwise.nil
    cases hn : lookupNode (buildNodes s.rules) path with
    | none =>
      rw [hn] at hlook
      refine ⟨fun _ r hr => ?_, fun _ => rfl⟩
      obtain ⟨c, hc, hsame⟩ := hall r hr
      rw [covers_congr hsame, hlook c hc]
    | some node =>
      rw [hn] at hlook
      obtain ⟨k, hk, -, hcov, -⟩ := hlook
      refine ⟨nofun, fun h => ?_⟩
      rcases hfrom k hk with hk | ⟨r, hr, rfl⟩
      · cases hk
      rw [h r hr] at hcov
      cases hcov
  · intro t hbase hperm
    have hmem : ∀ r, r ∈ t.rules ↔ r ∈ s.rules := by
      intro r
      rw [LoadedRules.rules, LoadedRules.rules, List.mem_append, List.mem_append, hperm.mem_iff, hbase]
    rw [t.decisionAt_eq, s.decisionAt_eq]
    have hs := foldl_better path success file n s.rules
    cases hfold : s.rules.foldl (better path success file n) none with
    | none =>
      rw [hfold] at hs
      rw [scan_eq_none_iff.mpr hs, scan_eq_none_iff]
      exact fun r hr => hs r ((hmem r).mp hr)
    | some b =>
      rw [hfold] at hs
      obtain ⟨hb, hbc, hbmax⟩ := hs
      rw [scan_eq_of_highest (fun x hx y hy => s.rank_injective hx hy) hb hbc hbmax,
        scan_eq_of_highest (fun x hx y hy => t.rank_injective hx hy) ((hmem b).mpr hb) hbc
          fun x hx => hbmax x ((hmem x).mp hx)]

namespace Assets

/-- Nothing of the site is framed. -/
def frames : HeaderRule :=
  { path := [slash], set := [(bytes "X-Frame-Options", bytes "DENY")]
    fallback := [(bytes "Cache-Control", bytes "no-cache")] }

/-- …but pictures under `/Assets` are kept for a year. -/
def pictures : HeaderRule :=
  { path := bytes "/Assets", successOnly := true, endings := [bytes "svg", bytes "tar.gz"]
    set := [(bytes "cache-control", bytes "max-age=31536000")] }

def site : LoadedRules :=
  { written := [frames, pictures], baseline := .static, wellFormed := by decide +kernel, apart := by decide +kernel }

def swapped : LoadedRules :=
  { written := [pictures, frames], baseline := .static, wellFormed := by decide +kernel, apart := by decide +kernel }

end Assets

open Assets in
theorem decisionAt_eq_scan_assets :
    decisionAt site.rules (bytes "/assets/x") true (some (bytes "/srv/logo.SVG")) (bytes "Cache-Control") =
        some { name := bytes "cache-control", value := bytes "max-age=31536000" } ∧
      decisionAt swapped.rules (bytes "/assets/x") true (some (bytes "/srv/logo.SVG")) (bytes "Cache-Control") =
        decisionAt site.rules (bytes "/assets/x") true (some (bytes "/srv/logo.SVG")) (bytes "Cache-Control") :=
  ⟨by decide +kernel, (decisionAt_eq_scan site (bytes "/assets/x") true (some (bytes "/srv/logo.SVG"))
    (bytes "Cache-Control")).2.2.2 swapped rfl (List.Perm.swap ..)⟩

end Agensio.Response
