/-
  Agensio.Response.Restricted — no rule loosens what an application says to caches.

  The answer's fields, as `Response.Fields` gives them, against what the
  application put there: its restrictions stand in Cache-Control and in the
  fields only shared caches read, a rule's line gives way to them, and one
  user's answer is not given to a shared cache by a rule.

  One part has exceptions, a rule's Expires.  `settle` asks of it, as of a
  cache field, whether its value holds the restrictions, so an Expires
  spelt `no-store` is taken for one that does; and behind a password
  nothing is settled, so it is added whatever the application said.

  Main results:
    * `answer_restricted_iff` — nothing is loosened, exactly when no Expires of a
      rule goes out over a restriction.
-/
import Agensio.Response.Fields

namespace Agensio.Response

open Agensio.Codec (Field)
open Agensio.Http (slash)
open Agensio.Http1 (iequals lower)

/-! ## §1. The sets that are built. -/

theorem iequals_comm (a b : Bytes) : iequals a b = iequals b a := by
  rw [Bool.eq_iff_iff, iequals_iff, iequals_iff]
  exact eq_comm

theorem decideField_distinct {baseline : Bool} {fs : List FieldDecision} {d : FieldDecision}
    (h : fs.Pairwise fun a b => a.named b.name = false) :
    (decideField baseline fs d).Pairwise fun a b => a.named b.name = false := by
  unfold decideField
  split
  · split
    · exact h
    -- a decision replaced has the name of the one before
    have hname : ∀ f : FieldDecision, iequals (if f.named d.name then d else f).name f.name = true := by
      intro f
      split
      · next hf => rw [iequals_comm]; exact hf
      · exact iequals_iff.mpr rfl
    refine List.pairwise_map.mpr (h.imp ?_)
    intro a b hab
    have hab' : iequals a.name b.name = false := hab
    show iequals (if a.named d.name then d else a).name (if b.named d.name then d else b).name = false
    rw [iequals_congr (hname a), iequals_comm, iequals_congr (hname b), iequals_comm, hab']
  · next hnone =>
    rw [List.any_eq_true, not_exists] at hnone
    refine List.pairwise_append.mpr ⟨h, List.pairwise_singleton _ _, ?_⟩
    intro a ha b hb
    rw [List.mem_singleton.mp hb]
    exact Bool.eq_false_iff.mpr fun hn => hnone a ⟨ha, hn⟩

/-- **One decision for a name**, whatever the rules. -/
theorem fill_distinct (rules : List HeaderRule) (chain : List Place) (success : Bool) (ending : Option Bytes) :
    (fill rules chain success ending).Pairwise fun a b => a.named b.name = false := by
  have hrule : ∀ (b : Bool) (ds fs : List FieldDecision), (fs.Pairwise fun a b => a.named b.name = false) →
      (ds.foldl (decideField b) fs).Pairwise fun a b => a.named b.name = false := by
    intro b ds
    induction ds with
    | nil => exact fun fs h => h
    | cons d ds ih => exact fun fs h => ih _ (decideField_distinct h)
  have hall : ∀ (rs : List HeaderRule) (fs : List FieldDecision), (fs.Pairwise fun a b => a.named b.name = false) →
      (rs.foldl (fun fs r => r.decisions.foldl (decideField r.baseline) fs) fs).Pairwise
        fun a b => a.named b.name = false := by
    intro rs
    induction rs with
    | nil => exact fun fs h => h
    | cons r rs ih => exact fun fs h => ih _ (hrule _ _ _ h)
  exact hall _ _ List.Pairwise.nil

/-- A set `build_response_headers` fills. -/
def HeaderSet.filled (rules : List HeaderRule) (chain : List Place) (success : Bool) (ending : Option Bytes) :
    HeaderSet :=
  ⟨fill rules chain success ending, fill_distinct rules chain success ending⟩

/-! ## §2. The property. -/

/-- No decision has this name. -/
def HeaderSet.undecided (hs : HeaderSet) (n : Bytes) : Bool := hs.fields.all fun d => !d.named n

/-- Nothing an application says to caches is loosened, and every other field is as its rule says. -/
structure Restricted (hs : HeaderSet) (guarded authorized : Bool) (fields : List Field) : Prop where
  /-- Cache-Control, and each field only shared caches read, restricts what it did. -/
  stands : guarded = false → ∀ n, (iequals n cacheControlName || sharedOnlyField n) = true →
    (bitsOf (sentAnswer hs guarded authorized fields) fun m => iequals m n).covers
      (bitsOf fields fun m => iequals m n) = true
  /-- Behind a password there is one such field, private and covering the restrictions of `fields`. -/
  guard : guarded = true → ∃ ds : List Bytes,
    (sentAnswer hs guarded authorized fields).filter guardField =
        [(bytes "Cache-Control", bytes "private" ++ ds.flatMap fun d => bytes ", " ++ d)] ∧
      (unionOf ((bytes "private" :: ds).map (restriction true))).covers (ccOf fields) = true
  /-- A rule's field for shared caches holds what the application said to any of them. -/
  shared : ∀ f ∈ addedLines hs guarded authorized fields, sharedOnlyField f.1 = true →
    (restrictions f.2 true).covers
      ((cdnOf fields).union (if fields.any fun g => iequals f.1 g.1 then {} else ccOf fields)) = true
  /-- A rule's Expires is added only where nothing restricts. -/
  expires : ∀ f ∈ addedLines hs guarded authorized fields, iequals f.1 expiresName = true →
    ((ccOf fields).union (cdnOf fields)).any = false
  /-- One user's answer: no line of a rule lets a shared cache keep it. -/
  personal : guarded = false → onesUser authorized fields = true →
    ∀ f ∈ addedLines hs guarded authorized fields,
      (iequals f.1 cacheControlName = true → sharedLifetime f.2 = false) ∧
        (sharedOnlyField f.1 = true → (restrictions f.2 false).any = true) ∧
        (iequals f.1 expiresName = true → f.2 = bytes "0")
  /-- Every other field: set leaves one copy, remove none, and a default adds one where there is none. -/
  copies : ∀ d ∈ hs.fields, d.cacheField = false → d.expires = false →
    (sentAnswer hs guarded authorized fields).filter (fun f => d.named f.1) =
      if d.ownOnly then fields.filter fun f => d.named f.1
      else match d.verb with
        | .set => [(d.name, d.value)]
        | .remove => []
        | .fallback => if d.carriedBy fields then fields.filter fun f => d.named f.1 else [(d.name, d.value)]
  /-- What no decision names passes, in order; a private line may follow one user's answer. -/
  others : guarded = false → ∃ own : List Field,
    (sentAnswer hs guarded authorized fields).filter (fun f => hs.undecided f.1) =
        fields.filter (fun f => hs.undecided f.1) ++ own ∧
      (own = [] ∨ (own = [privateLine] ∧ onesUser authorized fields = true))
  /-- Behind a password, all but what the guard took. -/
  othersGuarded : guarded = true →
    (sentAnswer hs guarded authorized fields).filter (fun f => hs.undecided f.1 && !guardField f) =
      fields.filter fun f => hs.undecided f.1 && !guardField f

/-- No Expires a rule would add meets a restriction: not behind a password, and not with a value
    that reads as the restriction itself, unless the answer is one user's. -/
def ExpiresFits (hs : HeaderSet) (guarded authorized : Bool) (fields : List Field) : Prop :=
  ∀ d ∈ hs.fields, d.expires = true → d.verb ≠ .remove → d.ownOnly = false →
    ¬(d.verb = .fallback ∧ d.carriedBy fields = true) →
    ((ccOf fields).union (cdnOf fields)).any = true →
      guarded = false ∧
        (d.restricts.covers ((ccOf fields).union (cdnOf fields)) = true → onesUser authorized fields = true)

/-! ## §3. What a decision adds. -/

section Adds

variable {hs : HeaderSet} {fields : List Field} {guarded authorized : Bool} {d : FieldDecision} {f : Field}

theorem adds_iff : d.adds guarded authorized fields = some f ↔
    d.verb ≠ .remove ∧ d.aside guarded fields = false ∧ ¬(d.verb = .fallback ∧ d.carriedBy fields = true) ∧
      ((guarded = false ∧ onesUser authorized fields = true ∧ d.lifetime = true ∧ d.cacheControl = true ∧
          f = (d.name, d.privateValue)) ∨
        (¬(guarded = false ∧ onesUser authorized fields = true ∧ d.lifetime = true) ∧ f = (d.name, d.value))) := by
  unfold FieldDecision.adds
  split
  · next h =>
    rw [Bool.or_eq_true, decide_eq_true_eq] at h
    simp only [reduceCtorEq, false_iff]
    rintro ⟨h₁, h₂, -⟩
    rcases h with h | h
    · exact h₁ h
    · rw [h] at h₂; cases h₂
  · next h =>
    rw [Bool.or_eq_true, decide_eq_true_eq, not_or, Bool.not_eq_true] at h
    rw [and_iff_right h.1, and_iff_right h.2]
    split
    · next hf =>
      rw [Bool.and_eq_true, decide_eq_true_eq] at hf
      simp [hf]
    · next hf =>
      rw [Bool.and_eq_true, decide_eq_true_eq] at hf
      rw [and_iff_right hf]
      split
      · next hp =>
        rw [Bool.and_eq_true, Bool.and_eq_true, Bool.not_eq_true'] at hp
        cases hc : d.cacheControl with
        | true => simp [hp, eq_comm]
        | false => simp [hp]
      · next hp =>
        rw [Bool.and_eq_true, Bool.and_eq_true, Bool.not_eq_true', and_assoc] at hp
        constructor
        · intro he
          exact .inr ⟨hp, (Option.some.inj he).symm⟩
        · rintro (he | he)
          · exact absurd ⟨he.1, he.2.1, he.2.2.1⟩ hp
          · rw [he.2]

theorem adds_name (h : d.adds guarded authorized fields = some f) : f.1 = d.name := by
  rcases (adds_iff.mp h).2.2.2 with ⟨-, -, -, -, rfl⟩ | ⟨-, rfl⟩ <;> rfl

/-- A line added is a decision's, or the private one. -/
theorem mem_added (h : f ∈ addedLines hs guarded authorized fields) :
    (∃ d ∈ hs.fields, d.adds guarded authorized fields = some f) ∨
      (f = privateLine ∧ guarded = false ∧ onesUser authorized fields = true) := by
  obtain ⟨extra, hlines, hextra⟩ := addedLines_eq hs guarded authorized fields
  rw [hlines, List.mem_append, List.mem_filterMap] at h
  rcases h with h | h
  · exact .inl h
  rcases hextra with rfl | ⟨rfl, hu⟩
  · cases h
  · exact .inr ⟨List.mem_singleton.mp h, hu⟩

theorem added_of (hd : d ∈ hs.fields) (h : d.adds guarded authorized fields = some f) :
    f ∈ addedLines hs guarded authorized fields := by
  obtain ⟨extra, hlines, -⟩ := addedLines_eq hs guarded authorized fields
  rw [hlines]
  exact List.mem_append_left _ (List.mem_filterMap.mpr ⟨d, hd, h⟩)

/-- What is not left aside has not given way. -/
theorem not_yields_of_aside (h : d.aside false fields = false) : d.yields fields = false ∧ d.ownOnly = false := by
  unfold FieldDecision.aside at h
  simp only [Bool.false_and, Bool.false_or, Bool.not_false, Bool.true_and, Bool.or_eq_false_iff] at h
  exact ⟨h.2, h.1⟩

/-- A cache decision that applies holds what the application said. -/
theorem covers_of_not_yields (hk : (d.cacheField || d.expires) = true) (h : d.yields fields = false)
    (hown : d.ownOnly = false) (hf : ¬(d.verb = .fallback ∧ d.carriedBy fields = true))
    (hr : ¬(d.verb = .remove ∧ d.carriedBy fields = false)) :
    d.restricts.covers (d.against fields) = true := by
  have hf' : (decide (d.verb = .fallback) && d.carriedBy fields) = false := by
    rw [Bool.eq_false_iff, ne_eq, Bool.and_eq_true, decide_eq_true_eq]
    exact hf
  have hr' : (decide (d.verb = .remove) && !d.carriedBy fields) = false := by
    rw [Bool.eq_false_iff, ne_eq, Bool.and_eq_true, decide_eq_true_eq, Bool.not_eq_true']
    exact hr
  unfold FieldDecision.yields at h
  rw [hk, hown, hf', hr'] at h
  simp only [Bool.not_false, Bool.true_and, Bool.and_eq_false_iff, Bool.not_eq_false'] at h
  rcases h with h | h
  · exact Restrictions.covers_of_not_any h
  · exact h

end Adds

/-! ## §4. The restrictions stand. -/

section Stands

variable {hs : HeaderSet} {fields : List Field} {guarded authorized : Bool} {d : FieldDecision} {n : Bytes}

/-- A field no decision drops is sent, but for the guard. -/
theorem mem_sent_of_kept {f : Field} (hf : f ∈ fields)
    (h : ∀ d ∈ hs.fields, d.named f.1 = true → d.aside false fields = true ∨ d.verb = .fallback) :
    f ∈ sentAnswer hs false authorized fields := by
  unfold sentAnswer
  refine List.mem_append_left _ (List.mem_append_left _ ?_)
  simp only [Bool.false_eq_true, if_false]
  rw [keptFields_eq]
  refine List.mem_filter.mpr ⟨hf, List.all_eq_true.mpr fun d hd => ?_⟩
  cases hn : d.named f.1 with
  | false => rfl
  | true =>
    rcases h d hd hn with h | h
    · rw [h]; rfl
    · rw [h]; simp

theorem mem_sent_of_added {f : Field} (hf : f ∈ addedLines hs guarded authorized fields) :
    f ∈ sentAnswer hs guarded authorized fields := by
  unfold sentAnswer
  exact List.mem_append_left _ (List.mem_append_right _ hf)

/-- What a cache decision answers to holds the restrictions of its own field. -/
theorem bitsOf_sub_against (fields : List Field) (hk : d.cacheField = true) (hn : d.named n = true) :
    (bitsOf fields fun m => iequals m n).Sub (d.against fields) := by
  unfold FieldDecision.against
  have hname : ∀ f : Field, iequals f.1 n = true → iequals d.name f.1 = true := by
    intro f hf
    exact iequals_iff.mpr ((iequals_iff.mp hn).trans (iequals_iff.mp hf).symm)
  cases hc : d.cacheControl with
  | true =>
    rw [if_pos rfl]
    refine bitsOf_sub fun f hf hfn => ⟨hf, ?_⟩
    rw [← iequals_congr (hname f hfn)]
    exact hc
  | false =>
    have hshared : sharedOnlyField d.name = true := by
      unfold FieldDecision.cacheField at hk
      rw [hc, Bool.false_or] at hk
      exact hk
    have hexp : d.expires = false := by
      by_contra h
      rw [Bool.not_eq_false] at h
      rw [not_shared_of_expires h] at hshared
      cases hshared
    simp only [hexp, Bool.false_eq_true, if_false]
    refine Restrictions.Sub.trans ?_ (Restrictions.sub_union_left _ _)
    refine bitsOf_sub fun f hf hfn => ⟨hf, ?_⟩
    rw [← sharedOnlyField_congr (hname f hfn)]
    exact hshared

/-- A lifetime holds no restriction. -/
theorem not_any_of_lifetime (hk : d.cacheField = true) (hl : d.lifetime = true) : d.restricts.any = false := by
  unfold FieldDecision.lifetime at hl
  rw [Bool.and_eq_true, decide_eq_true_eq] at hl
  obtain ⟨hv, hl⟩ := hl
  rw [hk, if_pos rfl] at hl
  split at hl
  · unfold sharedLifetime at hl
    rw [Bool.and_eq_true, Bool.not_eq_true'] at hl
    unfold FieldDecision.restricts
    rw [if_neg hv]
    exact hl.1
  · rw [Bool.not_eq_true'] at hl
    exact hl

/-- **The restrictions of a field stand**: it is kept, or a rule's line in its place holds them. -/
theorem name_restricted (hkind : (iequals n cacheControlName || sharedOnlyField n) = true) :
    (bitsOf (sentAnswer hs false authorized fields) fun m => iequals m n).covers
      (bitsOf fields fun m => iequals m n) = true := by
  by_cases hkeep : ∀ d ∈ hs.fields, d.named n = true → d.aside false fields = true ∨ d.verb = .fallback
  · -- every copy goes out
    refine Restrictions.covers_mono (Restrictions.covers_refl _) ?_ (Restrictions.Sub.refl _)
    refine bitsOf_sub fun f hf hfn => ⟨mem_sent_of_kept hf fun d hd hdn => hkeep d hd ?_, hfn⟩
    exact iequals_iff.mpr ((iequals_iff.mp hdn).trans (iequals_iff.mp hfn))
  · push Not at hkeep
    obtain ⟨d, hd, hdn, haside, hverb⟩ := hkeep
    obtain ⟨hyields, hown⟩ := not_yields_of_aside (Bool.eq_false_iff.mpr haside)
    have hcache : d.cacheField = true := by
      unfold FieldDecision.cacheField FieldDecision.cacheControl
      rw [iequals_congr hdn, sharedOnlyField_congr hdn]
      exact hkind
    have hsub := bitsOf_sub_against fields hcache hdn
    by_cases hremove : d.verb = .remove ∧ d.carriedBy fields = false
    · -- nothing of this name was there
      have hnone : ∀ f ∈ fields, d.named f.1 = false := by
        intro f hf
        have := hremove.2
        unfold FieldDecision.carriedBy at this
        rw [List.any_eq_false] at this
        exact Bool.eq_false_iff.mpr (this f hf)
      have hempty : (bitsOf fields fun m => iequals m n).Sub {} := by
        refine unionOf_sub fun r hr => ?_
        obtain ⟨f, hf, -⟩ := List.mem_map.mp hr
        obtain ⟨hf, hfn⟩ := List.mem_filter.mp hf
        have := hnone f hf
        rw [FieldDecision.named, iequals_iff.mpr ((iequals_iff.mp hdn).trans (iequals_iff.mp hfn).symm)] at this
        cases this
      exact Restrictions.covers_mono (Restrictions.covers_refl {}) ⟨fun h => (Bool.false_ne_true h).elim, fun h => (Bool.false_ne_true h).elim,
        fun h => (Bool.false_ne_true h).elim⟩ hempty
    have hcovers := covers_of_not_yields (by rw [hcache]; rfl) hyields hown (fun h => hverb h.1) hremove
    by_cases hset : d.verb ≠ .remove ∧ ¬(onesUser authorized fields = true ∧ d.lifetime = true)
    · -- the rule's own line holds them
      have hadds : d.adds false authorized fields = some (d.name, d.value) :=
        adds_iff.mpr ⟨hset.1, Bool.eq_false_iff.mpr haside, fun h => hverb h.1, .inr ⟨fun h => hset.2 h.2, rfl⟩⟩
      have hline := mem_sent_of_added (added_of hd hadds)
      have hrestricts : d.restricts = restrictions d.value false := by
        unfold FieldDecision.restricts
        rw [if_neg hset.1]
      rw [hrestricts] at hcovers
      exact Restrictions.covers_mono hcovers
        ((restrictions_mono d.value).trans (sub_bitsOf hline hdn)) hsub
    · -- a line without a restriction stands only where there was none
      have hnone : d.restricts.any = false := by
        by_cases hv : d.verb = .remove
        · unfold FieldDecision.restricts
          rw [if_pos hv]
          rfl
        · have : onesUser authorized fields = true ∧ d.lifetime = true := by
            by_contra h
            exact hset ⟨hv, h⟩
          exact not_any_of_lifetime hcache this.2
      have hagainst := Restrictions.not_any_of_covers hcovers hnone
      refine Restrictions.covers_of_not_any ?_
      by_contra h
      rw [Bool.not_eq_false] at h
      rw [Restrictions.any_of_sub hsub h] at hagainst
      cases hagainst

end Stands

/-! ## §5. The lines of the rules. -/

section Lines

variable {hs : HeaderSet} {fields : List Field} {guarded authorized : Bool} {d : FieldDecision} {f : Field}

/-- Behind a password no cache decision adds a line. -/
theorem not_cacheField_of_adds (h : d.adds true authorized fields = some f) : d.cacheField = false := by
  have haside := (adds_iff.mp h).2.1
  unfold FieldDecision.aside at haside
  simp only [Bool.true_and, Bool.or_eq_false_iff] at haside
  exact haside.1.1

/-- **A rule's field for shared caches** holds what the application said to any of them. -/
theorem added_shared (hf : f ∈ addedLines hs guarded authorized fields) (hshared : sharedOnlyField f.1 = true) :
    (restrictions f.2 true).covers
      ((cdnOf fields).union (if fields.any fun g => iequals f.1 g.1 then {} else ccOf fields)) = true := by
  rcases mem_added hf with ⟨d, hd, hadds⟩ | ⟨rfl, -⟩
  · have hname := adds_name hadds
    rw [hname] at hshared
    have hcache : d.cacheField = true := by
      unfold FieldDecision.cacheField
      rw [hshared, Bool.or_true]
    cases guarded with
    | true =>
      rw [not_cacheField_of_adds hadds] at hcache
      cases hcache
    | false =>
      obtain ⟨hv, haside, hfall, hline⟩ := adds_iff.mp hadds
      obtain ⟨hyields, hown⟩ := not_yields_of_aside haside
      have hcc : d.cacheControl = false := by
        by_contra h
        rw [Bool.not_eq_false] at h
        rw [not_shared_of_cacheControl h] at hshared
        cases hshared
      have hexp : d.expires = false := by
        by_contra h
        rw [Bool.not_eq_false] at h
        rw [not_shared_of_expires h] at hshared
        cases hshared
      have hcovers := covers_of_not_yields (by rw [hcache]; rfl) hyields hown hfall (fun h => hv h.1)
      have hagainst : d.against fields =
          (cdnOf fields).union (if fields.any fun g => iequals f.1 g.1 then {} else ccOf fields) := by
        unfold FieldDecision.against FieldDecision.carriedBy FieldDecision.named
        rw [hcc, hexp, hname]
        rfl
      rcases hline with ⟨-, -, -, h, -⟩ | ⟨-, rfl⟩
      · rw [h] at hcc
        cases hcc
      rw [← hagainst]
      have hrestricts : d.restricts = restrictions d.value false := by
        unfold FieldDecision.restricts
        rw [if_neg hv]
      rw [hrestricts] at hcovers
      exact Restrictions.covers_mono hcovers (restrictions_mono d.value) (Restrictions.Sub.refl _)
  · cases hshared

/-- The value a lifetime gets on one user's answer keeps shared caches out. -/
theorem not_sharedLifetime_privateValue (hl : d.lifetime = true) (hc : d.cacheControl = true) :
    sharedLifetime d.privateValue = false := by
  have hany : ∀ v : Bytes, (restrictions v false).any = true → sharedLifetime v = false := by
    intro v hv
    unfold sharedLifetime
    rw [hv]
    rfl
  unfold FieldDecision.privateValue
  rw [hl, hc]
  rw [if_pos (show (true && true) = true from rfl)]
  dsimp only
  split
  · decide
  refine hany _ ?_
  unfold Restrictions.any
  rw [restrictions_private]
  simp

/-- **One user's answer** gets no line that lets a shared cache keep it. -/
theorem added_personal (huser : onesUser authorized fields = true)
    (hf : f ∈ addedLines hs false authorized fields) :
    (iequals f.1 cacheControlName = true → sharedLifetime f.2 = false) ∧
      (sharedOnlyField f.1 = true → (restrictions f.2 false).any = true) ∧
      (iequals f.1 expiresName = true → f.2 = bytes "0") := by
  rcases mem_added hf with ⟨d, hd, hadds⟩ | ⟨rfl, -⟩
  · obtain ⟨hv, -, -, hline⟩ := adds_iff.mp hadds
    rcases hline with ⟨-, -, hl, hc, rfl⟩ | ⟨hno, rfl⟩
    · refine ⟨fun _ => not_sharedLifetime_privateValue hl hc, ?_, ?_⟩
      · intro h
        rw [not_shared_of_cacheControl hc] at h
        cases h
      · intro h
        rw [not_expires_of_cacheControl hc] at h
        cases h
    · have hl : d.lifetime = false := by
        by_contra h
        rw [Bool.not_eq_false] at h
        exact hno ⟨rfl, huser, h⟩
      unfold FieldDecision.lifetime at hl
      rw [decide_eq_true hv, Bool.true_and] at hl
      refine ⟨?_, ?_, ?_⟩
      · intro h
        have hc : d.cacheControl = true := h
        rw [hc, if_pos rfl] at hl
        exact hl
      · intro h
        have hc : d.cacheControl = false := by
          by_contra hc
          rw [Bool.not_eq_false] at hc
          rw [not_shared_of_cacheControl hc] at h
          cases h
        have hcache : d.cacheField = true := by
          unfold FieldDecision.cacheField
          rw [show sharedOnlyField d.name = true from h, Bool.or_true]
        rw [hc, hcache, if_neg (by simp), if_pos rfl, Bool.not_eq_false'] at hl
        unfold FieldDecision.restricts at hl
        rw [if_neg hv] at hl
        exact hl
      · intro h
        have hexp : d.expires = true := h
        have hc : d.cacheControl = false := by
          by_contra hc
          rw [Bool.not_eq_false] at hc
          rw [not_expires_of_cacheControl hc] at h
          cases h
        have hcache : d.cacheField = false := by
          unfold FieldDecision.cacheField
          rw [hc, not_shared_of_expires h]
          rfl
        rw [hc, hcache, if_neg (by simp), if_neg (by simp), hexp, Bool.true_and, decide_eq_false_iff_not, not_not] at hl
        exact hl
  · decide

/-- An Expires of the rules goes out, exactly when nothing restricts or it is let past. -/
theorem adds_expires_iff (hd : d.expires = true) : (∃ f, d.adds guarded authorized fields = some f) ↔
    d.verb ≠ .remove ∧ d.ownOnly = false ∧ ¬(d.verb = .fallback ∧ d.carriedBy fields = true) ∧
      (guarded = true ∨ ((((ccOf fields).union (cdnOf fields)).any = true →
            d.restricts.covers ((ccOf fields).union (cdnOf fields)) = true) ∧
          ¬(onesUser authorized fields = true ∧ d.lifetime = true))) := by
  have hc : d.cacheControl = false := by
    by_contra h
    rw [Bool.not_eq_false] at h
    have h' : d.expires = false := not_expires_of_cacheControl h
    rw [h'] at hd
    cases hd
  have hcache : d.cacheField = false := by
    unfold FieldDecision.cacheField
    rw [hc, not_shared_of_expires hd]
    rfl
  have hagainst : d.against fields = (ccOf fields).union (cdnOf fields) := by
    unfold FieldDecision.against
    rw [hc, hd]
    rfl
  constructor
  · rintro ⟨f, h⟩
    obtain ⟨hv, haside, hfall, hline⟩ := adds_iff.mp h
    cases guarded with
    | true =>
      unfold FieldDecision.aside at haside
      simp only [Bool.or_eq_false_iff] at haside
      exact ⟨hv, haside.1.2, hfall, .inl rfl⟩
    | false =>
      obtain ⟨hyields, hown⟩ := not_yields_of_aside haside
      have hcovers := covers_of_not_yields (by rw [hd, Bool.or_true]) hyields hown hfall (fun h => hv h.1)
      rw [hagainst] at hcovers
      refine ⟨hv, hown, hfall, .inr ⟨fun _ => hcovers, ?_⟩⟩
      rcases hline with ⟨-, -, -, h, -⟩ | ⟨h, -⟩
      · rw [h] at hc
        cases hc
      · exact fun hp => h ⟨rfl, hp⟩
  · rintro ⟨hv, hown, hfall, hrest⟩
    have haside : d.aside guarded fields = false := by
      unfold FieldDecision.aside
      rw [hcache, hown, Bool.and_false]
      rcases hrest with rfl | ⟨hcov, -⟩
      · rfl
      -- the value is taken to hold what there is
      have : d.yields fields = false := by
        unfold FieldDecision.yields
        rw [hagainst]
        cases hany : ((ccOf fields).union (cdnOf fields)).any with
        | false => simp
        | true => rw [hcov hany]; simp
      rw [this]
      simp
    refine ⟨(d.name, d.value), adds_iff.mpr ⟨hv, haside, hfall, .inr ⟨?_, rfl⟩⟩⟩
    rintro ⟨hg, hp⟩
    rcases hrest with h | h
    · rw [hg] at h
      cases h
    · exact h.2 hp

/-- **No Expires over a restriction**, exactly when each one the rules hold fits. -/
theorem added_expires_iff : (∀ f ∈ addedLines hs guarded authorized fields, iequals f.1 expiresName = true →
    ((ccOf fields).union (cdnOf fields)).any = false) ↔ ExpiresFits hs guarded authorized fields := by
  constructor
  · intro h d hd hexp hv hown hfall hany
    by_contra hno
    have hgoes : guarded = true ∨ (d.restricts.covers ((ccOf fields).union (cdnOf fields)) = true ∧
        onesUser authorized fields = false) := by
      cases guarded with
      | true => exact .inl rfl
      | false =>
        rw [and_iff_right rfl, Classical.not_imp, Bool.not_eq_true] at hno
        exact .inr hno
    have hadds : ∃ f, d.adds guarded authorized fields = some f := by
      refine (adds_expires_iff hexp).mpr ⟨hv, hown, hfall, hgoes.imp_right ?_⟩
      rintro ⟨hcov, huser⟩
      refine ⟨fun _ => hcov, fun hp => ?_⟩
      rw [huser] at hp
      cases hp.1
    obtain ⟨f, hadds⟩ := hadds
    have hname : iequals f.1 expiresName = true := by
      rw [adds_name hadds]
      exact hexp
    rw [h f (added_of hd hadds) hname] at hany
    cases hany
  · intro hfits f hf hname
    rcases mem_added hf with ⟨d, hd, hadds⟩ | ⟨rfl, -⟩
    · have hexp : d.expires = true := by
        rw [adds_name hadds] at hname
        exact hname
      obtain ⟨hv, hown, hfall, hrest⟩ := (adds_expires_iff hexp).mp ⟨f, hadds⟩
      by_contra hany
      rw [Bool.not_eq_false] at hany
      obtain ⟨hg, huser⟩ := hfits d hd hexp hv hown hfall hany
      rcases hrest with h | ⟨hcov, hlife⟩
      · rw [hg] at h
        cases h
      -- a value that holds a restriction is not `0`, so it is a lifetime
      refine hlife ⟨huser (hcov hany), ?_⟩
      have hvalue : d.value ≠ bytes "0" := by
        intro h0
        have hzero : d.restricts.any = false := by
          unfold FieldDecision.restricts
          rw [if_neg hv, h0]
          decide
        rw [Restrictions.not_any_of_covers (hcov hany) hzero] at hany
        cases hany
      have hc : d.cacheControl = false := by
        by_contra hc
        rw [Bool.not_eq_false] at hc
        have h' : d.expires = false := not_expires_of_cacheControl hc
        rw [h'] at hexp
        cases hexp
      have hcache : d.cacheField = false := by
        unfold FieldDecision.cacheField
        rw [hc, not_shared_of_expires hexp]
        rfl
      unfold FieldDecision.lifetime
      rw [hc, hcache, hexp]
      simp [hv, hvalue]
    · cases hname

end Lines

/-! ## §6. The guard's line. -/

section Guard

variable {hs : HeaderSet} {fields : List Field} {authorized : Bool}

theorem directivesFrom_ne_nil : ∀ (fuel : Nat) (v : Bytes), ∀ d ∈ directivesFrom fuel v, d ≠ [] := by
  intro fuel
  induction fuel with
  | zero => intro v d hd; cases hd
  | succ fuel ih =>
    intro v d hd
    cases v with
    | nil => cases hd
    | cons c cs =>
      unfold directivesFrom at hd
      rw [List.mem_append] at hd
      rcases hd with hd | hd
      · split at hd
        · cases hd
        · next hne => rwa [List.mem_singleton.mp hd]
      · exact ih _ d hd

/-- The directives a protected answer keeps. -/
def guardDirectives (fields : List Field) : List Bytes :=
  (fields.filter fun f => iequals f.1 cacheControlName).flatMap fun f => (directives f.2).filter keptDirective

/-- Joining, with something there already. -/
theorem foldl_join (ds : List Bytes) : ∀ k : Bytes, k ≠ [] →
    ds.foldl (fun k d => if k = [] then d else k ++ bytes ", " ++ d) k = k ++ ds.flatMap fun d => bytes ", " ++ d := by
  induction ds with
  | nil => intro k _; simp
  | cons d ds ih =>
    intro k hk
    have hne : k ++ bytes ", " ++ d ≠ [] := by simp [hk]
    rw [List.foldl_cons, if_neg hk, ih _ hne]
    simp

theorem foldl_keepDirectives (fs : List Field) : ∀ k : Bytes, fs.foldl (fun k f => keepDirectives f.2 k) k =
      (fs.flatMap fun f => (directives f.2).filter keptDirective).foldl
        (fun k d => if k = [] then d else k ++ bytes ", " ++ d) k := by
  induction fs with
  | nil => intro k; rfl
  | cons f fs ih =>
    intro k
    rw [List.foldl_cons, ih, List.flatMap_cons, List.foldl_append]
    rfl

/-- The guard's line: private, then what was kept. -/
theorem guardLine_eq (fields : List Field) : guardLine fields =
    (bytes "Cache-Control", bytes "private" ++ (guardDirectives fields).flatMap fun d => bytes ", " ++ d) := by
  unfold guardLine
  rw [foldl_keepDirectives]
  have hmem : ∀ d ∈ guardDirectives fields, d ≠ [] := by
    intro d hd
    obtain ⟨f, -, hd⟩ := List.mem_flatMap.mp hd
    exact directivesFrom_ne_nil _ _ d (List.mem_filter.mp hd).1
  show (bytes "Cache-Control", bytes "private" ++ if (guardDirectives fields).foldl _ [] = [] then []
    else bytes ", " ++ (guardDirectives fields).foldl _ []) = _
  cases hg : guardDirectives fields with
  | nil => rfl
  | cons d ds =>
    have hd : d ≠ [] := hmem d (by rw [hg]; exact .head _)
    rw [List.foldl_cons, if_pos rfl, foldl_join ds d hd, if_neg (by simp [hd])]
    simp

/-- What the guard leaves out is no restriction but private. -/
theorem restriction_dropped {d : Bytes} (h : keptDirective d = false) :
    (restriction true d).Sub (restriction true (bytes "private")) := by
  unfold keptDirective at h
  rw [Bool.not_eq_false', List.any_eq_true] at h
  obtain ⟨w, hw, hd⟩ := h
  have hstep : restriction true d = restriction true w := by
    have hname : directiveName w = w := by
      simp only [List.mem_cons, List.not_mem_nil, or_false] at hw
      rcases hw with rfl | rfl | rfl | rfl <;> decide
    unfold restriction
    rw [hname, iequals_congr hd, iequals_congr hd, iequals_congr hd]
    simp
  rw [hstep]
  simp only [List.mem_cons, List.not_mem_nil, or_false] at hw
  rcases hw with rfl | rfl | rfl | rfl <;> refine ⟨?_, ?_, ?_⟩ <;> decide

/-- The guard's line holds the restrictions there were. -/
theorem guard_covers (fields : List Field) :
    (unionOf ((bytes "private" :: guardDirectives fields).map (restriction true))).covers (ccOf fields) = true := by
  refine Restrictions.covers_mono (Restrictions.covers_refl _) (Restrictions.Sub.refl _) ?_
  refine unionOf_sub fun r hr => ?_
  obtain ⟨f, hf, rfl⟩ := List.mem_map.mp hr
  refine unionOf_sub fun r hr => ?_
  obtain ⟨d, hd, rfl⟩ := List.mem_map.mp hr
  cases hk : keptDirective d with
  | false =>
    exact (restriction_dropped hk).trans (sub_unionOf (List.mem_map_of_mem (.head _)))
  | true =>
    refine sub_unionOf (List.mem_map_of_mem (.tail _ ?_))
    exact List.mem_flatMap.mpr ⟨f, hf, List.mem_filter.mpr ⟨hd, hk⟩⟩

/-- Behind a password every cache field is left for the guard to read. -/
theorem kept_guarded {f : Field} (h : guardField f = true) :
    (hs.fields.all fun d => !d.named f.1 || d.aside true fields || d.verb = .fallback) = true := by
  refine List.all_eq_true.mpr fun d _ => ?_
  cases hn : d.named f.1 with
  | false => rfl
  | true =>
    have hcache : d.cacheField = true := by
      unfold FieldDecision.cacheField FieldDecision.cacheControl
      rw [iequals_congr hn, sharedOnlyField_congr hn]
      exact h
    have haside : d.aside true fields = true := by
      unfold FieldDecision.aside
      rw [hcache]
      rfl
    rw [haside]
    rfl

theorem guardLine_kept : guardLine (keptFields hs true authorized fields) = guardLine fields := by
  have hfilter : (keptFields hs true authorized fields).filter (fun f => iequals f.1 cacheControlName) =
      fields.filter fun f => iequals f.1 cacheControlName := by
    rw [keptFields_eq, List.filter_filter]
    refine List.filter_congr fun f _ => ?_
    cases hc : iequals f.1 cacheControlName with
    | false => rfl
    | true =>
      rw [kept_guarded (f := f) (by unfold guardField; rw [hc]; rfl)]
      rfl
  unfold guardLine
  rw [hfilter]

/-- **Behind a password** one cache field goes out, the guard's. -/
theorem sent_guard : (sentAnswer hs true authorized fields).filter guardField = [guardLine fields] := by
  unfold sentAnswer
  dsimp only
  rw [if_pos rfl, if_pos rfl, guardLine_kept, List.filter_append, List.filter_append, List.filter_filter]
  have hkept : (keptFields hs true authorized fields).filter (fun f => guardField f && !guardField f) = [] := by
    refine List.filter_eq_nil_iff.mpr fun f _ => ?_
    simp
  have hadded : (addedLines hs true authorized fields).filter guardField = [] := by
    refine List.filter_eq_nil_iff.mpr fun f hf => ?_
    rcases mem_added hf with ⟨d, hd, hadds⟩ | ⟨-, h, -⟩
    · have hcache := not_cacheField_of_adds hadds
      unfold guardField
      rw [adds_name hadds]
      unfold FieldDecision.cacheField FieldDecision.cacheControl at hcache
      rw [hcache]
      simp
    · cases h
  have hline : guardField (guardLine fields) = true := by
    rw [guardLine_eq]
    rfl
  rw [hkept, hadded, List.filter_cons_of_pos hline]
  rfl

end Guard

/-! ## §7. Every other field. -/

section Others

variable {hs : HeaderSet} {fields : List Field} {guarded authorized : Bool} {d : FieldDecision}

/-- Among lines named by distinct decisions, one decision's are its own. -/
theorem filterMap_named {g : FieldDecision → Option Field} (hg : ∀ e f, g e = some f → f.1 = e.name) :
    ∀ {L : List FieldDecision}, (L.Pairwise fun a b => a.named b.name = false) → d ∈ L →
      (L.filterMap g).filter (fun f => d.named f.1) = (g d).toList := by
  intro L
  induction L with
  | nil => intro _ hd; cases hd
  | cons e L ih =>
    intro hL hd
    obtain ⟨he, hL⟩ := List.pairwise_cons.mp hL
    have hsplit : (e :: L).filterMap g = (g e).toList ++ L.filterMap g := by
      rw [List.filterMap_cons]
      cases g e <;> rfl
    rw [hsplit, List.filter_append]
    rcases List.mem_cons.mp hd with rfl | hd
    · have hself : (g d).toList.filter (fun f => d.named f.1) = (g d).toList := by
        refine List.filter_eq_self.mpr fun f hf => ?_
        rw [hg d f (Option.mem_toList.mp hf)]
        exact iequals_iff.mpr rfl
      have hrest : (L.filterMap g).filter (fun f => d.named f.1) = [] := by
        refine List.filter_eq_nil_iff.mpr fun f hf => ?_
        obtain ⟨a, ha, hfa⟩ := List.mem_filterMap.mp hf
        rw [hg a f hfa, he a ha]
        simp
      rw [hself, hrest, List.append_nil]
    · have hother : (g e).toList.filter (fun f => d.named f.1) = [] := by
        refine List.filter_eq_nil_iff.mpr fun f hf => ?_
        rw [hg e f (Option.mem_toList.mp hf), FieldDecision.named, iequals_comm]
        have := he d hd
        unfold FieldDecision.named at this
        rw [this]
        simp
      rw [hother, List.nil_append]
      exact ih hL hd

/-- The lines added on a name. -/
theorem added_named (hd : d ∈ hs.fields) (hcc : d.cacheControl = false) :
    (addedLines hs guarded authorized fields).filter (fun f => d.named f.1) =
      (d.adds guarded authorized fields).toList := by
  obtain ⟨extra, hlines, hextra⟩ := addedLines_eq hs guarded authorized fields
  have hnone : extra.filter (fun f => d.named f.1) = [] := by
    refine List.filter_eq_nil_iff.mpr fun f hf => ?_
    rcases hextra with rfl | ⟨rfl, -⟩
    · cases hf
    rw [List.mem_singleton.mp hf, FieldDecision.named, iequals_comm,
      iequals_congr (b := cacheControlName) (by decide), iequals_comm]
    unfold FieldDecision.cacheControl at hcc
    rw [show cacheControlName = bytes "cache-control" from rfl, hcc]
    simp
  rw [hlines, List.filter_append, hnone, List.append_nil]
  exact filterMap_named (fun e f h => adds_name h) hs.distinct hd

/-- The application's fields of a name that goes out as the decision says. -/
theorem kept_named (hd : d ∈ hs.fields) :
    (keptFields hs guarded authorized fields).filter (fun f => d.named f.1) =
      if d.aside guarded fields || d.verb = .fallback then fields.filter fun f => d.named f.1 else [] := by
  rw [keptFields_eq, List.filter_filter]
  -- on a field of this name the one decision is `d`
  have hiff : ∀ f : Field, d.named f.1 = true →
      (hs.fields.all fun e => !e.named f.1 || e.aside guarded fields || e.verb = .fallback) =
        (d.aside guarded fields || d.verb = .fallback) := by
    intro f hn
    rw [Bool.eq_iff_iff, List.all_eq_true]
    constructor
    · intro h
      have := h d hd
      rw [hn] at this
      exact this
    · intro h e he
      cases hen : e.named f.1 with
      | false => rfl
      | true =>
        obtain ⟨i, hi⟩ := List.mem_iff_getElem?.mp he
        obtain ⟨j, hj⟩ := List.mem_iff_getElem?.mp hd
        have hij := hs.eq_of_named hi hj (iequals_iff.mpr ((iequals_iff.mp hen).trans (iequals_iff.mp hn).symm))
        rw [hij, hj] at hi
        cases hi
        exact h
  split
  · next h =>
    refine List.filter_congr fun f _ => ?_
    cases hn : d.named f.1 with
    | false => rfl
    | true => rw [hiff f hn, h]; rfl
  · next h =>
    refine List.filter_eq_nil_iff.mpr fun f _ => ?_
    rw [Bool.and_eq_true]
    rintro ⟨hn, hall⟩
    rw [hiff f hn] at hall
    exact h hall

/-- **A field of the rules that caches do not read** is as its verb says. -/
theorem sent_copies (hd : d ∈ hs.fields) (hcache : d.cacheField = false) (hexp : d.expires = false) :
    (sentAnswer hs guarded authorized fields).filter (fun f => d.named f.1) =
      if d.ownOnly then fields.filter fun f => d.named f.1
      else match d.verb with
        | .set => [(d.name, d.value)]
        | .remove => []
        | .fallback => if d.carriedBy fields then fields.filter fun f => d.named f.1 else [(d.name, d.value)] := by
  have hcc : d.cacheControl = false := by
    unfold FieldDecision.cacheField at hcache
    exact (Bool.or_eq_false_iff.mp hcache).1
  have haside : d.aside guarded fields = d.ownOnly := by
    unfold FieldDecision.aside FieldDecision.yields
    rw [hcache, hexp]
    simp
  have hlife : d.lifetime = false := by
    unfold FieldDecision.lifetime
    rw [hcc, hcache, hexp]
    simp
  have hadds : d.adds guarded authorized fields = if d.verb = .remove || d.ownOnly then none
      else if d.verb = .fallback && d.carriedBy fields then none else some (d.name, d.value) := by
    unfold FieldDecision.adds
    rw [haside, hlife]
    simp
  have hguard : ∀ f : Field, d.named f.1 = true → guardField f = false := by
    intro f hn
    unfold guardField
    rw [← sharedOnlyField_congr hn, ← iequals_congr hn]
    exact hcache
  -- the guard touches none of this name
  have hsent : (sentAnswer hs guarded authorized fields).filter (fun f => d.named f.1) =
      (keptFields hs guarded authorized fields).filter (fun f => d.named f.1) ++
        (d.adds guarded authorized fields).toList := by
    unfold sentAnswer
    rw [List.filter_append, List.filter_append, added_named hd hcc]
    cases guarded with
    | false => simp
    | true =>
      have hline : d.named (bytes "Cache-Control") = false := by
        rw [FieldDecision.named, iequals_comm, iequals_congr (b := cacheControlName) (by decide), iequals_comm]
        exact hcc
      rw [if_pos rfl, if_pos rfl, List.filter_filter, guardLine_eq, List.filter_cons_of_neg (by simp [hline])]
      have hsame : (keptFields hs true authorized fields).filter (fun f => d.named f.1 && !guardField f) =
          (keptFields hs true authorized fields).filter fun f => d.named f.1 := by
        refine List.filter_congr fun f _ => ?_
        cases hn : d.named f.1 with
        | false => rfl
        | true => rw [hguard f hn]; rfl
      rw [hsame]
      simp
  rw [hsent, kept_named hd, haside, hadds]
  have hnone : d.carriedBy fields = false → fields.filter (fun f => d.named f.1) = [] := by
    intro h
    unfold FieldDecision.carriedBy at h
    rw [List.any_eq_false] at h
    exact List.filter_eq_nil_iff.mpr h
  cases hown : d.ownOnly with
  | true => simp
  | false =>
    cases hv : d.verb with
    | set => simp
    | remove => simp
    | fallback =>
      cases hcar : d.carriedBy fields with
      | true => simp
      | false => simp [hnone hcar]

/-- A line of a decision is no undecided one. -/
theorem added_undecided (hs : HeaderSet) (guarded authorized : Bool) (fields : List Field) : ∃ own : List Field,
    (addedLines hs guarded authorized fields).filter (fun f => hs.undecided f.1) = own ∧
      (own = [] ∨ (own = [privateLine] ∧ guarded = false ∧ onesUser authorized fields = true)) := by
  obtain ⟨extra, hlines, hextra⟩ := addedLines_eq hs guarded authorized fields
  have hdecided : (hs.fields.filterMap (·.adds guarded authorized fields)).filter (fun f => hs.undecided f.1) = [] := by
    refine List.filter_eq_nil_iff.mpr fun f hf => ?_
    obtain ⟨d, hd, hadds⟩ := List.mem_filterMap.mp hf
    unfold HeaderSet.undecided
    rw [adds_name hadds, List.all_eq_true]
    intro h
    have hself : d.named d.name = true := iequals_iff.mpr rfl
    have := h d hd
    rw [hself] at this
    cases this
  refine ⟨_, rfl, ?_⟩
  rw [hlines, List.filter_append, hdecided, List.nil_append]
  rcases hextra with rfl | ⟨rfl, hu⟩
  · exact .inl rfl
  rw [List.filter_cons]
  split
  · exact .inr ⟨rfl, hu⟩
  · exact .inl rfl

/-- What no decision names is kept, in order. -/
theorem kept_undecided (hs : HeaderSet) (guarded authorized : Bool) (fields : List Field) (p : Field → Bool) :
    (keptFields hs guarded authorized fields).filter (fun f => hs.undecided f.1 && p f) =
      fields.filter fun f => hs.undecided f.1 && p f := by
  rw [keptFields_eq, List.filter_filter]
  refine List.filter_congr fun f _ => ?_
  cases hu : hs.undecided f.1 with
  | false => rfl
  | true =>
    have hall : (hs.fields.all fun d => !d.named f.1 || d.aside guarded fields || d.verb = .fallback) = true := by
      unfold HeaderSet.undecided at hu
      rw [List.all_eq_true] at hu ⊢
      intro d hd
      rw [hu d hd]
      rfl
    rw [hall, Bool.and_true]

theorem sent_others : ∃ own : List Field,
    (sentAnswer hs false authorized fields).filter (fun f => hs.undecided f.1) =
        fields.filter (fun f => hs.undecided f.1) ++ own ∧
      (own = [] ∨ (own = [privateLine] ∧ onesUser authorized fields = true)) := by
  obtain ⟨own, hown, hcase⟩ := added_undecided hs false authorized fields
  refine ⟨own, ?_, hcase.imp_right fun h => ⟨h.1, h.2.2⟩⟩
  have hkept := kept_undecided hs false authorized fields fun _ => true
  simp only [Bool.and_true] at hkept
  unfold sentAnswer
  simp only [Bool.false_eq_true, if_false, List.append_nil]
  rw [List.filter_append, hkept, hown]

theorem sent_others_guarded :
    (sentAnswer hs true authorized fields).filter (fun f => hs.undecided f.1 && !guardField f) =
      fields.filter fun f => hs.undecided f.1 && !guardField f := by
  obtain ⟨own, hown, hcase⟩ := added_undecided hs true authorized fields
  have hempty : own = [] := by
    rcases hcase with h | ⟨-, h, -⟩
    · exact h
    · cases h
  have hadded : (addedLines hs true authorized fields).filter (fun f => hs.undecided f.1 && !guardField f) = [] := by
    rw [← List.filter_filter, List.filter_comm, hown, hempty]
    rfl
  have hline : guardField (guardLine (keptFields hs true authorized fields)) = true := by
    rw [guardLine_eq]
    rfl
  unfold sentAnswer
  dsimp only
  rw [if_pos rfl, if_pos rfl, List.filter_append, List.filter_append, hadded,
    List.filter_cons_of_neg (by simp [hline]), List.filter_filter]
  have hsame : (fun f : Field => hs.undecided f.1 && !guardField f && !guardField f) =
      fun f => hs.undecided f.1 && !guardField f := by
    funext f
    rw [Bool.and_assoc, Bool.and_self]
  rw [hsame, kept_undecided]
  simp

end Others

/-! ## §8. Nothing is loosened. -/

/-- **No rule loosens what an application says to caches**, whatever the rules and the answer,
    exactly when no Expires of a rule goes out over a restriction. -/
theorem answer_restricted_iff (hs : HeaderSet) (guarded authorized : Bool) (fields : List Field) :
    Restricted hs guarded authorized fields ↔ ExpiresFits hs guarded authorized fields := by
  constructor
  · intro h
    exact added_expires_iff.mp h.expires
  · intro h
    refine
      { stands := ?_, guard := ?_, shared := fun f hf => added_shared hf, expires := added_expires_iff.mpr h
        personal := ?_, copies := fun d hd => sent_copies hd, others := ?_, othersGuarded := ?_ }
    · rintro rfl n hn
      exact name_restricted hn
    · rintro rfl
      exact ⟨guardDirectives fields, by rw [sent_guard, guardLine_eq], guard_covers fields⟩
    · rintro rfl huser f hf
      exact added_personal huser hf
    · rintro rfl
      exact sent_others
    · rintro rfl
      exact sent_others_guarded

namespace Demo

/-- A site whose one rule sets an Expires. -/
def expiresRules (value : Bytes) : List HeaderRule :=
  [{ path := [slash], successOnly := true, set := [(bytes "Expires", value)] }]

/-- What its pages get. -/
def expiresSet (value : Bytes) : HeaderSet := .filled (expiresRules value) [⟨[slash], false⟩] true none

/-- The answer of an application that keeps shared caches out. -/
def privateAnswer : List Field := [(bytes "Cache-Control", bytes "private")]

end Demo

/-- **An Expires over a restriction**: one spelt like a restriction, on an open path; and any date,
    behind a password. -/
theorem expires_added_over_private :
    (∃ s : LoadedRules, (lookupNode (buildNodes s.rules) (bytes "/a")).map (·.success) =
        some (Demo.expiresSet (bytes "no-store, private")).fields ∧
      ¬ Restricted (Demo.expiresSet (bytes "no-store, private")) false false Demo.privateAnswer) ∧
    (∃ s : LoadedRules, (lookupNode (buildNodes s.rules) (bytes "/a")).map (·.success) =
        some (Demo.expiresSet (bytes "Fri, 01 Jan 2038 00:00:00 GMT")).fields ∧
      ¬ Restricted (Demo.expiresSet (bytes "Fri, 01 Jan 2038 00:00:00 GMT")) true false Demo.privateAnswer) := by
  refine ⟨⟨⟨Demo.expiresRules (bytes "no-store, private"), .off, by decide, by decide⟩, by decide, fun h => ?_⟩,
    ⟨⟨Demo.expiresRules (bytes "Fri, 01 Jan 2038 00:00:00 GMT"), .off, by decide, by decide⟩, by decide,
      fun h => ?_⟩⟩
  · cases h.expires (bytes "Expires", bytes "no-store, private") (by decide) (by decide)
  · exact absurd (h.expires (bytes "Expires", bytes "Fri, 01 Jan 2038 00:00:00 GMT") (by decide) (by decide))
      (by decide)

end Agensio.Response
