import Mathlib.Data.List.Induction

/-!
# Runs of a labelled transition relation

A system is a relation `step : σ → ℓ → σ → Prop` between states, each step carrying a label.
`Run step s ls t` says that the steps labelled `ls`, taken in this order, lead from `s` to `t`.

Six rules carry an induction over a run, so that no proof about a system has to do it again:

* `Run.invariant` — what every step preserves holds at the end of a run that starts with it;
* `Run.invariant_labels` — the same for a fact about the state *and* the labels so far, for
  statements that compare what happened with where it led;
* `Run.of_guarded` — a run of `Guarded G step` is a run of `step` whose every step meets the
  condition `G` on the state it starts in and its label;
* `Run.not_iff_guarded` — a fact that is never lost fails at the end of exactly those runs that
  start without it and establish it nowhere;
* `Run.iff_since` — a fact that the labels establish and undo holds at the end of exactly those runs
  that established it and did not undo it since;
* `Run.iff_since_guarded` — the same where it depends on the state whether a step undoes it.

`Run.of_allAlong` builds runs of systems in which the label determines the next state, and
`Run.simulate` matches the runs of one system by runs of another, label by label.

Nothing here knows what the states and labels are.
-/

set_option autoImplicit false

namespace Runs

variable {σ ℓ : Type*} {step : σ → ℓ → σ → Prop} {s t u : σ} {l : ℓ} {ls ls' : List ℓ}

/-- `Run step s ls t`: the steps labelled `ls`, in this order, lead from `s` to `t`. -/
inductive Run (step : σ → ℓ → σ → Prop) : σ → List ℓ → σ → Prop
  | nil (s : σ) : Run step s [] s
  | cons {s t u : σ} {l : ℓ} {ls : List ℓ} (h : step s l t) (hr : Run step t ls u) :
      Run step s (l :: ls) u

/-- The steps of `step` that meet the condition `G` on the state they start in and their label. -/
def Guarded (G : σ → ℓ → Prop) (step : σ → ℓ → σ → Prop) (s : σ) (l : ℓ) (t : σ) : Prop :=
  G s l ∧ step s l t

/-- Some label is in `A`, and none of those after it in `B`. -/
def Since (A B : ℓ → Prop) (ls : List ℓ) : Prop :=
  ∃ before l after, ls = before ++ l :: after ∧ A l ∧ ∀ l' ∈ after, ¬ B l'

theorem not_since_nil {A B : ℓ → Prop} : ¬ Since A B [] := by
  rintro ⟨before, l, after, heq, -⟩
  exact absurd heq (by simp)

theorem since_snoc {A B : ℓ → Prop} : Since A B (ls ++ [l]) ↔ A l ∨ (Since A B ls ∧ ¬ B l) := by
  constructor
  · rintro ⟨before, l', after, heq, hA, hB⟩
    rcases List.eq_nil_or_concat after with rfl | ⟨after, l'', rfl⟩
    · obtain ⟨-, hl⟩ := List.append_inj' heq rfl
      obtain rfl : l = l' := by simpa using hl
      exact Or.inl hA
    · rw [List.concat_eq_append] at heq hB
      rw [← List.cons_append, ← List.append_assoc] at heq
      obtain ⟨rfl, hl⟩ := List.append_inj' heq rfl
      obtain rfl : l = l'' := by simpa using hl
      obtain ⟨hB, hl⟩ := List.forall_mem_append.mp hB
      exact Or.inr ⟨⟨before, l', after, rfl, hA, hB⟩, hl l (List.mem_singleton_self l)⟩
  · rintro (hA | ⟨⟨before, l', after, rfl, hA, hB⟩, hl⟩)
    · exact ⟨ls, l, [], rfl, hA, List.forall_mem_nil _⟩
    · refine ⟨before, l', after ++ [l], by simp, hA, List.forall_mem_append.mpr ⟨hB, ?_⟩⟩
      exact fun l'' hl'' ↦ List.mem_singleton.mp hl'' ▸ hl

namespace Run

theorem append (h : Run step s ls t) (h' : Run step t ls' u) : Run step s (ls ++ ls') u := by
  induction h with
  | nil => exact h'
  | cons hs _ ih => exact .cons hs (ih h')

/-- A run can be extended by one step at its end. -/
theorem snoc (h : Run step s ls t) (hs : step t l u) : Run step s (ls ++ [l]) u :=
  h.append (.cons hs (.nil u))

/-- A run of one step is that step. -/
theorem singleton_iff : Run step s [l] t ↔ step s l t := by
  constructor
  · rintro (_ | ⟨hst, _ | _⟩)
    exact hst
  · exact fun hst ↦ .cons hst (.nil t)

theorem append_iff : Run step s (ls ++ ls') u ↔ ∃ t, Run step s ls t ∧ Run step t ls' u := by
  constructor
  · intro h
    induction ls generalizing s with
    | nil => exact ⟨s, .nil s, h⟩
    | cons l ls ih =>
      cases h with
      | cons hs hr =>
        obtain ⟨t, h1, h2⟩ := ih hr
        exact ⟨t, .cons hs h1, h2⟩
  · rintro ⟨t, h1, h2⟩
    exact h1.append h2

theorem mono {step' : σ → ℓ → σ → Prop} (hle : ∀ s l t, step s l t → step' s l t)
    (h : Run step s ls t) : Run step' s ls t := by
  induction h with
  | nil s => exact .nil s
  | cons hs _ ih => exact .cons (hle _ _ _ hs) ih

/-- **The invariant rule.**  What every step preserves is preserved by every run. -/
theorem invariant {I : σ → Prop} (hstep : ∀ s l t, I s → step s l t → I t)
    (h : Run step s ls t) (hs : I s) : I t := by
  induction h with
  | nil => exact hs
  | cons hst _ ih => exact ih (hstep _ _ _ hs hst)

/-- The invariant rule for a fact about the state and the labels taken so far. -/
theorem invariant_labels {I : List ℓ → σ → Prop}
    (hstep : ∀ ls s l t, I ls s → step s l t → I (ls ++ [l]) t)
    (h : Run step s ls t) (hs : I [] s) : I ls t := by
  -- the induction is on the run, so the labels taken before it are a parameter
  have key : ∀ pre, I pre s → I (pre ++ ls) t := by
    clear hs
    induction h with
    | nil => intro pre hpre; simpa using hpre
    | @cons s t u l ls hst _ ih =>
      intro pre hpre
      simpa using ih (pre ++ [l]) (hstep pre s l t hpre hst)
  simpa using key [] hs

/-- To build a run step by step, its labels to be read off at the end. -/
theorem exists_cons (h : step s l t) (hr : ∃ ls, Run step t ls u) : ∃ ls, Run step s ls u := by
  obtain ⟨ls, hr⟩ := hr
  exact ⟨l :: ls, .cons h hr⟩

theorem exists_cons_guarded {G : σ → ℓ → Prop} (h : step s l t) (hg : G s l)
    (hr : ∃ ls, Run (Guarded G step) t ls u) : ∃ ls, Run (Guarded G step) s ls u :=
  exists_cons ⟨hg, h⟩ hr

theorem of_guarded {G : σ → ℓ → Prop} (h : Run (Guarded G step) s ls t) : Run step s ls t :=
  h.mono fun _ _ _ hg ↦ hg.2

/-- **For good.**  If a fact holds after a step exactly when it held before or the step establishes
it, it fails at the end of a run exactly when it fails at the start and no step establishes it. -/
theorem not_iff_guarded {q : σ → Prop} {U : σ → ℓ → Prop}
    (hq : ∀ s l t, step s l t → (q t ↔ U s l ∨ q s)) (h : Run step s ls t) :
    ¬ q t ↔ ¬ q s ∧ Run (Guarded (fun s l ↦ ¬ U s l) step) s ls t := by
  constructor
  · intro hnot
    induction h with
    | nil s => exact ⟨hnot, .nil s⟩
    | cons hst _ ih =>
      obtain ⟨hmid, hrest⟩ := ih hnot
      obtain ⟨hU, hs⟩ := not_or.mp ((hq _ _ _ hst).not.mp hmid)
      exact ⟨hs, .cons ⟨hU, hst⟩ hrest⟩
  · rintro ⟨hs, hrun⟩
    refine hrun.invariant (I := fun s ↦ ¬ q s) (fun s l t hnot hst hqt ↦ ?_) hs
    exact ((hq s l t hst.2).mp hqt).elim hst.1 hnot

/-- **The last-call rule.**  If a fact holds after a step exactly when the step's label is in `A`,
or it held before and the label is not in `B`, a run that starts without it ends with it exactly
when some label is in `A` and none after that one in `B`. -/
theorem iff_since {q : σ → Prop} {A B : ℓ → Prop}
    (hq : ∀ s l t, step s l t → (q t ↔ A l ∨ (q s ∧ ¬ B l))) (h : Run step s ls t) (hs : ¬ q s) :
    q t ↔ Since A B ls := by
  refine h.invariant_labels (I := fun ls s ↦ q s ↔ Since A B ls) (fun ls s l t hI hst ↦ ?_) ?_
  · rw [hq s l t hst, since_snoc, hI]
  · exact iff_of_false hs not_since_nil

/-- **The last-call rule, with states.**  If a fact holds after a step exactly when the step's label
is in `A`, or it held before and the step does not undo it, a run that starts without it ends with
it exactly when some step is labelled in `A` and none after that one undoes it. -/
theorem iff_since_guarded {q : σ → Prop} {A : ℓ → Prop} {B : σ → ℓ → Prop}
    (hq : ∀ s l t, step s l t → (q t ↔ A l ∨ (q s ∧ ¬ B s l))) (h : Run step s ls t) (hs : ¬ q s) :
    q t ↔ ∃ before l after u v, ls = before ++ l :: after ∧ Run step s before u ∧ step u l v ∧
      A l ∧ Run (Guarded (fun s l ↦ ¬ B s l) step) v after t := by
  constructor
  · refine (h.invariant_labels (I := fun ls t ↦ Run step s ls t ∧ (q t →
      ∃ before l after u v, ls = before ++ l :: after ∧ Run step s before u ∧ step u l v ∧
        A l ∧ Run (Guarded (fun s l ↦ ¬ B s l) step) v after t))
      (fun ls t l t' hI hst ↦ ⟨hI.1.snoc hst, fun hqt ↦ ?_⟩) ⟨.nil s, fun hq' ↦ absurd hq' hs⟩).2
    rcases (hq t l t' hst).mp hqt with hA | ⟨hqt, hB⟩
    · exact ⟨ls, l, [], t, t', rfl, hI.1, hst, hA, .nil t'⟩
    · obtain ⟨before, l', after, u, v, rfl, hbefore, hst', hA, hafter⟩ := hI.2 hqt
      exact ⟨before, l', after ++ [l], u, v, by simp, hbefore, hst', hA, hafter.snoc ⟨hB, hst⟩⟩
  · rintro ⟨before, l, after, u, v, -, -, hst, hA, hafter⟩
    refine hafter.invariant (I := q) (fun s l t hqs hst ↦ ?_) ((hq u l v hst).mpr (Or.inl hA))
    exact (hq s l t hst.2).mpr (Or.inr ⟨hqs, hst.1⟩)

/-- **The simulation rule.**  If from related states every step of one system is matched by a run of
another to related states, every run of the one is matched by a run of the other, step by step. -/
theorem simulate {τ κ : Type*} {step' : τ → κ → τ → Prop} {R : σ → τ → Prop}
    {M : ℓ → List κ → Prop}
    (hsim : ∀ s l t a, R s a → step s l t → ∃ ks b, M l ks ∧ Run step' a ks b ∧ R t b)
    (h : Run step s ls t) {a : τ} (ha : R s a) :
    ∃ kss b, List.Forall₂ M ls kss ∧ Run step' a kss.flatten b ∧ R t b := by
  induction h generalizing a with
  | nil s => exact ⟨[], a, .nil, .nil a, ha⟩
  | cons hst _ ih =>
    obtain ⟨ks, b, hm, hrun, hb⟩ := hsim _ _ _ a ha hst
    obtain ⟨kss, c, hms, hruns, hc⟩ := ih hb
    exact ⟨ks :: kss, c, .cons hm hms, hrun.append hruns, hc⟩

/-- A label of the matching run stands for a step, and the labels after it for the steps after. -/
theorem split_flatten {κ : Type*} {M : ℓ → List κ → Prop} {kss : List (List κ)} {es es' : List κ}
    {e : κ} (h : List.Forall₂ M ls kss) (heq : kss.flatten = es ++ e :: es') :
    ∃ ls₁ l ls₂ ks kss₂, ls = ls₁ ++ l :: ls₂ ∧ M l ks ∧ e ∈ ks ∧ List.Forall₂ M ls₂ kss₂ ∧
      kss₂.flatten ⊆ es' := by
  induction h generalizing es with
  | nil => exact absurd heq (by simp)
  | @cons l ks ls kss hm hms ih =>
    rw [List.flatten_cons, List.append_eq_append_iff] at heq
    rcases heq with ⟨rest, rfl, hrest⟩ | ⟨rest, hks, hrest⟩
    · -- the label comes after this step
      obtain ⟨ls₁, l', ls₂, ks', kss₂, rfl, hm', he, hms₂, hsub⟩ := ih hrest
      exact ⟨l :: ls₁, l', ls₂, ks', kss₂, rfl, hm', he, hms₂, hsub⟩
    · cases rest with
      | nil =>
        have hstart : kss.flatten = [] ++ e :: es' := hrest.symm
        obtain ⟨ls₁, l', ls₂, ks', kss₂, rfl, hm', he, hms₂, hsub⟩ := ih hstart
        exact ⟨l :: ls₁, l', ls₂, ks', kss₂, rfl, hm', he, hms₂, hsub⟩
      | cons e' rest =>
        obtain ⟨rfl, rfl⟩ := List.cons.inj hrest
        refine ⟨[], l, ls, ks, kss, rfl, hm, ?_, hms, List.subset_append_right _ _⟩
        rw [hks]
        exact List.mem_append_right es List.mem_cons_self

/-- A step is matched by some of the labels, what comes before it by the labels before, and what
comes after by the labels after. -/
theorem split_forall₂ {κ : Type*} {M : ℓ → List κ → Prop} {kss : List (List κ)}
    (h : List.Forall₂ M (ls ++ l :: ls') kss) :
    ∃ kss₁ ks kss₂, kss = kss₁ ++ ks :: kss₂ ∧ M l ks ∧ List.Forall₂ M ls' kss₂ := by
  induction ls generalizing kss with
  | nil =>
    cases h with
    | @cons _ ks _ kss hm hms => exact ⟨[], ks, kss, rfl, hm, hms⟩
  | cons l' ls ih =>
    cases h with
    | @cons _ ks' _ kss' _ hms =>
      obtain ⟨kss₁, ks, kss₂, rfl, hm, hms₂⟩ := ih hms
      exact ⟨ks' :: kss₁, ks, kss₂, rfl, hm, hms₂⟩

end Run

/-! ## Systems whose steps are a function

Where the label determines the next state, a run is determined by its labels. -/

/-- The condition `P` holds of every step when the labels are taken in order. -/
def AllAlong (P : σ → ℓ → Prop) (f : σ → ℓ → σ) : σ → List ℓ → Prop
  | _, [] => True
  | s, l :: ls => P s l ∧ AllAlong P f (f s l) ls

/-- The number of steps of which the test `P` holds when the labels are taken in order. -/
def countAlong (P : σ → ℓ → Bool) (f : σ → ℓ → σ) : σ → List ℓ → Nat
  | _, [] => 0
  | s, l :: ls => (if P s l then 1 else 0) + countAlong P f (f s l) ls

theorem Run.of_allAlong {P : σ → ℓ → Prop} {f : σ → ℓ → σ}
    (hstep : ∀ s l, P s l → step s l (f s l)) (h : AllAlong P f s ls) :
    Run step s ls (ls.foldl f s) := by
  induction ls generalizing s with
  | nil => exact .nil s
  | cons l ls ih => exact .cons (hstep s l h.1) (ih h.2)

/-- **A flag that some labels set.**  If the labels that `names` selects set the flag to `value` and
the others leave it alone, the flag is what the last of the former says. -/
theorem flag_foldl {f : σ → ℓ → σ} {q : σ → Bool} {names value : ℓ → Bool}
    (hq : ∀ s l, q (f s l) = if names l then value l else q s) (s : σ) (ls : List ℓ) :
    q (ls.foldl f s) = ((ls.filter names).getLast?.map value).getD (q s) := by
  induction ls using List.reverseRecOn with
  | nil => rfl
  | append_singleton ls l ih =>
    rw [List.foldl_append, List.foldl_cons, List.foldl_nil, hq, ih, List.filter_append]
    cases hl : names l with
    | true => simp [hl]
    | false => simp [hl]

/-- **As often up as down.**  A test that fails at the start comes to hold as often as it stops
holding, and once more if it holds at the end. -/
theorem countAlong_rises (f : σ → ℓ → σ) (q : σ → Bool) (s : σ) (ls : List ℓ) :
    countAlong (fun s l ↦ !q s && q (f s l)) f s ls + (q s).toNat =
      countAlong (fun s l ↦ q s && !q (f s l)) f s ls + (q (ls.foldl f s)).toNat := by
  induction ls generalizing s with
  | nil => rfl
  | cons l ls ih =>
    have hrest := ih (f s l)
    rw [List.foldl_cons, countAlong, countAlong]
    cases hq : q s <;> cases hq' : q (f s l) <;> simp [hq'] at hrest ⊢ <;> omega

/-- Two tests that agree are counted equally. -/
theorem countAlong_congr {P Q : σ → ℓ → Bool} {f : σ → ℓ → σ} (h : ∀ s l, P s l = Q s l) (s : σ)
    (ls : List ℓ) : countAlong P f s ls = countAlong Q f s ls := by
  obtain rfl : P = Q := funext₂ h
  rfl

end Runs
