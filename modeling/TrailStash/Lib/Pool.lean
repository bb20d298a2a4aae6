import Mathlib.Data.List.Basic
import Mathlib.Logic.Relation

/-!
# Tasks that interleave over a shared state

A `Pool` is a shared state and a list of tasks.  What one task can do on its own is given by a
relation `micro s t s' t'`: with the shared state `s`, a task in the local state `t` can take one
atomic step, which leaves the shared state `s'` and the task at `t'`.  `Pool.Fire` lets any one
task of the pool take such a step, so a sequence of `Fire`s is an arbitrary interleaving.

Invariants of a pool usually say that some task still *owes* something — `Pool.Any P p` — or that
every task satisfies something that depends on the shared state.  `Fired.any_or` and
`Fired.any_new` are what a step does to the first kind, `Fired.forall_tasks` is the non-interference
rule for the second: the task that moved has to re-establish its own assertion, and every other
task's has to survive the move.

`Alone` is the other extreme: one task running with nobody in between, which is how a function
that is modelled as one atomic step is compared with the steps it really consists of.
-/

set_option autoImplicit false

/-- A shared state and the tasks that work on it. -/
structure Pool (σ τ : Type*) where
  /-- What all tasks see. -/
  shared : σ
  /-- The tasks, each with its local state. -/
  tasks : List τ

namespace Pool

variable {σ τ : Type*} {micro : σ → τ → σ → τ → Prop} {p p' : Pool σ τ} {t : τ}

/-- Some task of the pool satisfies `P`. -/
def Any (P : τ → Prop) (p : Pool σ τ) : Prop := ∃ u ∈ p.tasks, P u

/-- Some task of the pool owes `d`, where `debt` reads off what a task owes. -/
def Owes {δ : Type*} (debt : τ → Option δ) (p : Pool σ τ) (d : δ) : Prop :=
  p.Any fun u ↦ debt u = some d

/-- A new task takes no debt away. -/
theorem Owes.cons {δ : Type*} {debt : τ → Option δ} {d : δ} {s s' : σ} {ts : List τ}
    (h : Owes debt ⟨s, ts⟩ d) (u : τ) : Owes debt ⟨s', u :: ts⟩ d := by
  obtain ⟨v, hv, hd⟩ := h
  exact ⟨v, List.mem_cons_of_mem u hv, hd⟩

theorem Owes.of_cons {δ : Type*} {debt : τ → Option δ} {d : δ} {s s' : σ} {ts : List τ} {u : τ}
    (h : Owes debt ⟨s', u :: ts⟩ d) : debt u = some d ∨ Owes debt ⟨s, ts⟩ d := by
  obtain ⟨v, hv, hd⟩ := h
  rcases List.mem_cons.mp hv with rfl | hv
  · exact Or.inl hd
  · exact Or.inr ⟨v, hv, hd⟩

/-- One task, `t` before the step, takes an atomic step. -/
inductive Fire (micro : σ → τ → σ → τ → Prop) : Pool σ τ → τ → Pool σ τ → Prop
  | intro {s s' : σ} {t t' : τ} (before after : List τ) (h : micro s t s' t') :
      Fire micro ⟨s, before ++ t :: after⟩ t ⟨s', before ++ t' :: after⟩

/-- What a step of the task `t`, after it `t'`, does to the pool as a whole. -/
structure Fired (micro : σ → τ → σ → τ → Prop) (p : Pool σ τ) (t : τ) (p' : Pool σ τ) (t' : τ) :
    Prop where
  /-- The step itself. -/
  micro : micro p.shared t p'.shared t'
  /-- The task was in the pool. -/
  mem : t ∈ p.tasks
  /-- It still is. -/
  mem' : t' ∈ p'.tasks
  /-- No other task is lost. -/
  keeps : ∀ u ∈ p.tasks, u = t ∨ u ∈ p'.tasks
  /-- No other task appears. -/
  news : ∀ u ∈ p'.tasks, u = t' ∨ u ∈ p.tasks
  /-- Of the tasks that pass a test, only the one that moved is counted differently. -/
  count : ∀ q : τ → Bool, p'.tasks.countP q + (q t).toNat = p.tasks.countP q + (q t').toNat

/-- A step in the middle of the list. -/
theorem Fired.intro {s s' : σ} {t' : τ} (before after : List τ) (h : micro s t s' t') :
    Fired micro ⟨s, before ++ t :: after⟩ t ⟨s', before ++ t' :: after⟩ t' := by
  refine ⟨h, by simp, by simp, fun u hu ↦ ?_, fun u hu ↦ ?_, fun q ↦ ?_⟩
  · simp only [List.mem_append, List.mem_cons] at hu ⊢
    rcases hu with hu | rfl | hu
    · exact Or.inr (Or.inl hu)
    · exact Or.inl rfl
    · exact Or.inr (Or.inr (Or.inr hu))
  · simp only [List.mem_append, List.mem_cons] at hu ⊢
    rcases hu with hu | rfl | hu
    · exact Or.inr (Or.inl hu)
    · exact Or.inl rfl
    · exact Or.inr (Or.inr (Or.inr hu))
  · simp only [List.countP_append, List.countP_cons]
    cases q t <;> cases q t' <;> simp <;> omega

theorem Fire.fired (h : Fire micro p t p') : ∃ t', Fired micro p t p' t' := by
  cases h with
  | intro before after h => exact ⟨_, .intro before after h⟩

/-- If at most one element of a list passes a test, any two that pass are the same. -/
theorem eq_of_countP_le_one {q : τ → Bool} {l : List τ} {a b : τ} (hle : l.countP q ≤ 1)
    (ha : a ∈ l) (hb : b ∈ l) (hqa : q a = true) (hqb : q b = true) : a = b := by
  rw [List.countP_eq_length_filter] at hle
  have ha' : a ∈ l.filter q := List.mem_filter.mpr ⟨ha, hqa⟩
  have hb' : b ∈ l.filter q := List.mem_filter.mpr ⟨hb, hqb⟩
  cases hl : l.filter q with
  | nil => rw [hl] at ha'; exact absurd ha' List.not_mem_nil
  | cons x rest =>
    obtain rfl : rest = [] := by
      rw [hl, List.length_cons] at hle
      exact List.length_eq_zero_iff.mp (by omega)
    rw [hl, List.mem_singleton] at ha' hb'
    exact ha'.trans hb'.symm

namespace Fired

variable {t' : τ} {P : τ → Prop}

/-- A task that owes something before the step still does after it, unless it is the one that
moved. -/
theorem any_or (h : Fired micro p t p' t') (hP : Any P p) : P t ∨ Any P p' := by
  obtain ⟨u, hu, hPu⟩ := hP
  rcases h.keeps u hu with rfl | hu
  · exact Or.inl hPu
  · exact Or.inr ⟨u, hu, hPu⟩

theorem any_new (h : Fired micro p t p' t') (ht : P t') : Any P p' := ⟨t', h.mem', ht⟩

/-! ### Debts

A task in the middle of its work often still owes one thing, which the function `debt` reads off
its local state.  A step either settles the debt of the task that takes it or leaves it as it is,
and touches nobody else's. -/

section Debts

variable {δ : Type*} {debt : τ → Option δ} {d : δ}

theorem owes_or (h : Fired micro p t p' t') (ho : Owes debt p d) :
    debt t = some d ∨ Owes debt p' d := h.any_or ho

theorem owes_of_none (h : Fired micro p t p' t') (hnone : debt t = none) (ho : Owes debt p d) :
    Owes debt p' d :=
  (h.any_or ho).resolve_left fun hd ↦ by simp [hnone] at hd

theorem owes_of_eq (h : Fired micro p t p' t') (hsame : debt t' = debt t) (ho : Owes debt p d) :
    Owes debt p' d :=
  (h.any_or ho).elim (fun hd ↦ h.any_new (hsame.trans hd)) id

theorem owes_old (h : Fired micro p t p' t') (ho : Owes debt p' d) :
    debt t' = some d ∨ Owes debt p d := by
  obtain ⟨u, hu, hd⟩ := ho
  rcases h.news u hu with rfl | hu
  · exact Or.inl hd
  · exact Or.inr ⟨u, hu, hd⟩

theorem owes_new (h : Fired micro p t p' t') (hd : debt t' = some d) : Owes debt p' d :=
  h.any_new hd

end Debts

/-- **Non-interference.**  If the task that moved re-establishes its assertion and the step keeps
the assertions of all the others, every task satisfies its assertion after the step. -/
theorem forall_tasks {J : σ → τ → Prop} (h : Fired micro p t p' t')
    (hJ : ∀ u ∈ p.tasks, J p.shared u) (hself : J p'.shared t')
    (hother : ∀ u ∈ p.tasks, J p.shared u → J p'.shared u) : ∀ u ∈ p'.tasks, J p'.shared u := by
  intro u hu
  rcases h.news u hu with rfl | hu
  · exact hself
  · exact hother u hu (hJ u hu)

end Fired

/-- A task runs from `(s, t)` to `(s', t')` with no other task taking a step in between. -/
def Alone (micro : σ → τ → σ → τ → Prop) (s : σ) (t : τ) (s' : σ) (t' : τ) : Prop :=
  Relation.ReflTransGen (fun a b : σ × τ ↦ micro a.1 a.2 b.1 b.2) (s, t) (s', t')

namespace Alone

variable {s s₁ s' : σ} {t₁ t' : τ}

theorem refl (s : σ) (t : τ) : Alone micro s t s t := Relation.ReflTransGen.refl

theorem step (h : micro s t s₁ t₁) (hr : Alone micro s₁ t₁ s' t') : Alone micro s t s' t' :=
  Relation.ReflTransGen.head (a := (s, t)) (b := (s₁, t₁)) h hr

theorem trans (h : Alone micro s t s₁ t₁) (h' : Alone micro s₁ t₁ s' t') :
    Alone micro s t s' t' :=
  Relation.ReflTransGen.trans h h'

end Alone

end Pool
