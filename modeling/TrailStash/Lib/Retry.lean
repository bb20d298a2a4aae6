import Mathlib.Algebra.BigOperators.Group.List.Basic
import Mathlib.Algebra.GroupWithZero.Nat
import Mathlib.Data.List.Induction
import Mathlib.Order.Basic

/-!
# A schedule of retries

Somebody is after a thing that is not there, and looks for it again and again.  A look finds the
thing at hand, or waits, or asks a source for it; the source then hands it over or fails.  The log
records all of this with times.

`Scheduled backoff log` is the discipline: the first look that does not find the thing asks, and
after the `k`-th failure, at time `t`, looks wait before `t + backoff k` and ask from then on.  When
the thing is found there is nothing more to log.  `Scheduled.snoc` extends a log, and
`Scheduled.span` is what the discipline costs: the failures of a log are as far apart as the
back-offs between them.
-/

set_option autoImplicit false

namespace Retry

/-- What can be logged. -/
inductive Act
  /-- A look finds the thing at hand. -/
  | has
  /-- A look does not find it and does not ask. -/
  | waits
  /-- A look does not find it and asks. -/
  | asks
  /-- The source hands it over. -/
  | gets
  /-- The source fails. -/
  | fails
  deriving DecidableEq

/-- The thing is there now. -/
def Act.isFind : Act → Bool
  | .has | .gets => true
  | _ => false

/-- A look begins. -/
def Act.isLook : Act → Bool
  | .has | .waits | .asks => true
  | _ => false

/-- What happened, and when, the latest last. -/
abbrev Log := List (Nat × Act)

/-- The times of the failures. -/
def failures (log : Log) : List Nat := (log.filter (·.2 = .fails)).map Prod.fst

/-- The times of the looks. -/
def looks (log : Log) : List Nat := (log.filter (·.2.isLook)).map Prod.fst

/-- Whether the thing was found. -/
def found (log : Log) : Bool := log.any (·.2.isFind)

/-- When to ask next, after failures at these times. -/
def dueAt (backoff : Nat → Nat) (ts : List Nat) : Nat :=
  (ts.getLast?.map (· + backoff ts.length)).getD 0

/-- The log keeps to the schedule. -/
structure Scheduled (backoff : Nat → Nat) (log : Log) : Prop where
  /-- A look that waits is early. -/
  waits : ∀ pre t post, log = pre ++ (t, .waits) :: post → t < dueAt backoff (failures pre)
  /-- A look that asks is not. -/
  asks : ∀ pre t post, log = pre ++ (t, .asks) :: post → dueAt backoff (failures pre) ≤ t
  /-- The source answers when it is asked. -/
  answers : ∀ pre t a post, log = pre ++ (t, a) :: post → a = .gets ∨ a = .fails →
    ∃ pre', pre = pre' ++ [(t, .asks)]
  /-- Nothing comes after a find. -/
  finds : ∀ pre t a post, log = pre ++ (t, a) :: post → a.isFind = true → post = []

variable {backoff : Nat → Nat} {log pre post : Log} {t : Nat} {a : Act} {ts : List Nat}

@[simp] theorem failures_append : failures (log ++ post) = failures log ++ failures post := by
  rw [failures, failures, failures, List.filter_append, List.map_append]

@[simp] theorem looks_append : looks (log ++ post) = looks log ++ looks post := by
  rw [looks, looks, looks, List.filter_append, List.map_append]

@[simp] theorem found_append : found (log ++ post) = (found log || found post) := List.any_append

@[simp] theorem dueAt_nil : dueAt backoff [] = 0 := rfl

theorem dueAt_cons : dueAt backoff (t :: ts) =
    (t :: ts).getLast (List.cons_ne_nil _ _) + backoff (ts.length + 1) := by
  rw [dueAt, List.getLast?_eq_getLast_of_ne_nil (List.cons_ne_nil t ts)]
  rfl

@[simp] theorem dueAt_snoc : dueAt backoff (ts ++ [t]) = t + backoff (ts.length + 1) := by
  simp [dueAt]

namespace Scheduled

theorem nil : Scheduled backoff [] := by
  constructor <;> intros <;> simp_all

/-- A split of a log with one more item. -/
theorem split_snoc {x y : Nat × Act} (h : log ++ [y] = pre ++ x :: post) :
    (pre = log ∧ x = y ∧ post = []) ∨ ∃ post', post = post' ++ [y] ∧ log = pre ++ x :: post' := by
  rcases List.eq_nil_or_concat' post with rfl | ⟨post', z, rfl⟩
  · obtain ⟨hpre, hx⟩ := List.append_inj' h rfl
    exact Or.inl ⟨hpre.symm, (List.cons.inj hx).1.symm, rfl⟩
  · rw [← List.cons_append, ← List.append_assoc] at h
    obtain ⟨hlog, hy⟩ := List.append_inj' h rfl
    exact Or.inr ⟨post', by rw [(List.cons.inj hy).1], hlog⟩

/-- **One more item.** -/
theorem snoc (hs : Scheduled backoff log) (hopen : found log = false)
    (hwaits : a = .waits → t < dueAt backoff (failures log))
    (hasks : a = .asks → dueAt backoff (failures log) ≤ t)
    (hanswers : a = .gets ∨ a = .fails → ∃ pre, log = pre ++ [(t, .asks)]) :
    Scheduled backoff (log ++ [(t, a)]) := by
  refine ⟨fun pre t' post h ↦ ?_, fun pre t' post h ↦ ?_, fun pre t' a' post h ha ↦ ?_,
    fun pre t' a' post h ha ↦ ?_⟩
  · rcases split_snoc h with ⟨rfl, hx, -⟩ | ⟨post', -, hlog⟩
    · obtain ⟨rfl, rfl⟩ := Prod.mk.inj hx
      exact hwaits rfl
    · exact hs.waits pre t' post' hlog
  · rcases split_snoc h with ⟨rfl, hx, -⟩ | ⟨post', -, hlog⟩
    · obtain ⟨rfl, rfl⟩ := Prod.mk.inj hx
      exact hasks rfl
    · exact hs.asks pre t' post' hlog
  · rcases split_snoc h with ⟨rfl, hx, -⟩ | ⟨post', -, hlog⟩
    · obtain ⟨rfl, rfl⟩ := Prod.mk.inj hx
      exact hanswers ha
    · exact hs.answers pre t' a' post' hlog ha
  · rcases split_snoc h with ⟨-, -, hpost⟩ | ⟨post', -, hlog⟩
    · exact hpost
    · -- a find before would have been the end
      rw [hlog, found_append, Bool.or_eq_false_iff] at hopen
      have hfind : found ((t', a') :: post') = true := by simp [found, ha]
      exact absurd hfind (by simp [hopen.2])

/-- Up to any point a log keeps to the schedule. -/
theorem of_append (hs : Scheduled backoff (log ++ post)) : Scheduled backoff log := by
  refine ⟨fun pre t post' h ↦ ?_, fun pre t post' h ↦ ?_, fun pre t a post' h ↦ ?_,
    fun pre t a post' h ha ↦ ?_⟩
  · exact hs.waits pre t (post' ++ post) (by rw [h, List.append_assoc, List.cons_append])
  · exact hs.asks pre t (post' ++ post) (by rw [h, List.append_assoc, List.cons_append])
  · exact hs.answers pre t a (post' ++ post) (by rw [h, List.append_assoc, List.cons_append])
  · have hnil := hs.finds pre t a (post' ++ post)
      (by rw [h, List.append_assoc, List.cons_append]) ha
    exact (List.append_eq_nil_iff.mp hnil).1

/-- **What a schedule costs.**  From the first of `n + 1` failures to the last it takes at least the
first `n` back-offs. -/
theorem span (hs : Scheduled backoff log) {first : Nat} {ts : List Nat}
    (hfail : failures log = first :: ts) :
    first + ((List.range ts.length).map fun i ↦ backoff (i + 1)).sum ≤
      (first :: ts).getLast (List.cons_ne_nil _ _) := by
  induction log using List.reverseRecOn generalizing ts with
  | nil => exact absurd hfail (by simp [failures])
  | append_singleton log x ih =>
    obtain ⟨t, a⟩ := x
    rw [failures_append] at hfail
    by_cases ha : a = .fails
    · subst ha
      have hlast : failures [(t, Act.fails)] = [t] := rfl
      rw [hlast] at hfail
      cases hbefore : failures log with
      | nil =>
        rw [hbefore, List.nil_append] at hfail
        obtain ⟨rfl, rfl⟩ := List.cons.inj hfail
        simp
      | cons first' ts' =>
        rw [hbefore, List.cons_append] at hfail
        obtain ⟨rfl, rfl⟩ := List.cons.inj hfail
        -- the source was asked when it was due
        obtain ⟨pre, hpre⟩ := hs.answers log t .fails [] rfl (Or.inr rfl)
        have hdue := hs.asks pre t [(t, .fails)] (by rw [hpre, List.append_assoc]; rfl)
        have hsame : failures pre = first' :: ts' := by
          rw [← hbefore, hpre, failures_append]
          simp [failures]
        rw [hsame, dueAt_cons] at hdue
        have hspan := ih hs.of_append hbefore
        rw [List.length_append, List.length_singleton, List.range_succ, List.map_append,
          List.sum_append, List.map_singleton, List.sum_singleton]
        simp only [← List.cons_append, List.getLast_concat]
        omega
    · have hnone : failures [(t, a)] = [] := by simp [failures, ha]
      rw [hnone, List.append_nil] at hfail
      exact ih hs.of_append hfail

end Scheduled

end Retry
