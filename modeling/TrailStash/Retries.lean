import TrailStash.Lib.Retry
import TrailStash.Steps

/-!
# When missing bytes are asked for again

The settle loop runs one pass after another, for ever, and other tasks run between its steps.  What
becomes of one hash while it is on the ledger is a log of looks, as in `Lib/Retry.lean`: a pass
finds the bytes in the blob store, or waits, or asks for them.  `retry_schedule` says that this log
keeps to the schedule of the back-off, whatever the answers are and whatever happens in between.

The state of the schedule is two fields of a ledger entry.  A pass reads them from a copy and writes
to the live entry, so what carries the proof is that nothing else touches the live entry in the
meantime: `Follows` says which part of the log the live entry already knows about, and which part
the pass has still to write.
-/

set_option autoImplicit false

namespace TrailStash

open Runs StashNode
open Retry (Act Log Scheduled dueAt failures looks found)

/-! ## The settle loop -/

/-- The settle loop in the midst of other tasks. -/
structure SettleLoop (hashNew : Bytes → ContentHash) where
  /-- What all tasks share. -/
  shared : Shared hashNew
  /-- The time of the pass that runs, or ran last. -/
  now : Nat
  /-- Where the pass is. -/
  pc : SettlePc
  /-- The entries to wake so far. -/
  wakes : List Wake

/-- What happens next. -/
inductive LoopEvent
  /-- The loop begins a pass. -/
  | pass (now : Nat)
  /-- The pass takes a step, from one point to another. -/
  | settle (now : Nat) (pc pc' : SettlePc)
  /-- Another task takes a step. -/
  | other (t : Task)
  /-- A record arrives, a namespace is granted, or the docs engine's downloader lands bytes. -/
  | outside

/-- The task is a settle pass. -/
def Task.IsSettle : Task → Prop
  | .settle .. => True
  | _ => False

variable {hashNew : Bytes → ContentHash}

/-- The hash stays on the ledger, and keeps a reference if it has one. -/
def Stays (h : ContentHash) (σ σ' : Shared hashNew) : Prop :=
  h ∈ σ'.node.tracked ∧ (σ.node.content.isTracked h = true → σ'.node.content.isTracked h = true)

/-- One step, during a stay of `h` on the ledger. -/
inductive LoopStep (h : ContentHash) : SettleLoop hashNew → LoopEvent → SettleLoop hashNew → Prop
  | pass {σ now ws} (now' : Nat) :
      LoopStep h ⟨σ, now, .done, ws⟩ (.pass now') ⟨σ, now', .start, []⟩
  | settle {σ σ' now pc pc' ws ws'} (hstep : SettleStep now σ (pc, ws) σ' (pc', ws')) :
      LoopStep h ⟨σ, now, pc, ws⟩ (.settle now pc pc') ⟨σ', now, pc', ws'⟩
  | other {σ σ' now pc ws t t'} (hstep : Micro σ t σ' t') (ht : ¬ t.IsSettle)
      (hstay : Stays h σ σ') : LoopStep h ⟨σ, now, pc, ws⟩ (.other t) ⟨σ', now, pc, ws⟩
  | arrive {σ now pc ws} (d : Delivery) (replaced : Entry → Bool) :
      LoopStep h ⟨σ, now, pc, ws⟩ .outside
        ⟨{ σ with node := σ.node.replicate d.ns d.entry replaced }, now, pc, ws⟩
  | grant {σ now pc ws} (ns : NamespaceId) (sub : Option PushSubscription) :
      LoopStep h ⟨σ, now, pc, ws⟩ .outside
        ⟨{ σ with node := σ.node.register ns sub }, now, pc, ws⟩
  | land {σ now pc ws} (bytes : Bytes) :
      LoopStep h ⟨σ, now, pc, ws⟩ .outside
        ⟨{ σ with node := σ.node.land bytes }, now, pc, ws⟩

/-- A pass that takes its copies does so at a time to which a minute can be added. -/
def PassClock (_ : SettleLoop hashNew) : LoopEvent → Prop
  | .settle now .start _ => now + 60000 < 2 ^ 64
  | _ => True

/-! ## The log of a hash -/

/-- What a step of a pass means for the hash. -/
def actOn (h : ContentHash) : SettlePc → SettlePc → Option Act
  | .next ((h', _) :: _), .found _ _ true _ => if h' = h then some .has else none
  | .next ((h', _) :: _), .found _ _ false _ => if h' = h then some .waits else none
  | .next ((h', _) :: _), .fetching _ _ _ => if h' = h then some .asks else none
  | .fetching h' _ _, .found _ _ true _ => if h' = h then some .gets else none
  | .fetching h' _ _, .found _ _ false _ => if h' = h then some .fails else none
  | _, _ => none

/-- What an event means for the hash, with its time. -/
def LoopEvent.act (h : ContentHash) : LoopEvent → Option (Nat × Act)
  | .settle now pc pc' => (actOn h pc pc').map fun a ↦ (now, a)
  | _ => none

/-- The log of a hash. -/
def logOf (h : ContentHash) (evs : List LoopEvent) : Log := evs.filterMap (LoopEvent.act h)

/-- The time of the pass that takes its copies in this event. -/
def LoopEvent.copying : LoopEvent → Option Nat
  | .settle now .start _ => some now
  | _ => none

/-- The times of the passes, each counted when it takes its copies. -/
def passes (evs : List LoopEvent) : List Nat := evs.filterMap LoopEvent.copying

/-- The back-off after `k` failures, in exact arithmetic. -/
def backoff (k : Nat) : Nat := min (500 * 2 ^ min k 7) 60000

/-- The copies that a pass has not visited. -/
def SettlePc.copies : SettlePc → List (ContentHash × TrackedEntry)
  | .start | .done => []
  | .next rest | .fetching _ _ rest | .found _ _ _ rest | .holding _ _ _ rest => rest

/-- The copy that a pass is visiting. -/
def SettlePc.focus : SettlePc → Option (ContentHash × TrackedEntry)
  | .start | .done | .next _ => none
  | .fetching h entry _ | .found h entry _ _ | .holding h entry _ _ => some (h, entry)

/-- The answer that a pass has and has not written. -/
def SettlePc.answer : SettlePc → Option (ContentHash × TrackedEntry × Bool)
  | .found h entry present _ | .holding h entry present _ => some (h, entry, present)
  | _ => none

/-- The copy a pass is visiting, and those still to visit. -/
def SettlePc.visits (pc : SettlePc) : List (ContentHash × TrackedEntry) :=
  pc.focus.toList ++ pc.copies

/-! ## What a visit writes -/

namespace TrackedEntry

variable {live entry : TrackedEntry} {now : Nat} {present : Bool}

theorem nextAttemptMs_visited : (live.visited entry now present).nextAttemptMs =
    (live.attempted entry now present).nextAttemptMs := by
  rw [visited]
  split <;> rfl

theorem attempts_visited : (live.visited entry now present).attempts =
    (live.attempted entry now present).attempts := by
  rw [visited]
  split <;> rfl

end TrackedEntry

theorem backoff_le (k : Nat) : backoff k ≤ 60000 := min_le_right _ _

/-- The counter saturates long after the back-off has reached its ceiling. -/
theorem backoffMs_satSucc32 (k : Nat) :
    backoffMs (satSucc32 (min k (2 ^ 32 - 1))) = backoff (k + 1) := by
  have hcount : min (satSucc32 (min k (2 ^ 32 - 1))) 7 = min (k + 1) 7 := by
    rw [satSucc32]
    omega
  have hpow : 2 ^ min (k + 1) 7 ≤ 2 ^ 7 := Nat.pow_le_pow_right (by decide) (min_le_right _ _)
  rw [backoffMs, backoff, hcount, satMul, u64Max]
  omega

/-! ## The ledger and the log -/

/-- The live entry is at the point of the schedule where the log ends. -/
structure Matches (live : TrackedEntry) (log : Log) : Prop where
  /-- The bytes count as here if a pass has found them. -/
  contentPresent : live.contentPresent = found log
  /-- The next attempt is when it is due. -/
  due : found log = false → live.nextAttemptMs = dueAt backoff (failures log)
  /-- The attempts are counted, up to the largest number of 32 bits. -/
  attempts : found log = false → live.attempts = min (failures log).length (2 ^ 32 - 1)

variable {h h' : ContentHash} {live entry : TrackedEntry} {log todo : Log} {now : Nat}
  {pc pc' : SettlePc} {present : Bool} {rest : List (ContentHash × TrackedEntry)}

theorem Matches.arrived {ns : NamespaceId} {e : Entry} {peer : EndpointId} {seen : Nat} :
    Matches (.arrived ns e peer false seen) [] := ⟨rfl, fun _ ↦ rfl, fun _ ↦ rfl⟩

/-- A visit that found the bytes. -/
theorem Matches.visited_found (hfound : found todo = true) :
    Matches (live.visited entry now true) (log ++ todo) := by
  have hall : found (log ++ todo) = true := by rw [Retry.found_append, hfound, Bool.or_true]
  refine ⟨?_, fun hnot ↦ ?_, fun hnot ↦ ?_⟩
  · rw [TrackedEntry.contentPresent_visited, Bool.or_true, hall]
  · exact absurd (hall.symm.trans hnot) (by decide)
  · exact absurd (hall.symm.trans hnot) (by decide)

/-- A visit that was early. -/
theorem Matches.visited_early (hm : Matches live log) (hearly : now < entry.nextAttemptMs) :
    Matches (live.visited entry now false) (log ++ [(now, .waits)]) := by
  have hlive : live.attempted entry now false = live := by
    simp [TrackedEntry.attempted, Nat.not_le.mpr hearly]
  have hfound : found (log ++ [(now, .waits)]) = found log := by simp [found, Act.isFind]
  have hfail : failures (log ++ [(now, .waits)]) = failures log := by simp [failures]
  refine ⟨?_, fun hopen ↦ ?_, fun hopen ↦ ?_⟩
  · rw [TrackedEntry.contentPresent_visited, Bool.or_false, hm.contentPresent, hfound]
  · rw [TrackedEntry.nextAttemptMs_visited, hlive, hfail]
    exact hm.due (hfound.symm.trans hopen)
  · rw [TrackedEntry.attempts_visited, hlive, hfail]
    exact hm.attempts (hfound.symm.trans hopen)

/-- A visit whose fetch failed. -/
theorem Matches.visited_failed (hm : Matches live log) (hdue : entry.nextAttemptMs ≤ now)
    (hclock : now + 60000 < 2 ^ 64) :
    Matches (live.visited entry now false) (log ++ [(now, .asks), (now, .fails)]) := by
  have hfound : found (log ++ [(now, .asks), (now, .fails)]) = found log := by
    simp [found, Act.isFind]
  have hfail : failures (log ++ [(now, .asks), (now, .fails)]) = failures log ++ [now] := by
    simp [failures]
  have hlive : live.attempted entry now false = { live with
      attempts := satSucc32 live.attempts
      nextAttemptMs := wrapAdd now (backoffMs (satSucc32 live.attempts)) } := by
    simp [TrackedEntry.attempted, hdue]
  refine ⟨?_, fun hopen ↦ ?_, fun hopen ↦ ?_⟩
  · rw [TrackedEntry.contentPresent_visited, Bool.or_false, hm.contentPresent, hfound]
  · rw [TrackedEntry.nextAttemptMs_visited, hlive, hfail, Retry.dueAt_snoc]
    have hcount := hm.attempts (hfound.symm.trans hopen)
    rw [hcount, backoffMs_satSucc32, wrapAdd]
    have hceil := backoff_le ((failures log).length + 1)
    exact Nat.mod_eq_of_lt (by omega)
  · rw [TrackedEntry.attempts_visited, hlive, hfail, List.length_append]
    have hcount := hm.attempts (hfound.symm.trans hopen)
    simp only [hcount, satSucc32, List.length_singleton]
    omega

/-- What a pass has learned about the hash and not written. -/
inductive Unwritten (h : ContentHash) (now : Nat) : SettlePc → Log → Prop
  /-- It is not visiting the hash. -/
  | idle {pc : SettlePc} (hidle : pc.focus.map Prod.fst ≠ some h) : Unwritten h now pc []
  /-- It has asked and does not know the answer. -/
  | asking {entry : TrackedEntry} {rest : List (ContentHash × TrackedEntry)} :
      Unwritten h now (.fetching h entry rest) [(now, .asks)]
  /-- It has found the bytes. -/
  | hit {pc : SettlePc} {entry : TrackedEntry} (hans : pc.answer = some (h, entry, true)) :
      Unwritten h now pc [(now, .has)]
  /-- It has got the bytes. -/
  | got {pc : SettlePc} {entry : TrackedEntry} (hans : pc.answer = some (h, entry, true)) :
      Unwritten h now pc [(now, .asks), (now, .gets)]
  /-- It did not ask. -/
  | early {pc : SettlePc} {entry : TrackedEntry} (hans : pc.answer = some (h, entry, false))
      (hearly : now < entry.nextAttemptMs) : Unwritten h now pc [(now, .waits)]
  /-- It asked in vain. -/
  | failed {pc : SettlePc} {entry : TrackedEntry} (hans : pc.answer = some (h, entry, false))
      (hdue : entry.nextAttemptMs ≤ now) : Unwritten h now pc [(now, .asks), (now, .fails)]

theorem SettlePc.focus_of_answer (hans : pc.answer = some (h, entry, present)) :
    pc.focus = some (h, entry) := by
  cases pc <;> simp_all [SettlePc.answer, SettlePc.focus]

/-- The answer that a pass is about to write. -/
theorem SettlePc.eq_of_answer_holding {entry' : TrackedEntry} {present' : Bool}
    (hans : (SettlePc.holding h entry present rest).answer = some (h', entry', present')) :
    h = h' ∧ entry = entry' ∧ present = present' := by
  simpa [SettlePc.answer] using hans

/-- A pass that is not visiting the hash has nothing to write. -/
theorem Unwritten.eq_nil (hu : Unwritten h now pc todo)
    (hidle : pc.focus.map Prod.fst ≠ some h) : todo = [] := by
  cases hu with
  | idle => rfl
  | asking => exact absurd rfl hidle
  | hit hans | got hans | early hans | failed hans =>
    exact absurd (by rw [SettlePc.focus_of_answer hans]; rfl) hidle

/-- Only the answer matters once there is one. -/
theorem Unwritten.of_answer (hu : Unwritten h now pc todo)
    (hans : pc.answer = some (h', entry, present)) (hsame : pc'.answer = pc.answer) :
    Unwritten h now pc' todo := by
  cases hu with
  | idle hidle =>
    refine .idle ?_
    rwa [SettlePc.focus_of_answer (hsame.trans hans), ← SettlePc.focus_of_answer hans]
  | asking => exact absurd hans nofun
  | hit hans' => exact .hit (hsame.trans hans')
  | got hans' => exact .got (hsame.trans hans')
  | early hans' hearly => exact .early (hsame.trans hans') hearly
  | failed hans' hdue => exact .failed (hsame.trans hans') hdue

/-- **What a pass writes** brings the live entry up to date. -/
theorem Matches.visited (hm : Matches live log) (hclock : now + 60000 < 2 ^ 64)
    (hu : Unwritten h now (.holding h entry present rest) todo) :
    Matches (live.visited entry now present) (log ++ todo) := by
  cases hu with
  | idle hidle => exact absurd rfl hidle
  | hit hans =>
    obtain ⟨-, rfl, rfl⟩ := SettlePc.eq_of_answer_holding hans
    exact .visited_found rfl
  | got hans =>
    obtain ⟨-, rfl, rfl⟩ := SettlePc.eq_of_answer_holding hans
    exact .visited_found rfl
  | early hans hearly =>
    obtain ⟨-, rfl, rfl⟩ := SettlePc.eq_of_answer_holding hans
    exact hm.visited_early hearly
  | failed hans hdue =>
    obtain ⟨-, rfl, rfl⟩ := SettlePc.eq_of_answer_holding hans
    exact hm.visited_failed hdue hclock

/-! ## What a run keeps up -/

/-- The hash is among the copies that a pass has not visited. -/
def SettlePc.Ahead (pc : SettlePc) (h : ContentHash) : Prop := h ∈ pc.copies.map Prod.fst

instance (pc : SettlePc) (h : ContentHash) : Decidable (pc.Ahead h) :=
  inferInstanceAs (Decidable (h ∈ pc.copies.map Prod.fst))

/-- The live entry knows the part of the log that has been written, and the pass the rest. -/
structure Known (h : ContentHash) (l : SettleLoop hashNew) (log : Log) : Prop where
  /-- The log is in two parts. -/
  split : ∃ live done todo, l.shared.node.tracked.lookup h = some live ∧ log = done ++ todo ∧
    Matches live done ∧ Unwritten h l.now l.pc todo ∧
    -- a copy that the pass is visiting, or will, is still what the ledger says
    ∀ entry, (h, entry) ∈ l.pc.visits → entry = live ∧ entry.contentPresent = false

/-- What holds at every point of a run, of the events so far. -/
structure Follows (h : ContentHash) (evs : List LoopEvent) (l : SettleLoop hashNew) : Prop where
  /-- The log keeps to the schedule. -/
  scheduled : Scheduled backoff (logOf h evs)
  /-- A pass visits the hash once. -/
  once : (l.pc.visits.map Prod.fst).count h ≤ 1
  /-- The time of a pass that visits the hash is in range. -/
  clock : h ∈ l.pc.visits.map Prod.fst → l.now + 60000 < 2 ^ 64
  /-- Only passes look. -/
  prefix_passes : looks (logOf h evs) <+: passes evs
  /-- Until the bytes are found every pass looks, except one that has yet to. -/
  passes_eq : found (logOf h evs) = false →
    passes evs = looks (logOf h evs) ++ if l.pc.Ahead h then [l.now] else []
  /-- The live entry and the pass know the log. -/
  known : Known h l (logOf h evs)

theorem logOf_snoc (evs : List LoopEvent) (ev : LoopEvent) :
    logOf h (evs ++ [ev]) = logOf h evs ++ (ev.act h).toList := by
  rw [logOf, logOf, List.filterMap_append]
  cases hact : ev.act h <;> simp [hact]

theorem passes_snoc (evs : List LoopEvent) (ev : LoopEvent) :
    passes (evs ++ [ev]) = passes evs ++ ev.copying.toList := by
  rw [passes, passes, List.filterMap_append]
  cases hcopy : ev.copying <;> simp [hcopy]

theorem SettlePc.not_ahead_of_visits (hnil : pc.visits = []) : ¬ pc.Ahead h := by
  rw [Ahead, (List.append_eq_nil_iff.mp hnil).2]
  exact List.not_mem_nil

variable {l l' : SettleLoop hashNew} {evs : List LoopEvent} {ev : LoopEvent} {a : Act}

/-- Nothing that concerns the hash has changed. -/
theorem Known.of_same (hk : Known h l log)
    (hlook : l'.shared.node.tracked.lookup h = l.shared.node.tracked.lookup h)
    (hunw : ∀ todo, Unwritten h l.now l.pc todo → Unwritten h l'.now l'.pc todo)
    (hvisits : l'.pc.visits.Sublist l.pc.visits) : Known h l' log := by
  obtain ⟨live, done, todo, hlive, hlog, hmatch, hu, hcopies⟩ := hk.split
  exact ⟨live, done, todo, hlook.trans hlive, hlog, hmatch, hunw todo hu,
    fun entry hmem ↦ hcopies entry (hvisits.subset hmem)⟩

/-- More is known, and none of it written. -/
theorem Known.extend {log' done : Log} (todo : Log) (hk : Known h l log)
    (hlive : l.shared.node.tracked.lookup h = some live) (hlog : log' = done ++ todo)
    (hlive' : l'.shared.node.tracked.lookup h = some live) (hmatch : Matches live done)
    (hu : Unwritten h l'.now l'.pc todo) (hvisits : l'.pc.visits.Sublist l.pc.visits) :
    Known h l' log' := by
  obtain ⟨live₀, _, _, hlive₀, -, -, -, hcopies⟩ := hk.split
  obtain rfl : live = live₀ := Option.some.inj (hlive.symm.trans hlive₀)
  exact ⟨live, done, todo, hlive', hlog, hmatch, hu,
    fun entry hmem ↦ hcopies entry (hvisits.subset hmem)⟩

/-- A step that says nothing of the hash and takes no copies. -/
theorem Follows.silent (hf : Follows h evs l) (hact : ev.act h = none)
    (hcopying : ev.copying = none) (hk : Known h l' (logOf h evs))
    (hvisits : l'.pc.visits.Sublist l.pc.visits) (hahead : l'.pc.Ahead h ↔ l.pc.Ahead h)
    (hnow : l'.now = l.now ∨ l'.pc.visits = []) : Follows h (evs ++ [ev]) l' := by
  have hlog : logOf h (evs ++ [ev]) = logOf h evs := by
    rw [logOf_snoc, hact, Option.toList_none, List.append_nil]
  have hpasses : passes (evs ++ [ev]) = passes evs := by
    rw [passes_snoc, hcopying, Option.toList_none, List.append_nil]
  constructor
  · exact hlog ▸ hf.scheduled
  · exact ((hvisits.map _).count_le h).trans hf.once
  · intro hmem
    rcases hnow with hnow | hnil
    · rw [hnow]
      exact hf.clock ((hvisits.map _).subset hmem)
    · rw [hnil] at hmem
      exact absurd hmem List.not_mem_nil
  · rw [hlog, hpasses]
    exact hf.prefix_passes
  · rw [hlog, hpasses]
    intro hopen
    rw [hf.passes_eq hopen]
    rcases hnow with hnow | hnil
    · simp only [hahead, hnow]
    · have hnot : ¬ l'.pc.Ahead h := SettlePc.not_ahead_of_visits hnil
      simp only [if_neg hnot, if_neg (hahead.not.mp hnot)]
  · exact hlog ▸ hk

/-- A step that leaves everything about the hash as it is. -/
theorem Follows.unmoved (hf : Follows h evs l) (hact : ev.act h = none)
    (hcopying : ev.copying = none)
    (hlook : l'.shared.node.tracked.lookup h = l.shared.node.tracked.lookup h)
    (hunw : ∀ todo, Unwritten h l.now l.pc todo → Unwritten h l'.now l'.pc todo)
    (hvisits : l'.pc.visits.Sublist l.pc.visits) (hahead : l'.pc.Ahead h ↔ l.pc.Ahead h)
    (hnow : l'.now = l.now ∨ l'.pc.visits = []) : Follows h (evs ++ [ev]) l' :=
  hf.silent hact hcopying (hf.known.of_same hlook hunw hvisits) hvisits hahead hnow

/-- A step that says something of the hash. -/
theorem Follows.say (hf : Follows h evs l) (hact : ev.act h = some (l.now, a))
    (hcopying : ev.copying = none) (hopen : found (logOf h evs) = false)
    (hwaits : a = .waits → l.now < dueAt backoff (failures (logOf h evs)))
    (hasks : a = .asks → dueAt backoff (failures (logOf h evs)) ≤ l.now)
    (hanswers : a = .gets ∨ a = .fails → ∃ pre, logOf h evs = pre ++ [(l.now, .asks)])
    (hk : Known h l' (logOf h evs ++ [(l.now, a)]))
    (hvisits : l'.pc.visits.Sublist l.pc.visits) (hnow : l'.now = l.now)
    (hlook : (l.pc.Ahead h ↔ a.isLook = true) ∧ ¬ l'.pc.Ahead h) :
    Follows h (evs ++ [ev]) l' := by
  have hlog : logOf h (evs ++ [ev]) = logOf h evs ++ [(l.now, a)] := by
    rw [logOf_snoc, hact, Option.toList_some]
  have hpasses : passes (evs ++ [ev]) = passes evs := by
    rw [passes_snoc, hcopying, Option.toList_none, List.append_nil]
  -- a look that was ahead has taken place
  have hall : passes evs = looks (logOf h evs ++ [(l.now, a)]) := by
    rw [hf.passes_eq hopen, Retry.looks_append]
    cases ha : a.isLook with
    | true =>
      rw [if_pos (hlook.1.mpr ha)]
      simp [looks, ha]
    | false =>
      rw [if_neg (hlook.1.not.mpr (by simp [ha]))]
      simp [looks, ha]
  constructor
  · rw [hlog]
    exact hf.scheduled.snoc hopen hwaits hasks hanswers
  · exact ((hvisits.map _).count_le h).trans hf.once
  · intro hmem
    rw [hnow]
    exact hf.clock ((hvisits.map _).subset hmem)
  · rw [hlog, hpasses, hall]
  · rw [hlog, hpasses, hall, if_neg hlook.2, List.append_nil]
    exact fun _ ↦ rfl
  · exact hlog ▸ hk

/-! ## One step -/

variable {σ σ' : Shared hashNew} {ws ws' : List Wake}

theorem Follows.notMem_rest (hf : Follows h evs l) (hvisits : l.pc.visits = (h, entry) :: rest) :
    h ∉ rest.map Prod.fst := by
  have honce := hf.once
  rw [hvisits, List.map_cons, List.count_cons_self] at honce
  exact List.count_eq_zero.mp (by omega)

/-- A pass about to visit the hash: nothing is unwritten, and the copy is what the ledger says. -/
theorem Follows.at_next (hf : Follows h evs ⟨σ, now, .next ((h, entry) :: rest), ws⟩) :
    σ.node.tracked.lookup h = some entry ∧ Matches entry (logOf h evs) ∧
      found (logOf h evs) = false ∧ h ∉ rest.map Prod.fst := by
  obtain ⟨live, done, todo, hlive, hlog, hmatch, hu, hcopies⟩ := hf.known.split
  obtain ⟨rfl, habsent⟩ := hcopies entry (List.mem_cons_self ..)
  obtain rfl : todo = [] := hu.eq_nil nofun
  rw [List.append_nil] at hlog
  rw [hlog]
  exact ⟨hlive, hmatch, hmatch.contentPresent.symm.trans habsent, hf.notMem_rest rfl⟩

/-- A pass that has asked for the hash. -/
theorem Follows.at_fetching (hf : Follows h evs ⟨σ, now, .fetching h entry rest, ws⟩) :
    ∃ done, σ.node.tracked.lookup h = some entry ∧ logOf h evs = done ++ [(now, .asks)] ∧
      Matches entry done ∧ found done = false ∧ entry.nextAttemptMs ≤ now ∧
      h ∉ rest.map Prod.fst := by
  obtain ⟨live, done, todo, hlive, hlog, hmatch, hu, hcopies⟩ := hf.known.split
  obtain ⟨rfl, habsent⟩ := hcopies entry (List.mem_cons_self ..)
  have hopen : found done = false := hmatch.contentPresent.symm.trans habsent
  cases hu with
  | idle hidle => exact absurd rfl hidle
  | asking =>
    refine ⟨done, hlive, hlog, hmatch, hopen, ?_, hf.notMem_rest rfl⟩
    rw [hmatch.due hopen]
    exact hf.scheduled.asks done now [] hlog
  | hit hans | got hans | early hans | failed hans => exact absurd hans nofun

/-- A look at the head of the loop. -/
theorem Follows.look (hf : Follows h evs ⟨σ, now, .next ((h', entry) :: rest), ws⟩)
    (hact : actOn h (.next ((h', entry) :: rest)) pc' = if h' = h then some a else none)
    (ha : a.isLook = true) (hfocus : pc'.focus = some (h', entry)) (hcopies : pc'.copies = rest)
    (hwaits : a = .waits → now < entry.nextAttemptMs)
    (hasks : a = .asks → entry.nextAttemptMs ≤ now)
    (hu : h' = h → Unwritten h now pc' [(now, a)]) :
    Follows h (evs ++ [.settle now (.next ((h', entry) :: rest)) pc']) ⟨σ, now, pc', ws⟩ := by
  have hvisits : pc'.visits = (h', entry) :: rest := by
    rw [SettlePc.visits, hfocus, hcopies]
    rfl
  have hsub : pc'.visits.Sublist (SettlePc.next ((h', entry) :: rest)).visits := by
    rw [hvisits]
    rfl
  have hahead : pc'.Ahead h ↔ h ∈ rest.map Prod.fst := by rw [SettlePc.Ahead, hcopies]
  by_cases hh : h' = h
  · subst hh
    obtain ⟨hlive, hmatch, hopen, hnot⟩ := hf.at_next
    refine hf.say (a := a) ?_ rfl hopen ?_ ?_ ?_ ?_
      hsub rfl ⟨?_, hahead.not.mpr hnot⟩
    · rw [LoopEvent.act, hact, if_pos rfl]
      rfl
    · exact fun hw ↦ hmatch.due hopen ▸ hwaits hw
    · exact fun hw ↦ hmatch.due hopen ▸ hasks hw
    · rintro (rfl | rfl) <;> exact absurd ha (by decide)
    · exact hf.known.extend [(now, a)] hlive rfl hlive hmatch (hu rfl) hsub
    · exact iff_of_true (List.mem_cons_self ..) ha
  · have hidle : (SettlePc.focus pc').map Prod.fst ≠ some h := by
      rw [hfocus]
      exact fun hc ↦ hh (Option.some.inj hc)
    refine hf.unmoved ?_ rfl rfl (fun todo hu' ↦ ?_) hsub ?_ (Or.inl rfl)
    · rw [LoopEvent.act, hact, if_neg hh]
      rfl
    · rw [hu'.eq_nil nofun]
      exact .idle hidle
    · rw [hahead, SettlePc.Ahead, SettlePc.copies, List.map_cons, List.mem_cons,
        or_iff_right (Ne.symm hh)]

/-- The answer of the source. -/
theorem Follows.hear (hf : Follows h evs ⟨σ, now, .fetching h' entry rest, ws⟩)
    (hlook : σ'.node.tracked.lookup h = σ.node.tracked.lookup h) (present : Bool) :
    Follows h (evs ++ [.settle now (.fetching h' entry rest) (.found h' entry present rest)])
      ⟨σ', now, .found h' entry present rest, ws⟩ := by
  by_cases hh : h' = h
  · subst hh
    obtain ⟨done, hlive, hlog, hmatch, hopen, hdue, hnot⟩ := hf.at_fetching
    have hstill : found (logOf h' evs) = false := by
      rw [hlog, Retry.found_append, hopen]
      rfl
    refine hf.say (a := if present then .gets else .fails) ?_ rfl hstill ?_ ?_ ?_ ?_
      (List.Sublist.refl _) rfl ⟨iff_of_false hnot ?_, hnot⟩
    · cases present <;> simp [LoopEvent.act, actOn]
    · cases present <;> exact nofun
    · cases present <;> exact nofun
    · exact fun _ ↦ ⟨done, hlog⟩
    · refine hf.known.extend [(now, .asks), (now, if present then .gets else .fails)] hlive ?_
        (hlook.trans hlive) hmatch ?_ (List.Sublist.refl _)
      · rw [hlog, List.append_assoc]
        rfl
      · cases present with
        | true => exact .got rfl
        | false => exact .failed rfl hdue
    · cases present <;> exact nofun
  · refine hf.unmoved ?_ rfl hlook (fun todo hu' ↦ ?_) (List.Sublist.refl _) Iff.rfl (Or.inl rfl)
    · cases present <;> simp [LoopEvent.act, actOn, hh]
    · rw [hu'.eq_nil fun hc ↦ hh (Option.some.inj hc)]
      exact .idle fun hc ↦ hh (Option.some.inj hc)

/-- A pass takes its copies. -/
theorem Follows.copy (hf : Follows h evs ⟨σ, now, .start, ws⟩) (hclock : now + 60000 < 2 ^ 64)
    (order : IterOrder ContentHash) :
    Follows h (evs ++ [.settle now .start (.next (σ.node.outstanding order))])
      ⟨σ, now, .next (σ.node.outstanding order), ws⟩ := by
  have hlog : logOf h (evs ++ [.settle now .start (.next (σ.node.outstanding order))]) =
      logOf h evs := by
    rw [logOf_snoc]
    exact List.append_nil _
  have hpasses : passes (evs ++ [.settle now .start (.next (σ.node.outstanding order))]) =
      passes evs ++ [now] := passes_snoc _ _
  obtain ⟨live, done, todo, hlive, hsplit, hmatch, hu, -⟩ := hf.known.split
  obtain rfl : todo = [] := hu.eq_nil nofun
  rw [List.append_nil] at hsplit
  constructor
  · exact hlog ▸ hf.scheduled
  · exact List.nodup_iff_count_le_one.mp nodup_outstanding h
  · exact fun _ ↦ hclock
  · rw [hlog, hpasses]
    exact hf.prefix_passes.trans (List.prefix_append _ _)
  · rw [hlog, hpasses]
    intro hopen
    have hmem : (h, live) ∈ σ.node.outstanding order := by
      refine mem_outstanding.mpr ⟨hlive, ?_⟩
      rw [hmatch.contentPresent, ← hsplit, hopen]
    have hahead : (SettlePc.next (σ.node.outstanding order)).Ahead h := List.mem_map_of_mem hmem
    have hnone : ¬ (SettlePc.start).Ahead h := SettlePc.not_ahead_of_visits rfl
    rw [if_pos hahead, hf.passes_eq hopen, if_neg hnone, List.append_nil]
  · rw [hlog]
    refine ⟨live, done, [], hlive, by rw [List.append_nil, hsplit], hmatch, .idle nofun,
      fun entry hmem ↦ ?_⟩
    obtain ⟨hentry, habsent⟩ := mem_outstanding.mp hmem
    exact ⟨Option.some.inj (hentry.symm.trans hlive), habsent⟩

/-- A pass writes its answer. -/
theorem Follows.write (hf : Follows h evs ⟨σ, now, .holding h' entry present rest, ws⟩)
    (hnode : σ'.node = (σ.node.writeBack now h' entry present).1) :
    Follows h (evs ++ [.settle now (.holding h' entry present rest) (.next rest)])
      ⟨σ', now, .next rest, ws'⟩ := by
  have hsub : (SettlePc.next rest).visits.Sublist
      (SettlePc.holding h' entry present rest).visits := List.sublist_cons_self _ _
  refine hf.silent rfl rfl ?_ hsub Iff.rfl (Or.inl rfl)
  by_cases hh : h' = h
  · subst hh
    obtain ⟨live, done, todo, hlive, hlog, hmatch, hu, -⟩ := hf.known.split
    have hnot : h' ∉ rest.map Prod.fst := hf.notMem_rest rfl
    refine ⟨live.visited entry now present, done ++ todo, [], ?_, by rw [List.append_nil, hlog],
      ?_, .idle nofun, fun entry' hmem ↦ ?_⟩
    · rw [hnode]
      exact lookup_writeBack_self hlive
    · exact hmatch.visited (hf.clock (List.mem_cons_self ..)) hu
    · exact absurd (List.mem_map_of_mem hmem) hnot
  · refine hf.known.of_same ?_ (fun todo hu ↦ ?_) hsub
    · rw [hnode]
      exact lookup_writeBack_of_ne (Ne.symm hh)
    · rw [hu.eq_nil fun hc ↦ hh (Option.some.inj hc)]
      exact .idle nofun

/-- **One step of a pass.** -/
theorem Follows.settle (hf : Follows h evs ⟨σ, now, pc, ws⟩)
    (hstep : SettleStep now σ (pc, ws) σ' (pc', ws'))
    (hclock : pc = .start → now + 60000 < 2 ^ 64) :
    Follows h (evs ++ [.settle now pc pc']) ⟨σ', now, pc', ws'⟩ := by
  cases hstep with
  | copy order => exact hf.copy (hclock rfl) order
  | finish =>
    refine hf.unmoved rfl rfl rfl (fun todo hu ↦ ?_) (List.Sublist.refl _) Iff.rfl (Or.inl rfl)
    rw [hu.eq_nil nofun]
    exact .idle nofun
  | has =>
    refine hf.look rfl rfl rfl rfl nofun nofun ?_
    rintro rfl
    exact .hit rfl
  | notDue hdue =>
    refine hf.look rfl rfl rfl rfl (fun _ ↦ Nat.not_le.mp hdue) nofun ?_
    rintro rfl
    exact .early rfl (Nat.not_le.mp hdue)
  | due hdue =>
    refine hf.look rfl rfl rfl rfl nofun (fun _ ↦ hdue) ?_
    rintro rfl
    exact .asking
  | fetched bytes =>
    refine hf.hear ?_ true
    rfl
  | failed => exact hf.hear rfl false
  | lock =>
    refine hf.unmoved rfl rfl rfl (fun todo hu ↦ ?_) (List.Sublist.refl _) Iff.rfl (Or.inl rfl)
    exact hu.of_answer rfl rfl
  | write => exact hf.write rfl

/-- A task that is no settle pass leaves the live entry alone: the handler inserts only what is not
there. -/
theorem Micro.lookup_tracked {t t' : Task} (hm : Micro σ t σ' t') (ht : ¬ t.IsSettle)
    (hlive : σ.node.tracked.lookup h = some live) (hstay : h ∈ σ'.node.tracked) :
    σ'.node.tracked.lookup h = some live := by
  cases hm with
  | @handler _ d _ _ hstep =>
    cases hstep with
    | insert now =>
      by_cases hh : h = d.hash
      · subst hh
        rw [lookup_orInsert_self, hlive, Option.getD_some]
      · rw [lookup_orInsert_of_ne hh, hlive]
    | _ => exact hlive
  | settle => exact absurd trivial ht
  | put hstep => cases hstep <;> exact hlive
  | sweep hstep =>
    cases hstep with
    | untrack => rw [untrack, Finmap.lookup_erase_ne (Finmap.mem_erase.mp hstay).1, hlive]
    | _ => exact hlive
  | gc hstep => cases hstep <;> exact hlive

/-- The live entry has not changed, nor the pass. -/
theorem Follows.elsewhere (hf : Follows h evs ⟨σ, now, pc, ws⟩) (hact : ev.act h = none)
    (hcopying : ev.copying = none)
    (hlook : σ'.node.tracked.lookup h = σ.node.tracked.lookup h) :
    Follows h (evs ++ [ev]) ⟨σ', now, pc, ws⟩ :=
  hf.unmoved hact hcopying hlook (fun _ hu ↦ hu) (List.Sublist.refl _) Iff.rfl (Or.inl rfl)

/-- **One step of the loop.** -/
theorem Follows.step (hf : Follows h evs l) (hstep : Guarded PassClock (LoopStep h) l ev l') :
    Follows h (evs ++ [ev]) l' := by
  obtain ⟨hclock, hstep⟩ := hstep
  cases hstep with
  | pass now' =>
    refine hf.unmoved rfl rfl rfl (fun todo hu ↦ ?_) (List.Sublist.refl _) Iff.rfl (Or.inr rfl)
    rw [hu.eq_nil nofun]
    exact .idle nofun
  | settle hstep => exact hf.settle hstep fun hpc ↦ by subst hpc; exact hclock
  | other hm ht hstay =>
    obtain ⟨live, _, _, hlive, -⟩ := hf.known.split
    exact hf.elsewhere rfl rfl ((hm.lookup_tracked ht hlive hstay.1).trans hlive.symm)
  | arrive => exact hf.elsewhere rfl rfl rfl
  | grant => exact hf.elsewhere rfl rfl rfl
  | land => exact hf.elsewhere rfl rfl rfl

/-- Before anything has happened. -/
theorem Follows.start {ns : NamespaceId} {e : Entry} {peer : EndpointId} {seen : Nat}
    (hstart : l.shared.node.tracked.lookup h = some (.arrived ns e peer false seen))
    (hnew : h ∉ l.pc.visits.map Prod.fst) : Follows h [] l := by
  have hidle : l.pc.focus.map Prod.fst ≠ some h := by
    intro hfocus
    obtain ⟨copy, hcopy, rfl⟩ := Option.map_eq_some_iff.mp hfocus
    exact hnew (List.mem_map_of_mem (List.mem_append_left _ (Option.mem_toList.mpr hcopy)))
  have hahead : ¬ l.pc.Ahead h := fun hmem ↦ by
    rw [SettlePc.visits, List.map_append] at hnew
    exact hnew (List.mem_append_right _ hmem)
  constructor
  · exact Scheduled.nil
  · rw [List.count_eq_zero.mpr hnew]
    exact Nat.zero_le 1
  · exact fun hmem ↦ absurd hmem hnew
  · exact List.prefix_rfl
  · rw [if_neg hahead]
    exact fun _ ↦ rfl
  · exact ⟨_, [], [], hstart, rfl, .arrived, .idle hidle,
      fun entry hmem ↦ absurd (List.mem_map_of_mem hmem) hnew⟩

/-! ## The index -/

/-- **A mark is there for as long as the reference is.** -/
theorem Micro.isPresent_of_isTracked {t t' : Task} (hm : Micro σ t σ' t')
    (hp : σ.node.content.isPresent h = true) (ht : σ'.node.content.isTracked h = true) :
    σ'.node.content.isPresent h = true := by
  cases hm with
  | handler hstep =>
    cases hstep with
    | want => exact ContentIndex.isPresent_want.trans hp
    | mark => exact ContentIndex.isPresent_markPresent.mpr (Or.inr hp)
    | _ => exact hp
  | settle hstep =>
    cases hstep with
    | write => exact isPresent_writeBack_of_isPresent hp
    | _ => exact hp
  | put hstep =>
    cases hstep with
    | mark => exact ContentIndex.isPresent_markPresent.mpr (Or.inr hp)
    | _ => exact hp
  | sweep hstep =>
    cases hstep with
    | forgetLast => exact ContentIndex.isPresent_forget.mpr ⟨hp, ht⟩
    | forget => exact ContentIndex.isPresent_forget.mpr ⟨hp, ht⟩
    | _ => exact hp
  | gc hstep => cases hstep <;> exact hp

/-- A pass takes no reference and no ledger entry away. -/
theorem SettleStep.stays (hstep : SettleStep now σ (pc, ws) σ' (pc', ws'))
    (hmem : h ∈ σ.node.tracked) : Stays h σ σ' := by
  cases hstep with
  | write => exact ⟨mem_tracked_writeBack.mpr hmem, fun ht ↦ isTracked_writeBack.trans ht⟩
  | _ => exact ⟨hmem, id⟩

/-- What the index says of a referenced hash whose bytes a pass has found, until the pass writes
its answer and after. -/
structure Indexed (h : ContentHash) (evs : List LoopEvent) (l : SettleLoop hashNew) : Prop where
  /-- It is on the ledger. -/
  tracked : h ∈ l.shared.node.tracked
  /-- It is referenced. -/
  referenced : l.shared.node.content.isTracked h = true
  /-- It is marked, or about to be. -/
  marked : found (logOf h evs) = true → l.shared.node.content.isPresent h = true ∨
    ∃ entry, l.pc.answer = some (h, entry, true)

theorem Indexed.of_stays {l' : SettleLoop hashNew} (hi : Indexed h evs l)
    (hstay : Stays h l.shared l'.shared)
    (hmarked : found (logOf h (evs ++ [ev])) = true →
      l'.shared.node.content.isPresent h = true ∨ ∃ entry, l'.pc.answer = some (h, entry, true)) :
    Indexed h (evs ++ [ev]) l' := ⟨hstay.1, hstay.2 hi.referenced, hmarked⟩

/-- One step of a pass. -/
theorem Indexed.settle (hi : Indexed h evs ⟨σ, now, pc, ws⟩)
    (hstep : SettleStep now σ (pc, ws) σ' (pc', ws')) :
    Indexed h (evs ++ [.settle now pc pc']) ⟨σ', now, pc', ws'⟩ := by
  have hstay : Stays h σ σ' := hstep.stays hi.tracked
  refine hi.of_stays hstay fun hfound ↦ ?_
  rw [logOf_snoc, Retry.found_append, Bool.or_eq_true] at hfound
  have hkeep : σ.node.content.isPresent h = true → σ'.node.content.isPresent h = true := fun hp ↦
    (Micro.settle hstep).isPresent_of_isTracked hp (hstay.2 hi.referenced)
  -- a mark stays; an answer is handed on, and written in the end; a find is an answer
  rcases hfound with hbefore | hnow
  · rcases hi.marked hbefore with hp | ⟨entry, hans⟩
    · exact Or.inl (hkeep hp)
    · cases hstep with
      | lock => exact Or.inr ⟨entry, hans⟩
      | write =>
        obtain ⟨rfl, rfl, rfl⟩ := SettlePc.eq_of_answer_holding hans
        exact Or.inl (isPresent_writeBack_self hi.tracked hi.referenced)
      | _ => simp [SettlePc.answer] at hans
  · cases hstep with
    | @has _ h' entry =>
      by_cases hh : h' = h
      · exact Or.inr ⟨entry, by rw [← hh]; rfl⟩
      · exact absurd hnow (by simp [LoopEvent.act, actOn, hh, found])
    | @fetched _ h' entry =>
      by_cases hh : h' = h
      · exact Or.inr ⟨entry, by rw [← hh]; rfl⟩
      · exact absurd hnow (by simp [LoopEvent.act, actOn, hh, found])
    | @notDue _ h' | @due _ h' | @failed _ h' =>
      by_cases hh : h' = h <;>
        exact absurd hnow (by simp [LoopEvent.act, actOn, hh, found, Act.isFind])
    | _ => exact absurd hnow (by simp [LoopEvent.act, actOn, found])

theorem Indexed.step (hi : Indexed h evs l) (hstep : LoopStep h l ev l') :
    Indexed h (evs ++ [ev]) l' := by
  -- what is not a step of the pass says nothing and leaves the answer alone
  have hquiet : ev.act h = none → found (logOf h (evs ++ [ev])) = true →
      l.shared.node.content.isPresent h = true ∨ ∃ entry, l.pc.answer = some (h, entry, true) := by
    intro hact hfound
    rw [logOf_snoc, hact, Option.toList_none, List.append_nil] at hfound
    exact hi.marked hfound
  cases hstep with
  | pass now' => exact hi.of_stays ⟨hi.tracked, id⟩ (hquiet rfl)
  | settle hstep => exact hi.settle hstep
  | other hm ht hstay =>
    refine hi.of_stays hstay fun hfound ↦ (hquiet rfl hfound).imp_left fun hp ↦ ?_
    exact hm.isPresent_of_isTracked hp (hstay.2 hi.referenced)
  | arrive => exact hi.of_stays ⟨hi.tracked, id⟩ (hquiet rfl)
  | grant => exact hi.of_stays ⟨hi.tracked, id⟩ (hquiet rfl)
  | land => exact hi.of_stays ⟨hi.tracked, id⟩ (hquiet rfl)

/-! ## The schedule -/

/-- **The retry schedule of a hash.**  An event puts `h` on the ledger without its bytes, while the
pass that runs has no copy of `h` from before.  From then on, for as long as `h` stays:

* the log of `h` keeps to the schedule of the back-off, and after a find nothing is logged;
* only passes look, each once, and none is left out until the bytes are found;
* the failures are as far apart as the back-offs between them;
* when a pass has found the bytes and left `h`, the ledger says so, and so does the index if `h`
  was referenced at some time before. -/
theorem retry_schedule {l₀ l : SettleLoop hashNew} {evs : List LoopEvent} {ns : NamespaceId}
    {e : Entry} {peer : EndpointId} {t₀ : Nat}
    (hrun : Run (Guarded PassClock (LoopStep h)) l₀ evs l)
    (hstart : l₀.shared.node.tracked.lookup h = some (.arrived ns e peer false t₀))
    (hnew : h ∉ l₀.pc.visits.map Prod.fst) :
    Scheduled backoff (logOf h evs) ∧
    looks (logOf h evs) <+: passes evs ∧
    (found (logOf h evs) = false → ¬ l.pc.Ahead h → looks (logOf h evs) = passes evs) ∧
    (∀ first ts, failures (logOf h evs) = first :: ts →
      first + ((List.range ts.length).map fun i ↦ backoff (i + 1)).sum ≤
        (first :: ts).getLast (List.cons_ne_nil _ _)) ∧
    (found (logOf h evs) = true → l.pc.focus.map Prod.fst ≠ some h →
      (l.shared.node.tracked.lookup h).any (·.contentPresent) = true ∧
      ∀ evs₁ evs₂ l₁, evs = evs₁ ++ evs₂ → Run (Guarded PassClock (LoopStep h)) l₀ evs₁ l₁ →
        Run (Guarded PassClock (LoopStep h)) l₁ evs₂ l → found (logOf h evs₁) = false →
        l₁.shared.node.content.isTracked h = true →
          l.shared.node.content.isPresent h = true) := by
  have hf : Follows h evs l := hrun.invariant_labels (fun _ _ _ _ hf ↦ hf.step) (.start hstart hnew)
  refine ⟨hf.scheduled, hf.prefix_passes, fun hopen hahead ↦ ?_, fun first ts ↦ hf.scheduled.span,
    fun hfound hleft ↦ ⟨?_, fun evs₁ evs₂ l₁ hevs h₁ h₂ hopen href ↦ ?_⟩⟩
  · rw [hf.passes_eq hopen, if_neg hahead, List.append_nil]
  · obtain ⟨live, done, todo, hlive, hlog, hmatch, hu, -⟩ := hf.known.split
    obtain rfl : todo = [] := hu.eq_nil hleft
    rw [List.append_nil] at hlog
    rw [hlive, Option.any_some, hmatch.contentPresent, ← hlog, hfound]
  · -- from where the hash is referenced and its bytes have not been found
    have hf₁ : Follows h evs₁ l₁ :=
      h₁.invariant_labels (fun _ _ _ _ hf ↦ hf.step) (.start hstart hnew)
    obtain ⟨live, _, _, hlive, -⟩ := hf₁.known.split
    have hi : Indexed h evs₂ l := h₂.of_guarded.invariant_labels (fun _ _ _ _ hi ↦ hi.step)
      ⟨Finmap.mem_of_lookup_eq_some hlive, href, fun hnone ↦ absurd hnone (by simp [logOf, found])⟩
    have hfound₂ : found (logOf h evs₂) = true := by
      rw [hevs, logOf, List.filterMap_append, Retry.found_append] at hfound
      rw [logOf] at hopen
      rwa [hopen, Bool.false_or] at hfound
    refine (hi.marked hfound₂).resolve_right fun hpending ↦ hleft ?_
    obtain ⟨entry, hans⟩ := hpending
    rw [SettlePc.focus_of_answer hans]
    rfl

/-! ## A run on fixed inputs -/

/-- A step of a pass that has its copies. -/
theorem pass_step (hpc : pc ≠ .start) (hstep : SettleStep now σ (pc, ws) σ' (pc', ws')) :
    Guarded PassClock (LoopStep h) ⟨σ, now, pc, ws⟩ (.settle now pc pc') ⟨σ', now, pc', ws'⟩ := by
  refine ⟨?_, .settle hstep⟩
  cases pc with
  | start => exact absurd rfl hpc
  | _ => exact trivial

/-- A pass with one copy; `mid` is how it finds the answer. -/
theorem run_pass {node node' : StashNode hashNew} (seen : Nat) (ws : List Wake)
    {mid : List LoopEvent} (hclock : now + 60000 < 2 ^ 64)
    (hcopies : node.outstanding (.any _) = [(h, entry)])
    (hmid : Run (Guarded PassClock (LoopStep h)) ⟨idle node, now, .next [(h, entry)], []⟩ mid
      ⟨idle node', now, .found h entry present [], []⟩) :
    Run (Guarded PassClock (LoopStep h)) ⟨idle node, seen, .done, ws⟩
      ([.pass now, .settle now .start (.next [(h, entry)])] ++ mid ++
        [.settle now (.found h entry present []) (.holding h entry present []),
          .settle now (.holding h entry present []) (.next []), .settle now (.next []) .done])
      ⟨idle (node'.writeBack now h entry present).1, now, .done,
        (node'.writeBack now h entry present).2⟩ := by
  have hcopy : SettleStep now (idle node) (.start, []) (idle node) (.next [(h, entry)], []) :=
    hcopies ▸ .copy (.any _) rfl
  refine (Run.append (.cons ⟨trivial, .pass now⟩ (.cons ⟨hclock, .settle hcopy⟩ (.nil _)))
    hmid).append ?_
  exact .cons (pass_step nofun (.lock rfl)) (.cons (pass_step nofun .write)
    (.cons (pass_step nofun .finish) (.nil _)))

/-- The node after a pass has failed to fetch the bytes of `oldFix`. -/
def failedFix : StashNode sampleHash :=
  (fixOnly.writeBack 5000 zeroHash (oldFix.arrived false 1000) false).1

/-- The ledger entry of `oldFix` then. -/
def failedEntry : TrackedEntry :=
  (oldFix.arrived false 1000).visited (oldFix.arrived false 1000) 5000 false

/-- A pass fails to fetch the bytes of `oldFix`, and the next one succeeds. -/
theorem run_failedFix : ∃ evs l,
    Run (Guarded PassClock (LoopStep zeroHash)) ⟨idle fixOnly, 0, .done, []⟩ evs l ∧
      logOf zeroHash evs = [(5000, .asks), (5000, .fails), (6000, .asks), (6000, .gets)] ∧
      l.pc = .done := by
  have hcopies : fixOnly.outstanding (.any _) = [(zeroHash, oldFix.arrived false 1000)] :=
    outstanding_of_one (by decide) (by decide) rfl
  have hcopies' : failedFix.outstanding (.any _) = [(zeroHash, failedEntry)] :=
    outstanding_of_one (by decide) (by decide) rfl
  have hfirst := run_pass 0 [] (by decide : 5000 + 60000 < 2 ^ 64) hcopies
    (.cons (pass_step (by simp) (.due (by decide))) (.cons (pass_step (by simp) .failed) (.nil _)))
  have hthen := run_pass 5000
    (fixOnly.writeBack 5000 zeroHash (oldFix.arrived false 1000) false).2
    (by decide : 6000 + 60000 < 2 ^ 64) hcopies'
    (.cons (pass_step (by simp) (.due (by decide)))
      (.cons (pass_step (by simp) (.fetched [0] (by decide))) (.nil _)))
  refine ⟨_, _, hfirst.append hthen, ?_, rfl⟩
  rfl

/-- The bytes of `oldFix` come with the second pass, a second after the first. -/
theorem retry_schedule_failedFix : ∃ evs l,
    Run (Guarded PassClock (LoopStep zeroHash)) ⟨idle fixOnly, 0, .done, []⟩ evs l ∧
      Scheduled backoff [(5000, .asks), (5000, .fails), (6000, .asks), (6000, .gets)] ∧
      [5000, 6000] <+: passes evs ∧ l.shared.node.content.isPresent zeroHash = true := by
  obtain ⟨evs, l, hrun, hlog, hdone⟩ := run_failedFix
  have hreferenced : (idle fixOnly).node.content.isTracked zeroHash = true := by decide
  have hleft : l.pc.focus.map Prod.fst ≠ some zeroHash := by
    rw [hdone]
    exact nofun
  have hstart : (idle fixOnly).node.tracked.lookup zeroHash =
      some (.arrived (idOf 1) oldFix.entry (idOf 9) false 1000) := by decide
  obtain ⟨hsched, hprefix, -, -, hfind⟩ := retry_schedule hrun hstart List.not_mem_nil
  rw [hlog] at hsched hprefix hfind
  exact ⟨evs, l, hrun, hsched, hprefix,
    (hfind rfl hleft).2 [] evs _ rfl (.nil _) hrun rfl hreferenced⟩

end TrailStash
