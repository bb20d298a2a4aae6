import Mathlib.Data.Set.Card
import TrailStash.Lib.Run

/-!
# What a stash is for

A `Mailbox` keeps content for those who are not there at the moment.  A name is granted to it once,
for good; records that refer to content by its digest arrive under granted names; the content itself
is received when somebody brings it, and can be fetched under every name that refers to it, until
the last reference is released.  Devices ask to be told about a name.

This is all that matters to its clients.  A mailbox knows nothing of stores, ledgers, retries,
clocks or collections: what goes on inside is three kinds of events, `refer`, `receive` and
`release`.  What is referred to was granted, and what is held is referred to; both are fields of the
structure.

`granted_iff` and `mem_devices_iff` read the state of a mailbox off its history, and `referred` says
where its references come from.  `run_only` cuts a run down to some of the names, and what is left
is a run: what others do is at most content received.
-/

set_option autoImplicit false

open Runs

/-- Names, content keys, and the devices that ask to be told. -/
structure Mailbox (Name Key Device : Type*) where
  /-- The names granted. -/
  granted : Set Name
  /-- Who is to be told about which name. -/
  devices : Set (Name × Device)
  /-- Which name refers to which content. -/
  refs : Set (Name × Key)
  /-- The content that can be fetched. -/
  held : Set Key
  /-- Only granted names refer to anything. -/
  refs_granted : ∀ p ∈ refs, p.1 ∈ granted
  /-- Nothing is held that no name refers to. -/
  held_wanted : held ⊆ Prod.snd '' refs

namespace Mailbox

variable {Name Key Blob Device : Type*}

/-- The empty mailbox. -/
def empty : Mailbox Name Key Device := ⟨∅, ∅, ∅, ∅, fun _ hp ↦ hp.elim, Set.empty_subset _⟩

/-- What some name refers to. -/
def wanted (m : Mailbox Name Key Device) : Set Key := Prod.snd '' m.refs

/-- Grant a name, and tell the device about it from now on. -/
def grant (m : Mailbox Name Key Device) (n : Name) (d : Option Device) :
    Mailbox Name Key Device where
  granted := insert n m.granted
  devices := {p | p.1 = n ∧ d = some p.2} ∪ m.devices
  refs := m.refs
  held := m.held
  refs_granted p hp := Or.inr (m.refs_granted p hp)
  held_wanted := m.held_wanted

/-- Tell the device nothing about the name any more. -/
def mute (m : Mailbox Name Key Device) (n : Name) (d : Device) : Mailbox Name Key Device :=
  { m with devices := m.devices \ {(n, d)} }

/-- A record arrives. -/
def refer (m : Mailbox Name Key Device) (n : Name) (k : Key) (hn : n ∈ m.granted) :
    Mailbox Name Key Device where
  granted := m.granted
  devices := m.devices
  refs := insert (n, k) m.refs
  held := m.held
  refs_granted p hp := by
    rcases hp with rfl | hp
    · exact hn
    · exact m.refs_granted p hp
  held_wanted := m.held_wanted.trans (Set.image_mono (Set.subset_insert _ _))

/-- Content is received, as far as somebody wants it. -/
def receive (m : Mailbox Name Key Device) (ks : Set Key) : Mailbox Name Key Device :=
  { m with
    held := m.held ∪ (ks ∩ m.wanted)
    held_wanted := Set.union_subset m.held_wanted Set.inter_subset_right }

/-- References are let go of, and with the last one the content. -/
def release (m : Mailbox Name Key Device) (rs : Set (Name × Key)) : Mailbox Name Key Device where
  granted := m.granted
  devices := m.devices
  refs := m.refs \ rs
  held := m.held ∩ Prod.snd '' (m.refs \ rs)
  refs_granted p hp := m.refs_granted p hp.1
  held_wanted := Set.inter_subset_right

section

variable (m : Mailbox Name Key Device) (n : Name) (k : Key) (hn : n ∈ m.granted) (ks : Set Key)
  (rs : Set (Name × Key))

@[simp] theorem devices_refer : (m.refer n k hn).devices = m.devices := rfl

@[simp] theorem devices_receive : (m.receive ks).devices = m.devices := rfl

@[simp] theorem devices_release : (m.release rs).devices = m.devices := rfl

end

/-! ## Calls -/

/-- What a client can ask. -/
inductive Call (Name Key Blob Device : Type*)
  /-- Grant a name. -/
  | grant (n : Name) (d : Option Device)
  /-- Be told no more. -/
  | mute (n : Name) (d : Device)
  /-- Fetch content. -/
  | fetch (n : Name) (k : Key)
  /-- Bring content. -/
  | bring (n : Name) (k : Key) (b : Blob)
  /-- How much is missing? -/
  | count

/-- What the mailbox can answer. -/
inductive Reply (Blob : Type*)
  /-- Done. -/
  | done
  /-- The content. -/
  | blob (b : Blob)
  /-- There is no such content under this name. -/
  | nothing
  /-- The name was never granted. -/
  | ungranted
  /-- The name does not refer to this content. -/
  | unreferred
  /-- The content has another digest. -/
  | mismatch
  /-- It could not be done now. -/
  | failed
  /-- So many are missing, of so many that are wanted. -/
  | count (missing total : Nat)

/-- What happens to a mailbox. -/
inductive Event (Name Key Blob Device : Type*)
  /-- A call is answered. -/
  | call (c : Call Name Key Blob Device) (r : Reply Blob)
  /-- A record arrives. -/
  | refer (n : Name) (k : Key)
  /-- Content is received. -/
  | receive (ks : Set Key)
  /-- References are released. -/
  | release (rs : Set (Name × Key))

/-- How a call is answered, and what it leaves behind. -/
inductive Answers (digest : Blob → Key) (m : Mailbox Name Key Device) :
    Call Name Key Blob Device → Reply Blob → Mailbox Name Key Device → Prop
  | grant (n : Name) (d : Option Device) : Answers digest m (.grant n d) .done (m.grant n d)
  | grantFails (n : Name) (d : Option Device) : Answers digest m (.grant n d) .failed m
  | mute (n : Name) (d : Device) : Answers digest m (.mute n d) .done (m.mute n d)
  | fetch {n : Name} {k : Key} {b : Blob} (href : (n, k) ∈ m.refs) (hheld : k ∈ m.held)
      (hb : digest b = k) : Answers digest m (.fetch n k) (.blob b) m
  | miss {n : Name} {k : Key} (h : ¬ ((n, k) ∈ m.refs ∧ k ∈ m.held)) :
      Answers digest m (.fetch n k) .nothing m
  | bring {n : Name} {k : Key} {b : Blob} (href : (n, k) ∈ m.refs) (hb : digest b = k) :
      Answers digest m (.bring n k b) .done (m.receive {k})
  | bringFails {n : Name} {k : Key} {b : Blob} (href : (n, k) ∈ m.refs) (hb : digest b = k) :
      Answers digest m (.bring n k b) .failed m
  | ungranted {n : Name} {k : Key} {b : Blob} (h : n ∉ m.granted) :
      Answers digest m (.bring n k b) .ungranted m
  | unreferred {n : Name} {k : Key} {b : Blob} (hn : n ∈ m.granted) (h : (n, k) ∉ m.refs) :
      Answers digest m (.bring n k b) .unreferred m
  | mismatch {n : Name} {k : Key} {b : Blob} (href : (n, k) ∈ m.refs) (hb : digest b ≠ k) :
      Answers digest m (.bring n k b) .mismatch m
  | count : Answers digest m .count (.count (m.wanted \ m.held).ncard m.wanted.ncard) m

/-- One step of a mailbox. -/
inductive Step (digest : Blob → Key) :
    Mailbox Name Key Device → Event Name Key Blob Device → Mailbox Name Key Device → Prop
  | call {m m' : Mailbox Name Key Device} {c : Call Name Key Blob Device} {r : Reply Blob}
      (h : Answers digest m c r m') : Step digest m (.call c r) m'
  | refer {m : Mailbox Name Key Device} {n : Name} (k : Key) (hn : n ∈ m.granted) :
      Step digest m (.refer n k) (m.refer n k hn)
  | receive (m : Mailbox Name Key Device) (ks : Set Key) :
      Step digest m (.receive ks) (m.receive ks)
  | release (m : Mailbox Name Key Device) (rs : Set (Name × Key)) :
      Step digest m (.release rs) (m.release rs)

/-! ## The state of a mailbox and its history -/

variable {digest : Blob → Key} {m m' : Mailbox Name Key Device} {c : Call Name Key Blob Device}
  {r : Reply Blob} {ev : Event Name Key Blob Device} {evs : List (Event Name Key Blob Device)}
  {n : Name} {k : Key} {d : Device}

/-- Content is refused for want of a grant only if there is none. -/
theorem Answers.ungranted_iff {b : Blob} (h : Answers digest m (.bring n k b) r m') :
    r = .ungranted ↔ n ∉ m.granted := by
  cases h with
  | bring href _ => exact iff_of_false nofun (not_not.mpr (m.refs_granted _ href))
  | bringFails href _ => exact iff_of_false nofun (not_not.mpr (m.refs_granted _ href))
  | ungranted hn => exact iff_of_true rfl hn
  | unreferred hn _ => exact iff_of_false nofun (not_not.mpr hn)
  | mismatch href _ => exact iff_of_false nofun (not_not.mpr (m.refs_granted _ href))

/-- Only a grant grants. -/
theorem Step.granted_iff (h : Step digest m ev m') : n ∈ m'.granted ↔
    (∃ d, ev = .call (.grant n d) .done) ∨ n ∈ m.granted := by
  cases h with
  | call h =>
    cases h with
    | grant n' d =>
      rw [grant, Set.mem_insert_iff]
      refine or_congr_left ⟨fun h ↦ ⟨d, by rw [h]⟩, fun ⟨d', h⟩ ↦ ?_⟩
      cases h
      rfl
    | _ => exact (or_iff_right (by simp)).symm
  | refer => exact (or_iff_right (by simp)).symm
  | receive => exact (or_iff_right (by simp)).symm
  | release => exact (or_iff_right (by simp)).symm

/-- A device is told about a name from a grant until it is muted. -/
theorem Step.mem_devices_iff (h : Step digest m ev m') : (n, d) ∈ m'.devices ↔
    ev = .call (.grant n (some d)) .done ∨
      ((n, d) ∈ m.devices ∧ ev ≠ .call (.mute n d) .done) := by
  cases h with
  | call h =>
    cases h with
    | grant n' d' =>
      rw [grant]
      simp [eq_comm]
    | mute n' d' =>
      rw [mute]
      simp only [Set.mem_sdiff, Set.mem_singleton_iff, Prod.mk.injEq, ne_eq, Event.call.injEq,
        Call.mute.injEq, and_true, reduceCtorEq, false_or]
      exact and_congr_right fun _ ↦ not_congr (and_congr eq_comm eq_comm)
    | _ => simp
  | _ => simp

/-- Nothing but a call changes who is told. -/
theorem devices_of_no_calls (hrun : Run (Step digest) m evs m')
    (hno : ∀ (c : Call Name Key Blob Device) (r : Reply Blob), .call c r ∉ evs) :
    m'.devices = m.devices := by
  induction hrun with
  | nil => rfl
  | cons hst _ ih =>
    refine (ih fun c r hmem ↦ hno c r (List.mem_cons_of_mem _ hmem)).trans ?_
    cases hst with
    | call => exact absurd List.mem_cons_self (hno _ _)
    | refer => rfl
    | receive => rfl
    | release => rfl

/-- References come with records. -/
theorem Step.of_refs (h : Step digest m ev m') (href : (n, k) ∈ m'.refs) :
    ev = .refer n k ∨ (n, k) ∈ m.refs := by
  cases h with
  | call h =>
    cases h with
    | _ => exact Or.inr href
  | refer k' hn =>
    rcases href with heq | href
    · cases heq
      exact Or.inl rfl
    · exact Or.inr href
  | receive => exact Or.inr href
  | release => exact Or.inr href.1

/-- **The names granted are those a grant was answered for.** -/
theorem granted_iff (hrun : Run (Step digest) empty evs m) :
    n ∈ m.granted ↔ ∃ d, .call (.grant n d) .done ∈ evs := by
  refine hrun.invariant_labels
    (I := fun evs (m : Mailbox Name Key Device) ↦ n ∈ m.granted ↔
      ∃ d, .call (.grant n d) .done ∈ evs) (fun evs m ev m' hs hst ↦ ?_) ?_
  · rw [hst.granted_iff, hs, or_comm, ← exists_or]
    refine exists_congr fun d ↦ ?_
    rw [List.mem_append, List.mem_singleton, eq_comm]
  · simp [empty]

/-- **A device is told about a name if the name was granted with it, and it was not muted
since.** -/
theorem mem_devices_iff (hrun : Run (Step digest) empty evs m) : (n, d) ∈ m.devices ↔
    ∃ before after, evs = before ++ .call (.grant n (some d)) .done :: after ∧
      .call (.mute n d) .done ∉ after := by
  have hsince := hrun.iff_since (q := fun m : Mailbox Name Key Device ↦ (n, d) ∈ m.devices)
    (A := (· = .call (.grant n (some d)) .done)) (B := (· = .call (.mute n d) .done))
    (fun _ _ _ hst ↦ hst.mem_devices_iff) id
  refine hsince.trans ⟨?_, ?_⟩
  · rintro ⟨before, ev, after, rfl, rfl, hnot⟩
    exact ⟨before, after, rfl, fun hmem ↦ hnot _ hmem rfl⟩
  · rintro ⟨before, after, rfl, hnot⟩
    exact ⟨before, _, after, rfl, rfl, fun ev hmem heq ↦ hnot (heq ▸ hmem)⟩

/-- **What a name refers to, a record brought.** -/
theorem referred (hrun : Run (Step digest) empty evs m) (href : (n, k) ∈ m.refs) :
    .refer n k ∈ evs := by
  refine hrun.invariant_labels
    (I := fun evs (m : Mailbox Name Key Device) ↦ (n, k) ∈ m.refs → .refer n k ∈ evs)
    (fun evs m ev m' hs hst href ↦ ?_) (fun h ↦ h.elim) href
  rcases hst.of_refs href with rfl | href
  · exact List.mem_append_right evs (List.mem_singleton_self _)
  · exact List.mem_append_left _ (hs href)

/-! ## Some of the names

Those who use the names in `N` do not see the rest of the mailbox, and they need not: what they see
is a mailbox, in which nobody calls but themselves.  What others bring is to them content that is
received, if they refer to it, and everything else that others do is nothing. -/

/-- The mailbox as far as it is about these names. -/
def only (m : Mailbox Name Key Device) (N : Set Name) : Mailbox Name Key Device where
  granted := m.granted ∩ N
  devices := {p | p ∈ m.devices ∧ p.1 ∈ N}
  refs := {p | p ∈ m.refs ∧ p.1 ∈ N}
  held := m.held ∩ Prod.snd '' {p | p ∈ m.refs ∧ p.1 ∈ N}
  refs_granted p hp := ⟨m.refs_granted p hp.1, hp.2⟩
  held_wanted := Set.inter_subset_right

/-- The call is about one of these names. -/
def Call.IsAbout (N : Set Name) : Call Name Key Blob Device → Prop
  | .grant n _ | .mute n _ | .fetch n _ | .bring n _ _ => n ∈ N
  | .count => False

/-- What an event is to those who use these names. -/
inductive Seen (N : Set Name) :
    Event Name Key Blob Device → List (Event Name Key Blob Device) → Prop
  | own {c : Call Name Key Blob Device} (r : Reply Blob) (hc : c.IsAbout N) :
      Seen N (.call c r) [.call c r]
  | brought {n : Name} (k : Key) (b : Blob) (hn : n ∉ N) :
      Seen N (.call (.bring n k b) .done) [.receive {k}]
  | foreign {c : Call Name Key Blob Device} {r : Reply Blob} (hc : ¬ c.IsAbout N)
      (hr : ∀ n k b, c = .bring n k b → r ≠ .done) : Seen N (.call c r) []
  | refer {n : Name} {k : Key} {ks : Set Key} (hn : n ∈ N) (hks : ks ⊆ {k}) :
      Seen N (.refer n k) [.refer n k, .receive ks]
  | unrefer {n : Name} (k : Key) (hn : n ∉ N) : Seen N (.refer n k) []
  | receive (ks : Set Key) : Seen N (.receive ks) [.receive ks]
  | release (rs : Set (Name × Key)) : Seen N (.release rs) [.release rs]

section

variable {N : Set Name} {ks : Set Key} {rs : Set (Name × Key)}

/-- A mailbox is determined by its four sets. -/
theorem ext_sets (hgranted : m.granted = m'.granted) (hdevices : m.devices = m'.devices)
    (hrefs : m.refs = m'.refs) (hheld : m.held = m'.held) : m = m' := by
  cases m
  cases m'
  cases hgranted
  cases hdevices
  cases hrefs
  cases hheld
  rfl

theorem only_empty : (empty : Mailbox Name Key Device).only N = empty := by
  refine ext_sets ?_ ?_ ?_ ?_ <;> simp [only, empty]

theorem only_grant (hn : n ∈ N) (d : Option Device) :
    (m.grant n d).only N = (m.only N).grant n d := by
  refine ext_sets (Set.insert_inter_of_mem hn) ?_ rfl rfl
  ext p
  constructor
  · rintro ⟨hp | hp, hpN⟩
    · exact Or.inl hp
    · exact Or.inr ⟨hp, hpN⟩
  · rintro (hp | hp)
    · exact ⟨Or.inl hp, hp.1 ▸ hn⟩
    · exact ⟨Or.inr hp.1, hp.2⟩

theorem only_grant_of_notMem (hn : n ∉ N) (d : Option Device) :
    (m.grant n d).only N = m.only N := by
  refine ext_sets (Set.insert_inter_of_notMem hn) ?_ rfl rfl
  ext p
  constructor
  · rintro ⟨hp | hp, hpN⟩
    · exact absurd (hp.1 ▸ hpN) hn
    · exact ⟨hp, hpN⟩
  · exact fun hp ↦ ⟨Or.inr hp.1, hp.2⟩

theorem only_mute : (m.mute n d).only N = (m.only N).mute n d := by
  refine ext_sets rfl ?_ rfl rfl
  ext p
  exact and_right_comm

theorem only_mute_of_notMem (hn : n ∉ N) : (m.mute n d).only N = m.only N := by
  refine ext_sets rfl ?_ rfl rfl
  ext p
  refine ⟨fun hp ↦ ⟨hp.1.1, hp.2⟩, fun hp ↦ ⟨⟨hp.1, ?_⟩, hp.2⟩⟩
  rintro rfl
  exact hn hp.2

theorem only_receive : (m.receive ks).only N = (m.only N).receive ks := by
  refine ext_sets rfl rfl rfl ?_
  ext k
  constructor
  · rintro ⟨hk | hk, hwanted⟩
    · exact Or.inl ⟨hk, hwanted⟩
    · exact Or.inr ⟨hk.1, hwanted⟩
  · rintro (hk | ⟨hk, p, hp, rfl⟩)
    · exact ⟨Or.inl hk.1, hk.2⟩
    · exact ⟨Or.inr ⟨hk, p, hp.1, rfl⟩, p, hp, rfl⟩

theorem only_release : (m.release rs).only N = (m.only N).release rs := by
  have hrefs : {p | p ∈ m.refs \ rs ∧ p.1 ∈ N} = {p | p ∈ m.refs ∧ p.1 ∈ N} \ rs := by
    ext p
    exact and_right_comm
  refine ext_sets rfl rfl hrefs ?_
  ext k
  constructor
  · rintro ⟨⟨hk, -⟩, p, hp, rfl⟩
    exact ⟨⟨hk, p, ⟨hp.1.1, hp.2⟩, rfl⟩, p, hrefs ▸ hp, rfl⟩
  · rintro ⟨⟨hk, -⟩, p, hp, rfl⟩
    exact ⟨⟨hk, p, ⟨hp.1.1, hp.2⟩, rfl⟩, p, ⟨⟨hp.1.1, hp.2⟩, hp.1.2⟩, rfl⟩

/-- With the reference comes the content, if others have brought it already. -/
theorem only_refer (hgranted : n ∈ m.granted) (hn : n ∈ N) :
    (m.refer n k hgranted).only N =
      ((m.only N).refer n k ⟨hgranted, hn⟩).receive (m.held ∩ {k}) := by
  have hrefs : {p | p ∈ insert (n, k) m.refs ∧ p.1 ∈ N} =
      insert (n, k) {p | p ∈ m.refs ∧ p.1 ∈ N} := by
    ext p
    constructor
    · rintro ⟨rfl | hp, hpN⟩
      · exact Or.inl rfl
      · exact Or.inr ⟨hp, hpN⟩
    · rintro (rfl | hp)
      · exact ⟨Or.inl rfl, hn⟩
      · exact ⟨Or.inr hp.1, hp.2⟩
  refine ext_sets rfl rfl hrefs ?_
  ext k'
  constructor
  · rintro ⟨hk, p, ⟨rfl | hp, hpN⟩, rfl⟩
    · exact Or.inr ⟨⟨hk, rfl⟩, (n, k), Or.inl rfl, rfl⟩
    · exact Or.inl ⟨hk, p, ⟨hp, hpN⟩, rfl⟩
  · rintro (⟨hk, p, hp, rfl⟩ | ⟨⟨hk, rfl⟩, -⟩)
    · exact ⟨hk, p, ⟨Or.inr hp.1, hp.2⟩, rfl⟩
    · exact ⟨hk, (n, k'), ⟨Or.inl rfl, hn⟩, rfl⟩

theorem only_refer_of_notMem (hgranted : n ∈ m.granted) (hn : n ∉ N) :
    (m.refer n k hgranted).only N = m.only N := by
  have hrefs : {p | p ∈ insert (n, k) m.refs ∧ p.1 ∈ N} = {p | p ∈ m.refs ∧ p.1 ∈ N} := by
    ext p
    refine ⟨?_, fun hp ↦ ⟨Or.inr hp.1, hp.2⟩⟩
    rintro ⟨rfl | hp, hpN⟩
    · exact absurd hpN hn
    · exact ⟨hp, hpN⟩
  exact ext_sets rfl rfl hrefs (congrArg (fun refs ↦ m.held ∩ Prod.snd '' refs) hrefs)

/-- A call about these names is answered as in their own mailbox. -/
theorem Answers.only (h : Answers digest m c r m') (hc : c.IsAbout N) :
    Answers digest (m.only N) c r (m'.only N) := by
  cases h with
  | grant n d =>
    rw [only_grant hc]
    exact .grant n d
  | grantFails n d => exact .grantFails n d
  | mute n d =>
    rw [only_mute]
    exact .mute n d
  | @fetch n k b href hheld hb =>
    exact .fetch ⟨href, hc⟩ ⟨hheld, (n, k), ⟨href, hc⟩, rfl⟩ hb
  | miss hnot => exact .miss fun hhere ↦ hnot ⟨hhere.1.1, hhere.2.1⟩
  | bring href hb =>
    rw [only_receive]
    exact .bring ⟨href, hc⟩ hb
  | bringFails href hb => exact .bringFails ⟨href, hc⟩ hb
  | ungranted hn => exact .ungranted fun hgranted ↦ hn hgranted.1
  | unreferred hn hnot => exact .unreferred ⟨hn, hc⟩ fun href ↦ hnot href.1
  | mismatch href hb => exact .mismatch ⟨href, hc⟩ hb
  | count => exact hc.elim

/-- A call about other names, unless it brings something, is nothing. -/
theorem Answers.only_of_not (h : Answers digest m c r m') (hc : ¬ c.IsAbout N)
    (hr : ∀ n k b, c = .bring n k b → r ≠ .done) : m'.only N = m.only N := by
  cases h with
  | grant n d => exact only_grant_of_notMem hc d
  | mute n d => exact only_mute_of_notMem hc
  | @bring n k b => exact absurd rfl (hr n k b rfl)
  | _ => rfl

/-- **What others do is seen as content received**, if it is seen at all. -/
theorem Step.only (hst : Step digest m ev m') :
    ∃ evs, Seen N ev evs ∧ Run (Step digest) (m.only N) evs (m'.only N) := by
  cases hst with
  | receive ks =>
    rw [only_receive]
    exact ⟨_, .receive ks, Run.singleton_iff.mpr (.receive _ ks)⟩
  | release rs =>
    rw [only_release]
    exact ⟨_, .release rs, Run.singleton_iff.mpr (.release _ rs)⟩
  | @refer n k hgranted =>
    by_cases hn : n ∈ N
    · have hboth : n ∈ (m.only N).granted := ⟨hgranted, hn⟩
      rw [only_refer hgranted hn]
      exact ⟨_, .refer hn Set.inter_subset_right,
        .cons (.refer k hboth) (.cons (.receive _ _) (.nil _))⟩
    · rw [only_refer_of_notMem hgranted hn]
      exact ⟨_, .unrefer k hn, .nil _⟩
  | @call _ c r h =>
    by_cases hc : c.IsAbout N
    · exact ⟨_, .own r hc, Run.singleton_iff.mpr (.call (h.only hc))⟩
    · by_cases hbrought : ∃ n k b, c = .bring n k b ∧ r = .done
      · obtain ⟨n, k, b, rfl, rfl⟩ := hbrought
        cases h with
        | bring href hb =>
          rw [only_receive]
          exact ⟨_, .brought k b hc, Run.singleton_iff.mpr (.receive _ _)⟩
      · have hr : ∀ n k b, c = .bring n k b → r ≠ .done :=
          fun n k b heq hdone ↦ hbrought ⟨n, k, b, heq, hdone⟩
        rw [h.only_of_not hc hr]
        exact ⟨_, .foreign hc hr, .nil _⟩

/-- **Every name has a mailbox of its own.**  A run, as far as it is about these names, is a run in
which nobody calls but those who use them. -/
theorem run_only (hrun : Run (Step digest) m evs m') :
    ∃ evss, List.Forall₂ (Seen N) evs evss ∧
      Run (Step digest) (m.only N) evss.flatten (m'.only N) := by
  obtain ⟨evss, a, hseen, hown, rfl⟩ := hrun.simulate (R := fun m a ↦ a = m.only N)
    (fun m ev m' a ha hst ↦ by
      subst ha
      obtain ⟨evs, hseen, hown⟩ := hst.only
      exact ⟨evs, _, hseen, hown, rfl⟩) rfl
  exact ⟨evss, hseen, hown⟩

end

end Mailbox
