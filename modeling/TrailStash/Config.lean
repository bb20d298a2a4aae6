import TrailStash.Api
import TrailStash.Utf8

/-!
# Configuration from the environment

`StashConfig.fromEnv` reads the configuration through a getter over environment variables.  A value
that is unset or cannot be read gives way to a default, a number out of range is clamped, and a
string is trimmed and counts as unset when nothing is left.  `StashConfig.WellFormed` is what every
configuration made like this satisfies.
-/

set_option autoImplicit false

namespace TrailStash

/-- Control-API port. -/
def defaultPort : Nat := 8787

/-- Default latest-fix backstop, in hours. -/
def defaultRetentionHours : Nat := 48

def minRetentionHours : Nat := 1

def maxRetentionHours : Nat := 24 * 14

/-- How often the prune sweep runs, in minutes. -/
def defaultPruneIntervalMin : Nat := 15

def minPruneIntervalMin : Nat := 1

def maxPruneIntervalMin : Nat := 24 * 60

/-- `Ord::clamp` -/
def clamp (lo hi n : Nat) : Nat := if n < lo then lo else if hi < n then hi else n

/-- `str::parse::<u16>().ok()` -/
def parseU16 (s : Bytes) : Option Nat := (parseU64 s).filter fun n ↦ decide (n < 2 ^ 16)

/-- Fully resolved stash configuration. -/
structure StashConfig where
  /-- The control-API port. -/
  port : Nat
  /-- The retention window. -/
  retention : RetentionPolicy
  /-- Minutes between two sweeps. -/
  pruneIntervalMin : Nat
  /-- Custom relay URLs; none for the default relay map. -/
  relayUrls : List String
  /-- Bearer token sent to every custom relay. -/
  relayToken : Option String
  /-- Control-API pre-shared key; `none` disables the gate. -/
  psk : Option String

/-- A variable that is trimmed, and unset if nothing is left. -/
def trimmedVar (value : Option String) : Option String :=
  (value.map trim).filter fun v ↦ !v.isEmpty

/-- Resolve the configuration from a getter over environment variables. -/
def StashConfig.fromEnv (get : String → Option String) : StashConfig where
  port := (((get "PORT").bind fun v ↦ parseU16 (asBytes (trim v))).filter (· != 0)).getD defaultPort
  retention := .fromHours <| clamp minRetentionHours maxRetentionHours <|
    ((get "TRAIL_STASH_RETENTION_HOURS").bind fun v ↦ parseU64 (asBytes (trim v))).getD
      defaultRetentionHours
  pruneIntervalMin := clamp minPruneIntervalMin maxPruneIntervalMin <|
    ((get "TRAIL_STASH_PRUNE_INTERVAL_MIN").bind fun v ↦ parseU64 (asBytes (trim v))).getD
      defaultPruneIntervalMin
  relayUrls := ((get "TRAIL_STASH_RELAY_URLS").map fun v ↦
    ((v.toList.splitOn ',').map fun url ↦ trim (String.ofList url)).filter fun url ↦
      !url.isEmpty).getD []
  relayToken := trimmedVar (get "TRAIL_STASH_RELAY_TOKEN")
  psk := trimmedVar (get "TRAIL_STASH_PSK")

/-! ## What every configuration satisfies -/

/-- A string that survived trimming. -/
def IsTrimmed (s : String) : Prop := s ≠ "" ∧ trim s = s

/-- The configuration is one that the code can run with. -/
structure StashConfig.WellFormed (config : StashConfig) : Prop where
  /-- A port that can be bound to. -/
  port : 0 < config.port ∧ config.port < 2 ^ 16
  /-- A window from an hour to two weeks. -/
  retention : ∃ hours, minRetentionHours ≤ hours ∧ hours ≤ maxRetentionHours ∧
    config.retention = .fromHours hours
  /-- A sweep from once a minute to once a day. -/
  pruneIntervalMin : minPruneIntervalMin ≤ config.pruneIntervalMin ∧
    config.pruneIntervalMin ≤ maxPruneIntervalMin
  /-- No relay URL is blank. -/
  relayUrls : ∀ url ∈ config.relayUrls, IsTrimmed url
  /-- The relay token is not blank. -/
  relayToken : ∀ token, config.relayToken = some token → IsTrimmed token
  /-- The pre-shared key is not blank. -/
  psk : ∀ key, config.psk = some key → IsTrimmed key

theorem clamp_mem {lo hi : Nat} (h : lo ≤ hi) (n : Nat) :
    lo ≤ clamp lo hi n ∧ clamp lo hi n ≤ hi := by
  rw [clamp]
  split
  · exact ⟨le_rfl, h⟩
  · split <;> omega

theorem isTrimmed_trimmedVar {value : Option String} {s : String} (h : trimmedVar value = some s) :
    IsTrimmed s := by
  obtain ⟨hmap, hne⟩ := Option.filter_eq_some_iff.mp h
  obtain ⟨v, -, rfl⟩ := Option.map_eq_some_iff.mp hmap
  refine ⟨fun hempty ↦ ?_, trim_trim v⟩
  rw [hempty] at hne
  exact absurd hne (by decide)

/-- **Whatever the environment, the configuration is well formed.** -/
theorem StashConfig.wellFormed_fromEnv (get : String → Option String) :
    (fromEnv get).WellFormed := by
  refine ⟨?_, ⟨_, (clamp_mem (by decide) _).1, (clamp_mem (by decide) _).2, rfl⟩,
    clamp_mem (by decide) _, fun url hurl ↦ ?_, fun token h ↦ isTrimmed_trimmedVar h,
    fun key h ↦ isTrimmed_trimmedVar h⟩
  · cases hport : ((get "PORT").bind fun v ↦ parseU16 (asBytes (trim v))).filter (· != 0) with
    | none =>
      rw [fromEnv, hport]
      exact (by decide : 0 < defaultPort ∧ defaultPort < 2 ^ 16)
    | some port =>
      obtain ⟨hread, hne⟩ := Option.filter_eq_some_iff.mp hport
      obtain ⟨v, -, hv⟩ := Option.bind_eq_some_iff.mp hread
      obtain ⟨-, hlt⟩ := Option.filter_eq_some_iff.mp hv
      rw [fromEnv, hport]
      exact ⟨Nat.pos_of_ne_zero (bne_iff_ne.mp hne), of_decide_eq_true hlt⟩
  · cases hurls : get "TRAIL_STASH_RELAY_URLS" with
    | none =>
      rw [fromEnv, hurls] at hurl
      exact absurd hurl (by simp)
    | some v =>
      rw [fromEnv, hurls] at hurl
      obtain ⟨hmem, hne⟩ := List.mem_filter.mp hurl
      obtain ⟨part, -, rfl⟩ := List.mem_map.mp hmem
      refine ⟨fun hempty ↦ ?_, trim_trim _⟩
      rw [hempty] at hne
      exact absurd hne (by decide)

end TrailStash
