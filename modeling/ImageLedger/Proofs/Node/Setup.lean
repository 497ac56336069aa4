import ImageLedger.Proofs.Node.Reachable

namespace ImageLedger

namespace Consensus.Engine

theorem mode_of_create {e : Engine} {mode : ConsensusMode} {validatorId : String}
    {validators : List String} {transport : Bool}
    (h : create mode validatorId validators transport = .ok e) : e.mode = mode := by
  cases mode with
  | single =>
    obtain rfl := Except.ok.inj h
    rfl
  | poa =>
    simp only [create] at h
    split_ifs at h with hempty
    obtain rfl := Except.ok.inj ((if_neg hempty).symm.trans h)
    rfl

end Consensus.Engine

/-- Nodes with the same settings that agree on blocks in the same way. -/
structure Node.SameSetup (n m : Node) : Prop where
  settings : m.settings = n.settings
  mode : m.engine.mode = n.engine.mode

namespace Node

theorem Change.sameSetup {scope : Scope} {n m : Node} (h : n.Change scope m) :
    n.SameSetup m := by
  cases h with
  | beside hsettings hmode _ _ => exact ⟨hsettings, hmode⟩
  | block | reject | record | stage => exact ⟨rfl, rfl⟩

/-- A node is set up in every state as it was at first. -/
theorem ReachableFrom.sameSetup {start n : Node} (h : ReachableFrom start n) :
    start.SameSetup n := by
  obtain ⟨pool, hreach⟩ := h
  refine hreach.invariant (P := start.SameSetup) ⟨rfl, rfl⟩ (fun a ha => ha.changes) ?_
  intro n m hchange hn
  have hstep := hchange.sameSetup
  exact ⟨hstep.settings.trans hn.settings, hstep.mode.trans hn.mode⟩

/-- A node as it is made: its settings are those given, its ledger is empty, and nobody is in its
lock. -/
structure New (given : Settings) (now : Int) (n : Node) : Prop where
  settings : n.settings = given
  mode : n.engine.mode = given.consensusMode
  empty : n.store = .empty
  free : n.lock.queue = []
  clock : n.clock = now

theorem new_of_create {settings : Settings} {sign : String → String} {clock : Int} {n : Node}
    (h : create settings sign clock = .ok n) : New settings clock n := by
  unfold create at h
  cases hengine : Consensus.Engine.create settings.consensusMode settings.nodeId
      settings.validatorNodes true with
  | error e => simp [hengine] at h
  | ok engine =>
    simp only [hengine] at h
    split at h
    · cases h
    · obtain rfl := Except.ok.inj h
      exact ⟨rfl, Consensus.Engine.mode_of_create hengine, rfl, rfl, rfl⟩

/-- A node alone is made when its cache can be. -/
theorem exists_create {settings : Settings} (hsingle : settings.consensusMode = .single)
    (hcache : (Authority.Cache.create? settings.validationCacheMaxSize
      settings.validationCacheTtlSeconds).isSome = true) (sign : String → String) (clock : Int) :
    ∃ n, create settings sign clock = .ok n := by
  obtain ⟨cache, hcache⟩ := Option.isSome_iff_exists.mp hcache
  simp only [create, hsingle, hcache]
  exact ⟨_, rfl⟩

end Node

end ImageLedger
