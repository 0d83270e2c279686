import DualOptimistic.Data.Decimal
import DualOptimistic.Data.Fallible

/-! The configuration of a node (`node/src/lib.rs`).

It is read from environment variables: five numbers, each with a default, and a list of peers. The
numbers are read in order, and the first that is not a number of its type is the error
(`fromEnv_spec`). A configuration that was read can be written out again and is read back as it
was (`fromEnv_toEnv`). -/
namespace DualOptimistic.Node
open Data Decimal

structure NodeConfig where
  nodeIndex : UInt64
  committeeSize : UInt64
  consensusPort : UInt16
  rpcPort : UInt16
  healthPort : UInt16
  peers : List String
deriving DecidableEq

/-- The variables that are set, to text. -/
abbrev Env := String → Option String

/-- A variable or its default as a number below the bound. -/
def parseVar {α : Type} (bound : Nat) (ofNat : Nat → α) (env : Env) (key default : String) : Except String α :=
  match parse bound ((env key).getD default).toList with
  | .ok n => .ok (ofNat n)
  | .error e => .error ("invalid " ++ key ++ ": " ++ e.text)

def parseUsize (env : Env) (key default : String) : Except String UInt64 :=
  parseVar UInt64.size UInt64.ofNat env key default

def parseU16 (env : Env) (key default : String) : Except String UInt16 :=
  parseVar UInt16.size UInt16.ofNat env key default

/-- The parts between commas that are not empty. -/
def parsePeers (text : String) : List String :=
  ((text.toList.splitOn ',').filter fun peer => !peer.isEmpty).map String.ofList

/-- Load the configuration from environment variables. -/
def NodeConfig.fromEnv (env : Env) : Except String NodeConfig := do
  let nodeIndex ← parseUsize env "NODE_INDEX" "0"
  let committeeSize ← parseUsize env "COMMITTEE_SIZE" "4"
  let consensusPort ← parseU16 env "CONSENSUS_PORT" "9000"
  let rpcPort ← parseU16 env "RPC_PORT" "8545"
  let healthPort ← parseU16 env "HEALTH_PORT" "9001"
  let peers := parsePeers ((env "PEERS").getD "")
  pure { nodeIndex, committeeSize, consensusPort, rpcPort, healthPort, peers }

example : NodeConfig.fromEnv (fun _ => none) = .ok ⟨0, 4, 9000, 8545, 9001, []⟩ := by decide +kernel

/-! ### What is accepted -/

/-- A number of the configuration: its variable, its default and the bound of its type. -/
structure Setting where
  key : String
  default : String
  bound : Nat

namespace Setting
variable (s : Setting) (env : Env)

/-- What is read for the number. -/
def text : List Char := ((env s.key).getD s.default).toList

/-- The text is the number. -/
def Reads (n : Nat) : Prop := Numeral (s.text env) n ∧ n < s.bound

/-- The text is no number of the type. -/
def Fails (message : String) : Prop :=
  ∃ e, Explains s.bound (s.text env) e ∧ message = "invalid " ++ s.key ++ ": " ++ e.text

end Setting

def nodeIndexSetting : Setting := ⟨"NODE_INDEX", "0", UInt64.size⟩

def committeeSizeSetting : Setting := ⟨"COMMITTEE_SIZE", "4", UInt64.size⟩

def consensusPortSetting : Setting := ⟨"CONSENSUS_PORT", "9000", UInt16.size⟩

def rpcPortSetting : Setting := ⟨"RPC_PORT", "8545", UInt16.size⟩

def healthPortSetting : Setting := ⟨"HEALTH_PORT", "9001", UInt16.size⟩

/-- The numbers, in the order they are read. -/
def settings : List Setting :=
  [nodeIndexSetting, committeeSizeSetting, consensusPortSetting, rpcPortSetting, healthPortSetting]

section
variable {α : Type} {ofNat : Nat → α} {toNat : α → Nat} {env : Env} {s : Setting}

/-- A number is read if its text is one of its type. -/
theorem parseVar_ok_iff (hbound : 0 < s.bound) (hof : ∀ n, n < s.bound → toNat (ofNat n) = n)
    (hto : ∀ a, ofNat (toNat a) = a) {a : α} :
    parseVar s.bound ofNat env s.key s.default = .ok a ↔ s.Reads env (toNat a) := by
  unfold parseVar Setting.Reads Setting.text
  cases hparse : parse s.bound ((env s.key).getD s.default).toList with
  | error e =>
    refine ⟨fun h => (by cases h), fun h => ?_⟩
    rw [← parse_ok_iff hbound, hparse] at h
    cases h
  | ok n =>
    have hnumeral := (parse_ok_iff hbound).mp hparse
    rw [← parse_ok_iff hbound, hparse, Except.ok.injEq, Except.ok.injEq]
    constructor
    · rintro rfl
      exact (hof n hnumeral.2).symm
    · rintro rfl
      exact hto a

theorem parseVar_error_iff (hbound : 0 < s.bound) {message : String} :
    parseVar s.bound ofNat env s.key s.default = .error message ↔ s.Fails env message := by
  unfold parseVar Setting.Fails Setting.text
  cases hparse : parse s.bound ((env s.key).getD s.default).toList with
  | error e =>
    simp only [← parse_error_iff hbound, hparse, Except.error.injEq, exists_eq_left']
    exact eq_comm
  | ok n => simp [← parse_error_iff hbound, hparse]

end

theorem parseUsize_ok_iff {env : Env} {s : Setting} (hs : s.bound = UInt64.size) {n : UInt64} :
    parseUsize env s.key s.default = .ok n ↔ s.Reads env n.toNat := by
  rw [parseUsize, ← hs]
  exact parseVar_ok_iff (hs ▸ by decide) (fun m hm => UInt64.toNat_ofNat_of_lt (hs ▸ hm)) fun a => UInt64.ofNat_toNat

theorem parseU16_ok_iff {env : Env} {s : Setting} (hs : s.bound = UInt16.size) {n : UInt16} :
    parseU16 env s.key s.default = .ok n ↔ s.Reads env n.toNat := by
  rw [parseU16, ← hs]
  exact parseVar_ok_iff (hs ▸ by decide) (fun m hm => UInt16.toNat_ofNat_of_lt (hs ▸ hm)) fun a => UInt16.ofNat_toNat

/-- The numbers are read up to one that is none. -/
def FirstFails (env : Env) (message : String) : List Setting → Prop
  | [] => False
  | s :: rest => s.Fails env message ∨ (∃ n, s.Reads env n) ∧ FirstFails env message rest

theorem firstFails_iff {env : Env} {message : String} {l : List Setting} :
    FirstFails env message l ↔ ∃ before s after, l = before ++ s :: after ∧ (∀ x ∈ before, ∃ n, x.Reads env n) ∧
      s.Fails env message := by
  induction l with
  | nil => simp [FirstFails]
  | cons s rest ih =>
    rw [FirstFails, ih]
    constructor
    · intro h
      rcases h with hfails | ⟨hreads, before, x, after, rfl, hbefore, hfails⟩
      · exact ⟨[], s, rest, rfl, fun x hx => absurd hx List.not_mem_nil, hfails⟩
      · exact ⟨s :: before, x, after, rfl, List.forall_mem_cons.mpr ⟨hreads, hbefore⟩, hfails⟩
    · intro h
      obtain ⟨before, x, after, hsplit, hbefore, hfails⟩ := h
      cases before with
      | nil =>
        obtain ⟨rfl, rfl⟩ := List.cons.inj hsplit
        exact .inl hfails
      | cons y before =>
        obtain ⟨rfl, rfl⟩ := List.cons.inj hsplit
        obtain ⟨hreads, hbefore⟩ := List.forall_mem_cons.mp hbefore
        exact .inr ⟨hreads, before, x, after, rfl, hbefore, hfails⟩

/-- Reading a number and going on fails as the number does, or as the rest does. -/
theorem bind_parseVar_error_iff {α β : Type} {ofNat : Nat → α} {env : Env} {s : Setting} (hbound : 0 < s.bound)
    {f : α → Except String β} {message : String} {P : Prop} (hf : ∀ a, f a = .error message ↔ P) :
    (parseVar s.bound ofNat env s.key s.default >>= f) = .error message ↔
      s.Fails env message ∨ (∃ n, s.Reads env n) ∧ P := by
  rw [except_bind_error_iff, parseVar_error_iff hbound]
  simp only [hf, exists_and_right]
  refine or_congr_right (and_congr_left' ?_)
  -- whatever it is turned into, a number is read if its text is one
  unfold parseVar Setting.Reads Setting.text
  simp only [← parse_ok_iff hbound]
  cases parse s.bound ((env s.key).getD s.default).toList with
  | error e => simp
  | ok n => simp

/-- The configuration is read if every number is. -/
theorem fromEnv_ok_iff {env : Env} {config : NodeConfig} : NodeConfig.fromEnv env = .ok config ↔
    nodeIndexSetting.Reads env config.nodeIndex.toNat ∧ committeeSizeSetting.Reads env config.committeeSize.toNat ∧
      consensusPortSetting.Reads env config.consensusPort.toNat ∧ rpcPortSetting.Reads env config.rpcPort.toNat ∧
      healthPortSetting.Reads env config.healthPort.toNat ∧ config.peers = parsePeers ((env "PEERS").getD "") := by
  rw [← parseUsize_ok_iff rfl, ← parseUsize_ok_iff rfl, ← parseU16_ok_iff rfl, ← parseU16_ok_iff rfl,
    ← parseU16_ok_iff rfl]
  simp only [NodeConfig.fromEnv, except_bind_ok_iff]
  constructor
  · intro h
    obtain ⟨_, hindex, _, hsize, _, hconsensus, _, hrpc, _, hhealth, h⟩ := h
    obtain rfl := Except.ok.inj h
    exact ⟨hindex, hsize, hconsensus, hrpc, hhealth, rfl⟩
  · intro h
    obtain ⟨hindex, hsize, hconsensus, hrpc, hhealth, hpeers⟩ := h
    refine ⟨_, hindex, _, hsize, _, hconsensus, _, hrpc, _, hhealth, ?_⟩
    rw [← hpeers]
    rfl

/-- **The configuration.** It is read if every number is a numeral below the bound of its type, and
then holds their values and the peers; otherwise the error names the first variable that is not,
and says why. -/
theorem fromEnv_spec (env : Env) :
    (∀ config, NodeConfig.fromEnv env = .ok config ↔
      nodeIndexSetting.Reads env config.nodeIndex.toNat ∧ committeeSizeSetting.Reads env config.committeeSize.toNat ∧
        consensusPortSetting.Reads env config.consensusPort.toNat ∧ rpcPortSetting.Reads env config.rpcPort.toNat ∧
        healthPortSetting.Reads env config.healthPort.toNat ∧ config.peers = parsePeers ((env "PEERS").getD "")) ∧
    ∀ message, NodeConfig.fromEnv env = .error message ↔ ∃ before s after, settings = before ++ s :: after ∧
      (∀ x ∈ before, ∃ n, x.Reads env n) ∧ s.Fails env message := by
  refine ⟨fun config => fromEnv_ok_iff, fun message => ?_⟩
  rw [← firstFails_iff]
  exact @bind_parseVar_error_iff _ _ _ _ nodeIndexSetting (by decide) _ _ _ fun _ =>
    @bind_parseVar_error_iff _ _ _ _ committeeSizeSetting (by decide) _ _ _ fun _ =>
      @bind_parseVar_error_iff _ _ _ _ consensusPortSetting (by decide) _ _ _ fun _ =>
        @bind_parseVar_error_iff _ _ _ _ rpcPortSetting (by decide) _ _ _ fun _ =>
          @bind_parseVar_error_iff _ _ _ _ healthPortSetting (by decide) _ _ _ fun _ =>
            ⟨fun h => (by cases h), False.elim⟩

example : NodeConfig.fromEnv (fun key => if key = "RPC_PORT" then some "70000" else none) =
    .error "invalid RPC_PORT: number too large to fit in target type" := by decide +kernel

/-! ### Writing it out -/

/-- The environment that says what a configuration holds. -/
def NodeConfig.toEnv (config : NodeConfig) : Env := fun key =>
  if key = "NODE_INDEX" then some config.nodeIndex.toNat.repr
  else if key = "COMMITTEE_SIZE" then some config.committeeSize.toNat.repr
  else if key = "CONSENSUS_PORT" then some config.consensusPort.toNat.repr
  else if key = "RPC_PORT" then some config.rpcPort.toNat.repr
  else if key = "HEALTH_PORT" then some config.healthPort.toNat.repr
  else if key = "PEERS" then some (String.ofList ([','].intercalate (config.peers.map String.toList)))
  else none

theorem Setting.reads_repr {s : Setting} {env : Env} {n : Nat} (henv : env s.key = some n.repr) (hn : n < s.bound) :
    s.Reads env n := by
  rw [Setting.Reads, Setting.text, henv, Option.getD_some, Nat.toList_repr,
    ← parse_ok_iff (Nat.zero_lt_of_lt hn)]
  exact parse_toDigits hn

theorem not_mem_of_mem_splitOn {α : Type} [DecidableEq α] {a : α} {l part : List α} (h : part ∈ l.splitOn a) :
    a ∉ part := by
  induction l generalizing part with
  | nil =>
    rw [List.splitOn_nil, List.mem_singleton] at h
    rw [h]
    exact List.not_mem_nil
  | cons x rest ih =>
    rw [List.splitOn_cons_eq_if_modifyHead] at h
    split at h
    · rcases List.mem_cons.mp h with rfl | h
      · exact List.not_mem_nil
      · exact ih h
    · rename_i hne
      cases hrest : rest.splitOn a with
      | nil => exact absurd hrest (List.splitOn_ne_nil a rest)
      | cons first more =>
        rw [hrest, List.modifyHead_cons] at h
        rcases List.mem_cons.mp h with rfl | h
        · have hfirst := ih (hrest ▸ List.mem_cons_self ..)
          intro hmem
          rcases List.mem_cons.mp hmem with rfl | hmem
          · exact hne (beq_self_eq_true _)
          · exact hfirst hmem
        · exact ih (hrest ▸ List.mem_cons_of_mem _ h)

/-- A peer has a name, without a comma. -/
theorem mem_parsePeers {text peer : String} (h : peer ∈ parsePeers text) : peer.toList ≠ [] ∧ ',' ∉ peer.toList := by
  obtain ⟨part, hpart, rfl⟩ := List.mem_map.mp h
  obtain ⟨hpart, hne⟩ := List.mem_filter.mp hpart
  rw [String.toList_ofList]
  exact ⟨by simpa using hne, not_mem_of_mem_splitOn hpart⟩

/-- Such peers are read back from their list. -/
theorem parsePeers_intercalate {peers : List String}
    (h : ∀ peer ∈ peers, peer.toList ≠ [] ∧ ',' ∉ peer.toList) :
    parsePeers (String.ofList ([','].intercalate (peers.map String.toList))) = peers := by
  rw [parsePeers, String.toList_ofList]
  cases peers with
  | nil => rfl
  | cons first rest =>
    have hcomma : ∀ l ∈ (first :: rest).map String.toList, ',' ∉ l := by
      intro l hl
      obtain ⟨peer, hpeer, rfl⟩ := List.mem_map.mp hl
      exact (h peer hpeer).2
    have hkept : ((first :: rest).map String.toList).filter (fun peer => !peer.isEmpty) =
        (first :: rest).map String.toList := by
      rw [List.filter_eq_self]
      intro l hl
      obtain ⟨peer, hpeer, rfl⟩ := List.mem_map.mp hl
      simpa using (h peer hpeer).1
    rw [List.splitOn_intercalate ',' hcomma (by simp), hkept, List.map_map]
    exact (List.map_congr_left fun peer _ => String.ofList_toList).trans (List.map_id _)

/-- **Written out and read back.** Whatever environment a configuration was read from, the one that
says what it holds gives the same configuration. -/
theorem fromEnv_toEnv {env : Env} {config : NodeConfig} (h : NodeConfig.fromEnv env = .ok config) :
    NodeConfig.fromEnv config.toEnv = .ok config := by
  obtain ⟨-, -, -, -, -, hpeers⟩ := fromEnv_ok_iff.mp h
  refine fromEnv_ok_iff.mpr ⟨?_, ?_, ?_, ?_, ?_, ?_⟩
  · exact Setting.reads_repr rfl (UInt64.toNat_lt_size _)
  · exact Setting.reads_repr rfl (UInt64.toNat_lt_size _)
  · exact Setting.reads_repr rfl (UInt16.toNat_lt_size _)
  · exact Setting.reads_repr rfl (UInt16.toNat_lt_size _)
  · exact Setting.reads_repr rfl (UInt16.toNat_lt_size _)
  · exact (parsePeers_intercalate fun peer hpeer => mem_parsePeers (hpeers ▸ hpeer)).symm

-- signs, leading zeros and empty parts are gone
example : NodeConfig.fromEnv (fun key => if key = "PEERS" then some ",a:1,,b:2" else if key = "RPC_PORT" then some "+080"
    else none) = .ok ⟨0, 4, 9000, 80, 9001, ["a:1", "b:2"]⟩ ∧
    (NodeConfig.toEnv ⟨0, 4, 9000, 80, 9001, ["a:1", "b:2"]⟩) "PEERS" = some "a:1,b:2" := by decide +kernel

end DualOptimistic.Node
