import Taiyi.Ledger.Run

set_option autoImplicit false

namespace Taiyi.Contract

open Library.IdMap

/-- A `lua_map`, by the keys that are read and written. -/
abbrev Data := Table ℤ

/-- The names of an ABI: the prefixes of actions are constructors. -/
inductive FunctionName
  | plain (name : ℕ)
  | evaluating (action : ℕ)
  | doing (action : ℕ)
  | initData
  | onHeartBeat
  | onActorEnter
  | onActorExploit
  | onActorTalking
  | onActorListening
  deriving DecidableEq

/-- A function with its parameters, the table of an action with its `consequence`, or something
else. -/
inductive AbiEntry
  | function (isVarArg : Bool) (parameters : ℕ)
  | action (consequence : Option Bool)
  | other
  deriving DecidableEq

/-- A `contract_object` with its `account_contract_data_object`s by account. -/
structure ContractObject where
  owner : ℕ
  abi : List (FunctionName × AbiEntry) := []
  contractData : Data := ∅
  accountData : Table Data := ∅

/-- The chain objects that contracts work on. The permissions of a zone are by contract. -/
structure Objects where
  ledger : Ledger.State := {}
  mainContract : Table ℕ := ∅
  parent : Table ℕ := ∅
  soulBound : IdSet := ∅
  permissions : Table (Table Bool) := ∅
  refProhibitedZone : Table ℕ := ∅

/-- A `contract_handler`. One that was made for an import is in the `_sub_chs` of another. -/
structure Handler where
  caller : ℕ
  nfaCaller : Option ℕ
  contract : ℕ
  isInEval : Bool
  contractData : Data
  accountData : Data
  keptBy : Option ℕ := none

/-- A `contract_nfa_handler`, with the handler that it was made over. -/
structure NfaHandler where
  callerAccount : ℕ
  nfa : ℕ
  handler : ℕ
  deriving DecidableEq

structure BaseInfo where
  contract : ℕ
  caller : ℕ
  invoker : ℕ
  deriving DecidableEq

/-- The table that is the `_ENV` of a loaded contract, with the contracts imported into it. -/
structure Env where
  contractHelper : ℕ
  baseInfo : BaseInfo
  nfaHelper : Option NfaHandler
  imported : Table ℕ := ∅

/-- A `LuaContext`. The sandboxes are its global variables, each names a table. -/
structure Vm where
  drops : ℤ := 0
  enableDrops : Bool := false
  currentContract : Option ℕ := none
  sandboxes : Table ℕ := ∅
  -- how many `lua_pcall`s are under way
  protectedCalls : ℕ := 0

/-- For whom a function of a contract runs. -/
structure Frame where
  caller : ℕ
  nfa : Option ℕ
  contract : ℕ
  -- in which zone the outermost NFA is, when there is one
  outer : Option (Option ℕ) := none
  deriving DecidableEq

/-- Whom the helpers in a table refer to: the caller and contract of `contract_helper` and of
`contract_base_info`, and the caller and NFA of `nfa_helper`. -/
structure View where
  handler : Option (ℕ × ℕ)
  info : ℕ × ℕ
  nfa : Option (ℕ × ℕ)
  deriving DecidableEq

def Frame.view (f : Frame) : View where
  handler := some (f.caller, f.contract)
  info := (f.caller, f.contract)
  nfa := f.nfa.map fun n ↦ (f.caller, n)

/-- What is noted down of a run. Nothing that runs reads it. -/
inductive Event
  | entered (frame : Frame) (bound : Option View)
  | used (frame : Frame) (seen : Option View)
  | built (contract : ℕ) (shown live : Bool)
  | fetched (contract : ℕ) (live : Bool)
  | wroteContract (contract : ℕ) (entries : List (ℕ × ℤ))
  | wroteAccount (account contract : ℕ) (entries : List (ℕ × ℤ))
  | readContract (contract : ℕ) (answer : Data)
  | readAccount (account contract : ℕ) (answer : Data)
  | acted (outer : Option (Option ℕ)) (location zone before : Option ℕ) (known : Bool)
  | jumpedOut (zone before : Option ℕ)
  | jumped
  | abandoned (handler : ℕ)
  | invoked (named ran : Bool)
  | startedSession
  | squashed
  | undone
  deriving DecidableEq

/-- The chain, what the process keeps beside it, the virtual machine and the objects that
contracts are handed. -/
structure Machine where
  objects : Objects := {}
  contracts : Table ContractObject := ∅
  runZone : Option ℕ := none
  exePoint : ℤ := 0
  invokingPath : List ℕ := []
  -- after a `pop_back` of an empty path the behaviour is undefined
  overrun : Bool := false
  vm : Vm := {}
  envs : Table Env := ∅
  handlers : Table Handler := ∅
  events : List Event := []
  -- above the ids of all tables and handlers so far
  fresh : ℕ := 0

/-- How a run of Lua or of a call into the program ends early: with an error that C++ can catch,
with a jump to the last `lua_pcall`, or out of budget, which looks like a return. -/
inductive Err
  | assertion (msg : String)
  | jump
  | truncated
  deriving DecidableEq

abbrev Run := EStateM Err Machine

end Taiyi.Contract
