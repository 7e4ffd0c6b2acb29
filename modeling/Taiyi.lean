import Taiyi.Library.IdMap
import Taiyi.Library.MultiIndex
import Taiyi.Chainbase.GenericIndex
import Taiyi.Chainbase.Mark
import Taiyi.Chainbase.Session
import Taiyi.Chainbase.Squash
import Taiyi.Chain.ForkDatabase
import Taiyi.Chain.Node
import Taiyi.Chain.ForkTree
import Taiyi.Chain.Standing
import Taiyi.Chain.ApplyBlock
import Taiyi.Chain.PopBlock
import Taiyi.Chain.PushItems
import Taiyi.Chain.Ahead
import Taiyi.Chain.Switch
import Taiyi.Chain.Restore
import Taiyi.Chain.PushBlock
import Taiyi.Chain.Deliver
import Taiyi.Chain.AllOrNothing
import Taiyi.Chain.LongestChain
import Taiyi.Library.Meter
import Taiyi.Ledger.Objects
import Taiyi.Ledger.Adore
import Taiyi.Ledger.Charge
import Taiyi.Ledger.Evaluators
import Taiyi.Ledger.Cultivation
import Taiyi.Ledger.Routines
import Taiyi.Ledger.Weigh
import Taiyi.Ledger.Run
import Taiyi.Ledger.Beneficiaries
import Taiyi.Ledger.Cleaning
import Taiyi.Ledger.Frames
import Taiyi.Ledger.Solvent
import Taiyi.Ledger.Sound
import Taiyi.Ledger.MembershipRuns
import Taiyi.Contract.Machine
import Taiyi.Contract.Sandbox
import Taiyi.Contract.Action
import Taiyi.Contract.Worker
import Taiyi.Contract.Api
import Taiyi.Contract.Code
import Taiyi.Contract.Execution
import Taiyi.Contract.Pieces
import Taiyi.Contract.Steady
import Taiyi.Contract.Stays
import Taiyi.Contract.Identity
import Taiyi.Contract.Turns
import Taiyi.Contract.RightHelpers
import Taiyi.Contract.RunZone
import Taiyi.Contract.ZoneRuns
import Taiyi.Contract.Cells
import Taiyi.Contract.DataRuns
import Taiyi.Contract.LostUpdates
import Taiyi.Chain.Irreversible
import Taiyi.Chain.Notices
import Taiyi.Chain.Finality
import Taiyi.Plugins.AccountHistory
import Taiyi.Plugins.ImportedOnce
import Taiyi.Transactions.Apply
import Taiyi.Transactions.Replay
import Taiyi.Transactions.Pending
import Taiyi.Transactions.Restored
import Taiyi.Ledger.Delegation
import Taiyi.Ledger.Spending
import Taiyi.Ledger.Takes
import Taiyi.Ledger.DelegationLedger
import Taiyi.Ledger.Reserved
import Taiyi.Ledger.Reservation
import Taiyi.Library.OrderStatistic
import Taiyi.Schedule.Objects
import Taiyi.Schedule.Update
import Taiyi.Library.Attempt
import Taiyi.Schedule.Active
import Taiyi.Schedule.VirtualTime
import Taiyi.Schedule.WellFormed
import Taiyi.Schedule.Run
import Taiyi.Schedule.Timely
import Taiyi.Producer.Apply
import Taiyi.Producer.Effects
import Taiyi.Producer.Assemble
import Taiyi.Producer.Accepted
import Taiyi.Library.BitWindow
import Taiyi.Producer.Participation
import Taiyi.Library.Threshold
import Taiyi.Signing.Check
import Taiyi.Signing.Verify
import Taiyi.Proposals.Objects
import Taiyi.Proposals.Reducer
import Taiyi.Proposals.Owner
import Taiyi.Proposals.Execute
import Taiyi.Proposals.LifeCycle
import Taiyi.BlockLog.Files
import Taiyi.BlockLog.Reopen
import Taiyi.Library.Descend
import Taiyi.Nfas.Calls
import Taiyi.Nfas.Effects
import Taiyi.Nfas.Forest
import Taiyi.Nfas.SoulBound
import Taiyi.Nfas.Authority
import Taiyi.Library.Holders
import Taiyi.Nfas.Xinsu
import Taiyi.Ledger.PowerDown
import Taiyi.Ledger.Proxies
import Taiyi.Schedule.Votes
import Taiyi.Schedule.Properties
import Taiyi.Schedule.Hardforks
import Taiyi.Chain.Reachable
import Taiyi.Library.Ring
import Taiyi.Transactions.Tapos
import Taiyi.Contract.Invocation
import Taiyi.Ledger.ShareType
import Taiyi.Ledger.Inflation
import Taiyi.Proposals.Selection
import Taiyi.Ledger.Adored
import Taiyi.Ledger.Instalments
import Taiyi.Ledger.Withdrawals
import Taiyi.Library.Words
import Taiyi.Protocol.Price
import Taiyi.Zones.Connect
import Taiyi.Library.OrderedMap
import Taiyi.Lua.Types
import Taiyi.Actors.Born
import Taiyi.Library.Clamp
import Taiyi.Actors.Modify
import Taiyi.Nfas.Materials
import Taiyi.Ledger.CultivationReward
import Taiyi.Lua.Paths
import Taiyi.TableData.ReadTable
import Taiyi.TableData.Projection
import Taiyi.Lua.Subtables
import Taiyi.TableData.WriteTable
import Taiyi.TableData.WriteList
import Taiyi.TableData.ReadBack
import Taiyi.Lua.Vm
import Taiyi.Lua.Lossless
import Taiyi.Lua.RoundTrip
import Taiyi.Protocol.AccountName
import Taiyi.Library.Digits
import Taiyi.Protocol.AssetSymbol
import Taiyi.Protocol.SymbolText
import Taiyi.Protocol.SymbolBytes
import Taiyi.Producer.Slots
import Taiyi.Library.WeightedScan
import Taiyi.Zones.ZoneRules
import Taiyi.Plugins.VirtualOperations
import Taiyi.Library.SparseRows
import Taiyi.Library.Outcome
import Taiyi.Balances.Adjust
import Taiyi.Balances.Bookkeeping
import Taiyi.Balances.Runs
import Taiyi.Zones.Tiandao
import Taiyi.Library.Timeline
import Taiyi.Recovery.Evaluators
import Taiyi.Recovery.Safety
import Taiyi.Recovery.Runs
import Taiyi.Chain.Climbs
import Taiyi.Chain.BranchQueries
import Taiyi.Chain.NodeGrowth
import Taiyi.Protocol.MerkleRoot
import Taiyi.Protocol.CheckDigit
import Taiyi.Plugins.TrackedAccounts
import Taiyi.Ledger.WithdrawRoutes
import Taiyi.Protocol.FixedString
import Taiyi.Signing.Minimize
import Taiyi.Ledger.Supply
import Taiyi.Ledger.Conserved
import Taiyi.Ledger.Pools
import Taiyi.Ledger.Tally
import Taiyi.Ledger.Accrual
import Taiyi.Ledger.Audit
import Taiyi.Chain.Logged
import Taiyi.Library.Halving
import Taiyi.Sync.Lookup
import Taiyi.Sync.Synopsis
import Taiyi.Sync.Catchup
