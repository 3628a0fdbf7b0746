import Latebra.Bridge.AtomicSwap
import Latebra.Bridge.Coordinator
import Latebra.Bridge.HashedTimelock
import Latebra.Bridge.Watcher
import Latebra.Chain.ActiveBranch
import Latebra.Chain.Admission
import Latebra.Chain.Finality
import Latebra.Chain.Mining
import Latebra.Chain.Retarget
import Latebra.Chain.Supply
import Latebra.Chain.TxLocation
import Latebra.Chain.WireForms
import Latebra.Crypto.ExactDecryption
import Latebra.P2p.Replies
import Latebra.P2p.Sync
import Latebra.P2p.Voting
import Latebra.State.AccountProofs
import Latebra.State.CanonicalRecords
import Latebra.State.CurveRefusal
import Latebra.State.Escrows
import Latebra.State.LiquidityRoundTrip
import Latebra.State.ParallelEquivalence
import Latebra.State.ProvenTransfers
import Latebra.State.Snapshot
import Latebra.State.SnapshotBoot
import Latebra.State.SnapshotSoundness
import Latebra.State.StakingRuns
import Latebra.State.Tombstones
import Latebra.State.WaveSchedule
import Latebra.Store.SharedBase
import Latebra.Types.SigningBytes
import Latebra.Vm.AssembledRuns
