import Boltchain.Consensus.Honest
import Boltchain.Store.Overlay
import Boltchain.Consensus.Assembly
import Boltchain.Consensus.NilChains
import Boltchain.Consensus.Overflow
import Boltchain.Consensus.EpochEnd
import Boltchain.Consensus.CommitProofs
import Boltchain.Consensus.Checkpoint
import Boltchain.Consensus.Messages
import Boltchain.Store.Reads
import Boltchain.Contracts.Limits
import Boltchain.Contracts.Equivocations
import Boltchain.Contracts.Certificates
import Boltchain.Consensus.Watch
import Boltchain.Sync.CatchUp
import Boltchain.Contracts.Sampling
import Boltchain.Pow.Asert
import Boltchain.Chain.BestHead
import Boltchain.Chain.Restart
import Boltchain.Chain.Snapshots
import Boltchain.Storage.Retention
import Boltchain.Contracts.Windows
import Boltchain.Contracts.Maturity
import Boltchain.Txpool.Limits
import Boltchain.Contracts.Executable
import Boltchain.Contracts.SwarmLimit
import Boltchain.Contracts.SwarmAudits
import Boltchain.Txpool.Consistent
import Boltchain.Net.Wants
import Boltchain.Net.Split
import Boltchain.Chain.Forks
import Boltchain.Vault.Open
import Boltchain.Tpm.Credential
