import Geth.Congress.AdminMode
import Geth.Core.FeeAccounting
import Geth.Fetcher.TxFetcher
import Geth.State.Erase
import Geth.Core.AncestorLookup
import Geth.Core.BlockWrites
import Geth.Snapshot.LayerRuns
import Geth.Trie.Proof
import Geth.Congress.Punishment
import Geth.Congress.RewardAmounts
import Geth.Congress.Rewards
import Geth.Core.CurrentNonces
import Geth.Core.ForkId
import Geth.Params.Compatibility
import Geth.Vm.CallGas
import Geth.Trie.AsyncCommits
import Geth.Miner.NewWork
import Geth.Types.DeriveSha
import Geth.Congress.EventRules
import Geth.Congress.TraceSysTx
import Geth.Miner.GasAccounting
import Geth.State.SetStorage
import Geth.Types.FeePayer
import Geth.Eth.Gasprice
import Geth.Vm.ExtraEips
import Geth.Vm.JumpDests
