import Sbtc.Collections
import Sbtc.ReorderOutputs
import Sbtc.DeclaredOrder
import Sbtc.Script
import Sbtc.Address
import Sbtc.Multisig
import Sbtc.OpReturn
import Sbtc.ChainClient
import Sbtc.TxStatus
import Sbtc.SignAndBroadcast
import Sbtc.DeadlockFreedom
