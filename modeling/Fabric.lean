import Fabric.BlockStore.Closing
import Fabric.BlockStore.Reindex
import Fabric.Chaincode.Execute
import Fabric.Chaincode.Launch
import Fabric.Chaincode.RangeQuery
import Fabric.Chaincode.TableRows
import Fabric.ConfigTx.Concurrent
import Fabric.ConfigTx.LastModified
import Fabric.Container.InProc
import Fabric.Crypto.Aes
import Fabric.Gossip.Batcher
import Fabric.Gossip.BlackList
import Fabric.Gossip.ConnLeaks
import Fabric.Gossip.Peer
import Fabric.Gossip.Replay
import Fabric.Gossip.Responses
import Fabric.Gossip.Teardown
import Fabric.Ledger.Isolation
import Fabric.Ledger.KVLedger
import Fabric.Ledger.Serializability
import Fabric.Orderer.FileReader
import Fabric.Orderer.KafkaBroadcast
import Fabric.Orderer.KafkaDeliver
import Fabric.Orderer.Replay
import Fabric.Orderer.Startup
import Fabric.Sbft.Agreement
import Fabric.Sbft.OrderedOnce
import Fabric.Sbft.OwnMessages
import Fabric.Sbft.Prepared
import Fabric.Sbft.Quiescence
import Fabric.Sbft.Revalidation
import Fabric.Sbft.Selection
import Fabric.Utils.ConfigTx
