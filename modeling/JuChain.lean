import JuChain.Core.TxLookup
import JuChain.Core.HeaderChain
import JuChain.Protocol.HandOver
import JuChain.Protocol.Rounds
import JuChain.Protocol.Election
import JuChain.Protocol.Confirmation
import JuChain.Protocol.Late
import JuChain.Protocol.Signed
import JuChain.Protocol.Conflict
import JuChain.Pool.Rejection
import JuChain.Pool.Companions
import JuChain.Pool.Nonces
import JuChain.Pool.ListCalls
import JuChain.Pool.Reinjection
import JuChain.Types.Binding
import JuChain.Types.Pair
import JuChain.Types.Bloom9
import JuChain.State.Snapshot
import JuChain.Rlp.Output
import JuChain.Common.Rle
import JuChain.Types.HeaderJson
import JuChain.Core.Ancestor
import JuChain.Clique.Majority
import JuChain.Serve.Headers
import JuChain.Engine.GenesisOrder
import JuChain.Trie.Completeness
import JuChain.Vm.Memory
import JuChain.Vm.Ints
import JuChain.P2p.Delivery
import JuChain.P2p.Table
import JuChain.Engine.DAppBlock
import JuChain.Engine.Difficulty
import JuChain.Engine.VerifyHeaders
import JuChain.Engine.Receipts
import JuChain.Bloombits.Generator
import JuChain.Abi.Exchange
