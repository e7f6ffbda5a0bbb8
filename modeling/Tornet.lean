import Tornet.Library.Runs
import Tornet.Udt.Network
import Tornet.Udt.Lane
import Tornet.Udt.Delivery
import Tornet.Udt.Retransmit
import Tornet.Udt.Quiescence
import Tornet.Udt.Receiver
import Tornet.Udt.Forgetting
import Tornet.Udt.Missing
import Tornet.Udt.Throws
import Tornet.Udt.Closing
import Tornet.Udt.AckFormat
import Tornet.Rpc.Stream
import Tornet.Rpc.Callers
import Tornet.Rpc.Transport
import Tornet.Raw.RoundTrip
import Tornet.Connection.Buffers
import Tornet.Connection.Resources
import Tornet.Connection.Reflection
import Tornet.Connection.Ledger
import Tornet.Connection.Lookups
import Tornet.Connection.Channels
import Tornet.Connection.Numbers
import Tornet.Connection.Sharing
import Tornet.Connection.InPlace
import Tornet.Connection.Resuming
import Tornet.Connection.Routes
import Tornet.Connection.Budget
import Tornet.Connection.Layers
import Tornet.Node.Coherence
import Tornet.Node.Serving
import Tornet.Node.Priority
import Tornet.Node.Survival
import Tornet.Node.Connecting
import Tornet.Node.Near
import Tornet.Node.BitLengths
import Tornet.Node.Resort
import Tornet.Stores
import Tornet.Cafs.Entries
import Tornet.Cafs.Items
import Tornet.Cafs.Types
import Tornet.Cafs.Verified
import Tornet.Cafs.Serving
import Tornet.Chunk.Identity
import Tornet.Chunk.Publishable
import Tornet.Chunk.Publishing
import Tornet.Chunk.Download
import Tornet.Chunk.QueryCount
import Tornet.Chunk.Fetch
import Tornet.Chunk.Revenue
import Tornet.Chunk.MetaIndex
import Tornet.Chunk.PublishQueue
import Tornet.Chunk.Search
import Tornet.Kad.Termination
