import TaNode.Correlation.Bounds
import TaNode.Correlation.Growth
import TaNode.Correlation.OrderFree
import TaNode.Correlation.Pairing
import TaNode.Correlation.Pending
import TaNode.Correlation.Retransmit
import TaNode.Correlation.Throttle
import TaNode.Counter.Window
import TaNode.Detector.Status
import TaNode.Intel.Concurrent
import TaNode.Intel.Feed
import TaNode.Intel.Hosts
import TaNode.Intel.Keys
import TaNode.Intel.Limit
import TaNode.Intel.Listing
import TaNode.Intel.Reload
import TaNode.Intel.Writes
import TaNode.Pipeline.Conversation
import TaNode.Pipeline.Replay
import TaNode.Pipeline.Roles
import TaNode.Queue.Admin
import TaNode.Queue.Collect
import TaNode.Queue.Drain
import TaNode.Queue.Lookup
import TaNode.Queue.MigrateExact
import TaNode.Queue.OnePlace
import TaNode.Queue.PageArithmetic
import TaNode.Queue.Pages
import TaNode.Queue.Recent
import TaNode.Queue.ShardOrder
import TaNode.Queue.Slice
import TaNode.Queue.Summaries
import TaNode.Pcap.Archive
import TaNode.Server.Saves
