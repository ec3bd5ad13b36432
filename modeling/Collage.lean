import Collage.Rsp.Stall
import Collage.Rsp.Writer
import Collage.Rsp.Integrity
import Collage.Rsp.JoinSafe
import Collage.Rsp.Agreement
import Collage.Rsp.EarlyNack
import Collage.Rsp.Resent
import Collage.Rsp.AckCursor
import Collage.Rsp.Eviction
import Collage.Rsp.AckRequest
import Collage.Rsp.Shutdown
import Collage.Stream.Resend
import Collage.Stream.Senders
import Collage.Stream.Archive
import Collage.Cache.Accounting
import Collage.Cache.Whole
import Collage.Cache.Pins
import Collage.Cache.Crowded
import Collage.Cache.Advertised
import Collage.Cache.Fresh
import Collage.Object.MapData
import Collage.Object.Future
import Collage.Object.Lag
import Collage.Object.Retention
import Collage.Object.Delta
import Collage.Object.Serializable
import Collage.Node.Description
import Collage.Node.SendToken
import Collage.Node.Dispatch
import Collage.Node.SendQueue
import Collage.Node.Simultaneous
import Collage.ObjectMap.Replica
import Collage.Barrier.Rounds
import Collage.Queue.Queue
import Collage.Queue.Stealing
import Collage.Rdma.Region
import Collage.Stream.Portable
import Collage.Queue.LoadAware
import Collage.Queue.Equal
import Collage.Node.Global
import Collage.Node.Truncated
import Collage.Node.BufferCache
import Collage.Object.SlaveCommits
import Collage.Object.Children
import Collage.Object.Rebuilt
import Collage.Stream.Receivers
import Collage.Stream.DataCommand
import Collage.Node.Receive
import Collage.Object.InstanceIDs
import Collage.Node.Delivery
import Collage.Node.Versions
import Collage.Node.ObjectDispatch
import Collage.Node.Replication
import Collage.Node.DirtyBits
import Collage.Node.PollResults
import Collage.Object.Push
