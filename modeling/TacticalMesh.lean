import TacticalMesh.Table
import TacticalMesh.Runs
import TacticalMesh.TaskPool
import TacticalMesh.Walks
import TacticalMesh.Chunks
import TacticalMesh.LazyDijkstra
import TacticalMesh.ShortestPathTree
import TacticalMesh.QueueOrder
import TacticalMesh.CheckedSearch
import TacticalMesh.OlsrTypes
import TacticalMesh.OlsrState
import TacticalMesh.OlsrRoutes
import TacticalMesh.TwoHopTable
import TacticalMesh.WorseLinks
import TacticalMesh.HopByHop
import TacticalMesh.NextHops
import TacticalMesh.TcDedup
import TacticalMesh.TcSequence
import TacticalMesh.KeepGreater
import TacticalMesh.AppMessages
import TacticalMesh.TargetBoard
import TacticalMesh.BoardContents
import TacticalMesh.BoardHandlers
import TacticalMesh.ReportOrder
import TacticalMesh.BoardTasks
import TacticalMesh.CommandOrder
import TacticalMesh.Funnel
import TacticalMesh.ByteStrings
import TacticalMesh.Bincode
import TacticalMesh.WireHeaders
import TacticalMesh.Fec
import TacticalMesh.RsDecoder
import TacticalMesh.Interpolation
import TacticalMesh.InterpolatingCode
import TacticalMesh.FecDecode
import TacticalMesh.NonceCache
import TacticalMesh.ReplayRuns
import TacticalMesh.Crypto
import TacticalMesh.EpochRotation
import TacticalMesh.RecvTimeout
import TacticalMesh.Frame
import TacticalMesh.HeaderCodec
import TacticalMesh.Fleet
import TacticalMesh.SealedFrame
import TacticalMesh.FrameRoundTrip
import TacticalMesh.Sharding
import TacticalMesh.FrameViews
import TacticalMesh.FrameIntegrity
import TacticalMesh.RejectedFrames
import TacticalMesh.Forwarding
import TacticalMesh.RelayNetwork
import TacticalMesh.Scheduler
import TacticalMesh.QueueHistory
import TacticalMesh.TxScheduler
import TacticalMesh.Node
import TacticalMesh.ChannelOrder
import TacticalMesh.ChannelRecord
import TacticalMesh.RxLoop
import TacticalMesh.Payloads
import TacticalMesh.MeshNetwork
import TacticalMesh.RxPipeline
import TacticalMesh.NodeContents
import TacticalMesh.RecentEvents
import TacticalMesh.JamRounds
import TacticalMesh.JamEpisodes
import TacticalMesh.AttackCounters
import TacticalMesh.NetContents
import TacticalMesh.NeighborTables
import TacticalMesh.HelloTruth
import TacticalMesh.LinkQualities
import TacticalMesh.ImageBurst
import TacticalMesh.AttackedNetwork
import TacticalMesh.Provenance
import TacticalMesh.JamSplit
import TacticalMesh.ImageCache
import TacticalMesh.ImageCacheRuns
import TacticalMesh.ImageBlocks
import TacticalMesh.ImageTransfer
import TacticalMesh.ImageReceipt
import TacticalMesh.LateProgress
import TacticalMesh.ImageResponders
import TacticalMesh.BlockAssembly
import TacticalMesh.UnicastCopies
import TacticalMesh.UnicastDelivery
import TacticalMesh.TcFlooding
import TacticalMesh.TcCoverage
import TacticalMesh.TopologyRows
import TacticalMesh.MeshConvergence
