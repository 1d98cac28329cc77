import Alto.App.ClientSelection
import Alto.App.GuidanceMatrix
import Alto.App.PGMSelectionManager
import Alto.App.PeerDistribution
import Alto.App.PeerSelection
import Alto.App.Refresh
import Alto.App.SwarmState
import Alto.App.UpdateManager
import Alto.Common.Double
import Alto.Common.HeapWithDelete
import Alto.Common.ISPPIDMap
import Alto.Common.IStream
import Alto.Common.Patricia
import Alto.Common.PatriciaTrie
import Alto.Common.PortalClient
import Alto.Common.Prefix
import Alto.Common.RawPrefix
import Alto.Common.RequestWriter
import Alto.Common.ResponseReader
import Alto.Common.SharedMutex
import Alto.Lib.Agenda
import Alto.Lib.Blocks
import Alto.Lib.Cut
import Alto.Lib.Decimal
import Alto.Lib.Draws
import Alto.Lib.LessMap
import Alto.Lib.Loops
import Alto.Lib.MapEntries
import Alto.Lib.Radix
import Alto.Lib.Reach
import Alto.Lib.Resume
import Alto.Lib.Rounding
import Alto.Lib.Rounds
import Alto.Lib.Run
import Alto.Lib.ShortestPath
import Alto.Lib.StdMap
import Alto.Lib.Threads
import Alto.Lib.TokenGrammar
import Alto.Lib.TokenReader
import Alto.Portal.AdminAction
import Alto.Portal.AdminState
import Alto.Portal.AdminTxn
import Alto.Portal.AltoHandlers
import Alto.Portal.AltoRequests
import Alto.Portal.CostHandlers
import Alto.Portal.GlobalState
import Alto.Portal.InfoRes
import Alto.Portal.JsonRead
import Alto.Portal.JsonWrite
import Alto.Portal.JsonWriter
import Alto.Portal.MLUPlugin
import Alto.Portal.PostFilters
import Alto.Portal.RequestProcess
import Alto.Portal.ViewHandlers
import Alto.Portal.ViewUpdate
import Alto.Server.ContentReader
import Alto.Server.DistObj
import Alto.Server.GzipReader
import Alto.Server.JobQueue
import Alto.Server.Locking
import Alto.Server.NetState
import Alto.Server.PIDAggregation
import Alto.Server.PIDMatrix
import Alto.Server.PIDRoutes
import Alto.Server.PIDRouting
import Alto.Server.Request
import Alto.Verify.AdminCopy
import Alto.Verify.AdminEffect
import Alto.Verify.AdminFailure
import Alto.Verify.AdminIsolation
import Alto.Verify.AdminPrefixes
import Alto.Verify.AdminRollback
import Alto.Verify.AdminRun
import Alto.Verify.AdminTree
import Alto.Verify.AdminUpdate
import Alto.Verify.AltoMaps
import Alto.Verify.AltoRequests
import Alto.Verify.AltoServices
import Alto.Verify.BlockSizes
import Alto.Verify.CleanReaders
import Alto.Verify.ClientCosts
import Alto.Verify.ClientPeers
import Alto.Verify.ClientSelection
import Alto.Verify.Constraints
import Alto.Verify.ContentReader
import Alto.Verify.CostMaps
import Alto.Verify.CostsRequest
import Alto.Verify.CostsWrite
import Alto.Verify.DistObj
import Alto.Verify.FillPeers
import Alto.Verify.FillSound
import Alto.Verify.GuidanceMatrix
import Alto.Verify.GuidanceOptions
import Alto.Verify.GuidanceTask
import Alto.Verify.GzipReader
import Alto.Verify.HeapRuns
import Alto.Verify.HeapWithDelete
import Alto.Verify.IStream
import Alto.Verify.Isolation
import Alto.Verify.JobQueue
import Alto.Verify.JsonBodies
import Alto.Verify.JsonRead
import Alto.Verify.JsonRoundTrip
import Alto.Verify.JsonScan
import Alto.Verify.JsonWrite
import Alto.Verify.Locking
import Alto.Verify.MLUPlugin
import Alto.Verify.NetFastPath
import Alto.Verify.NetGraph
import Alto.Verify.NetMerge
import Alto.Verify.NetState
import Alto.Verify.ObjSim
import Alto.Verify.ObjTree
import Alto.Verify.OpenTxn
import Alto.Verify.PDistanceLoad
import Alto.Verify.PIDMapLoad
import Alto.Verify.PIDMapWrite
import Alto.Verify.PIDMatrix
import Alto.Verify.PIDOrder
import Alto.Verify.PIDRoutes
import Alto.Verify.PIDTable
import Alto.Verify.PIDText
import Alto.Verify.Patricia
import Alto.Verify.PatriciaTrie
import Alto.Verify.PeerBuckets
import Alto.Verify.PeerManager
import Alto.Verify.PeerRebuild
import Alto.Verify.PostFilters
import Alto.Verify.PrefixMap
import Alto.Verify.PrefixText
import Alto.Verify.ProgPost
import Alto.Verify.ProgUnder
import Alto.Verify.RawPrefix
import Alto.Verify.Refresh
import Alto.Verify.RepeatedPrefixes
import Alto.Verify.RequestBody
import Alto.Verify.RequestWriter
import Alto.Verify.ResponseReader
import Alto.Verify.ResponseText
import Alto.Verify.Sampling
import Alto.Verify.SelectPeer
import Alto.Verify.SelectionBounds
import Alto.Verify.SelectionCourse
import Alto.Verify.SelectionEnds
import Alto.Verify.SelectionFresh
import Alto.Verify.SelectionLocks
import Alto.Verify.SelectionReturns
import Alto.Verify.SelectionRules
import Alto.Verify.SelectionStages
import Alto.Verify.ServedCosts
import Alto.Verify.SharedMutex
import Alto.Verify.StaticRoutes
import Alto.Verify.SwarmStats
import Alto.Verify.TaskStore
import Alto.Verify.Text
import Alto.Verify.UnknownISP
import Alto.Verify.UpdateManager
import Alto.Verify.UpdateRest
import Alto.Verify.ViewConsistency
import Alto.Verify.ViewCosts
import Alto.Verify.ViewInterdomain
import Alto.Verify.ViewObjects
import Alto.Verify.ViewPDistances
import Alto.Verify.ViewPIDs
import Alto.Verify.ViewRegistry
import Alto.Verify.ViewStatic
import Alto.Verify.ViewTopology
import Alto.Verify.ViewUpdate
import Alto.Verify.ViewVertices
