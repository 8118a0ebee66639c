import CsfAssignments.ArrayFootprints
import CsfAssignments.BroadcastAuthors
import CsfAssignments.ByteMemory
import CsfAssignments.CIntegers
import CsfAssignments.CNumerals
import CsfAssignments.CacheAddressSlices
import CsfAssignments.CacheCompetitiveness
import CsfAssignments.CacheConfiguration
import CsfAssignments.CacheCounters
import CsfAssignments.CacheCycleOverflow
import CsfAssignments.CacheCycles
import CsfAssignments.CacheDirtyBits
import CsfAssignments.CacheFifoWindow
import CsfAssignments.CacheHitCounters
import CsfAssignments.CacheLruDistance
import CsfAssignments.CacheLruInclusion
import CsfAssignments.CacheModel
import CsfAssignments.CacheOrderInvariant
import CsfAssignments.CacheRefinement
import CsfAssignments.CacheReport
import CsfAssignments.CacheResidentTags
import CsfAssignments.CacheSetIndependence
import CsfAssignments.CacheStacks
import CsfAssignments.CacheTrace
import CsfAssignments.CacheWritePolicies
import CsfAssignments.CarryChains
import CsfAssignments.ChatConversations
import CsfAssignments.ChatProgress
import CsfAssignments.ChatReceivers
import CsfAssignments.ChatSenders
import CsfAssignments.CheckedArithmetic
import CsfAssignments.ClientLoops
import CsfAssignments.ClientPrograms
import CsfAssignments.ConnectionLifetime
import CsfAssignments.ConnectionModel
import CsfAssignments.DeliveryPrinting
import CsfAssignments.DeliverySizes
import CsfAssignments.HexNumerals
import CsfAssignments.HexdumpAgreement
import CsfAssignments.HexdumpColumns
import CsfAssignments.HexdumpDecoding
import CsfAssignments.HexdumpModel
import CsfAssignments.HexdumpOutput
import CsfAssignments.HexdumpReading
import CsfAssignments.HexdumpRows
import CsfAssignments.HexdumpStores
import CsfAssignments.ListSegments
import CsfAssignments.LockOrdering
import CsfAssignments.LoginHandshake
import CsfAssignments.MessageGrammar
import CsfAssignments.MessageQueueFifo
import CsfAssignments.MessageQueueModel
import CsfAssignments.PagingBounds
import CsfAssignments.ParsortAccesses
import CsfAssignments.ParsortCopyBack
import CsfAssignments.ParsortCorrectness
import CsfAssignments.ParsortCounters
import CsfAssignments.ParsortFailures
import CsfAssignments.ParsortFiles
import CsfAssignments.ParsortInvariant
import CsfAssignments.ParsortMain
import CsfAssignments.ParsortModel
import CsfAssignments.ParsortMoves
import CsfAssignments.ParsortProcesses
import CsfAssignments.ParsortRanges
import CsfAssignments.ParsortSteps
import CsfAssignments.ReceiverClient
import CsfAssignments.ReceiverHistory
import CsfAssignments.RecencyStacks
import CsfAssignments.Reorderings
import CsfAssignments.RequestLines
import CsfAssignments.RobustIO
import CsfAssignments.RoomDelivery
import CsfAssignments.RoomFeeds
import CsfAssignments.SenderAlone
import CsfAssignments.SenderAutomaton
import CsfAssignments.SenderBroadcasts
import CsfAssignments.SenderClient
import CsfAssignments.SenderHistory
import CsfAssignments.SenderReplies
import CsfAssignments.SenderSessions
import CsfAssignments.ServerDeadlock
import CsfAssignments.ServerDescriptors
import CsfAssignments.ServerModel
import CsfAssignments.ServerMoves
import CsfAssignments.ServerProgress
import CsfAssignments.ServerRest
import CsfAssignments.ServerRooms
import CsfAssignments.ServerSafety
import CsfAssignments.ServerStages
import CsfAssignments.ServerStreams
import CsfAssignments.SessionNames
import CsfAssignments.StreamCuts
import CsfAssignments.ThreadCounting
import CsfAssignments.TopicFeeds
import CsfAssignments.Transducers
import CsfAssignments.UInt256Addition
import CsfAssignments.UInt256Expressions
import CsfAssignments.UInt256Hex
import CsfAssignments.UInt256Model
import CsfAssignments.UInt256Multiplication
import CsfAssignments.WireRoundTrip
import CsfAssignments.WorkerHistory
import CsfAssignments.WorkerOutput
