import Yokan.Library.Buffer
import Yokan.Library.LittleEndian
import Yokan.Library.PartialMap
import Yokan.Library.Transition
import Yokan.Library.Counting
import Yokan.Library.Paging
import Yokan.Library.Cursor
import Yokan.Common
import Yokan.Backend
import Yokan.InMemory
import Yokan.Map
import Yokan.UnorderedMap
import Yokan.Filters
import Yokan.MapListing
import Yokan.DocMixin
import Yokan.Collections
import Yokan.DocMixinRefinement
import Yokan.DocMixinInvariants
import Yokan.DocMixinDocuments
import Yokan.DocMixinListing
import Yokan.DocMixinIsolation
import Yokan.Library.IdMap
import Yokan.Array
import Yokan.ArrayRefinement
import Yokan.Library.Ensures
import Yokan.ChunkCache
import Yokan.Log
import Yokan.LogCache
import Yokan.LogRefinement
import Yokan.LogDatabase
import Yokan.LogDocuments
import Yokan.LogIndex
import Yokan.LogPersistence
import Yokan.Library.ByteStream
import Yokan.Migration
import Yokan.ArrayMigration
import Yokan.ProviderMigration
import Yokan.Callbacks
import Yokan.Fetch
import Yokan.Iteration
import Yokan.Library.Interleaving
import Yokan.DocMixinConcurrency
import Yokan.DocMixinDrop
import Yokan.Consume
import Yokan.Delivery
import Yokan.ConsumeFetch
import Yokan.DocFetch
import Yokan.DocIteration
import Yokan.DocCopies
import Yokan.DocListing
import Yokan.Library.Patch
import Yokan.ListingWrites
import Yokan.GetWrites
import Yokan.DocWrites
import Yokan.Handlers
import Yokan.BulkLayout
import Yokan.BufferReuse
import Yokan.Engines
import Yokan.PackedGet
import Yokan.Library.Slots
import Yokan.SharedDocuments
import Yokan.GetValues
import Yokan.DocLoad
import Yokan.LogSpace
import Yokan.LogIteration
import Yokan.LogReopened
import Yokan.LogStatus
import Yokan.LogReports
import Yokan.ConsumeValues
import Yokan.UnsortedListing
import Yokan.UnsortedPages
import Yokan.Inert
import Yokan.FetchStops
import Yokan.PrefixStop
import Yokan.KeepLast
import Yokan.EngineListing
import Yokan.ListingAgreement
import Yokan.BerkeleyListing
import Yokan.PushedValues
import Yokan.HandlerBounds
import Yokan.WaitingReaders
import Yokan.Watcher
import Yokan.Wakeups
import Yokan.KeySearch
import Yokan.BoundsChecks
import Yokan.Notifications
import Yokan.Library.NodeList
import Yokan.Library.Recency
import Yokan.BulkCaches
import Yokan.Serializers
import Yokan.DirectUpdate
import Yokan.LogDirectUpdate
import Yokan.Library.Bits
import Yokan.Requests
import Yokan.Sessions
import Yokan.Library.Trace
import Yokan.Sets
import Yokan.SetListing
import Yokan.Library.Journal
import Yokan.EngineStores
import Yokan.FailedWrites
import Yokan.EngineMaps
import Yokan.DocRequests
import Yokan.DocSessions
import Yokan.LogWrites
