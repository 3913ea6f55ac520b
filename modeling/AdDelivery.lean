import AdDelivery.AggregatorManager.Paging
import AdDelivery.AggregatorManager.PropertyRange
import AdDelivery.AggregatorManager.SearchCache
import AdDelivery.AggregatorManager.SummaryResult
import AdDelivery.Common.MergeRun
import AdDelivery.Common.QueryNormalizer
import AdDelivery.GroupManager.MergedAttrs
import AdDelivery.GroupManager.MultiSelect
import AdDelivery.GroupManager.RangePartition
import AdDelivery.GroupManager.ResizeTo
import AdDelivery.GroupManager.ThreadFacets
import AdDelivery.IndexWorker.BufferedIndexing
import AdDelivery.IndexWorker.UpdateInplace
import AdDelivery.Mining.DnfText
import AdDelivery.Mining.DocTableRun
import AdDelivery.Mining.SplitUstr
import AdDelivery.NodeManager.CachedCheckSum
import AdDelivery.NodeManager.DeliveryOrder
import AdDelivery.NodeManager.LogForward
import AdDelivery.NodeManager.MigrateScds
import AdDelivery.NodeManager.ReplayLog
import AdDelivery.NodeManager.StepRelease
import AdDelivery.NodeManager.SyncReqLog
import AdDelivery.NodeManager.SynchroRun
import AdDelivery.NodeManager.WriteAgreement
import AdDelivery.QueryManager.EscapeOperator
import AdDelivery.QueryManager.QueryTree
import AdDelivery.Recommender.FeatureDictionary
import AdDelivery.Recommender.LatentNorm
import AdDelivery.SearchManager.AllDocumentIterator
import AdDelivery.SearchManager.ExactPhrase
import AdDelivery.SearchManager.FilterTree
import AdDelivery.SearchManager.NearbyPhrase
import AdDelivery.SearchManager.Nested.IteratorTree
import AdDelivery.SearchManager.Nested.TermLists
import AdDelivery.SearchManager.NextEnumeration
import AdDelivery.SearchManager.SortOrder
import AdDelivery.SearchManager.WANDSkip
import AdDelivery.SearchManager.WildcardPhrase
import AdDelivery.Selector.AdSelector
import AdDelivery.Sharding.AddShards
import AdDelivery.Sharding.MigrationSafety
import AdDelivery.Sharding.RemoveShards
import AdDelivery.Sponsored.BidFeasibility
import AdDelivery.Sponsored.BroadMatch
import AdDelivery.Sponsored.BudgetLedger
import AdDelivery.Sponsored.GeneticBid
import AdDelivery.Sponsored.HourHistory
import AdDelivery.Sponsored.KeywordCTR
import AdDelivery.Sponsored.Persistence
import AdDelivery.Sponsored.PhraseDeletion
import AdDelivery.Sponsored.SecondPrice
import AdDelivery.Sponsored.UniformHull
import AdDelivery.Stream.Feedback
import AdDelivery.SuffixMatch.GroupFilterExact
import AdDelivery.SuffixMatch.IntervalSampling
import AdDelivery.SuffixMatch.StringRanges
