import L4.EpochSafety
import L4.ReadWriteRefinement
import L4.Contents
import L4.ReadWriteCounters
import L4.ConcurrentLookupSafety
import L4.DeserializerFormat
import L4.ConcurrentSerialize
import L4.CacheRetention
import L4.CacheCapacity
import L4.CacheExcess
import L4.CacheMemoryCap
import L4.RejectedAdd
import L4.EpochRefPolicy
import L4.OldestEpoch
import L4.CalculateUnderflow
import L4.ServiceSafety
import L4.ServiceLinearizability
import L4.MurmurHash3
import L4.VisibleSections
import L4.LookupLinearizability
import L4.EpochThreads
import L4.ActionQueues
import L4.TableIteration
import L4.CacheIteration
import L4.CacheRecordSizes
import L4.HashTableManager
import L4.ChainLength
import L4.CacheTimeEviction
import L4.ExpiryTests
import L4.CacheAssertion
import L4.RunningThread
import L4.TableRegistry
import L4.ReRegistration
import L4.MetadataThreads
import L4.PerfCounterExtrema
import L4.ActionQueueCount
import L4.TableThreadProgress
import L4.EpochReclamation
import L4.LoadedTables
import L4.EpochCounters
import L4.CacheStatistics
import L4.SizeExtremes
