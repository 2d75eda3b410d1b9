import KadDht.Queue.Refinement
import KadDht.Provider.History
import KadDht.Provider.Interleaved
import KadDht.Provider.Provide
import KadDht.Provider.CatchUp
import KadDht.Provider.Complete
import KadDht.Provider.Exclusion
import KadDht.Provider.Refresh
import KadDht.Keystore.ResetRace
import KadDht.Provider.Collection
import KadDht.Provider.Stats
import KadDht.Provider.Stop
import KadDht.Keystore.ResetBlocked
import KadDht.Keystore.ResetReturn
import KadDht.Lookup.Completed
import KadDht.Lookup.FindProviders
import KadDht.Values.Expiry
import KadDht.Values.Put
import KadDht.Values.GetValues
import KadDht.Optimistic.Completion
import KadDht.Connectivity.Shutdown
import KadDht.Buffered.Keystore
import KadDht.Buffered.Batch
import KadDht.Buffered.Wakeup
import KadDht.Keyspace.KeyspaceCovered
import KadDht.FullRT.RunCrawler
import KadDht.Providers.Transparent
import KadDht.Providers.Cleanup
import KadDht.Filters.CachedRouter
import KadDht.Filters.Diversity
import KadDht.RtRefresh.DoRefresh
import KadDht.FullRT.CheckPeers
