import DataRings.Store.ConcurrentGC
import DataRings.Auth.Handshake
import DataRings.Auth.ClientPool
import DataRings.Chord.Crashes
import DataRings.Blocks.ReadsDuringJoin
import DataRings.Store.Eviction
import DataRings.Store.UsageRace
import DataRings.Blocks.Rereplication
import DataRings.Blocks.PushMembership
import DataRings.Records.Republishing
import DataRings.Store.DatastoreRefinement
import DataRings.Store.Quiescence
import DataRings.Blocks.DeleteCID
import DataRings.Records.ProviderReplicas
import DataRings.Blocks.FetchGoroutines
import DataRings.Store.MetadataFailures
import DataRings.Store.PutOrder
import DataRings.Blocks.RemoteInput
import DataRings.Daemon.RingManager
import DataRings.Store.BlockCounts
import DataRings.Store.AbortedGC
import DataRings.Store.LiveRoots
import DataRings.Store.LocalGC
import DataRings.Store.RootLifetimes
import DataRings.Records.ProviderLists
import DataRings.Records.EntryTimes
import DataRings.Chord.Leaving
import DataRings.Chord.Handoffs
import DataRings.Chord.ListRounds
import DataRings.Blocks.PutAnywhere
import DataRings.Chord.Failover
import DataRings.Store.ForgottenRing
import DataRings.Store.RegistryNames
import DataRings.Store.RegistryRaces
import DataRings.Chord.RingArithmetic
import DataRings.Store.CacheRefinement
