import MicroFramework.WireProtocol.Delivery
import MicroFramework.Heap.ClusterRun
import MicroFramework.Marking.Exactness
import MicroFramework.Compression.Lossless
import MicroFramework.Serial.FlowRuns
import MicroFramework.Serial.DataEvents
import MicroFramework.SimpleHeap.Correctness
import MicroFramework.Completions.Timeliness
import MicroFramework.Http.Delivery
import MicroFramework.WaitHandles.NoLostWakeup
import MicroFramework.Monitors.Exclusion
import MicroFramework.Persistence.Erasure
import MicroFramework.Messaging.Bounds
import MicroFramework.Usb.StreamRuns
import MicroFramework.Arithmetic.Conformance
import MicroFramework.Arithmetic.FixedPoint
import MicroFramework.AvlTree.Operations
import MicroFramework.Fat.ClusterChains
import MicroFramework.Fat.CacheTransparency
import MicroFramework.Streams.Compressed
import MicroFramework.WearLeveling.FreeBlockSearch
import MicroFramework.Queues.Fifo
import MicroFramework.Time.DateTimeArithmetic
import MicroFramework.Time.TimeSpan
import MicroFramework.Unicode.Slicing
import MicroFramework.Delegates.CombineRemove
import MicroFramework.Collections.ArrayListIndexed
import MicroFramework.Text.DigitGrouping
import MicroFramework.Text.Base64Exactness
import MicroFramework.ManagedStreams.Refinement
import MicroFramework.Mesh.BroadcastFilter
import MicroFramework.Mesh.FragmentTimerRuns
import MicroFramework.Http.HeaderDelivery
import MicroFramework.Http.UriEquality
import MicroFramework.Collections.HashtableRefinement
import MicroFramework.Graphics.Decompress
import MicroFramework.Graphics.BmpDecoder
import MicroFramework.Graphics.LzwSessions
import MicroFramework.Graphics.CirclePath
import MicroFramework.Graphics.DivHelper
import MicroFramework.Paths.NormalizePath
import MicroFramework.BlockStorage.StreamRuns
import MicroFramework.Xml.ScopeRuns
import MicroFramework.Volumes.UniqueNames
import MicroFramework.TypeSystem.NameLookup
import MicroFramework.TypeSystem.TypeTests
import MicroFramework.TypeSystem.Attributes
import MicroFramework.Messaging.MessageCacheRuns
import MicroFramework.TinyBooter.KeyAuthority
import MicroFramework.Wireless.NeighborTable
import MicroFramework.Wireless.AddressServer
import MicroFramework.Wireless.Acknowledgement
import MicroFramework.Wireless.FrameRefinement
