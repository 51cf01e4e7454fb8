import Gull.Common
import Gull.ShelfHeap.Layout
import Gull.ShelfHeap.Concurrent
import Gull.ShelfHeap.Retry
import Gull.ShelfHeap.Blocks
import Gull.ShelfHeap.Persistence
import Gull.ShelfMgmt.ShelfFile
import Gull.EpochZoneHeap.Reclaim
import Gull.EpochZoneHeap.Conservation
import Gull.EpochZoneHeap.Progress
import Gull.EpochZoneHeap.IndexStack
import Gull.EpochZoneHeap.Refinement
import Gull.EpochZoneHeap.Lifecycle
import Gull.EpochZoneHeap.Cleaner
import Gull.EpochZoneHeap.Handshake
