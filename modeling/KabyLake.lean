import KabyLake.Library.Run
import KabyLake.Library.Loops
import KabyLake.Library.Local
import KabyLake.Library.CInt
import KabyLake.Basic
import KabyLake.Addr
import KabyLake.Memory
import KabyLake.PageWalk
import KabyLake.TlbHrchy
import KabyLake.Proofs.Walk
import KabyLake.Proofs.TlbHrchySearch
import KabyLake.Proofs.TlbHrchyRuns
import KabyLake.Library.Linked
import KabyLake.LinkedList
import KabyLake.Proofs.LinkedListSpec
import KabyLake.Library.Recency
import KabyLake.Proofs.TlbLru
import KabyLake.Proofs.TlbRuns
import KabyLake.Proofs.VirtAddrCodec
import KabyLake.Proofs.PhyAddrCodec
import KabyLake.Commands
import KabyLake.Library.Fuel
import KabyLake.Proofs.ProgramRead
import KabyLake.Cache
import KabyLake.CacheAccess
import KabyLake.Proofs.CacheOps
import KabyLake.Proofs.CacheCases
import KabyLake.Proofs.CachePlaces
import KabyLake.Proofs.CacheKept
import KabyLake.CacheSystem
import KabyLake.Proofs.CacheExclusive
import KabyLake.Proofs.CacheMatches
import KabyLake.Proofs.CacheWriteThrough
import KabyLake.Proofs.CacheTransparency
import KabyLake.Library.Ages
import KabyLake.Proofs.CacheLru
import KabyLake.Proofs.LinkedListRuns
import KabyLake.Proofs.ProgramPrint
import KabyLake.Proofs.CacheLookup
import KabyLake.Proofs.CacheFill
import KabyLake.Proofs.CacheSlots
import KabyLake.Proofs.CachePromotion
import KabyLake.Proofs.CacheWord
import KabyLake.Proofs.CacheByte
import KabyLake.Proofs.CacheMalloc
import KabyLake.Library.Blocks
import KabyLake.MemoryInit
import KabyLake.Proofs.MemoryLoad
import KabyLake.Proofs.MemoryLoadOrder
import KabyLake.Proofs.Flushes
import KabyLake.Proofs.TlbHrchyDirect
import KabyLake.Proofs.TlbHrchyInvalidation
import KabyLake.Proofs.TlbHrchyPairs
import KabyLake.Proofs.TlbFailure
import KabyLake.Proofs.CacheFrame
import KabyLake.Proofs.ProgramEnds
import KabyLake.Proofs.ProgramListing
import KabyLake.Proofs.LinkedListMove
import KabyLake.Library.Ranks
import KabyLake.Proofs.AgeRanks
import KabyLake.MemoryDump
import KabyLake.Proofs.PageDump
import KabyLake.Proofs.PageDumpText
import KabyLake.Proofs.LoaderText
import KabyLake.Proofs.LoaderSteps
import KabyLake.Proofs.LoaderEnds
import KabyLake.Proofs.LoaderBounds
import KabyLake.Proofs.WalkBounds
import KabyLake.Proofs.CacheRepeat
import KabyLake.Library.Trace
import KabyLake.Library.Printf
import KabyLake.Proofs.CacheDump
import KabyLake.TestCache
import KabyLake.Proofs.CacheCoherence
import KabyLake.Library.Resident
import KabyLake.Proofs.CacheWorkingSet
import KabyLake.Proofs.TestCacheTranslation
import KabyLake.Proofs.TestCacheProgram
import KabyLake.Proofs.TestCacheMain
import KabyLake.Proofs.TlbReuse
import KabyLake.Prints
import KabyLake.Proofs.Prints
import KabyLake.Proofs.TlbHrchyStore
import KabyLake.Proofs.TlbListed
import KabyLake.TestCommands
import KabyLake.TestMemory
import KabyLake.TestTlbHrchy
import KabyLake.TestTlbSimple
import KabyLake.Proofs.TestCommands
import KabyLake.Proofs.TestMemory
import KabyLake.Proofs.TestTlbHrchy
import KabyLake.Proofs.TestTlbSimple
import KabyLake.Proofs.ProgramGrammar
import KabyLake.Proofs.TestCacheResidue
import KabyLake.Proofs.CacheViews
import KabyLake.Proofs.TestCacheViews
import KabyLake.Library.Draws
import KabyLake.TestAddr
import KabyLake.Proofs.TestAddr
