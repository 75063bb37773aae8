import CachingFileSystem.Containers.NodeList
import CachingFileSystem.Containers.MachineInt
import CachingFileSystem.Containers.LastMinimum
import CachingFileSystem.Containers.RenewedNodes
import CachingFileSystem.Containers.MappedNodes
import CachingFileSystem.Containers.CString
import CachingFileSystem.Containers.TextLines
import CachingFileSystem.Arithmetic.Rounding
import CachingFileSystem.Arithmetic.Doubles
import CachingFileSystem.Transitions.Loops
import CachingFileSystem.Transitions.Runs
import CachingFileSystem.ReplacementPolicy.FrequencyCache
import CachingFileSystem.ReplacementPolicy.RecencyOrder
import CachingFileSystem.ReplacementPolicy.ReuseDistance
import CachingFileSystem.ReplacementPolicy.Evolution
import CachingFileSystem.ReplacementPolicy.WorkingSet
import CachingFileSystem.ReplacementPolicy.Thrashing
import CachingFileSystem.ReplacementPolicy.BoundedCounts
import CachingFileSystem.ReplacementPolicy.FrequentKeys
import CachingFileSystem.ReplacementPolicy.LeastRecentlyUsed
import CachingFileSystem.ReplacementPolicy.Competitiveness
import CachingFileSystem.DirectoryTree.Names
import CachingFileSystem.DirectoryTree.Tree
import CachingFileSystem.DirectoryTree.Absence
import CachingFileSystem.DirectoryTree.RenameBack
import CachingFileSystem.BufferCache.CacheBlock
import CachingFileSystem.BufferCache.CacheManager
import CachingFileSystem.BufferCache.Representation
import CachingFileSystem.BufferCache.Lookup
import CachingFileSystem.BufferCache.Insertion
import CachingFileSystem.BufferCache.Construction
import CachingFileSystem.BufferCache.Refinement
import CachingFileSystem.BufferCache.MachineCounts
import CachingFileSystem.BufferCache.Runs
import CachingFileSystem.BufferCache.Invariants
import CachingFileSystem.BufferCache.Recency
import CachingFileSystem.BufferCache.RenamedPaths
import CachingFileSystem.BufferCache.MappedPaths
import CachingFileSystem.BufferCache.AccessHistory
import CachingFileSystem.BufferCache.Retention
import CachingFileSystem.BufferCache.BoundaryNodes
import CachingFileSystem.BufferCache.ConstructedNodes
import CachingFileSystem.FileSystem.Operations
import CachingFileSystem.FileSystem.Ranges
import CachingFileSystem.FileSystem.Coherence
import CachingFileSystem.FileSystem.CopyPlan
import CachingFileSystem.FileSystem.SingleBytes
import CachingFileSystem.FileSystem.DefinedReads
import CachingFileSystem.FileSystem.ReadTransparency
import CachingFileSystem.FileSystem.HitMissAgreement
import CachingFileSystem.FileSystem.CacheContents
import CachingFileSystem.FileSystem.Collisions
import CachingFileSystem.FileSystem.DuplicateInserts
import CachingFileSystem.FileSystem.DiskTraffic
import CachingFileSystem.FileSystem.ReadCounts
import CachingFileSystem.FileSystem.Fractions
import CachingFileSystem.FileSystem.Startup
import CachingFileSystem.FileSystem.EndOfFile
import CachingFileSystem.FileSystem.StoredBlocks
import CachingFileSystem.FileSystem.PlaceholderTests
import CachingFileSystem.FileSystem.ClientOperations
import CachingFileSystem.FileSystem.Machine
import CachingFileSystem.FileSystem.MachineSteps
import CachingFileSystem.FileSystem.RenamedTrees
import CachingFileSystem.FileSystem.PathBuffers
import CachingFileSystem.FileSystem.LogFormat
import CachingFileSystem.FileSystem.CachedPaths
import CachingFileSystem.FileSystem.PathOwners
import CachingFileSystem.FileSystem.LogIntegrity
import CachingFileSystem.FileSystem.Handles
import CachingFileSystem.FileSystem.Probes
import CachingFileSystem.FileSystem.HiddenLog
import CachingFileSystem.FileSystem.OpenObjects
import CachingFileSystem.FileSystem.Passthrough
import CachingFileSystem.FileSystem.UndoneRenames
import CachingFileSystem.FileSystem.RenameOrder
import CachingFileSystem.FileSystem.SequentialReads
import CachingFileSystem.FileSystem.NamelessReads
import CachingFileSystem.FileSystem.ErasedCalls
