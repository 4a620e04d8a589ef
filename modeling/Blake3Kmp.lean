import Blake3Kmp.CheckedMemory
import Blake3Kmp.TreeHash
import Blake3Kmp.Compression
import Blake3Kmp.Platform
import Blake3Kmp.Output
import Blake3Kmp.Reference
import Blake3Kmp.Chunk
import Blake3Kmp.Subtree
import Blake3Kmp.Hasher
import Blake3Kmp.HasherInvariant
import Blake3Kmp.HasherStale
import Blake3Kmp.HasherRuns
import Blake3Kmp.Kotlin
import Blake3Kmp.Stream
import Blake3Kmp.Jni
import Blake3Kmp.JniStream
import Blake3Kmp.StreamMessage
import Blake3Kmp.JniRuns
import Blake3Kmp.JniPins
import Blake3Kmp.ExtendedOutput
import Blake3Kmp.JniRange
import Blake3Kmp.Ownership
import Blake3Kmp.Programs
import Blake3Kmp.Threads
import Blake3Kmp.Loader
import Blake3Kmp.LoadOnce
import Blake3Kmp.Ffm
import Blake3Kmp.FfmMemory
import Blake3Kmp.FfmStream
import Blake3Kmp.FfmRuns
import Blake3Kmp.Streaming
import Blake3Kmp.DropIn
import Blake3Kmp.ArenaPool
import Blake3Kmp.ArenaDuties
import Blake3Kmp.ArenasKept
import Blake3Kmp.NoArenaLost
import Blake3Kmp.Dispatch
import Blake3Kmp.NativeApi
import Blake3Kmp.CpuFeatures
import Blake3Kmp.BitHelpers
import Blake3Kmp.JniCritical
import Blake3Kmp.FfmHandles
import Blake3Kmp.JniPool
import Blake3Kmp.JniDuties
import Blake3Kmp.JniPast
import Blake3Kmp.JniIsolated
import Blake3Kmp.CallTrees
import Blake3Kmp.Collisions
import Blake3Kmp.OneLoad
