import Attune.SeccompFaithful
import Attune.CompressedProgress
import Attune.PatchCounts
import Attune.PreprocessorSummaries
import Attune.MuplayDiscipline
import Attune.SchedulerRuns
import Attune.FdMirror
import Attune.CloneSimulation
import Attune.ElfReaderBounds
import Attune.SourceFilesSafe
import Attune.XSaveConversion
import Attune.RecordAttribution
import Attune.SyscallbufReceiveExact
import Attune.MuplayLoader
import Attune.PatchFileName
import Attune.MuplayLinkStrings
import Attune.MuplaySymbols
import Attune.MuplayElfReader
import Attune.MuplayFunctions
import Attune.PackExact
import Attune.SourceLinks
import Attune.ReplayTimelineOrder
import Attune.WatchAllocation
import Attune.DontForkRuns
import Attune.CoalesceAssertions
import Attune.LocalReleaseRuns
import Attune.CoalesceProtect
import Attune.SyscallbufOutcomes
import Attune.FreeMemory
import Attune.MprotectRecords
import Attune.GdbMemory
import Attune.TracePeek
import Attune.GdbRegisters
import Attune.Crc32
import Attune.DwarfNumbers
import Attune.DumpCommand
import Attune.JsonEscape
