import MmdOS.UstarWalk
import MmdOS.StdinLock
import MmdOS.KeyboardLock
import MmdOS.SchedulerTurns
import MmdOS.ProcessAdd
import MmdOS.HeapDirectMap
import MmdOS.HeapCalls
import MmdOS.FailedOpens
import MmdOS.SchedulerChoice
import MmdOS.Mountpoints
import MmdOS.ProgramLoading
import MmdOS.UnopenedDescriptors
import MmdOS.ListingBounds
import MmdOS.FormatArguments
import MmdOS.GameCursor
import MmdOS.MemoryMapLoops
import MmdOS.NumberFormats
import MmdOS.Prompt
import MmdOS.SnakeRuns
import MmdOS.TypedPaths
import MmdOS.FormatStores
import MmdOS.OctalFields
import MmdOS.StringComparison
import MmdOS.ContextSwitch
import MmdOS.ExceptionFrames
