import JarJar.Types
import JarJar.Stdlib
import JarJar.Stdio
import JarJar.StdioPrefix
import JarJar.Ctype
import JarJar.Memory
import JarJar.Strtol
import JarJar.StrtoulGrammar
import JarJar.Strings
import JarJar.StringCopies
import JarJar.NumberBuffer
import JarJar.RoundTrip
import JarJar.Time
import JarJar.TimeOrder
import JarJar.Strftime
import JarJar.StrftimeBounds
import JarJar.StrftimeFields
import JarJar.StrftimeNames
import JarJar.Qsort
import JarJar.Lib.PackedBits
import JarJar.Lib.Pool
import JarJar.Lib.RadixForest
import JarJar.Lib.Runs
import JarJar.Lib.Buckets
import JarJar.Lib.Gregorian
import JarJar.Lib.Chain
import JarJar.Lib.CountedLoop
import JarJar.Lib.Exact
import JarJar.Lib.Lomuto
import JarJar.Lib.Words
import JarJar.Lib.Reversal
import JarJar.Lib.LongestPrefix
import JarJar.Lib.Raster
import JarJar.Lib.LittleEndian
import JarJar.Jarfs
import JarJar.JarfsMounts
import JarJar.JarfsMountErrors
import JarJar.JarfsChecksum
import JarJar.JarfsFormat
import JarJar.JarfsRemount
import JarJar.JarfsRead
import JarJar.JarfsDevice
import JarJar.JarfsStale
import JarJar.JarfsClamp
import JarJar.Shell
import JarJar.ShellWords
import JarJar.ShellBuffers
import JarJar.Console
import JarJar.ConsoleBounds
import JarJar.ConsoleText
import JarJar.ConsoleFormat
import JarJar.ConsoleScan
import JarJar.ConsoleDecimal
import JarJar.Puts
import JarJar.Pmm
import JarJar.PmmRuns
import JarJar.PmmInit
import JarJar.PmmBounds
import JarJar.PmmExhausted
import JarJar.Paging
import JarJar.Vmm
import JarJar.VmmLayout
import JarJar.VmmMap
import JarJar.VmmTables
import JarJar.VmmPerms
import JarJar.VmmSpaces
import JarJar.VmmShared
import JarJar.VmmOutOfPages
import JarJar.Framebuffer
import JarJar.DrawLine
import JarJar.JarvisCore
import JarJar.JarvisInit
import JarJar.JarvisKnowledge
import JarJar.JarvisTerminated
import JarJar.JarvisAnswer
import JarJar.Memmove
import JarJar.ConsoleScroll
import JarJar.Allocation
import JarJar.BoundedReads
import JarJar.Bsearch
import JarJar.StringSearch
import JarJar.StringOrder
import JarJar.Trim
import JarJar.Strtok
import JarJar.KernelMemory
import JarJar.KernelRuns
import JarJar.KernelSpaces
import JarJar.KernelBudget
import JarJar.KernelBoot
import JarJar.ConsoleTranscript
import JarJar.ShellCommands
import JarJar.ShellPrints
import JarJar.ShellSession
import JarJar.ShellTable
import JarJar.ShellLines
import JarJar.ShellAnswers
import JarJar.JarfsStorage
import JarJar.JarfsContents
import JarJar.Screen
import JarJar.WindowManager
import JarJar.Lib.Congruential
import JarJar.Rand
import JarJar.Lib.Unwinding
import JarJar.StrtokClients
import JarJar.SortedSearch
import JarJar.StrftimeText
import JarJar.JarfsFreeSpace
import JarJar.KernelMain
import JarJar.StringScans
