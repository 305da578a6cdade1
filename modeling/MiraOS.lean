import MiraOS.Machine.Bitmap
import MiraOS.Machine.Bytes
import MiraOS.Machine.Run
import MiraOS.Machine.Words
import MiraOS.Kernel.Mem
import MiraOS.Kernel.MemBoot
import MiraOS.Kernel.BootMap
import MiraOS.Arch.Paging
import MiraOS.Arch.PagingTree
import MiraOS.Arch.PagingWalk
import MiraOS.Arch.PagingRefinement
import MiraOS.Arch.PagingFrames
import MiraOS.Arch.PagingMemory
import MiraOS.Kernel.Heap
import MiraOS.Kernel.HeapBlocks
import MiraOS.Machine.Chain
import MiraOS.Machine.Tiling
import MiraOS.Machine.Traced
import MiraOS.Kernel.HeapList
import MiraOS.Kernel.HeapLayout
import MiraOS.Kernel.HeapFree
import MiraOS.Kernel.HeapInvariant
import MiraOS.Kernel.HeapAlloc
import MiraOS.Kernel.HeapKmalloc
import MiraOS.Kernel.HeapSlab
import MiraOS.Kernel.HeapSystem
import MiraOS.Kernel.HeapRuns
import MiraOS.Kernel.HeapAnswers
import MiraOS.Kernel.HeapAdequate
import MiraOS.Kernel.HeapTiling
import MiraOS.Kernel.HeapCaches
import MiraOS.Kernel.HeapRealloc
import MiraOS.Kernel.HeapCalloc
import MiraOS.Drivers.Keyboard
import MiraOS.Drivers.KeyboardFifo
import MiraOS.Drivers.Interrupts
import MiraOS.Drivers.InterruptRouting
import MiraOS.Drivers.Framebuffer
import MiraOS.Drivers.DoubleBuffering
import MiraOS.Kernel.BootWalk
import MiraOS.Machine.Text
import MiraOS.Lib.Strings
import MiraOS.Machine.Records
import MiraOS.Machine.Keyed
import MiraOS.Machine.Histories
import MiraOS.Machine.Slots
import MiraOS.Ui.NamedRecords
import MiraOS.Ui.Variables
import MiraOS.Ui.Aliases
import MiraOS.Machine.Threaded
import MiraOS.Machine.Cells
import MiraOS.Lib.DsArray
import MiraOS.Lib.DsHashmap
import MiraOS.Lib.DsList
import MiraOS.Ui.Jobs
import MiraOS.Ui.Windows
import MiraOS.Ui.WindowFocus
import MiraOS.Ui.Widgets
import MiraOS.Ui.WidgetBounds
import MiraOS.Ui.Input
import MiraOS.Ui.PollTiming
import MiraOS.Ui.ShellTick
import MiraOS.Ui.Executor
import MiraOS.Ui.ParserLaws
import MiraOS.Ui.TreeShapes
import MiraOS.Ui.ExecutorLaws
import MiraOS.Ui.ExitStatus
import MiraOS.Ui.CommandLists
import MiraOS.Ui.ListReading
import MiraOS.Ui.Tokenizer
import MiraOS.Ui.Expansion
import MiraOS.Ui.LexBounds
import MiraOS.Ui.ParseRequests
import MiraOS.Ui.TokensTaken
import MiraOS.Ui.Quoting
import MiraOS.Ui.Releases
import MiraOS.Ui.ReleasedFronts
import MiraOS.Ui.ShellMachine
import MiraOS.Ui.ShellBuiltins
import MiraOS.Ui.ShellCommands
import MiraOS.Ui.ShellRecords
import MiraOS.Ui.ArgumentAccess
import MiraOS.Ui.StoredTexts
import MiraOS.Ui.Builtins
import MiraOS.Ui.SingleCommands
import MiraOS.Ui.Assignments
import MiraOS.Kernel.Process
import MiraOS.Kernel.ReadyQueue
import MiraOS.Kernel.PageRuns
import MiraOS.Kernel.ProcessLaws
import MiraOS.Kernel.ProcessTable
import MiraOS.Kernel.ProcessExit
import MiraOS.Machine.Turns
import MiraOS.Kernel.SchedulerTurns
import MiraOS.Kernel.ProcessRollback
import MiraOS.Kernel.ProcessStacks
import MiraOS.Kernel.ProcessPids
import MiraOS.Fs.Vfs
import MiraOS.Fs.VfsTree
import MiraOS.Fs.VfsGrowth
import MiraOS.Machine.FileStore
import MiraOS.Fs.VfsStore
import MiraOS.Fs.VfsRefinement
import MiraOS.Fs.VfsBounds
import MiraOS.Fs.VfsShape
import MiraOS.Fs.VfsLookup
import MiraOS.Fs.VfsDirectories
import MiraOS.Fs.VfsModes
import MiraOS.Machine.Paths
import MiraOS.Fs.VfsPaths
import MiraOS.Fs.VfsCreation
import MiraOS.Fs.VfsFailedOpen
import MiraOS.Machine.Packed
import MiraOS.Kernel.MiraFormat
import MiraOS.Machine.Checksum
import MiraOS.Kernel.MiraValidate
import MiraOS.Kernel.MiraLoad
import MiraOS.Kernel.MiraMapping
import MiraOS.Kernel.MiraReads
import MiraOS.Machine.AddressSpace
import MiraOS.Kernel.MiraImage
import MiraOS.Kernel.MiraPlatform
import MiraOS.Kernel.MiraTrace
import MiraOS.Kernel.MiraRemap
import MiraOS.Kernel.Elf
import MiraOS.Kernel.ElfReads
import MiraOS.Kernel.ElfImage
import MiraOS.Kernel.ElfFrames
import MiraOS.Machine.Signed
import MiraOS.Fs.VfsSeek
import MiraOS.Ui.ModifierKeys
import MiraOS.Drivers.Mouse
import MiraOS.Machine.Window
import MiraOS.Ui.History
import MiraOS.Ui.ExpansionGrammar
import MiraOS.Machine.Arithmetic
import MiraOS.Ui.Numbers
import MiraOS.Ui.Let
import MiraOS.Ui.LetValues
import MiraOS.Ui.NumberBuffers
import MiraOS.Ui.TestOperands
import MiraOS.Machine.DigitalLine
import MiraOS.Drivers.Lines
import MiraOS.Machine.DigitalCircle
import MiraOS.Drivers.Circles
import MiraOS.Machine.Strokes
import MiraOS.Drivers.Clipping
import MiraOS.Machine.Regions
import MiraOS.Ui.EventRouting
import MiraOS.Lib.StringSearch
import MiraOS.Drivers.Ata
import MiraOS.Lib.MemoryMoves
import MiraOS.Machine.Occurrences
import MiraOS.Machine.Latches
import MiraOS.Drivers.Scrolling
import MiraOS.Ui.JobSearch
import MiraOS.Machine.StackWords
import MiraOS.Machine.Processor
import MiraOS.Arch.InterruptEntry
import MiraOS.Arch.SyscallEntry
import MiraOS.Machine.Layout
import MiraOS.Arch.Descriptors
import MiraOS.Machine.Families
import MiraOS.Ui.WidgetTree
import MiraOS.Ui.WidgetDestroy
import MiraOS.Ui.WidgetHistories
import MiraOS.Ui.WidgetPainting
import MiraOS.Ui.FocusedWidget
import MiraOS.Machine.Served
import MiraOS.Drivers.AtaDrive
import MiraOS.Drivers.InterruptControllers
import MiraOS.Drivers.InterruptDesk
import MiraOS.Drivers.InterruptDrain
import MiraOS.Machine.Pictures
import MiraOS.Drivers.Pictures
import MiraOS.Drivers.Outlines
import MiraOS.Ui.Text
import MiraOS.Ui.TextCells
import MiraOS.Ui.TextWrap
import MiraOS.Lib.DsListFrees
import MiraOS.Kernel.FrameOwners
import MiraOS.Drivers.SerialLine
import MiraOS.Machine.TextArrays
import MiraOS.Kernel.Safemode
