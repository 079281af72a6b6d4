import AupPrograms.Pthread
import AupPrograms.BoundedBuffer
import AupPrograms.CondBuffer
import AupPrograms.CondBufferProgress
import AupPrograms.SpinBuffer
import AupPrograms.BufferTraces
import AupPrograms.CountHalt
import AupPrograms.CountHaltProgress
import AupPrograms.Loop
import AupPrograms.OpenFile
import AupPrograms.PrivilegeSwitch
import AupPrograms.Truncate
import AupPrograms.FileSys
import AupPrograms.Realpath
import AupPrograms.RealpathTable
import AupPrograms.RealpathChain
import AupPrograms.CountHaltPrints
import AupPrograms.CInt
import AupPrograms.Fifo
import AupPrograms.GroupHandover
import AupPrograms.SignalProcessGroup
import AupPrograms.SignalProcessGroupRaces
import AupPrograms.CText
import AupPrograms.FifoSession
import AupPrograms.Append
import AupPrograms.SigchldWait
import AupPrograms.Descent
import AupPrograms.RealpathEnds
import AupPrograms.TruncateBranches
import AupPrograms.RealpathBuffers
import AupPrograms.FileCall
import AupPrograms.HoleInFile
import AupPrograms.Rdwr
import AupPrograms.ClientLines
import AupPrograms.Redirect
import AupPrograms.ChildStatuses
import AupPrograms.PrintFileInfo
import AupPrograms.GroupHandoverReads
import AupPrograms.SignalProcessGroupReads
import AupPrograms.ExecutionTime
import AupPrograms.Stdio
import AupPrograms.ExecutionTimeOutput
import AupPrograms.Game
import AupPrograms.TruncateBounds
import AupPrograms.Completion
import AupPrograms.CondBufferCompletion
import AupPrograms.CountHaltCompletion
import AupPrograms.SpinBufferCompletion
import AupPrograms.ChildPendingSignals
import AupPrograms.FifoSessionCompletion
import AupPrograms.ForkJoin
import AupPrograms.ForkPrintfBuffering
import AupPrograms.SigchldBlockWait
import AupPrograms.SighupSigcont
import AupPrograms.GroupHandoverCompletion
import AupPrograms.SigchldWaitCompletion
import AupPrograms.SignalProcessGroupCompletion
import AupPrograms.ChildFileHandle
import AupPrograms.EnvVars
import AupPrograms.ForkExit
import AupPrograms.InheritExitHandler
import AupPrograms.InheritIds
import AupPrograms.TruncateSeries
import AupPrograms.RealpathMain
