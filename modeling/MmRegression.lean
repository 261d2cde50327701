import MmRegression.Loop
import MmRegression.Machine
import MmRegression.Shell
import MmRegression.Fields
import MmRegression.Trials
import MmRegression.RetryVerdict
import MmRegression.PipeLoop
import MmRegression.WaitHandshake
import MmRegression.PauseHandshake
import MmRegression.Recipes
import MmRegression.RunRecipe
import MmRegression.ReportedResult
import MmRegression.RunRecipes
import MmRegression.RunTest
import MmRegression.Resume
import MmRegression.RoundLoop
import MmRegression.Replay
import MmRegression.Again
import MmRegression.LogLevel
import MmRegression.Workflow
import MmRegression.DirCleanup
import MmRegression.Reboot
import MmRegression.SummaryTable
import MmRegression.Filters
import MmRegression.Listing
import MmRegression.Summary
import MmRegression.Service
import MmRegression.Environment
import MmRegression.Template
import MmRegression.CInt
import MmRegression.Layout
import MmRegression.WorkMemory
import MmRegression.Memory
import MmRegression.Mremap
import MmRegression.AccessMemory
import MmRegression.Operation
import MmRegression.ErrorInjection
import MmRegression.Madvise
import MmRegression.MbindFuzz
import MmRegression.Ere
import MmRegression.ReturnCode
import MmRegression.Diff
import MmRegression.PageTypes
import MmRegression.Migration
import MmRegression.OperationArgs
import MmRegression.OperationLoop
import MmRegression.PageFlags
import MmRegression.Memblock
import MmRegression.Mceinj
import MmRegression.Subprojects
import MmRegression.ShellReader
import MmRegression.ProjectConfig
import MmRegression.Lexicographic
import MmRegression.Version
import MmRegression.LatestResult
import MmRegression.VirtNet
import MmRegression.TestDax
import MmRegression.RingBuffer
import MmRegression.SubmissionRing
import MmRegression.CompletionRing
import MmRegression.Blocks
import MmRegression.HwpoisonLimit
import MmRegression.BreadthFirst
import MmRegression.Subprocesses
import MmRegression.PflagsReaders
import MmRegression.PersistentMemory
import MmRegression.PmreorderList
import MmRegression.Interaction
import MmRegression.RunFull
import MmRegression.UringInstance
import MmRegression.CancelSqe
import MmRegression.MceInject
import MmRegression.Kvm
import MmRegression.MceTest
import MmRegression.KernelMessage
import MmRegression.EventFd
