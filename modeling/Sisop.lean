import Sisop.Foundations.Behavior
import Sisop.Foundations.CInt
import Sisop.Foundations.CString
import Sisop.Foundations.Decimal
import Sisop.Foundations.FilterLock
import Sisop.Foundations.LinkedList
import Sisop.Foundations.RunLength
import Sisop.Foundations.Scanf
import Sisop.Foundations.Strtok
import Sisop.Foundations.Sweep
import Sisop.Foundations.Text
import Sisop.Foundations.Total
import Sisop.Foundations.Transition
import Sisop.Pmutex.Basic
import Sisop.Pmutex.Bounds
import Sisop.Pmutex.Exclusion
import Sisop.Pmutex.Memory
import Sisop.Pmutex.Overtaking
import Sisop.Pmutex.Pointers
import Sisop.Pmutex.Progress
import Sisop.Pmutex.Refinement
import Sisop.Pmutex.Registration
import Sisop.Pmutex.Starvation
import Sisop.SectorRead.Barrier
import Sisop.SectorRead.Basic
import Sisop.SectorRead.Fairness
import Sisop.SectorRead.Requests
import Sisop.SimpleDriver.Basic
import Sisop.SimpleDriver.Client
import Sisop.SimpleDriver.Delivery
import Sisop.SimpleDriver.Memory
import Sisop.SimpleDriver.Processes
import Sisop.SimpleTracer.Basic
import Sisop.SimpleTracer.Mounts
import Sisop.SimpleTracer.OutOfStep
import Sisop.SimpleTracer.Session
import Sisop.Sstf.Basic
import Sisop.Sstf.Conservation
import Sisop.Sstf.HeadPosition
import Sisop.Sstf.Independence
import Sisop.Sstf.Nearest
import Sisop.Sstf.Order
import Sisop.Sstf.Queues
import Sisop.Sstf.Seek
import Sisop.Sstf.SharedHead
import Sisop.Sstf.Starvation
import Sisop.Sstf.SweptRegion
import Sisop.ThreadRunner.Arguments
import Sisop.ThreadRunner.Basic
import Sisop.ThreadRunner.CommandLine
import Sisop.ThreadRunner.EvaluationOrder
import Sisop.ThreadRunner.Exclusion
import Sisop.ThreadRunner.Names
import Sisop.ThreadRunner.Parsing
import Sisop.ThreadRunner.PostProcessing
import Sisop.ThreadRunner.Progress
import Sisop.ThreadRunner.Report
import Sisop.ThreadRunner.Scheduling
import Sisop.ThreadRunner.Slots
import Sisop.ThreadRunner.Tally
import Sisop.ThreadRunner.Termination
import Sisop.WebMonitor.Basic
import Sisop.WebMonitor.Lifecycle
import Sisop.WebMonitor.ProcInfo
import Sisop.WebMonitor.ProcTable
import Sisop.WebMonitor.ProcsList
import Sisop.WebMonitor.Schedule
import Sisop.WebMonitor.Service
import Sisop.WebMonitor.Termination
