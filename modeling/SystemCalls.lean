import SystemCalls.Transition
import SystemCalls.Monitor
import SystemCalls.PcQueue.Queue
import SystemCalls.PcQueue.Fifo
import SystemCalls.PcQueue.History
import SystemCalls.PcQueue.Wakeup
import SystemCalls.ThreadsDemo.HandOff
import SystemCalls.Children
import SystemCalls.SignalDemo.Sigchld
import SystemCalls.ProcessManager.Model
import SystemCalls.ProcessManager.Output
import SystemCalls.CString
import SystemCalls.Socket
import SystemCalls.TcpServer.Server
import SystemCalls.TcpServer.Echo
import SystemCalls.TcpServer.Survival
import SystemCalls.TcpClient.Client
import SystemCalls.TcpClient.Lockstep
import SystemCalls.TcpClient.Deadlock
import SystemCalls.Descriptors
import SystemCalls.PipeDemo.Pipeline
import SystemCalls.ThreadsDemo.MutexDemo
import SystemCalls.ProcessManager.Reaping
import SystemCalls.ProcessManager.Lines
import SystemCalls.TcpServer.Isolation
import SystemCalls.GenFigures.Primitives
import SystemCalls.ReadSites
import SystemCalls.GenFigures.WellFormed
import SystemCalls.FutexLock
import SystemCalls.Epoll
import SystemCalls.EpollEcho
import SystemCalls.AcceptDrain
import SystemCalls.WriteLoops
import SystemCalls.FlagPause
import SystemCalls.ShmCounter
import SystemCalls.FileOperations.Redirect
import SystemCalls.PipeDemo.Calls
import SystemCalls.PipeDemo.Leaks
import SystemCalls.ResourceLimits
import SystemCalls.ShmDemo.Cleanup
import SystemCalls.XmlText
import SystemCalls.Files
import SystemCalls.GenFigures.Run
import SystemCalls.CopyProgram
import SystemCalls.RunWithLog
import SystemCalls.SendFile
import SystemCalls.Daemonize
import SystemCalls.ReapChildren
import SystemCalls.EchoProgram
import SystemCalls.ReadAllNonblock
import SystemCalls.ShmDemo.Memory
import SystemCalls.ShmDemo.Torn
import SystemCalls.SignalDemo.Reentry
import SystemCalls.Atoi
import SystemCalls.TcpServer.Port
import SystemCalls.ReadLoops
import SystemCalls.ListDir
import SystemCalls.Meminfo
import SystemCalls.Bpf
import SystemCalls.EchoClient.Client
import SystemCalls.EchoClient.Progress
import SystemCalls.FdDemo
import SystemCalls.MqDemo
import SystemCalls.Patch.Program
import SystemCalls.Patch.Together
import SystemCalls.Seccomp
import SystemCalls.AtomicCreate
import SystemCalls.ExecReport
import SystemCalls.Locks.Counter
import SystemCalls.Locks.Futex
import SystemCalls.PipeProgram
import SystemCalls.ProcSys
import SystemCalls.SignalDemo.Masking
import SystemCalls.UdpEcho
import SystemCalls.SysvDemo
import SystemCalls.AddressSpace
import SystemCalls.GuardPage
import SystemCalls.MapCount
import SystemCalls.MemoryDemo
import SystemCalls.ThreadsDemo.Join
