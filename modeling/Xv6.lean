import Xv6.Lib.Bytes
import Xv6.Lib.Prog
import Xv6.Lib.Run
import Xv6.Lib.Count
import Xv6.Lib.Ring
import Xv6.Lib.Owner
import Xv6.Lib.Through
import Xv6.Spec.Param
import Xv6.Spec.Kern
import Xv6.Spec.Vm
import Xv6.Spec.Proc
import Xv6.Spec.Syscall
import Xv6.Spec.Futex
import Xv6.Spec.Log
import Xv6.Spec.Fs
import Xv6.Spec.Cond
import Xv6.Spec.Mutex
import Xv6.Spec.Sleep
import Xv6.Spec.Sched
import Xv6.Spec.Bio
import Xv6.Spec.Inode
import Xv6.Spec.Sysfile
import Xv6.Spec.Node
import Xv6.Spec.Space
import Xv6.Sanity.Entry
import Xv6.Proofs.Arguments
import Xv6.Proofs.Log
import Xv6.Proofs.Crash
import Xv6.Proofs.LogSpace
import Xv6.Proofs.FileMap
import Xv6.Proofs.WriteCost
import Xv6.Proofs.Dinode
import Xv6.Proofs.Volume
import Xv6.Proofs.Blocks
import Xv6.Proofs.Contents
import Xv6.Proofs.Inodes
import Xv6.Proofs.Refs
import Xv6.Proofs.Entries
import Xv6.Proofs.Names
import Xv6.Proofs.Calls
import Xv6.Proofs.Create
import Xv6.Proofs.Files
import Xv6.Proofs.Outcomes
import Xv6.Proofs.Descriptors
import Xv6.Proofs.CondVar
import Xv6.Proofs.Broadcast
import Xv6.Proofs.ByteArray
import Xv6.Proofs.Paths
import Xv6.Proofs.Mutex
import Xv6.Proofs.Wakeup
import Xv6.Proofs.ProcTable
import Xv6.Proofs.Sched
import Xv6.Proofs.ProcTree
import Xv6.Proofs.Reaping
import Xv6.Proofs.Kill
import Xv6.Proofs.Futex
import Xv6.Proofs.Pipe
import Xv6.Proofs.Console
import Xv6.Proofs.Umalloc
import Xv6.Proofs.Requests
import Xv6.Proofs.ShellTokens
import Xv6.Proofs.Shell
import Xv6.Proofs.BufCache
import Xv6.Proofs.Frames
import Xv6.Proofs.Events
import Xv6.Proofs.Isolation
import Xv6.Proofs.VmTrace
import Xv6.Proofs.KvmTrace
import Xv6.Proofs.VdsoTrace
import Xv6.Proofs.Places
import Xv6.Proofs.Copyout
import Xv6.Proofs.ExecTrace
import Xv6.Proofs.StackTrace
import Xv6.Proofs.CommitTrace
import Xv6.Proofs.Sharing
import Xv6.Proofs.SharedFile
import Xv6.Lib.Slots
import Xv6.Proofs.FileCalls
import Xv6.Proofs.FsRuns
import Xv6.Proofs.Directories
import Xv6.Proofs.Accounting
import Xv6.Proofs.Sbrk
import Xv6.Proofs.Exec
import Xv6.Proofs.ExecArgs
import Xv6.Proofs.Memmove
import Xv6.Proofs.Dealloc
import Xv6.Proofs.Mp
import Xv6.Proofs.Regex
import Xv6.Proofs.Grep
import Xv6.Proofs.Freelist
import Xv6.Proofs.Pgtab
import Xv6.Proofs.Checksum
import Xv6.Proofs.Ide
import Xv6.Proofs.Failures
import Xv6.Proofs.CopyOnWrite
import Xv6.Proofs.RoundRobin
