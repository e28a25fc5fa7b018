import TsbAgent.AuditLog.Buffer
import TsbAgent.AuditLog.InMemory
import TsbAgent.AuditLog.Record
import TsbAgent.Basic
import TsbAgent.Dmeasure.Actions
import TsbAgent.Dmeasure.Bounds
import TsbAgent.Dmeasure.Encoded
import TsbAgent.Dmeasure.FileHashCache
import TsbAgent.Dmeasure.Policy
import TsbAgent.Dmeasure.PolicyLifetime
import TsbAgent.Dmeasure.TaskMoves
import TsbAgent.Dmeasure.TaskSteps
import TsbAgent.Dmeasure.TaskTable
import TsbAgent.Dmeasure.Tasks
import TsbAgent.Dmeasure.Verdict
import TsbAgent.Fac.AccessControl
import TsbAgent.Fac.FacBounds
import TsbAgent.Fac.FileOpen
import TsbAgent.Fac.ListFac
import TsbAgent.Fac.LoadFac
import TsbAgent.Fac.ReloadFac
import TsbAgent.FileIntegrity.Cells
import TsbAgent.FileIntegrity.Critical
import TsbAgent.FileIntegrity.DeleteMatch
import TsbAgent.FileIntegrity.Format
import TsbAgent.FileIntegrity.NodeRuns
import TsbAgent.FileIntegrity.Nodes
import TsbAgent.FileIntegrity.Paging
import TsbAgent.FileIntegrity.Store
import TsbAgent.FileIntegrity.StoreRefines
import TsbAgent.FileIntegrity.Sync
import TsbAgent.FileIntegrity.Update
import TsbAgent.FileIntegrity.Version
import TsbAgent.Httcutils.Array
import TsbAgent.Httcutils.Ecc
import TsbAgent.Httcutils.EccMult
import TsbAgent.Httcutils.EccMult2
import TsbAgent.Httcutils.EccOrder
import TsbAgent.Httcutils.EccPrime
import TsbAgent.Httcutils.File
import TsbAgent.Httcutils.Sm2
import TsbAgent.Httcutils.Sm2Cipher
import TsbAgent.Httcutils.Sm2Exchange
import TsbAgent.Httcutils.Sm3
import TsbAgent.Httcutils.Sm4
import TsbAgent.Httcutils.Vli
import TsbAgent.Httcutils.VliFast
import TsbAgent.Httcutils.VliMod
import TsbAgent.Lib.Access
import TsbAgent.Lib.Backlog
import TsbAgent.Lib.BlockCipher
import TsbAgent.Lib.Blocks
import TsbAgent.Lib.Bounded
import TsbAgent.Lib.Chained
import TsbAgent.Lib.CheckChain
import TsbAgent.Lib.CoZ
import TsbAgent.Lib.CoZLadder
import TsbAgent.Lib.Codec
import TsbAgent.Lib.Counted
import TsbAgent.Lib.Crc
import TsbAgent.Lib.DelayedWork
import TsbAgent.Lib.Der
import TsbAgent.Lib.Digits
import TsbAgent.Lib.Drain
import TsbAgent.Lib.Fifo
import TsbAgent.Lib.File
import TsbAgent.Lib.FileTree
import TsbAgent.Lib.FreeList
import TsbAgent.Lib.Heap
import TsbAgent.Lib.Inspect
import TsbAgent.Lib.Libc
import TsbAgent.Lib.Lines
import TsbAgent.Lib.LucasPrime
import TsbAgent.Lib.Memory
import TsbAgent.Lib.ModInverse
import TsbAgent.Lib.Orbit
import TsbAgent.Lib.Packed
import TsbAgent.Lib.Pieces
import TsbAgent.Lib.Records
import TsbAgent.Lib.Ring
import TsbAgent.Lib.Run
import TsbAgent.Lib.Scan
import TsbAgent.Lib.SearchTree
import TsbAgent.Lib.Semaphore
import TsbAgent.Lib.Socket
import TsbAgent.Lib.Tally
import TsbAgent.Lib.Text
import TsbAgent.Lib.Window
import TsbAgent.Lib.Word
import TsbAgent.Measure.Lifetime
import TsbAgent.Measure.ModuleImage
import TsbAgent.Measure.ProcessProtect
import TsbAgent.Measure.ScriptArgs
import TsbAgent.Measure.Wqueue
import TsbAgent.Notify.Content
import TsbAgent.Notify.Counters
import TsbAgent.Notify.Delivery
import TsbAgent.Notify.RingArray
import TsbAgent.Notify.Threads
import TsbAgent.Platform.Crc
import TsbAgent.Platform.Ioctl
import TsbAgent.ProcessIdentity.Bounds
import TsbAgent.ProcessIdentity.Interfaces
import TsbAgent.ProcessIdentity.Load
import TsbAgent.ProcessIdentity.MemFileHash
import TsbAgent.ProcessIdentity.Verify
import TsbAgent.Proxy.BulkTransfer
import TsbAgent.Proxy.Flash
import TsbAgent.Proxy.OsHandle
import TsbAgent.Tcf.Basic
import TsbAgent.Tcf.BootMeasure
import TsbAgent.Tcf.DevVersion
import TsbAgent.Tcf.Dmeasure
import TsbAgent.Tcf.Extract
import TsbAgent.Tcf.ExtractSafe
import TsbAgent.Tcf.FileProtect
import TsbAgent.Tcf.Log
import TsbAgent.Tcf.LogDelivery
import TsbAgent.Tcf.LogStream
import TsbAgent.Tcf.NetworkControl
import TsbAgent.Tcf.Process
import TsbAgent.Tcf.Protect
import TsbAgent.Tcf.Semaphores
import TsbAgent.Tcs.AdminAuth
import TsbAgent.Tcs.AdminCert
import TsbAgent.Tcs.AntiReplay
import TsbAgent.Tcs.Basic
import TsbAgent.Tcs.Caller
import TsbAgent.Tcs.FileProtect
import TsbAgent.Tcs.Framing
import TsbAgent.Tcs.InterruptedUpdate
import TsbAgent.Tcs.KernelPolicy
import TsbAgent.Tcs.KeyPath
import TsbAgent.Tcs.KeyPolicy
import TsbAgent.Tcs.KeyTree
import TsbAgent.Tcs.Mmap
import TsbAgent.Tcs.NetworkControl
import TsbAgent.Tcs.NetworkPolicy
import TsbAgent.Tcs.NotifyCallbacks
import TsbAgent.Tcs.NvDirectory
import TsbAgent.Tcs.NvInfo
import TsbAgent.Tcs.NvPolicy
import TsbAgent.Tcs.NvTotal
import TsbAgent.Tcs.PolicyFile
import TsbAgent.Tcs.PolicyRewrite
import TsbAgent.Tcs.PolicyVersion
import TsbAgent.Tcs.ReadLog
import TsbAgent.Tcs.Rejected
import TsbAgent.Tcs.Replay
import TsbAgent.Tcs.SaveMemData
import TsbAgent.Tcs.SignatureDer
import TsbAgent.Tcs.SizeWalk
import TsbAgent.Tcs.UpdatePolicy
import TsbAgent.Tcs.Validators
import TsbAgent.Tdd.AsyncReply
import TsbAgent.Tdd.SendCommand
import TsbAgent.Tdd.Shm
import TsbAgent.Tdd.TddlIoctl
import TsbAgent.Whitelist.Agreement
import TsbAgent.Whitelist.Bounds
import TsbAgent.Whitelist.Cache
import TsbAgent.Whitelist.Check
import TsbAgent.Whitelist.CriticalConfile
import TsbAgent.Whitelist.CriticalLoad
import TsbAgent.Whitelist.FileDigest
import TsbAgent.Whitelist.Ioctl
import TsbAgent.Whitelist.Load
import TsbAgent.Whitelist.Parse
import TsbAgent.Whitelist.PathIoctl
import TsbAgent.Whitelist.PathLoad
import TsbAgent.Whitelist.Reload
import TsbAgent.Whitelist.Revocation
import TsbAgent.Whitelist.Sections
import TsbAgent.Whitelist.Table
import TsbAgent.Whitelist.TableSwap
import TsbAgent.Whitelist.TpcmVerdict
import TsbAgent.Whitelist.Waiters
