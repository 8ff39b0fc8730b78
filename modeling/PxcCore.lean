import PxcCore.Actor.MultiPromise
import PxcCore.Actor.MultiTimeout
import PxcCore.Actor.Scheduler.Places
import PxcCore.Net.Socks5
import PxcCore.Net.TransparentProxy
import PxcCore.Utils.AesCtrByteFlow
import PxcCore.Utils.Base32
import PxcCore.Utils.Buffer.Builder
import PxcCore.Utils.BufferedFd
import PxcCore.Utils.BufferedReader
import PxcCore.Utils.ChainScheduler.Order
import PxcCore.Utils.ChainScheduler.Repeated
import PxcCore.Utils.ChangesProcessor
import PxcCore.Utils.ConcurrentHashTable
import PxcCore.Utils.Container.Views
import PxcCore.Utils.Crypto.Accesses
import PxcCore.Utils.Crypto.Crc32c
import PxcCore.Utils.Crypto.CrcTables
import PxcCore.Utils.DecTree
import PxcCore.Utils.Enumerator
import PxcCore.Utils.EpochBasedMemoryReclamation
import PxcCore.Utils.FindBoundary
import PxcCore.Utils.FlatHashMapChunks.Termination
import PxcCore.Utils.FlatHashTable.Load
import PxcCore.Utils.FloodControlFast
import PxcCore.Utils.FloodControlStrict
import PxcCore.Utils.Hints.FixWords
import PxcCore.Utils.HttpUrl.Parts
import PxcCore.Utils.IdnToAscii
import PxcCore.Utils.Json.Grammar
import PxcCore.Utils.Json.InPlace
import PxcCore.Utils.Json.Skip
import PxcCore.Utils.ListNode
import PxcCore.Utils.MpmcQueue
import PxcCore.Utils.MpmcWaiter
import PxcCore.Utils.MpscPollableQueue
import PxcCore.Utils.ObjectPool.Runs
import PxcCore.Utils.OptionParser
import PxcCore.Utils.OrderedEventsProcessor
import PxcCore.Utils.PollQueue
import PxcCore.Utils.PqFactorize
import PxcCore.Utils.Promise
import PxcCore.Utils.Random
import PxcCore.Utils.SecureBytes
import PxcCore.Utils.SharedObjectPool
import PxcCore.Utils.SharedSlice
import PxcCore.Utils.StealingQueue
import PxcCore.Utils.StringBuilder
import PxcCore.Utils.TimedStat
import PxcCore.Utils.Tl.RoundTrip
import PxcCore.Utils.Uint128
import PxcCore.Utils.UrlEncode
import PxcCore.Utils.VectorQueue
import PxcCore.Utils.WaitFreeHashMap.Termination
import PxcCore.Utils.ZeroEncode
