import MemOrder.Lib.Trans
import MemOrder.Lib.KMerge
import MemOrder.Replay.Faithful
import MemOrder.Determine
import MemOrder.Record.Batch
import MemOrder.Replay.Scan
import MemOrder.ReplayTso.Total
import MemOrder.DebugAccess.Passes
import MemOrder.DebugAccess.Sound
import MemOrder.Seqlock.Total
import MemOrder.Spec
import MemOrder.Rtm.Seq
import MemOrder.Rtm.Cluster
import MemOrder.RecordReplay
import MemOrder.Disk.RecordReplay
import MemOrder.Commit.TsoRecord
import MemOrder.Commit.Blocks
import MemOrder.Commit.Accept
import MemOrder.Log.Bridge
import MemOrder.Log.MappedLog
import MemOrder.Disk.Dump
import MemOrder.Disk.Read
import MemOrder.Disk.RecordReplay
