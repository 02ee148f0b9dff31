import Madbfs.Cache.Bijection
import Madbfs.Cache.Durable
import Madbfs.Cache.EndOfFile
import Madbfs.Cache.Loss
import Madbfs.Cache.Reaper
import Madbfs.Cache.Order
import Madbfs.Cache.ReadBack
import Madbfs.Cache.Resized
import Madbfs.Cache.Retried
import Madbfs.Cache.Whole
import Madbfs.Cache.Ledger
import Madbfs.Provenance
import Madbfs.Reconfigure
import Madbfs.Rpc.Bounds
import Madbfs.Rpc.ReadHandlers
import Madbfs.Rpc.Retry
import Madbfs.Resolve
import Madbfs.Tree.Atomic
import Madbfs.Tree.Disconnect
import Madbfs.Tree.Expiry
import Madbfs.Tree.Handles
import Madbfs.Tree.Rename
import Madbfs.Server.Agreement
import Madbfs.Server.Linearizable
import Madbfs.Server.Listening
import Madbfs.Tree.Lifetime
import Madbfs.Tree.Sync
import Madbfs.Cache.Patched
import Madbfs.Completion
import Madbfs.CopyFileRange
import Madbfs.Rpc.CopyFallback
import Madbfs.Split
import Madbfs.Sizing
import Madbfs.Ipc
import Madbfs.Adb.Utimens
import Madbfs.Adb.FdMap
import Madbfs.Adb.Quoting
import Madbfs.Adb.Listdir
import Madbfs.Tree.Dangling
import Madbfs.Tree.Granted
