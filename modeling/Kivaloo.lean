import Kivaloo.Lib.Lex
import Kivaloo.Lib.Reading
import Kivaloo.Lib.ListRel
import Kivaloo.Lib.BinarySearch
import Kivaloo.Lib.AssocList
import Kivaloo.Lib.Buckets
import Kivaloo.Kvlds.Key
import Kivaloo.Kvlds.Node
import Kivaloo.Kvlds.Split
import Kivaloo.Kvlds.Merge
import Kivaloo.Kvlds.Balance
import Kivaloo.Kvlds.Range
import Kivaloo.Kvlds.Mutate
import Kivaloo.Kvlds.Batch
import Kivaloo.Lib.BlockStore
import Kivaloo.Kvlds.Sync
import Kivaloo.Kvlds.Invariant
import Kivaloo.Kvlds.SplitSpec
import Kivaloo.Kvlds.MergeSpec
import Kivaloo.Kvlds.BalanceSpec
import Kivaloo.Kvlds.RangeSpec
import Kivaloo.Kvlds.SyncSpec
import Kivaloo.Kvlds.Durability
import Kivaloo.Kvlds.MutateSpec
import Kivaloo.Kvlds.Leaves
import Kivaloo.Kvlds.Client
import Kivaloo.Lib.Carry
import Kivaloo.Lib.Word
import Kivaloo.Lib.Transition
import Kivaloo.LbsS3.FindSet
import Kivaloo.LbsS3.DeleteTo
import Kivaloo.LbsS3.DeleteToSpec
import Kivaloo.LbsS3.KeepSet
import Kivaloo.LbsDynamodb.Metadata
import Kivaloo.LbsDynamodb.DeleteTo
import Kivaloo.LbsDynamodb.DeleteToSpec
import Kivaloo.LbsDynamodb.Bookkeeping
import Kivaloo.LbsDynamodb.State
import Kivaloo.LbsDynamodb.Writes
import Kivaloo.LbsDynamodb.Ownership
import Kivaloo.S3.RequestQueue
import Kivaloo.Datastruct.Seqptrmap
import Kivaloo.Wire.RequestQueue
import Kivaloo.Mux.Dispatch
import Kivaloo.Kvlds.Dump
import Kivaloo.Lib.Json
import Kivaloo.Lib.BigEndian
import Kivaloo.Util.B64
import Kivaloo.DynamodbKv.Request
import Kivaloo.Kvlds.Immutable
import Kivaloo.Kvlds.SplitParts
import Kivaloo.Kvlds.Serialize
import Kivaloo.Util.Kvlds
import Kivaloo.DynamodbKv.Codec
import Kivaloo.Lbs.Codec
import Kivaloo.Wire.Packet
import Kivaloo.Kvlds.Proto
import Kivaloo.Lib.Probing
import Kivaloo.Datastruct.Kvhash
import Kivaloo.Lib.Heap
import Kivaloo.Datastruct.Doubleheap
import Kivaloo.Lib.OrderStat
import Kivaloo.Lib.Binary64
import Kivaloo.Datastruct.Onlinequantile
import Kivaloo.Serverpool.Pool
import Kivaloo.Lbs.Storage
import Kivaloo.Lbs.Dispatch
import Kivaloo.Lbs.DispatchSpec
import Kivaloo.Util.Json
import Kivaloo.Dynamodb.Response
import Kivaloo.Lib.Links
import Kivaloo.Datastruct.Pool
import Kivaloo.Datastruct.PoolSpec
import Kivaloo.LbsS3.FindLast
import Kivaloo.Dynamodb.RequestQueue
import Kivaloo.Util.Hexify
import Kivaloo.Datastruct.Ptrheap
import Kivaloo.Lbs.Findfiles
import Kivaloo.Datastruct.PtrheapCookie
import Kivaloo.Datastruct.Timerqueue
import Kivaloo.Events.Timer
import Kivaloo.Kvlds.Dispatch
