import Squid.Lib.Splay
import Squid.Include.Splay
import Squid.Lib.Sscanf
import Squid.Lib.Interleaving
import Squid.Anyp.Uri
import Squid.Compat.InetNtop
import Squid.Ip.Address
import Squid.Acl.DomainData
import Squid.Acl.Ip
import Squid.Store.MetaUnpacker
import Squid.Ipc.ReadWriteLock
import Squid.Dns.Rfc1035
import Squid.Ipc.StoreMap
import Squid.Rock.Rebuild
import Squid.Http.One.Parser
import Squid.Http.One.RequestParser
import Squid.Http.One.TeChunkedParser
import Squid.Lib.Incremental
import Squid.Http.One.ChunkedCoding
import Squid.Http.One.ChunkedStages
import Squid.Http.One.ChunkedSplit
import Squid.Http.One.ResponseParser
import Squid.Ipc.Queue
import Squid.CollapsedForwarding
import Squid.Parser.BinaryTokenizer
import Squid.Proxyp.Parser
import Squid.StrList
import Squid.HttpHdrRange
import Squid.HttpHeader
import Squid.Lib.BinaryHeap
import Squid.Heap
import Squid.Esi.Expression
import Squid.Lib.Search
import Squid.Sbuf.SBuf
import Squid.Sbuf.Find
import Squid.HttpHdrContRange
import Squid.Http.One.QuotedString
import Squid.Rfc1738
import Squid.HttpHeaderTools
import Squid.Store.SwapMeta
import Squid.Hash
import Squid.HttpHdrCc
import Squid.Refresh
import Squid.Dns.Rfc3596
import Squid.Acl.RegexData
import Squid.Anyp.Uri.Parse
import Squid.Lib.Time
import Squid.Lib.Binary64
import Squid.Rfc1123
import Squid.Ipc.Mem.IdSet
import Squid.Ipc.Mem.PageStack
