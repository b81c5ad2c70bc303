import NgxPlus.Lib.ByteMem
import NgxPlus.Lib.BinSearch
import NgxPlus.Lib.Decimal
import NgxPlus.Lib.Decode
import NgxPlus.Lib.Reader
import NgxPlus.Lib.Trace
import NgxPlus.Lib.AssocList
import NgxPlus.Lib.SortedSet
import NgxPlus.Lib.Binary64
import NgxPlus.Lib.Intervals
import NgxPlus.Lib.HashRing
import NgxPlus.Lib.KeyedMap
import NgxPlus.Rbtree
import NgxPlus.RbtreeDelete
import NgxPlus.MqttProtocol
import NgxPlus.Diversion.Types
import NgxPlus.Diversion.Exec
import NgxPlus.Diversion.FirstMatch
import NgxPlus.Diversion.Searches
import NgxPlus.Diversion.Unchecked
import NgxPlus.Diversion.Rejected
import NgxPlus.Diversion.SetStores
import NgxPlus.Diversion.SharedVector
import NgxPlus.Diversion.Truncated
import NgxPlus.Diversion.TypeNames
import NgxPlus.Diversion.Retry
import NgxPlus.Diversion.FailedUpdate
import NgxPlus.Diversion.Cookies
import NgxPlus.Diversion.Runtime
import NgxPlus.Diversion.Policy
import NgxPlus.Diversion.Numset
import NgxPlus.Diversion.Paging
import NgxPlus.Diversion.System
import NgxPlus.Diversion.Origin
import NgxPlus.Diversion.Readers
import NgxPlus.Diversion.LuaCodec
import NgxPlus.Diversion.GetPolicy
import NgxPlus.Diversion.LuaPolicy
import NgxPlus.Diversion.Sync
import NgxPlus.Diversion.Permission
import NgxPlus.Mqtt.Session
import NgxPlus.Mqtt.Topic
import NgxPlus.Mqtt.Wildcard
import NgxPlus.Mqtt.Ring
import NgxPlus.Mqtt.Zadd
import NgxPlus.Mqtt.Shdict
import NgxPlus.Mqtt.ShdictInv
import NgxPlus.Mqtt.ShdictList
import NgxPlus.Mqtt.Newest
import NgxPlus.Mqtt.OffsetProcess
import NgxPlus.Mqtt.Listing
import NgxPlus.Mqtt.Subscribe
import NgxPlus.Mqtt.RangeRead
import NgxPlus.Mqtt.Delivery
import NgxPlus.Mqtt.Worker
import NgxPlus.Mqtt.Backup
import NgxPlus.Mqtt.Framing
import NgxPlus.Mqtt.Envelope
import NgxPlus.Mqtt.Puback
import NgxPlus.Mqtt.InFlight
import NgxPlus.Mqtt.Notification
import NgxPlus.Mqtt.Connect
import NgxPlus.Mqtt.SubscribeMessage
import NgxPlus.Disruptor.Ring
import NgxPlus.Disruptor.Delivery
import NgxPlus.Disruptor.Release
import NgxPlus.Disruptor.Stop
import NgxPlus.Luashm.Backup
import NgxPlus.Luashm.Recovery
import NgxPlus.Luashm.Invented
import NgxPlus.Luashm.Populated
import NgxPlus.Lualib.Chash
import NgxPlus.Lualib.Redis3
import NgxPlus.Lualib.FailedSync
import NgxPlus.Socks5.Auth
import NgxPlus.Socks5.Passwd
import NgxPlus.Socks5.PasswordFile
import NgxPlus.Socks5.Handshake
import NgxPlus.Socks5.ReplyBuffer
import NgxPlus.Socks5.Cutting
import NgxPlus.Socks5.SuccessReply
import NgxPlus.Socks5.EveryCutting
import NgxPlus.Lualib.Crc16
import NgxPlus.Diversion.FindNum32
import NgxPlus.Mqtt.StringCodec
import NgxPlus.Mqtt.RemainingLength
import NgxPlus.BitVectorSet
import NgxPlus.Diversion.EncodePolicy
import NgxPlus.Socks5.Relay
import NgxPlus.Socks5.RelayChain
import NgxPlus.Socks5.RelayFlow
import NgxPlus.Socks5.RelayRuns
import NgxPlus.RbtreeBalance
import NgxPlus.Mqtt.QosPass
import NgxPlus.Mqtt.QosDelivery
import NgxPlus.Mqtt.SubscribeThread
import NgxPlus.Mqtt.PassEnd
import NgxPlus.Mqtt.Wakeup
import NgxPlus.Mqtt.WorkerSession
