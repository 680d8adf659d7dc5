import Dtc.Agent.Forward
import Dtc.Agent.Instances
import Dtc.Agent.Route
import Dtc.Binlog.Seek
import Dtc.Buffer.HashRun
import Dtc.Chain.Barrier
import Dtc.Chain.HandleChange
import Dtc.Config.Compare
import Dtc.Config.Default
import Dtc.Connector.Pairing
import Dtc.Data.ColExpand
import Dtc.Data.Convert
import Dtc.Field.Bits
import Dtc.Hwc.Sync
import Dtc.Key.Faithful
import Dtc.Mem.Coalesce
import Dtc.Mem.Counters
import Dtc.Mem.Delivers
import Dtc.Node.EmptyFilter
import Dtc.Packet.FieldList
import Dtc.Packet.Response
import Dtc.Raw.Asks
import Dtc.Raw.Times
import Dtc.Raw.TreeRow
import Dtc.Raw.Walk
import Dtc.Request.Conditions
import Dtc.Rule.Sound
import Dtc.Shard.Agreement
import Dtc.Shard.HashSelector
import Dtc.Tree.Filter
