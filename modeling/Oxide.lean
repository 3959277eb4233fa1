import Oxide.VmaLocation
import Oxide.VmaHooks
import Oxide.AnonRmapFinds
import Oxide.PmmPartition
import Oxide.IdMapBijection
import Oxide.UserNsSetgroups
import Oxide.FairPick
import Oxide.MsgSelect
import Oxide.MsgAccounting
import Oxide.SemLinear
import Oxide.DlBandwidth
import Oxide.TcpClose
import Oxide.PiTruthful
import Oxide.CgroupLimits
import Oxide.CgroupDelegation
import Oxide.FatChainCache
import Oxide.MremapCharges
import Oxide.MprotectExact
import Oxide.HoleSearch
import Oxide.DirList
import Oxide.FlockWake
