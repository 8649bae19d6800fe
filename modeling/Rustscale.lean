import Rustscale.Tka.Delivery
import Rustscale.Tka.BuilderSound
import Rustscale.Tka.Authorization
import Rustscale.Tka.CborScan
import Rustscale.Filter.Admission
import Rustscale.Filter.Flow
import Rustscale.Tsnet.MapUpdate
import Rustscale.Tsnet.SourceCheck
import Rustscale.Tun.RoundTrip
import Rustscale.Udprelay.BindSafety
import Rustscale.Magicsock.RelayCompletions
import Rustscale.Magicsock.RelayWrap
import Rustscale.Router.Recovery
import Rustscale.Tsnet.SecurityBlock
import Rustscale.Tsnet.KernelRoutes
import Rustscale.Tsnet.Speculation
import Rustscale.Magicsock.GsoPlan
import Rustscale.Magicsock.Revocation
import Rustscale.Flowtrack.Recency
import Rustscale.Disco.RoundTrip
import Rustscale.Derp.Registry
import Rustscale.Derp.Framing
import Rustscale.Ipn.Profiles
import Rustscale.Portmapper.Discovery
import Rustscale.Controlclient.Workers
import Rustscale.Netcheck.Report
import Rustscale.Ipn.Backend
import Rustscale.Dns.Osconfig
import Rustscale.Ipn.Notifications
