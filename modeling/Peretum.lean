import Peretum.Api.Edits
import Peretum.Api.Merge
import Peretum.Cache.Concurrent
import Peretum.Cache.Counter
import Peretum.Cache.Legacy
import Peretum.Cache.Representation
import Peretum.Cache.Writers
import Peretum.Cluster.Durable
import Peretum.Cluster.LinkedLru
import Peretum.Cluster.TargetStore
import Peretum.Config.Listener
import Peretum.Edge.Message
import Peretum.Handler.Cacheable
import Peretum.Handler.CleanMiss
import Peretum.Handler.Coalesce
import Peretum.Handler.Statistics
import Peretum.Handler.StoredLength
import Peretum.LoadBalancer.Contention
import Peretum.LoadBalancer.Fairness
import Peretum.LoadBalancer.History
import Peretum.LoadBalancer.Table
import Peretum.LoadBalancer.Probing
import Peretum.LoadBalancer.Shares
import Peretum.Plugins.Compression
import Peretum.Plugins.StatusWriters
import Peretum.ProxyServer.Agreement
import Peretum.ProxyServer.Locations
import Peretum.ProxyServer.OwnPolicy
import Peretum.ProxyServer.PluginOrder
import Peretum.Router.Followers
import Peretum.Waf.Padding
import Peretum.Waf.Throttle
import Peretum.ControlPlane.Watch
import Peretum.LoadBalancer.Recovery
import Peretum.ProxyServer.Deployment
