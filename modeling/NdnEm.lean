import NdnEm.Lib.Timer
import NdnEm.Lib.Run
import NdnEm.Core.Fib
import NdnEm.Core.Pit
import NdnEm.Core.CacheManager
import NdnEm.Core.FibManager
import NdnEm.Core.Node
import NdnEm.Lib.History
import NdnEm.Proofs.PitHistory
import NdnEm.Proofs.Forwarding
import NdnEm.Lib.Ledger
import NdnEm.Proofs.FlowBalance
import NdnEm.Proofs.NonceLoop
import NdnEm.Core.LinkDevice
import NdnEm.Proofs.DeviceStep
import NdnEm.Proofs.LateTimers
import NdnEm.Proofs.TxAirtime
import NdnEm.Core.Config
import NdnEm.Proofs.ConfigStep
import NdnEm.Proofs.EmulatorStep
import NdnEm.Proofs.RibScope
import NdnEm.Proofs.LinkFaces
import NdnEm.Proofs.Addressing
import NdnEm.Lib.Potential
import NdnEm.Proofs.Flow
import NdnEm.Proofs.Flood
import NdnEm.Proofs.Outstanding
import NdnEm.Lib.Line
import NdnEm.Proofs.TxQueue
import NdnEm.Proofs.CarrierSense
import NdnEm.Core.AppFace
import NdnEm.Proofs.Framing
import NdnEm.Proofs.ShortWrites
import NdnEm.Lib.Window
import NdnEm.Proofs.ContentStore
import NdnEm.Proofs.PitCleanUp
import NdnEm.Proofs.FaceTables
import NdnEm.Proofs.FibFaces
import NdnEm.Proofs.Placement
import NdnEm.Proofs.Hearing
import NdnEm.Proofs.BroadcastFaces
import NdnEm.Proofs.FibHistory
import NdnEm.Proofs.CacheAccount
import NdnEm.Proofs.CacheLimit
import NdnEm.Proofs.ChannelAccess
import NdnEm.Proofs.Commands
import NdnEm.Core.SensorApps
import NdnEm.Proofs.UserRequests
import NdnEm.Proofs.PushPoll
import NdnEm.Lib.Provenance
import NdnEm.Lib.Simulation
import NdnEm.Proofs.Crashes
import NdnEm.Proofs.Provenance
import NdnEm.Core.Wsn
import NdnEm.Lib.Past
import NdnEm.Proofs.Wsn
import NdnEm.Lib.Pass
import NdnEm.Proofs.Acceptance
import NdnEm.Proofs.Reception
import NdnEm.Proofs.Starvation
import NdnEm.Proofs.StaticRoutes
import NdnEm.Core.Deployment
import NdnEm.Proofs.Deployment
import NdnEm.Core.Upkeep
import NdnEm.Proofs.Upkeep
import NdnEm.Proofs.Delivery
import NdnEm.Proofs.Paths
import NdnEm.Proofs.RoundTrip
