import Olric.Client.DMap
import Olric.Cluster.Coordinator
import Olric.Cluster.Discovery
import Olric.Cluster.Forwarding
import Olric.Cluster.LockOwners
import Olric.Cluster.LongNames
import Olric.Cluster.MoveMessage
import Olric.Cluster.OperationsSpec
import Olric.Cluster.PutDuringMove
import Olric.Cluster.RoutingPush
import Olric.Cluster.SelfDelete
import Olric.Cluster.SingleMap
import Olric.Cmd.CliSpec
import Olric.Node.EvictionLocks
import Olric.Node.Expiry
import Olric.Node.HalfDestroyed
import Olric.Node.LockTimers
import Olric.Node.LockerCycles
import Olric.Node.LockerPermits
import Olric.Node.MergePayload
import Olric.Snapshot.FailedSync
import Olric.Snapshot.Loadable
import Olric.Snapshot.SyncedBackup
import Olric.Snapshot.SyncedPrimary
import Olric.Snapshot.TwoKeys
import Olric.Snapshot.ValueKeys
import Olric.Snapshot.Workers
import Olric.Storage.CloseWaits
import Olric.Storage.MergeEnds
import Olric.Storage.TableRuns
import Olric.Transport.Client
import Olric.Transport.ServerSpec
import Olric.Transport.Shutdown
