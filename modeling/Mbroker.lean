import Mbroker.Clients.Theorems
import Mbroker.Dispatch.Shutdown
import Mbroker.Dispatch.Theorems
import Mbroker.Fs.Theorems
import Mbroker.Manager.Theorems
import Mbroker.Protocol.Theorems
import Mbroker.Publisher.Theorems
import Mbroker.Queue.Theorems
import Mbroker.Server.Theorems
import Mbroker.Sessions.Interleavings
import Mbroker.Sessions.Theorems
import Mbroker.Subscriber.Theorems
