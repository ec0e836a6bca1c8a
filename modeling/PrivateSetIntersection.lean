import PrivateSetIntersection.Protocol.EndToEnd
import PrivateSetIntersection.Protocol.Containers
import PrivateSetIntersection.Protocol.OrderHiding
import PrivateSetIntersection.Protocol.Progress
import PrivateSetIntersection.Streaming.Refinement
import PrivateSetIntersection.Streaming.Producer
import PrivateSetIntersection.Streaming.Accounting
import PrivateSetIntersection.Streaming.CallOrder
import PrivateSetIntersection.Streaming.Conformance
import PrivateSetIntersection.Streaming.StreamedExchange
import PrivateSetIntersection.Datastructure.GolombStream
import PrivateSetIntersection.Datastructure.GolombSafety
import PrivateSetIntersection.Datastructure.GolombSize
import PrivateSetIntersection.Datastructure.UntrustedRaw
import PrivateSetIntersection.Datastructure.BloomHistory
import PrivateSetIntersection.Datastructure.BloomFactories
import PrivateSetIntersection.Bindings.MatchExchange
import PrivateSetIntersection.Bindings.Restarts
import PrivateSetIntersection.Bindings.Interoperation
