import Stepcast.Network.Broadcast
import Stepcast.Network.Exchange

/-!
# The network

Everything that connects writers and readers: broadcasts for fast delivery, requests and replies
for reliable delivery. The two keep their addresses apart.
-/

namespace Stepcast

/-- The broadcasts and exchanges between the parties. -/
structure Network where
  broadcast : Broadcast := {}
  exchange : Exchange := {}

end Stepcast
