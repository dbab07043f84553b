import Borrrdex.Basic

/-!
# Threads
-/

set_option autoImplicit false

namespace Borrrdex

/-- `thread_state`. -/
inductive ThreadState
  | running
  | blocked
  | zombie
  | dying
deriving DecidableEq

end Borrrdex
