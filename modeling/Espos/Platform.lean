namespace Espos

-- The `esp_err_t` codes the modelled calls return.
inductive EspErr
  | ok
  | noMem
  | invalidArg
  | invalidState
  | invalidSize
  | invalidResponse
  | notFound
  | notFinished
  | notSupported
  | invalidVersion
  | timeout
  | fail
deriving DecidableEq

end Espos

namespace Espos

-- The build options the components size their tables by, with the ranges
-- their Kconfig files allow.
structure Kconfig where
  skPendingMax : Nat
  skTokenMax : Nat
  skMaxSubs : Nat
  skTlsCaMax : Nat
  healthMaxConditions : Nat
  healthMaxSinks : Nat
  httpdRecoveryCycles : Nat
  httpdRecoveryClearS : Nat
  flowMailboxDepth : Nat
  flowMaxTimers : Nat
  skPendingMax_range : 4 ≤ skPendingMax ∧ skPendingMax ≤ 32
  skTokenMax_range : 128 ≤ skTokenMax ∧ skTokenMax ≤ 1024
  skMaxSubs_range : 1 ≤ skMaxSubs ∧ skMaxSubs ≤ 48
  skTlsCaMax_range : 512 ≤ skTlsCaMax ∧ skTlsCaMax ≤ 8192
  healthMaxConditions_range : 5 ≤ healthMaxConditions ∧ healthMaxConditions ≤ 32
  healthMaxSinks_range : 1 ≤ healthMaxSinks ∧ healthMaxSinks ≤ 8
  httpdRecoveryCycles_range : 2 ≤ httpdRecoveryCycles ∧ httpdRecoveryCycles ≤ 10
  httpdRecoveryClearS_range : 5 ≤ httpdRecoveryClearS ∧ httpdRecoveryClearS ≤ 300
  flowMailboxDepth_range : 4 ≤ flowMailboxDepth ∧ flowMailboxDepth ≤ 256
  flowMaxTimers_range : 4 ≤ flowMaxTimers ∧ flowMaxTimers ≤ 256

-- The values a build gets that sets none of them.
def Kconfig.default : Kconfig where
  skPendingMax := 32
  skTokenMax := 1024
  skMaxSubs := 48
  skTlsCaMax := 2048
  healthMaxConditions := 12
  healthMaxSinks := 4
  httpdRecoveryCycles := 3
  httpdRecoveryClearS := 20
  flowMailboxDepth := 32
  flowMaxTimers := 32
  skPendingMax_range := by decide
  skTokenMax_range := by decide
  skMaxSubs_range := by decide
  skTlsCaMax_range := by decide
  healthMaxConditions_range := by decide
  healthMaxSinks_range := by decide
  httpdRecoveryCycles_range := by decide
  httpdRecoveryClearS_range := by decide
  flowMailboxDepth_range := by decide
  flowMaxTimers_range := by decide

end Espos
