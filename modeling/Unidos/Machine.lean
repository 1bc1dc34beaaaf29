import Mathlib.Algebra.Group.Nat.Defs

/-!
# Machine-level vocabulary

Constants of the 32-bit page layout shared by all modules, and the ways in which kernel code can
stop without returning. A kernel function is a Lean function into `Except Trap`; `.ok` is a
normal return.
-/

namespace Unidos

/-- How kernel code stops instead of returning: `HALT_FOREVER`, a call of `panic`, an access
through a null pointer, or a loop that never ends. -/
inductive Trap where
  | halt
  | panic (message : String)
  | fault
  | diverge
  deriving DecidableEq, Repr

/-- Size of a page and of a page frame in bytes. -/
def pageSize : Nat := 4096

/-- `KERNEL_VIRTUAL_BASE`: the first virtual address of the kernel half. -/
def kernelVirtualBase : Nat := 0xC0000000

/-- `PHYS_WINDOW_BASE`: where physical memory is mapped in the kernel half. -/
def physWindowBase : Nat := 0xD0000000

/-- Access to physical address `addr` through the window at `PHYS_WINDOW_BASE`, as
`phys_to_virt` gives it: the 32-bit sum must not wrap. The window maps physical memory one to
one, so the result is `addr` itself. -/
def physToVirt (addr : Nat) : Except Trap Nat :=
  if addr + physWindowBase ≥ 2 ^ 32 then
    .error (.panic "Virtual address overflow at physwin translation")
  else .ok addr

/-- `paging_status_t`. -/
inductive PagingStatus where
  | ok
  | errAlign
  | errNomem
  | errNotMapped
  | errAlreadyMapped
  | errNotMappedOrAlreadyMapped
  | errInitReserveFailed
  | errFrameReserveFailed
  | errNotPresent
  | errOutOfBounds
  | errFailedRetrievePt
  | errNotInitialized
  | errExcessPagesRequested
  | errInvalid
  | errPtUserFlagMismatch
  | errUserFlagInKernelSpace
  | errKernelFlagInUserSpace
  deriving DecidableEq, Repr

end Unidos
