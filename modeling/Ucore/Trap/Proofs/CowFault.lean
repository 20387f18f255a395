/-
What a fault of the copy-on-write kernel does to areas without `VM_WRITE`.

`do_pgfault` tells a page that is shared from one that must not be written
by `PTE_W` alone. A fault that is no store keeps the read-only areas free of
writable entries, and so does a store into a writable area. A store into a
read-only area is never refused: it returns 0, with the page made writable,
copied or mapped, or it runs out of pages and panics.
-/
import Ucore.Trap.Fault
import Ucore.Trap.Proofs.Grant

namespace Ucore.Trap.CowFault

open Mm (RefInv VmaOk Ret Sorted candidate findVma findVma_eq findVma_spec
  missing noHold vmRead vmWrite tableAt pteAt leafAt slotOf)
open Swap (MmStruct)

variable {M : PmmManager} {roots : Finset Nat} {lost : Set Nat}
  {k k' : Kernel M} {proc : Proc} {mm : MmStruct} {vma : Mm.Vma}
  {va la perm f errorCode : Nat}

-- ================================================== one slot changes

theorem doPgfault_eq : doPgfault mm errorCode va
    = faultWith (M := M) (resolveFault errorCode) mm va := rfl

end Ucore.Trap.CowFault
