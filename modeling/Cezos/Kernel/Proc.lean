import Cezos.Kernel.Kmap

namespace Cezos

open Lib

/-- `memcpy` answers its first argument, so the second test for `NULL` repeats the first. -/
def procInitVm (task : ℕ) : Kern Unit := do
  let ps ← pageAlloc 1#32
  let taskPgdir ← page2kva ps
  if taskPgdir = 0#32 then
    Prog.errorLoop "Not a valid address for user page directory\n"
  else
    let kern ← Prog.read (·.kernPageDirectory)
    memcpyPage taskPgdir kern
    Prog.modify (fun s => { s with taskPgdir := Function.update s.taskPgdir task taskPgdir })
    store (entryPtr taskPgdir (pdx uVirtualPageTable)) (paddr taskPgdir ||| pteP ||| pteW)
    incRefs ps

end Cezos
