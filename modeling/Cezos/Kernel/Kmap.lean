import Cezos.Kernel.Alloc

namespace Cezos

open Lib

def entryPtr (table : Word) (i : ℕ) : Word := table + 4#32 * BitVec.ofNat 32 i

def invalidateTlb (vaddr : Word) : Kern Unit := invlpg vaddr

def tablePerm : Word := pteW ||| pteP ||| pteU

/-- Where the directory has no table, a zero-filled page becomes one. `page_alloc` never answers `NULL`,
so the test of its result never fails. -/
def getPageTable (pgdir virtaddr : Word) (create : Bool) : Kern Word := do
  let pde ← load (entryPtr pgdir (pdx virtaddr))
  if !isPagePresent pde && !create then
    Prog.errorLoop "Invalid virtual address\n"
  else if !isPagePresent pde then
    let ps ← pageAlloc 1#32
    incRefs ps
    let pde := page2pa ps ||| tablePerm
    store (entryPtr pgdir (pdx virtaddr)) pde
    let pagetableVa ← kaddr (pteAddr pde)
    return entryPtr pagetableVa (ptx virtaddr)
  else
    let pagetableVa ← kaddr (pteAddr pde)
    return entryPtr pagetableVa (ptx virtaddr)

def searchPage (pgdir vaddr : Word) : Kern (Option ℕ × Option Word) := do
  let pte ← getPageTable pgdir vaddr false
  if pte = 0#32 then
    return (none, none)
  else
    let entry ← load pte
    if !isPagePresent entry then
      return (none, none)
    else
      let ps ← pa2page (pteAddr entry)
      return (ps, some pte)

def removePage (pgdir vaddr : Word) : Kern Unit := do
  let (ps, pteStore) ← searchPage pgdir vaddr
  match ps with
  | none => return ()
  | some ps => do
    store (pteStore.getD 0#32) 0#32
    pageDecref ps
    invalidateTlb vaddr

/-- The test of the permissions of a page that is already there is an assignment, so with any permissions
but 0 nothing is written. -/
def insertPage (pgdir : Word) (ps : ℕ) (vaddr permissions : Word) : Kern Int := do
  let pte ← getPageTable pgdir vaddr true
  if pte = 0#32 then
    return -1
  else
    let entry ← load pte
    if pteAddr entry = page2pa ps then
      let obtainedPerm := permissions
      if obtainedPerm ≠ 0#32 then
        return 0
      else
        invalidateTlb vaddr
        store pte (page2pa ps ||| permissions ||| pteP)
        return 0
    else
      if isPagePresent entry then removePage pgdir vaddr else pure ()
      incRefs ps
      store pte (page2pa ps ||| permissions ||| pteP)
      return 0

def mapPage (pgdir virtaddr physaddr permission : Word) (i : ℕ) : Kern Unit := do
  let offset := BitVec.ofNat 32 i * pageSize
  let pte ← getPageTable pgdir (virtaddr + offset) true
  if pte = 0#32 then
    Prog.errorLoop "Couldn't extract specific page table\n"
  else
    store pte ((physaddr + offset) ||| permission ||| pteP)

def mapMemoryRegion (pgdir virtaddr size physaddr permission : Word) : Kern Unit :=
  Prog.forUp (mapPage pgdir virtaddr physaddr permission) 0 (size / pageSize).toNat

def checkVa2pa (pgdir va : Word) : Kern Word := do
  let pde ← load (entryPtr pgdir (pdx va))
  if !isPagePresent pde then
    return ~~~0#32
  else
    let p ← kaddr (pteAddr pde)
    let pte ← load (entryPtr p (ptx va))
    if !isPagePresent pte then
      return ~~~0#32
    else
      return pteAddr pte

end Cezos
