import Cezos.Kernel.Boot

namespace Cezos

open Lib

def cgaBuffAddr : Word := 0xB8000#32
def monochromeBuffAddr : Word := 0xB0000#32

/-- `CRT_SIZE` characters of two bytes -/
def crtWords : ℕ := 25 * 80 * 2 / 4

/-- The video memory that `init_cga` has found, and what a line of output leaves on its screen. The clock goes on
with every line, so that the lines of a run, each printed from a state of its own, can all differ. -/
structure Crt where
  frame : ℕ
  probed : frame = pgnum cgaBuffAddr ∨ frame = pgnum monochromeBuffAddr
  text : KState → ℕ → Word

def Crt.screen (crt : Crt) (frame i : ℕ) : Prop := frame = crt.frame ∧ i < crtWords

@[simps! -fullyApplied] def KState.printed (s : KState) (crt : Crt) : KState :=
  s.setFrame crt.frame (fun i => if i < crtWords then crt.text s i else s.mem crt.frame i)

/-! The functions of the boot with the lines that they print on the screen. A line that comes right before
`MEM_ERROR_LOOP`, or before an answer that no caller here gets, is left out. -/

namespace Printed

def cprintf (crt : Crt) : Kern Unit := Prog.modify (·.printed crt)

def getMemorySize (crt : Crt) : Kern Unit := do
  Cezos.getMemorySize
  cprintf crt
  cprintf crt

def bootAlloc (crt : Crt) (nbytes : Word) : Kern Word := do
  let allocAddress ← Cezos.bootAlloc nbytes
  cprintf crt
  return allocAddress

def createKernPgdir (crt : Crt) : Kern Word := do
  let pgdir ← bootAlloc crt pageSize
  if pgdir = 0#32 then
    Prog.errorLoop "Couldn't create kernel page_directory\n"
  else
    memset pgdir 0#32
    return pgdir

def initPages (crt : Crt) : Kern Unit := do
  markUsed 0
  let basemem ← Prog.read (·.pagesBasememCount)
  Prog.forUp pushFree 1 (basemem - 1)
  let i := max 1 basemem
  let frontier ← bootAlloc crt 0#32
  let usedCount := (paddr frontier / pageSize).toNat
  Prog.forUp markUsed i (usedCount - i)
  let i := max i usedCount
  let count ← Prog.read (·.pagesCount)
  Prog.forUp pushFree i (count - i)

def pageAlloc (crt : Crt) (allocFlags : Word) : Kern ℕ := do
  let ps ← Cezos.pageAlloc allocFlags
  if allocFlags &&& pageZeroFilled = pageZeroFilled then
    cprintf crt
    return ps
  else
    return ps

def checkPageList (crt : Crt) (onlyLowMemory : Bool) : Kern Unit := do
  Cezos.checkPageList onlyLowMemory
  cprintf crt

def getPageTable (crt : Crt) (pgdir virtaddr : Word) (create : Bool) : Kern Word := do
  let pde ← load (entryPtr pgdir (pdx virtaddr))
  if !isPagePresent pde && !create then
    Prog.errorLoop "Invalid virtual address\n"
  else if !isPagePresent pde then
    let ps ← pageAlloc crt 1#32
    incRefs ps
    let pde := page2pa ps ||| tablePerm
    store (entryPtr pgdir (pdx virtaddr)) pde
    let pagetableVa ← kaddr (pteAddr pde)
    return entryPtr pagetableVa (ptx virtaddr)
  else
    let pagetableVa ← kaddr (pteAddr pde)
    return entryPtr pagetableVa (ptx virtaddr)

/-- `remove_page` asks for no table to be made, and so prints nothing. -/
def insertPage (crt : Crt) (pgdir : Word) (ps : ℕ) (vaddr permissions : Word) : Kern Int := do
  let pte ← getPageTable crt pgdir vaddr true
  if pte = 0#32 then
    return -1
  else
    let entry ← load pte
    if pteAddr entry = page2pa ps then
      let obtainedPerm := permissions
      if obtainedPerm ≠ 0#32 then
        return 0
      else
        invalidateTlb vaddr
        store pte (page2pa ps ||| permissions ||| pteP)
        return 0
    else
      if isPagePresent entry then removePage pgdir vaddr else pure ()
      incRefs ps
      store pte (page2pa ps ||| permissions ||| pteP)
      return 0

def mapPage (crt : Crt) (pgdir virtaddr physaddr permission : Word) (i : ℕ) : Kern Unit := do
  let offset := BitVec.ofNat 32 i * pageSize
  let pte ← getPageTable crt pgdir (virtaddr + offset) true
  if pte = 0#32 then
    Prog.errorLoop "Couldn't extract specific page table\n"
  else
    store pte ((physaddr + offset) ||| permission ||| pteP)

def mapMemoryRegion (crt : Crt) (pgdir virtaddr size physaddr permission : Word) : Kern Unit :=
  Prog.forUp (mapPage crt pgdir virtaddr physaddr permission) 0 (size / pageSize).toNat

def checkKernPgdir (crt : Crt) (kpgdir : Word) : Kern Unit := do
  Cezos.checkKernPgdir kpgdir
  cprintf crt

def checkKernPgdirInstalled (crt : Crt) : Kern Unit := do
  let ps0 ← pageAlloc crt 0#32
  let ps1 ← pageAlloc crt 0#32
  freePage ps0
  let va1 ← page2kva ps1
  memsetPage va1 0x01010101#32
  let pgdir ← Prog.read (·.kernPageDirectory)
  let _ ← insertPage crt pgdir ps1 pageSize pteW
  let refs ← Prog.read (fun s => (s.pages ps1).refs)
  if refs ≠ 1#32 then
    Prog.errorLoop "Page insert failed\n"
  else
    let word ← loadUser pageSize
    if word ≠ 0x01010101#32 then
      Prog.errorLoop "Memory corupted\n"
    else
      let va1 ← page2kva ps1
      removePage pgdir va1
      store (entryPtr pgdir 0) 0#32
      Prog.modify (·.setRefs ps0 0#32)
      cprintf crt

def setupPages (crt : Crt) : Kern Unit := do
  getMemorySize crt
  let pgdir ← createKernPgdir crt
  Prog.modify (fun s => { s with kernPageDirectory := pgdir })
  store (entryPtr pgdir (pdx uVirtualPageTable)) (paddr pgdir ||| pteU ||| pteP)
  cprintf crt
  let count ← Prog.read (·.pagesCount)
  let base ← bootAlloc crt (bytesOf count)
  Prog.modify (fun s => { s with pagesBase := base })
  let _ ← bootAlloc crt 0#32
  Prog.modify clearPages
  initPages crt
  checkPageList crt true

def mapRegions (crt : Crt) : Kern Unit := do
  let pgdir ← Prog.read (·.kernPageDirectory)
  let base ← Prog.read (·.pagesBase)
  mapMemoryRegion crt pgdir uPages pageTableSize (paddr base) pteU
  cprintf crt
  mapMemoryRegion crt pgdir (kernelStackTop - kernelStackSize) pageTableSize (paddr bootstack) pteU
  cprintf crt
  mapMemoryRegion crt pgdir kernelBaseAddress remainingMem 0#32 pteW
  cprintf crt

def buildKernPgdir (crt : Crt) : Kern Unit := do
  setupPages crt
  mapRegions crt
  let pgdir ← Prog.read (·.kernPageDirectory)
  checkKernPgdir crt pgdir

def initializeMemory (crt : Crt) : Kern Unit := do
  buildKernPgdir crt
  let pgdir ← Prog.read (·.kernPageDirectory)
  lcr3 (paddr pgdir)
  cprintf crt
  let cr0 ← Prog.read (·.cr0)
  lcr0 ((cr0 ||| cr0Mask) &&& ~~~cr0Clear)
  checkKernPgdirInstalled crt

end Printed

end Cezos
