import Cezos.Kernel.Kmap

namespace Cezos

open Lib

def nvramBaselo : ℕ := 0x0e + 7
def nvramExtlo : ℕ := 0x0e + 9
def nvramExt16lo : ℕ := 0x0e + 38

def mcRead (nvram : ℕ → BitVec 8) (reg : ℕ) : Word := (nvram reg).setWidth 32

def vramRead (nvram : ℕ → BitVec 8) (reg : ℕ) : Word := mcRead nvram reg ||| (mcRead nvram (reg + 1) <<< 8)

def detectMemory (nvram : ℕ → BitVec 8) : Word × Word :=
  let basemem := vramRead nvram nvramBaselo
  let extmem := vramRead nvram nvramExtlo
  let ext16mem := vramRead nvram nvramExt16lo * 64#32
  if ext16mem ≠ 0#32 then (16#32 * 1024#32 + ext16mem, basemem)
  else if extmem ≠ 0#32 then (1#32 * 1024#32 + extmem, basemem)
  else (basemem, basemem)

def getMemorySize : Kern Unit :=
  Prog.modify (fun s =>
    let (totalmem, basemem) := detectMemory s.nvram
    { s with pagesBasememCount := (basemem / (pageSize / 1024#32)).toNat,
             pagesCount := (totalmem / (pageSize / 1024#32)).toNat })

/-- What a tail pointer of `check_page_list` points at. -/
inductive TailSlot where
  | ps1
  | ps2
  | nextFree (ps : ℕ)

structure PageListLocals where
  ps : Option ℕ
  ps1 : Option ℕ
  ps2 : Option ℕ
  tp0 : TailSlot
  tp1 : TailSlot

def setSlot (slot : TailSlot) (v : Option ℕ) (l : PageListLocals) : Kern PageListLocals :=
  match slot with
  | .ps1 => return { l with ps1 := v }
  | .ps2 => return { l with ps2 := v }
  | .nextFree ps => do
    Prog.modify (·.setNextFree ps v)
    return l

def relinkStep (pdxLimit : ℕ) (l : PageListLocals) : Kern (Option PageListLocals) := do
  match l.ps with
  | none => return none
  | some ps => do
    let high := decide (pdxLimit ≤ pdx (page2pa ps))
    let l ← setSlot (if high then l.tp1 else l.tp0) (some ps) l
    let l := if high then { l with tp1 := .nextFree ps } else { l with tp0 := .nextFree ps }
    let next ← nextFreeOf (some ps)
    return some { l with ps := next }

def poisonStep (pdxLimit : ℕ) (ps : Option ℕ) : Kern (Option (Option ℕ)) := do
  match ps with
  | none => return none
  | some i => do
    if pdx (page2pa i) < pdxLimit then
      let vaddr ← page2kva i
      memsetPage vaddr 0x97#32
    else
      pure ()
    let next ← nextFreeOf (some i)
    return some next

/-- A list that is followed for more steps than there are pointers goes round for ever. -/
def listFuel : ℕ := 2 ^ 32

def checkPageList (onlyLowMemory : Bool) : Kern Unit := do
  let pdxLimit := if onlyLowMemory then 1 else numberPdentries
  if onlyLowMemory then
    let head ← Prog.read (·.pageFreeList)
    let l ← Prog.whileSome (relinkStep pdxLimit) listFuel ⟨head, none, none, .ps1, .ps2⟩
    let l ← setSlot l.tp1 none l
    let l ← setSlot l.tp0 l.ps2 l
    Prog.modify (·.setFreeList l.ps1)
  else
    pure ()
  let head ← Prog.read (·.pageFreeList)
  let _ ← Prog.whileSome (poisonStep pdxLimit) listFuel head
  return ()

/-- `extern char *bootstack` reads the word at the label, and `.space` fills the boot stack with zeros. -/
def bootstack : Word := 0#32

def bytesOf (pages : ℕ) : Word := BitVec.ofNat 32 (pages * 8)

def pageSteps (n : Word) : ℕ := (n.toNat + 4095) / 4096

def checkMapped (kpgdir va want : Word) (msg : String) (k : ℕ) : Kern Unit := do
  let i := BitVec.ofNat 32 k * pageSize
  let res ← checkVa2pa kpgdir (va + i)
  if res ≠ want + i then Prog.errorLoop msg else return ()

def checkPde (kpgdir : Word) (i : ℕ) : Kern Unit := do
  let pde ← load (entryPtr kpgdir i)
  if (i = pdx uVirtualPageTable ∨ i = pdx (kernelStackTop - 1#32) ∨ i = pdx uPages) ∧
      isPagePresent pde = false then
    Prog.errorLoop "Invalid permissions for page\n"
  else if pdx kernelBaseAddress < i ∧ (isPagePresent pde = false ∨ isPageWritable pde = false) then
    Prog.errorLoop "Invalid permissions for page\n"
  else
    return ()

def checkKernPgdir (kpgdir : Word) : Kern Unit := do
  let count ← Prog.read (·.pagesCount)
  let base ← Prog.read (·.pagesBase)
  let n := pageAllignedRound (bytesOf count)
  Prog.forUp (checkMapped kpgdir uPages (paddr base) "Invalid phys address in kernel page directory\n")
    0 (pageSteps n)
  Prog.forUp (checkMapped kpgdir kernelBaseAddress 0#32 "Invalid phys address in kernel page directory\n")
    0 (pageSteps (BitVec.ofNat 32 count * pageSize))
  Prog.forUp (checkMapped kpgdir (kernelStackTop - kernelStackSize) (paddr bootstack)
    "Kernel page directory initialized incorrectly\n") 0 (pageSteps kernelStackSize)
  Prog.forUp (checkPde kpgdir) 0 numberPdentries

def checkKernPgdirInstalled : Kern Unit := do
  let ps0 ← pageAlloc 0#32
  let ps1 ← pageAlloc 0#32
  freePage ps0
  let va1 ← page2kva ps1
  memsetPage va1 0x01010101#32
  let pgdir ← Prog.read (·.kernPageDirectory)
  let _ ← insertPage pgdir ps1 pageSize pteW
  let refs ← Prog.read (fun s => (s.pages ps1).refs)
  if refs ≠ 1#32 then
    Prog.errorLoop "Page insert failed\n"
  else
    let word ← loadUser pageSize
    if word ≠ 0x01010101#32 then
      Prog.errorLoop "Memory corupted\n"
    else
      let va1 ← page2kva ps1
      removePage pgdir va1
      store (entryPtr pgdir 0) 0#32
      Prog.modify (·.setRefs ps0 0#32)

def remainingMem : Word := 0xFFFFFFFF#32 - kernelBaseAddress

/-- `memset(pages, 0, pages_count)` clears `pages_count` bytes of eight-byte entries. -/
def clearPages (s : KState) : KState :=
  { s with pages := fun i => if 8 * (i + 1) ≤ s.pagesCount then ⟨none, 0#32⟩ else s.pages i }

def setupPages : Kern Unit := do
  getMemorySize
  let pgdir ← createKernPgdir
  Prog.modify (fun s => { s with kernPageDirectory := pgdir })
  store (entryPtr pgdir (pdx uVirtualPageTable)) (paddr pgdir ||| pteU ||| pteP)
  let count ← Prog.read (·.pagesCount)
  let base ← bootAlloc (bytesOf count)
  Prog.modify (fun s => { s with pagesBase := base })
  let _ ← bootAlloc 0#32
  Prog.modify clearPages
  initPages
  checkPageList true

def mapRegions : Kern Unit := do
  let pgdir ← Prog.read (·.kernPageDirectory)
  let base ← Prog.read (·.pagesBase)
  mapMemoryRegion pgdir uPages pageTableSize (paddr base) pteU
  mapMemoryRegion pgdir (kernelStackTop - kernelStackSize) pageTableSize (paddr bootstack) pteU
  mapMemoryRegion pgdir kernelBaseAddress remainingMem 0#32 pteW

def buildKernPgdir : Kern Unit := do
  setupPages
  mapRegions
  let pgdir ← Prog.read (·.kernPageDirectory)
  checkKernPgdir pgdir

def initializeMemory : Kern Unit := do
  buildKernPgdir
  let pgdir ← Prog.read (·.kernPageDirectory)
  lcr3 (paddr pgdir)
  let cr0 ← Prog.read (·.cr0)
  lcr0 ((cr0 ||| cr0Mask) &&& ~~~cr0Clear)
  checkKernPgdirInstalled

end Cezos
