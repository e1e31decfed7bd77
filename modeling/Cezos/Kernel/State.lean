import Cezos.Mmu
import Cezos.Lib.Outcome
import Cezos.Lib.Radix
import Cezos.Lib.Tlb
import Mathlib.Tactic.Simps.Basic

namespace Cezos

open Lib

/-- `struct page_status`; a `struct page_status *` is the index of the entry of `pages[]`, or `none`. -/
structure PageStatus where
  nextFree : Option ℕ
  refs : Word

structure Entry where
  frame : ℕ
  writable : Bool
  user : Bool
deriving DecidableEq

structure KState where
  /-- physical memory: the words of each frame -/
  mem : ℕ → ℕ → Word
  pages : ℕ → PageStatus
  pageFreeList : Option ℕ
  pagesCount : ℕ
  pagesBasememCount : ℕ
  kernPageDirectory : Word
  pagesBase : Word
  /-- the static `next_free` of `boot_alloc` -/
  bootNextFree : Word
  endBss : Word
  nvram : ℕ → BitVec 8
  taskPgdir : ℕ → Word
  cr0 : Word
  /-- the frame of the loaded directory; `none` while `entry_pgdir` is loaded -/
  cr3 : Option ℕ
  tlb : Tlb ℕ Entry
  /-- `refill t v`: at its moment `t` the processor takes the translation of page `v` into its buffer -/
  refill : ℕ → ℕ → Bool
  clock : ℕ

abbrev Kern := Prog KState

def entryOf (pde pte : Word) : Option Entry :=
  if isPagePresent pde && isPagePresent pte then
    some ⟨pteFrame pte, isPageWritable pde && isPageWritable pte, isPageUser pde && isPageUser pte⟩
  else none

def dirWalk (mem : ℕ → ℕ → Word) (dir : ℕ) (va : Word) : Option Entry :=
  entryOf (mem dir (pdx va)) (mem (pteFrame (mem dir (pdx va))) (ptx va))

def entryPgtable (i : ℕ) : Word := BitVec.ofNat 32 (i * 4096) ||| pteP ||| pteW

/-- The walk in `entry_pgdir`, whose first entry is not writable. -/
def entryWalk (va : Word) : Option Entry :=
  if pdx va = 0 then entryOf pteP (entryPgtable (ptx va))
  else if pdx va = pdx kernelBaseAddress then entryOf (pteP ||| pteW) (entryPgtable (ptx va))
  else none

def walkIn (mem : ℕ → ℕ → Word) : Option ℕ → Word → Option Entry
  | none, va => entryWalk va
  | some dir, va => dirWalk mem dir va

def pageAddr (vpn : ℕ) : Word := BitVec.ofNat 32 (vpn * 4096)

def walkPage (mem : ℕ → ℕ → Word) (cr3 : Option ℕ) (vpn : ℕ) : Option Entry :=
  if vpn < 1048576 then walkIn mem cr3 (pageAddr vpn) else none

namespace KState

def walk (s : KState) (va : Word) : Option Entry := walkIn s.mem s.cr3 va

def TlbCoherent (s : KState) : Prop := s.tlb.Coherent (walkPage s.mem s.cr3)

end KState

/-! ### Memory behind kernel addresses

The kernel window maps physical address `pa` at `pa + KERNEL_BASE_ADDRESS`. An access through such an
address reaches that physical word; it is a good one when the loaded directory really maps it there. -/

def kernFrame (kva : Word) : ℕ := pgnum (kva - kernelBaseAddress)

def kernIndex (kva : Word) : ℕ := pgoff (kva - kernelBaseAddress) / 4

namespace KState

def reaches (s : KState) (kva : Word) (write : Bool) : Bool :=
  match s.walk kva with
  | some e => e.frame == kernFrame kva && (!write || e.writable)
  | none => false

/-- The frames of the running kernel: its image, loaded at `EXTPHYSMEM`, and what `boot_alloc` gave out. -/
def inKernelImage (s : KState) (frame : ℕ) : Bool :=
  decide (pgnum extPhysMem ≤ frame) && decide (frame < kernFrame s.bootNextFree)

/-- The buffer after the processor has taken in what it likes; it may do so between any two statements. -/
def refilled (s : KState) (tlb : Tlb ℕ Entry) (mem : ℕ → ℕ → Word) (cr3 : Option ℕ) : Tlb ℕ Entry :=
  tlb.fill (s.refill s.clock) (walkPage mem cr3)

@[simps -fullyApplied] def setMem (s : KState) (mem : ℕ → ℕ → Word) : KState :=
  { s with mem := mem, tlb := s.refilled s.tlb mem s.cr3, clock := s.clock + 1 }

@[simps -fullyApplied] def dropTlb (s : KState) (va : Word) : KState :=
  { s with tlb := s.refilled (s.tlb.drop (pgnum va)) s.mem s.cr3, clock := s.clock + 1 }

@[simps -fullyApplied] def loadDir (s : KState) (dir : ℕ) : KState :=
  { s with cr3 := some dir, tlb := s.refilled Tlb.empty s.mem (some dir), clock := s.clock + 1 }

@[simps -fullyApplied] def setPages (s : KState) (pages : ℕ → PageStatus) : KState := { s with pages := pages }

@[simps -fullyApplied] def setFreeList (s : KState) (head : Option ℕ) : KState := { s with pageFreeList := head }

abbrev setWord (s : KState) (frame i : ℕ) (w : Word) : KState := s.setMem (Radix.setWord s.mem frame i w)

abbrev setFrame (s : KState) (frame : ℕ) (g : ℕ → Word) : KState := s.setMem (Radix.setFrame s.mem frame g)

abbrev setNextFree (s : KState) (ps : ℕ) (next : Option ℕ) : KState :=
  s.setPages (Function.update s.pages ps { s.pages ps with nextFree := next })

abbrev setRefs (s : KState) (ps : ℕ) (refs : Word) : KState :=
  s.setPages (Function.update s.pages ps { s.pages ps with refs := refs })

end KState

def load (kva : Word) : Kern Word := do
  Prog.check (fun s => s.reaches kva false)
  Prog.read (fun s => s.mem (kernFrame kva) (kernIndex kva))

def store (kva w : Word) : Kern Unit := do
  Prog.check (fun s => s.reaches kva true)
  Prog.modify (fun s => s.setWord (kernFrame kva) (kernIndex kva) w)

/-- `memset(dst, c, PAGE_SIZE)` of a page in the kernel window: `memset` repeats the four bytes of `c`. -/
def memset (dst c : Word) : Kern Unit := do
  Prog.check (fun s => s.reaches dst true)
  Prog.modify (fun s => s.setFrame (kernFrame dst) (fun _ => c))

def memsetPage (dst c : Word) : Kern Unit := do
  Prog.check (fun s => !s.inKernelImage (kernFrame dst))
  memset dst c

def memcpyPage (dst src : Word) : Kern Unit := do
  Prog.check (fun s => s.reaches src false && s.reaches dst true && !s.inKernelImage (kernFrame dst))
  Prog.modify (fun s => s.setFrame (kernFrame dst) (s.mem (kernFrame src)))

def loadUser (va : Word) : Kern Word := fun s =>
  match s.walk va with
  | some e => .ret (s.mem e.frame (pgoff va / 4)) s true
  | none => .fault s

def invlpg (va : Word) : Kern Unit := Prog.modify (·.dropTlb va)

def lcr3 (pa : Word) : Kern Unit := Prog.modify (·.loadDir (pgnum pa))

def lcr0 (val : Word) : Kern Unit := Prog.modify (fun s => { s with cr0 := val })

def paddr (kva : Word) : Word := kva - kernelBaseAddress

/-- `_paddr`: its answer, which is the value of `PADDR`, and the error that it prints, if any. The comparison is one
of
unsigned numbers. -/
def paddrChecked (kva : Word) : Word × Option (String × Word) :=
  let pa := paddr kva
  if pa < 0#32 then (-1#32, some ("[Error] [_paddr] Conversion failed. Invalid address %x\n", kva)) else (pa, none)

def kaddr (pa : Word) : Kern Word :=
  Prog.read (fun s => if s.pagesCount ≤ pgnum pa then 0#32 else pa + kernelBaseAddress)

def page2pa (ps : ℕ) : Word := BitVec.ofNat 32 ps <<< pgShift

def pa2page (pa : Word) : Kern (Option ℕ) :=
  Prog.read (fun s => if s.pagesCount ≤ pgnum pa then none else some (pgnum pa))

def page2kva (ps : ℕ) : Kern Word := kaddr (page2pa ps)

end Cezos
