import Cezos.Kernel.State

namespace Cezos

open Lib

def pageAllignedRound (addr : Word) : Word := addr + (pageSize - addr % pageSize)

def bootAlloc (nbytes : Word) : Kern Word := do
  Prog.modify (fun s =>
    if s.bootNextFree = 0#32 then { s with bootNextFree := pageAllignedRound s.endBss } else s)
  let allocAddress ← Prog.read (·.bootNextFree)
  if nbytes = 0#32 then
    return allocAddress
  else
    let nextFree := pageAllignedRound (allocAddress + nbytes)
    Prog.modify (fun s => { s with bootNextFree := nextFree })
    if kernelBaseAddress + pageTableSize < nextFree then
      Prog.errorLoop "Not enought memory\n"
    else
      return allocAddress

def createKernPgdir : Kern Word := do
  let pgdir ← bootAlloc pageSize
  if pgdir = 0#32 then
    Prog.errorLoop "Couldn't create kernel page_directory\n"
  else
    memset pgdir 0#32
    return pgdir

def pushFree (i : ℕ) : Kern Unit :=
  Prog.modify (fun s => ((s.setNextFree i s.pageFreeList).setFreeList (some i)).setRefs i 0#32)

def markUsed (i : ℕ) : Kern Unit :=
  Prog.modify (fun s => (s.setNextFree i none).setRefs i 1#32)

def initPages : Kern Unit := do
  markUsed 0
  let basemem ← Prog.read (·.pagesBasememCount)
  Prog.forUp pushFree 1 (basemem - 1)
  let i := max 1 basemem
  let frontier ← bootAlloc 0#32
  let usedCount := (paddr frontier / pageSize).toNat
  Prog.forUp markUsed i (usedCount - i)
  let i := max i usedCount
  let count ← Prog.read (·.pagesCount)
  Prog.forUp pushFree i (count - i)

/-- What a word of memory is as a `struct page_status *`. -/
def pageStatusAt (base w : Word) : Option ℕ := if w = 0#32 then none else some ((w - base).toNat / 8)

/-- `ps->next_free`, which for `NULL` is the word at address 0 and never a good access. -/
def nextFreeOf : Option ℕ → Kern (Option ℕ)
  | none => do
    Prog.check (fun _ => false)
    let w ← loadUser 0#32
    Prog.read (fun s => pageStatusAt s.pagesBase w)
  | some ps => Prog.read (fun s => (s.pages ps).nextFree)

/-- The list moves on before the test for `NULL`, so `page_free_list` is dereferenced first. -/
def firstFreePage : Kern ℕ := do
  let head ← Prog.read (·.pageFreeList)
  let next ← nextFreeOf head
  Prog.modify (·.setFreeList next)
  match head with
  | none => Prog.errorLoop "Not enought memory\n"
  | some ps => do
    Prog.modify (·.setNextFree ps none)
    return ps

def pageZeroFilled : Word := 1#32

def pageAlloc (allocFlags : Word) : Kern ℕ := do
  let ps ← firstFreePage
  if allocFlags &&& pageZeroFilled = pageZeroFilled then
    let vaddr ← page2kva ps
    memsetPage vaddr 0#32
    return ps
  else
    return ps

def freePage (ps : ℕ) : Kern Unit := do
  let page ← Prog.read (·.pages ps)
  if page.refs ≠ 0#32 ∨ page.nextFree ≠ none then
    Prog.errorLoop "Page still in use\n"
  else
    Prog.modify (fun s => ((s.setNextFree ps s.pageFreeList).setFreeList (some ps)).setRefs ps 0#32)

def incRefs (ps : ℕ) : Kern Unit := Prog.modify (fun s => s.setRefs ps ((s.pages ps).refs + 1#32))

def pageDecref (ps : ℕ) : Kern Unit := do
  Prog.modify (fun s => s.setRefs ps ((s.pages ps).refs - 1#32))
  let page ← Prog.read (·.pages ps)
  if page.refs = 0#32 then freePage ps else return ()

end Cezos
