import Mathlib.Algebra.Group.Nat.Defs
import Mathlib.Tactic.Common

namespace Cezos

abbrev Word := BitVec 32

def pdxShift : ℕ := 22
def ptxShift : ℕ := 12
def pgShift : ℕ := 12

def pdx (la : Word) : ℕ := ((la >>> pdxShift) &&& 0x3FF#32).toNat
def ptx (la : Word) : ℕ := ((la >>> ptxShift) &&& 0x3FF#32).toNat
def pgnum (la : Word) : ℕ := ((la >>> ptxShift) &&& 0xFFFFF#32).toNat
def pgoff (la : Word) : ℕ := (la &&& 0xFFF#32).toNat

def numberPdentries : ℕ := 1024
def pageSize : Word := 4096#32
def pageTableSize : Word := pageSize * 1024#32

def pteP : Word := 0x001#32
def pteW : Word := 0x002#32
def pteU : Word := 0x004#32

def pteAddr (pte : Word) : Word := pte &&& 0xFFFFF000#32

def isPagePresent (page : Word) : Bool := page &&& pteP != 0#32
def isPageWritable (page : Word) : Bool := page &&& pteW != 0#32
def isPageUser (page : Word) : Bool := page &&& pteU != 0#32

def cr0Mask : Word := 0x00000001#32 ||| 0x80000000#32 ||| 0x00040000#32 ||| 0x00010000#32 |||
  0x00000020#32 ||| 0x00000002#32
def cr0Clear : Word := 0x00000008#32 ||| 0x00000004#32

def kernelBaseAddress : Word := 0xF0000000#32
def kernelStackTop : Word := kernelBaseAddress
def kernelStackSize : Word := 8#32 * pageSize
def memoryMappedIoLimit : Word := kernelStackTop - pageTableSize
def memoryMappedIoBase : Word := memoryMappedIoLimit - pageTableSize
def uLimit : Word := memoryMappedIoBase
def uVirtualPageTable : Word := uLimit - pageTableSize
def uPages : Word := uVirtualPageTable - pageTableSize
def uEnvironments : Word := uPages - pageTableSize
def uTop : Word := uEnvironments
def extPhysMem : Word := 0x100000#32

theorem uTop_eq : uTop = 0xEEC00000#32 := by decide
theorem uPages_eq : uPages = 0xEF000000#32 := by decide
theorem uVirtualPageTable_eq : uVirtualPageTable = 0xEF400000#32 := by decide

theorem toNat_and_low (w : Word) (n : ℕ) (m : Word) (hm : m.toNat = 2 ^ n - 1) :
    (w &&& m).toNat = w.toNat % 2 ^ n := by
  rw [BitVec.toNat_and, hm, Nat.and_two_pow_sub_one_eq_mod]

theorem pdx_eq (la : Word) : pdx la = la.toNat / 4194304 := by
  have h := la.isLt
  rw [pdx, toNat_and_low _ 10 _ rfl, BitVec.toNat_ushiftRight, Nat.shiftRight_eq_div_pow, pdxShift]
  omega

theorem ptx_eq (la : Word) : ptx la = la.toNat / 4096 % 1024 := by
  rw [ptx, toNat_and_low _ 10 _ rfl, BitVec.toNat_ushiftRight, Nat.shiftRight_eq_div_pow]
  rfl

theorem pgnum_eq (la : Word) : pgnum la = la.toNat / 4096 := by
  have h := la.isLt
  rw [pgnum, toNat_and_low _ 20 _ rfl, BitVec.toNat_ushiftRight, Nat.shiftRight_eq_div_pow, ptxShift]
  omega

theorem pgoff_eq (la : Word) : pgoff la = la.toNat % 4096 := toNat_and_low _ 12 _ rfl

theorem pdx_lt (la : Word) : pdx la < 1024 := by
  have h := la.isLt
  rw [pdx_eq]
  omega

theorem ptx_lt (la : Word) : ptx la < 1024 := by
  rw [ptx_eq]
  omega

theorem pgnum_lt (la : Word) : pgnum la < 1048576 := by
  have h := la.isLt
  rw [pgnum_eq]
  omega

theorem pgnum_split (la : Word) : pgnum la = pdx la * 1024 + ptx la := by
  rw [pgnum_eq, pdx_eq, ptx_eq]
  omega

theorem pdx_of_pgnum (la : Word) : pdx la = pgnum la / 1024 := by
  rw [pgnum_eq, pdx_eq]
  omega

theorem ptx_of_pgnum (la : Word) : ptx la = pgnum la % 1024 := by
  rw [pgnum_eq, ptx_eq]

theorem toNat_split (la : Word) : la.toNat = pgnum la * 4096 + pgoff la := by
  rw [pgnum_eq, pgoff_eq]
  omega

theorem lt_uTop_iff (la : Word) : la < uTop ↔ pdx la < 955 := by
  rw [uTop_eq, BitVec.lt_def, pdx_eq]
  simp only [BitVec.toNat_ofNat]
  omega

theorem toNat_pteAddr (pte : Word) : (pteAddr pte).toNat = pte.toNat / 4096 * 4096 := by
  have h : (pteAddr pte) ||| (pte &&& 0xFFF#32) = pte := by
    rw [pteAddr, ← BitVec.and_or_distrib_left]
    exact BitVec.and_allOnes
  have hd : (pteAddr pte) &&& (pte &&& 0xFFF#32) = 0#32 := by
    rw [pteAddr, BitVec.and_assoc, ← BitVec.and_assoc (0xFFFFF000#32), BitVec.and_comm 0xFFFFF000#32,
      BitVec.and_assoc pte]
    simp
  have hs : (pteAddr pte) + (pte &&& 0xFFF#32) = pte := by
    rw [BitVec.add_eq_or_of_and_eq_zero _ _ hd, h]
  have hlow := pgoff_eq pte
  rw [pgoff] at hlow
  have hz : (pteAddr pte) &&& 0xFFF#32 = 0#32 := by
    rw [pteAddr, BitVec.and_assoc]
    simp
  have hal := pgoff_eq (pteAddr pte)
  rw [pgoff, hz] at hal
  have hsum := congrArg BitVec.toNat hs
  rw [BitVec.toNat_add, hlow] at hsum
  have h₁ := pte.isLt
  have h₂ := (pteAddr pte).isLt
  simp only [BitVec.toNat_ofNat] at hal
  omega

def pteFrame (pte : Word) : ℕ := pgnum (pteAddr pte)

theorem pteFrame_eq (pte : Word) : pteFrame pte = pte.toNat / 4096 := by
  have h := pte.isLt
  rw [pteFrame, pgnum_eq, toNat_pteAddr]
  omega

theorem pteFrame_lt (pte : Word) : pteFrame pte < 1048576 := by
  have h := pte.isLt
  rw [pteFrame_eq]
  omega

section Entry

variable {addr perm f : Word}

theorem and_flag_of_aligned (ha : pgoff addr = 0) (hf : f &&& 0xFFF#32 = f) : addr &&& f = 0#32 := by
  have hz : addr &&& 0xFFF#32 = 0#32 := BitVec.eq_of_toNat_eq (by rw [← pgoff, ha]; rfl)
  rw [← hf, BitVec.and_comm f, ← BitVec.and_assoc, hz, BitVec.zero_and]

theorem pteAddr_of_aligned (ha : pgoff addr = 0) : pteAddr addr = addr := by
  apply BitVec.eq_of_toNat_eq
  rw [pgoff_eq] at ha
  rw [toNat_pteAddr]
  omega

theorem pteAddr_of_small (hp : perm.toNat < 4096) : pteAddr perm = 0#32 := by
  apply BitVec.eq_of_toNat_eq
  rw [toNat_pteAddr, Nat.div_eq_of_lt hp]
  rfl

theorem pteAddr_entry (ha : pgoff addr = 0) (hp : perm.toNat < 4096) :
    pteAddr (addr ||| perm ||| pteP) = addr := by
  have h₁ := pteAddr_of_aligned ha
  have h₂ := pteAddr_of_small hp
  simp only [pteAddr] at h₁ h₂ ⊢
  rw [BitVec.and_or_distrib_right, BitVec.and_or_distrib_right, h₁, h₂, BitVec.or_zero]
  change addr ||| 0#32 = addr
  rw [BitVec.or_zero]

theorem present_entry : isPagePresent (addr ||| perm ||| pteP) = true := by
  have h : (addr ||| perm ||| pteP) &&& pteP = pteP := by
    rw [BitVec.and_or_distrib_right, BitVec.and_self]
    ext i hi
    simp only [BitVec.getElem_or, BitVec.getElem_and]
    cases pteP[i] <;> simp
  rw [isPagePresent, h]
  decide

theorem flag_entry (ha : pgoff addr = 0) (hf : f &&& 0xFFF#32 = f) (hP : pteP &&& f = 0#32) :
    (addr ||| perm ||| pteP) &&& f = perm &&& f := by
  rw [BitVec.and_or_distrib_right, BitVec.and_or_distrib_right, and_flag_of_aligned ha hf, hP,
    BitVec.or_zero, BitVec.zero_or]

theorem writable_entry (ha : pgoff addr = 0) :
    isPageWritable (addr ||| perm ||| pteP) = isPageWritable perm := by
  rw [isPageWritable, flag_entry ha (by decide) (by decide), isPageWritable]

theorem user_entry (ha : pgoff addr = 0) : isPageUser (addr ||| perm ||| pteP) = isPageUser perm := by
  rw [isPageUser, flag_entry ha (by decide) (by decide), isPageUser]

theorem pteFrame_entry (ha : pgoff addr = 0) (hp : perm.toNat < 4096) :
    pteFrame (addr ||| perm ||| pteP) = pgnum addr := by
  rw [pteFrame, pteAddr_entry ha hp]

end Entry

@[simp] theorem present_zero : isPagePresent 0#32 = false := by decide

end Cezos
