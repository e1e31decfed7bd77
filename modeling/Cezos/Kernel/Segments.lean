import Cezos.Mmu
import Cezos.Lib.Outcome

namespace Cezos

open Lib

structure Segdesc where
  lim_15_0 : BitVec 16
  base_15_0 : BitVec 16
  base_23_16 : BitVec 8
  type : BitVec 4
  s : BitVec 1
  dpl : BitVec 2
  p : BitVec 1
  lim_19_16 : BitVec 4
  avl : BitVec 1
  rsv1 : BitVec 1
  db : BitVec 1
  g : BitVec 1
  base_31_24 : BitVec 8
  deriving DecidableEq

def segNull : Segdesc := ⟨0#16, 0#16, 0#8, 0#4, 0#1, 0#2, 0#1, 0#4, 0#1, 0#1, 0#1, 0#1, 0#8⟩

def seg (type base lim dpl : Word) : Segdesc where
  lim_15_0 := (lim >>> 12 &&& 0xFFFF#32).setWidth 16
  base_15_0 := (base &&& 0xFFFF#32).setWidth 16
  base_23_16 := (base >>> 16 &&& 0xFF#32).setWidth 8
  type := type.setWidth 4
  s := 1#1
  dpl := dpl.setWidth 2
  p := 1#1
  lim_19_16 := (lim >>> 28).setWidth 4
  avl := 0#1
  rsv1 := 0#1
  db := 1#1
  g := 1#1
  base_31_24 := (base >>> 24).setWidth 8

def seg16 (type base lim dpl : Word) : Segdesc where
  lim_15_0 := (lim &&& 0xFFFF#32).setWidth 16
  base_15_0 := (base &&& 0xFFFF#32).setWidth 16
  base_23_16 := (base >>> 16 &&& 0xFF#32).setWidth 8
  type := type.setWidth 4
  s := 1#1
  dpl := dpl.setWidth 2
  p := 1#1
  lim_19_16 := (lim >>> 16).setWidth 4
  avl := 0#1
  rsv1 := 0#1
  db := 1#1
  g := 0#1
  base_31_24 := (base >>> 24).setWidth 8

namespace Segdesc

variable {d : Segdesc} {type b lim dpl : Word}

/-- The bit fields in memory, the first in the lowest bits. -/
def quad (d : Segdesc) : BitVec 64 :=
  d.base_31_24 ++ d.g ++ d.db ++ d.rsv1 ++ d.avl ++ d.lim_19_16 ++ d.p ++ d.dpl ++ d.s ++ d.type ++
    d.base_23_16 ++ d.base_15_0 ++
    d.lim_15_0

def ofQuad (q : BitVec 64) : Segdesc where
  lim_15_0 := q.extractLsb' 0 16
  base_15_0 := q.extractLsb' 16 16
  base_23_16 := q.extractLsb' 32 8
  type := q.extractLsb' 40 4
  s := q.extractLsb' 44 1
  dpl := q.extractLsb' 45 2
  p := q.extractLsb' 47 1
  lim_19_16 := q.extractLsb' 48 4
  avl := q.extractLsb' 52 1
  rsv1 := q.extractLsb' 53 1
  db := q.extractLsb' 54 1
  g := q.extractLsb' 55 1
  base_31_24 := q.extractLsb' 56 8

theorem ofQuad_quad (d : Segdesc) : ofQuad d.quad = d := by
  cases d
  simp only [ofQuad, mk.injEq]
  refine ⟨?_, ?_, ?_, ?_, ?_, ?_, ?_, ?_, ?_, ?_, ?_, ?_, ?_⟩
  all_goals
    apply BitVec.eq_of_getLsbD_eq
    intro i hi
    simp only [quad, BitVec.getLsbD_extractLsb', BitVec.getLsbD_append]
    grind

theorem quad_ofQuad (q : BitVec 64) : (ofQuad q).quad = q := by
  simp (disch := rfl) only [quad, ofQuad, BitVec.extractLsb'_append_extractLsb'_eq_extractLsb']
  exact BitVec.extractLsb'_eq_self

def base (d : Segdesc) : Word := d.base_31_24 ++ d.base_23_16 ++ d.base_15_0

/-- The last offset in the segment: a limit in pages counts whole ones. -/
def limit (d : Segdesc) : Word :=
  if d.g = 1#1 then d.lim_19_16 ++ d.lim_15_0 ++ 0xFFF#12 else (d.lim_19_16 ++ d.lim_15_0).setWidth 32

theorem mask_setWidth (x : Word) {w : ℕ} (hw : w ≤ 32) :
    (x &&& BitVec.ofNat 32 (2 ^ w - 1)).setWidth w = x.setWidth w := by
  have hpow : 2 ^ w ≤ 2 ^ 32 := Nat.pow_le_pow_right (by decide) hw
  have hpos : 0 < 2 ^ w := Nat.two_pow_pos w
  have hmask : (2 ^ w - 1) % 2 ^ 32 = 2 ^ w - 1 := Nat.mod_eq_of_lt (by omega)
  apply BitVec.eq_of_toNat_eq
  rw [BitVec.toNat_setWidth, BitVec.toNat_setWidth, BitVec.toNat_and, BitVec.toNat_ofNat, hmask,
    Nat.and_two_pow_sub_one_eq_mod,
    Nat.mod_mod]

theorem low_field (x : Word) : (x &&& 0xFFFF#32).setWidth 16 = x.extractLsb' 0 16 := mask_setWidth x (by decide)

theorem join_base (b : Word) :
    ((b >>> 24).setWidth 8 ++ (b >>> 16 &&& 0xFF#32).setWidth 8 ++ (b &&& 0xFFFF#32).setWidth 16 : Word) = b := by
  have hhigh : (b >>> 24).setWidth 8 = b.extractLsb' 24 8 := rfl
  have hmid : (b >>> 16 &&& 0xFF#32).setWidth 8 = b.extractLsb' 16 8 :=
    mask_setWidth (b >>> 16) (show 8 ≤ 32 by decide)
  simp (disch := rfl) only [hhigh, hmid, low_field, BitVec.extractLsb'_append_extractLsb'_eq_extractLsb']
  exact BitVec.extractLsb'_eq_self

theorem pages_limit (lim : Word) : (lim.extractLsb' 12 20 ++ 0xFFF#12 : Word) = lim ||| 0xFFF#32 := by
  have hshort : 0xFFF#12 = BitVec.allOnes 12 := rfl
  have hlong : 0xFFF#32 = (BitVec.allOnes 12).setWidth 32 := rfl
  apply BitVec.eq_of_getLsbD_eq
  intro i hi
  rw [hshort, hlong, BitVec.getLsbD_append, BitVec.getLsbD_or, BitVec.getLsbD_setWidth, BitVec.getLsbD_allOnes]
  by_cases hlow : i < 12
  · simp [hlow, hi]
  · have hrange : i - 12 < 20 := by omega
    have hplace : 12 + (i - 12) = i := by omega
    rw [if_neg hlow, BitVec.getLsbD_extractLsb', hplace]
    simp [hlow, hrange]

theorem bytes_limit (lim : Word) : (lim.extractLsb' 0 20).setWidth 32 = lim &&& 0xFFFFF#32 := by
  have hmask : 0xFFFFF#32 = (BitVec.allOnes 20).setWidth 32 := rfl
  apply BitVec.eq_of_getLsbD_eq
  intro i hi
  rw [hmask, BitVec.getLsbD_setWidth, BitVec.getLsbD_extractLsb', BitVec.getLsbD_and, BitVec.getLsbD_setWidth,
    BitVec.getLsbD_allOnes]
  simp [hi, Bool.and_comm]

theorem seg_decodes (type b lim dpl : Word) :
    (∀ d, ofQuad d.quad = d) ∧ (∀ q, (ofQuad q).quad = q) ∧
      (seg type b lim dpl).base = b ∧ (seg type b lim dpl).limit = lim ||| 0xFFF#32 ∧
      (seg16 type b lim dpl).base = b ∧ (seg16 type b lim dpl).limit = lim &&& 0xFFFFF#32 := by
  refine ⟨ofQuad_quad, quad_ofQuad, join_base b, ?_, join_base b, ?_⟩
  · have hlow : (lim >>> 12 &&& 0xFFFF#32).setWidth 16 = lim.extractLsb' 12 16 := low_field (lim >>> 12)
    have hhigh : (lim >>> 28).setWidth 4 = lim.extractLsb' 28 4 := rfl
    change ((lim >>> 28).setWidth 4 ++ (lim >>> 12 &&& 0xFFFF#32).setWidth 16 ++ 0xFFF#12 : Word) = _
    simp (disch := rfl) only [hlow, hhigh, BitVec.extractLsb'_append_extractLsb'_eq_extractLsb']
    exact pages_limit lim
  · have hhigh : (lim >>> 16).setWidth 4 = lim.extractLsb' 16 4 := rfl
    change ((lim >>> 16).setWidth 4 ++ (lim &&& 0xFFFF#32).setWidth 16).setWidth 32 = _
    simp (disch := rfl) only [low_field, hhigh, BitVec.extractLsb'_append_extractLsb'_eq_extractLsb']
    exact bytes_limit lim

end Segdesc

def staX : Word := 0x8#32
def staW : Word := 0x2#32
def staR : Word := 0x2#32

def kernelPrivilageLevel : Word := 0#32
def userPrivilageLevel : Word := 3#32

def gdKernelText : BitVec 16 := 0x08#16
def gdKernelData : BitVec 16 := 0x10#16

def gdNullIndex : ℕ := 0
def gdKdIndex : ℕ := 2
def gdUtIndex : ℕ := 3
def gdUdIndex : ℕ := 4
def gdTssIndex : ℕ := 5

/-- The initialisers, each with the index that the source designates. -/
def gdtEntries : List (ℕ × Segdesc) :=
  [(gdNullIndex, segNull), (gdKernelText.toNat, seg (staX ||| staR) 0#32 0xFFFFFFFF#32 kernelPrivilageLevel),
    (gdKdIndex, seg staW 0#32 0xFFFFFFFF#32 kernelPrivilageLevel),
    (gdUtIndex, seg (staX ||| staR) 0#32 0xFFFFFFFF#32 userPrivilageLevel),
    (gdUdIndex, seg staW 0#32 0xFFFFFFFF#32 userPrivilageLevel), (gdTssIndex, segNull)]

/-- An array is as long as its highest index needs, and 0 where it has no initialiser. -/
def globalDescriptorTable : List Segdesc :=
  (List.range ((gdtEntries.map Prod.fst).foldl max 0 + 1)).map (fun i => (gdtEntries.lookup i).getD segNull)

structure Cpu where
  gdt : List Segdesc
  ds : BitVec 16
  es : BitVec 16
  ss : BitVec 16
  cs : BitVec 16

/-- The segment that a selector names: there is no local table, and entry 0 is not used. -/
def segmentAt (table : List Segdesc) (sel : BitVec 16) : Option Segdesc :=
  if sel &&& 0x4#16 ≠ 0#16 ∨ sel >>> 3 = 0#16 then none
  else (table[(sel >>> 3).toNat]?).filter (fun d => decide (d.p = 1#1 ∧ d.s = 1#1))

/-- The processor, at privilege level 0, lets `sel` through as one of the segments `ok`, or it faults. -/
def checkSegment (sel : BitVec 16) (ok : Segdesc → Bool) : Prog Cpu Unit := do
  match ← Prog.read (fun s => segmentAt s.gdt sel) with
  | some d => if ok d = true then return () else Prog.fault
  | none => Prog.fault

def isCode (d : Segdesc) : Bool := decide (d.type &&& 0x8#4 ≠ 0#4)

def isReadable (d : Segdesc) : Bool := !isCode d || decide (d.type &&& 0x2#4 ≠ 0#4)

def isWritable (d : Segdesc) : Bool := !isCode d && decide (d.type &&& 0x2#4 ≠ 0#4)

def rpl (sel : BitVec 16) : BitVec 2 := sel.setWidth 2

def lgdt (table : List Segdesc) : Prog Cpu Unit := Prog.modify (fun s => { s with gdt := table })

/-- A selector without an index may be put into a data register, whose use then faults. -/
def checkData (sel : BitVec 16) : Prog Cpu Unit :=
  if sel >>> 2 = 0#16 then return () else checkSegment sel (fun d => isReadable d && decide (rpl sel ≤ d.dpl))

def movDs (sel : BitVec 16) : Prog Cpu Unit := do
  checkData sel
  Prog.modify (fun s => { s with ds := sel })

def movEs (sel : BitVec 16) : Prog Cpu Unit := do
  checkData sel
  Prog.modify (fun s => { s with es := sel })

def movSs (sel : BitVec 16) : Prog Cpu Unit := do
  checkSegment sel (fun d => isWritable d && decide (rpl sel = 0#2 ∧ d.dpl = 0#2))
  Prog.modify (fun s => { s with ss := sel })

def ljmp (sel : BitVec 16) : Prog Cpu Unit := do
  checkSegment sel (fun d => isCode d && decide (rpl sel = 0#2 ∧ d.dpl = 0#2))
  Prog.modify (fun s => { s with cs := sel })

def procInitPercpu : Prog Cpu Unit := do
  lgdt globalDescriptorTable
  movDs gdKernelData
  movEs gdKernelData
  movSs gdKernelData
  ljmp gdKernelText

variable {s : Cpu} {sel : BitVec 16} {d : Segdesc} {ok : Segdesc → Bool}

theorem checkSegment_returns (hd : segmentAt s.gdt sel = some d) (hok : ok d = true) :
    Returns true (checkSegment sel ok) s () s := by
  refine returns_bind.mpr ⟨_, s, returns_read.mpr ⟨rfl, rfl⟩, ?_⟩
  rw [hd]
  exact returns_ite.mpr (Or.inl ⟨hok, returns_pure.mpr ⟨rfl, rfl⟩⟩)

theorem checkSegment_faults (hd : segmentAt s.gdt sel = none) : Faults (checkSegment sel ok) s s := by
  have hread : Returns true (Prog.read (fun s : Cpu => segmentAt s.gdt sel)) s none s :=
    returns_read.mpr ⟨hd.symm, rfl⟩
  exact Faults.tail hread faults_fault

theorem checkData_returns (hd : segmentAt s.gdt sel = some d)
    (hok : (isReadable d && decide (rpl sel ≤ d.dpl)) = true) :
    Returns true (checkData sel) s () s := by
  rw [checkData]
  by_cases hnull : sel >>> 2 = 0#16
  · rw [if_pos hnull]
    exact returns_pure.mpr ⟨rfl, rfl⟩
  · rw [if_neg hnull]
    exact checkSegment_returns hd hok

theorem movDs_returns (hd : segmentAt s.gdt sel = some d) (hok : (isReadable d && decide (rpl sel ≤ d.dpl)) = true) :
    Returns true (movDs sel) s () { s with ds := sel } :=
  returns_bind.mpr ⟨(), s, checkData_returns hd hok, returns_modify.mpr rfl⟩

theorem movEs_returns (hd : segmentAt s.gdt sel = some d) (hok : (isReadable d && decide (rpl sel ≤ d.dpl)) = true) :
    Returns true (movEs sel) s () { s with es := sel } :=
  returns_bind.mpr ⟨(), s, checkData_returns hd hok, returns_modify.mpr rfl⟩

theorem movSs_returns (hd : segmentAt s.gdt sel = some d)
    (hok : (isWritable d && decide (rpl sel = 0#2 ∧ d.dpl = 0#2)) = true) :
    Returns true (movSs sel) s () { s with ss := sel } :=
  returns_bind.mpr ⟨(), s, checkSegment_returns hd hok, returns_modify.mpr rfl⟩

def kernelData : Segdesc := seg staW 0#32 0xFFFFFFFF#32 kernelPrivilageLevel

def gdtSegments : List (ℕ × Segdesc) :=
  [(gdKdIndex, kernelData), (gdUtIndex, seg (staX ||| staR) 0#32 0xFFFFFFFF#32 userPrivilageLevel),
    (gdUdIndex, seg staW 0#32 0xFFFFFFFF#32 userPrivilageLevel),
    (8, seg (staX ||| staR) 0#32 0xFFFFFFFF#32 kernelPrivilageLevel)]

theorem present_iff (n : ℕ) : (globalDescriptorTable[n]?).filter (fun d => decide (d.p = 1#1 ∧ d.s = 1#1)) = some d ↔
    (n, d) ∈ gdtSegments := by
  have htable : globalDescriptorTable =
    [segNull, segNull, kernelData, seg (staX ||| staR) 0#32 0xFFFFFFFF#32 userPrivilageLevel,
    seg staW 0#32 0xFFFFFFFF#32 userPrivilageLevel, segNull, segNull, segNull,
    seg (staX ||| staR) 0#32 0xFFFFFFFF#32 kernelPrivilageLevel] := by decide
  rw [htable]
  match n with
  | 0 | 1 | 5 | 6 | 7 =>
    simp [gdtSegments, gdKdIndex, gdUtIndex, gdUdIndex]
    rintro rfl
    simp [segNull]
  | 2 | 3 | 4 | 8 =>
    rw [eq_comm]
    simp [gdtSegments, kernelData, seg, gdKdIndex, gdUtIndex, gdUdIndex, Option.filter_some]
  | n + 9 => simp [gdtSegments, gdKdIndex, gdUtIndex, gdUdIndex]

theorem gdt_segments : (∀ sel d, segmentAt globalDescriptorTable sel = some d ↔
    sel &&& 0x4#16 = 0#16 ∧ ((sel >>> 3).toNat, d) ∈ gdtSegments) ∧
    ∀ s, Faults procInitPercpu s ⟨globalDescriptorTable, gdKernelData, gdKernelData, gdKernelData, s.cs⟩ := by
  constructor
  · intro sel d
    rw [segmentAt]
    split
    · next hnone =>
      refine iff_of_false (by simp) ?_
      rintro ⟨hglobal, hmem⟩
      rcases hnone with hlocal | hzero
      · exact hlocal hglobal
      · rw [hzero] at hmem
        simp [gdtSegments, gdKdIndex, gdUtIndex, gdUdIndex] at hmem
    · next hsome =>
      rw [not_or, not_not] at hsome
      rw [present_iff]
      exact (and_iff_right hsome.1).symm
  · intro s
    have hdata : segmentAt globalDescriptorTable gdKernelData = some kernelData := by decide
    have htext : segmentAt globalDescriptorTable gdKernelText = none := by decide
    have hlgdt : Returns true (lgdt globalDescriptorTable) s () { s with gdt := globalDescriptorTable } :=
      returns_modify.mpr rfl
    have hds := movDs_returns (s := { s with gdt := globalDescriptorTable }) hdata (by decide)
    have hes := movEs_returns (s := { s with gdt := globalDescriptorTable, ds := gdKernelData }) hdata (by decide)
    have hss := movSs_returns
      (s := { s with gdt := globalDescriptorTable, ds := gdKernelData, es := gdKernelData }) hdata (by decide)
    exact Faults.tail hlgdt
      (Faults.tail hds (Faults.tail hes (Faults.tail hss (Faults.head (checkSegment_faults htext)))))

end Cezos
