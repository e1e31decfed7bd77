import Cezos.Lib.Clean
import Cezos.Stdio.Printfmt

namespace Cezos

open Lib

def procBitLen : ℕ := 10
def procCount : ℕ := 2 ^ procBitLen

/-- `sizeof(struct task_struct)`: a trap frame of 68 bytes, then six words -/
def taskSize : Word := 92#32

/-- What `pid_to_proc` sees of the tasks: the fields are those at an address. -/
structure TaskTable where
  tasks : Word
  current : Word
  pid : Word → CInt
  ppid : Word → CInt
  printed : List (String × CInt)

variable {s s' : TaskTable} {st : Bool} {pid checkPerms : CInt} {p r : Word}

namespace TaskTable

def entry (s : TaskTable) (i : CInt) : Word := s.tasks + taskSize * i

def InTable (i : CInt) : Prop := 0 ≤ i.toInt ∧ i.toInt < procCount

instance (i : CInt) : Decidable (InTable i) := inferInstanceAs (Decidable (_ ∧ _))

def IsEntry (s : TaskTable) (p : Word) : Prop :=
  (p - s.tasks).toNat % taskSize.toNat = 0 ∧ (p - s.tasks).toNat / taskSize.toNat < procCount

instance (p : Word) : Decidable (s.IsEntry p) := inferInstanceAs (Decidable (_ ∧ _))

end TaskTable

def formEntry (i : CInt) : Prog TaskTable Word := do
  Prog.check (fun _ => decide (TaskTable.InTable i))
  Prog.read (·.entry i)

def readField (field : TaskTable → Word → CInt) (p : Word) : Prog TaskTable CInt := do
  Prog.check (fun s => decide (s.IsEntry p))
  Prog.read (fun s => field s p)

def invalidProcess (pid : CInt) : Prog TaskTable Word := do
  Prog.modify (fun s => { s with printed := s.printed ++ [("[Error] Invalid proccess for pid %d\n", pid)] })
  return 0#32

def pidToProc (pid checkPerms : CInt) : Prog TaskTable Word :=
  if pid = 0#32 then Prog.read (·.current)
  else do
    let task ← formEntry pid
    if task = 0#32 then invalidProcess pid
    else if checkPerms ≠ 0#32 then do
      let current ← Prog.read (·.current)
      if task ≠ current then invalidProcess pid
      else do
        let ppid ← readField (·.ppid) task
        let own ← readField (·.pid) current
        if ppid ≠ own then invalidProcess pid
        else return task
    else return task

namespace TaskTable

structure Placed (s : TaskTable) : Prop where
  fits : s.tasks.toNat + taskSize.toNat * procCount ≤ 4294967296
  current : s.IsEntry s.current

def Child (s : TaskTable) (p : Word) : Prop := s.ppid p = s.pid s.current

instance (p : Word) : Decidable (s.Child p) := inferInstanceAs (Decidable (_ = _))

/-- The task that the two tests of the source, one after the other, let through. -/
def answer (s : TaskTable) (pid checkPerms : CInt) : Word :=
  if checkPerms = 0#32 ∨ (s.entry pid = s.current ∧ s.Child (s.entry pid)) then s.entry pid else 0#32

theorem toNat_index {i : CInt} (h : InTable i) : (i.toNat : Int) = i.toInt ∧ i.toNat < 1024 := by
  have hcond := BitVec.toInt_eq_toNat_cond i
  have hlt := i.isLt
  obtain ⟨hlow, hhigh⟩ := h
  change i.toInt < 1024 at hhigh
  split at hcond <;> omega

theorem toNat_offset_entry {i : CInt} (h : InTable i) : (s.entry i - s.tasks).toNat = 92 * i.toNat := by
  obtain ⟨_, hlt⟩ := toNat_index h
  rw [entry, BitVec.add_comm, BitVec.add_sub_cancel, BitVec.toNat_mul]
  change 92 * i.toNat % 4294967296 = _
  omega

theorem isEntry_entry {i : CInt} (h : InTable i) : s.IsEntry (s.entry i) := by
  obtain ⟨_, hlt⟩ := toNat_index h
  rw [IsEntry, toNat_offset_entry h]
  change 92 * i.toNat % 92 = 0 ∧ 92 * i.toNat / 92 < 1024
  omega

theorem Placed.toNat_entry (h : s.Placed) {i : CInt} (hin : InTable i) :
    (s.entry i).toNat = s.tasks.toNat + 92 * i.toNat := by
  obtain ⟨_, hlt⟩ := toNat_index hin
  have hfits := h.fits
  change s.tasks.toNat + 92 * 1024 ≤ 4294967296 at hfits
  rw [entry, BitVec.toNat_add, BitVec.toNat_mul]
  change (s.tasks.toNat + 92 * i.toNat % 4294967296) % 4294967296 = _
  omega

theorem Placed.entry_ne (h : s.Placed) (hin : InTable pid) (hpid : pid ≠ 0#32) : s.entry pid ≠ 0#32 := by
  have hpos : pid.toNat ≠ 0 := fun hz => hpid (BitVec.eq_of_toNat_eq hz)
  have hentry := h.toNat_entry hin
  intro hz
  rw [hz] at hentry
  change 0 = _ at hentry
  omega

end TaskTable

theorem formEntry_iff : Returns st (formEntry pid) s r s' ↔ (r = s.entry pid ∧ s' = s) ∧
    (st = true → TaskTable.InTable pid) := by
  unfold formEntry
  simp only [returns_bind, returns_check, returns_read, decide_eq_true_eq]
  constructor
  · rintro ⟨_, _, ⟨rfl, hin⟩, rfl, rfl⟩
    exact ⟨⟨rfl, rfl⟩, hin⟩
  · rintro ⟨⟨rfl, rfl⟩, hin⟩
    exact ⟨(), _, ⟨rfl, hin⟩, rfl, rfl⟩

theorem readField_returns {field : TaskTable → Word → CInt} (h : s.IsEntry p) :
    Returns true (readField field p) s (field s p) s :=
  returns_bind.mpr ⟨(), s, returns_check.mpr ⟨rfl, fun _ => decide_eq_true h⟩, returns_read.mpr ⟨rfl, rfl⟩⟩

theorem invalidProcess_returns : ∃ s', Returns st (invalidProcess pid) s 0#32 s' :=
  ⟨_, returns_bind.mpr ⟨(), _, returns_modify.mpr rfl, returns_pure.mpr ⟨rfl, rfl⟩⟩⟩

theorem pidToProc_answers (h : s.Placed) (hpid : pid ≠ 0#32) (hin : TaskTable.InTable pid) :
    ∃ s', Returns true (pidToProc pid checkPerms) s (s.answer pid checkPerms) s' := by
  have hform : Returns true (formEntry pid) s (s.entry pid) s := formEntry_iff.mpr ⟨⟨rfl, rfl⟩, fun _ => hin⟩
  have hcurrent : Returns true (Prog.read (·.current)) s s.current s := returns_read.mpr ⟨rfl, rfl⟩
  have hppid : Returns true (readField (·.ppid) (s.entry pid)) s (s.ppid (s.entry pid)) s :=
    readField_returns (TaskTable.isEntry_entry hin)
  have hown : Returns true (readField (·.pid) s.current) s (s.pid s.current) s := readField_returns h.current
  obtain ⟨s', hinvalid⟩ := @invalidProcess_returns s true pid
  unfold TaskTable.answer
  by_cases hcheck : checkPerms = 0#32
  · rw [if_pos (Or.inl hcheck)]
    refine ⟨s,
      returns_ite.mpr
      (Or.inr ⟨hpid, returns_bind.mpr ⟨_, s, hform, returns_ite.mpr (Or.inr ⟨h.entry_ne hin hpid, ?_⟩)⟩⟩)⟩
    exact returns_ite.mpr (Or.inr ⟨not_not.mpr hcheck, returns_pure.mpr ⟨rfl, rfl⟩⟩)
  · have hreach : ∀ {r t}, Returns true (if s.entry pid ≠ s.current then invalidProcess pid else
        readField (·.ppid) (s.entry pid) >>= fun ppid => readField (·.pid) s.current >>= fun own =>
          if ppid ≠ own then invalidProcess pid else pure (s.entry pid)) s r t →
            Returns true (pidToProc pid checkPerms) s r t := by
      intro r t hrest
      refine returns_ite.mpr
        (Or.inr ⟨hpid, returns_bind.mpr ⟨_, s, hform, returns_ite.mpr (Or.inr ⟨h.entry_ne hin hpid, ?_⟩)⟩⟩)
      exact returns_ite.mpr (Or.inl ⟨hcheck, returns_bind.mpr ⟨_, s, hcurrent, hrest⟩⟩)
    by_cases hcur : s.entry pid = s.current
    · by_cases hchild : s.Child (s.entry pid)
      · rw [if_pos (Or.inr ⟨hcur, hchild⟩)]
        exact ⟨s, hreach (returns_ite.mpr (Or.inr ⟨not_not.mpr hcur, returns_bind.mpr ⟨_, s, hppid, returns_bind.mpr
          ⟨_, s, hown, returns_ite.mpr (Or.inr ⟨not_not.mpr hchild, returns_pure.mpr ⟨rfl, rfl⟩⟩)⟩⟩⟩))⟩
      · rw [if_neg (fun hor => hor.elim hcheck (fun hand => hchild hand.2))]
        exact ⟨s', hreach (returns_ite.mpr (Or.inr ⟨not_not.mpr hcur, returns_bind.mpr ⟨_, s, hppid, returns_bind.mpr
          ⟨_, s, hown, returns_ite.mpr (Or.inl ⟨hchild, hinvalid⟩)⟩⟩⟩))⟩
    · rw [if_neg (fun hor => hor.elim hcheck (fun hand => hcur hand.1))]
      exact ⟨s', hreach (returns_ite.mpr (Or.inl ⟨hcur, hinvalid⟩))⟩

theorem pidToProc_inTable (hpid : pid ≠ 0#32) (h : Returns true (pidToProc pid checkPerms) s r s') :
    TaskTable.InTable pid := by
  rcases returns_ite.mp h with ⟨hzero, _⟩ | ⟨_, hrest⟩
  · exact absurd hzero hpid
  · obtain ⟨_, _, hform, _⟩ := returns_bind.mp hrest
    exact (formEntry_iff.mp hform).2 rfl

/-- `pid_to_proc` as it should be: every access inside the table, the task asked for, and the permissions kept. -/
def LooksUp (s : TaskTable) (pid checkPerms : CInt) : Prop :=
  ∃ r s', Returns true (pidToProc pid checkPerms) s r s' ∧ (r ≠ 0#32 → s.pid r = pid) ∧
    (checkPerms ≠ 0#32 → (s.entry pid = s.current ∨ s.Child (s.entry pid) → r = s.entry pid) ∧
      (¬ (s.entry pid = s.current ∨ s.Child (s.entry pid)) → r = 0#32))

theorem pidToProc_looksUp_iff (h : s.Placed) (hpid : pid ≠ 0#32) : LooksUp s pid checkPerms ↔
    TaskTable.InTable pid ∧
      ((checkPerms = 0#32 ∧ s.pid (s.entry pid) = pid) ∨
        (checkPerms ≠ 0#32 ∧ s.entry pid = s.current ∧ s.Child (s.entry pid) ∧ s.pid (s.entry pid) = pid) ∨
        (checkPerms ≠ 0#32 ∧ s.entry pid ≠ s.current ∧ ¬ s.Child (s.entry pid))) := by
  constructor
  · rintro ⟨r, s', hr, hfield, hperms⟩
    have hin := pidToProc_inTable hpid hr
    have hne := h.entry_ne hin hpid
    obtain ⟨_, hanswer⟩ := @pidToProc_answers s pid checkPerms h hpid hin
    obtain ⟨rfl, _⟩ := hr.unique hanswer
    refine ⟨hin, ?_⟩
    unfold TaskTable.answer at hfield hperms
    by_cases hcheck : checkPerms = 0#32
    · rw [if_pos (Or.inl hcheck)] at hfield
      exact Or.inl ⟨hcheck, hfield hne⟩
    · right
      obtain ⟨hallowed, hdenied⟩ := hperms hcheck
      by_cases hboth : s.entry pid = s.current ∧ s.Child (s.entry pid)
      · rw [if_pos (Or.inr hboth)] at hfield
        exact Or.inl ⟨hcheck, hboth.1, hboth.2, hfield hne⟩
      · rw [if_neg (fun hor => hor.elim hcheck hboth)] at hallowed
        have hneither : ¬ (s.entry pid = s.current ∨ s.Child (s.entry pid)) := fun hor => hne (hallowed hor).symm
        rw [not_or] at hneither
        exact Or.inr ⟨hcheck, hneither⟩
  · rintro ⟨hin, hcases⟩
    obtain ⟨s', hanswer⟩ := @pidToProc_answers s pid checkPerms h hpid hin
    refine ⟨_, s', hanswer, ?_⟩
    unfold TaskTable.answer
    rcases hcases with ⟨hcheck, hfield⟩ | ⟨hcheck, hcur, hchild, hfield⟩ | ⟨hcheck, hcur, hchild⟩
    · rw [if_pos (Or.inl hcheck)]
      exact ⟨fun _ => hfield, fun hne => absurd hcheck hne⟩
    · rw [if_pos (Or.inr ⟨hcur, hchild⟩)]
      exact ⟨fun _ => hfield, fun _ => ⟨fun _ => rfl, fun hno => absurd (Or.inl hcur) hno⟩⟩
    · rw [if_neg (fun hor => hor.elim hcheck (fun hand => hcur hand.1))]
      exact ⟨fun hne => absurd rfl hne, fun _ => ⟨fun hor => absurd hor (not_or.mpr ⟨hcur, hchild⟩), fun _ => rfl⟩⟩

/-- Task `i` of a table at 4096 has the number `i`, and 1 is the parent of all; 2 runs. -/
def smallTable : TaskTable where
  tasks := 4096#32
  current := 4096#32 + taskSize * 2#32
  pid p := (p - 4096#32) / taskSize
  ppid _ := 1#32
  printed := []

theorem smallTable_placed : smallTable.Placed := ⟨by decide, by decide⟩

def firstTable : TaskTable := { smallTable with current := 4096#32 + taskSize }

theorem firstTable_placed : firstTable.Placed := ⟨by decide, by decide⟩

theorem pidToProc_looksUp_other : LooksUp smallTable 3#32 0#32 ∧ LooksUp smallTable 3#32 1#32 ∧
    LooksUp firstTable 1#32 1#32 := by
  refine ⟨?_, ?_, ?_⟩
  · exact (pidToProc_looksUp_iff smallTable_placed (by decide)).mpr ⟨by decide, Or.inl ⟨rfl, by decide⟩⟩
  · exact (pidToProc_looksUp_iff smallTable_placed (by decide)).mpr
      ⟨by decide, Or.inr (Or.inr ⟨by decide, by decide, by decide⟩)⟩
  · exact (pidToProc_looksUp_iff firstTable_placed (by decide)).mpr
      ⟨by decide, Or.inr (Or.inl ⟨by decide, by decide, by decide, by decide⟩)⟩

theorem not_pidToProc_looksUp : ¬ ∀ (s : TaskTable) (pid checkPerms : CInt), s.Placed → pid ≠ 0#32 →
    LooksUp s pid checkPerms := by
  intro h
  obtain ⟨r, s', hr, _⟩ := h smallTable 1024#32 0#32 smallTable_placed (by decide)
  exact absurd (pidToProc_inTable (by decide) hr) (by decide)

end Cezos
