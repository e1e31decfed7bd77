import Cezos.Kernel.Lookup
import Cezos.Lib.Chain
import Cezos.Stdio.Refine

namespace Cezos

open Lib TaskTable

/-- The tasks with the list of those that are free. -/
structure TaskPool where
  table : TaskTable
  freeTasks : Word
  nextFree : Word → Word

def onTable {α : Type} (x : Prog TaskTable α) : Prog TaskPool α :=
  Prog.zoom (·.table) (fun s table => { s with table := table }) x

def setPid (p : Word) (v : CInt) : Prog TaskPool Unit := do
  Prog.check (fun s => decide (s.table.IsEntry p))
  Prog.modify (fun s => { s with table := { s.table with pid := Function.update s.table.pid p v } })

def setNextFree (p q : Word) : Prog TaskPool Unit := do
  Prog.check (fun s => decide (s.table.IsEntry p))
  Prog.modify (fun s => { s with nextFree := Function.update s.nextFree p q })

def taskAt (i : ℕ) : Prog TaskPool Word := onTable (formEntry (BitVec.ofNat 32 i))

def initTask (i : ℕ) : Prog TaskPool Unit :=
  if i = 0 then do
    let task ← taskAt i
    Prog.modify (fun s => { s with freeTasks := task })
    let first ← Prog.read (·.freeTasks)
    setPid first 0#32
  else do
    let task ← taskAt i
    setPid task 0#32
    let before ← taskAt (i - 1)
    let task ← taskAt i
    setNextFree before task

def initProcs : Prog TaskPool Unit := do
  Prog.forUp initTask 0 procCount
  let last ← taskAt (procCount - 1)
  setNextFree last 0#32

variable {s s₀ : TaskPool} {t : TaskTable} {p q : Word} {v : CInt} {i j : ℕ}

def TaskTable.place (t : TaskTable) (i : ℕ) : Word := t.entry (BitVec.ofNat 32 i)

theorem inTable_ofNat (hi : i < procCount) : InTable (BitVec.ofNat 32 i) := by
  change i < 1024 at hi
  have htoInt := toInt_ofNat_small (show i < 2147483648 by omega)
  change 0 ≤ (BitVec.ofNat 32 i : CInt).toInt ∧ (BitVec.ofNat 32 i : CInt).toInt < 1024
  omega

theorem place_offset (hi : i < procCount) : (t.place i - t.tasks).toNat = 92 * i := by
  have hsmall : (BitVec.ofNat 32 i).toNat = i := Nat.mod_eq_of_lt (Nat.lt_trans hi (by decide))
  rw [place, toNat_offset_entry (inTable_ofNat hi), hsmall]

theorem place_inj (hi : i < procCount) (hj : j < procCount) (h : t.place i = t.place j) : i = j := by
  have hoffset := congrArg (fun p => (p - t.tasks).toNat) h
  simp only [place_offset hi, place_offset hj] at hoffset
  omega

theorem place_ne_zero (h0 : t.tasks ≠ 0#32) (hfits : t.tasks.toNat + taskSize.toNat * procCount ≤ 4294967296)
    (hi : i < procCount) :
    t.place i ≠ 0#32 := by
  change t.tasks.toNat + 92 * 1024 ≤ 4294967296 at hfits
  change i < 1024 at hi
  have hoffset := place_offset (t := t) hi
  have hpos : 0 < t.tasks.toNat := Nat.pos_of_ne_zero (fun hz => h0 (BitVec.eq_of_toNat_eq hz))
  have hlt : t.tasks.toNat < 4294967296 := t.tasks.isLt
  intro hz
  rw [hz, BitVec.zero_sub, BitVec.toNat_neg] at hoffset
  change (4294967296 - t.tasks.toNat) % 4294967296 = 92 * i at hoffset
  rw [Nat.mod_eq_of_lt (Nat.sub_lt (by decide) hpos), Nat.sub_eq_iff_eq_add (Nat.le_of_lt hlt)] at hoffset
  omega

theorem isEntry_place (hi : i < procCount) : t.IsEntry (t.place i) := isEntry_entry (inTable_ofNat hi)

theorem taskAt_returns (hi : i < procCount) : Returns true (taskAt i) s (s.table.place i) s := by
  have hform : Returns true (formEntry (BitVec.ofNat 32 i)) s.table (s.table.place i) s.table :=
    formEntry_iff.mpr ⟨⟨rfl, rfl⟩, fun _ => inTable_ofNat hi⟩
  have hzoom : Returns true (onTable (formEntry (BitVec.ofNat 32 i))) s
    (s.table.place i) { s with table := s.table } :=
    returns_zoom.mpr ⟨s.table, hform, rfl⟩
  exact hzoom

theorem setPid_returns (h : s.table.IsEntry p) : Returns true (setPid p v) s ()
    { s with table := { s.table with pid := Function.update s.table.pid p v } } :=
  returns_bind.mpr ⟨(), s, returns_check.mpr ⟨rfl, fun _ => decide_eq_true h⟩, returns_modify.mpr rfl⟩

theorem setNextFree_returns (h : s.table.IsEntry p) : Returns true (setNextFree p q) s ()
    { s with nextFree := Function.update s.nextFree p q } :=
  returns_bind.mpr ⟨(), s, returns_check.mpr ⟨rfl, fun _ => decide_eq_true h⟩, returns_modify.mpr rfl⟩

/-- The first `i` tasks are in the list, and nothing else has changed. -/
structure Listed (s₀ : TaskPool) (i : ℕ) (s : TaskPool) : Prop where
  table : s.table = { s₀.table with pid := s.table.pid }
  first : 0 < i → s.freeTasks = s₀.table.place 0
  pids : ∀ j < i, s.table.pid (s₀.table.place j) = 0#32
  links : ∀ j, j + 1 < i → s.nextFree (s₀.table.place j) = s₀.table.place (j + 1)
  pid_others : ∀ p, (∀ j < procCount, p ≠ s₀.table.place j) → s.table.pid p = s₀.table.pid p
  next_others : ∀ p, (∀ j < procCount, p ≠ s₀.table.place j) → s.nextFree p = s₀.nextFree p

namespace Listed

theorem start : Listed s₀ 0 s₀ :=
  ⟨rfl, fun h => absurd h (Nat.lt_irrefl 0), fun _ h => absurd h (Nat.not_lt_zero _), fun _ h =>
  absurd h (Nat.not_lt_zero _),
    fun _ _ => rfl, fun _ _ => rfl⟩

theorem place_eq (h : Listed s₀ i s) (j : ℕ) : s.table.place j = s₀.table.place j := by
  rw [h.table]
  rfl

theorem step (h : Listed s₀ i s) (hi : i < procCount) : ∃ s', Returns true (initTask i) s () s' ∧
    Listed s₀ (i + 1) s' := by
  have hplace := h.place_eq
  have hpids : ∀ j < i + 1, Function.update s.table.pid (s₀.table.place i) 0#32 (s₀.table.place j) = 0#32 := by
    intro j hj
    by_cases hji : j = i
    · rw [hji, Function.update_self]
    · have hne : s₀.table.place j ≠ s₀.table.place i := fun he => hji (place_inj (by omega) hi he)
      rw [Function.update_of_ne hne]
      exact h.pids j (by omega)
  have hpid_others : ∀ p, (∀ j < procCount, p ≠ s₀.table.place j) →
      Function.update s.table.pid (s₀.table.place i) 0#32 p = s₀.table.pid p := by
    intro p hp
    rw [Function.update_of_ne (hp i hi)]
    exact h.pid_others p hp
  by_cases hz : i = 0
  · subst hz
    have hfirst := setPid_returns (s := { s with freeTasks := s.table.place 0 }) (v := 0#32) (isEntry_place hi)
    refine ⟨_,
      returns_ite.mpr
      (Or.inl ⟨rfl, returns_bind.mpr ⟨_, s, taskAt_returns hi, returns_bind.mpr ⟨(), _, returns_modify.mpr rfl,
      returns_bind.mpr ⟨_, _, returns_read.mpr ⟨rfl, rfl⟩, hfirst⟩⟩⟩⟩), ?_⟩
    refine ⟨?_, fun _ => hplace 0, ?_, fun j hj => absurd hj (by omega), ?_, h.next_others⟩
    · rw [h.table]
    · simpa only [hplace] using hpids
    · simpa only [hplace] using hpid_others
  · obtain ⟨i, rfl⟩ : ∃ k, i = k + 1 := ⟨i - 1, by omega⟩
    have hpid := setPid_returns (s := s) (v := 0#32) (isEntry_place hi)
    have hlink := setNextFree_returns
      (s := { s with table := { s.table with pid := Function.update s.table.pid (s.table.place (i + 1)) 0#32 } })
      (q := s.table.place (i + 1)) (isEntry_place (show i < procCount by omega))
    refine ⟨_, returns_ite.mpr (Or.inr ⟨hz, returns_bind.mpr ⟨_, s, taskAt_returns hi, returns_bind.mpr ⟨(), _, hpid,
      returns_bind.mpr ⟨_, _, taskAt_returns (by omega), returns_bind.mpr ⟨_, _, taskAt_returns hi, hlink⟩⟩⟩⟩⟩), ?_⟩
    have hbefore : ∀ j, j + 1 < i + 1 + 1 →
        Function.update s.nextFree (s₀.table.place i) (s₀.table.place (i + 1)) (s₀.table.place j) =
          s₀.table.place (j + 1) := by
      intro j hj
      by_cases hji : j = i
      · rw [hji, Function.update_self]
      · have hne : s₀.table.place j ≠ s₀.table.place i := fun he => hji (place_inj (by omega) (by omega) he)
        rw [Function.update_of_ne hne]
        exact h.links j (by omega)
    refine ⟨?_, fun _ => h.first (Nat.succ_pos i), ?_, ?_, ?_, fun p hp => ?_⟩
    · rw [h.table]
    · simpa only [hplace] using hpids
    · exact hplace i ▸ hplace (i + 1) ▸ hbefore
    · simpa only [hplace] using hpid_others
    · change Function.update s.nextFree (s.table.place i) _ p = _
      rw [hplace, Function.update_of_ne (hp i (by omega))]
      exact h.next_others p hp

end Listed

def pointer (p : Word) : Option Word := if p = 0#32 then none else some p

theorem Listed.chain {n : ℕ} (h : Listed s₀ (n + 1) s) (hn : n < procCount) (h0 : s₀.table.tasks ≠ 0#32)
    (hfits : s₀.table.tasks.toNat + taskSize.toNat * procCount ≤ 4294967296) :
    Chain (fun p => pointer (Function.update s.nextFree (s₀.table.place n) 0#32 p)) (pointer s.freeTasks)
      ((List.range (n + 1)).map s₀.table.place) := by
  have hptr : ∀ i < procCount, pointer (s₀.table.place i) = some (s₀.table.place i) :=
    fun i hi => if_neg (place_ne_zero h0 hfits hi)
  rw [h.first (Nat.succ_pos n), hptr 0 (by omega)]
  apply Chain.of_linked
  · intro i hi
    have hne : s₀.table.place i ≠ s₀.table.place n := fun he => by
      have hsame := place_inj (by omega) hn he
      omega
    rw [Function.update_of_ne hne, h.links i (by omega)]
    exact hptr (i + 1) (by omega)
  · rw [Function.update_self]
    exact if_pos rfl

theorem initProcs_lists (h0 : s.table.tasks ≠ 0#32) (hfits : s.table.tasks.toNat + taskSize.toNat * procCount ≤
    4294967296) :
    ∃ s', Returns true initProcs s () s' ∧
      Chain (fun p => pointer (s'.nextFree p)) (pointer s'.freeTasks) ((List.range procCount).map s.table.place) ∧
      (∀ j < procCount, s'.table.pid (s.table.place j) = 0#32) ∧ s'.table = { s.table with pid := s'.table.pid } ∧
      ∀ p, (∀ j < procCount, p ≠ s.table.place j) → s'.table.pid p = s.table.pid p ∧
      s'.nextFree p = s.nextFree p := by
  obtain ⟨s₁, hloop, hlisted⟩ : ∃ s₁, Returns true (Prog.forUp initTask 0 procCount) s () s₁ ∧
    Listed s (0 + procCount) s₁ :=
    forUp_returns (fun i s' _ hi h => h.step (Nat.zero_add procCount ▸ hi)) Listed.start
  rw [Nat.zero_add] at hlisted
  obtain ⟨n, hn⟩ : ∃ n, procCount = n + 1 := ⟨1023, rfl⟩
  have hlast : n < procCount := by omega
  have hend := setNextFree_returns (s := s₁) (q := 0#32) (isEntry_place hlast)
  have htask : Returns true (taskAt (procCount - 1)) s₁ (s₁.table.place n) s₁ := by
    rw [hn]
    exact taskAt_returns hlast
  refine ⟨_, returns_bind.mpr ⟨(), s₁, hloop, returns_bind.mpr ⟨_, s₁, htask, hend⟩⟩, ?_, hlisted.pids,
    hlisted.table,
    fun p hp => ⟨hlisted.pid_others p hp, ?_⟩⟩
  · have hchain := (hn ▸ hlisted).chain hlast h0 hfits
    rw [hn, hlisted.place_eq]
    exact hchain
  · change Function.update s₁.nextFree (s₁.table.place n) 0#32 p = _
    rw [hlisted.place_eq, Function.update_of_ne (hp n hlast)]
    exact hlisted.next_others p hp

theorem initProcs_lists_small : ∃ s', Returns true initProcs ⟨smallTable, 0#32, fun _ => 0#32⟩ () s' ∧
    ∀ j < procCount, s'.table.pid (smallTable.place j) = 0#32 := by
  obtain ⟨s', hr, _, hpids, _⟩ := initProcs_lists (s := ⟨smallTable, 0#32, fun _ => 0#32⟩)
    (by decide) smallTable_placed.fits
  exact ⟨s', hr, hpids⟩

end Cezos
