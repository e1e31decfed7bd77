import Cezos.Lib.Trace
import Cezos.Console.Cga

namespace Cezos

open Lib

variable {s s' : Console} {c : CInt} {depth : ℕ} {cs : List CInt} {g t : Screen (BitVec 16)}

theorem cputchars_acts (hd : 2 ≤ depth) (hs : s.cPos.toNat < crtSize) :
    (∃ s', Trace (fun s c s' => Returns true (cputchar depth c) s () s') s cs s') ∧
      ∀ s', Trace (fun s c s' => Returns false (cputchar depth c) s () s') s cs s' →
        s'.screen = cs.foldl (fun t c => putOn c t) s.screen := by
  induction cs generalizing s with
  | nil => exact ⟨⟨s, .nil s⟩, fun s' h => by rw [Trace.nil_iff.mp h, List.foldl_nil]⟩
  | cons c cs ih =>
    obtain ⟨s₁, hput, hscreen, hs₁⟩ := cputchar_acts (c := c) hd s hs
    obtain ⟨⟨s₂, hrun⟩, hall⟩ := ih hs₁
    refine ⟨⟨s₂, .cons hput hrun⟩, fun s' h => ?_⟩
    obtain ⟨s₁', hput', hrun'⟩ := Trace.cons_iff.mp h
    obtain ⟨_, rfl⟩ := hput'.unique hput
    rw [hall s' hrun', hscreen, List.foldl_cons]

def Displayed (c : CInt) : Prop :=
  (0x20 ≤ c.toNat ∧ c.toNat ≤ 0x7e) ∨ c = chr '\n' ∨ c = chr '\r' ∨ c = chr '\t'

instance : DecidablePred Displayed := fun c =>
  inferInstanceAs (Decidable ((0x20 ≤ c.toNat ∧ c.toNat ≤ 0x7e) ∨ c = chr '\n' ∨ c = chr '\r' ∨ c = chr '\t'))

def gridPut (c : CInt) (g : Screen (BitVec 16)) : Screen (BitVec 16) :=
  if c = chr '\n' then g.newline crtCols
  else if c = chr '\r' then g.carriage crtCols
  else if c = chr '\t' then (fun g => g.write 0x0720#16)^[5] g
  else g.write (0x0700#16 ||| c.setWidth 16)

def Console.grid (s : Console) : Screen (BitVec 16) :=
  ⟨fun k => if k < crtSize then s.cell k else 0x0720#16, s.cPos.toNat⟩

theorem withAttr_byte (b : Byte) : withAttr (b.setWidth 32) = 0x0700#32 ||| b.setWidth 32 ∧
    (0x0700#32 ||| b.setWidth 32 : CInt) &&& 0xFF#32 = b.setWidth 32 := by
  revert b
  decide +kernel

theorem putOn_write {b : Byte} (hlow : 0x20#8 ≤ b) :
    putOn (b.setWidth 32) t = scrolled (t.write (0x0700#16 ||| b.setWidth 16)) := by
  obtain ⟨hattr, hb⟩ := withAttr_byte b
  have hne : ∀ c : Char, c.toNat < 0x20 → b.setWidth 32 ≠ chr c := by
    intro c hc he
    have hval := congrArg BitVec.toNat he
    rw [chr, BitVec.toNat_setWidth, BitVec.toNat_ofNat] at hval
    rw [BitVec.le_def] at hlow
    have : (0x20#8).toNat = 32 := rfl
    omega
  rw [putOn, cgaMove, hattr, hb, if_neg (hne _ (by decide)), if_neg (hne _ (by decide)), if_neg (hne _ (by decide)),
    if_neg (hne _ (by decide))]
  congr 2
  ext i hi
  simp

theorem shows_write {v : BitVec 16} (h : Screen.Shows crtCols crtRows blankCell g t) :
    Screen.Shows crtCols crtRows blankCell (g.write v) (scrolled (t.write v)) := h.write (by decide)

theorem shows_writes {v : BitVec 16} (n : ℕ) (h : Screen.Shows crtCols crtRows blankCell g t) :
    Screen.Shows crtCols crtRows blankCell ((fun g => g.write v)^[n] g) ((fun t => scrolled (t.write v))^[n] t) := by
  induction n generalizing g t with
  | zero => exact h
  | succ n ih =>
    rw [Function.iterate_succ_apply, Function.iterate_succ_apply]
    exact ih (shows_write h)

theorem shows_put (hc : Displayed c) (h : Screen.Shows crtCols crtRows blankCell g t) :
    Screen.Shows crtCols crtRows blankCell (gridPut c g) (putOn c t) := by
  rcases hc with ⟨hlo, hhi⟩ | rfl | rfl | rfl
  · have hb : (c.setWidth 8).setWidth 32 = c := by
      apply BitVec.eq_of_toNat_eq
      simp only [BitVec.toNat_setWidth]
      omega
    have hcell : (0x0700#16 ||| (c.setWidth 8).setWidth 16 : BitVec 16) = 0x0700#16 ||| c.setWidth 16 := by
      congr 1
      apply BitVec.eq_of_toNat_eq
      simp only [BitVec.toNat_setWidth]
      omega
    have hput : putOn c t = scrolled (t.write (0x0700#16 ||| c.setWidth 16)) := by
      rw [← hb, putOn_write, hb, hcell]
      rw [BitVec.le_def, BitVec.toNat_setWidth]
      change 32 ≤ _
      omega
    have hne : ∀ d : CInt, d.toNat < 0x20 → c ≠ d := by
      rintro d hd rfl
      omega
    rw [hput, gridPut, if_neg (hne _ (by decide)), if_neg (hne _ (by decide)), if_neg (hne _ (by decide))]
    exact shows_write h
  · have hput : putOn (chr '\n') t = scrolled (t.newline crtCols) := rfl
    rw [hput, gridPut, if_pos rfl]
    exact h.newline (by decide)
  · have hput : putOn (chr '\r') t = scrolled (t.carriage crtCols) := rfl
    rw [hput, gridPut, if_neg (by decide), if_pos rfl]
    exact h.carriage (by decide)
  · have hput : putOn (chr '\t') t = tabbed t := if_pos (by decide)
    have hgrid : gridPut (chr '\t') g = (fun g => g.write 0x0720#16)^[5] g := by
      rw [gridPut, if_neg (by decide), if_neg (by decide), if_pos rfl]
    rw [hput, hgrid]
    exact shows_writes 5 h

theorem shows_puts (hcs : ∀ c ∈ cs, Displayed c) (h : Screen.Shows crtCols crtRows blankCell g t) :
    Screen.Shows crtCols crtRows blankCell (cs.foldl (fun g c => gridPut c g) g)
      (cs.foldl (fun t c => putOn c t) t) := by
  induction cs generalizing g t with
  | nil => exact h
  | cons c cs ih =>
    exact ih (fun d hd => hcs d (List.mem_cons_of_mem _ hd)) (shows_put (hcs c List.mem_cons_self) h)

theorem cputchar_shows_last_rows (hd : 2 ≤ depth) (hs : s.cPos.toNat < crtSize) (hcs : ∀ c ∈ cs, Displayed c) :
    (∃ s', Trace (fun s c s' => Returns true (cputchar depth c) s () s') s cs s') ∧
    ∀ s', Trace (fun s c s' => Returns false (cputchar depth c) s () s') s cs s' →
      ∀ g, g = cs.foldl (fun g c => gridPut c g) s.grid → ∀ T, T = g.pos / 80 - 24 →
        s'.cPos.toNat = g.pos - 80 * T ∧ ∀ k < crtSize, s'.cell k = g.cells (k + 80 * T) := by
  obtain ⟨hex, hall⟩ := @cputchars_acts s depth cs hd hs
  refine ⟨hex, ?_⟩
  rintro s' hrun g rfl T rfl
  have hstart : Screen.Shows crtCols crtRows blankCell s.grid s.screen := 
    @Screen.Shows.start _ crtCols crtRows blankCell s.screen hs (by decide)
  have hshows := shows_puts hcs hstart
  rw [← hall s' hrun] at hshows
  have hcursor := hshows.rows.cursor
  refine ⟨?_, hshows.rows.shown⟩
  change s'.screen.pos = _
  exact Nat.eq_sub_of_add_eq hcursor.symm

def fullConsole : Console where
  device _ _ := 0xFF#8
  clock := 0
  outs := []
  port := 0x3D4#32
  video k := if k % 2 = 0 then 0x20#8 else 0x07#8
  cPos := 1999#16
  serialExists := true
  shift := 0#32
  mem _ := none

theorem cputchar_shows_last_rows_full : ∃ s', Trace (fun s c s' => Returns true (cputchar 2 c) s () s') fullConsole
    [chr 'A', chr '\t', chr '\n'] s' ∧ s'.cPos.toNat = 1920 ∧ s'.cell 1839 = 0x0741#16 := by
  have hshown : ∀ c ∈ [chr 'A', chr '\t', chr '\n'], Displayed c := by
    intro c hc
    simp only [List.mem_cons, List.not_mem_nil, or_false] at hc
    rcases hc with rfl | rfl | rfl <;> decide
  have hinside : fullConsole.cPos.toNat < crtSize := by decide
  obtain ⟨⟨s', hrun⟩, hall⟩ := @cputchar_shows_last_rows fullConsole 2 _ (Nat.le_refl 2) hinside hshown
  obtain ⟨hpos, hcells⟩ := hall s' (hrun.mono (fun _ _ _ h => h.loosen)) _ rfl _ rfl
  exact ⟨s', hrun, hpos, hcells 1839 (by decide)⟩

end Cezos
