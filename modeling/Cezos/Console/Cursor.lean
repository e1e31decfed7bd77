import Cezos.Console.Streams

namespace Cezos

open Lib

variable {s s' : Console} {c : CInt} {depth k : ℕ} {w : BitVec 16} {cs : List CInt} {st : Bool}

def monochromePort : CInt := 0x3B4#32
def cgaPort : CInt := 0x3D4#32

/-- The two places where video memory may be are `cga` and `mono`; `readBack` is what `*cp` reads after the test
value is written. -/
def initCga (cga mono : ℕ → Byte) (readBack : BitVec 16) : Con Unit := do
  let base := cga 1 ++ cga 0
  let video := if readBack ≠ 0xCE70#16 then mono else putCell (putCell cga 0 0xCE70#16) 0 base
  let port := if readBack ≠ 0xCE70#16 then monochromePort else cgaPort
  Prog.modify (fun s => { s with port := port })
  outb port 14#8
  let hi ← inb (port + 1#32)
  outb port 15#8
  let lo ← inb (port + 1#32)
  Prog.modify (fun s => (s.setVideo video).setPos (hi ++ lo))

theorem setCell_inside (h : Returns true (setCell k w) s () s') : k < crtSize := by
  obtain ⟨_, _, hcheck, _⟩ := returns_bind.mp h
  exact of_decide_eq_true ((returns_check.mp hcheck).2 rfl)

theorem consolePutc_cga (h : Returns st (consolePutc depth c) s () s') :
    ∃ s₁, s₁.screen = s.screen ∧ Returns st (cgaPutc depth c) s₁ () s' := by
  obtain ⟨_, s₁, hserial, h⟩ := returns_bind.mp h
  obtain ⟨_, s₂, hlpt, h⟩ := returns_bind.mp h
  exact ⟨s₂, (keeps_lptPutc.returns hlpt).trans (keeps_serialPutc.returns hserial), h⟩

theorem cgaPutc_inside (hn : c &&& 0xFF#32 ≠ chr '\n') (hr : c &&& 0xFF#32 ≠ chr '\r')
    (h : Returns true (cgaPutc depth c) s () s') : Recovers s.cPos.toNat c := by
  have hsize : crtSize = 2000 := rfl
  induction depth generalizing c s s' with
  | zero => exact absurd h returns_spin
  | succ depth ih =>
    obtain ⟨_, s₁, hswitch, _⟩ := returns_bind.mp h
    obtain ⟨pos, s₂, hread, hswitch⟩ := returns_bind.mp hswitch
    obtain ⟨rfl, rfl⟩ := returns_read.mp hread
    rw [withAttr_low, if_neg hn, if_neg hr] at hswitch
    rcases returns_ite.mp hswitch with ⟨hb, hback⟩ | ⟨_, hswitch⟩
    · rcases returns_ite.mp hback with ⟨hpos, hback⟩ | ⟨hpos, _⟩
      · obtain ⟨_, s₃, _, hset⟩ := returns_bind.mp hback
        have hcell := setCell_inside hset
        have hsub : (s₂.cPos - 1#16).toNat = s₂.cPos.toNat - 1 := by bv_omega
        rw [hsub] at hcell
        rcases Nat.lt_or_ge s₂.cPos.toNat crtSize with hlt | hge
        · exact Or.inl hlt
        · exact Or.inr (Or.inr ⟨hb, by omega⟩)
      · have hzero : ¬ 0 < s₂.cPos.toNat := hpos
        exact Or.inl (by omega)
    · rcases returns_ite.mp hswitch with ⟨_, htab⟩ | ⟨_, hwrite⟩
      · obtain ⟨_, s₃, hblank, _⟩ := returns_bind.mp htab
        obtain ⟨s₄, hscreen, hcga⟩ := consolePutc_cga hblank
        have hsame : s₄.cPos.toNat = s₂.cPos.toNat := congrArg Screen.pos hscreen
        have hin := (ih (by decide) (by decide) hcga).inside (by decide) (by decide)
        exact Or.inl (by omega)
      · obtain ⟨_, _, hset, _⟩ := returns_bind.mp hwrite
        exact Or.inl (setCell_inside hset)

/-- The call writes to the screen only, leaves the cursor on it, and the cursor has not wrapped around. -/
def Stays (depth : ℕ) (s : Console) (c : CInt) (s' : Console) : Prop :=
  Returns true (cputchar depth c) s () s' ∧ s'.cPos.toNat < crtSize ∧ s'.cPos.toNat = (putOn c s.screen).pos

theorem recovers_withAttr {p : ℕ} : Recovers p (withAttr c) ↔ Recovers p c := by
  rw [Recovers, Recovers, withAttr_low]

theorem putOn_newline {t : Screen (BitVec 16)} (hc : c &&& 0xFF#32 = chr '\n') :
    putOn c t = scrolled (t.newline crtCols) := by
  rw [putOn, cgaMove, withAttr_low, hc, if_neg (by decide), if_neg (by decide), if_pos rfl]

theorem putOn_carriage {t : Screen (BitVec 16)} (hc : c &&& 0xFF#32 = chr '\r') :
    putOn c t = scrolled (t.carriage crtCols) := by
  rw [putOn, cgaMove, withAttr_low, hc, if_neg (by decide), if_neg (by decide), if_neg (by decide), if_pos rfl]

theorem scrolled_pos_le {t : Screen (BitVec 16)} : t.pos ≤ (scrolled t).pos + crtCols := by
  unfold scrolled Screen.scroll
  split
  · exact Nat.le_add_right _ _
  · exact Nat.le_add_of_sub_le (Nat.le_refl _)

theorem stays_iff (hd : 2 ≤ depth) : (∃ s', Stays depth s c s') ↔ Recovers s.cPos.toNat c := by
  have hsize : crtSize = 2000 := rfl
  have hcols : crtCols = 80 := rfl
  constructor
  · rintro ⟨s', hput, hlt, hpos⟩
    obtain ⟨s₁, hscreen, hcga⟩ := consolePutc_cga hput
    have hsame : s₁.cPos.toNat = s.cPos.toNat := congrArg Screen.pos hscreen
    by_cases hn : c &&& 0xFF#32 = chr '\n'
    · have hle : (s.cPos.toNat / crtCols + 1) * crtCols ≤ (putOn c s.screen).pos + crtCols := by
        rw [putOn_newline hn]
        exact @scrolled_pos_le (s.screen.newline crtCols)
      rw [hcols] at hle
      exact Or.inl (by omega)
    · by_cases hr : c &&& 0xFF#32 = chr '\r'
      · have hle : s.cPos.toNat / crtCols * crtCols ≤ (putOn c s.screen).pos + crtCols := by
          rw [putOn_carriage hr]
          exact @scrolled_pos_le (s.screen.carriage crtCols)
        rw [hcols] at hle
        exact Or.inr (Or.inl ⟨hr, by omega⟩)
      · rw [← hsame]
        exact cgaPutc_inside hn hr hcga
  · intro h
    by_cases ht : c &&& 0xFF#32 = chr '\t'
    · have hin := h.inside (by rw [ht]; decide) (by rw [ht]; decide)
      obtain ⟨s', hput, hscreen, hlt⟩ := cputchar_acts (c := c) hd s hin
      exact ⟨s', hput, hlt, congrArg Screen.pos hscreen⟩
    · obtain ⟨d, rfl⟩ : ∃ d, depth = d + 1 := ⟨depth - 1, by omega⟩
      obtain ⟨_, s₁, hserial, hkeep₁⟩ := @keeps_serialPutc c s
      obtain ⟨_, s₂, hlpt, hkeep₂⟩ := @keeps_lptPutc c s₁
      have hscreen : s₂.screen = s.screen := hkeep₂.trans hkeep₁
      have hsame : s₂.cPos.toNat = s.cPos.toNat := congrArg Screen.pos hscreen
      obtain ⟨s₃, hcga, hmove, hlt⟩ := @cgaPutc_returns s₂ c d (by rwa [recovers_withAttr, hsame])
        (by rwa [withAttr_low])
      have hput : s₃.screen = putOn c s.screen := by rw [hmove, hscreen, putOn, withAttr_low, if_neg ht]
      exact ⟨s₃, returns_bind.mpr ⟨_, s₁, hserial, returns_bind.mpr ⟨_, s₂, hlpt, hcga⟩⟩, hlt,
        congrArg Screen.pos hput⟩

theorem stays_forever (hd : 2 ≤ depth) (cs : List CInt) (hs : s.cPos.toNat < crtSize) :
    ∃ s', Trace (Stays depth) s cs s' := by
  induction cs generalizing s with
  | nil => exact ⟨s, .nil s⟩
  | cons c cs ih =>
    obtain ⟨s₁, hone⟩ := (stays_iff (c := c) hd).mpr (Or.inl hs)
    obtain ⟨s₂, hrest⟩ := ih hone.2.1
    exact ⟨s₂, .cons hone hrest⟩

theorem trace_stays_iff (hd : 2 ≤ depth) : (∃ s', Trace (Stays depth) s cs s') ↔
    ∀ c ∈ cs.head?, Recovers s.cPos.toNat c := by
  cases cs with
  | nil => exact iff_of_true ⟨s, .nil s⟩ nofun
  | cons c cs =>
    constructor
    · rintro ⟨s', hrun⟩ d hd'
      obtain rfl := Option.some.inj hd'
      obtain ⟨s₁, hone, _⟩ := Trace.cons_iff.mp hrun
      exact (stays_iff hd).mp ⟨s₁, hone⟩
    · intro h
      obtain ⟨s₁, hone⟩ := (stays_iff hd).mpr (h c rfl)
      obtain ⟨s₂, hrest⟩ := stays_forever hd cs hone.2.1
      exact ⟨s₂, .cons hone hrest⟩

theorem initCga_returns (cga mono : ℕ → Byte) (readBack : BitVec 16) (s : Console) :
    ∃ s' port, Returns true (initCga cga mono readBack) s () s' ∧ (port = monochromePort ∨ port = cgaPort) ∧
    s'.port = port ∧
      s'.cPos = s.device (s.clock + 1) ((port + 1#32).setWidth 16) ++
        s.device (s.clock + 3) ((port + 1#32).setWidth 16) := by
  refine ⟨_, if readBack ≠ 0xCE70#16 then monochromePort else cgaPort, .of_eval rfl, ?_, rfl, rfl⟩
  split
  · exact Or.inl rfl
  · exact Or.inr rfl

theorem cputchar_cursor_iff {cga mono : ℕ → Byte} {readBack : BitVec 16} (hd : 2 ≤ depth)
    (h : Returns false (initCga cga mono readBack) s () s') :
    (∃ port, (port = monochromePort ∨ port = cgaPort) ∧ s'.port = port ∧
      s'.cPos = s.device (s.clock + 1) ((port + 1#32).setWidth 16) ++
        s.device (s.clock + 3) ((port + 1#32).setWidth 16)) ∧
    ((∃ s₁, Trace (Stays depth) s' cs s₁) ↔ ∀ c ∈ cs.head?, Recovers s'.cPos.toNat c) := by
  obtain ⟨s₁, port, hr, hport, hs, hpos⟩ := initCga_returns cga mono readBack s
  obtain ⟨_, rfl⟩ := h.unique hr
  exact ⟨⟨port, hport, hs, hpos⟩, trace_stays_iff hd⟩

def blankConsole : Console := { fullConsole with device := fun _ _ => 0#8 }

theorem cputchar_cursor_blank :
    ∃ s' s₁, Returns true (initCga (fun _ => 0#8) (fun _ => 0#8) 0#16) blankConsole () s' ∧
    Trace (Stays 2) s' [chr 'A', chr '\t', chr '\x08'] s₁ := by
  obtain ⟨s', port, hr, _, _, hpos⟩ := initCga_returns (fun _ => 0#8) (fun _ => 0#8) 0#16 blankConsole
  have hzero : s'.cPos.toNat = 0 := by
    rw [hpos]
    change (0#8 ++ 0#8 : BitVec 16).toNat = 0
    decide
  have hstart : s'.cPos.toNat < crtSize := by
    rw [hzero]
    decide
  obtain ⟨s₁, hrun⟩ : ∃ s₁, Trace (Stays 2) s' [chr 'A', chr '\t', chr '\x08'] s₁ :=
    (cputchar_cursor_iff (Nat.le_refl 2) hr.loosen).2.mpr (fun _ _ => Or.inl hstart)
  exact ⟨s', s₁, hr, hrun⟩

theorem not_cputchar_cursor :
    ¬ ∀ (depth : ℕ) (s s' : Console) (cga mono : ℕ → Byte) (readBack : BitVec 16) (cs : List CInt),
    2 ≤ depth → Returns false (initCga cga mono readBack) s () s' → ∃ s₁, Trace (Stays depth) s' cs s₁ := by
  intro h
  obtain ⟨s', port, hr, _, _, hpos⟩ := initCga_returns (fun _ => 0#8) (fun _ => 0#8) 0#16 fullConsole
  have hlast : s'.cPos.toNat = 65535 := by
    rw [hpos]
    change (0xFF#8 ++ 0xFF#8 : BitVec 16).toNat = 65535
    decide
  have hrecovers := (trace_stays_iff (Nat.le_refl 2)).mp (h 2 _ _ _ _ _ [chr 'A'] (Nat.le_refl 2) hr.loosen)
    (chr 'A') rfl
  have hin := hrecovers.inside (by decide) (by decide)
  have hsize : crtSize = 2000 := rfl
  omega

theorem initCga_apart {cga mono : ℕ → Byte} {readBack p : BitVec 16} (hp : p = serialData ∨ p = parallelData)
    (h : Returns false (initCga cga mono readBack) s () s') : s'.Apart p := by
  obtain ⟨s₁, port, hr, hport, hs, _⟩ := initCga_returns cga mono readBack s
  obtain ⟨_, rfl⟩ := h.unique hr
  rw [Console.Apart, hs]
  rcases hport with rfl | rfl <;> rcases hp with rfl | rfl <;> decide

end Cezos
