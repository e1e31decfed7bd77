import Mathlib.Algebra.Order.Group.Nat
import Mathlib.Logic.Function.Basic
import Mathlib.Tactic.Common

namespace Cezos.Lib

/-- Cells in rows of equal width, and a cursor among them. -/
@[ext] structure Screen (β : Type) where
  cells : ℕ → β
  pos : ℕ

namespace Screen

variable {β : Type} {w h t n : ℕ} {blank v : β} {shown : ℕ → β} {g s : Screen β}

def write (s : Screen β) (v : β) : Screen β := ⟨Function.update s.cells s.pos v, s.pos + 1⟩

def erase (s : Screen β) (v : β) : Screen β :=
  if 0 < s.pos then ⟨Function.update s.cells (s.pos - 1) v, s.pos - 1⟩ else s

def newline (w : ℕ) (s : Screen β) : Screen β := ⟨s.cells, (s.pos / w + 1) * w⟩

def carriage (w : ℕ) (s : Screen β) : Screen β := ⟨s.cells, s.pos / w * w⟩

def scroll (w h : ℕ) (blank : β) (s : Screen β) : Screen β :=
  if s.pos < w * h then s
  else ⟨fun k => if k + w < w * h then s.cells (k + w) else if k < w * h then blank else s.cells k, s.pos - w⟩

/-- The first row of the grid that is still on the screen, with the cursor at `p`. -/
def top (w h p : ℕ) : ℕ := p / w - (h - 1)

structure ShowsAt (w h : ℕ) (blank : β) (t : ℕ) (g s : Screen β) : Prop where
  cursor : g.pos = s.pos + w * t
  shown : ∀ k < w * h, s.cells k = g.cells (k + w * t)
  rest : ∀ k, w * (t + h) ≤ k → g.cells k = blank

structure Shows (w h : ℕ) (blank : β) (g s : Screen β) : Prop where
  rows : ShowsAt w h blank (top w h g.pos) g s
  inside : s.pos < w * h

namespace ShowsAt

theorem row (hs : ShowsAt w h blank t g s) (hw : 0 < w) : g.pos / w = s.pos / w + t := by
  rw [hs.cursor, Nat.add_mul_div_left _ _ hw]

theorem write (hs : ShowsAt w h blank t g s) (hlt : s.pos < w * h) :
    ShowsAt w h blank t (g.write v) (s.write v) where
  cursor := by
    change g.pos + 1 = s.pos + 1 + w * t
    have := hs.cursor
    omega
  shown k hk := by
    change Function.update s.cells s.pos v k = Function.update g.cells g.pos v (k + w * t)
    have hc := hs.cursor
    by_cases he : k = s.pos
    · rw [he, ← hc, Function.update_self, Function.update_self]
    · rw [Function.update_of_ne he, Function.update_of_ne (by omega), hs.shown k hk]
  rest k hk := by
    change Function.update g.cells g.pos v k = blank
    have hc := hs.cursor
    have hm := Nat.mul_add w t h
    rw [Function.update_of_ne (by omega), hs.rest k hk]

theorem newline (hs : ShowsAt w h blank t g s) (hw : 0 < w) : ShowsAt w h blank t (g.newline w) (s.newline w) where
  cursor := by
    change (g.pos / w + 1) * w = (s.pos / w + 1) * w + w * t
    rw [hs.row hw, Nat.mul_comm w t, ← Nat.add_mul]
    congr 1
    omega
  shown := hs.shown
  rest := hs.rest

theorem carriage (hs : ShowsAt w h blank t g s) (hw : 0 < w) :
    ShowsAt w h blank t (g.carriage w) (s.carriage w) where
  cursor := by
    change g.pos / w * w = s.pos / w * w + w * t
    rw [hs.row hw, Nat.mul_comm w t, ← Nat.add_mul]
  shown := hs.shown
  rest := hs.rest

theorem scroll (hs : ShowsAt w h blank t g s) (hw : 0 < w) (hh : 0 < h) (hlt : s.pos / w ≤ h)
    (hrow : t = 0 ∨ h ≤ s.pos / w + 1) : Shows w h blank g (s.scroll w h blank) := by
  have hg := hs.row hw
  have hcur := hs.cursor
  have hin : s.pos < w * h ↔ s.pos / w < h := by rw [Nat.div_lt_iff_lt_mul hw, Nat.mul_comm]
  rw [Screen.scroll]
  split
  · next hp =>
    have ht : top w h g.pos = t := by
      have hlast := hin.mp hp
      rw [top, hg]
      omega
    exact ⟨by rwa [ht], hp⟩
  · next hp =>
    have hlast : s.pos / w = h := by
      have hnot := mt hin.mpr hp
      omega
    have ht : top w h g.pos = t + 1 := by
      rw [top, hg]
      omega
    have hup : s.pos < w * (h + 1) := by
      rw [Nat.mul_comm, ← Nat.div_lt_iff_lt_mul hw]
      omega
    have hge : w ≤ w * h := Nat.le_mul_of_pos_right w hh
    have hm := Nat.mul_add w h 1
    have hm₁ := Nat.mul_add w t 1
    refine ⟨?_, ?_⟩
    · rw [ht]
      refine ⟨?_, fun k hk => ?_, fun k hk => hs.rest k ?_⟩
      · change g.pos = s.pos - w + w * (t + 1)
        omega
      · change (if k + w < w * h then s.cells (k + w) else if k < w * h then blank else s.cells k) = _
        rw [if_pos hk]
        split
        · next hk' =>
          rw [hs.shown _ hk']
          congr 1
          omega
        · refine (hs.rest _ ?_).symm
          rw [Nat.mul_add]
          omega
      · rw [Nat.mul_add] at hk ⊢
        omega
    · change s.pos - w < w * h
      omega

end ShowsAt

namespace Shows

theorem row_le (hs : Shows w h blank g s) (hw : 0 < w) : s.pos / w < h := by
  rw [Nat.div_lt_iff_lt_mul hw, Nat.mul_comm]
  exact hs.inside

theorem top_or_last (hs : Shows w h blank g s) (hw : 0 < w) : top w h g.pos = 0 ∨ h ≤ s.pos / w + 1 := by
  have hrow := hs.rows.row hw
  unfold top at hrow ⊢
  omega

theorem write (hs : Shows w h blank g s) (hw : 0 < w) :
    Shows w h blank (g.write v) ((s.write v).scroll w h blank) := by
  have hle := hs.row_le hw
  have hrow := hs.top_or_last hw
  have hstep : (s.write v).pos / w ≤ s.pos / w + 1 := by
    change (s.pos + 1) / w ≤ _
    calc (s.pos + 1) / w ≤ (s.pos + w) / w := Nat.div_le_div_right (by omega)
      _ = s.pos / w + 1 := Nat.add_div_right _ hw
  have hmono : s.pos / w ≤ (s.write v).pos / w := Nat.div_le_div_right (Nat.le_succ _)
  exact (hs.rows.write hs.inside).scroll hw (Nat.zero_lt_of_lt hle) (by omega) (by omega)

theorem newline (hs : Shows w h blank g s) (hw : 0 < w) :
    Shows w h blank (g.newline w) ((s.newline w).scroll w h blank) := by
  have hle := hs.row_le hw
  have hrow := hs.top_or_last hw
  have hstep : (s.newline w).pos / w = s.pos / w + 1 := Nat.mul_div_cancel _ hw
  exact (hs.rows.newline hw).scroll hw (Nat.zero_lt_of_lt hle) (by omega) (by omega)

theorem carriage (hs : Shows w h blank g s) (hw : 0 < w) :
    Shows w h blank (g.carriage w) ((s.carriage w).scroll w h blank) := by
  have hle := hs.row_le hw
  have hrow := hs.top_or_last hw
  have hstep : (s.carriage w).pos / w = s.pos / w := Nat.mul_div_cancel _ hw
  exact (hs.rows.carriage hw).scroll hw (Nat.zero_lt_of_lt hle) (by omega) (by omega)

theorem start (hp : s.pos < w * h) (hw : 0 < w) :
    Shows w h blank ⟨fun k => if k < w * h then s.cells k else blank, s.pos⟩ s := by
  have hrow : s.pos / w < h := by rwa [Nat.div_lt_iff_lt_mul hw, Nat.mul_comm]
  have ht : top w h s.pos = 0 := by
    rw [top]
    omega
  refine ⟨?_, hp⟩
  change ShowsAt w h blank (top w h s.pos) _ s
  rw [ht]
  refine ⟨by simp, fun k hk => ?_, fun k hk => ?_⟩
  · rw [Nat.mul_zero, Nat.add_zero]
    exact (if_pos hk).symm
  · rw [Nat.zero_add] at hk
    exact if_neg (by omega)

end Shows

structure Before (n : ℕ) (shown : ℕ → β) (s : Screen β) : Prop where
  le : n ≤ s.pos
  eq : ∀ j < n, s.cells (s.pos - n + j) = shown j

namespace Before

theorem zero : Before 0 shown s := ⟨Nat.zero_le _, fun j hj => absurd hj (Nat.not_lt_zero j)⟩

theorem congr {shown' : ℕ → β} (hb : Before n shown s) (h : ∀ j < n, shown' j = shown j) : Before n shown' s :=
  ⟨hb.le, fun j hj => (hb.eq j hj).trans (h j hj).symm⟩

theorem write (hb : Before n shown s) (hv : shown n = v) : Before (n + 1) shown (s.write v) where
  le := Nat.succ_le_succ hb.le
  eq j hj := by
    have hle := hb.le
    change Function.update s.cells s.pos v (s.pos + 1 - (n + 1) + j) = shown j
    rcases Nat.lt_succ_iff_lt_or_eq.mp hj with hlt | rfl
    · rw [Function.update_of_ne (by omega), Nat.add_sub_add_right]
      exact hb.eq j hlt
    · rw [show s.pos + 1 - (j + 1) + j = s.pos by omega, Function.update_self, hv]

theorem erase (hb : Before (n + 1) shown s) : Before n shown (s.erase v) := by
  have hle := hb.le
  rw [Screen.erase, if_pos (by omega)]
  refine ⟨Nat.le_sub_one_of_lt hle, fun j hj => ?_⟩
  change Function.update s.cells (s.pos - 1) v (s.pos - 1 - n + j) = shown j
  rw [Function.update_of_ne (by omega), show s.pos - 1 - n + j = s.pos - (n + 1) + j by omega]
  exact hb.eq j (by omega)

theorem scroll (hb : Before n shown s) (hp : s.pos ≤ w * h) (hn : n + w ≤ w * h) :
    Before n shown (s.scroll w h blank) := by
  have hle := hb.le
  rw [Screen.scroll]
  split
  · exact hb
  · next hend =>
    refine ⟨?_, fun j hj => ?_⟩
    · change n ≤ s.pos - w
      omega
    · change (if s.pos - w - n + j + w < w * h then s.cells (s.pos - w - n + j + w) else _) = shown j
      rw [if_pos (by omega), show s.pos - w - n + j + w = s.pos - n + j by omega]
      exact hb.eq j hj

end Before

end Screen

end Cezos.Lib
