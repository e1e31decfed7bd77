import Mathlib.Data.List.Nodup
import Mathlib.Logic.Function.Basic
import Mathlib.Tactic.Common

namespace Cezos.Lib

variable {α : Type}

/-- `Chain next h l`: following `next` from `h` visits `l` in order and then ends. -/
def Chain (next : α → Option α) : Option α → List α → Prop
  | h, [] => h = none
  | h, a :: l => h = some a ∧ Chain next (next a) l

namespace Chain

variable {next next' : α → Option α} {h : Option α} {a : α} {l l' : List α}

@[simp] theorem nil_iff : Chain next h [] ↔ h = none := Iff.rfl

@[simp] theorem cons_iff : Chain next h (a :: l) ↔ h = some a ∧ Chain next (next a) l := Iff.rfl

theorem none_iff : Chain next none l ↔ l = [] := by
  cases l <;> simp

theorem some_iff : Chain next (some a) l ↔ ∃ l', l = a :: l' ∧ Chain next (next a) l' := by
  cases l with
  | nil => simp
  | cons b l =>
    simp only [cons_iff, Option.some.injEq, List.cons.injEq]
    constructor
    · rintro ⟨rfl, h⟩
      exact ⟨l, ⟨rfl, rfl⟩, h⟩
    · rintro ⟨l', ⟨rfl, rfl⟩, h⟩
      exact ⟨rfl, h⟩

theorem unique (hl : Chain next h l) (hl' : Chain next h l') : l = l' := by
  induction l generalizing h l' with
  | nil =>
    rw [nil_iff.mp hl] at hl'
    exact (none_iff.mp hl').symm
  | cons a l ih =>
    obtain ⟨rfl, ht⟩ := cons_iff.mp hl
    obtain ⟨t, rfl, ht'⟩ := some_iff.mp hl'
    rw [ih ht ht']

theorem congr (hl : Chain next h l) (he : ∀ x ∈ l, next' x = next x) : Chain next' h l := by
  induction l generalizing h with
  | nil => exact hl
  | cons a l ih =>
    obtain ⟨rfl, ht⟩ := cons_iff.mp hl
    refine cons_iff.mpr ⟨rfl, ?_⟩
    rw [he a (by simp)]
    exact ih ht (fun x hx => he x (by simp [hx]))

theorem of_linked {f : ℕ → α} {n : ℕ} (hlink : ∀ i < n, next (f i) = some (f (i + 1))) (hend : next (f n) = none) :
    Chain next (some (f 0)) ((List.range (n + 1)).map f) := by
  induction n generalizing f with
  | zero => exact cons_iff.mpr ⟨rfl, nil_iff.mpr hend⟩
  | succ n ih =>
    have hrest := ih (f := fun i => f (i + 1)) (fun i hi => hlink (i + 1) (by omega)) hend
    rw [List.range_succ_eq_map, List.map_cons, List.map_map]
    refine cons_iff.mpr ⟨rfl, ?_⟩
    rw [hlink 0 (Nat.succ_pos n)]
    exact hrest

theorem drop_mem (hl : Chain next h l) (ha : a ∈ l) :
    ∃ l₁ l₂, l = l₁ ++ a :: l₂ ∧ Chain next (next a) l₂ := by
  induction l generalizing h with
  | nil => simp at ha
  | cons b l ih =>
    obtain ⟨rfl, ht⟩ := cons_iff.mp hl
    rcases List.mem_cons.mp ha with rfl | hm
    · exact ⟨[], l, rfl, ht⟩
    · obtain ⟨l₁, l₂, rfl, hc⟩ := ih ht hm
      exact ⟨b :: l₁, l₂, rfl, hc⟩

theorem nodup (hl : Chain next h l) : l.Nodup := by
  induction l generalizing h with
  | nil => simp
  | cons a l ih =>
    obtain ⟨rfl, ht⟩ := cons_iff.mp hl
    refine List.nodup_cons.mpr ⟨fun hm => ?_, ih ht⟩
    obtain ⟨l₁, l₂, rfl, hc⟩ := drop_mem ht hm
    have := congrArg List.length (unique hc ht)
    simp only [List.length_append, List.length_cons] at this
    omega

theorem reaches (hl : Chain next h l) (ha : a ∈ l) (he : ∀ x, x ≠ a → next' x = next x) (hl' : Chain next' h l') :
    a ∈ l' := by
  induction l generalizing h l' with
  | nil => simp at ha
  | cons b l ih =>
    obtain ⟨rfl, ht⟩ := cons_iff.mp hl
    obtain ⟨t, rfl, ht'⟩ := some_iff.mp hl'
    by_cases hb : b = a
    · simp [hb]
    · rw [he b hb] at ht'
      have hm := (List.mem_cons.mp ha).resolve_left (fun h => hb h.symm)
      exact List.mem_cons_of_mem _ (ih ht hm ht')

section Update

variable [DecidableEq α]

theorem push (hl : Chain next h l) (ha : a ∉ l) : Chain (Function.update next a h) (some a) (a :: l) := by
  refine cons_iff.mpr ⟨rfl, ?_⟩
  rw [Function.update_self]
  exact hl.congr (fun x hx => Function.update_of_ne (fun he : x = a => ha (he ▸ hx)) _ _)

theorem update_not_mem (hl : Chain next h l) (ha : a ∉ l) (b : Option α) :
    Chain (Function.update next a b) h l :=
  hl.congr (fun x hx => Function.update_of_ne (fun he : x = a => ha (he ▸ hx)) _ _)

theorem pop (hl : Chain next (some a) l) (b : Option α) :
    ∃ l', l = a :: l' ∧ a ∉ l' ∧ Chain (Function.update next a b) (next a) l' := by
  obtain ⟨l', rfl, ht⟩ := some_iff.mp hl
  have hn := (List.nodup_cons.mp hl.nodup).1
  exact ⟨l', rfl, hn, ht.update_not_mem hn b⟩

end Update

end Chain

/-- `Segment next h l r`: following `next` from `h` visits `l` in order and then stands at `r`. -/
def Segment (next : α → Option α) : Option α → List α → Option α → Prop
  | h, [], r => h = r
  | h, a :: l, r => h = some a ∧ Segment next (next a) l r

namespace Segment

variable {next next' : α → Option α} {h r v : Option α} {a z : α} {l l' : List α}

@[simp] theorem nil_iff : Segment next h [] r ↔ h = r := Iff.rfl

@[simp] theorem cons_iff : Segment next h (a :: l) r ↔ h = some a ∧ Segment next (next a) l r := Iff.rfl

theorem congr (hl : Segment next h l r) (he : ∀ x ∈ l, next' x = next x) : Segment next' h l r := by
  induction l generalizing h with
  | nil => exact hl
  | cons a l ih =>
    obtain ⟨rfl, ht⟩ := cons_iff.mp hl
    refine cons_iff.mpr ⟨rfl, ?_⟩
    rw [he a (by simp)]
    exact ih ht (fun x hx => he x (by simp [hx]))

theorem append (hl : Segment next h l v) (hl' : Chain next v l') : Chain next h (l ++ l') := by
  induction l generalizing h with
  | nil =>
    rw [nil_iff.mp hl]
    exact hl'
  | cons a l ih => exact ⟨hl.1, ih hl.2⟩

theorem chain (hl : Segment next h l none) : Chain next h l := by
  have hend : Chain next none [] := rfl
  have h' := hl.append hend
  rwa [List.append_nil] at h'

theorem snoc (hl : Segment next h l (some a)) : Segment next h (l ++ [a]) (next a) := by
  induction l generalizing h with
  | nil => exact ⟨hl, rfl⟩
  | cons b l ih => exact ⟨hl.1, ih hl.2⟩

theorem redirect [DecidableEq α] (hl : Segment next h (l ++ [z]) r) (hz : z ∉ l) (v : Option α) :
    Segment (Function.update next z v) h (l ++ [z]) v := by
  induction l generalizing h with
  | nil => exact cons_iff.mpr ⟨hl.1, nil_iff.mpr (Function.update_self z v next)⟩
  | cons b l ih =>
    have hb : b ≠ z := fun he => hz (by simp [he])
    refine cons_iff.mpr ⟨hl.1, ?_⟩
    rw [Function.update_of_ne hb]
    exact ih hl.2 (fun hm => hz (List.mem_cons_of_mem _ hm))

end Segment

end Cezos.Lib
