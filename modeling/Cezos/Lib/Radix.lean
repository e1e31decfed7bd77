import Mathlib.Data.Finset.Prod
import Mathlib.Data.Finset.Card
import Mathlib.Data.Fintype.Card
import Mathlib.Tactic.Common

/-!
Two-level radix trees laid out in frames of words. A directory is a frame whose words may point to
tables, a table is a frame whose words may point to leaves.
-/

namespace Cezos.Lib.Radix

variable {F I W : Type}

section Memory

variable [DecidableEq F]

def setWord [DecidableEq I] (m : F → I → W) (f : F) (i : I) (w : W) : F → I → W :=
  fun f' i' => if f' = f ∧ i' = i then w else m f' i'

def setFrame (m : F → I → W) (f : F) (g : I → W) : F → I → W :=
  fun f' => if f' = f then g else m f'

variable (m : F → I → W) {f f' : F} {i i' : I} (w : W) (g : I → W)

@[simp] theorem setFrame_same : setFrame m f g f = g := by simp [setFrame]

theorem setFrame_ne (h : f' ≠ f) : setFrame m f g f' = m f' := by simp [setFrame, h]

variable [DecidableEq I]

@[simp] theorem setWord_same : setWord m f i w f i = w := by simp [setWord]

theorem setWord_frame_ne (h : f' ≠ f) : setWord m f i w f' = m f' := by
  funext j
  simp [setWord, h]

theorem setWord_comm (m : F → I → W) (h : f ≠ f') {w w' : W} :
    setWord (setWord m f i w) f' i' w' = setWord (setWord m f' i' w') f i w := by
  funext a b
  by_cases ha : a = f
  · subst ha
    simp [setWord, h]
  · simp [setWord, ha]

theorem setWord_index_ne (h : i' ≠ i) : setWord m f i w f' i' = m f' i' := by simp [setWord, h]

end Memory

theorem card_filter_update {α : Type} [DecidableEq α] (s : Finset α) (p q : α → Prop) [DecidablePred p]
    [DecidablePred q] {a : α} (ha : a ∈ s) (h : ∀ x ∈ s, x ≠ a → (q x ↔ p x)) :
    (s.filter q).card + (if p a then 1 else 0) = (s.filter p).card + (if q a then 1 else 0) := by
  have split (r : α → Prop) [DecidablePred r] :
      (s.filter r).card = ((s.erase a).filter r).card + (if r a then 1 else 0) := by
    conv_lhs => rw [← Finset.insert_erase ha]
    rw [Finset.filter_insert]
    by_cases hr : r a
    · simp only [hr, if_true]
      rw [Finset.card_insert_of_notMem (by simp)]
    · simp [hr]
  have he : (s.erase a).filter q = (s.erase a).filter p := by
    apply Finset.filter_congr
    intro x hx
    exact h x (Finset.mem_of_mem_erase hx) (Finset.ne_of_mem_erase hx)
  rw [split q, split p, he]
  omega

variable (target : W → Option F) (m : F → I → W)

def child (d : F) (i : I) : Option F := target (m d i)

def leaf (d : F) (i j : I) : Option F := (child target m d i).bind (fun t => child target m t j)

theorem leaf_of_child {d t : F} {i j : I} (h : child target m d i = some t) :
    leaf target m d i j = child target m t j := by
  simp [leaf, h]

theorem leaf_of_none {d : F} {i j : I} (h : child target m d i = none) : leaf target m d i j = none := by
  simp [leaf, h]

variable (D : Finset F) (A B : Finset I)

structure Apart : Prop where
  unshared : ∀ d ∈ D, ∀ i ∈ A, ∀ d' ∈ D, ∀ i' ∈ A, ∀ t, child target m d i = some t →
    child target m d' i' = some t → d = d' ∧ i = i'
  not_dir : ∀ d ∈ D, ∀ i ∈ A, ∀ t, child target m d i = some t → t ∉ D

def IsTable (t : F) : Prop := ∃ d ∈ D, ∃ i ∈ A, child target m d i = some t

def IsLeaf (q : F) : Prop := ∃ d ∈ D, ∃ i ∈ A, ∃ j ∈ B, leaf target m d i j = some q

variable [DecidableEq F]

def tableRefs (q : F) : ℕ := ((D ×ˢ A).filter (fun x => child target m x.1 x.2 = some q)).card

def leafRefs (q : F) : ℕ :=
  ((D ×ˢ A ×ˢ B).filter (fun x => leaf target m x.1 x.2.1 x.2.2 = some q)).card

variable {target m D A B} {q t d : F} {i j : I}

theorem tableRefs_eq_zero : tableRefs target m D A q = 0 ↔ ¬ IsTable target m D A q := by
  simp only [tableRefs, Finset.card_eq_zero, Finset.filter_eq_empty_iff, Finset.mem_product,
    IsTable, Prod.forall]
  constructor
  · rintro h ⟨d, hd, i, hi, hc⟩
    exact h d i ⟨hd, hi⟩ hc
  · rintro h d i ⟨hd, hi⟩ hc
    exact h ⟨d, hd, i, hi, hc⟩

theorem leafRefs_eq_zero : leafRefs target m D A B q = 0 ↔ ¬ IsLeaf target m D A B q := by
  simp only [leafRefs, Finset.card_eq_zero, Finset.filter_eq_empty_iff, Finset.mem_product,
    IsLeaf, Prod.forall]
  constructor
  · rintro h ⟨d, hd, i, hi, j, hj, hc⟩
    exact h d i j ⟨hd, hi, hj⟩ hc
  · rintro h d i j ⟨hd, hi, hj⟩ hc
    exact h ⟨d, hd, i, hi, j, hj, hc⟩

theorem Apart.tableRefs_le_one (h : Apart target m D A) : tableRefs target m D A q ≤ 1 := by
  apply Finset.card_le_one.mpr
  rintro ⟨d, i⟩ hx ⟨d', i'⟩ hy
  simp only [Finset.mem_filter, Finset.mem_product] at hx hy
  obtain ⟨rfl, rfl⟩ := h.unshared d hx.1.1 i hx.1.2 d' hy.1.1 i' hy.1.2 q hx.2 hy.2
  rfl

theorem Apart.leafRefs_le (h : Apart target m D A) {T : Finset F}
    (hT : ∀ t, IsTable target m D A t → t ∈ T) : leafRefs target m D A B q ≤ T.card * B.card := by
  classical
  rw [← Finset.card_image_of_injective T (Option.some_injective F), ← Finset.card_product]
  apply Finset.card_le_card_of_injOn (fun x => (child target m x.1 x.2.1, x.2.2))
  · rintro ⟨d, i, j⟩ hx
    simp only [Finset.coe_filter, Finset.mem_product, Set.mem_ofPred_eq] at hx
    obtain ⟨⟨hd, hi, hj⟩, hl⟩ := hx
    cases hc : child target m d i with
    | none => simp [leaf_of_none target m hc] at hl
    | some t =>
      have ht : t ∈ T := hT t ⟨d, hd, i, hi, hc⟩
      simp [hc, ht, hj]
  · rintro ⟨d, i, j⟩ hx ⟨d', i', j'⟩ hy he
    simp only [Finset.coe_filter, Finset.mem_product, Set.mem_ofPred_eq] at hx hy
    simp only [Prod.mk.injEq] at he
    cases hc : child target m d i with
    | none => simp [leaf_of_none target m hc] at hx
    | some t =>
      obtain ⟨rfl, rfl⟩ := h.unshared d hx.1.1 i hx.1.2.1 d' hy.1.1 i' hy.1.2.1 t hc (he.1 ▸ hc)
      rw [he.2]

section Update

variable [DecidableEq I] {w : W}

theorem child_setWord_of_ne (hd : d ≠ t) : child target (setWord m t j w) d i = child target m d i := by
  rw [child, setWord_frame_ne m w hd, child]

theorem Apart.leaf_setWord (h : Apart target m D A) (hd : d ∈ D) (hi : i ∈ A)
    (hc : child target m d i = some t) {d' : F} (hd' : d' ∈ D) {i' : I} (hi' : i' ∈ A) (j' : I) :
    leaf target (setWord m t j w) d' i' j' =
      if d' = d ∧ i' = i ∧ j' = j then target w else leaf target m d' i' j' := by
  have ht : t ∉ D := h.not_dir d hd i hi t hc
  have hne : d' ≠ t := fun he => ht (he ▸ hd')
  have hcc : child target (setWord m t j w) d' i' = child target m d' i' := child_setWord_of_ne hne
  cases hc' : child target m d' i' with
  | none =>
    rw [leaf_of_none _ _ (hcc.trans hc'), leaf_of_none _ _ hc']
    split
    · next he =>
      obtain ⟨rfl, rfl, _⟩ := he
      rw [hc] at hc'
      cases hc'
    · rfl
  | some t' =>
    rw [leaf_of_child _ _ (hcc.trans hc'), leaf_of_child _ _ hc']
    by_cases htt : t' = t
    · subst htt
      obtain ⟨rfl, rfl⟩ := h.unshared d' hd' i' hi' d hd i hi t' hc' hc
      by_cases hj : j' = j
      · simp [hj, child]
      · simp [hj, child, setWord_index_ne]
    · have hdi : ¬ (d' = d ∧ i' = i ∧ j' = j) := by
        rintro ⟨rfl, rfl, _⟩
        rw [hc] at hc'
        cases hc'
        exact htt rfl
      rw [if_neg hdi, child_setWord_of_ne htt]

theorem Apart.setWord (h : Apart target m D A) (ht : t ∉ D) : Apart target (setWord m t j w) D A := by
  have hcc : ∀ d ∈ D, ∀ i, child target (Radix.setWord m t j w) d i = child target m d i :=
    fun d hd i => child_setWord_of_ne (fun he => ht (he ▸ hd))
  constructor
  · intro d hd i hi d' hd' i' hi' t' h₁ h₂
    rw [hcc d hd] at h₁
    rw [hcc d' hd'] at h₂
    exact h.unshared d hd i hi d' hd' i' hi' t' h₁ h₂
  · intro d hd i hi t' h₁
    rw [hcc d hd] at h₁
    exact h.not_dir d hd i hi t' h₁

theorem tableRefs_setWord (ht : t ∉ D) :
    tableRefs target (setWord m t j w) D A q = tableRefs target m D A q := by
  unfold tableRefs
  congr 1
  apply Finset.filter_congr
  rintro ⟨d, i⟩ hx
  have hne : d ≠ t := fun he => ht (he ▸ (Finset.mem_product.mp hx).1)
  rw [child_setWord_of_ne hne]

theorem Apart.leafRefs_setWord (h : Apart target m D A) (hd : d ∈ D) (hi : i ∈ A) (hj : j ∈ B)
    (hc : child target m d i = some t) :
    leafRefs target (Radix.setWord m t j w) D A B q + (if child target m t j = some q then 1 else 0) =
      leafRefs target m D A B q + (if target w = some q then 1 else 0) := by
  have key := card_filter_update (D ×ˢ A ×ˢ B)
    (fun x => leaf target m x.1 x.2.1 x.2.2 = some q)
    (fun x => leaf target (Radix.setWord m t j w) x.1 x.2.1 x.2.2 = some q) (a := (d, i, j))
    (by simp [hd, hi, hj])
    (by
      rintro ⟨d', i', j'⟩ hx hne
      simp only [Finset.mem_product] at hx
      rw [h.leaf_setWord hd hi hc hx.1 hx.2.1, if_neg]
      rintro ⟨rfl, rfl, rfl⟩
      exact hne rfl)
  have hnew : leaf target (Radix.setWord m t j w) d i j = target w := by
    rw [h.leaf_setWord hd hi hc hd hi, if_pos ⟨rfl, rfl, rfl⟩]
  simp only [hnew, leaf_of_child _ _ hc] at key
  exact key

end Update

section Overwrite

variable {g : I → W}

theorem child_setFrame_of_ne (hd : d ≠ t) : child target (setFrame m t g) d i = child target m d i := by
  rw [child, setFrame_ne m g hd, child]

theorem child_setFrame (hd : d ∈ D) (ht : t ∉ D) :
    child target (setFrame m t g) d i = child target m d i :=
  child_setFrame_of_ne (fun he => ht (he ▸ hd))

theorem leaf_setFrame (hd : d ∈ D) (hi : i ∈ A) (ht : t ∉ D) (hn : ¬ IsTable target m D A t) :
    leaf target (setFrame m t g) d i j = leaf target m d i j := by
  have hcc : child target (setFrame m t g) d i = child target m d i := child_setFrame hd ht
  cases hc : child target m d i with
  | none => rw [leaf_of_none _ _ (hcc.trans hc), leaf_of_none _ _ hc]
  | some t' =>
    rw [leaf_of_child _ _ (hcc.trans hc), leaf_of_child _ _ hc]
    exact child_setFrame_of_ne (fun he => hn ⟨d, hd, i, hi, he ▸ hc⟩)

theorem Apart.setFrame (h : Apart target m D A) (ht : t ∉ D) : Apart target (setFrame m t g) D A := by
  constructor
  · intro d hd i hi d' hd' i' hi' t' h₁ h₂
    rw [child_setFrame hd ht] at h₁
    rw [child_setFrame hd' ht] at h₂
    exact h.unshared d hd i hi d' hd' i' hi' t' h₁ h₂
  · intro d hd i hi t' h₁
    rw [child_setFrame hd ht] at h₁
    exact h.not_dir d hd i hi t' h₁

theorem tableRefs_setFrame (ht : t ∉ D) :
    tableRefs target (Radix.setFrame m t g) D A q = tableRefs target m D A q := by
  unfold tableRefs
  congr 1
  apply Finset.filter_congr
  rintro ⟨d, i⟩ hx
  rw [child_setFrame (Finset.mem_product.mp hx).1 ht]

theorem leafRefs_setFrame (ht : t ∉ D) (hn : ¬ IsTable target m D A t) :
    leafRefs target (Radix.setFrame m t g) D A B q = leafRefs target m D A B q := by
  unfold leafRefs
  congr 1
  apply Finset.filter_congr
  rintro ⟨d, i, j⟩ hx
  simp only [Finset.mem_product] at hx
  rw [leaf_setFrame hx.1 hx.2.1 ht hn]

end Overwrite

section Grow

variable [DecidableEq I] {w : W}

theorem child_setDir (d' : F) (i' : I) :
    child target (setWord m d i w) d' i' = if d' = d ∧ i' = i then target w else child target m d' i' := by
  by_cases h : d' = d ∧ i' = i
  · simp [child, h]
  · simp only [child, setWord, h, if_false]

structure Fresh (target : W → Option F) (m : F → I → W) (D : Finset F) (A B : Finset I)
    (d : F) (i : I) (t : F) (w : W) : Prop where
  dir : d ∈ D
  index : i ∈ A
  absent : child target m d i = none
  points : target w = some t
  not_dir : t ∉ D
  not_table : ¬ IsTable target m D A t
  empty : ∀ j ∈ B, child target m t j = none

theorem Fresh.child_eq (h : Fresh target m D A B d i t w) (d' : F) (i' : I) :
    child target (setWord m d i w) d' i' = if d' = d ∧ i' = i then some t else child target m d' i' := by
  rw [child_setDir, h.points]

theorem Fresh.leaf_eq (h : Fresh target m D A B d i t w) (ha : Apart target m D A) {d' : F} (hd' : d' ∈ D)
    {i' : I} (hi' : i' ∈ A) {j : I} (hj : j ∈ B) :
    leaf target (setWord m d i w) d' i' j = leaf target m d' i' j := by
  have hc := h.child_eq d' i'
  by_cases he : d' = d ∧ i' = i
  · rw [if_pos he] at hc
    obtain ⟨rfl, rfl⟩ := he
    have hne : t ≠ d' := fun he => h.not_dir (he ▸ h.dir)
    rw [leaf_of_child _ _ hc, leaf_of_none _ _ h.absent, child_setWord_of_ne hne, h.empty j hj]
  · rw [if_neg he] at hc
    cases hc' : child target m d' i' with
    | none => rw [leaf_of_none _ _ (hc.trans hc'), leaf_of_none _ _ hc']
    | some t' =>
      have hne : t' ≠ d := fun he => ha.not_dir d' hd' i' hi' t' hc' (he ▸ h.dir)
      rw [leaf_of_child _ _ (hc.trans hc'), leaf_of_child _ _ hc', child_setWord_of_ne hne]

theorem Fresh.apart (h : Fresh target m D A B d i t w) (ha : Apart target m D A) :
    Apart target (setWord m d i w) D A := by
  constructor
  · intro d₁ hd₁ i₁ hi₁ d₂ hd₂ i₂ hi₂ t' h₁ h₂
    rw [h.child_eq] at h₁ h₂
    split at h₁
    · next he₁ =>
      cases h₁
      split at h₂
      · next he₂ => exact ⟨he₁.1.trans he₂.1.symm, he₁.2.trans he₂.2.symm⟩
      · exact absurd ⟨d₂, hd₂, i₂, hi₂, h₂⟩ h.not_table
    · split at h₂
      · cases h₂
        exact absurd ⟨d₁, hd₁, i₁, hi₁, h₁⟩ h.not_table
      · exact ha.unshared d₁ hd₁ i₁ hi₁ d₂ hd₂ i₂ hi₂ t' h₁ h₂
  · intro d' hd' i' hi' t' h₁
    rw [h.child_eq] at h₁
    split at h₁
    · cases h₁
      exact h.not_dir
    · exact ha.not_dir d' hd' i' hi' t' h₁

theorem Fresh.tableRefs_eq (h : Fresh target m D A B d i t w) :
    tableRefs target (setWord m d i w) D A q = tableRefs target m D A q + (if t = q then 1 else 0) := by
  have key := card_filter_update (D ×ˢ A) (fun x => child target m x.1 x.2 = some q)
    (fun x => child target (setWord m d i w) x.1 x.2 = some q) (a := (d, i))
    (by simp [h.dir, h.index])
    (by
      rintro ⟨d', i'⟩ _ hne
      simp only
      rw [h.child_eq, if_neg]
      rintro ⟨rfl, rfl⟩
      exact hne rfl)
  simp only [h.child_eq, h.absent] at key
  simpa [tableRefs, h.child_eq] using key

theorem Fresh.leafRefs_eq (h : Fresh target m D A B d i t w) (ha : Apart target m D A) :
    leafRefs target (setWord m d i w) D A B q = leafRefs target m D A B q := by
  unfold leafRefs
  congr 1
  apply Finset.filter_congr
  rintro ⟨d', i', j⟩ hx
  simp only [Finset.mem_product] at hx
  rw [h.leaf_eq ha hx.1 hx.2.1 hx.2.2]

end Grow

section Insert

theorem tableRefs_insert (he : ∀ i ∈ A, child target m d i = none) :
    tableRefs target m (insert d D) A q = tableRefs target m D A q := by
  unfold tableRefs
  congr 1
  ext ⟨d', i⟩
  simp only [Finset.mem_filter, Finset.mem_product, Finset.mem_insert]
  constructor
  · rintro ⟨⟨rfl | hm, hi⟩, hc⟩
    · rw [he i hi] at hc
      cases hc
    · exact ⟨⟨hm, hi⟩, hc⟩
  · rintro ⟨⟨hm, hi⟩, hc⟩
    exact ⟨⟨Or.inr hm, hi⟩, hc⟩

theorem leafRefs_insert (he : ∀ i ∈ A, child target m d i = none) :
    leafRefs target m (insert d D) A B q = leafRefs target m D A B q := by
  unfold leafRefs
  congr 1
  ext ⟨d', i, j⟩
  simp only [Finset.mem_filter, Finset.mem_product, Finset.mem_insert]
  constructor
  · rintro ⟨⟨rfl | hm, hi, hj⟩, hc⟩
    · rw [leaf_of_none _ _ (he i hi)] at hc
      cases hc
    · exact ⟨⟨hm, hi, hj⟩, hc⟩
  · rintro ⟨⟨hm, hi, hj⟩, hc⟩
    exact ⟨⟨Or.inr hm, hi, hj⟩, hc⟩

end Insert

end Cezos.Lib.Radix
