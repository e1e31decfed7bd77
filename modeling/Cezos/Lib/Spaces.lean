import Cezos.Lib.Tally

/-!
Address spaces over a common stock of pages. A page is held from the moment it is handed out until its holder gives
it
back, or until the last place that shows it is emptied.
-/

namespace Cezos.Lib

structure Spaces (T V E Q : Type) where
  started : Finset T
  shows : T → V → Option E
  held : Finset Q

namespace Spaces

variable {T V E Q : Type} {w : Spaces T V E Q} {t t' : T} {v v' : V} {e : Option E} {q : Q} {page : E → Q}
    {places : Finset V}

def empty : Spaces T V E Q := ⟨∅, fun _ _ => none, ∅⟩

section Uses

variable [DecidableEq Q]

def uses (page : E → Q) (places : Finset V) (started : Finset T) (shows : T → V → Option E) (q : Q) : ℕ :=
  tally (started ×ˢ places) (fun c => (shows c.1 c.2).map page) q

def Backed (page : E → Q) (places : Finset V) (w : Spaces T V E Q) : Prop :=
  ∀ q, uses page places w.started w.shows q ≠ 0 → q ∈ w.held

namespace Backed

theorem empty : Backed page places (Spaces.empty : Spaces T V E Q) := by
  intro q hq
  simp [Spaces.empty, uses, tally] at hq

theorem hold (h : Backed page places w) {held : Finset Q} (hs : w.held ⊆ held) :
    Backed page places { w with held := held } :=
  fun q hq => hs (h q hq)

end Backed

end Uses

section Start

variable [DecidableEq T]

def start (w : Spaces T V E Q) (t : T) : Spaces T V E Q :=
  { w with started := insert t w.started, shows := Function.update w.shows t (fun _ => none) }

theorem start_same (w : Spaces T V E Q) (t : T) (v : V) : (w.start t).shows t v = none := by
  simp [start]

theorem start_ne (w : Spaces T V E Q) (h : t' ≠ t) : (w.start t).shows t' = w.shows t' := by
  simp [start, h]

variable [DecidableEq Q] [DecidableEq V]

theorem uses_start (hn : t ∉ w.started) (q : Q) :
    uses page places (w.start t).started (w.start t).shows q = uses page places w.started w.shows q := by
  have hset : (w.start t).started ×ˢ places = w.started ×ˢ places ∪ {t} ×ˢ places := by
    rw [start, Finset.insert_eq, Finset.union_product, Finset.union_comm]
  rw [uses, uses, hset, tally_union]
  · apply tally_congr
    rintro ⟨t', v'⟩ hc
    have hne : t' ≠ t := fun he => hn (he ▸ (Finset.mem_product.mp hc).1)
    simp only [start_ne w hne]
  · rintro ⟨t', v'⟩ hc
    obtain rfl := Finset.mem_singleton.mp (Finset.mem_product.mp hc).1
    simp only [start_same, Option.map_none]

theorem Backed.start (h : Backed page places w) (hn : t ∉ w.started) : Backed page places (w.start t) := by
  intro q hq
  rw [uses_start hn] at hq
  exact h q hq

end Start

section Put

variable [DecidableEq T] [DecidableEq V]

def put (w : Spaces T V E Q) (t : T) (v : V) (e : Option E) : T → V → Option E :=
  Function.update w.shows t (Function.update (w.shows t) v e)

theorem put_same (w : Spaces T V E Q) (t : T) (v : V) (e : Option E) : w.put t v e t v = e := by
  rw [put, Function.update_self, Function.update_self]

theorem put_place_ne (w : Spaces T V E Q) (t : T) (e : Option E) (h : v' ≠ v) : w.put t v e t v' = w.shows t v' := by
  rw [put, Function.update_self, Function.update_of_ne h]

theorem put_task_ne (w : Spaces T V E Q) (v : V) (e : Option E) (h : t' ≠ t) : w.put t v e t' = w.shows t' := by
  rw [put, Function.update_of_ne h]

variable [DecidableEq Q]

/-- The space `t` shows `e` at `v`; what it showed there before is given back when no place shows it any more. -/
def set (page : E → Q) (places : Finset V) (w : Spaces T V E Q) (t : T) (v : V) (e : Option E) : Spaces T V E Q where
  started := w.started
  shows := w.put t v e
  held := match (w.shows t v).map page with
    | none => w.held
    | some q => if uses page places w.started (w.put t v e) q = 0 then w.held.erase q else w.held

theorem uses_put (page : E → Q) (ht : t ∈ w.started) (hv : v ∈ places) (e : Option E) (q : Q) :
    uses page places w.started (w.put t v e) q + (if (w.shows t v).map page = some q then 1 else 0) =
      uses page places w.started w.shows q + (if e.map page = some q then 1 else 0) := by
  have hcell : (t, v) ∈ w.started ×ˢ places := Finset.mem_product.mpr ⟨ht, hv⟩
  have hother : ∀ c ∈ w.started ×ˢ places, c ≠ (t, v) →
    (w.put t v e c.1 c.2).map page = (w.shows c.1 c.2).map page := by
    rintro ⟨t', v'⟩ _ hne
    by_cases ht' : t' = t
    · subst ht'
      have hv' : v' ≠ v := fun he => hne (by rw [he])
      simp only [put_place_ne w t' e hv']
    · simp only [put_task_ne w v e ht']
  have h := tally_write (q := q) hcell hother
  simpa only [uses, put_same] using h

theorem mem_set_held : q ∈ (w.set page places t v e).held ↔
    q ∈ w.held ∧ ((w.shows t v).map page = some q → uses page places w.started (w.put t v e) q ≠ 0) := by
  cases hp : (w.shows t v).map page with
  | none => simp [set, hp]
  | some p =>
    simp only [set, hp, Option.some.injEq]
    split
    · next h0 =>
      rw [Finset.mem_erase]
      constructor
      · rintro ⟨hne, hq⟩
        exact ⟨hq, fun he => absurd he.symm hne⟩
      · rintro ⟨hq, hu⟩
        exact ⟨fun he => hu he.symm (he ▸ h0), hq⟩
    · next h0 =>
      constructor
      · exact fun hq => ⟨hq, fun he => he ▸ h0⟩
      · exact And.left

theorem Backed.set (h : Backed page places w) (ht : t ∈ w.started) (hv : v ∈ places)
    (he : ∀ q, e.map page = some q → q ∈ w.held) : Backed page places (w.set page places t v e) := by
  intro q hq
  have hq : uses page places w.started (w.put t v e) q ≠ 0 := hq
  apply mem_set_held.mpr
  refine ⟨?_, fun _ => hq⟩
  by_cases hn : e.map page = some q
  · exact he q hn
  · apply h q
    have hcount := uses_put page ht hv e q
    rw [if_neg hn] at hcount
    omega

end Put

end Spaces

end Cezos.Lib
