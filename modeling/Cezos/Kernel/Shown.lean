import Cezos.Kernel.Printing
import Cezos.Kernel.Walk
import Cezos.Lib.Coupled

namespace Cezos

open Lib

variable {V : ℕ → ℕ → Prop} {crt : Crt} {s t : KState} {p : Word} {α : Type} {m m' : ℕ → ℕ → Word} {f i : ℕ}

theorem setWord_apart (h : ∀ f i, ¬ V f i → m' f i = m f i) (g j : ℕ) (w : Word) (f i : ℕ) (hv : ¬ V f i) :
    Radix.setWord m' g j w f i = Radix.setWord m g j w f i := by
  rw [Radix.setWord, Radix.setWord, h f i hv]

theorem setFrame_apart (h : ∀ f i, ¬ V f i → m' f i = m f i) (g : ℕ) (w : ℕ → Word) (f i : ℕ) (hv : ¬ V f i) :
    Radix.setFrame m' g w f i = Radix.setFrame m g w f i := by
  by_cases hf : f = g
  · subst hf
    rw [Radix.setFrame_same, Radix.setFrame_same]
  · rw [Radix.setFrame_ne _ _ hf, Radix.setFrame_ne _ _ hf, h f i hv]

theorem printed_word (s : KState) (hv : ¬ crt.screen f i) : (s.printed crt).mem f i = s.mem f i := by
  by_cases hf : f = crt.frame
  · subst hf
    rw [KState.printed_mem, Radix.setFrame_same]
    exact if_neg fun hi => hv ⟨rfl, hi⟩
  · rw [KState.printed_mem, Radix.setFrame_ne _ _ hf]

/-- The states differ in the words `V` of memory and in the translations that the processor keeps. They translate
alike: either no word differs, or the loaded directory is not in memory. -/
def Like (V : ℕ → ℕ → Prop) (s t : KState) : Prop :=
  ∃ mem tlb clock, t = { s with mem := mem, tlb := tlb, clock := clock } ∧ (∀ f i, ¬ V f i → mem f i = s.mem f i) ∧
    ((∀ f i, ¬ V f i) ∨ s.cr3 = none)

namespace Like

theorem refl (hc : s.cr3 = none) : Like V s s := ⟨s.mem, s.tlb, s.clock, rfl, fun _ _ _ => rfl, Or.inr hc⟩

theorem walk (h : Like V s t) (va : Word) : t.walk va = s.walk va := by
  obtain ⟨m, _, _, rfl, hm, hall | hc⟩ := h
  · obtain rfl : m = s.mem := funext fun f => funext fun i => hm f i (hall f i)
    rfl
  · simp only [KState.walk, hc, walkIn]

theorem reaches (h : Like V s t) (kva : Word) (write : Bool) : s.reaches kva write = t.reaches kva write := by
  rw [KState.reaches, KState.reaches, h.walk]

theorem image (h : Like V s t) (f : ℕ) : s.inKernelImage f = t.inKernelImage f := by
  obtain ⟨_, _, _, rfl, _⟩ := h
  rfl

theorem mem (h : Like V s t) (f i : ℕ) (hv : ¬ V f i) : t.mem f i = s.mem f i := by
  obtain ⟨_, _, _, rfl, hm, _⟩ := h
  exact hm f i hv

theorem word (h : Like V s t) (hv : ¬ V f i) : s.mem f i = t.mem f i := (h.mem f i hv).symm

theorem setMem (h : Like V s t) (hm : ∀ f i, ¬ V f i → m' f i = m f i) :
    Like V (s.setMem m) (t.setMem m') := by
  obtain ⟨_, _, _, rfl, _, hs⟩ := h
  exact ⟨m', _, _, rfl, hm, hs⟩

theorem setWord (h : Like V s t) (f i : ℕ) (w : Word) : Like V (s.setWord f i w) (t.setWord f i w) :=
  h.setMem (setWord_apart h.mem f i w)

theorem setFrame (h : Like V s t) (f : ℕ) (g : ℕ → Word) : Like V (s.setFrame f g) (t.setFrame f g) :=
  h.setMem (setFrame_apart h.mem f g)

theorem printed (h : Like crt.screen s t) : Like crt.screen s (t.printed crt) := by
  obtain ⟨m, tl, c, rfl, hm, hs⟩ := h
  exact ⟨_, _, _, rfl, fun f i hv => (printed_word _ hv).trans (hm f i hv), hs⟩

end Like

/-- The states differ on the screen and in the translations that the processor keeps. -/
def Overprinted (crt : Crt) (s t : KState) : Prop :=
  ∃ mem tlb clock, t = { s with mem := mem, tlb := tlb, clock := clock } ∧
    ∀ f i, ¬ crt.screen f i → mem f i = s.mem f i

namespace Overprinted

theorem trans {u : KState} (h : Overprinted crt s t) (h' : Overprinted crt t u) : Overprinted crt s u := by
  obtain ⟨_, _, _, rfl, hm⟩ := h
  obtain ⟨_, _, _, rfl, hm'⟩ := h'
  exact ⟨_, _, _, rfl, fun f i hv => (hm' f i hv).trans (hm f i hv)⟩

theorem printed (s : KState) (crt : Crt) : Overprinted crt s (s.printed crt) :=
  ⟨_, _, _, rfl, fun _ _ hv => printed_word s hv⟩

end Overprinted

namespace Shown

theorem cprintf : Aside (Like crt.screen) (Printed.cprintf crt) :=
  fun _ t h => ⟨t.printed crt, returns_modify.mpr rfl, h.printed⟩

theorem read {f : KState → α} (h : ∀ s mem tlb clock, f { s with mem := mem, tlb := tlb, clock := clock } = f s) :
    Coupled (Like V) (Prog.read f) (Prog.read f) := by
  apply Coupled.read
  rintro s _ ⟨m, tl, c, rfl, _⟩
  exact (h s m tl c).symm

/-- A step that leaves memory and the translations alone. -/
theorem modify {f : KState → KState} (h : ∀ s mem tlb clock, f { s with mem := mem, tlb := tlb, clock := clock } =
    { f s with mem := mem, tlb := tlb, clock := clock }) (hm : ∀ s, (f s).mem = s.mem)
    (hc : ∀ s, (f s).cr3 = s.cr3) :
    Coupled (Like V) (Prog.modify f) (Prog.modify f) := by
  apply Coupled.modify
  rintro s _ ⟨m, tl, c, rfl, hw, hs⟩
  exact ⟨m, tl, c, h s m tl c, by rwa [hm], by rwa [hc]⟩

theorem load (hp : ¬ V (kernFrame p) (kernIndex p)) : Coupled (Like V) (load p) (load p) :=
  .bind (.check fun _ _ h => h.reaches p false) fun _ => .read fun _ _ h => h.word hp

theorem store (p w : Word) : Coupled (Like V) (store p w) (store p w) :=
  .bind (.check fun _ _ h => h.reaches p true) fun _ => .modify fun _ _ h => h.setWord _ _ w

theorem memset (p w : Word) : Coupled (Like V) (memset p w) (memset p w) :=
  .bind (.check fun _ _ h => h.reaches p true) fun _ => .modify fun _ _ h => h.setFrame _ _

theorem memsetPage (p w : Word) : Coupled (Like V) (memsetPage p w) (memsetPage p w) :=
  .bind (.check fun _ _ h => by rw [h.image]) fun _ => memset p w

theorem invalidateTlb (va : Word) : Coupled (Like V) (invalidateTlb va) (invalidateTlb va) := by
  apply Coupled.modify
  rintro s _ ⟨m, tl, c, rfl, hw, hs⟩
  exact ⟨m, _, _, rfl, hw, hs⟩

theorem kaddr (pa : Word) : Coupled (Like V) (kaddr pa) (kaddr pa) := read fun _ _ _ _ => rfl

theorem pa2page (pa : Word) : Coupled (Like V) (pa2page pa) (pa2page pa) := read fun _ _ _ _ => rfl

theorem page2kva (ps : ℕ) : Coupled (Like V) (page2kva ps) (page2kva ps) := kaddr _

theorem incRefs (ps : ℕ) : Coupled (Like V) (incRefs ps) (incRefs ps) :=
  modify (fun _ _ _ _ => rfl) (fun _ => rfl) (fun _ => rfl)

theorem setNextFree (ps : ℕ) (next : Option ℕ) :
    Coupled (Like V) (Prog.modify (·.setNextFree ps next)) (Prog.modify (·.setNextFree ps next)) :=
  modify (fun _ _ _ _ => rfl) (fun _ => rfl) (fun _ => rfl)

theorem setFreeList (head : Option ℕ) :
    Coupled (Like V) (Prog.modify (·.setFreeList head)) (Prog.modify (·.setFreeList head)) :=
  modify (fun _ _ _ _ => rfl) (fun _ => rfl) (fun _ => rfl)

theorem markUsed (i : ℕ) : Coupled (Like V) (markUsed i) (markUsed i) :=
  modify (fun _ _ _ _ => rfl) (fun _ => rfl) (fun _ => rfl)

theorem pushFree (i : ℕ) : Coupled (Like V) (pushFree i) (pushFree i) :=
  modify (fun _ _ _ _ => rfl) (fun _ => rfl) (fun _ => rfl)

theorem loadUser {va : Word} (h : ∀ s t : KState, Like V s t → ∀ e, s.walk va = some e →
    ¬ V e.frame (pgoff va / 4)) : Coupled (Like V) (loadUser va) (loadUser va) := by
  constructor
  · intro st s t a s' hR hr
    obtain ⟨e, he, rfl, rfl⟩ := returns_loadUser.mp hr
    exact ⟨t, returns_loadUser.mpr ⟨e, (hR.walk va).trans he, hR.word (h _ _ hR e he), rfl⟩, hR⟩
  · intro st t s a t' hR hr
    obtain ⟨e, he, rfl, rfl⟩ := returns_loadUser.mp hr
    have hes := (hR.walk va).symm.trans he
    exact ⟨s, returns_loadUser.mpr ⟨e, hes, (hR.word (h _ _ hR e hes)).symm, rfl⟩, hR⟩

theorem nextFreeOf (h0 : ¬ V 0 0) : ∀ ps, Coupled (Like V) (nextFreeOf ps) (nextFreeOf ps)
  | none => by
    refine .bind (.check fun _ _ _ => rfl) fun _ => .bind (loadUser ?_) fun _ => read fun _ _ _ _ => rfl
    rintro s _ ⟨_, _, _, rfl, _, hall | hc⟩ e he
    · exact hall _ _
    · rw [KState.walk, hc, walkIn] at he
      have h : entryWalk 0#32 = some ⟨0, false, false⟩ := by decide
      obtain rfl := Option.some.inj (h.symm.trans he)
      exact h0
  | some _ => read fun _ _ _ _ => rfl

theorem pageAlloc (h0 : ¬ V 0 0) (flags : Word) : Coupled (Like V) (pageAlloc flags) (pageAlloc flags) := by
  refine .bind (.bind (read fun _ _ _ _ => rfl) fun head => .bind (nextFreeOf h0 head) fun next =>
    .bind (setFreeList next) fun _ => ?_) fun ps => .ite ?_ (.pure ps)
  · cases head with
    | none => exact .errorLoop _
    | some ps => exact .bind (setNextFree ps none) fun _ => .pure ps
  · exact .bind (page2kva ps) fun va => .bind (memsetPage va 0#32) fun _ => .pure ps

end Shown

end Cezos
