import Cezos.Kernel.Shown
import Cezos.Kernel.SetupPages

namespace Cezos

open Lib

variable {V : ℕ → ℕ → Prop} {crt : Crt} {s t : KState} {pgdir p : Word}

theorem Crt.frame_cases (crt : Crt) : crt.frame = 184 ∨ crt.frame = 176 := crt.probed

theorem Crt.frame_lt (crt : Crt) : 0 < crt.frame ∧ crt.frame ≤ 184 := by
  have := crt.frame_cases
  omega

theorem Crt.not_screen {f i : ℕ} (h : f ≠ crt.frame) : ¬ crt.screen f i := fun hs => h hs.1

theorem Crt.not_screen_zero (crt : Crt) : ¬ crt.screen 0 0 := Crt.not_screen (by have := crt.frame_lt; omega)

theorem Crt.not_screen_entry (ha : pgoff pgdir = 0) (hd : kernFrame pgdir ≠ crt.frame) {i : ℕ} (hi : i < 1024) :
    ¬ crt.screen (kernFrame (entryPtr pgdir i)) (kernIndex (entryPtr pgdir i)) :=
  Crt.not_screen (by rwa [kernFrame_entryPtr ha hi])

/-! ### Setting up the pages -/

namespace Shown

theorem getMemorySize : Coupled (Like crt.screen) getMemorySize (Printed.getMemorySize crt) :=
  .last (cprintf.bind cprintf) (modify (fun _ _ _ _ => rfl) (fun _ => rfl) (fun _ => rfl))

theorem bootAlloc (nbytes : Word) :
    Coupled (Like crt.screen) (bootAlloc nbytes) (Printed.bootAlloc crt nbytes) := by
  refine .after cprintf (.bind (modify ?_ ?_ ?_) fun _ => .bind (read fun _ _ _ _ => rfl) fun base =>
    .ite (.pure base) (.bind (modify (fun _ _ _ _ => rfl) (fun _ => rfl) (fun _ => rfl)) fun _ =>
      .ite (.errorLoop _) (.pure base)))
  · intro s m tl c
    by_cases h : s.bootNextFree = 0#32
    · simp only [h, ↓reduceIte]
    · simp only [h, ↓reduceIte]
  · intro s
    split <;> rfl
  · intro s
    split <;> rfl

theorem createKernPgdir : Coupled (Like crt.screen) createKernPgdir (Printed.createKernPgdir crt) :=
  .bind (bootAlloc pageSize) fun pgdir => .ite (.errorLoop _) (.bind (memset pgdir 0#32) fun _ => .pure pgdir)

theorem initPages : Coupled (Like crt.screen) initPages (Printed.initPages crt) :=
  .bind (markUsed 0) fun _ => .bind (read fun _ _ _ _ => rfl) fun _ => .bind (.forUp pushFree _ _) fun _ =>
    .bind (bootAlloc 0#32) fun _ => .bind (.forUp markUsed _ _) fun _ => .bind (read fun _ _ _ _ => rfl) fun _ =>
      .forUp pushFree _ _

theorem setSlot (slot : TailSlot) (v : Option ℕ) (l : PageListLocals) :
    Coupled (Like V) (setSlot slot v l) (setSlot slot v l) := by
  cases slot with
  | ps1 => exact .pure _
  | ps2 => exact .pure _
  | nextFree ps => exact .bind (setNextFree ps v) fun _ => .pure l

theorem relinkStep (h0 : ¬ V 0 0) (limit : ℕ) (l : PageListLocals) :
    Coupled (Like V) (relinkStep limit l) (relinkStep limit l) := by
  unfold Cezos.relinkStep
  cases l.ps with
  | none => exact .pure none
  | some ps => exact .bind (setSlot _ _ l) fun _ => .bind (nextFreeOf h0 _) fun _ => .pure _

theorem poisonStep (h0 : ¬ V 0 0) (limit : ℕ) (ps : Option ℕ) :
    Coupled (Like V) (poisonStep limit ps) (poisonStep limit ps) := by
  unfold Cezos.poisonStep
  cases ps with
  | none => exact .pure none
  | some i =>
    exact .ite (.bind (page2kva i) fun va => .bind (memsetPage va _) fun _ => .bind (nextFreeOf h0 _) fun _ =>
      .pure _) (.bind (nextFreeOf h0 _) fun _ => .pure _)

theorem checkPageList : Coupled (Like crt.screen) (checkPageList true) (Printed.checkPageList crt true) := by
  have h0 := crt.not_screen_zero
  refine .last cprintf ?_
  exact .bind (read fun _ _ _ _ => rfl) fun _ => .bind (.whileSome (relinkStep h0 1) listFuel _) fun l =>
    .bind (setSlot _ _ l) fun l => .bind (setSlot _ _ l) fun l => .bind (setFreeList l.ps1) fun _ =>
      .bind (read fun _ _ _ _ => rfl) fun head => .bind (.whileSome (poisonStep h0 1) listFuel head) fun _ =>
        .pure ()

theorem setupPages : Coupled (Like crt.screen) setupPages (Printed.setupPages crt) :=
  .bind getMemorySize fun _ => .bind createKernPgdir fun _ =>
    .bind (modify (fun _ _ _ _ => rfl) (fun _ => rfl) (fun _ => rfl)) fun _ => .bind (store _ _) fun _ =>
      .before cprintf (.bind (read fun _ _ _ _ => rfl) fun _ => .bind (bootAlloc _) fun _ =>
        .bind (modify (fun _ _ _ _ => rfl) (fun _ => rfl) (fun _ => rfl)) fun _ => .bind (bootAlloc _) fun _ =>
          .bind (modify (fun _ _ _ _ => rfl) (fun _ => rfl) (fun _ => rfl)) fun _ => .bind initPages fun _ =>
            checkPageList)

/-! ### Mapping the regions -/

theorem pageAllocLine (flags : Word) :
    Coupled (Like crt.screen) (Cezos.pageAlloc flags) (Printed.pageAlloc crt flags) := by
  have hz := pageAlloc crt.not_screen_zero flags
  by_cases hf : flags &&& pageZeroFilled = pageZeroFilled
  · have hp : Printed.pageAlloc crt flags =
        Cezos.pageAlloc flags >>= fun ps => Printed.cprintf crt >>= fun _ => pure ps := by
      simp only [Printed.pageAlloc, if_pos hf]
    rw [hp]
    exact hz.after cprintf
  · have hp : Printed.pageAlloc crt flags = Cezos.pageAlloc flags := by
      simp only [Printed.pageAlloc, if_neg hf]
      exact Prog.bind_pure
    rw [hp]
    exact hz

variable (ha : pgoff pgdir = 0) (hd : kernFrame pgdir ≠ crt.frame)

include ha hd

theorem getPageTable (va : Word) (create : Bool) :
    Coupled (Like crt.screen) (getPageTable pgdir va create) (Printed.getPageTable crt pgdir va create) :=
  .bind (load (Crt.not_screen_entry ha hd (pdx_lt va))) fun _ => .ite (.errorLoop _)
    (.ite (.bind (pageAllocLine 1#32) fun ps => .bind (incRefs ps) fun _ => .bind (store _ _) fun _ =>
      .bind (kaddr _) fun _ => .pure _) (.bind (kaddr _) fun _ => .pure _))

theorem mapPage (va pa perm : Word) (i : ℕ) :
    Coupled (Like crt.screen) (mapPage pgdir va pa perm i) (Printed.mapPage crt pgdir va pa perm i) :=
  .bind (getPageTable ha hd _ true) fun _ => .ite (.errorLoop _) (store _ _)

theorem mapMemoryRegion (va size pa perm : Word) :
    Coupled (Like crt.screen) (mapMemoryRegion pgdir va size pa perm)
      (Printed.mapMemoryRegion crt pgdir va size pa perm) :=
  .forUp (mapPage ha hd va pa perm) _ _

end Shown

end Cezos
