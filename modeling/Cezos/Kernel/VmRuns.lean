import Cezos.Kernel.AllocRuns
import Cezos.Kernel.Rewalk
import Cezos.Kernel.SelfMap
import Cezos.Kernel.Tasks
import Cezos.Lib.Tally
import Cezos.Lib.Trace

namespace Cezos

open Lib

/-- A call of the allocator or on the address space of a task, with what it is asked for and the page that it hands
out. -/
inductive VmCall
  | pageAlloc (ps : ℕ)
  | freePage (ps : ℕ)
  | procInitVm (task : ℕ)
  | insertPage (task ps : ℕ) (va perms : Word)
  | removePage (task : ℕ) (va : Word)

inductive VmStep (st : Bool) : TaskSession → VmCall → TaskSession → Prop
  | pageAlloc {x : TaskSession} {s' : KState} (flags : Word) (ps : ℕ) (hr : Returns st (pageAlloc flags) x.s ps s') :
      VmStep st x (.pageAlloc ps) ⟨⟨s', insert ps x.given⟩, x.started⟩
  | freePage {x : TaskSession} {s' : KState} (ps : ℕ) (ho : x.Owns x.dirs ps)
    (hr : Returns st (freePage ps) x.s () s') :
      VmStep st x (.freePage ps) ⟨⟨s', x.given⟩, x.started⟩
  | procInitVm {x : TaskSession} {s' : KState} (task : ℕ) (hn : task ∉ x.started)
      (hr : Returns st (procInitVm task) x.s () s') :
      VmStep st x (.procInitVm task) ⟨⟨s', x.given⟩, insert task x.started⟩
  | insertPage {x : TaskSession} {s' : KState} (task ps : ℕ) (va perms : Word) (r : Int) (ht : task ∈ x.started)
      (ho : x.Owns x.dirs ps) (hv : va < uTop) (hp : perms.toNat < 4096)
      (hr : Returns st (insertPage (x.s.taskPgdir task) ps va perms) x.s r s') :
      VmStep st x (.insertPage task ps va perms) ⟨⟨s', x.given⟩, x.started⟩
  | removePage {x : TaskSession} {s' : KState} (task : ℕ) (va : Word) (ht : task ∈ x.started) (hv : va < uTop)
      (hp : isPagePresent (x.s.pdeAt (x.s.taskPgdir task) va) = true)
      (hr : Returns st (removePage (x.s.taskPgdir task) va) x.s () s') :
      VmStep st x (.removePage task va) ⟨⟨s', x.given⟩, x.started⟩

variable {st : Bool} {s s₀ s₁ s' : KState} {x y : TaskSession} {pool given : Finset ℕ} {L L' : List ℕ} {c : VmCall}
  {cs : List VmCall} {d q task kf gone : ℕ} {m₀ : ℕ → ℕ → Word} {actor : Option ℕ} {va : Word}

/-- The pages of `pool` were free when the memory was `m₀`; all other memory is as it was then, and so is the half of
the kernel in every directory of a task. -/
structure VmInv (m₀ : ℕ → ℕ → Word) (kf gone : ℕ) (x : TaskSession) (pool : Finset ℕ) (L : List ℕ) : Prop
    extends TaskInv x pool L where
  window : KernWindow x.s kf gone pool
  outside : ∀ f, f ∉ pool → x.s.mem f = m₀ f
  dirs_pool : ∀ task ∈ x.started, x.dir task ∈ pool
  rights : ∀ task ∈ x.started, ∀ i ∈ lowDir, OpenEntry (x.s.mem (x.dir task) i)
  cover : ∀ q ∈ pool, q ∈ L ∨ x.s.IsTable x.dirs q ∨ q ∈ x.dirs ∨ q ∈ x.given
  half : ∀ task ∈ x.started, ∀ i, i ∉ lowDir → i ≠ pdx uVirtualPageTable → x.s.mem (x.dir task) i = m₀ kf i
  self : ∀ task ∈ x.started, SelfMapped x.s.mem (x.dir task)
  dir_refs : ∀ task ∈ x.started, (x.s.pages (x.dir task)).refs = 1#32

def taskFrame (s : KState) (kf ps : ℕ) (i : ℕ) : Word :=
  if i = pdx uVirtualPageTable then paddr (s.kva ps) ||| pteP ||| pteW else s.mem kf i

theorem taskFrame_self (hk : kernFrame (s.kva q) = q) (m : ℕ → ℕ → Word) :
    SelfMapped (Radix.setFrame m q (taskFrame s kf q)) q := by
  have hself := selfMapped_task (pgoff_kva s q) s.mem
  rw [hk] at hself
  have hp := hself.present
  have hf := hself.frame
  rw [Radix.setWord_same] at hp hf
  constructor <;> rw [Radix.setFrame_same, taskFrame, if_pos rfl]
  · exact hp
  · exact hf

namespace VmInv

theorem kernDir_eq (h : VmInv m₀ kf gone x pool L) : x.kernDir = kf := h.window.kern

theorem pool_lt (h : VmInv m₀ kf gone x pool L) : ∀ q ∈ pool, q < 65535 := fun q hq => (h.window.pages q hq).2.2.1

theorem not_pool (h : VmInv m₀ kf gone x pool L) {f : ℕ} (hf : f ∈ x.dirs) (hp : f ∉ pool) : f = x.kernDir := by
  rcases Finset.mem_insert.mp hf with rfl | hf
  · rfl
  · obtain ⟨task, ht, rfl⟩ := Finset.mem_image.mp hf
    exact absurd (h.dirs_pool task ht) hp

theorem mem_outside (h : VmInv m₀ kf gone x pool L) (he : Effect x.dirs pool d x.s s') (hd : d ≠ x.kernDir) {f : ℕ}
    (hf : f ∉ pool) : s'.mem f = x.s.mem f := by
  by_cases hm : f ∈ x.dirs
  · have hk := h.not_pool hm hf
    exact he.others f hm (fun he => hd (he.symm.trans hk))
  · exact he.outside f hf hm

theorem dir_eq {D : Finset ℕ} (he : Effect D pool d x.s s') (given : Finset ℕ) (task : ℕ) :
    TaskSession.dir ⟨⟨s', given⟩, x.started⟩ task = x.dir task := by
  rw [TaskSession.dir, he.tasks, TaskSession.dir]

theorem dirs_eq {D : Finset ℕ} (he : Effect D pool d x.s s') (given : Finset ℕ) :
    TaskSession.dirs ⟨⟨s', given⟩, x.started⟩ = x.dirs := by
  have hkern : TaskSession.kernDir ⟨⟨s', given⟩, x.started⟩ = x.kernDir := congrArg kernFrame he.kern
  rw [TaskSession.dirs, TaskSession.dirs, hkern, funext (dir_eq he given)]

theorem step (h : VmInv m₀ kf gone x pool L) (hi : TaskInv ⟨⟨s', given⟩, x.started⟩ pool L')
    (he : Effect x.dirs pool d x.s s') (hd : d ≠ x.kernDir)
    (hr : ∀ task ∈ x.started, x.dir task = d → ∀ i ∈ lowDir, OpenEntry (s'.mem d i))
    (hc : ∀ q, q ∈ L ∨ x.s.IsTable x.dirs q ∨ q ∈ x.given → q ∈ L' ∨ s'.IsTable x.dirs q ∨ q ∈ given)
    (hn : ∀ f ∈ x.dirs, (s'.pages f).refs = (x.s.pages f).refs) :
    VmInv m₀ kf gone ⟨⟨s', given⟩, x.started⟩ pool L' := by
  have hdir := dir_eq he given
  have hdirs := dirs_eq he given
  have hout : ∀ f, f ∉ pool → s'.mem f = x.s.mem f := fun f hf => h.mem_outside he hd hf
  refine ⟨hi, h.window.congr hout he.loaded he.kern he.count he.image, fun f hf => ?_, fun t ht =>
    ?_, fun t ht i hi => ?_,
    fun q hq => ?_, fun t ht i hi hw => ?_, fun t ht => ?_, fun t ht => ?_⟩
  · rw [hout f hf, h.outside f hf]
  · rw [hdir]
    exact h.dirs_pool t ht
  · rw [hdir]
    by_cases htd : x.dir t = d
    · rw [htd]
      exact hr t ht htd i hi
    · rw [he.others _ (TaskSession.dir_mem ht) htd]
      exact h.rights t ht i hi
  · rw [hdirs]
    rcases h.cover q hq with hl | ht | hm | hg
    · have := hc q (Or.inl hl)
      tauto
    · have := hc q (Or.inr (Or.inl ht))
      tauto
    · exact Or.inr (Or.inr (Or.inl hm))
    · have := hc q (Or.inr (Or.inr hg))
      tauto
  · rw [hdir, he.high _ (TaskSession.dir_mem ht) i hi]
    exact h.half t ht i hi hw
  · have hw : pdx uVirtualPageTable ∉ lowDir := by simp [lowDir, pdx_eq, uVirtualPageTable_eq]
    have hself := h.self t ht
    rw [hdir]
    constructor <;> rw [he.high _ (TaskSession.dir_mem ht) _ hw]
    · exact hself.present
    · exact hself.frame
  · rw [hdir, hn _ (TaskSession.dir_mem ht)]
    exact h.dir_refs t ht

/-! ### The calls -/

theorem actor_none (hd : d ∉ x.dirs) : d ≠ x.kernDir := fun he => hd (he ▸ x.kernDir_mem)

theorem pageAlloc (h : VmInv m₀ kf gone x pool L) {flags : Word} {ps : ℕ}
    (hr : Returns st (Cezos.pageAlloc flags) x.s ps s') :
    ∃ L', L = ps :: L' ∧ ps ∉ L' ∧ VmInv m₀ kf gone ⟨⟨s', insert ps x.given⟩, x.started⟩ pool L' ∧
      Effect x.dirs pool ps x.s s' ∧ (∀ q, s'.IsTable x.dirs q ↔ x.s.IsTable x.dirs q) ∧ ∀ f, f ≠ ps →
        s'.mem f = x.s.mem f := by
  have hb := h.balanced
  obtain ⟨L', rfl, hn, hb', htab, _, he⟩ := pageAlloc_balanced (d := ps) hb hr
  have hps := hb.free_pool ps List.mem_cons_self
  have hd := hb.not_dir (List.mem_cons_self (a := ps))
  have hactor : Actor none x ps := TaskInv.actor_none hd
  have hi : TaskInv ⟨⟨s', insert ps x.given⟩, x.started⟩ pool L' :=
    h.toTaskInv.step hb' (Finset.insert_subset hps h.given) he hactor
  refine ⟨L', rfl, hn, h.step hi he (actor_none hd) (fun t ht htd => absurd (htd ▸ TaskSession.dir_mem ht) hd)
    ?_ ?_, he, htab, ?_⟩
  · intro q
    rw [htab, List.mem_cons, Finset.mem_insert]
    tauto
  · intro f _
    rw [(returns_pageAlloc_list hr).2.1, KState.popFree_refs]
  · intro f hf
    by_cases hz : flags &&& pageZeroFilled = pageZeroFilled
    · obtain ⟨_, rfl, _⟩ := (returns_pageAlloc_zero hz).mp hr
      rw [KState.setMem_mem, h.window.kva hps, Radix.setFrame_ne _ _ hf]
      rfl
    · obtain ⟨_, rfl⟩ := (returns_pageAlloc_plain hz).mp hr
      rfl

theorem freePage (h : VmInv m₀ kf gone x pool L) {ps : ℕ} (ho : x.Owns x.dirs ps)
    (hr : Returns st (Cezos.freePage ps) x.s () s') :
    VmInv m₀ kf gone ⟨⟨s', x.given⟩, x.started⟩ pool (ps :: L) ∧ Effect x.dirs pool ps x.s s' ∧
      s'.mem = x.s.mem := by
  have hb := h.balanced
  have hu := ho.usable hb h.given
  obtain ⟨hb', hm, he⟩ := freePage_balanced (d := ps) hb hu.pool hu.used hu.not_dir hr
  have hactor : Actor none x ps := TaskInv.actor_none hu.not_dir
  have hi : TaskInv ⟨⟨s', x.given⟩, x.started⟩ pool (ps :: L) := h.toTaskInv.step hb' h.given he hactor
  refine ⟨h.step hi he (actor_none hu.not_dir)
    (fun t ht htd => absurd (htd ▸ TaskSession.dir_mem ht) hu.not_dir) ?_ ?_, he, hm⟩
  · intro q
    rw [KState.IsTable, KState.IsTable, hm, List.mem_cons]
    tauto
  · intro f hf
    have hne : f ≠ ps := fun he => hu.not_dir (he ▸ hf)
    rw [(returns_freePage.mp hr).2.2, KState.pushFree_refs, if_neg hne]

section OnTask

variable {ps : ℕ} {perms : Word} (h : VmInv m₀ kf gone x pool L) (ht : task ∈ x.started) (hv : va < uTop)

include h ht hv

theorem insertPage (ho : x.Owns x.dirs ps) (hperm : perms.toNat < 4096) {r : Int}
    (hr : Returns st (Cezos.insertPage (x.s.taskPgdir task) ps va perms) x.s r s') : r = 0 ∧
    ∃ L', VmInv m₀ kf gone ⟨⟨s', x.given⟩, x.started⟩ pool L' ∧ Effect x.dirs pool (x.dir task) x.s s' ∧
      Changes x.s s' x.dirs L L' (x.dir task) (fun q => (dirWalk x.s.mem (x.dir task) va).map Entry.frame = some q ∧
        q ≠ ps ∧ (x.s.pages q).refs = 1#32) ∧
      Rewalks (x.dir task) va (insertedEntry (dirWalk x.s.mem (x.dir task) va) ps perms) x.s.mem s'.mem := by
  have hb := h.balanced
  have hd := TaskSession.dir_mem ht
  have hu := ho.usable hb h.given
  have ha := h.aligned task ht
  obtain ⟨L₁, hb', _, he⟩ := insertPage_balanced hb hd ha hv hu hperm hr
  obtain ⟨hr0, L', hc, hw⟩ := insertPage_changes hb h.pool_lt hd hv ha hu hperm (h.rights task ht) hr
  obtain rfl : L₁ = L' := Chain.unique hb'.chain hc.list
  have hactor := h.toTaskInv.actor_dir ht
  refine ⟨hr0, L₁, h.step (h.toTaskInv.step hb' h.given he hactor) he hactor.1
    (fun _ _ _ => hc.rights (h.rights task ht)) ?_ hc.refs,
    he, hc, hw⟩
  intro q hq
  have := (hc.fate q).mpr
  tauto

theorem removePage (hr : Returns st (Cezos.removePage (x.s.taskPgdir task) va) x.s () s') :
    ∃ L', VmInv m₀ kf gone ⟨⟨s', x.given⟩, x.started⟩ pool L' ∧ Effect x.dirs pool (x.dir task) x.s s' ∧
      Changes x.s s' x.dirs L L' (x.dir task) (fun q => (dirWalk x.s.mem (x.dir task) va).map Entry.frame = some q ∧
        (x.s.pages q).refs = 1#32) ∧ Rewalks (x.dir task) va none x.s.mem s'.mem := by
  have hb := h.balanced
  have hd := TaskSession.dir_mem ht
  have ha := h.aligned task ht
  obtain ⟨L₁, hdone⟩ := removePage_balanced hb hd ha hv hr
  obtain ⟨L', hc, hw⟩ := removePage_changes hb h.pool_lt hd hv ha hr
  obtain rfl : L₁ = L' := Chain.unique hdone.balanced.chain hc.list
  have hactor := h.toTaskInv.actor_dir ht
  refine ⟨L₁, h.step (h.toTaskInv.step hdone.balanced h.given hdone.effect hactor) hdone.effect hactor.1
    (fun _ _ _ => hc.rights (h.rights task ht)) ?_ hc.refs, hdone.effect, hc, hw⟩
  intro q hq
  have := (hc.fate q).mpr
  tauto

end OnTask

section Start

variable {ps : ℕ}

theorem dir_started (hk : kernFrame (x.s.kva ps) = ps) (hn : task ∉ x.started) (hd : ps ∉ x.dirs) {t : ℕ}
    (ht : t ∈ insert task x.started) (given started : Finset ℕ) :
    (t = task ∧ TaskSession.dir ⟨⟨x.s.taskDir task ps, given⟩, started⟩ t = ps) ∨
      (t ∈ x.started ∧ TaskSession.dir ⟨⟨x.s.taskDir task ps, given⟩, started⟩ t = x.dir t ∧ x.dir t ≠ ps) := by
  rcases Finset.mem_insert.mp ht with rfl | ht
  · left
    have hpgdir : (x.s.taskDir t ps).taskPgdir t = x.s.kva ps := Function.update_self ..
    exact ⟨rfl, by rw [TaskSession.dir, hpgdir, hk]⟩
  · right
    have hpgdir : (x.s.taskDir task ps).taskPgdir t = x.s.taskPgdir t :=
      Function.update_of_ne (fun he : t = task => hn (he ▸ ht)) ..
    exact ⟨ht, by rw [TaskSession.dir, hpgdir, TaskSession.dir], fun he => hd (he ▸ TaskSession.dir_mem ht)⟩

theorem dirs_started (hk : kernFrame (x.s.kva ps) = ps) (hn : task ∉ x.started) (hd : ps ∉ x.dirs)
    (given : Finset ℕ) :
    TaskSession.dirs ⟨⟨x.s.taskDir task ps, given⟩, insert task x.started⟩ = insert ps x.dirs := by
  have hkern : TaskSession.kernDir ⟨⟨x.s.taskDir task ps, given⟩, insert task x.started⟩ = x.kernDir := rfl
  have hnew : TaskSession.dir ⟨⟨x.s.taskDir task ps, given⟩, insert task x.started⟩ task = ps := by
    rcases dir_started hk hn hd (Finset.mem_insert_self _ _) given (insert task x.started) with ⟨_, he⟩ | ⟨ht, _⟩
    · exact he
    · exact absurd ht hn
  have hold : x.started.image (TaskSession.dir ⟨⟨x.s.taskDir task ps, given⟩, insert task x.started⟩) =
    x.started.image x.dir := by
    refine Finset.image_congr (fun t ht => ?_)
    have hpgdir : (x.s.taskDir task ps).taskPgdir t = x.s.taskPgdir t :=
      Function.update_of_ne (fun he : t = task => hn (he ▸ ht)) ..
    rw [TaskSession.dir, hpgdir, TaskSession.dir]
  rw [TaskSession.dirs, TaskSession.dirs, hkern]
  simp only [Finset.image_insert]
  rw [hnew, hold, Finset.insert_comm]

end Start

theorem procInitVm (h : VmInv m₀ kf gone x pool L) (hn : task ∉ x.started)
    (hr : Returns st (Cezos.procInitVm task) x.s () s') :
    ∃ ps L', L = ps :: L' ∧ VmInv m₀ kf gone ⟨⟨s', x.given⟩, insert task x.started⟩ pool L' ∧
      s' = x.s.taskDir task ps ∧ ps ∉ x.dirs ∧ ps ∉ L' ∧ kernFrame (x.s.kva ps) = ps ∧
      s'.mem = Radix.setFrame x.s.mem ps (taskFrame x.s kf ps) := by
  have hb := h.balanced
  obtain ⟨L₁, hi, _⟩ := h.toTaskInv.start hn hr
  obtain ⟨ps, hl, _, rfl, _⟩ := Cezos.returns_procInitVm.mp hr
  have hchain := hb.chain
  rw [KState.FreeList, hl] at hchain
  obtain ⟨L', rfl, _⟩ := Chain.some_iff.mp hchain
  obtain rfl : L₁ = L' := Chain.unique hi.balanced.chain (KState.FreeList.taskDir hb.chain)
  have hps := hb.free_pool ps List.mem_cons_self
  have hd := hb.not_dir (List.mem_cons_self (a := ps))
  have hk := h.window.kva hps
  have hkern : kernFrame x.s.kernPageDirectory = kf := h.kernDir_eq
  have hkne : kf ≠ ps := fun he => h.window.dir.1 (he ▸ hps)
  have hmem : (x.s.taskDir task ps).mem = Radix.setFrame x.s.mem ps (taskFrame x.s kf ps) := by
    rw [KState.taskDir_mem task hk (hkern ▸ hkne), hkern]
    rfl
  have hlow : ∀ i ∈ lowDir, i ≠ pdx uVirtualPageTable := by
    rintro i hi rfl
    simp [lowDir, pdx_eq, uVirtualPageTable_eq] at hi
  refine ⟨ps, L₁, rfl, ⟨hi, h.window.taskDir hps task, fun f hf => ?_, fun t ht => ?_, fun t ht i hi' =>
    ?_, fun q hq => ?_,
    fun t ht i hi' hw => ?_, fun t ht => ?_, fun t ht =>
      ?_⟩, rfl, hd, (List.nodup_cons.mp (Chain.nodup hb.chain)).1, hk, hmem⟩
  · have hne : f ≠ ps := fun he => hf (he ▸ hps)
    rw [hmem, Radix.setFrame_ne _ _ hne, h.outside f hf]
  · rcases dir_started hk hn hd ht x.given (insert task x.started) with ⟨_, he⟩ | ⟨hs, he, _⟩ <;> rw [he]
    · exact hps
    · exact h.dirs_pool t hs
  · rcases dir_started hk hn hd ht x.given (insert task x.started) with ⟨_, he⟩ | ⟨hs, he, hne⟩ <;> rw [he, hmem]
    · intro hp
      have hempty := h.window.empty i hi'
      rw [Radix.setFrame_same, taskFrame, if_neg (hlow i hi'), hempty] at hp
      cases hp
    · rw [Radix.setFrame_ne _ _ hne]
      exact h.rights t hs i hi'
  · rw [dirs_started hk hn hd]
    rcases h.cover q hq with hl | ⟨f, hf, i, hi', hc⟩ | hm | hg
    · rcases List.mem_cons.mp hl with rfl | hl
      · simp
      · exact Or.inl hl
    · have hne : f ≠ ps := fun he => hd (he ▸ hf)
      refine Or.inr (Or.inl ⟨f, Finset.mem_insert_of_mem hf, i, hi', ?_⟩)
      rw [hmem, Radix.child_setFrame_of_ne hne, hc]
    · exact Or.inr (Or.inr (Or.inl (Finset.mem_insert_of_mem hm)))
    · exact Or.inr (Or.inr (Or.inr hg))
  · rcases dir_started hk hn hd ht x.given (insert task x.started) with ⟨_, he⟩ | ⟨hs, he, hne⟩ <;> rw [he, hmem]
    · rw [Radix.setFrame_same, taskFrame, if_neg hw, h.outside kf h.window.dir.1]
    · rw [Radix.setFrame_ne _ _ hne]
      exact h.half t hs i hi' hw
  · rcases dir_started hk hn hd ht x.given (insert task x.started) with ⟨_, he⟩ | ⟨hs, he, hne⟩ <;> rw [he, hmem]
    · exact taskFrame_self hk _
    · have hself := h.self t hs
      constructor <;> rw [Radix.setFrame_ne _ _ hne]
      · exact hself.present
      · exact hself.frame
  · rcases dir_started hk hn hd ht x.given (insert task x.started) with ⟨_, he⟩ | ⟨hs, he, hne⟩ <;>
      rw [he, KState.taskDir_refs]
    · rw [if_pos rfl, hb.refs_free List.mem_cons_self rfl]
      rfl
    · rw [if_neg hne]
      exact h.dir_refs t hs

theorem call (h : VmInv m₀ kf gone x pool L) (hc : VmStep st x c y) : ∃ L', VmInv m₀ kf gone y pool L' := by
  cases hc with
  | pageAlloc flags ps hr =>
    obtain ⟨L', _, _, h', _⟩ := h.pageAlloc hr
    exact ⟨L', h'⟩
  | freePage ps ho hr => exact ⟨_, (h.freePage ho hr).1⟩
  | procInitVm task hn hr =>
    obtain ⟨_, L', _, h', _⟩ := h.procInitVm hn hr
    exact ⟨L', h'⟩
  | insertPage task ps va perms r ht ho hv hp hr =>
    obtain ⟨_, L', h', _⟩ := h.insertPage ht hv ho hp hr
    exact ⟨L', h'⟩
  | removePage task va ht hv hp hr =>
    obtain ⟨L', h', _⟩ := h.removePage ht hv hr
    exact ⟨L', h'⟩

theorem run (hrun : Trace (VmStep st) x cs y) (h : VmInv m₀ kf gone x pool L) :
    ∃ L', VmInv m₀ kf gone y pool L' := by
  refine hrun.invariant (I := fun x => ∃ L, VmInv m₀ kf gone x pool L) ?_ ⟨L, h⟩
  rintro x c y _ ⟨L, h⟩ hc
  exact h.call hc

end VmInv

/-! ### What the tasks see -/

def userPages : Finset ℕ := Finset.range 977920

theorem pgnum_mem_userPages : pgnum va ∈ userPages ↔ va < uTop := by
  rw [userPages, Finset.mem_range, lt_uTop_iff, pdx_of_pgnum]
  omega

theorem userPages_lt {v : ℕ} (hv : v ∈ userPages) : v < 1048576 := by
  rw [userPages, Finset.mem_range] at hv
  omega

theorem leaf_pageAddr (m : ℕ → ℕ → Word) (d : ℕ) {v : ℕ} (hv : v ∈ userPages) : pageAddr v < uTop ∧
    Radix.leaf pteTarget m d (v / 1024) (v % 1024) = (dirWalk m d (pageAddr v)).map Entry.frame := by
  have hlt : v < 1048576 := by
    rw [userPages, Finset.mem_range] at hv
    omega
  have hpg := pgnum_pageAddr hlt
  constructor
  · rw [← pgnum_mem_userPages, hpg]
    exact hv
  · rw [← leaf_eq_walk, pdx_of_pgnum, ptx_of_pgnum, hpg]

def TaskSession.seen (x : TaskSession) (q : ℕ) : ℕ :=
  tally (x.started ×ˢ userPages) (fun c => (dirWalk x.s.mem (x.dir c.1) (pageAddr c.2)).map Entry.frame) q

theorem VmInv.seen_eq (h : VmInv m₀ kf gone x pool L) (q : ℕ) : x.seen q = x.s.pteRefs x.dirs q := by
  rw [TaskSession.seen, tally, KState.pteRefs, Radix.leafRefs]
  refine Finset.card_bij (fun c _ => (x.dir c.1, c.2 / 1024, c.2 % 1024)) ?_ ?_ ?_
  · rintro ⟨task, v⟩ hc
    simp only [Finset.mem_filter, Finset.mem_product] at hc ⊢
    obtain ⟨⟨ht, hv⟩, hq⟩ := hc
    have hlt : v < 977920 := by simpa [userPages] using hv
    refine ⟨⟨TaskSession.dir_mem ht, ?_, ?_⟩, ?_⟩
    · rw [lowDir, Finset.mem_range]
      omega
    · rw [tableWords, Finset.mem_range]
      omega
    · rw [(leaf_pageAddr _ _ hv).2]
      exact hq
  · rintro ⟨t₁, v₁⟩ hc₁ ⟨t₂, v₂⟩ hc₂ he
    simp only [Finset.mem_filter, Finset.mem_product] at hc₁ hc₂
    simp only [Prod.mk.injEq] at he
    obtain rfl := h.distinct t₁ hc₁.1.1 t₂ hc₂.1.1 he.1
    obtain rfl : v₁ = v₂ := by omega
    rfl
  · rintro ⟨f, i, j⟩ hc
    simp only [Finset.mem_filter, Finset.mem_product] at hc
    obtain ⟨⟨hf, hlow, hj⟩, hq⟩ := hc
    rw [lowDir, Finset.mem_range] at hlow
    rw [tableWords, Finset.mem_range] at hj
    rcases Finset.mem_insert.mp hf with rfl | hf
    · have habs : Radix.child pteTarget x.s.mem x.kernDir i = none :=
        pteTarget_absent (h.empty i (Finset.mem_range.mpr hlow))
      rw [Radix.leaf_of_none _ _ habs] at hq
      cases hq
    · obtain ⟨task, ht, rfl⟩ := Finset.mem_image.mp hf
      have hv : i * 1024 + j ∈ userPages := by
        rw [userPages, Finset.mem_range]
        omega
      have hdiv : (i * 1024 + j) / 1024 = i ∧ (i * 1024 + j) % 1024 = j := by omega
      refine ⟨(task, i * 1024 + j), ?_, by rw [hdiv.1, hdiv.2]⟩
      simp only [Finset.mem_filter, Finset.mem_product]
      refine ⟨⟨ht, hv⟩, ?_⟩
      rw [← (leaf_pageAddr _ _ hv).2, hdiv.1, hdiv.2]
      exact hq

/-! ### After the boot -/

end Cezos
