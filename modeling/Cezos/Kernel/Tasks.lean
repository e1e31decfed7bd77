import Cezos.Kernel.Window

namespace Cezos

open Lib

structure TaskSession extends Session where
  started : Finset ℕ

namespace TaskSession

def dir (x : TaskSession) (task : ℕ) : ℕ := kernFrame (x.s.taskPgdir task)

def kernDir (x : TaskSession) : ℕ := kernFrame x.s.kernPageDirectory

def dirs (x : TaskSession) : Finset ℕ := insert x.kernDir (x.started.image x.dir)

theorem kernDir_mem (x : TaskSession) : x.kernDir ∈ x.dirs := Finset.mem_insert_self _ _

theorem dir_mem {x : TaskSession} {task : ℕ} (h : task ∈ x.started) : x.dir task ∈ x.dirs :=
  Finset.mem_insert_of_mem (Finset.mem_image_of_mem _ h)

end TaskSession

/-- One call that returns, with permissions below `limit`; `actor` is the task on whose directory it works. -/
inductive TaskCall (st : Bool) (limit : ℕ) : Option ℕ → TaskSession → TaskSession → Prop
  | pageAlloc {x : TaskSession} {s' : KState} (flags : Word) (ps : ℕ) (hr : Returns st (pageAlloc flags) x.s ps s') :
      TaskCall st limit none x ⟨⟨s', insert ps x.given⟩, x.started⟩
  | freePage {x : TaskSession} {s' : KState} (ps : ℕ) (ho : x.Owns x.dirs ps)
    (hr : Returns st (freePage ps) x.s () s') :
      TaskCall st limit none x ⟨⟨s', x.given⟩, x.started⟩
  | procInitVm {x : TaskSession} {s' : KState} (task : ℕ) (hn : task ∉ x.started)
      (hr : Returns st (procInitVm task) x.s () s') :
      TaskCall st limit (some task) x ⟨⟨s', x.given⟩, insert task x.started⟩
  | insertPage {x : TaskSession} {s' : KState} (task ps : ℕ) (va perms : Word) (r : Int) (ht : task ∈ x.started)
      (ho : x.Owns x.dirs ps) (hv : va < uTop) (hp : perms.toNat < limit)
      (hr : Returns st (insertPage (x.s.taskPgdir task) ps va perms) x.s r s') :
      TaskCall st limit (some task) x ⟨⟨s', x.given⟩, x.started⟩
  | removePage {x : TaskSession} {s' : KState} (task : ℕ) (va : Word) (ht : task ∈ x.started) (hv : va < uTop)
      (hp : isPagePresent (x.s.pdeAt (x.s.taskPgdir task) va) = true)
      (hr : Returns st (removePage (x.s.taskPgdir task) va) x.s () s') :
      TaskCall st limit (some task) x ⟨⟨s', x.given⟩, x.started⟩

/-- The kernel's directory and those of the other tasks translate every address below `U_TOP` as before. -/
def Isolated (actor : Option ℕ) (x y : TaskSession) : Prop :=
  ∀ va < uTop, dirWalk y.s.mem y.kernDir va = dirWalk x.s.mem x.kernDir va ∧
    ∀ task ∈ x.started, some task ≠ actor → dirWalk y.s.mem (y.dir task) va = dirWalk x.s.mem (x.dir task) va

structure TaskInv (x : TaskSession) (pool : Finset ℕ) (L : List ℕ) : Prop where
  balanced : Balanced x.s x.dirs pool L
  given : x.given ⊆ pool
  empty : ∀ i ∈ lowDir, isPagePresent (x.s.mem x.kernDir i) = false
  aligned : ∀ task ∈ x.started, pgoff (x.s.taskPgdir task) = 0
  own : ∀ task ∈ x.started, x.dir task ≠ x.kernDir
  distinct : ∀ task ∈ x.started, ∀ task' ∈ x.started, x.dir task = x.dir task' → task = task'

def Actor (actor : Option ℕ) (x : TaskSession) (d : ℕ) : Prop :=
  d ≠ x.kernDir ∧ ∀ task ∈ x.started, some task ≠ actor → d ≠ x.dir task

variable {st : Bool} {s s₀ s₁ : KState} {actor : Option ℕ} {x y : TaskSession} {pool : Finset ℕ} {L : List ℕ}
    {d task : ℕ}

namespace TaskInv

theorem actor_dir (h : TaskInv x pool L) (ht : task ∈ x.started) : Actor (some task) x (x.dir task) :=
  ⟨h.own task ht, fun task' ht' hne he => hne (congrArg some (h.distinct task' ht' task ht he.symm))⟩

theorem actor_none (hd : d ∉ x.dirs) : Actor actor x d :=
  ⟨fun he => hd (he ▸ x.kernDir_mem), fun _ ht _ he => hd (he ▸ TaskSession.dir_mem ht)⟩

theorem step {s' : KState} {given : Finset ℕ} {L' : List ℕ} (h : TaskInv x pool L) (hb : Balanced s' x.dirs pool L')
    (hg : given ⊆ pool) (he : Effect x.dirs pool d x.s s') (ha : Actor actor x d) :
    TaskInv ⟨⟨s', given⟩, x.started⟩ pool L' := by
  have hdir : TaskSession.dir ⟨⟨s', given⟩, x.started⟩ = x.dir := by
    funext t
    rw [TaskSession.dir, TaskSession.dir, he.tasks]
  have hkern : TaskSession.kernDir ⟨⟨s', given⟩, x.started⟩ = x.kernDir := congrArg kernFrame he.kern
  have hdirs : TaskSession.dirs ⟨⟨s', given⟩, x.started⟩ = x.dirs := by
    rw [TaskSession.dirs, TaskSession.dirs, hkern, hdir]
  refine ⟨by rw [hdirs]; exact hb, hg, fun i hi => ?_, fun t ht => ?_, fun t ht => ?_, fun t ht t' ht' => ?_⟩
  · rw [hkern, he.others _ x.kernDir_mem (Ne.symm ha.1)]
    exact h.empty i hi
  · rw [he.tasks]
    exact h.aligned t ht
  · rw [hdir, hkern]
    exact h.own t ht
  · rw [hdir]
    exact h.distinct t ht t' ht'

theorem isolated {s' t : KState} {given started : Finset ℕ} (he : Effect x.dirs pool d x.s t) (ha : Actor actor x d)
    (hm : s'.mem = t.mem) (hk : s'.kernPageDirectory = t.kernPageDirectory)
    (ht : ∀ task ∈ x.started, s'.taskPgdir task = t.taskPgdir task) :
    Isolated actor x ⟨⟨s', given⟩, started⟩ := by
  intro va hv
  constructor
  · rw [TaskSession.kernDir, hm, hk, he.kern]
    exact he.dirWalk_eq x.kernDir_mem (Ne.symm ha.1) hv
  · intro task htask hne
    rw [TaskSession.dir, hm, ht task htask, he.tasks]
    exact he.dirWalk_eq (TaskSession.dir_mem htask) (Ne.symm (ha.2 task htask hne)) hv

theorem step_isolated {s' : KState} {given : Finset ℕ} {L' : List ℕ} (h : TaskInv x pool L)
    (hb : Balanced s' x.dirs pool L') (hg : given ⊆ pool) (he : Effect x.dirs pool d x.s s') (ha : Actor actor x d) :
    TaskInv ⟨⟨s', given⟩, x.started⟩ pool L' ∧ Isolated actor x ⟨⟨s', given⟩, x.started⟩ :=
  ⟨h.step hb hg he ha, isolated he ha rfl rfl (fun _ _ => rfl)⟩

theorem start (h : TaskInv x pool L) {s' : KState} (hn : task ∉ x.started)
    (hr : Returns st (procInitVm task) x.s () s') :
    ∃ L', TaskInv ⟨⟨s', x.given⟩, insert task x.started⟩ pool L' ∧
      Isolated (some task) x ⟨⟨s', x.given⟩, insert task x.started⟩ := by
  obtain ⟨ps, L', rfl, hframe, hb, he, htasks⟩ := procInitVm_balanced h.balanced x.kernDir_mem h.empty hr
  have hps : ps ∉ x.dirs := h.balanced.not_dir List.mem_cons_self
  have ha : Actor (some task) x ps := actor_none hps
  set y : TaskSession := ⟨⟨s', x.given⟩, insert task x.started⟩ with hy
  have hold : ∀ t ∈ x.started, s'.taskPgdir t = x.s.taskPgdir t := by
    intro t ht
    rw [htasks, Function.update_of_ne (fun he : t = task => hn (he ▸ ht))]
  have hnew : y.dir task = ps := by
    rw [TaskSession.dir, htasks, Function.update_self, hframe]
  have hdir : ∀ t ∈ x.started, y.dir t = x.dir t := fun t ht => congrArg kernFrame (hold t ht)
  have hkern : y.kernDir = x.kernDir := congrArg kernFrame he.kern
  have himage : x.started.image y.dir = x.started.image x.dir := Finset.image_congr (fun t ht => hdir t ht)
  have hdirs : y.dirs = insert ps x.dirs := by
    have hstarted : y.started = insert task x.started := rfl
    rw [TaskSession.dirs, TaskSession.dirs, hkern, hstarted, Finset.image_insert, hnew, Finset.insert_comm, himage]
  refine ⟨L', ⟨by rw [hdirs]; exact hb, h.given, ?_, ?_, ?_, ?_⟩, isolated he ha rfl rfl hold⟩
  · intro i hi
    have hsame : s'.mem x.kernDir = x.s.mem x.kernDir := he.others _ x.kernDir_mem (Ne.symm ha.1)
    rw [hkern, hsame]
    exact h.empty i hi
  · intro t ht
    rcases Finset.mem_insert.mp ht with rfl | ht
    · rw [htasks, Function.update_self]
      exact pgoff_kva _ _
    · rw [hold t ht]
      exact h.aligned t ht
  · intro t ht
    rw [hkern]
    rcases Finset.mem_insert.mp ht with rfl | ht
    · rw [hnew]
      exact ha.1
    · rw [hdir t ht]
      exact h.own t ht
  · intro t ht t' ht' heq
    rcases Finset.mem_insert.mp ht with rfl | hs <;> rcases Finset.mem_insert.mp ht' with rfl | hs'
    · rfl
    · rw [hnew, hdir t' hs'] at heq
      exact absurd (heq ▸ TaskSession.dir_mem hs') hps
    · rw [hnew, hdir t hs] at heq
      exact absurd (heq ▸ TaskSession.dir_mem hs) hps
    · rw [hdir t hs, hdir t' hs'] at heq
      exact h.distinct t hs t' hs' heq

theorem call (h : TaskInv x pool L) (hcall : TaskCall st 4096 actor x y) :
    ∃ L', TaskInv y pool L' ∧ Isolated actor x y := by
  have hb := h.balanced
  cases hcall with
  | pageAlloc flags ps hr =>
    obtain ⟨L', rfl, _, hb', _, _, he⟩ := pageAlloc_balanced (d := ps) hb hr
    have hg : insert ps x.given ⊆ pool := Finset.insert_subset (hb.free_pool ps List.mem_cons_self) h.given
    exact ⟨L', h.step_isolated hb' hg he (actor_none (hb.not_dir List.mem_cons_self))⟩
  | freePage ps ho hr =>
    have hu := ho.usable hb h.given
    obtain ⟨hb', _, he⟩ := freePage_balanced (d := ps) hb hu.pool hu.used hu.not_dir hr
    exact ⟨_, h.step_isolated hb' h.given he (actor_none hu.not_dir)⟩
  | procInitVm task hn hr => exact h.start hn hr
  | insertPage task ps va perms r ht ho hv hp hr =>
    obtain ⟨L', hb', _, he⟩ := insertPage_balanced hb (TaskSession.dir_mem ht) (h.aligned task ht) hv
      (ho.usable hb h.given) hp hr
    exact ⟨L', h.step_isolated hb' h.given he (h.actor_dir ht)⟩
  | removePage task va ht hv hp hr =>
    obtain ⟨L', hdone⟩ := removePage_balanced hb (TaskSession.dir_mem ht) (h.aligned task ht) hv hr
    exact ⟨L', h.step_isolated hdone.balanced h.given hdone.effect (h.actor_dir ht)⟩

theorem run (hrun : Relation.ReflTransGen (fun x y => ∃ actor, TaskCall st 4096 actor x y) x y)
    (h : TaskInv x pool L) :
    ∃ L', TaskInv y pool L' := by
  induction hrun with
  | refl => exact ⟨L, h⟩
  | tail _ hcall ih =>
    obtain ⟨_, ih⟩ := ih
    obtain ⟨_, hcall⟩ := hcall
    obtain ⟨L', h', _⟩ := ih.call hcall
    exact ⟨L', h'⟩

end TaskInv

section TaskDir

variable {q p : ℕ}

theorem KState.FreeList.taskDir (h : s.FreeList (q :: L)) : (s.taskDir task q).FreeList L := by
  have halloc : (s.allocZero q).FreeList L := h.popFree.setMem
  have hcopy : (s.copyDir task q).FreeList L := halloc
  exact hcopy.setMem.setRefs

theorem KState.taskDir_refs : ((s.taskDir task q).pages p).refs =
    if p = q then (s.pages q).refs + 1#32 else (s.pages p).refs := by
  have hcopy : (s.copyDir task q).pages = (s.popFree q).pages := rfl
  rw [KState.taskDir, KState.setRefs_refs, KState.setMem_pages, hcopy, KState.popFree_refs, KState.popFree_refs]

theorem KState.taskDir_nextFree : ((s.taskDir task q).pages p).nextFree =
    if p = q then none else (s.pages p).nextFree := by
  have hcopy : (s.copyDir task q).pages = (s.popFree q).pages := rfl
  rw [KState.taskDir, KState.setRefs_nextFree, KState.setMem_pages, hcopy, KState.popFree_nextFree]

theorem KState.taskDir_mem (task : ℕ) (hk : kernFrame (s.kva q) = q) (hne : kernFrame s.kernPageDirectory ≠ q) :
    (s.taskDir task q).mem = Radix.setFrame s.mem q (fun i => if i = pdx uVirtualPageTable then
      paddr (s.kva q) ||| pteP ||| pteW else s.mem (kernFrame s.kernPageDirectory) i) := by
  have halloc : (s.allocZero q).mem = Radix.setFrame s.mem q (fun _ => 0#32) := by
    rw [KState.setMem_mem, hk]
    rfl
  have hcopy : (s.copyDir task q).mem = Radix.setFrame (s.allocZero q).mem (kernFrame (s.kva q))
      ((s.allocZero q).mem (kernFrame s.kernPageDirectory)) := rfl
  funext f i
  rw [KState.taskDir, KState.setPages_mem, KState.setMem_mem, hcopy, halloc, hk, Radix.setFrame_ne _ _ hne]
  by_cases hf : f = q
  · by_cases hi : i = pdx uVirtualPageTable <;> simp [Radix.setWord, hf, hi]
  · rw [Radix.setWord_frame_ne _ _ hf, Radix.setFrame_ne _ _ hf, Radix.setFrame_ne _ _ hf, Radix.setFrame_ne _ _ hf]

end TaskDir

structure TwoTasks (s : KState) (kf a b d : ℕ) (pool : Finset ℕ) (L : List ℕ) (e : ℕ → Option ℕ) : Prop where
  window : KernWindow s kf a pool
  list : s.FreeList L
  sub : ∀ q ∈ L, q ∈ pool ∧ q ≠ a ∧ q ≠ b ∧ q ≠ d
  mem : b ∈ pool ∧ d ∈ pool
  ne : a ≠ b ∧ a ≠ d ∧ b ≠ d
  first : kernFrame (s.taskPgdir 0) = b
  second : kernFrame (s.taskPgdir 1) = d
  aligned : pgoff (s.taskPgdir 1) = 0
  refs : (s.pages b).refs = 1#32
  off : (s.pages b).nextFree = none
  empty : ∀ i ∈ lowDir, isPagePresent (s.mem b i) = false
  entries : ∀ i ∈ lowDir, pteTarget (s.mem d i) = e i
  word : isPagePresent (s.mem a 0) = true

namespace TwoTasks

variable {kf a b d p q ps : ℕ} {va perms : Word} {e : ℕ → Option ℕ} {given : Finset ℕ}

theorem start (h : KernWindow s kf a pool) (hl : s.FreeList (a :: b :: d :: L))
    (hp : ∀ q ∈ a :: b :: d :: L, q ∈ pool) (hz : (s.pages b).refs = 0#32) (hw : isPagePresent (s.mem a 0) = true) :
    Returns true (pageAlloc 0#32) s a (s.popFree a) ∧
      Returns true (procInitVm 0) (s.popFree a) () ((s.popFree a).taskDir 0 b) ∧
      Returns true (procInitVm 1) ((s.popFree a).taskDir 0 b) () (((s.popFree a).taskDir 0 b).taskDir 1 d) ∧
      TwoTasks (((s.popFree a).taskDir 0 b).taskDir 1 d) kf a b d pool L (fun _ => none) := by
  have hnodup := Chain.nodup hl
  simp only [List.nodup_cons, List.mem_cons, not_or] at hnodup
  obtain ⟨⟨hab, had, haL⟩, ⟨hbd, hbL⟩, hdL, _⟩ := hnodup
  have hb : b ∈ pool := hp b (by simp)
  have hd : d ∈ pool := hp d (by simp)
  have h₁ := h.popFree a
  have h₂ := h₁.taskDir hb 0
  have hl₁ := hl.popFree
  have hl₂ : ((s.popFree a).taskDir 0 b).FreeList (d :: L) := hl₁.taskDir
  have hkb : kernFrame (s.popFree a).kernPageDirectory ≠ b := fun he => h.dir.1 (h.kern ▸ he ▸ hb)
  have hkd : kernFrame ((s.popFree a).taskDir 0 b).kernPageDirectory ≠ d := fun he => h.dir.1 (h.kern ▸ he ▸ hd)
  have hm₂ := KState.taskDir_mem 0 (h₁.kva hb) hkb
  have hm₃ := KState.taskDir_mem 1 (h₂.kva hd) hkd
  have hlow : ∀ i ∈ lowDir, i ≠ pdx uVirtualPageTable := by
    rintro i hi rfl
    simp [lowDir, pdx_eq, uVirtualPageTable_eq] at hi
  have hkern : ∀ i ∈ lowDir, isPagePresent (((s.popFree a).taskDir 0 b).mem
      (kernFrame ((s.popFree a).taskDir 0 b).kernPageDirectory) i) = false := by
    intro i hi
    rw [h₂.kern]
    exact h₂.empty i hi
  refine ⟨(returns_pageAlloc_plain (by decide)).mpr ⟨hl.1, rfl⟩, h₁.returns_procInitVm hl₁.1 hb (Ne.symm hab) 0,
    h₂.returns_procInitVm hl₂.1 hd (Ne.symm had) 1, ?_⟩
  refine ⟨h₂.taskDir hd 1, hl₂.taskDir, fun q hq => ⟨hp q (by simp [hq]), ?_, ?_, ?_⟩, ⟨hb, hd⟩,
    ⟨hab, had, hbd⟩, ?_, ?_,
    ?_, ?_, ?_, fun i hi => ?_, fun i hi => ?_, ?_⟩
  · exact fun he => haL (he ▸ hq)
  · exact fun he => hbL (he ▸ hq)
  · exact fun he => hdL (he ▸ hq)
  · exact h₁.kva hb
  · exact h₂.kva hd
  · exact pgoff_kva _ _
  · rw [KState.taskDir_refs, if_neg hbd, KState.taskDir_refs, if_pos rfl, KState.popFree_refs, hz]
    rfl
  · rw [KState.taskDir_nextFree, if_neg hbd, KState.taskDir_nextFree, if_pos rfl]
  · rw [hm₃, Radix.setFrame_ne _ _ hbd, hm₂, Radix.setFrame_same]
    simp only [if_neg (hlow i hi)]
    rw [h₁.kern]
    exact h.empty i hi
  · rw [hm₃, Radix.setFrame_same]
    simp only [if_neg (hlow i hi)]
    exact pteTarget_absent (hkern i hi)
  · rw [hm₃, Radix.setFrame_ne _ _ had, hm₂, Radix.setFrame_ne _ _ hab]
    exact hw

theorem popFree (h : TwoTasks s kf a b d pool (q :: L) e) :
    Returns true (pageAlloc 0#32) s q (s.popFree q) ∧ TwoTasks (s.popFree q) kf a b d pool L e := by
  have hq := h.sub q (by simp)
  refine ⟨(returns_pageAlloc_plain (by decide)).mpr ⟨h.list.1, rfl⟩, h.window.popFree q, h.list.popFree,
    fun p hp => h.sub p (List.mem_cons_of_mem _ hp), h.mem, h.ne, h.first, h.second, h.aligned, ?_, ?_, h.empty,
    h.entries, h.word⟩
  · rw [KState.popFree_refs, h.refs]
  · rw [KState.popFree_nextFree, if_neg (Ne.symm hq.2.2.1), h.off]

def inserted (s : KState) (va perms : Word) (ps q : ℕ) : KState :=
  ((s.newTable (s.taskPgdir 1) va q).setRefs ps (((s.newTable (s.taskPgdir 1) va q).pages ps).refs + 1#32)).setWord q
    (ptx va) (pageEntry ps perms)

theorem inserted_mem (va perms : Word) (ps : ℕ) (h : KernWindow s kf a pool) (hq : q ∈ pool) :
    (inserted s va perms ps q).mem =
    Radix.setWord (Radix.setWord (Radix.setFrame s.mem q (fun _ => 0#32)) (kernFrame (s.taskPgdir 1)) (pdx va)
      (page2pa q ||| tablePerm)) q (ptx va) (pageEntry ps perms) := by
  rw [inserted, KState.setMem_mem, KState.setPages_mem, KState.newTable_mem (h.kva hq)]

theorem entry_absent {i : ℕ} (h : TwoTasks s kf a b d pool L e) (hi : i ∈ lowDir) (he : e i = none) :
    isPagePresent (s.mem d i) = false := by
  have hentry := h.entries i hi
  rw [he] at hentry
  by_contra hn
  rw [pteTarget_present (Bool.not_eq_false _ ▸ hn)] at hentry
  cases hentry

theorem insertPage (h : TwoTasks s kf a b d pool (q :: L) e) (perms : Word) (hv : va < uTop)
    (he : e (pdx va) = none) (hps : ps ∈ pool)
    (hb : ps ≠ b) : Returns true (Cezos.insertPage (s.taskPgdir 1) ps va perms) s 0 (inserted s va perms ps q) ∧
      TwoTasks (inserted s va perms ps q) kf a b d pool L (Function.update e (pdx va) (some q)) := by
  obtain ⟨hq, hqa, hqb, hqd⟩ := h.sub q (by simp)
  have hd : kernFrame (s.taskPgdir 1) = d := h.second
  have hpos := h.window.pages ps hps
  have hqpos := h.window.pages q hq
  have habs := h.entry_absent (pdx_mem_lowDir.mpr hv) he
  have hmem := inserted_mem va perms ps h.window hq
  rw [hd] at hmem
  have hpages : ∀ p, p ≠ ps → p ≠ q → (inserted s va perms ps q).pages p = s.pages p := by
    intro p hp hpq
    rw [inserted, KState.setMem_pages, KState.setPages_pages, Function.update_of_ne hp, KState.setMem_pages,
      KState.setPages_pages, Function.update_of_ne hpq, KState.setMem_pages, KState.setPages_pages,
      Function.update_of_ne hpq, KState.setFreeList_pages]
  refine ⟨h.window.returns_insertPage_new (by rw [hd]; exact h.mem.2) (by rw [hd]; exact Ne.symm h.ne.2.1) h.aligned
    (by rw [KState.pdeAt, hd]; exact habs) h.list.1 hq hqa (by rw [hd]; exact hqd) hpos.1 (by omega), ?_⟩
  refine ⟨?_, ?_, fun p hp => h.sub p (List.mem_cons_of_mem _ hp), h.mem, h.ne, h.first, h.second, h.aligned, ?_, ?_,
    fun i hi => ?_, fun i hi => ?_, ?_⟩
  · exact ((h.window.newTable (by rw [hd]; exact h.mem.2) hq).setPages _).setWord hq _ _
  · exact h.list.newTable.setRefs.setMem
  · rw [hpages b (Ne.symm hb) (Ne.symm hqb)]
    exact h.refs
  · rw [hpages b (Ne.symm hb) (Ne.symm hqb)]
    exact h.off
  · rw [hmem, Radix.setWord_frame_ne _ _ (Ne.symm hqb), Radix.setWord_frame_ne _ _ h.ne.2.2,
      Radix.setFrame_ne _ _ (Ne.symm hqb)]
    exact h.empty i hi
  · rw [hmem, Radix.setWord_frame_ne _ _ (Ne.symm hqd)]
    by_cases hi' : i = pdx va
    · rw [hi', Radix.setWord_same, Function.update_self, pteTarget_some]
      exact ⟨present_tableEntry q, pteFrame_tableEntry (by omega)⟩
    · rw [Radix.setWord_index_ne _ _ hi', Radix.setFrame_ne _ _ (Ne.symm hqd), Function.update_of_ne hi']
      exact h.entries i hi
  · rw [hmem, Radix.setWord_frame_ne _ _ (Ne.symm hqa), Radix.setWord_frame_ne _ _ h.ne.2.1,
      Radix.setFrame_ne _ _ (Ne.symm hqa)]
    exact h.word

def removed (s : KState) (va : Word) (t b : ℕ) : KState :=
  (((s.setWord t (ptx va) 0#32).setRefs b 0#32).pushFree b).dropTlb va

theorem removePage_freed (h : TwoTasks s kf a b d pool L e) (hv : va < uTop) {t : ℕ} (he : e (pdx va) = some t)
    (ht : t ∈ pool)
    (hta : t ≠ a) (hq : pteTarget (s.mem t (ptx va)) = some p) (hp : p ∈ pool) (hrefs : (s.pages p).refs = 1#32)
    (hoff : (s.pages p).nextFree = none) :
    Returns true (Cezos.removePage (s.taskPgdir 1) va) s () (removed s va t p) := by
  have hd := h.second
  have hdpos := h.window.pages d h.mem.2
  have htpos := h.window.pages t ht
  have hppos := h.window.pages p hp
  refine h.window.returns_removePage_mapped (by omega) (by rw [hd]; exact Ne.symm h.ne.2.1) h.aligned
    (by rw [hd, h.entries _ (pdx_mem_lowDir.mpr hv), he]) htpos.2.1 htpos.2.2.1 hta hq hppos.2.1 ?_
  exact returns_pageDecref.mpr (Or.inl ⟨hrefs, hoff, rfl⟩)

theorem removePage (h : TwoTasks s kf a b d pool L e) (hv : va < uTop) {t : ℕ} (he : e (pdx va) = some t)
    (ht : t ∈ pool)
    (hta : t ≠ a) (hq : pteTarget (s.mem t (ptx va)) = some b) :
    Returns true (Cezos.removePage (s.taskPgdir 1) va) s () (removed s va t b) :=
  h.removePage_freed hv he ht hta hq h.mem.1 h.refs h.off

section Removed

variable {t i : ℕ} {va' : Word} (h : TwoTasks s kf a b d pool L e) (va : Word)

include h

end Removed

/-! #### The run -/

end TwoTasks

/-! ### On a small machine -/

theorem layout_present (base : Word) {i : ℕ} (hi : i ∈ regionDirs) :
    ∃ v, v < 1048576 ∧ v / 1024 = i ∧ isPagePresent (layout base v) = true := by
  rw [mem_regionDirs] at hi
  by_cases h₁ : i = 956
  · refine ⟨978944, by omega, by omega, ?_⟩
    rw [layout_pages (by omega) (by omega)]
    exact present_regionEntry _ _ _
  · by_cases h₂ : i = 959
    · refine ⟨983032, by omega, by omega, ?_⟩
      rw [layout_stack (by omega) (by omega)]
      exact present_regionEntry _ _ _
    · refine ⟨1024 * i, by omega, by omega, ?_⟩
      rw [layout_direct (by omega) (by omega)]
      exact present_regionEntry _ _ _

theorem Built.taken (h : Built s₀ s₁ s L) : s₀.bootList.drop 66 = L := by
  obtain ⟨T, hT, hlen⟩ := h.mapping.taken
  have hall : regionDirs.filter (fun i => isPagePresent (s.mem (kernFrame s₀.pgdirAt) i) = true) = regionDirs := by
    refine Finset.filter_true_of_mem (fun i hi => ?_)
    obtain ⟨v, hv, hdiv, hp⟩ := layout_present s₀.pagesAt hi
    have hpg := pgnum_pageAddr hv
    have hd : pdx (pageAddr v) = i := by rw [pdx_of_pgnum, hpg, hdiv]
    have hwalk := h.walk (show pdx (pageAddr v) ∈ regionDirs by rw [hd]; exact hi)
    rw [hpg, if_pos hp, dirWalk_some, hd] at hwalk
    exact hwalk.1
  rw [hT, List.drop_left']
  rw [hlen, hall, card_regionDirs]

end Cezos
