import Cezos.Kernel.PageList

namespace Cezos

open Lib

variable {st : Bool} {s s' : KState}

abbrev KState.next (s : KState) (p : ℕ) : Option ℕ := (s.pages p).nextFree

theorem returns_nextFreeOf {ps : ℕ} {r : Option ℕ} :
    Returns st (nextFreeOf (some ps)) s r s' ↔ r = s.next ps ∧ s' = s := returns_read

theorem setNextFree_next (p : ℕ) (v : Option ℕ) :
    (s.setNextFree p v).next = Function.update s.next p v := by
  funext q
  by_cases hq : q = p
  · subst hq
    simp [KState.next]
  · simp [KState.next, Function.update_of_ne hq]

theorem setNextFree_refs (p : ℕ) (v : Option ℕ) (q : ℕ) :
    ((s.setNextFree p v).pages q).refs = (s.pages q).refs := by
  by_cases hq : q = p
  · subst hq
    simp
  · simp [Function.update_of_ne hq]

structure OnlyLinks (s s' : KState) : Prop where
  setup : SameSetup s s'
  mem : s'.mem = s.mem
  refs : ∀ p, (s'.pages p).refs = (s.pages p).refs

theorem OnlyLinks.refl : OnlyLinks s s := ⟨.refl, rfl, fun _ => rfl⟩

theorem OnlyLinks.trans {s₁ : KState} (h : OnlyLinks s s₁) (h' : OnlyLinks s₁ s') : OnlyLinks s s' :=
  ⟨h.setup.trans h'.setup, h'.mem.trans h.mem, fun p => (h'.refs p).trans (h.refs p)⟩

namespace PageListLocals

def ptr (l : PageListLocals) (high : Bool) : Option ℕ := if high then l.ps2 else l.ps1

def tail (l : PageListLocals) (high : Bool) : TailSlot := if high then l.tp1 else l.tp0

end PageListLocals

def slotOf (high : Bool) (P : List ℕ) : TailSlot :=
  match P.getLast? with
  | none => if high then .ps2 else .ps1
  | some z => .nextFree z

theorem slotOf_snoc (high : Bool) (P : List ℕ) (a : ℕ) : slotOf high (P ++ [a]) = .nextFree a := by
  simp [slotOf]

structure Relinking (s : KState) (l : PageListLocals) (P : Bool → List ℕ) (R : List ℕ) : Prop where
  rest : Chain s.next l.ps R
  seg : ∀ b, ∃ r, Segment s.next (l.ptr b) (P b) r
  tail : ∀ b, l.tail b = slotOf b (P b)
  nodup : ∀ b, (P b).Nodup
  apart : ∀ q, q ∈ P false → q ∉ P true
  todo : ∀ b, ∀ q ∈ P b, q ∉ R

theorem setSlot_spec (st : Bool) {l : PageListLocals} {P : Bool → List ℕ} {R : List ℕ} (h : Relinking s l P R)
    (b : Bool)
    (v : Option ℕ) :
    ∃ l' s', Returns st (setSlot (l.tail b) v l) s l' s' ∧ OnlyLinks s s' ∧ s'.pageFreeList = s.pageFreeList ∧
      Chain s'.next l.ps R ∧ Segment s'.next (l'.ptr b) (P b) v ∧ l'.ptr (!b) = l.ptr (!b) ∧
      (∀ h r, Segment s.next h (P !b) r → Segment s'.next h (P !b) r) ∧ l'.ps = l.ps ∧ l'.tail = l.tail := by
  rw [h.tail b]
  rcases List.eq_nil_or_concat (P b) with hP | ⟨P', z, hP⟩
  · cases b
    · rw [hP]
      exact ⟨{ l with ps1 := v }, s, returns_pure.mpr ⟨rfl, rfl⟩, .refl, rfl, h.rest, rfl, rfl, fun _ _ hr =>
        hr, rfl,
        rfl⟩
    · rw [hP]
      exact ⟨{ l with ps2 := v }, s, returns_pure.mpr ⟨rfl, rfl⟩, .refl, rfl, h.rest, rfl, rfl, fun _ _ hr =>
        hr, rfl,
        rfl⟩
  · obtain ⟨r, hr⟩ := h.seg b
    have hz : z ∈ P b := by simp [hP]
    have hnd := h.nodup b
    rw [hP] at hnd hr ⊢
    rw [List.concat_eq_append] at hnd hr ⊢
    rw [slotOf_snoc]
    have hother : z ∉ P !b := by
      cases b
      · exact h.apart z hz
      · exact fun hm => h.apart z hm hz
    have hlast : z ∉ P' := fun hm => (List.nodup_append.mp hnd).2.2 z hm z (by simp) rfl
    refine ⟨l, s.setNextFree z v, ?_, ⟨⟨rfl, rfl, rfl, rfl, rfl, rfl, rfl⟩, rfl, setNextFree_refs z v⟩, rfl, ?_,
      ?_, rfl,
      ?_, rfl, rfl⟩
    · exact returns_bind.mpr ⟨(), _, returns_modify.mpr rfl, returns_pure.mpr ⟨rfl, rfl⟩⟩
    · rw [setNextFree_next]
      exact h.rest.update_not_mem (h.todo b z hz) v
    · rw [setNextFree_next]
      exact hr.redirect hlast v
    · intro _ _ hr'
      rw [setNextFree_next]
      exact hr'.congr (fun x hx => Function.update_of_ne (fun he : x = z => hother (he ▸ hx)) _ _)

def isHigh (pdxLimit p : ℕ) : Bool := decide (pdxLimit ≤ pdx (page2pa p))

theorem relinkStep_spec (st : Bool) {l : PageListLocals} {P : Bool → List ℕ} {a : ℕ} {R : List ℕ} {b : Bool}
    (pdxLimit : ℕ)
    (hb : isHigh pdxLimit a = b) (h : Relinking s l P (a :: R)) (hn : (a :: R).Nodup) :
    ∃ l' s', Returns st (relinkStep pdxLimit l) s (some l') s' ∧ OnlyLinks s s' ∧
      Relinking s' l' (Function.update P b (P b ++ [a])) R := by
  obtain ⟨hps, hrest⟩ := h.rest
  obtain ⟨l₁, s₁, hr, honly, _, hchain, hseg, hptr, hother, hl₁, htail⟩ := setSlot_spec st h b (some a)
  have ha : a ∉ P b := fun hm => h.todo b a hm List.mem_cons_self
  have hR : a ∉ R := (List.nodup_cons.mp hn).1
  refine ⟨if b then { l₁ with tp1 := .nextFree a, ps := s₁.next a }
    else { l₁ with tp0 := .nextFree a, ps := s₁.next a },
    s₁, ?_, honly, ?_⟩
  · have hd : decide (pdxLimit ≤ pdx (page2pa a)) = b := hb
    simp only [relinkStep, hps, hd, returns_bind]
    refine ⟨l₁, s₁, hr, s₁.next a, s₁, returns_read.mpr ⟨rfl, rfl⟩, returns_pure.mpr ⟨?_, rfl⟩⟩
    cases b <;> rfl
  · rw [hps] at hchain
    have hsame : Function.update P b (P b ++ [a]) b = P b ++ [a] := Function.update_self ..
    have hne : ∀ c, c ≠ b → Function.update P b (P b ++ [a]) c = P c := fun c hc => Function.update_of_ne hc ..
    have hnot : ∀ c, c ≠ b → (!b) = c := fun c hc => (Bool.eq_not.mpr hc).symm
    refine ⟨?_, ?_, ?_, ?_, ?_, ?_⟩
    · have hc : Chain s₁.next (s₁.next a) R := hchain.2
      cases b <;> exact hc
    · intro c
      by_cases hc : c = b
      · subst hc
        refine ⟨s₁.next a, ?_⟩
        rw [hsame]
        have hs := hseg.snoc
        cases c <;> exact hs
      · obtain ⟨r, hr'⟩ := h.seg c
        refine ⟨r, ?_⟩
        rw [hne c hc]
        rw [hnot c hc] at hother hptr
        have hs := hother _ r (hptr ▸ hr')
        cases b <;> cases c <;> first | exact absurd rfl hc | exact hs
    · intro c
      by_cases hc : c = b
      · subst hc
        rw [hsame, slotOf_snoc]
        cases c <;> rfl
      · rw [hne c hc, ← h.tail c, ← htail]
        cases b <;> cases c <;> first | exact absurd rfl hc | rfl
    · intro c
      by_cases hc : c = b
      · subst hc
        rw [hsame]
        refine List.nodup_append.mpr ⟨h.nodup c, by simp, fun x hx y hy => ?_⟩
        rw [List.mem_singleton] at hy
        rintro rfl
        exact ha (hy ▸ hx)
      · rw [hne c hc]
        exact h.nodup c
    · intro q hq hq'
      have h₁ := h.apart q
      have h₂ := h.todo false q
      have h₃ := h.todo true q
      cases b <;> simp only [Function.update_self, Function.update_of_ne, ne_eq, Bool.false_eq_true,
        Bool.true_eq_false, not_false_eq_true, List.mem_append, List.mem_cons, not_or] at * <;>
        grind
    · intro c q hq hm
      by_cases hc : c = b
      · subst hc
        rw [hsame] at hq
        rcases List.mem_append.mp hq with hq | hq
        · exact h.todo c q hq (List.mem_cons_of_mem _ hm)
        · rw [List.mem_singleton] at hq
          exact hR (hq ▸ hm)
      · rw [hne c hc] at hq
        exact h.todo c q hq (List.mem_cons_of_mem _ hm)

theorem relinkLoop_spec (st : Bool) {l : PageListLocals} {P : Bool → List ℕ} {R : List ℕ} (pdxLimit : ℕ)
    (h : Relinking s l P R) (hn : R.Nodup) (fuel : ℕ) (hf : R.length < fuel) :
    ∃ l' s', Returns st (Prog.whileSome (relinkStep pdxLimit) fuel l) s l' s' ∧ OnlyLinks s s' ∧
      Relinking s' l' (fun b => P b ++ R.filter (fun a => b == isHigh pdxLimit a)) [] := by
  induction R generalizing s l P fuel with
  | nil =>
    obtain ⟨fuel, rfl⟩ : ∃ n, fuel = n + 1 := ⟨fuel - 1, by simp at hf; omega⟩
    refine ⟨l, s, returns_whileSome_succ.mpr (Or.inl ⟨?_, rfl⟩), .refl, by simpa using h⟩
    have hps : l.ps = none := h.rest
    simp only [relinkStep, hps]
    exact returns_pure.mpr ⟨rfl, rfl⟩
  | cons a R ih =>
    obtain ⟨fuel, rfl⟩ : ∃ n, fuel = n + 1 := ⟨fuel - 1, by simp at hf; omega⟩
    obtain ⟨l₁, s₁, hr, ho, h₁⟩ := relinkStep_spec st pdxLimit rfl h hn
    obtain ⟨l₂, s₂, hr', ho', h₂⟩ := ih h₁ (List.nodup_cons.mp hn).2 fuel (by simp at hf; omega)
    refine ⟨l₂, s₂, returns_whileSome_succ.mpr (Or.inr ⟨l₁, s₁, hr, hr'⟩), ho.trans ho', ?_⟩
    have hP : (fun b => P b ++ (a :: R).filter (fun a => b == isHigh pdxLimit a)) =
        fun b => Function.update P (isHigh pdxLimit a) (P (isHigh pdxLimit a) ++ [a]) b ++
          R.filter (fun a => b == isHigh pdxLimit a) := by
      funext b
      by_cases hb : b = isHigh pdxLimit a
      · subst hb
        simp
      · simp [hb]
    rw [hP]
    exact h₂

def relinkList (pdxLimit : ℕ) : Kern Unit := do
  let head ← Prog.read (·.pageFreeList)
  let l ← Prog.whileSome (relinkStep pdxLimit) listFuel ⟨head, none, none, .ps1, .ps2⟩
  let l ← setSlot l.tp1 none l
  let l ← setSlot l.tp0 l.ps2 l
  Prog.modify (·.setFreeList l.ps1)

theorem relinkList_spec (st : Bool) {L : List ℕ} (pdxLimit : ℕ) (h : s.FreeList L) (hf : L.length < listFuel) :
    ∃ s', Returns st (relinkList pdxLimit) s () s' ∧ OnlyLinks s s' ∧
      s'.FreeList (L.filter (fun a => !isHigh pdxLimit a) ++ L.filter (isHigh pdxLimit)) := by
  have h₀ : Relinking s ⟨s.pageFreeList, none, none, .ps1, .ps2⟩ (fun _ => []) L :=
    ⟨h, fun b => ⟨none, by cases b <;> rfl⟩, fun b => by cases b <;> rfl, by simp, by simp, by simp⟩
  obtain ⟨l₁, s₁, hr₁, ho₁, h₁⟩ := relinkLoop_spec st pdxLimit h₀ h.nodup listFuel hf
  obtain ⟨l₂, s₂, hr₂, ho₂, _, hc₂, hs₂, hptr₂, hother₂, hps₂, htail₂⟩ := setSlot_spec st h₁ true none
  have h₂ : Relinking s₂ l₂ (fun b => [] ++ L.filter (fun a => b == isHigh pdxLimit a)) [] := by
    refine ⟨hps₂ ▸ hc₂, fun b => ?_, fun b => by rw [htail₂]; exact h₁.tail b, h₁.nodup, h₁.apart, h₁.todo⟩
    cases b with
    | true => exact ⟨none, hs₂⟩
    | false =>
      obtain ⟨r, hr⟩ := h₁.seg false
      exact ⟨r, hother₂ _ r (hptr₂ ▸ hr)⟩
  obtain ⟨l₃, s₃, hr₃, ho₃, _, _, hs₃, _, hother₃, _, _⟩ := setSlot_spec st h₂ false l₂.ps2
  refine ⟨s₃.setFreeList l₃.ps1, ?_, ?_, ?_⟩
  · simp only [relinkList, returns_bind]
    exact ⟨_, s, returns_read.mpr ⟨rfl, rfl⟩, l₁, s₁, hr₁, l₂, s₂, hr₂, l₃, s₃, hr₃, returns_modify.mpr rfl⟩
  · exact (ho₁.trans (ho₂.trans ho₃)).trans ⟨⟨rfl, rfl, rfl, rfl, rfl, rfl, rfl⟩, rfl, fun _ => rfl⟩
  · have hall := hs₃.append (hother₃ _ _ hs₂).chain
    simp only [List.nil_append, Bool.false_beq, Bool.not_false, Bool.true_beq] at hall
    exact hall

def KState.poison (s : KState) (pdxLimit ps : ℕ) : KState :=
  if pdx (page2pa ps) < pdxLimit then s.setFrame (kernFrame (s.kva ps)) (fun _ => 0x97#32) else s

def KState.poisonAll (s : KState) (pdxLimit : ℕ) (L : List ℕ) : KState :=
  L.foldl (fun s ps => s.poison pdxLimit ps) s

structure OnlyMemory (s s' : KState) : Prop where
  setup : SameSetup s s'
  pages : s'.pages = s.pages
  list : s'.pageFreeList = s.pageFreeList

theorem poison_only (s : KState) (pdxLimit ps : ℕ) : OnlyMemory s (s.poison pdxLimit ps) := by
  unfold KState.poison
  split
  · exact ⟨⟨rfl, rfl, rfl, rfl, rfl, rfl, rfl⟩, rfl, rfl⟩
  · exact ⟨.refl, rfl, rfl⟩

theorem poisonAll_only (pdxLimit : ℕ) (L : List ℕ) : OnlyMemory s (s.poisonAll pdxLimit L) := by
  induction L generalizing s with
  | nil => exact ⟨.refl, rfl, rfl⟩
  | cons a L ih =>
    have h₁ := poison_only s pdxLimit a
    have h₂ := ih (s := s.poison pdxLimit a)
    exact ⟨h₁.setup.trans h₂.setup, h₂.pages.trans h₁.pages, h₂.list.trans h₁.list⟩

theorem poisonAll_mem {pdxLimit f : ℕ} {L : List ℕ}
    (h : ∀ q ∈ L, pdx (page2pa q) < pdxLimit → kernFrame (s.kva q) ≠ f) :
    (s.poisonAll pdxLimit L).mem f = s.mem f := by
  induction L generalizing s with
  | nil => rfl
  | cons a L ih =>
    have hkva : ∀ q, (s.poison pdxLimit a).kva q = s.kva q := by
      intro q
      rw [KState.kva, KState.kva, (poison_only s pdxLimit a).setup.count]
    have hrest := ih (s := s.poison pdxLimit a) (fun q hq hl => by
      rw [hkva]
      exact h q (List.mem_cons_of_mem _ hq) hl)
    apply hrest.trans
    unfold KState.poison
    split
    · next hl => exact Radix.setFrame_ne _ _ (Ne.symm (h a List.mem_cons_self hl))
    · rfl

def KState.poisonable (s : KState) (pdxLimit ps : ℕ) : Prop :=
  pdx (page2pa ps) < pdxLimit → s.inKernelImage (kernFrame (s.kva ps)) = false ∧ kernFrame (s.kva ps) < 1024

theorem poisonable_congr (h : SameSetup s s') (pdxLimit ps : ℕ) :
    s'.poisonable pdxLimit ps ↔ s.poisonable pdxLimit ps := by
  rw [KState.poisonable, KState.poisonable, KState.inKernelImage, KState.inKernelImage, KState.kva, KState.kva,
    h.count, h.next]

theorem returns_poisonStep {pdxLimit : ℕ} {ps : ℕ} {r : Option (Option ℕ)} (hc : st = true → s.cr3 = none) :
    Returns st (poisonStep pdxLimit (some ps)) s r s' ↔
      r = some (s.next ps) ∧ s' = s.poison pdxLimit ps ∧ (st = true → s.poisonable pdxLimit ps) := by
  have hreach : st = true → (s.reaches (s.kva ps) true = true ↔ kernFrame (s.kva ps) < 1024) := by
    intro hs
    rw [reaches_entry (hc hs), decide_eq_true_eq]
  simp only [poisonStep, returns_ite, returns_bind, returns_page2kva, returns_memsetPage, returns_nextFreeOf]
  constructor
  · rintro (⟨hl, _, s, ⟨rfl, rfl⟩, _, _, ⟨rfl, hcl⟩, _, _, ⟨rfl, rfl⟩, h⟩ | ⟨hl, _, s, ⟨rfl, rfl⟩, h⟩)
    · obtain ⟨rfl, rfl⟩ := returns_pure.mp h
      refine ⟨rfl, ?_, fun hs _ => ⟨(hcl hs).1, (hreach hs).mp (hcl hs).2⟩⟩
      rw [KState.poison, if_pos hl]
    · obtain ⟨rfl, rfl⟩ := returns_pure.mp h
      refine ⟨rfl, ?_, fun hs hl' => absurd hl' hl⟩
      rw [KState.poison, if_neg hl]
  · rintro ⟨rfl, rfl, hcl⟩
    by_cases hl : pdx (page2pa ps) < pdxLimit
    · refine Or.inl ⟨hl, _, s, ⟨rfl, rfl⟩, (), _, ⟨rfl, fun hs => ⟨(hcl hs hl).1, (hreach hs).mpr (hcl hs hl).2⟩⟩,
        _, _, ⟨rfl, rfl⟩, returns_pure.mpr ⟨rfl, ?_⟩⟩
      rw [KState.poison, if_pos hl]
    · refine Or.inr ⟨hl, _, s, ⟨rfl, rfl⟩, returns_pure.mpr ⟨rfl, ?_⟩⟩
      rw [KState.poison, if_neg hl]

theorem returns_poisonLoop {pdxLimit : ℕ} {L : List ℕ} {head r : Option ℕ} (hc : st = true → s.cr3 = none)
    (h : Chain s.next head L) (fuel : ℕ) (hf : L.length < fuel) :
    Returns st (Prog.whileSome (poisonStep pdxLimit) fuel head) s r s' ↔
      r = none ∧ s' = s.poisonAll pdxLimit L ∧ (st = true → ∀ q ∈ L, s.poisonable pdxLimit q) := by
  induction L generalizing s head fuel with
  | nil =>
    obtain ⟨fuel, rfl⟩ : ∃ n, fuel = n + 1 := ⟨fuel - 1, by simp at hf; omega⟩
    obtain rfl := Chain.nil_iff.mp h
    have hstep : ∀ {o t}, Returns st (poisonStep pdxLimit none) s o t ↔ o = none ∧ t = s := returns_pure
    rw [returns_whileSome_succ]
    simp only [hstep]
    constructor
    · rintro (⟨⟨_, rfl⟩, rfl⟩ | ⟨_, _, ⟨h, _⟩, _⟩)
      · exact ⟨rfl, rfl, by simp⟩
      · cases h
    · rintro ⟨rfl, rfl, _⟩
      exact Or.inl ⟨⟨trivial, rfl⟩, rfl⟩
  | cons a L ih =>
    obtain ⟨fuel, rfl⟩ : ∃ n, fuel = n + 1 := ⟨fuel - 1, by simp at hf; omega⟩
    obtain ⟨rfl, hrest⟩ := Chain.cons_iff.mp h
    have honly := poison_only s pdxLimit a
    have hrest' : Chain (s.poison pdxLimit a).next (s.next a) L :=
      hrest.congr (fun x _ => by rw [KState.next, honly.pages])
    have ih' := ih (s := s.poison pdxLimit a) (fun hs => honly.setup.loaded.trans (hc hs)) hrest' fuel
      (by simp at hf; omega)
    rw [returns_whileSome_succ]
    simp only [returns_poisonStep hc, poisonable_congr honly.setup] at ih' ⊢
    constructor
    · rintro (⟨⟨h, _⟩, _⟩ | ⟨b, _, ⟨hb, rfl, hcl⟩, h⟩)
      · cases h
      · cases hb
        obtain ⟨rfl, rfl, hcl'⟩ := ih'.mp h
        refine ⟨rfl, rfl, fun hs q hq => ?_⟩
        rcases List.mem_cons.mp hq with rfl | hq
        · exact hcl hs
        · exact hcl' hs q hq
    · rintro ⟨rfl, rfl, hcl⟩
      exact Or.inr ⟨_, _, ⟨rfl, rfl, fun hs => hcl hs a List.mem_cons_self⟩,
        ih'.mpr ⟨rfl, rfl, fun hs q hq => hcl hs q (List.mem_cons_of_mem _ hq)⟩⟩

def lowFirst (L : List ℕ) : List ℕ := L.filter (fun a => !isHigh 1 a) ++ L.filter (isHigh 1)

theorem mem_lowFirst {L : List ℕ} {q : ℕ} : q ∈ lowFirst L ↔ q ∈ L := by
  simp only [lowFirst, List.mem_append, List.mem_filter]
  cases isHigh 1 q <;> simp

theorem returns_checkPageList {L : List ℕ} (h : s.FreeList L) (hf : L.length < listFuel) :
    ∃ s₁, OnlyLinks s s₁ ∧ s₁.FreeList (lowFirst L) ∧
      ∀ {st s'}, (st = true → s.cr3 = none) → (Returns st (checkPageList true) s () s' ↔
        s' = s₁.poisonAll 1 (lowFirst L) ∧ (st = true → ∀ q ∈ lowFirst L, s₁.poisonable 1 q)) := by
  obtain ⟨s₁, hr, ho, hl⟩ := relinkList_spec true 1 h hf
  have hlen : (lowFirst L).length < listFuel := by
    refine Nat.lt_of_le_of_lt ?_ hf
    have h₁ := List.length_eq_length_filter_add (l := L) (isHigh 1)
    simp only [lowFirst, List.length_append]
    omega
  refine ⟨s₁, ho, hl, fun {st s'} hc => ?_⟩
  have hsplit : Returns st (checkPageList true) s () s' ↔ ∃ s₁, Returns st (relinkList 1) s () s₁ ∧
      ∃ r, Returns st (Prog.whileSome (poisonStep 1) listFuel s₁.pageFreeList) s₁ r s' := by
    simp only [checkPageList, relinkList, if_true, returns_bind, returns_read, returns_modify]
    constructor
    · rintro ⟨_, _, ⟨rfl, rfl⟩, l₁, t₁, h₁, l₂, t₂, h₂, l₃, t₃, h₃, _, _, rfl, _, _, ⟨rfl, rfl⟩, r, t₄, h₄, h₅⟩
      obtain ⟨_, rfl⟩ := returns_pure.mp h₅
      exact ⟨_, ⟨_, _, ⟨rfl, rfl⟩, l₁, t₁, h₁, l₂, t₂, h₂, l₃, t₃, h₃, rfl⟩, r, h₄⟩
    · rintro ⟨_, ⟨_, _, ⟨rfl, rfl⟩, l₁, t₁, h₁, l₂, t₂, h₂, l₃, t₃, h₃, rfl⟩, r, h₄⟩
      exact ⟨_, _, ⟨rfl, rfl⟩, l₁, t₁, h₁, l₂, t₂, h₂, l₃, t₃, h₃, (), _, rfl, _, _, ⟨rfl, rfl⟩, r, _, h₄,
        returns_pure.mpr ⟨rfl, rfl⟩⟩
  have hloop {r : Option ℕ} {t : KState} :
      Returns st (Prog.whileSome (poisonStep 1) listFuel s₁.pageFreeList) s₁ r t ↔ _ :=
    returns_poisonLoop (fun hs => ho.setup.loaded.trans (hc hs)) hl listFuel hlen
  rw [hsplit]
  constructor
  · rintro ⟨s₂, h₁, r, h₂⟩
    obtain ⟨_, rfl⟩ := h₁.unique hr
    exact (hloop.mp h₂).2
  · rintro ⟨rfl, hcl⟩
    refine ⟨s₁, ?_, none, hloop.mpr ⟨rfl, rfl, hcl⟩⟩
    obtain ⟨c, hx, hs⟩ := hr
    exact ⟨c, hx, fun _ => hs rfl⟩

end Cezos
