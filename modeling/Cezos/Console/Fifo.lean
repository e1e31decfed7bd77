import Cezos.Console.Input

namespace Cezos

open Lib

variable {st : Bool} {text : ConsoleTexts} {depth fuel : ℕ} {d d' d'' : Console} {s s' : Input} {c r : CInt}
  {cs cs' all all' : List CInt} {proc : Con CInt}

/-! ### What the devices produce -/

def Answers (proc : Con CInt) : Console → List CInt → Console → Prop :=
  Trace (fun d c d' => Returns false proc d c d')

/-- `proc` is called until it has nothing more; `cs` are the non-zero characters that it has produced. -/
def Produces (proc : Con CInt) (d : Console) (cs : List CInt) (d' : Console) : Prop :=
  ∃ all, Answers proc d (all ++ [-1#32]) d' ∧ -1#32 ∉ all ∧ cs = all.filter (fun c => decide (c ≠ 0#32))

def SerialProduces (d : Console) (cs : List CInt) (d' : Console) : Prop :=
  (d.serialExists = true ∧ Produces serialProcData d cs d') ∨ (d.serialExists = false ∧ cs = [] ∧ d' = d)

theorem Answers.unique (h : Answers proc d (all ++ [-1#32]) d') (h' : Answers proc d (all' ++ [-1#32]) d'')
    (ha : -1#32 ∉ all) (ha' : -1#32 ∉ all') : all = all' ∧ d' = d'' := by
  induction all generalizing d all' with
  | nil =>
    obtain ⟨d₁, hone, hnil⟩ := Trace.cons_iff.mp h
    obtain rfl := Trace.nil_iff.mp hnil
    cases all' with
    | nil =>
      obtain ⟨d₂, hone', hnil'⟩ := Trace.cons_iff.mp h'
      obtain rfl := Trace.nil_iff.mp hnil'
      exact ⟨rfl, (hone.unique hone').2⟩
    | cons c all' =>
      obtain ⟨d₂, hone', _⟩ := Trace.cons_iff.mp h'
      obtain ⟨rfl, _⟩ := hone.unique hone'
      exact absurd List.mem_cons_self ha'
  | cons c all ih =>
    obtain ⟨d₁, hone, hrest⟩ := Trace.cons_iff.mp h
    cases all' with
    | nil =>
      obtain ⟨d₂, hone', _⟩ := Trace.cons_iff.mp h'
      obtain ⟨rfl, _⟩ := hone.unique hone'
      exact absurd List.mem_cons_self ha
    | cons c' all' =>
      obtain ⟨d₂, hone', hrest'⟩ := Trace.cons_iff.mp h'
      obtain ⟨rfl, rfl⟩ := hone.unique hone'
      obtain ⟨rfl, rfl⟩ := ih hrest hrest' (fun hm => ha (List.mem_cons_of_mem _ hm))
        (fun hm => ha' (List.mem_cons_of_mem _ hm))
      exact ⟨rfl, rfl⟩

theorem Produces.unique (h : Produces proc d cs d') (h' : Produces proc d cs' d'') : cs = cs' ∧ d' = d'' := by
  obtain ⟨all, hall, hno, rfl⟩ := h
  obtain ⟨all', hall', hno', rfl⟩ := h'
  obtain ⟨rfl, rfl⟩ := hall.unique hall' hno hno'
  exact ⟨rfl, rfl⟩

/-! ### A device answers a character, or -1 -/

def IsAnswer (c : CInt) : Prop := c = -1#32 ∨ c.toNat < 256

theorem isAnswer_byte (b : Byte) : IsAnswer (b.setWidth 32) := by
  apply Or.inr
  rw [BitVec.toNat_setWidth]
  have := b.isLt
  omega

theorem capsLocked_lt (shift : Word) (b : Byte) : (capsLocked shift (b.setWidth 32)).toNat < 256 := by
  have hb : (b.setWidth 32 : CInt).toNat < 256 := by
    rw [BitVec.toNat_setWidth]
    have := b.isLt
    omega
  have hint : (b.setWidth 32 : CInt).toInt = (b.setWidth 32 : CInt).toNat := by
    rw [BitVec.toInt_eq_toNat_cond, if_pos (by omega)]
  have ha : (chr 'a').toInt = 97 := by decide
  have hz : (chr 'z').toInt = 122 := by decide
  have hA : (chr 'A').toInt = 65 := by decide
  have hZ : (chr 'Z').toInt = 90 := by decide
  have hup : (chr 'a' - chr 'A').toNat = 32 := by decide
  have hdown : (chr 'A' - chr 'a').toNat = 4294967264 := by decide
  unfold capsLocked
  rw [hint, ha, hz, hA, hZ]
  split
  · exact hb
  · split
    · rw [BitVec.toNat_add, hdown]
      omega
    · split
      · rw [BitVec.toNat_add, hup]
        omega
      · exact hb

theorem isAnswer_capsLocked (shift : Word) (b : Byte) : IsAnswer (capsLocked shift (b.setWidth 32)) :=
    Or.inr (capsLocked_lt shift b)

theorem serialProcData_answer (h : Returns st serialProcData d c d') : IsAnswer c := by
  unfold serialProcData at h
  obtain ⟨lsr, d₁, _, h⟩ := returns_bind.mp h
  rcases returns_ite.mp h with ⟨_, h⟩ | ⟨_, h⟩
  · exact Or.inl (returns_pure.mp h).1
  · obtain ⟨data, d₂, _, h⟩ := returns_bind.mp h
    obtain ⟨rfl, _⟩ := returns_pure.mp h
    exact isAnswer_byte data

theorem kbdPressed_answer {data : Byte} (h : Returns st (kbdPressed text depth fuel data) d c d') : IsAnswer c := by
  unfold kbdPressed at h
  obtain ⟨old, d₁, _, h⟩ := returns_bind.mp h
  obtain ⟨_, d₂, _, h⟩ := returns_bind.mp h
  rcases returns_ite.mp h with ⟨_, h⟩ | ⟨_, h⟩
  · obtain ⟨_, d₃, _, h⟩ := returns_bind.mp h
    obtain ⟨_, d₄, _, h⟩ := returns_bind.mp h
    obtain ⟨rfl, _⟩ := returns_pure.mp h
    exact isAnswer_capsLocked _ _
  · obtain ⟨rfl, _⟩ := returns_pure.mp h
    exact isAnswer_capsLocked _ _

theorem kbdProcData_answer (h : Returns st (kbdProcData text depth fuel) d c d') : IsAnswer c := by
  have hzero : IsAnswer 0#32 := Or.inr (by decide)
  unfold kbdProcData at h
  obtain ⟨stat, d₁, _, h⟩ := returns_bind.mp h
  rcases returns_ite.mp h with ⟨_, h⟩ | ⟨_, h⟩
  · exact Or.inl (returns_pure.mp h).1
  rcases returns_ite.mp h with ⟨_, h⟩ | ⟨_, h⟩
  · exact Or.inl (returns_pure.mp h).1
  obtain ⟨data, d₂, _, h⟩ := returns_bind.mp h
  obtain ⟨shift, d₃, _, h⟩ := returns_bind.mp h
  rcases returns_ite.mp h with ⟨_, h⟩ | ⟨_, h⟩
  · obtain ⟨_, d₄, _, h⟩ := returns_bind.mp h
    rw [(returns_pure.mp h).1]
    exact hzero
  rcases returns_ite.mp h with ⟨_, h⟩ | ⟨_, h⟩
  · obtain ⟨_, d₄, _, h⟩ := returns_bind.mp h
    rw [(returns_pure.mp h).1]
    exact hzero
  rcases returns_ite.mp h with ⟨_, h⟩ | ⟨_, h⟩
  · obtain ⟨_, d₄, _, h⟩ := returns_bind.mp h
    exact kbdPressed_answer h
  · exact kbdPressed_answer h

theorem Produces.answers (hproc : ∀ d c d', Returns false proc d c d' → IsAnswer c) (h : Produces proc d cs d') :
    ∀ c ∈ cs, c ≠ 0#32 ∧ c.toNat < 256 := by
  obtain ⟨all, hall, hno, rfl⟩ := h
  have hanswer : ∀ c ∈ all ++ [-1#32], IsAnswer c := by
    generalize all ++ [-1#32] = answers at hall
    induction hall with
    | nil d => exact fun c hc => absurd hc List.not_mem_nil
    | cons head tail ih =>
      intro c hc
      rcases List.mem_cons.mp hc with rfl | hc
      · exact hproc _ _ _ head
      · exact ih c hc
  intro c hc
  obtain ⟨hmem, hne⟩ := List.mem_filter.mp hc
  rcases hanswer c (List.mem_append_left _ hmem) with rfl | hlt
  · exact absurd hmem hno
  · exact ⟨of_decide_eq_true hne, hlt⟩

theorem SerialProduces.answers (h : SerialProduces d cs d') : ∀ c ∈ cs, c ≠ 0#32 ∧ c.toNat < 256 := by
  rcases h with ⟨_, h⟩ | ⟨_, rfl, _⟩
  · exact h.answers (fun _ _ _ => serialProcData_answer)
  · exact fun c hc => absurd hc List.not_mem_nil

/-! ### The calls -/

theorem Produces.stop (h : Returns false proc d (-1#32) d') : Produces proc d [] d' :=
  ⟨[], Trace.single h, List.not_mem_nil, rfl⟩

theorem Produces.next (h : Returns false proc d c d') (hc : c ≠ -1#32) (hcs : Produces proc d' cs d'') :
    Produces proc d (if c = 0#32 then cs else c :: cs) d'' := by
  obtain ⟨all, hall, hno, rfl⟩ := hcs
  refine ⟨c :: all, .cons h hall, ?_, ?_⟩
  · exact fun hm => (List.mem_cons.mp hm).elim (fun he => hc he.symm) hno
  · by_cases hz : c = 0#32
    · rw [if_pos hz, List.filter_cons_of_neg (by simp [hz])]
    · rw [if_neg hz, List.filter_cons_of_pos (by simp [hz])]

theorem consoleInterrupt_puts (h : Returns st (consoleInterrupt fuel proc) s () s') :
    ∃ cs, Produces proc s.con cs s'.con ∧ s'.cons = cs.foldl Cons.put s.cons := by
  unfold consoleInterrupt at h
  induction fuel generalizing s with
  | zero => exact absurd h returns_spin
  | succ n ih =>
    rcases returns_whileSome_succ.mp h with ⟨hstep, _⟩ | ⟨_, s₁, hstep, hrest⟩
    · obtain ⟨c, s₂, hproc, hk⟩ := returns_bind.mp hstep
      obtain ⟨d, hd, rfl⟩ := returns_zoom.mp hproc
      rcases returns_ite.mp hk with ⟨rfl, hk⟩ | ⟨_, hk⟩
      · obtain ⟨_, rfl⟩ := returns_pure.mp hk
        exact ⟨[], .stop hd.loosen, rfl⟩
      · exfalso
        rcases returns_ite.mp hk with ⟨_, hk⟩ | ⟨_, hk⟩
        · cases (returns_pure.mp hk).1
        · obtain ⟨_, _, _, hk⟩ := returns_bind.mp hk
          obtain ⟨_, _, _, hk⟩ := returns_bind.mp hk
          cases (returns_pure.mp hk).1
    · obtain ⟨c, s₂, hproc, hk⟩ := returns_bind.mp hstep
      obtain ⟨d, hd, rfl⟩ := returns_zoom.mp hproc
      obtain ⟨cs, hcs, hring⟩ := ih hrest
      rcases returns_ite.mp hk with ⟨_, hk⟩ | ⟨hc, hk⟩
      · cases (returns_pure.mp hk).1
      · have hnext := @Produces.next s.con d s'.con c cs proc hd.loosen hc
        rcases returns_ite.mp hk with ⟨hz, hk⟩ | ⟨hz, hk⟩
        · obtain ⟨_, rfl⟩ := returns_pure.mp hk
          have hp := hnext hcs
          rw [if_pos hz] at hp
          exact ⟨cs, hp, hring⟩
        · obtain ⟨_, _, hcheck, hk⟩ := returns_bind.mp hk
          obtain ⟨rfl, _⟩ := returns_check.mp hcheck
          obtain ⟨_, _, hput, hk⟩ := returns_bind.mp hk
          obtain rfl := returns_modify.mp hput
          obtain ⟨_, rfl⟩ := returns_pure.mp hk
          have hp := hnext hcs
          rw [if_neg hz] at hp
          exact ⟨c :: cs, hp, hring⟩

theorem serialInterrupt_puts (h : Returns st (serialInterrupt fuel) s () s') :
    ∃ cs, SerialProduces s.con cs s'.con ∧ s'.cons = cs.foldl Cons.put s.cons := by
  obtain ⟨e, s₁, hread, h⟩ := returns_bind.mp h
  obtain ⟨rfl, rfl⟩ := returns_read.mp hread
  rcases returns_ite.mp h with ⟨he, h⟩ | ⟨he, h⟩
  · obtain ⟨cs, hcs, hring⟩ := consoleInterrupt_puts h
    exact ⟨cs, Or.inl ⟨he, hcs⟩, hring⟩
  · obtain ⟨_, rfl⟩ := returns_pure.mp h
    exact ⟨[], Or.inr ⟨Bool.eq_false_iff.mpr he, rfl, rfl⟩, rfl⟩

theorem SerialProduces.unique (h : SerialProduces d cs d') (h' : SerialProduces d cs' d'') :
    cs = cs' ∧ d' = d'' := by
  rcases h with ⟨he, h⟩ | ⟨he, rfl, rfl⟩ <;> rcases h' with ⟨he', h'⟩ | ⟨he', rfl, rfl⟩
  · exact h.unique h'
  · exact absurd (he.symm.trans he') (by decide)
  · exact absurd (he.symm.trans he') (by decide)
  · exact ⟨rfl, rfl⟩

inductive ConsoleCall where
  | serialInterrupt (arrived : List CInt)
  | keyboardInterrupt (arrived : List CInt)
  | consoleGetc (serial keyboard : List CInt) (r : CInt)

namespace ConsoleCall

def arrived : ConsoleCall → List CInt
  | serialInterrupt cs => cs
  | keyboardInterrupt cs => cs
  | consoleGetc cs cs' _ => cs ++ cs'

def returned : ConsoleCall → List CInt
  | serialInterrupt _ => []
  | keyboardInterrupt _ => []
  | consoleGetc _ _ r => if r = 0#32 then [] else [r]

end ConsoleCall

def arrivals (es : List ConsoleCall) : List CInt := es.flatMap ConsoleCall.arrived

def returns (es : List ConsoleCall) : List CInt := es.flatMap ConsoleCall.returned

def Makes (text : ConsoleTexts) (s : Input) (e : ConsoleCall) (s' : Input) : Prop :=
  match e with
  | .serialInterrupt cs => (∃ fuel, Returns false (serialInterrupt fuel) s () s') ∧ SerialProduces s.con cs s'.con
  | .keyboardInterrupt cs => ∃ depth fuel, Returns false (keyboardInterrupt text depth fuel) s () s' ∧
      Produces (kbdProcData text depth fuel) s.con cs s'.con
  | .consoleGetc cs cs' r => ∃ depth fuel d, Returns false (consoleGetc text depth fuel) s r s' ∧
      SerialProduces s.con cs d ∧ Produces (kbdProcData text depth fuel) d cs' s'.con

/-! ### The ring as a queue -/

def Cons.ring (s : Cons) : RingBuffer Byte := ⟨s.buf, s.rpos.toNat, s.wpos.toNat⟩

theorem advanced {p : Word} (hp : p.toNat < consbufsize) :
    (if p + 1#32 = BitVec.ofNat 32 consbufsize then 0#32 else p + 1#32).toNat = nextSlot consbufsize p.toNat := by
  have hsize : consbufsize = 512 := rfl
  have hadd : (p + 1#32).toNat = p.toNat + 1 := by
    rw [BitVec.toNat_add]
    exact Nat.mod_eq_of_lt (by change p.toNat + 1 < 4294967296; omega)
  have hend : p + 1#32 = BitVec.ofNat 32 consbufsize ↔ p.toNat + 1 = consbufsize := by
    rw [← hadd, ← BitVec.toNat_inj]
    rfl
  unfold nextSlot
  by_cases he : p.toNat + 1 = consbufsize
  · rw [if_pos (hend.mpr he), if_pos he]
    rfl
  · rw [if_neg (mt hend.mp he), if_neg he, hadd]

structure Pending (s : Cons) (q : List CInt) : Prop where
  holds : s.ring.Holds consbufsize (q.map (·.setWidth 8))
  chars : ∀ c ∈ q, c ≠ 0#32 ∧ c.toNat < 256

namespace Pending

variable {k : Cons} {q : List CInt}

theorem put_ring (h : Pending k q) : (k.put c).ring = k.ring.push consbufsize (c.setWidth 8) := by
  change RingBuffer.mk _ _ _ = RingBuffer.mk _ _ _
  congr 1
  exact advanced h.holds.write_lt

theorem put (h : Pending k q) (hroom : q.length + 1 < consbufsize) (hc : c ≠ 0#32 ∧ c.toNat < 256) :
    Pending (k.put c) (q ++ [c]) where
  holds := by
    rw [h.put_ring, List.map_append]
    exact h.holds.push (by rwa [List.length_map])
  chars x hx := by
    rcases List.mem_append.mp hx with hx | hx
    · exact h.chars x hx
    · rwa [List.mem_singleton.mp hx]

theorem puts (h : Pending k q) (hroom : q.length + cs.length < consbufsize) (hcs : ∀ c ∈ cs, c ≠ 0#32 ∧
    c.toNat < 256) :
    Pending (cs.foldl Cons.put k) (q ++ cs) := by
  induction cs generalizing k q with
  | nil => rwa [List.append_nil]
  | cons c cs ih =>
    rw [List.length_cons] at hroom
    have hput := h.put (c := c) (by omega) (hcs c List.mem_cons_self)
    have hrest := ih hput (by rw [List.length_append, List.length_singleton]; omega)
      (fun x hx => hcs x (List.mem_cons_of_mem _ hx))
    rwa [List.append_assoc, List.singleton_append] at hrest

theorem restored (h : Pending k q) : (q.map (·.setWidth 8)).map (·.setWidth 32) = q := by
  rw [List.map_map]
  refine (List.map_congr_left (fun c hc => ?_)).trans (List.map_id q)
  have hlt := (h.chars c hc).2
  apply BitVec.eq_of_toNat_eq
  simp only [Function.comp_apply, BitVec.toNat_setWidth, id_eq]
  omega

theorem unique {q' : List CInt} (h : Pending k q) (h' : Pending k q') : q = q' := by
  rw [← h.restored, h.holds.unique h'.holds, h'.restored]

theorem empty_iff (h : Pending k q) : k.rpos = k.wpos ↔ q = [] := by
  rw [← List.map_eq_nil_iff (f := fun c : CInt => c.setWidth 8), ← h.holds.empty_iff, ← BitVec.toNat_inj]
  rfl

theorem take (h : Pending k (c :: q)) : (k.buf k.rpos.toNat).setWidth 32 = c ∧ Pending k.take q := by
  obtain ⟨hread, hpop⟩ := h.holds.pop
  have hlt := (h.chars c List.mem_cons_self).2
  refine ⟨?_, ?_, fun x hx => h.chars x (List.mem_cons_of_mem _ hx)⟩
  · change k.buf k.rpos.toNat = c.setWidth 8 at hread
    rw [hread]
    apply BitVec.eq_of_toNat_eq
    simp only [BitVec.toNat_setWidth]
    omega
  · have hring : k.take.ring = k.ring.pop consbufsize := by
      change RingBuffer.mk _ _ _ = RingBuffer.mk _ _ _
      congr 1
      exact advanced h.holds.read
    rwa [hring]

theorem answer {k' : Cons} {r : CInt} (h : Pending k q)
    (he : (k.rpos ≠ k.wpos ∧ r = (k.buf k.rpos.toNat).setWidth 32 ∧ k' = k.take) ∨
    (k.rpos = k.wpos ∧ r = 0#32 ∧ k' = k)) :
    (r = 0#32 ↔ q = []) ∧ ∃ q', q = (if r = 0#32 then [] else [r]) ++ q' ∧ Pending k' q' := by
  rcases he with ⟨hne, rfl, rfl⟩ | ⟨he, rfl, rfl⟩
  · obtain ⟨c, q', rfl⟩ := List.exists_cons_of_ne_nil (mt h.empty_iff.mpr hne)
    obtain ⟨hc, htake⟩ := h.take
    have hnz : c ≠ 0#32 := (h.chars c List.mem_cons_self).1
    rw [hc, if_neg hnz]
    exact ⟨iff_of_false hnz (List.cons_ne_nil c q'), q', rfl, htake⟩
  · have hempty := h.empty_iff.mp he
    exact ⟨iff_of_true rfl hempty, q, rfl, h⟩

end Pending

/-! ### Runs -/

def Fifo (es : List ConsoleCall) (s : Input) : Prop := ∃ q, arrivals es = returns es ++ q ∧ Pending s.cons q

variable {es es₁ es₂ : List ConsoleCall} {e : ConsoleCall}

theorem arrivals_snoc : arrivals (es ++ [e]) = arrivals es ++ e.arrived := by
  rw [arrivals, List.flatMap_append, List.flatMap_singleton]
  rfl

theorem returns_snoc : returns (es ++ [e]) = returns es ++ e.returned := by
  rw [returns, List.flatMap_append, List.flatMap_singleton]
  rfl

theorem arrive {q : List CInt} (hq : arrivals es = returns es ++ q) (ha : e.arrived = cs) (hr : e.returned = []) :
    arrivals (es ++ [e]) = returns (es ++ [e]) ++ (q ++ cs) := by
  rw [arrivals_snoc, returns_snoc, hq, ha, hr, List.append_nil, List.append_assoc]

theorem consoleGetc_polls (h : Returns st (consoleGetc text depth fuel) s r s') :
    ∃ cs cs' d k, SerialProduces s.con cs d ∧ Produces (kbdProcData text depth fuel) d cs' s'.con ∧
      k = (cs ++ cs').foldl Cons.put s.cons ∧
      ((k.rpos ≠ k.wpos ∧ r = (k.buf k.rpos.toNat).setWidth 32 ∧ s'.cons = k.take) ∨
        (k.rpos = k.wpos ∧ r = 0#32 ∧ s'.cons = k)) := by
  unfold consoleGetc at h
  obtain ⟨_, s₁, hserial, h⟩ := returns_bind.mp h
  obtain ⟨_, s₂, hkbd, h⟩ := returns_bind.mp h
  obtain ⟨k, s₃, hread, h⟩ := returns_bind.mp h
  obtain ⟨rfl, rfl⟩ := returns_read.mp hread
  obtain ⟨cs, hcs, hring₁⟩ := serialInterrupt_puts hserial
  obtain ⟨cs', hcs', hring₂⟩ := consoleInterrupt_puts hkbd
  have hk : s₃.cons = (cs ++ cs').foldl Cons.put s.cons := by rw [List.foldl_append, ← hring₁, hring₂]
  refine ⟨cs, cs', s₁.con, s₃.cons, hcs, ?_, hk, ?_⟩
  · rcases returns_ite.mp h with ⟨_, h⟩ | ⟨_, h⟩
    · obtain ⟨_, s₄, hcheck, h⟩ := returns_bind.mp h
      obtain ⟨rfl, _⟩ := returns_check.mp hcheck
      obtain ⟨_, s₅, htake, h⟩ := returns_bind.mp h
      obtain rfl := returns_modify.mp htake
      obtain ⟨_, rfl⟩ := returns_pure.mp h
      exact hcs'
    · obtain ⟨_, rfl⟩ := returns_pure.mp h
      exact hcs'
  · rcases returns_ite.mp h with ⟨hne, h⟩ | ⟨he, h⟩
    · obtain ⟨_, s₄, hcheck, h⟩ := returns_bind.mp h
      obtain ⟨rfl, _⟩ := returns_check.mp hcheck
      obtain ⟨_, s₅, htake, h⟩ := returns_bind.mp h
      obtain rfl := returns_modify.mp htake
      obtain ⟨rfl, rfl⟩ := returns_pure.mp h
      exact Or.inl ⟨hne, rfl, rfl⟩
    · obtain ⟨rfl, rfl⟩ := returns_pure.mp h
      exact Or.inr ⟨not_not.mp he, rfl, rfl⟩

theorem Fifo.step (h : Fifo es s) (he : Makes text s e s')
    (hroom : (arrivals (es ++ [e])).length ≤ (returns es).length + (consbufsize - 1)) :
    Fifo (es ++ [e]) s' ∧ ∀ cs cs' r, e = .consoleGetc cs cs' r →
      (r = 0#32 ↔ returns es = arrivals es ++ cs ++ cs') := by
  obtain ⟨q, hq, hpending⟩ := h
  have hsize : consbufsize = 512 := rfl
  have hfit : q.length + e.arrived.length < consbufsize := by
    rw [arrivals_snoc, List.length_append, hq, List.length_append] at hroom
    omega
  cases e with
  | serialInterrupt cs =>
    obtain ⟨⟨fuel, hr⟩, hcs⟩ := he
    obtain ⟨cs', hcs', hring⟩ := serialInterrupt_puts hr
    obtain ⟨rfl, _⟩ := hcs'.unique hcs
    refine ⟨⟨q ++ cs', arrive hq rfl rfl, ?_⟩, nofun⟩
    rw [hring]
    exact hpending.puts hfit hcs.answers
  | keyboardInterrupt cs =>
    obtain ⟨depth, fuel, hr, hcs⟩ := he
    obtain ⟨cs', hcs', hring⟩ := consoleInterrupt_puts hr
    obtain ⟨rfl, _⟩ := hcs'.unique hcs
    refine ⟨⟨q ++ cs', arrive hq rfl rfl, ?_⟩, nofun⟩
    rw [hring]
    exact hpending.puts hfit (hcs.answers (fun _ _ _ => kbdProcData_answer))
  | consoleGetc cs cs' r =>
    obtain ⟨depth, fuel, d, hr, hcs, hcs'⟩ := he
    obtain ⟨cs₁, cs₂, d₁, k, hcs₁, hcs₂, hk, hend⟩ := consoleGetc_polls hr
    obtain ⟨rfl, rfl⟩ := hcs₁.unique hcs
    obtain ⟨rfl, _⟩ := hcs₂.unique hcs'
    have hchars : ∀ c ∈ cs₁ ++ cs₂, c ≠ 0#32 ∧ c.toNat < 256 := fun c hc => (List.mem_append.mp hc).elim
      (hcs.answers c) (hcs'.answers (fun _ _ _ => kbdProcData_answer) c)
    have hfull : Pending k (q ++ (cs₁ ++ cs₂)) := by
      rw [hk]
      exact hpending.puts hfit hchars
    have hall : arrivals es ++ cs₁ ++ cs₂ = returns es ++ (q ++ (cs₁ ++ cs₂)) := by
      rw [hq, List.append_assoc, List.append_assoc]
    obtain ⟨hnone, q', hq', hrest⟩ := hfull.answer hend
    refine ⟨⟨q', ?_, hrest⟩, ?_⟩
    · rw [arrivals_snoc, returns_snoc]
      change arrivals es ++ (cs₁ ++ cs₂) = returns es ++ (if r = 0#32 then [] else [r]) ++ q'
      rw [← List.append_assoc, hall, hq', List.append_assoc]
    · rintro _ _ _ hcall
      cases hcall
      rw [hnone, hall]
      exact (List.self_eq_append_right).symm

theorem Fifo.run (h : Trace (Makes text) s es₂ s') (hs : Fifo es₁ s)
    (hroom : ∀ es e es', es₂ = es ++ e :: es' →
      (arrivals (es₁ ++ es ++ [e])).length ≤ (returns (es₁ ++ es)).length + (consbufsize - 1)) :
    Fifo (es₁ ++ es₂) s' := by
  induction h generalizing es₁ with
  | nil s => rwa [List.append_nil]
  | @cons s s₁ s' e es head tail ih =>
    have hone := hs.step head (by have := hroom [] e es rfl; rwa [List.append_nil] at this)
    have hrest := ih hone.1 (fun es e' es' hes => by
      have := hroom (e :: es) e' es' (by rw [hes, List.cons_append])
      rwa [List.append_cons es₁ e es] at this)
    rwa [List.append_assoc, List.singleton_append] at hrest

theorem consoleGetc_fifo (hempty : s.cons.rpos = s.cons.wpos) (hlt : s.cons.rpos.toNat < consbufsize)
    (hrun : Trace (Makes text) s es s') (hroom : ∀ es₁ e es₂, es = es₁ ++ e :: es₂ →
      (arrivals (es₁ ++ [e])).length ≤ (returns es₁).length + (consbufsize - 1)) :
    returns es <+: arrivals es ∧ s'.cons.rpos.toNat < consbufsize ∧ s'.cons.wpos.toNat < consbufsize ∧
    ∀ es₁ cs cs' r es₂, es = es₁ ++ .consoleGetc cs cs' r :: es₂ →
      (r = 0#32 ↔ returns es₁ = arrivals es₁ ++ cs ++ cs') := by
  have hstart : Fifo [] s := ⟨[], rfl, RingBuffer.holds_nil hlt (congrArg BitVec.toNat hempty.symm),
    fun c hc => absurd hc List.not_mem_nil⟩
  obtain ⟨q, hq, hpending⟩ := hstart.run hrun (fun es₁ e es₂ hes => hroom es₁ e es₂ hes)
  refine ⟨⟨q, hq.symm⟩, hpending.holds.read, hpending.holds.write_lt, ?_⟩
  rintro es₁ cs cs' r es₂ rfl
  obtain ⟨s₁, h₁, h₂⟩ := Trace.append_iff.mp hrun
  obtain ⟨s₂, hone, _⟩ := Trace.cons_iff.mp h₂
  have hbefore : Fifo es₁ s₁ := hstart.run h₁ (fun es e es' hes => by
    have := hroom es e (es' ++ .consoleGetc cs cs' r :: es₂) (by rw [hes, List.append_assoc, List.cons_append])
    exact this)
  exact (hbefore.step hone (hroom es₁ _ es₂ rfl)).2 cs cs' r rfl

def serialInput : Input where
  con := {
    device t p := if p = 0x3F8#16 then 0x41#8 else if p = 0x3FD#16 ∧ t = 0 then 0x01#8 else 0x00#8
    clock := 0
    outs := []
    port := 0x3D4#32
    video _ := 0#8
    cPos := 0#16
    serialExists := true
    shift := 0#32
    mem _ := none }
  cons := ⟨fun _ => 0#8, 0#32, 0#32⟩

theorem serialInput_makes : ∃ s₁ s₂, Makes noTexts serialInput (.serialInterrupt [0x41#32]) s₁ ∧
    Makes noTexts s₁ (.consoleGetc [] [] 0x41#32) s₂ := by
  refine ⟨(serialInterrupt 3 serialInput).state,
    (consoleGetc noTexts 0 3 (serialInterrupt 3 serialInput).state).state,
    ⟨⟨3, .of_eval (by decide +kernel)⟩, Or.inl ⟨rfl, [0x41#32], ?_, by decide, by decide⟩⟩,
    0, 3, (serialProcData (serialInterrupt 3 serialInput).state.con).state, .of_eval (by decide +kernel),
      Or.inl ⟨rfl, [], ?_, by decide, rfl⟩,
    [], ?_, by decide, rfl⟩
  · exact .cons (.of_eval (by decide +kernel)) (.single (.of_eval (by decide +kernel)))
  · exact .single (.of_eval (by decide +kernel))
  · exact .single (.of_eval (by decide +kernel))

theorem consoleGetc_fifo_serial : ∃ s', Trace (Makes noTexts) serialInput
    [.serialInterrupt [0x41#32], .consoleGetc [] [] 0x41#32] s' ∧ s'.cons.rpos.toNat < consbufsize := by
  obtain ⟨s₁, s₂, h₁, h₂⟩ := serialInput_makes
  have hrun : Trace (Makes noTexts) serialInput [.serialInterrupt [0x41#32], .consoleGetc [] [] 0x41#32] s₂ :=
    .cons h₁ (.single h₂)
  refine ⟨s₂, hrun, (consoleGetc_fifo rfl (by decide) hrun (fun es₁ e es₂ hes => ?_)).2.1⟩
  have hle : (arrivals (es₁ ++ [e])).length ≤ (arrivals (es₁ ++ e :: es₂)).length := by
    simp only [arrivals, List.flatMap_append, List.flatMap_cons, List.flatMap_nil, List.length_append,
      List.length_nil]
    omega
  rw [← hes] at hle
  have hone : (arrivals [.serialInterrupt [0x41#32], .consoleGetc [] [] 0x41#32]).length = 1 := rfl
  have hsize : consbufsize = 512 := rfl
  omega

end Cezos
