import Cezos.Lib.Trace
import Cezos.Stdio.Silent

namespace Cezos

open Lib

section Console

variable {κ : Type} (cputchar : CInt → Prog κ Unit)

/-- `*cnt++` reads the counter, moves the pointer to it and leaves the counter as it was. -/
def putch (ch : CInt) : Prog ((Bytes × κ) × CInt) Unit := do
  Prog.zoom (·.1.2) (fun t k => ((t.1.1, k), t.2)) (cputchar ch)
  let _ ← Prog.read (·.2)
  return ()

def printHost : Host ((Bytes × κ) × CInt) where
  peek s p := s.1.1 p
  putch := putch cputchar

def vcprintf (ro : Rodata) (fuel : ℕ) (fmt : Word) (ap : List Word) : Prog (Bytes × κ) CInt := do
  let (_, cnt) ← Prog.scope 0#32 (vprintfmt (printHost cputchar) ro fuel fmt ap)
  return cnt

def cprintf (ro : Rodata) (fuel : ℕ) (fmt : Word) (ap : List Word) : Prog (Bytes × κ) CInt := do
  let cnt ← vcprintf cputchar ro fuel fmt ap
  return cnt

end Console

def recordPutchar (ch : CInt) : Prog (List CInt) Unit := Prog.modify (· ++ [ch])

def Prints (st : Bool) (ro : Rodata) (mem : Bytes) (fmt : Word) (ap : List Word) (log : List CInt) (r : CInt) :
    Prop :=
  ∃ fuel mem', Returns st (vcprintf recordPutchar ro fuel fmt ap) (mem, []) r (mem', log)

variable {st : Bool} {ro : Rodata} {mem mem' : Bytes} {buf fmt : Word} {n r : CInt} {ap : List Word}
    {out log : List CInt}
  {κ : Type} {cputchar : CInt → Prog κ Unit} {k k' : κ} {fuel : ℕ}

theorem returns_vcprintf {s s' : Bytes × κ} : Returns st (vcprintf cputchar ro fuel fmt ap) s r s' ↔
    Returns st (vprintfmt (printHost cputchar) ro fuel fmt ap) (s, 0#32) () (s', r) := by
  simp only [vcprintf, returns_bind, returns_scope]
  constructor
  · rintro ⟨⟨_, cnt⟩, _, h, hp⟩
    obtain ⟨rfl, rfl⟩ := returns_pure.mp hp
    exact h
  · intro h
    exact ⟨((), r), s', h, returns_pure.mpr ⟨rfl, rfl⟩⟩

theorem returns_cprintf {s s' : Bytes × κ} :
    Returns st (cprintf cputchar ro fuel fmt ap) s r s' ↔
      Returns st (vcprintf cputchar ro fuel fmt ap) s r s' := Iff.rfl

theorem returns_printPutch {ch : CInt} {t t' : (Bytes × κ) × CInt} : Returns st (putch cputchar ch) t () t' ↔
    ∃ k, Returns st (cputchar ch) t.1.2 () k ∧ t' = ((t.1.1, k), t.2) := by
  simp only [putch, returns_bind, returns_zoom, returns_read]
  constructor
  · rintro ⟨_, _, ⟨k, hk, rfl⟩, _, _, ⟨rfl, rfl⟩, hp⟩
    exact ⟨k, hk, (returns_pure.mp hp).2⟩
  · rintro ⟨k, hk, rfl⟩
    exact ⟨(), _, ⟨k, hk, rfl⟩, _, _, ⟨rfl, rfl⟩, returns_pure.mpr ⟨rfl, rfl⟩⟩

def Taken (cputchar : CInt → Prog κ Unit) (k : κ) (t : (Bytes × κ) × CInt) (s : Bytes × List CInt) : Prop :=
  s.1 = t.1.1 ∧ t.2 = 0#32 ∧ Trace (fun k ch k' => Returns false (cputchar ch) k () k') k s.2 t.1.2

theorem taken_refines : Host.Refines (Taken cputchar k) (printHost cputchar) logHost where
  peek h hp := (congrFun h.1 _).trans hp
  putch ch := by
    rintro strict t s u t' ⟨hm, hz, htrace⟩ hr
    obtain ⟨k', hk, rfl⟩ := returns_printPutch.mp hr
    exact ⟨_, returns_modify.mpr rfl, hm, hz, Trace.append_iff.mpr ⟨_, htrace, Trace.single hk.loosen⟩⟩

theorem vcprintf_trace {s' : Bytes × κ} (hr : Returns st (vcprintf cputchar ro fuel fmt ap) (mem, k) r s') :
    r = 0#32 ∧ ∃ out, Emits st ro mem fmt ap out ∧
      Trace (fun k ch k' => Returns false (cputchar ch) k () k') k out s'.2 := by
  rw [returns_vcprintf] at hr
  have hstart : Taken cputchar k ((mem, k), 0#32) (mem, []) := ⟨rfl, rfl, .nil k⟩
  obtain ⟨s, hs, _, hz, htrace⟩ := taken_refines.vprintfmt (Nat.le_refl fuel) fmt ap _ _ _ _ _ hstart hr
  exact ⟨hz, s.2, ⟨fuel, s, hs, rfl⟩, htrace⟩

theorem recorded {l l' : List CInt} (h : Trace (fun k ch k' => Returns false (recordPutchar ch) k () k') l out l') :
    l' = l ++ out := by
  induction h with
  | nil l => rw [List.append_nil]
  | cons head tail ih => rw [ih, returns_modify.mp head, List.append_assoc, List.singleton_append]

theorem recorded_refines : Host.Refines (fun s t => s = t.1 ∧ t.2 = 0#32) logHost (printHost recordPutchar) where
  peek h hp := (congrFun (congrArg Prod.fst h.1) _).symm.trans hp
  putch ch := by
    rintro strict s t u s' ⟨rfl, hz⟩ hr
    obtain rfl := returns_modify.mp hr
    exact ⟨_, returns_printPutch.mpr ⟨_, returns_modify.mpr rfl, rfl⟩, rfl, hz⟩

theorem prints_iff : Prints st ro mem fmt ap log r ↔ Emits st ro mem fmt ap log ∧ r = 0#32 := by
  constructor
  · rintro ⟨fuel, mem', hr⟩
    obtain ⟨hz, out, he, htrace⟩ := vcprintf_trace hr
    have hlog := recorded htrace
    rw [List.nil_append] at hlog
    subst hlog
    exact ⟨he, hz⟩
  · rintro ⟨⟨fuel, s, hs, rfl⟩, rfl⟩
    obtain ⟨t, ht, heq, hz⟩ := recorded_refines.vprintfmt (Nat.le_refl fuel) fmt ap _ _
      ((mem, []), 0#32) _ _ ⟨rfl, rfl⟩ hs
    refine ⟨fuel, s.1, returns_vcprintf.mpr ?_⟩
    have hfinal : t = (s, 0#32) := Prod.ext heq.symm hz
    rw [hfinal] at ht
    exact ht

theorem Emits.of_hide {n : ℕ} (h : Emits st ro (hide mem buf n) fmt ap out) : Emits st ro mem fmt ap out := by
  apply h.mono
  intro p c hp
  rw [hide] at hp
  split at hp
  · cases hp
  · exact hp

theorem vcprintf_agrees (h0 : buf ≠ 0#32) (hn : 1 ≤ n.toInt) (hb : Buffer mem buf n.toNat)
    (he : Emits st ro (hide mem buf n.toNat) fmt ap out) (hl : out.length < n.toNat) :
    (∃ log r, Prints st ro mem fmt ap log r) ∧ (∃ r mem', Sprints st ro buf n fmt ap mem r mem') ∧
    ∀ log r r' mem', Prints st ro mem fmt ap log r → Sprints st ro buf n fmt ap mem r' mem' →
      (∀ i < log.length, mem' (buf + BitVec.ofNat 32 i) = (log[i]?).map (·.setWidth 8)) ∧
      mem' (buf + BitVec.ofNat 32 log.length) = some 0#8 ∧ r'.toInt = log.length ∧
      (∀ fuel r₁ s, Returns st (cprintf recordPutchar ro fuel fmt ap) (mem, []) r₁ s → r₁ = r ∧ s.2 = log) ∧
      r = 0#32 ∧ (r = r' ↔ Silent mem ro fmt ap) := by
  obtain ⟨_, _, hlt⟩ := toNat_of_pos hn
  have hmono := he.of_hide
  have hspec := sprints_of_emits h0 hn hb he
  refine ⟨⟨out, 0#32, prints_iff.mpr ⟨hmono, rfl⟩⟩, ⟨_, _, hspec⟩, fun log r r' mem' hp hs => ?_⟩
  obtain ⟨hlog, rfl⟩ := prints_iff.mp hp
  obtain rfl := hlog.unique hmono
  obtain ⟨rfl, rfl⟩ := hspec.unique hs
  have htrunc : Truncated mem (written mem buf (fitting n.toNat log ++ [0#8])) buf n.toNat log :=
    truncated_written (by omega)
  have hmin : min log.length (n.toNat - 1) = log.length := by omega
  have hstored := htrunc.stored
  have hnul := htrunc.nul
  rw [hmin] at hstored hnul
  refine ⟨hstored, hnul, ?_, fun fuel r₁ s hr => ?_, rfl, ?_⟩
  · rw [BitVec.toInt_eq_toNat_cond, BitVec.toNat_ofNat]
    split <;> omega
  · obtain ⟨hz, out', he', htrace⟩ := vcprintf_trace (returns_cprintf.mp hr)
    rw [recorded htrace, List.nil_append]
    exact ⟨hz, he'.unique hmono⟩
  · rw [← emits_nil_iff hmono]
    constructor
    · intro h
      have hz := congrArg BitVec.toNat h
      rw [BitVec.toNat_ofNat, BitVec.toNat_ofNat] at hz
      exact List.eq_nil_of_length_eq_zero (by omega)
    · rintro rfl
      rfl

theorem smallBytes_emits_number :
    Emits true smallRodata (hide smallBytes 0x2000#32 4) 0x1000#32 [5#32] [chr '5', chr '!'] :=
  ⟨8, _, Returns.of_eval (by decide +kernel), by decide +kernel⟩

theorem smallBytes_buffer : Buffer smallBytes 0x2000#32 4 := ⟨by decide, by decide +kernel⟩

theorem vcprintf_agrees_small : ∃ log r r' mem', Prints true smallRodata smallBytes 0x1000#32 [5#32] log r ∧
    Sprints true smallRodata 0x2000#32 4#32 0x1000#32 [5#32] smallBytes r' mem' ∧ r'.toInt = log.length := by
  obtain ⟨⟨log, r, hp⟩, ⟨r', mem', hs⟩, hall⟩ := @vcprintf_agrees true smallRodata smallBytes 0x2000#32
    0x1000#32 4#32
    [5#32] _ (by decide) (by decide) smallBytes_buffer smallBytes_emits_number (by decide)
  exact ⟨log, r, r', mem', hp, hs, (hall _ _ _ _ hp hs).2.2.1⟩

theorem not_vcprintf_agrees :
    ¬ ∀ (ro : Rodata) (buf fmt : Word) (n : CInt) (ap : List Word) (mem : Bytes) (out : List CInt),
    buf ≠ 0#32 → 1 ≤ n.toInt → Buffer mem buf n.toNat → Emits true ro (hide mem buf n.toNat) fmt ap out →
    out.length < n.toNat → ∀ log r r' mem', Prints true ro mem fmt ap log r →
      Sprints true ro buf n fmt ap mem r' mem' →
      r = r' := by
  intro h
  have he := smallBytes_emits_number
  have hr := h smallRodata 0x2000#32 0x1000#32 4#32 [5#32] smallBytes _ (by decide) (by decide) smallBytes_buffer he
    (by decide) _ 0#32 _ _ (prints_iff.mpr ⟨he.of_hide, rfl⟩)
    (sprints_of_emits (by decide) (by decide) smallBytes_buffer he)
  exact absurd hr (by decide)

end Cezos
