import Cezos.Lib.Appends
import Cezos.Console.Scrollback

namespace Cezos

open Lib

variable {s s' : Console} {p : BitVec 16} {port c : CInt} {b : Byte} {depth : ℕ} {cs : List CInt}

def serialData : BitVec 16 := (com1 + comTx).setWidth 16

def parallelData : BitVec 16 := 0x378#16

def Console.sent (p : BitVec 16) (s : Console) : List Byte :=
  s.outs.filterMap (fun o => if o.1 = p then some o.2 else none)

def Console.Apart (p : BitVec 16) (s : Console) : Prop := s.port.setWidth 16 ≠ p ∧ (s.port + 1#32).setWidth 16 ≠ p

instance : Decidable (s.Apart p) := inferInstanceAs (Decidable (_ ∧ _))

theorem outb_appends (hI : p ≠ port.setWidth 16) : Appends (Console.Apart p) (Console.sent p) (outb port b) [] := by
  refine .modify (fun s hs => hs) (fun s => ?_)
  change List.filterMap _ (s.outs ++ [(port.setWidth 16, b)]) = _
  rw [List.filterMap_append, List.filterMap_cons, if_neg hI.symm, List.filterMap_nil]
  rfl

theorem outb_sends (hp : port.setWidth 16 = p) : Appends (Console.Apart p) (Console.sent p) (outb port b) [b] := by
  refine .modify (fun s hs => hs) (fun s => ?_)
  change List.filterMap _ (s.outs ++ [(port.setWidth 16, b)]) = _
  rw [List.filterMap_append, List.filterMap_cons, if_pos hp, List.filterMap_nil]
  rfl

theorem wait_appends {mask : Byte} : Appends (Console.Apart p) (Console.sent p) (Prog.whileSome (fun i => do
    let status ← inb port
    if status &&& mask = 0#8 ∧ i < 12800 then do
      delay
      return some (i + 1)
    else return none) 12801 0) [] := by
  apply Appends.of_keeps (keeps_wait (f := fun s => (s.outs, s.port)) fun _ _ => rfl)
  · intro s s' hkeep hs
    have hport : s'.port = s.port := (Prod.mk.inj hkeep).2
    rwa [Console.Apart, hport]
  · intro s s' hkeep
    have houts : s'.outs = s.outs := (Prod.mk.inj hkeep).1
    rw [Console.sent, houts, Console.sent]

theorem devices_send (hp : p = serialData ∨ p = parallelData) : Appends (Console.Apart p) (Console.sent p)
    (serialPutc c >>= fun _ => lptPutc c) [c.setWidth 8] := by
  rcases hp with rfl | rfl
  · have hserial : Appends (Console.Apart serialData) (Console.sent serialData) (serialPutc c) [c.setWidth 8] :=
      wait_appends.quiet (fun _ => outb_sends (by decide))
    refine hserial.bind (fun _ => wait_appends.quiet (fun _ => ?_))
    exact (outb_appends (by decide)).quiet
      (fun _ => (outb_appends (by decide)).quiet (fun _ => outb_appends (by decide)))
  · have hserial : Appends (Console.Apart parallelData) (Console.sent parallelData) (serialPutc c) [] :=
      wait_appends.quiet (fun _ => outb_appends (by decide))
    refine hserial.quiet (fun _ => wait_appends.quiet (fun _ => ?_))
    have hdata : Appends (Console.Apart parallelData) (Console.sent parallelData)
      (outb (0x378#32 + 0#32) (c.setWidth 8))
      [c.setWidth 8] := outb_sends (by decide)
    exact hdata.bind (fun _ => (outb_appends (by decide)).quiet (fun _ => outb_appends (by decide)))

theorem setPos_appends {pos : BitVec 16} :
    Appends (Console.Apart p) (Console.sent p) (Prog.modify (·.setPos pos)) [] :=
  .modify (fun _ hs => hs) (fun _ => (List.append_nil _).symm)

theorem setCell_appends {k : ℕ} {w : BitVec 16} : Appends (Console.Apart p) (Console.sent p) (setCell k w) [] :=
  (Appends.check _).quiet (fun _ => .modify (fun _ hs => hs) (fun _ => (List.append_nil _).symm))

theorem cgaScroll_appends : Appends (Console.Apart p) (Console.sent p) cgaScroll [] := by
  refine (Appends.read _).quiet (fun pos => .ite ?_ (.pure ()))
  refine (Appends.forUp (fun k => ?_) 0 _).quiet (fun _ => ?_)
  · exact (Appends.check _).quiet (fun _ => .modify (fun _ hs => hs) (fun _ => (List.append_nil _).symm))
  · exact (Appends.forUp (fun k => setCell_appends) _ _).quiet (fun _ => setPos_appends)

theorem cgaCursor_appends : Appends (Console.Apart p) (Console.sent p) cgaCursor [] := by
  refine .read_bind (fun s hs => ?_)
  refine (outb_appends hs.1.symm).quiet (fun _ => (outb_appends hs.2.symm).quiet (fun _ => ?_))
  exact (outb_appends hs.1.symm).quiet (fun _ => outb_appends hs.2.symm)

theorem cgaSwitch_appends {putc : CInt → Con Unit} (hc : c &&& 0xFF#32 ≠ chr '\t') :
    Appends (Console.Apart p) (Console.sent p) (cgaSwitch putc c) [] := by
  refine (Appends.read _).quiet (fun pos => .ite ?_ (.ite setPos_appends (.ite setPos_appends ?_)))
  · exact .ite (setPos_appends.quiet (fun _ => setCell_appends)) (.pure ())
  · rw [if_neg hc]
    exact setCell_appends.quiet (fun _ => setPos_appends)

theorem withAttr_low : withAttr c &&& 0xFF#32 = c &&& 0xFF#32 := by
  unfold withAttr
  split
  · rw [BitVec.and_or_distrib_right, show (0x0700#32 &&& 0xFF#32 : CInt) = 0#32 by decide, BitVec.or_zero]
  · rfl

/-- The bytes that `cputchar` sends; the blanks of a tab are sent too. -/
def putBytes (c : CInt) : List Byte :=
  c.setWidth 8 :: (if c &&& 0xFF#32 = chr '\t' then List.replicate 5 0x20#8 else [])

theorem consolePutc_appends {out : List Byte} (hp : p = serialData ∨ p = parallelData)
    (h : Appends (Console.Apart p) (Console.sent p) (cgaPutc depth c) out) :
    Appends (Console.Apart p) (Console.sent p) (consolePutc depth c) (c.setWidth 8 :: out) := by
  intro s hs
  obtain ⟨_, s₁, h₁, hI₁, hf₁⟩ := devices_send hp s hs
  obtain ⟨_, s₂, h₂, hI₂, hf₂⟩ := h s₁ hI₁
  obtain ⟨_, s₀, hserial, hlpt⟩ := returns_bind.mp h₁
  refine ⟨(), s₂, returns_bind.mpr ⟨_, s₀, hserial, returns_bind.mpr ⟨_, s₁, hlpt, h₂⟩⟩, hI₂, ?_⟩
  rw [hf₂, hf₁, List.append_assoc, List.singleton_append]

theorem cgaPutc_appends (hc : c &&& 0xFF#32 ≠ chr '\t') :
    Appends (Console.Apart p) (Console.sent p) (cgaPutc (depth + 1) c) [] := by
  have hswitch := @cgaSwitch_appends p (withAttr c) (consolePutc depth) (by rwa [withAttr_low])
  exact hswitch.quiet (fun _ => cgaScroll_appends.quiet (fun _ => cgaCursor_appends))

theorem cgaPutc_blanks (hp : p = serialData ∨ p = parallelData) (hc : c &&& 0xFF#32 = chr '\t') :
    Appends (Console.Apart p) (Console.sent p) (cgaPutc (depth + 2) c) (List.replicate 5 0x20#8) := by
  have hblank : Appends (Console.Apart p) (Console.sent p) (consolePutc (depth + 1) (chr ' ')) [0x20#8] :=
    consolePutc_appends hp (cgaPutc_appends (by decide))
  have hswitch : Appends (Console.Apart p) (Console.sent p) (cgaSwitch (consolePutc (depth + 1)) (withAttr c))
      (List.replicate 5 0x20#8) := by
    refine (Appends.read _).quiet (fun pos => ?_)
    rw [withAttr_low, hc]
    exact hblank.bind (fun _ => hblank.bind (fun _ => hblank.bind (fun _ => hblank.bind (fun _ => hblank))))
  exact hswitch.bind (fun _ => cgaScroll_appends.quiet (fun _ => cgaCursor_appends))

theorem cputchar_sends (hp : p = serialData ∨ p = parallelData) (hd : 2 ≤ depth) :
    Appends (Console.Apart p) (Console.sent p) (cputchar depth c) (putBytes c) := by
  obtain ⟨d, rfl⟩ : ∃ d, depth = d + 2 := ⟨depth - 2, by omega⟩
  unfold putBytes
  by_cases hc : c &&& 0xFF#32 = chr '\t'
  · rw [if_pos hc]
    exact consolePutc_appends hp (cgaPutc_blanks hp hc)
  · rw [if_neg hc]
    exact consolePutc_appends hp (cgaPutc_appends hc)

theorem putBytes_length : cs.length ≤ (cs.flatMap putBytes).length := by
  induction cs with
  | nil => exact Nat.le_refl _
  | cons c cs ih =>
    rw [List.flatMap_cons, List.length_append, List.length_cons, putBytes, List.length_cons]
    omega

theorem putBytes_iff : cs.flatMap putBytes = cs.map (·.setWidth 8) ↔ ∀ c ∈ cs, c &&& 0xFF#32 ≠ chr '\t' := by
  induction cs with
  | nil => simp
  | cons c cs ih =>
    rw [List.flatMap_cons, List.map_cons, List.forall_mem_cons, ← ih, putBytes, List.cons_append, List.cons.injEq]
    by_cases hc : c &&& 0xFF#32 = chr '\t'
    · refine iff_of_false (fun h => ?_) (fun h => h.1 hc)
      have hlen := congrArg List.length h.2
      have hle := @putBytes_length cs
      rw [if_pos hc, List.length_append, List.length_replicate, List.length_map] at hlen
      omega
    · rw [if_neg hc, List.nil_append]
      exact ⟨fun h => ⟨hc, h.2⟩, fun h => ⟨rfl, h.2⟩⟩

theorem cputchar_streams_iff (hd : 2 ≤ depth) (hserial : s.Apart serialData) (hparallel : s.Apart parallelData) :
    (∃ s', Trace (fun s c s' => Returns false (cputchar depth c) s () s') s cs s') ∧
    ∀ s', Trace (fun s c s' => Returns false (cputchar depth c) s () s') s cs s' →
      (s'.sent serialData = s.sent serialData ++ cs.map (·.setWidth 8) ∧
        s'.sent parallelData = s.sent parallelData ++ cs.map (·.setWidth 8) ↔
          ∀ c ∈ cs, c &&& 0xFF#32 ≠ chr '\t') := by
  obtain ⟨hex, hall⟩ := Appends.run (fun c => cputchar_sends (c := c) (Or.inl rfl) hd) hserial cs
  obtain ⟨_, hall'⟩ := Appends.run (fun c => cputchar_sends (c := c) (Or.inr rfl) hd) hparallel cs
  refine ⟨hex, fun s' hrun => ?_⟩
  rw [(hall s' hrun).2, (hall' s' hrun).2, List.append_cancel_left_eq, List.append_cancel_left_eq, and_self]
  exact putBytes_iff

theorem cputchar_streams_full : ∃ s', Trace (fun s c s' => Returns false (cputchar 2 c) s () s') fullConsole
    [chr 'A', chr '\n'] s' ∧ s'.sent serialData = [0x41#8, 0x0A#8] ∧ s'.sent parallelData = [0x41#8, 0x0A#8] := by
  have hplain : ∀ c ∈ [chr 'A', chr '\n'], c &&& 0xFF#32 ≠ chr '\t' := by
    intro c hc
    simp only [List.mem_cons, List.not_mem_nil, or_false] at hc
    rcases hc with rfl | rfl <;> decide
  obtain ⟨⟨s', hrun⟩, hall⟩ := @cputchar_streams_iff fullConsole 2 [chr 'A', chr '\n'] (Nat.le_refl 2)
    (by decide) (by decide)
  obtain ⟨hserial, hparallel⟩ := (hall s' hrun).mpr hplain
  refine ⟨s', hrun, ?_, ?_⟩
  · rw [hserial]
    decide +kernel
  · rw [hparallel]
    decide +kernel

theorem not_cputchar_streams : ¬ ∀ (depth : ℕ) (s s' : Console) (cs : List CInt), 2 ≤ depth → s.Apart serialData →
    s.Apart parallelData → Trace (fun s c s' => Returns false (cputchar depth c) s () s') s cs s' →
      s'.sent serialData = s.sent serialData ++ cs.map (·.setWidth 8) ∧
        s'.sent parallelData = s.sent parallelData ++ cs.map (·.setWidth 8) := by
  intro h
  have hd : 2 ≤ 2 := Nat.le_refl 2
  have hapart : fullConsole.Apart serialData := by decide
  obtain ⟨⟨s', hrun⟩, hall⟩ := Appends.run (fun c => cputchar_sends (c := c) (Or.inl rfl) hd) hapart [chr '\t']
  have hsent := (h 2 _ s' _ hd hapart (by decide) hrun).1
  rw [(hall s' hrun).2, List.append_cancel_left_eq, putBytes_iff] at hsent
  exact hsent (chr '\t') List.mem_cons_self (by decide)

end Cezos
