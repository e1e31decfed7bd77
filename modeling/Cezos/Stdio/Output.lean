import Cezos.Stdio.Snprintf

namespace Cezos

open Lib

variable {α β : Type} {st : Bool} {ro : Rodata} {mem : Bytes} {fmt p : Word} {ap : List Word}
    {s s' : Bytes × List CInt}
  {d d' : Directive} {ch : CInt} {l l' out : List CInt} {r : Word × List Word} {c : Byte} {fuel n m : ℕ}

/-! ### The host with a log -/

theorem returns_putch : Returns st (logHost.putch ch) s () s' ↔ s' = (s.1, s.2 ++ [ch]) := returns_modify

theorem returns_charAt {c : Byte} : Returns st (charAt logHost p) s c s' ↔ s.1 p = some c ∧ s' = s := by
  constructor
  · rintro ⟨clean, hx, _⟩
    simp only [charAt, logHost] at hx
    cases hp : s.1 p with
    | none => simp [hp] at hx
    | some b =>
      simp only [hp, Outcome.ret.injEq] at hx
      exact ⟨by rw [hx.1], hx.2.1.symm⟩
  · rintro ⟨hp, rfl⟩
    refine ⟨true, ?_, fun _ => rfl⟩
    simp only [charAt, logHost]
    rw [hp]

theorem returns_signedOp {w : ℕ} {r a : BitVec w} {exact : Int} (hr : Returns st (signedOp r exact) s a s') :
    a = r ∧ s' = s :=
  (returns_signed.mp hr).1

theorem signedOp_returns {w : ℕ} (r : BitVec w) (exact : Int) : Returns false (signedOp r exact) s r s :=
  returns_signed.mpr ⟨⟨rfl, rfl⟩, nofun⟩

theorem returns_vaArg {r : Word × List Word} {l : List Word} :
    Returns st (vaArg l : Prog (Bytes × List CInt) _) s r s' ↔ l = r.1 :: r.2 ∧ s' = s := by
  cases l with
  | nil =>
    constructor
    · exact fun h => absurd h returns_fault
    · rintro ⟨h, _⟩
      cases h
  | cons w ap =>
    have hp : Returns st (vaArg (w :: ap) : Prog (Bytes × List CInt) _) s r s' ↔ r = (w, ap) ∧ s' = s := returns_pure
    rw [hp, List.cons.injEq, Prod.ext_iff, eq_comm, @eq_comm _ r.2]

theorem Emits.unique {st' : Bool} {out' : List CInt} (h : Emits st ro mem fmt ap out)
    (h' : Emits st' ro mem fmt ap out') :
    out = out' := by
  obtain ⟨fuel, s, hr, rfl⟩ := h
  obtain ⟨fuel', s', hr', rfl⟩ := h'
  have heq := (vprintfmt_fuel (Nat.le_max_left fuel fuel') hr).unique
    (vprintfmt_fuel (Nat.le_max_right fuel fuel') hr')
  rw [heq.2]

theorem setWidth_eq_percent {c : Byte} : c.setWidth 32 = chr '%' ↔ c = 37#8 := by
  revert c
  decide +kernel

theorem setWidth_eq_zero {c : Byte} : c.setWidth 32 = 0#32 ↔ c = 0#8 := by
  revert c
  decide +kernel

/-! ### What a call emits -/

def Shifted (mem : Bytes) (l l' : List CInt) (s t : Bytes × List CInt) : Prop :=
  ∃ o, s = (mem, l ++ o) ∧ t = (mem, l' ++ o)

theorem shifted_refines : Host.Refines (Shifted mem l l') logHost logHost where
  peek h hp := by
    obtain ⟨o, rfl, rfl⟩ := h
    exact hp
  putch ch := by
    rintro strict s t u s' ⟨o, rfl, rfl⟩ hr
    obtain rfl := returns_modify.mp hr
    exact ⟨_, returns_modify.mpr rfl, o ++ [ch], by rw [List.append_assoc], by rw [List.append_assoc]⟩

def Blind (x : Prog (Bytes × List CInt) α) : Prop := ∀ mem l l', Forward (Shifted mem l l') x x

def Writes (x : Prog (Bytes × List CInt) α) (mem : Bytes) (a : α) (out : List CInt) : Prop :=
  ∀ l, Returns false x (mem, l) a (mem, l ++ out)

section Rules

variable {x : Prog (Bytes × List CInt) α} {f : α → Prog (Bytes × List CInt) β} {a a' : α} {b : β} {out' : List CInt}

theorem Blind.writes (hx : Blind x) (hr : Returns st x s a s') : ∃ out, s' = (s.1, s.2 ++ out) ∧
    Writes x s.1 a out := by
  obtain ⟨_, _, out, rfl, _⟩ := hx s.1 s.2 s.2 _ s s _ _ ⟨[], by rw [List.append_nil], by rw [List.append_nil]⟩ hr
  refine ⟨out, rfl, fun l => ?_⟩
  obtain ⟨t, ht, o, hs, rfl⟩ :=
    hx s.1 s.2 l _ s (s.1, l) _ _ ⟨[], by rw [List.append_nil], by rw [List.append_nil]⟩ hr
  rw [Prod.mk.injEq, List.append_cancel_left_eq] at hs
  rw [hs.2]
  exact ht.loosen

theorem Writes.unique (h : Writes x mem a out) (h' : Writes x mem a' out') : a = a' ∧ out = out' := by
  obtain ⟨ha, hs⟩ := (h []).unique (h' [])
  exact ⟨ha, (Prod.mk.inj hs).2⟩

theorem writes_bind (hx : Blind x) (hf : ∀ a, Blind (f a)) : Writes (x >>= f) mem b out ↔
    ∃ a o₁ o₂, Writes x mem a o₁ ∧ Writes (f a) mem b o₂ ∧ out = o₁ ++ o₂ := by
  constructor
  · intro h
    obtain ⟨a, s₁, h₁, h₂⟩ := returns_bind.mp (h [])
    obtain ⟨o₁, rfl, hw₁⟩ := hx.writes h₁
    obtain ⟨o₂, hs, hw₂⟩ := (hf a).writes h₂
    exact ⟨a, o₁, o₂, hw₁, hw₂, (Prod.mk.inj hs).2⟩
  · rintro ⟨a, o₁, o₂, h₁, h₂, rfl⟩ l
    refine returns_bind.mpr ⟨a, _, h₁ l, ?_⟩
    rw [← List.append_assoc]
    exact h₂ _

theorem writes_pure : Writes (pure a) mem a' out ↔ a' = a ∧ out = [] := by
  constructor
  · intro h
    obtain ⟨ha, hs⟩ := returns_pure.mp (h [])
    exact ⟨ha, (Prod.mk.inj hs).2⟩
  · rintro ⟨rfl, rfl⟩ l
    exact returns_pure.mpr ⟨rfl, by rw [List.append_nil]⟩

theorem writes_ite {q : Prop} [Decidable q] {y : Prog (Bytes × List CInt) α} :
    Writes (if q then x else y) mem a out ↔ (q ∧ Writes x mem a out) ∨ (¬ q ∧ Writes y mem a out) := by
  by_cases hq : q <;> simp [hq]

theorem not_writes_fault : ¬ Writes (Prog.fault : Prog _ α) mem a out := fun h => returns_fault (h [])

theorem not_writes_spin : ¬ Writes (Prog.spin : Prog _ α) mem a out := fun h => returns_spin (h [])

theorem writes_putch {u : Unit} : Writes (logHost.putch ch) mem u out ↔ out = [ch] := by
  constructor
  · intro h
    exact (Prod.mk.inj (returns_putch.mp (h []))).2
  · rintro rfl l
    exact returns_putch.mpr rfl

theorem writes_charAt : Writes (charAt logHost p) mem c out ↔ mem p = some c ∧ out = [] := by
  constructor
  · intro h
    obtain ⟨hc, hs⟩ := returns_charAt.mp (h [])
    exact ⟨hc, (Prod.mk.inj hs).2⟩
  · rintro ⟨hc, rfl⟩ l
    exact returns_charAt.mpr ⟨hc, by rw [List.append_nil]⟩

theorem writes_signedOp {w : ℕ} {x y : BitVec w} {exact : Int} : Writes (signedOp x exact) mem y out ↔ y = x ∧
    out = [] := by
  constructor
  · intro h
    obtain ⟨hy, hs⟩ := returns_signedOp (h [])
    exact ⟨hy, (Prod.mk.inj hs).2⟩
  · rintro ⟨rfl, rfl⟩ l
    rw [List.append_nil]
    exact signedOp_returns _ _

theorem writes_vaArg : Writes (vaArg ap) mem r out ↔ ap = r.1 :: r.2 ∧ out = [] := by
  constructor
  · intro h
    obtain ⟨hr, hs⟩ := returns_vaArg.mp (h [])
    exact ⟨hr, (Prod.mk.inj hs).2⟩
  · rintro ⟨hr, rfl⟩ l
    exact returns_vaArg.mpr ⟨hr, by rw [List.append_nil]⟩

end Rules

namespace Blind

theorem pure (a : α) : Blind (Pure.pure a : Prog (Bytes × List CInt) α) := fun _ _ _ => .pure a

theorem bind {x : Prog (Bytes × List CInt) α} {f : α → Prog (Bytes × List CInt) β} (hx : Blind x)
    (hf : ∀ a, Blind (f a)) :
    Blind (x >>= f) := fun mem l l' => (hx mem l l').bind (fun a => hf a mem l l')

theorem putch (ch : CInt) : Blind (logHost.putch ch) := fun _ _ _ => shifted_refines.putch ch

theorem charAt (p : Word) : Blind (charAt logHost p) := fun _ _ _ => shifted_refines.charAt p

theorem signedOp {w : ℕ} (x : BitVec w) (exact : Int) : Blind (signedOp x exact) :=
    fun _ _ _ => forward_signedOp x exact

theorem vaArg (ap : List Word) : Blind (vaArg ap) := fun _ _ _ => forward_vaArg ap

theorem getint (ap : List Word) (lflag : CInt) : Blind (getint ap lflag) := fun _ _ _ => forward_getint ap lflag

theorem getuint (ap : List Word) (lflag : CInt) : Blind (getuint ap lflag) := fun _ _ _ => forward_getuint ap lflag

theorem pad (ch width : CInt) : Blind (pad logHost ch width) := fun _ _ _ => shifted_refines.pad ch width

theorem printnum (n : ℕ) (num : BitVec 64) (base : Word) (width padc : CInt) :
    Blind (printnum logHost n num base width padc) :=
  fun _ _ _ => shifted_refines.printnum n num base width padc

theorem digits (n : ℕ) (fmt : Word) (precision ch : CInt) : Blind (digits logHost n fmt precision ch) :=
  fun _ _ _ => shifted_refines.digits (Nat.le_refl n) fmt precision ch

theorem rewind (n : ℕ) (fmt : Word) : Blind (rewind logHost n fmt) :=
    fun _ _ _ => shifted_refines.rewind (Nat.le_refl n) fmt

theorem putString (n : ℕ) (d : Directive) (p : Word) : Blind (putString logHost n d p) :=
  fun _ _ _ => shifted_refines.putString (Nat.le_refl n) d p

theorem putDecimal (d : Directive) (num : BitVec 64) : Blind (putDecimal logHost d num) :=
  fun _ _ _ => shifted_refines.putDecimal d num

theorem vprintfmt (n : ℕ) (fmt : Word) (ap : List Word) : Blind (vprintfmt logHost ro n fmt ap) :=
  fun _ _ _ => shifted_refines.vprintfmt (Nat.le_refl n) fmt ap

theorem convert (n : ℕ) (token : Token) (ch : CInt) (d : Directive) :
    Blind (convert logHost ro (fun fmt ap => Cezos.vprintfmt logHost ro n fmt ap) n token ch d) :=
  fun mem l l' => shifted_refines.convert (fun fmt ap => vprintfmt n fmt ap mem l l') (Nat.le_refl n) token ch d

theorem reswitch (n k : ℕ) (d : Directive) :
    Blind (reswitch logHost ro (fun fmt ap => Cezos.vprintfmt logHost ro n fmt ap) n k d) :=
  fun mem l l' => shifted_refines.reswitch (fun fmt ap => vprintfmt n fmt ap mem l l') (Nat.le_refl n)
    (Nat.le_refl k) d

end Blind

theorem writes_putch_bind {α : Type} {x : Prog (Bytes × List CInt) α} {a : α} (hx : Blind x) :
    Writes (logHost.putch ch >>= fun _ => x) mem a out ↔ ∃ o, out = ch :: o ∧ Writes x mem a o := by
  rw [writes_bind (.putch _) (fun _ => hx)]
  simp only [writes_putch]
  constructor
  · rintro ⟨_, _, o, rfl, hw, rfl⟩
    exact ⟨o, rfl, hw⟩
  · rintro ⟨o, rfl, hw⟩
    exact ⟨(), _, o, rfl, hw, rfl⟩

/-! ### More fuel -/

theorem Writes.of_forward {x y : Prog (Bytes × List CInt) α} {a : α} (hxy : Forward Eq x y)
    (h : Writes x mem a out) :
    Writes y mem a out := by
  intro l
  obtain ⟨_, hr, rfl⟩ := hxy _ _ _ _ _ rfl (h l)
  exact hr

theorem forward_vprintfmt (hle : n ≤ m) (fmt : Word) (ap : List Word) :
    Forward Eq (vprintfmt logHost ro n fmt ap) (vprintfmt logHost ro m fmt ap) :=
  (Host.Refines.refl logHost).vprintfmt hle fmt ap

theorem forward_reswitch {k j : ℕ} (hle : n ≤ m) (hkj : k ≤ j) (d : Directive) :
    Forward Eq (reswitch logHost ro (fun fmt ap => vprintfmt logHost ro n fmt ap) n k d)
      (reswitch logHost ro (fun fmt ap => vprintfmt logHost ro m fmt ap) m j d) :=
  (Host.Refines.refl logHost).reswitch (forward_vprintfmt hle) hle hkj d

/-! ### One turn of the formatter -/

theorem emits_iff_writes : Emits false ro mem fmt ap out ↔
    ∃ fuel, Writes (vprintfmt logHost ro fuel fmt ap) mem () out := by
  constructor
  · rintro ⟨fuel, s, hr, rfl⟩
    obtain ⟨out, rfl, hw⟩ := (Blind.vprintfmt fuel fmt ap).writes hr
    exact ⟨fuel, hw⟩
  · rintro ⟨fuel, hw⟩
    exact ⟨fuel, _, hw [], rfl⟩

def Scans (mem : Bytes) (ro : Rodata) (d : Directive) (r : Word × List Word) (out : List CInt) : Prop :=
  ∃ fuel n, Writes (reswitch logHost ro (fun fmt ap => vprintfmt logHost ro fuel fmt ap) fuel n d) mem r out

def Converts (mem : Bytes) (ro : Rodata) (token : Token) (ch : CInt) (d : Directive) (r : Word × List Word)
    (out : List CInt) :
    Prop := ∃ fuel, Writes (convert logHost ro (fun fmt ap => vprintfmt logHost ro fuel fmt ap) fuel token ch d)
      mem r out

theorem writes_vprintfmt : Writes (vprintfmt logHost ro (fuel + 1) fmt ap) mem () out ↔ ∃ c, mem fmt = some c ∧
    ((c = 37#8 ∧ ∃ r o₁ o₂,
        Writes (reswitch logHost ro (fun fmt ap => vprintfmt logHost ro fuel fmt ap) fuel fuel
          (.start (fmt + 1#32) ap)) mem r o₁ ∧
        Writes (vprintfmt logHost ro fuel r.1 r.2) mem () o₂ ∧ out = o₁ ++ o₂) ∨
      (c = 0#8 ∧ out = []) ∨
      (c ≠ 37#8 ∧ c ≠ 0#8 ∧ ∃ o, Writes (vprintfmt logHost ro fuel (fmt + 1#32) ap) mem () o ∧
      out = c.setWidth 32 :: o)) := by
  have hdirective : ∀ o, Writes (reswitch logHost ro (fun fmt ap => vprintfmt logHost ro fuel fmt ap) fuel fuel
      (.start (fmt + 1#32) ap) >>= fun r => vprintfmt logHost ro fuel r.1 r.2) mem () o ↔ _ :=
    fun o => writes_bind (.reswitch fuel fuel _) (fun r => .vprintfmt fuel _ _)
  have hrest : ∀ c, Blind (if (c : Byte).setWidth 32 = chr '%' then
      reswitch logHost ro (fun fmt ap => vprintfmt logHost ro fuel fmt ap) fuel fuel
        (.start (fmt + 1#32) ap) >>= fun r =>
        vprintfmt logHost ro fuel r.1 r.2
    else if c.setWidth 32 = 0#32 then return ()
    else do
      logHost.putch (c.setWidth 32)
      vprintfmt logHost ro fuel (fmt + 1#32) ap) := by
    intro c mem l l'
    refine .ite ((Blind.reswitch fuel fuel _ mem l l').bind (fun r => Blind.vprintfmt fuel _ _ mem l l'))
      (.ite (.pure _) ?_)
    exact (Blind.putch _ mem l l').bind (fun _ => Blind.vprintfmt fuel _ _ mem l l')
  rw [vprintfmt, writes_bind (.charAt fmt) hrest]
  simp only [writes_charAt, writes_ite, hdirective, writes_pure, writes_putch_bind (.vprintfmt fuel _ _),
    setWidth_eq_percent,
    setWidth_eq_zero]
  constructor
  · rintro ⟨c, _, o, ⟨hc, rfl⟩, ⟨hp, hturn⟩ | ⟨hp, ⟨hz, _, ho⟩ | ⟨hz, o, rfl, hrun⟩⟩, rfl⟩
    · exact ⟨c, hc, Or.inl ⟨hp, hturn⟩⟩
    · exact ⟨c, hc, Or.inr (Or.inl ⟨hz, ho⟩)⟩
    · exact ⟨c, hc, Or.inr (Or.inr ⟨hp, hz, o, hrun, rfl⟩)⟩
  · rintro ⟨c, hc, ⟨hp, hturn⟩ | ⟨rfl, rfl⟩ | ⟨hp, hz, o, hrun, rfl⟩⟩
    · exact ⟨c, [], out, ⟨hc, rfl⟩, Or.inl ⟨hp, hturn⟩, rfl⟩
    · exact ⟨0#8, [], [], ⟨hc, rfl⟩, Or.inr ⟨by decide, Or.inl ⟨rfl, trivial, rfl⟩⟩, rfl⟩
    · exact ⟨c, [], _, ⟨hc, rfl⟩, Or.inr ⟨hp, Or.inr ⟨hz, o, rfl, hrun⟩⟩, rfl⟩

theorem emits_turn : Emits false ro mem fmt ap out ↔ ∃ c, mem fmt = some c ∧
    ((c = 37#8 ∧ ∃ r o₁ o₂, Scans mem ro (.start (fmt + 1#32) ap) r o₁ ∧ Emits false ro mem r.1 r.2 o₂ ∧
    out = o₁ ++ o₂) ∨
      (c = 0#8 ∧ out = []) ∨
      (c ≠ 37#8 ∧ c ≠ 0#8 ∧ ∃ o, Emits false ro mem (fmt + 1#32) ap o ∧ out = c.setWidth 32 :: o)) := by
  simp only [emits_iff_writes]
  constructor
  · rintro ⟨fuel, hw⟩
    cases fuel with
    | zero => exact absurd hw not_writes_spin
    | succ fuel =>
      obtain ⟨c, hc, ⟨hp, r, o₁, o₂, hs, hrun, hout⟩ | hstop | ⟨hp, hz, o, hrun, hout⟩⟩ := writes_vprintfmt.mp hw
      · exact ⟨c, hc, Or.inl ⟨hp, r, o₁, o₂, ⟨fuel, fuel, hs⟩, ⟨fuel, hrun⟩, hout⟩⟩
      · exact ⟨c, hc, Or.inr (Or.inl hstop)⟩
      · exact ⟨c, hc, Or.inr (Or.inr ⟨hp, hz, o, ⟨fuel, hrun⟩, hout⟩)⟩
  · rintro ⟨c, hc, ⟨hp, r, o₁, o₂, ⟨f₁, n₁, hs⟩, ⟨f₂, hrun⟩, hout⟩ | hstop | ⟨hp, hz, o, ⟨fuel, hrun⟩, hout⟩⟩
    · -- the fuel of the directive and that of the rest
      refine ⟨max (max f₁ n₁) f₂ + 1, writes_vprintfmt.mpr ⟨c, hc, Or.inl ⟨hp, r, o₁, o₂, ?_, ?_, hout⟩⟩⟩
      · exact hs.of_forward (forward_reswitch (by omega) (by omega) _)
      · exact hrun.of_forward (forward_vprintfmt (by omega) _ _)
    · exact ⟨1, writes_vprintfmt.mpr ⟨c, hc, Or.inr (Or.inl hstop)⟩⟩
    · exact ⟨fuel + 1, writes_vprintfmt.mpr ⟨c, hc, Or.inr (Or.inr ⟨hp, hz, o, hrun, hout⟩)⟩⟩

theorem emits_stop (hc : mem fmt = some 0#8) : Emits false ro mem fmt ap out ↔ out = [] := by
  rw [emits_turn]
  simp [hc]

theorem emits_text (hc : mem fmt = some c) (hp : c ≠ 37#8) (hz : c ≠ 0#8) :
    Emits false ro mem fmt ap out ↔ ∃ o, Emits false ro mem (fmt + 1#32) ap o ∧ out = c.setWidth 32 :: o := by
  rw [emits_turn]
  simp [hc, hp, hz]

theorem emits_percent (hc : mem fmt = some 37#8) : Emits false ro mem fmt ap out ↔
    ∃ r o₁ o₂, Scans mem ro (.start (fmt + 1#32) ap) r o₁ ∧ Emits false ro mem r.1 r.2 o₂ ∧ out = o₁ ++ o₂ := by
  rw [emits_turn]
  simp [hc]

/-! ### One turn of a directive -/

def FlagStep (mem : Bytes) (ch : CInt) (d d' : Directive) : Prop :=
  match tokenOf ch with
  | .minus => d' = { d with padc := chr '-' }
  | .zero => d' = { d with padc := chr '0' }
  | .digit =>
      ∃ fuel fmt precision, Returns false (digits logHost fuel d.fmt 0#32 ch) (mem, []) (fmt, precision) (mem, []) ∧
      d' = { d with fmt := fmt, precision := precision }.processPrecision
  | .star =>
      ∃ precision ap, d.ap = precision :: ap ∧ d' = { d with ap := ap, precision := precision }.processPrecision
  | .dot => d' = { d with width := if d.width.toInt < 0 then 0#32 else d.width }
  | .alt => d' = { d with altflag := true }
  | .long => d' = { d with lflag := d.lflag + 1#32 }
  | _ => False

theorem digits_state {precision : CInt} {r : Word × CInt}
    (hr : Returns st (digits logHost n fmt precision ch) s r s') :
    s' = s ∧ Returns false (digits logHost n fmt precision ch) (s.1, []) r (s.1, []) := by
  induction n generalizing fmt precision ch s with
  | zero => exact absurd hr returns_spin
  | succ n ih =>
    simp only [digits, signedMul, signedAdd, signedSub, returns_bind, returns_ite] at hr ⊢
    obtain ⟨_, s₁, h₁, _, s₂, h₂, _, s₃, h₃, c, s₄, h₄, hr⟩ := hr
    obtain ⟨rfl, rfl⟩ := returns_signedOp h₁
    obtain ⟨rfl, rfl⟩ := returns_signedOp h₂
    obtain ⟨rfl, rfl⟩ := returns_signedOp h₃
    obtain ⟨hc, rfl⟩ := returns_charAt.mp h₄
    have hchar : Returns false (charAt logHost fmt) (s₄.1, []) c (s₄.1, []) := returns_charAt.mpr ⟨hc, rfl⟩
    rcases hr with ⟨hd, hr⟩ | ⟨hd, hr⟩
    · obtain ⟨rfl, rfl⟩ := returns_pure.mp hr
      exact ⟨rfl, _, _, signedOp_returns _ _, _, _, signedOp_returns _ _, _, _, signedOp_returns _ _, c, _, hchar,
        Or.inl ⟨hd, returns_pure.mpr ⟨rfl, rfl⟩⟩⟩
    · obtain ⟨rfl, hrest⟩ := ih hr
      exact ⟨rfl, _, _, signedOp_returns _ _, _, _, signedOp_returns _ _, _, _, signedOp_returns _ _, c, _, hchar,
        Or.inr ⟨hd, hrest⟩⟩

def Token.isFlag : Token → Bool
  | .minus | .zero | .digit | .star | .dot | .alt | .long => true
  | _ => false

def turn (ro : Rodata) (fuel n : ℕ) (token : Token) (ch : CInt) (d : Directive) :
    Prog (Bytes × List CInt) (Word × List Word) :=
  match token with
  | .minus => reswitch logHost ro (fun fmt ap => vprintfmt logHost ro fuel fmt ap) fuel n { d with padc := chr '-' }
  | .zero => reswitch logHost ro (fun fmt ap => vprintfmt logHost ro fuel fmt ap) fuel n { d with padc := chr '0' }
  | .digit => do
    let (fmt, precision) ← digits logHost fuel d.fmt 0#32 ch
    reswitch logHost ro (fun fmt ap => vprintfmt logHost ro fuel fmt ap) fuel n
      { d with fmt := fmt, precision := precision }.processPrecision
  | .star => do
    let (precision, ap) ← vaArg d.ap
    reswitch logHost ro (fun fmt ap => vprintfmt logHost ro fuel fmt ap) fuel n
      { d with ap := ap, precision := precision }.processPrecision
  | .dot => reswitch logHost ro (fun fmt ap => vprintfmt logHost ro fuel fmt ap) fuel n
      { d with width := if d.width.toInt < 0 then 0#32 else d.width }
  | .alt => reswitch logHost ro (fun fmt ap => vprintfmt logHost ro fuel fmt ap) fuel n { d with altflag := true }
  | .long => do
    let lflag ← signedAdd d.lflag 1#32
    reswitch logHost ro (fun fmt ap => vprintfmt logHost ro fuel fmt ap) fuel n { d with lflag := lflag }
  | token => convert logHost ro (fun fmt ap => vprintfmt logHost ro fuel fmt ap) fuel token ch d

theorem writes_reswitch (hc : mem d.fmt = some c) :
    Writes (reswitch logHost ro (fun fmt ap => vprintfmt logHost ro fuel fmt ap) fuel (n + 1) d) mem r out ↔
      Writes (turn ro fuel n (tokenOf (c.setWidth 32)) (c.setWidth 32) { d with fmt := d.fmt + 1#32 }) mem r
        out := by
  have hturn : ∀ l s',
    Returns false (reswitch logHost ro (fun fmt ap => vprintfmt logHost ro fuel fmt ap) fuel (n + 1) d)
    (mem, l) r s' ↔
      Returns false (turn ro fuel n (tokenOf (c.setWidth 32)) (c.setWidth 32) { d with fmt := d.fmt + 1#32 })
        (mem, l) r s' := by
    intro l s'
    rw [reswitch, returns_bind]
    constructor
    · rintro ⟨c', _, hchar, hr⟩
      obtain ⟨hc', rfl⟩ := returns_charAt.mp hchar
      obtain rfl : c = c' := Option.some.inj (hc.symm.trans hc')
      unfold turn
      cases hk : tokenOf (c.setWidth 32) <;> simpa only [hk] using hr
    · intro hr
      refine ⟨c, _, returns_charAt.mpr ⟨hc, rfl⟩, ?_⟩
      unfold turn at hr
      cases hk : tokenOf (c.setWidth 32) <;> simpa only [hk] using hr
  exact forall_congr' (fun l => hturn l _)

theorem digits_writes {precision : CInt} {v : Word × CInt} : Writes (digits logHost n fmt precision ch) mem v out ↔
    Returns false (digits logHost n fmt precision ch) (mem, []) v (mem, []) ∧ out = [] := by
  constructor
  · intro h
    obtain ⟨hs, hr⟩ := digits_state (h [])
    exact ⟨hr, (Prod.mk.inj hs).2⟩
  · rintro ⟨hr, rfl⟩
    obtain ⟨o, hs, hw⟩ := (Blind.digits _ _ _ _).writes hr
    obtain rfl : [] = o := (Prod.mk.inj hs).2
    exact hw

theorem turn_flag {token : Token} (ht : token.isFlag = true) (hch : tokenOf ch = token) :
    Writes (turn ro fuel n token ch d) mem r out → ∃ d', FlagStep mem ch d d' ∧
      Writes (reswitch logHost ro (fun fmt ap => vprintfmt logHost ro fuel fmt ap) fuel n d') mem r out := by
  intro hw
  unfold FlagStep
  rw [hch]
  cases token with
  | minus | zero | dot | alt => exact ⟨_, rfl, hw⟩
  | long =>
    rw [turn, signedAdd, writes_bind (.signedOp _ _) (fun _ => .reswitch _ _ _)] at hw
    obtain ⟨lflag, o₁, o₂, hl, hw, rfl⟩ := hw
    obtain ⟨rfl, rfl⟩ := writes_signedOp.mp hl
    exact ⟨_, rfl, hw⟩
  | star =>
    rw [turn, writes_bind (.vaArg _) (fun _ => .reswitch _ _ _)] at hw
    obtain ⟨⟨precision, ap⟩, o₁, o₂, hget, hw, rfl⟩ := hw
    obtain ⟨ha, rfl⟩ := writes_vaArg.mp hget
    exact ⟨_, ⟨precision, ap, ha, rfl⟩, hw⟩
  | digit =>
    rw [turn, writes_bind (.digits _ _ _ _) (fun _ => .reswitch _ _ _)] at hw
    obtain ⟨⟨fmt, precision⟩, o₁, o₂, hread, hw, rfl⟩ := hw
    obtain ⟨hd, rfl⟩ := digits_writes.mp hread
    exact ⟨_, ⟨fuel, fmt, precision, hd, rfl⟩, hw⟩
  | char | error | string | decimal | unsigned | octal | pointer | hex | percent | other => cases ht

theorem flag_turn {token : Token} (ht : token.isFlag = true) (hch : tokenOf ch = token) (hs : FlagStep mem ch d d')
    (hw : Writes (reswitch logHost ro (fun fmt ap => vprintfmt logHost ro fuel fmt ap) fuel n d') mem r out) :
    ∃ m, Writes (turn ro m n token ch d) mem r out := by
  unfold FlagStep at hs
  rw [hch] at hs
  cases token with
  | minus | zero | dot | alt =>
    obtain rfl := hs
    exact ⟨fuel, hw⟩
  | long =>
    obtain rfl := hs
    refine ⟨fuel, ?_⟩
    rw [turn, signedAdd, writes_bind (.signedOp _ _) (fun _ => .reswitch _ _ _)]
    exact ⟨_, [], out, writes_signedOp.mpr ⟨rfl, rfl⟩, hw, rfl⟩
  | star =>
    obtain ⟨precision, ap, ha, rfl⟩ := hs
    refine ⟨fuel, ?_⟩
    rw [turn, writes_bind (.vaArg _) (fun _ => .reswitch _ _ _)]
    exact ⟨(precision, ap), [], out, writes_vaArg.mpr ⟨ha, rfl⟩, hw, rfl⟩
  | digit =>
    obtain ⟨k, fmt, precision, hd, rfl⟩ := hs
    refine ⟨max fuel k, ?_⟩
    have hd' : Writes (digits logHost (max fuel k) d.fmt 0#32 ch) mem (fmt, precision) [] :=
      (digits_writes.mpr ⟨hd, rfl⟩).of_forward ((Host.Refines.refl logHost).digits (Nat.le_max_right _ _) _ _ _)
    rw [turn, writes_bind (.digits _ _ _ _) (fun _ => .reswitch _ _ _)]
    exact ⟨(fmt, precision), [], out, hd',
      hw.of_forward (forward_reswitch (Nat.le_max_left _ _) (Nat.le_refl _) _), rfl⟩
  | char | error | string | decimal | unsigned | octal | pointer | hex | percent | other => cases ht

theorem scans_flag (hc : mem d.fmt = some c) (ht : (tokenOf (c.setWidth 32)).isFlag = true) : Scans mem ro d r out ↔
    ∃ d', FlagStep mem (c.setWidth 32) { d with fmt := d.fmt + 1#32 } d' ∧ Scans mem ro d' r out := by
  constructor
  · rintro ⟨fuel, n, hw⟩
    cases n with
    | zero => exact absurd hw not_writes_spin
    | succ n =>
      obtain ⟨d', hs, hw⟩ := turn_flag ht rfl ((writes_reswitch hc).mp hw)
      exact ⟨d', hs, fuel, n, hw⟩
  · rintro ⟨d', hs, fuel, n, hw⟩
    obtain ⟨m, hw⟩ := flag_turn ht rfl hs hw
    exact ⟨m, n + 1, (writes_reswitch hc).mpr hw⟩

theorem reswitch_char (hw : Writes
    (reswitch logHost ro (fun fmt ap => vprintfmt logHost ro fuel fmt ap) fuel (n + 1) d) mem r out) :
    ∃ c, mem d.fmt = some c := by
  obtain ⟨c, _, hchar, _⟩ := returns_bind.mp (hw [])
  exact ⟨c, (returns_charAt.mp hchar).1⟩

theorem writes_convert (hc : mem d.fmt = some c) (ht : (tokenOf (c.setWidth 32)).isFlag = false) :
    Writes (reswitch logHost ro (fun fmt ap => vprintfmt logHost ro fuel fmt ap) fuel (n + 1) d) mem r out ↔
      Writes (convert logHost ro (fun fmt ap => vprintfmt logHost ro fuel fmt ap) fuel (tokenOf (c.setWidth 32))
        (c.setWidth 32)
        { d with fmt := d.fmt + 1#32 }) mem r out := by
  rw [writes_reswitch hc]
  cases hk : tokenOf (c.setWidth 32) with
  | minus | zero | digit | star | dot | alt | long =>
    rw [hk] at ht
    cases ht
  | char | error | string | decimal | unsigned | octal | pointer | hex | percent | other => exact Iff.rfl

theorem scans_convert (hc : mem d.fmt = some c) (ht : (tokenOf (c.setWidth 32)).isFlag = false) :
    Scans mem ro d r out ↔
    Converts mem ro (tokenOf (c.setWidth 32)) (c.setWidth 32) { d with fmt := d.fmt + 1#32 } r out := by
  constructor
  · rintro ⟨fuel, n, hw⟩
    cases n with
    | zero => exact absurd hw not_writes_spin
    | succ n => exact ⟨fuel, (writes_convert hc ht).mp hw⟩
  · rintro ⟨fuel, hw⟩
    exact ⟨fuel, 1, (writes_convert hc ht).mpr hw⟩

end Cezos
