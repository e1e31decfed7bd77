import Cezos.Lib.Clean
import Cezos.Stdio.NumberField
import Cezos.Stdio.Scanner

namespace Cezos

open Lib

/-! ### The formatter for any conversions -/

section Source

variable {σ : Type} (h : Host σ)

def reswitchOn (conv : Token → CInt → Directive → Prog σ (Word × List Word)) (fuel : ℕ) :
    ℕ → Directive → Prog σ (Word × List Word)
  | 0, _ => Prog.spin
  | n + 1, d => do
    let c ← charAt h d.fmt
    let ch : CInt := c.setWidth 32
    let d := { d with fmt := d.fmt + 1#32 }
    match tokenOf ch with
    | .minus => reswitchOn conv fuel n { d with padc := chr '-' }
    | .zero => reswitchOn conv fuel n { d with padc := chr '0' }
    | .digit => do
      let (fmt, precision) ← digits h fuel d.fmt 0#32 ch
      reswitchOn conv fuel n { d with fmt := fmt, precision := precision }.processPrecision
    | .star => do
      let (precision, ap) ← vaArg d.ap
      reswitchOn conv fuel n { d with ap := ap, precision := precision }.processPrecision
    | .dot => reswitchOn conv fuel n { d with width := if d.width.toInt < 0 then 0#32 else d.width }
    | .alt => reswitchOn conv fuel n { d with altflag := true }
    | .long => do
      let lflag ← signedAdd d.lflag 1#32
      reswitchOn conv fuel n { d with lflag := lflag }
    | token => conv token ch d

def vprintfmtOn (conv : (Word → List Word → Prog σ Unit) → ℕ → Token → CInt → Directive →
    Prog σ (Word × List Word)) :
    ℕ → Word → List Word → Prog σ Unit
  | 0, _, _ => Prog.spin
  | fuel + 1, fmt, ap => do
    let c ← charAt h fmt
    let ch : CInt := c.setWidth 32
    if ch = chr '%' then
      let (fmt, ap) ← reswitchOn h (conv (fun fmt ap => vprintfmtOn conv fuel fmt ap) fuel) fuel fuel
        (.start (fmt + 1#32) ap)
      vprintfmtOn conv fuel fmt ap
    else if ch = 0#32 then
      return ()
    else
      h.putch ch
      vprintfmtOn conv fuel (fmt + 1#32) ap

variable {h} {ro : Rodata}

theorem reswitchOn_convert {printfmt : Word → List Word → Prog σ Unit} {fuel n : ℕ} {d : Directive} :
    reswitchOn h (convert h ro printfmt fuel) fuel n d = reswitch h ro printfmt fuel n d := by
  induction n generalizing d with
  | zero => rfl
  | succ n ih =>
    rw [reswitchOn, reswitch]
    apply congrArg (charAt h d.fmt >>= ·)
    funext c
    cases hk : tokenOf (c.setWidth 32) <;> simp only [hk, ih]

theorem vprintfmtOn_convert {fuel : ℕ} {fmt : Word} {ap : List Word} :
    vprintfmtOn h (convert h ro) fuel fmt ap = vprintfmt h ro fuel fmt ap := by
  induction fuel generalizing fmt ap with
  | zero => rfl
  | succ fuel ih =>
    rw [vprintfmtOn, vprintfmt]
    simp only [ih, reswitchOn_convert]

variable (h ro)

/-- The conversions, with the counters of `%s` left out of the account: they are not part of the parser of a
directive, of the
sign or of `printnum`. -/
def convertQuiet (printfmt : Word → List Word → Prog σ Unit) (fuel : ℕ) (token : Token) (ch : CInt) (d : Directive) :
    Prog σ (Word × List Word) :=
  if token = .string then Prog.quietly (convert h ro printfmt fuel token ch d)
    else convert h ro printfmt fuel token ch d

/-- `vprintfmt`; its flag tells whether the parser, the sign and `printnum` overflow. -/
def vprintfmtQuiet (fuel : ℕ) (fmt : Word) (ap : List Word) : Prog σ Unit :=
  vprintfmtOn h (convertQuiet h ro) fuel fmt ap

end Source

section Agreement

variable {σ : Type} {h : Host σ} {ro : Rodata} {fuel n : ℕ}

theorem convertQuiet_agree {f g : Word → List Word → Prog σ Unit} (hfg : ∀ fmt ap, Agree (f fmt ap) (g fmt ap))
    (token : Token)
    (ch : CInt) (d : Directive) : Agree (convertQuiet h ro f fuel token ch d) (convert h ro g fuel token ch d) := by
  have hput : ∀ err, Agree (putError ro f err) (putError ro g err) := fun err =>
    .ite (hfg _ _) (.after _ (fun _ => .ite (hfg _ _) (hfg _ _)))
  unfold convertQuiet
  cases token with
  | string => exact (Agree.refl _).quietly
  | error =>
    rw [if_neg nofun, convert, convert]
    apply Agree.after
    intro a
    apply Agree.after
    intro err
    exact (hput err).bind (fun _ => .refl _)
  | minus | zero | digit | star | dot | alt | long | char | decimal | unsigned | octal | pointer | hex | percent
    | other =>
    exact .refl _

theorem reswitchOn_agree {conv conv' : Token → CInt → Directive → Prog σ (Word × List Word)}
    (hconv : ∀ token ch d, Agree (conv token ch d) (conv' token ch d)) (d : Directive) :
    Agree (reswitchOn h conv fuel n d) (reswitchOn h conv' fuel n d) := by
  induction n generalizing d with
  | zero => exact .refl _
  | succ n ih =>
    rw [reswitchOn, reswitchOn]
    apply Agree.after
    intro c
    dsimp only
    cases tokenOf (c.setWidth 32) with
    | minus | zero | dot | alt => exact ih _
    | digit | star | long => exact .after _ (fun _ => ih _)
    | char | error | string | decimal | unsigned | octal | pointer | hex | percent | other => exact hconv _ _ _

theorem vprintfmtQuiet_agree (fmt : Word) (ap : List Word) :
    Agree (vprintfmtQuiet h ro fuel fmt ap) (vprintfmt h ro fuel fmt ap) := by
  rw [vprintfmtQuiet, ← vprintfmtOn_convert]
  induction fuel generalizing fmt ap with
  | zero => exact .refl _
  | succ fuel ih =>
    rw [vprintfmtOn, vprintfmtOn]
    apply Agree.after
    intro c
    apply Agree.ite
    · have hconv := @convertQuiet_agree σ h ro fuel _ _ ih
      exact (reswitchOn_agree hconv _).bind (fun r => ih _ _)
    · exact .ite (.refl _) (.after _ (fun _ => ih _ _))

end Agreement

/-! ### Signed operations -/

section Signed

variable {σ : Type} {s : σ} {w : ℕ}

theorem clean_signedOp {r : BitVec w} {exact : Int} : Clean (signedOp r exact : Prog σ _) s ↔ r.toInt = exact := by
  have hcheck : Returns false (Prog.check (fun _ => decide (r.toInt = exact))) s () s :=
    returns_check.mpr ⟨rfl, nofun⟩
  rw [signedOp, clean_bind hcheck, clean_check, decide_eq_true_iff]
  exact and_iff_left clean_pure

theorem bmod_eq_self {x : Int} : x.bmod 4294967296 = x ↔ -2147483648 ≤ x ∧ x ≤ 2147483647 := by
  rw [Int.bmod_def]
  split <;> omega

theorem toInt_add_eq {a b : CInt} : (a + b).toInt = a.toInt + b.toInt ↔ -2147483648 ≤ a.toInt + b.toInt ∧
    a.toInt + b.toInt ≤ 2147483647 := by
  rw [BitVec.toInt_add]
  exact bmod_eq_self

theorem toInt_sub_eq {a b : CInt} : (a - b).toInt = a.toInt - b.toInt ↔ -2147483648 ≤ a.toInt - b.toInt ∧
    a.toInt - b.toInt ≤ 2147483647 := by
  rw [BitVec.toInt_sub]
  exact bmod_eq_self

theorem toInt_mul_eq {a b : CInt} : (a * b).toInt = a.toInt * b.toInt ↔ -2147483648 ≤ a.toInt * b.toInt ∧
    a.toInt * b.toInt ≤ 2147483647 := by
  rw [BitVec.toInt_mul]
  exact bmod_eq_self

theorem toInt_neg_eq {a : BitVec w} (h : 0 < w) : (-a).toInt = -a.toInt ↔ a ≠ BitVec.intMin w := by
  constructor
  · rintro ha rfl
    have hpos : (0 : Int) < 2 ^ (w - 1) := Int.pow_pos (by decide)
    rw [BitVec.neg_intMin, BitVec.toInt_intMin_of_pos h] at ha
    omega
  · exact BitVec.toInt_neg_of_ne_intMin

end Signed

/-! ### Numerals -/

/-- Every decimal numeral in the text of a directive is at most 2147483599, after the number `k` has been read. -/
def NumeralsFit : ℕ → List Byte → Prop
  | _, [] => True
  | k, c :: cs =>
      if IsDigit c then k * 10 + (c.toNat - 48) ≤ 2147483599 ∧ NumeralsFit (k * 10 + (c.toNat - 48)) cs
        else NumeralsFit 0 cs

instance NumeralsFit.decidable : (k : ℕ) → (bs : List Byte) → Decidable (NumeralsFit k bs)
  | _, [] => isTrue trivial
  | k, c :: cs =>
    haveI := NumeralsFit.decidable (k * 10 + (c.toNat - 48)) cs
    haveI := NumeralsFit.decidable 0 cs
    inferInstanceAs (Decidable (if IsDigit c then _ ∧ _ else _))

section Directive

variable {ro : Rodata} {mem : Bytes} {fmt p q : Word} {ap ap' : List Word} {d d' : Directive} {ch : CInt}
    {l out : List CInt}
  {r : Word × List Word} {c : Byte} {bs cs body rest : List Byte} {fuel k n : ℕ}

theorem digit_toInt (h : IsDigit c) : ((c.signExtend 32 : CInt).toInt = c.toNat ∧ 48 ≤ c.toNat ∧ c.toNat ≤ 57) := by
  revert c
  decide +kernel

theorem numeral_ops {number : CInt} (hk : number.toInt = k) (hle : k ≤ 2147483599) (hc : IsDigit c) :
    (number * 10#32).toInt = number.toInt * (10#32 : CInt).toInt ∧
      (number * 10#32 + c.signExtend 32).toInt = (number * 10#32).toInt + (c.signExtend 32 : CInt).toInt ∧
      (nextDigit number c).toInt = (number * 10#32 + c.signExtend 32).toInt - (chr '0').toInt ↔
    k * 10 + (c.toNat - 48) ≤ 2147483599 := by
  have hprod : number.toInt * (10#32 : CInt).toInt = k * 10 := by rw [hk, show (10#32 : CInt).toInt = 10 by decide]
  have hzero : (chr '0').toInt = 48 := by decide
  obtain ⟨hval, hlow, hhigh⟩ := digit_toInt hc
  constructor
  · rintro ⟨hm, ha, _⟩
    have hsum := toInt_add_eq.mp ha
    omega
  · intro hfit
    have hm : (number * 10#32).toInt = number.toInt * (10#32 : CInt).toInt := toInt_mul_eq.mpr (by omega)
    have ha : (number * 10#32 + c.signExtend 32).toInt = (number * 10#32).toInt + (c.signExtend 32 : CInt).toInt :=
      toInt_add_eq.mpr (by omega)
    exact ⟨hm, ha, toInt_sub_eq.mpr (by omega)⟩

theorem nextDigit_toInt {number : CInt} (hk : number.toInt = k) (hle : k ≤ 2147483599) (hc : IsDigit c)
    (hfit : k * 10 + (c.toNat - 48) ≤ 2147483599) : (nextDigit number c).toInt = (k * 10 + (c.toNat - 48) : ℕ) := by
  have hprod : number.toInt * (10#32 : CInt).toInt = k * 10 := by rw [hk, show (10#32 : CInt).toInt = 10 by decide]
  have hzero : (chr '0').toInt = 48 := by decide
  obtain ⟨hval, hlow, hhigh⟩ := digit_toInt hc
  obtain ⟨hm, ha, hs⟩ := (numeral_ops hk hle hc).mpr hfit
  omega

theorem clean_digits_turn {number : CInt} {b : Byte} (hp : mem p = some b) (hc : IsDigit c) (hk : number.toInt = k)
    (hle : k ≤ 2147483599) : Clean (digits logHost (n + 1) p number (c.signExtend 32)) (mem, l) ↔
      k * 10 + (c.toNat - 48) ≤ 2147483599 ∧
        (IsDigit b → Clean (digits logHost n (p + 1#32) (nextDigit number c) (b.signExtend 32)) (mem, l)) := by
  have hend : ((b.signExtend 32 : CInt).toInt < (chr '0').toInt ∨
    (chr '9').toInt < (b.signExtend 32 : CInt).toInt) ↔ ¬ IsDigit b := by
    rw [IsDigit]
    omega
  rw [digits, signedMul, clean_bind (signedOp_returns _ _), signedAdd, clean_bind (signedOp_returns _ _), signedSub,
    clean_bind (signedOp_returns _ _), clean_signedOp, clean_signedOp, clean_signedOp,
      clean_then (returns_charAt.mpr ⟨hp, rfl⟩),
    ← numeral_ops hk hle hc, and_assoc, and_assoc]
  refine and_congr_right (fun _ => and_congr_right (fun _ => and_congr_right (fun _ => ?_)))
  by_cases hb : IsDigit b
  · rw [if_neg (not_not.mpr hb ∘ hend.mp)]
    exact ⟨fun h _ => h, fun h => h hb⟩
  · rw [if_pos (hend.mpr hb)]
    exact iff_of_true clean_pure (fun h => absurd h hb)

theorem clean_digits {number : CInt} (h : IsCString mem p (bs ++ cs)) (hb : ∀ c ∈ bs, IsDigit c)
    (hstop : ¬ IsDigit (cs.headD 0#8))
    (hc : IsDigit c) (hk : number.toInt = k) (hle : k ≤ 2147483599) (hn : bs.length < n) :
    Clean (digits logHost n p number (c.signExtend 32)) (mem, l) ↔ NumeralsFit k (c :: bs) := by
  obtain ⟨n, rfl⟩ : ∃ m, n = m + 1 := ⟨n - 1, by omega⟩
  rw [NumeralsFit, if_pos hc]
  induction bs generalizing p number c k n with
  | nil =>
    rw [clean_digits_turn h.next hc hk hle]
    exact and_congr_right (fun _ => iff_of_true (fun hd => absurd hd hstop) trivial)
  | cons b bs ih =>
    have hb₀ : IsDigit b := hb b List.mem_cons_self
    obtain ⟨n, rfl⟩ : ∃ m, n = m + 1 := ⟨n - 1, by rw [List.length_cons] at hn; omega⟩
    rw [clean_digits_turn h.head hc hk hle, forall_prop_of_true hb₀, NumeralsFit, if_pos hb₀]
    refine and_congr_right (fun hfit => ?_)
    exact ih h.tail (fun c hm => hb c (List.mem_cons_of_mem b hm)) hb₀ (nextDigit_toInt hk hle hc hfit) hfit n
      (by rw [List.length_cons] at hn; omega)

theorem digits_length {number : CInt} {v : Word × CInt} {s s' : Bytes × List CInt} (h : IsCString s.1 p (bs ++ cs))
    (hb : ∀ c ∈ bs, IsDigit c) (hr : Returns false (digits logHost n p number ch) s v s') : bs.length < n := by
  induction bs generalizing p number ch n with
  | nil =>
    cases n with
    | zero => exact absurd hr returns_spin
    | succ n => exact Nat.succ_pos n
  | cons b bs ih =>
    cases n with
    | zero => exact absurd hr returns_spin
    | succ n =>
      simp only [digits, signedMul, signedAdd, signedSub, returns_bind, returns_ite] at hr
      obtain ⟨_, s₁, h₁, _, s₂, h₂, _, s₃, h₃, c, s₄, h₄, hr⟩ := hr
      obtain ⟨rfl, rfl⟩ := returns_signedOp h₁
      obtain ⟨rfl, rfl⟩ := returns_signedOp h₂
      obtain ⟨rfl, rfl⟩ := returns_signedOp h₃
      obtain ⟨hc, rfl⟩ := returns_charAt.mp h₄
      obtain rfl : b = c := Option.some.inj (h.head.symm.trans hc)
      have hdigit := hb b List.mem_cons_self
      rcases hr with ⟨hend, _⟩ | ⟨_, hr⟩
      · unfold IsDigit at hdigit
        omega
      · exact Nat.succ_lt_succ (ih h.tail (fun c hm => hb c (List.mem_cons_of_mem b hm)) hr)

theorem numeralsFit_append (hb : ∀ c ∈ bs, IsDigit c) (hstop : ¬ IsDigit (cs.headD 0#8)) :
    NumeralsFit k (bs ++ cs) ↔ NumeralsFit k bs ∧ NumeralsFit 0 cs := by
  induction bs generalizing k with
  | nil =>
    refine Iff.trans ?_ (and_iff_right trivial).symm
    cases cs with
    | nil => exact Iff.rfl
    | cons c cs =>
      have hc : ¬ IsDigit c := hstop
      rw [List.nil_append, NumeralsFit, NumeralsFit, if_neg hc, if_neg hc]
  | cons b bs ih =>
    have hb₀ : IsDigit b := hb b List.mem_cons_self
    rw [List.cons_append, NumeralsFit, NumeralsFit, if_pos hb₀, if_pos hb₀,
      ih (fun c hm => hb c (List.mem_cons_of_mem b hm)), and_assoc]

theorem tokenOf_long {c : Byte} : tokenOf (c.setWidth 32) = .long ↔ c = 108#8 := by
  revert c
  decide +kernel

theorem Directive.setNumber_lflag (d : Directive) (number : CInt) : (d.setNumber number).lflag = d.lflag := by
  unfold setNumber processPrecision
  split <;> rfl

theorem numeralsFit_flag (hd : tokenOf (c.setWidth 32) ≠ .digit) : NumeralsFit 0 (c :: cs) ↔ NumeralsFit 0 cs := by
  rw [NumeralsFit]
  split
  · next hc =>
    -- only the flag 0 is a digit
    obtain rfl : c = 48#8 := by
      by_contra hne
      exact hd ((tokenOf_digit c).mpr ⟨hc, hne⟩)
    exact and_iff_right (by decide)
  · exact Iff.rfl

section Turns

variable {conv : Token → CInt → Directive → Prog (Bytes × List CInt) (Word × List Word)} {d₁ : Directive}

theorem clean_flag (hc : mem q = some c) (hd : tokenOf (c.setWidth 32) ≠ .digit) (hf : d.flag c = some ⟨d₁, none⟩) :
    Clean (reswitchOn logHost conv fuel (n + 1) { d with fmt := q }) (mem, l) ↔
      (c = 108#8 → (d.lflag + 1#32).toInt = d.lflag.toInt + 1) ∧
        Clean (reswitchOn logHost conv fuel n { d₁ with fmt := q + 1#32 }) (mem, l) := by
  rw [reswitchOn, clean_then (returns_charAt.mpr ⟨hc, rfl⟩), ← tokenOf_long]
  unfold Directive.flag at hf
  dsimp only
  cases hk : tokenOf (c.setWidth 32) with
  | digit => exact absurd hk hd
  | minus | zero | dot | alt =>
    simp only [hk, Option.some.injEq, Opts.mk.injEq, and_true] at hf
    obtain rfl := hf
    exact (and_iff_right nofun).symm
  | star =>
    simp only [hk] at hf
    cases hap : d.ap with
    | nil => simp [hap] at hf
    | cons precision ap =>
      simp only [hap, Option.some.injEq, Opts.mk.injEq, and_true] at hf
      obtain rfl := hf
      have hnext := Directive.setNumber_fmt (q := q + 1#32) { d with ap := ap } precision
      have hget : Returns true (vaArg (precision :: ap)) (mem, l) (precision, ap) (mem, l) :=
        returns_vaArg.mpr ⟨rfl, rfl⟩
      dsimp only
      rw [clean_then hget, ← hnext]
      exact (and_iff_right nofun).symm
  | long =>
    simp only [hk, Option.some.injEq, Opts.mk.injEq, and_true] at hf
    obtain rfl := hf
    rw [signedAdd, clean_bind (signedOp_returns _ _), clean_signedOp, forall_prop_of_true rfl]
    exact Iff.rfl
  | char | error | string | decimal | unsigned | octal | pointer | hex | percent | other => simp [hk] at hf

theorem Directive.flag_lflag (hd : tokenOf (c.setWidth 32) ≠ .digit) (hf : d.flag c = some ⟨d₁, none⟩) :
    d₁.lflag = if c = 108#8 then d.lflag + 1#32 else d.lflag := by
  simp only [← tokenOf_long]
  unfold Directive.flag at hf
  cases hk : tokenOf (c.setWidth 32) with
  | digit => exact absurd hk hd
  | minus | zero | dot | alt | long =>
    simp only [hk, Option.some.injEq, Opts.mk.injEq, and_true] at hf
    obtain rfl := hf
    rfl
  | star =>
    simp only [hk] at hf
    cases hap : d.ap with
    | nil => simp [hap] at hf
    | cons precision ap =>
      simp only [hap, Option.some.injEq, Opts.mk.injEq, and_true] at hf
      obtain rfl := hf
      exact Directive.setNumber_lflag _ _
  | char | error | string | decimal | unsigned | octal | pointer | hex | percent | other => simp [hk] at hf

theorem clean_conversion (hc : mem q = some c) (ht : (tokenOf (c.setWidth 32)).isFlag = false) :
    Clean (reswitchOn logHost conv fuel (n + 1) { d with fmt := q }) (mem, l) ↔
      Clean (conv (tokenOf (c.setWidth 32)) (c.setWidth 32) { d with fmt := q + 1#32 }) (mem, l) := by
  rw [reswitchOn, clean_then (returns_charAt.mpr ⟨hc, rfl⟩)]
  dsimp only
  cases hk : tokenOf (c.setWidth 32) with
  | minus | zero | digit | star | dot | alt | long =>
    rw [hk] at ht
    cases ht
  | char | error | string | decimal | unsigned | octal | pointer | hex | percent | other => exact Iff.rfl

theorem clean_numeral (hd : tokenOf (c.setWidth 32) = .digit) (h : IsCString mem q (c :: (bs ++ cs)))
    (hb : ∀ c ∈ bs, IsDigit c)
    (hstop : ¬ IsDigit (cs.headD 0#8))
    (hw : Writes
    (reswitch logHost ro (fun fmt ap => vprintfmt logHost ro fuel fmt ap) fuel (n + 1) { d with fmt := q }) mem
    r out) :
    Writes (reswitch logHost ro (fun fmt ap => vprintfmt logHost ro fuel fmt ap) fuel n
      { d.setNumber (bs.foldl nextDigit (nextDigit 0#32 c)) with fmt := q + 1#32 + BitVec.ofNat 32 bs.length })
      mem r out ∧
    (Clean (reswitchOn logHost conv fuel (n + 1) { d with fmt := q }) (mem, l) ↔ NumeralsFit 0 (c :: bs) ∧
      Clean (reswitchOn logHost conv fuel n
        { d.setNumber (bs.foldl nextDigit (nextDigit 0#32 c)) with fmt := q + 1#32 + BitVec.ofNat 32 bs.length }) (mem, l)) := by
  have hdigit : IsDigit c := ((tokenOf_digit c).mp hd).1
  have hread := (writes_reswitch h.head).mp hw
  rw [hd, turn, writes_bind (.digits _ _ _ _) (fun _ => .reswitch _ _ _), ← digit_extend hdigit] at hread
  obtain ⟨v, o₁, o₂, hv, hrest, rfl⟩ := hread
  obtain ⟨hr, rfl⟩ := digits_writes.mp hv
  obtain rfl := (digits_iff h.tail hb hstop).mp ⟨fuel, hr⟩
  rw [List.nil_append, ← Directive.setNumber_fmt]
  refine ⟨hrest, ?_⟩
  have hlen : bs.length < fuel := digits_length h.tail hb hr
  rw [reswitchOn, clean_then (returns_charAt.mpr ⟨h.head, rfl⟩)]
  dsimp only
  rw [hd]
  dsimp only
  rw [← digit_extend hdigit, clean_bind (hv l), List.append_nil]
  exact and_congr_left' (clean_digits h.tail hb hstop hdigit rfl (by decide) hlen)

/-- The text between the percent sign and the conversion: its numerals and its long flags can be counted. -/
def TextFits (body : List Byte) : Prop := NumeralsFit 0 body ∧ body.count 108#8 ≤ 2147483647

instance (body : List Byte) : Decidable (TextFits body) := inferInstanceAs (Decidable (_ ∧ _))

def FlagsFit (lflag : CInt) (body : List Byte) : Prop :=
  NumeralsFit 0 body ∧ lflag.toInt + body.count 108#8 ≤ 2147483647

theorem flagsFit_numeral {lflag : CInt} (hb : ∀ c ∈ bs, IsDigit c) (hstop : ¬ IsDigit (cs.headD 0#8)) :
    FlagsFit lflag (bs ++ cs) ↔ NumeralsFit 0 bs ∧ FlagsFit lflag cs := by
  have hcount : bs.count 108#8 = 0 := List.count_eq_zero.mpr (fun hm => absurd (hb _ hm) (by decide))
  rw [FlagsFit, FlagsFit, numeralsFit_append hb hstop, List.count_append, hcount, Nat.zero_add, and_assoc]

theorem flagsFit_flag {lflag : CInt} (hd : tokenOf (c.setWidth 32) ≠ .digit) (hl : 0 ≤ lflag.toInt) :
    FlagsFit lflag (c :: cs) ↔
    (c = 108#8 → (lflag + 1#32).toInt = lflag.toInt + 1) ∧
    FlagsFit (if c = 108#8 then lflag + 1#32 else lflag) cs := by
  rw [FlagsFit, FlagsFit, numeralsFit_flag hd]
  by_cases hc : c = 108#8
  · have hone : (1#32 : CInt).toInt = 1 := by decide
    have hmax := BitVec.toInt_lt (x := lflag)
    subst hc
    rw [if_pos rfl, forall_prop_of_true rfl, List.count_cons_self]
    constructor
    · rintro ⟨hnum, hfit⟩
      have hsum : (lflag + 1#32).toInt = lflag.toInt + (1#32 : CInt).toInt := toInt_add_eq.mpr (by omega)
      exact ⟨by omega, hnum, by omega⟩
    · rintro ⟨hsum, hnum, hfit⟩
      exact ⟨hnum, by omega⟩
  · rw [if_neg hc, List.count_cons_of_ne hc]
    exact (and_iff_right (fun h => absurd h hc)).symm

theorem clean_flags (h : IsCString mem q (body ++ rest)) (hb : ∀ c ∈ body, IsFlag c) (hr : ¬ IsFlag (rest.headD 0#8))
    (hd : Opts.flags body ⟨d, none⟩ = some d')
    (hw : Writes
    (reswitch logHost ro (fun fmt ap => vprintfmt logHost ro fuel fmt ap) fuel n { d with fmt := q }) mem r out) :
    Writes (convert logHost ro (fun fmt ap => vprintfmt logHost ro fuel fmt ap) fuel
      (tokenOf ((rest.headD 0#8).setWidth 32))
      ((rest.headD 0#8).setWidth 32) { d' with fmt := q + BitVec.ofNat 32 body.length + 1#32 }) mem r out ∧
    (0 ≤ d.lflag.toInt → (Clean (reswitchOn logHost conv fuel n { d with fmt := q }) (mem, l) ↔
      FlagsFit d.lflag body ∧
      Clean (conv (tokenOf ((rest.headD 0#8).setWidth 32)) ((rest.headD 0#8).setWidth 32)
        { d' with fmt := q + BitVec.ofNat 32 body.length + 1#32 }) (mem, l))) := by
  induction hlen : body.length using Nat.strongRecOn generalizing body d q n with
  | ind k ih =>
  subst hlen
  obtain ⟨n, rfl⟩ : ∃ m, n = m + 1 := by
    cases n with
    | zero => exact absurd hw not_writes_spin
    | succ n => exact ⟨n, rfl⟩
  cases body with
  | nil =>
    have hfalse : (tokenOf ((rest.headD 0#8).setWidth 32)).isFlag = false := Bool.eq_false_iff.mpr hr
    obtain rfl : d = d' := Option.some.inj hd
    rw [add_length_nil]
    refine ⟨(writes_convert h.next hfalse).mp hw, fun hl => ?_⟩
    rw [clean_conversion h.next hfalse]
    have hmax := BitVec.toInt_lt (x := d.lflag)
    exact (and_iff_right ⟨trivial, by rw [List.count_nil]; omega⟩).symm
  | cons c body =>
    have hbody : ∀ c ∈ body, IsFlag c := fun b hm => hb b (List.mem_cons_of_mem c hm)
    have hcons : (d.flag c).bind (Opts.flags body) = some d' := hd
    rw [add_length_cons]
    by_cases hk : tokenOf (c.setWidth 32) = .digit
    · -- a numeral is read to its end
      have hflag : d.flag c = some ⟨d, some (nextDigit 0#32 c)⟩ := by rw [Directive.flag, hk]
      obtain ⟨ds, cs, rfl, hds, hstop⟩ := exists_prefix IsDigit body
      have hcs := hstop rest (fun hn => hr (isDigit_isFlag hn))
      have hstop' : ¬ IsDigit (cs.headD 0#8) := by simpa using hstop [] (by decide)
      rw [hflag, Option.bind_some, flags_digits hds hstop'] at hcons
      rw [List.cons_append, List.append_assoc] at h
      have hdigits : ∀ b ∈ c :: ds, IsDigit b := List.forall_mem_cons.mpr ⟨((tokenOf_digit c).mp hk).1, hds⟩
      have hlt : cs.length < (c :: (ds ++ cs)).length := by
        rw [List.length_cons, List.length_append]
        omega
      obtain ⟨hrest, hclean⟩ := @clean_numeral ro mem q d l out r c ds (cs ++ rest) fuel n conv hk h hds hcs hw
      obtain ⟨hconv, hiff⟩ := ih cs.length hlt h.tail.drop (fun b hm => hbody b (List.mem_append_right ds hm))
        hcons hrest rfl
      rw [add_length_append]
      refine ⟨hconv, fun hl => ?_⟩
      have hlflag := d.setNumber_lflag (ds.foldl nextDigit (nextDigit 0#32 c))
      have hnext := hiff (by rwa [hlflag])
      rw [← List.cons_append, flagsFit_numeral hdigits hstop', and_assoc, ← congrArg (FlagsFit · cs) hlflag]
      exact hclean.trans (and_congr_right' hnext)
    · obtain ⟨o, hf, hfs⟩ := Option.bind_eq_some_iff.mp hcons
      obtain ⟨d₁, rfl⟩ := Directive.flag_number hk hf
      obtain ⟨d₂, hstep, hrest⟩ := turn_flag (hb c List.mem_cons_self) rfl ((writes_reswitch h.head).mp hw)
      obtain ⟨d₃, hf', rfl⟩ := (flagStep_iff (d := d) hk).mp hstep
      obtain rfl : d₁ = d₃ := (Opts.mk.inj (Option.some.inj (hf.symm.trans hf'))).1
      have hlt : body.length < (c :: body).length := by simp
      obtain ⟨hconv, hiff⟩ := ih body.length hlt h.tail hbody hfs hrest rfl
      refine ⟨hconv, fun hl => ?_⟩
      have hlflag := Directive.flag_lflag hk hf
      rw [flagsFit_flag hk hl, ← hlflag, and_assoc]
      refine Iff.trans (clean_flag h.head hk hf) (and_congr_right (fun hsum => hiff ?_))
      rw [hlflag]
      split
      · next hc =>
        rw [hsum hc]
        omega
      · exact hl

end Turns

/-! ### Numbers -/

theorem steady_putch (ch : CInt) : Steady (logHost.putch ch) := .modify _

theorem steady_pad (ch width : CInt) : Steady (pad logHost ch width) := .forUp (fun _ => steady_putch ch) _ _

theorem clean_printnum {num : BitVec 64} {base width padc : CInt} (hb : 2 ≤ base.toNat) (hle : base.toNat ≤ 16)
    (h0 : n ≠ 0)
    (hn : num.toNat < 2 ^ n) : Clean (printnum logHost n num base width padc) (mem, l) ↔
      -2147483648 + ((numeral base.toNat num.toNat).length : Int) ≤ width.toInt := by
  have hbase : (base.setWidth 64).toNat = base.toNat := by
    rw [BitVec.toNat_setWidth]
    omega
  have hone : (1#32 : CInt).toInt = 1 := by decide
  induction n generalizing num width with
  | zero => exact absurd rfl h0
  | succ n ih =>
    have hmax := BitVec.toInt_lt (x := width)
    have hdown : (width - 1#32).toInt = width.toInt - 1 ↔ -2147483647 ≤ width.toInt := by
      rw [← hone, toInt_sub_eq]
      omega
    rw [printnum, signedSub, clean_bind (signedOp_returns _ _), clean_signedOp, hone, hdown]
    by_cases hmore : base.toNat ≤ num.toNat
    · have hcond : base.setWidth 64 ≤ num := by rwa [BitVec.le_def, hbase]
      have hdiv : (num / base.setWidth 64).toNat = num.toNat / base.toNat := by rw [BitVec.toNat_udiv, hbase]
      have hlt : (num / base.setWidth 64).toNat < 2 ^ n := by
        rw [hdiv]
        exact div_base_lt hb hn
      have hn0 : n ≠ 0 := by
        rintro rfl
        omega
      have hrest : Clean (printnum logHost n (num / base.setWidth 64) base (width - 1#32) padc) (mem, l) ↔ _ :=
        ih hn0 hlt
      rw [if_pos hcond, clean_bind (printnum_writes hb hle hn0 hlt l),
        and_iff_left ((steady_putch _).clean (returns_putch.mpr rfl)),
        hrest, hdiv, numeral_of_le (by omega) hmore, List.length_append, List.length_singleton]
      constructor
      · rintro ⟨hlow, hfit⟩
        rw [hdown.mpr hlow] at hfit
        omega
      · intro hfit
        have hlow : -2147483647 ≤ width.toInt := by omega
        rw [hdown.mpr hlow]
        omega
    · have hcond : ¬ base.setWidth 64 ≤ num := by rwa [BitVec.le_def, hbase]
      rw [if_neg hcond, clean_bind (pad_writes l), and_iff_left ((steady_putch _).clean (returns_putch.mpr rfl)),
        and_iff_left ((steady_pad _ _).clean (pad_writes l)), numeral_of_lt (by omega), List.length_singleton]
      omega

theorem clean_putDecimal {num : BitVec 64} : Clean (putDecimal logHost d num) (mem, l) ↔
    num ≠ BitVec.intMin 64 ∧ -2147483648 + ((numeral 10 num.toInt.natAbs).length : Int) ≤ d.width.toInt := by
  have hnumber : ∀ {num : BitVec 64} {l}, Clean (putNumber logHost d num 10#32) (mem, l) ↔
      -2147483648 + ((numeral 10 num.toNat).length : Int) ≤ d.width.toInt := fun {num l} =>
    clean_printnum (n := 64) (by decide) (by decide) (by decide) num.isLt
  unfold putDecimal
  by_cases hneg : num.toInt < 0
  · rw [if_pos hneg, clean_then (returns_putch.mpr rfl), signedNeg, clean_bind (signedOp_returns _ _),
      clean_signedOp,
      toInt_neg_eq (by decide), hnumber, toNat_neg_eq hneg]
  · have hne : num ≠ BitVec.intMin 64 := by
      rintro rfl
      exact hneg (by decide)
    rw [if_neg hneg, hnumber, toNat_eq_natAbs hneg]
    exact (and_iff_right hne).symm

theorem steady_vaArg (ap : List Word) : Steady (vaArg ap : Prog (Bytes × List CInt) _) := by
  cases ap with
  | nil => exact .fault
  | cons w ap => exact .pure _

theorem steady_intArg (extend : Word → BitVec 64) (ap : List Word) (lflag : CInt) :
    Steady (if 2 ≤ lflag.toInt then vaArgLongLong ap else do
      let (w, ap) ← vaArg ap
      return (extend w, ap) : Prog (Bytes × List CInt) _) := by
  apply Steady.ite
  · match ap with
    | [] => exact .fault
    | [_] => exact .fault
    | lo :: hi :: ap => exact .pure _
  · exact (steady_vaArg ap).bind (fun _ => .pure _)

theorem steady_rewind (n : ℕ) (fmt : Word) : Steady (rewind logHost n fmt) := by
  have hchar : ∀ p, Steady (charAt logHost p) := fun p _ _ _ h => returns_charAt.mpr (returns_charAt.mp h)
  induction n generalizing fmt with
  | zero => exact .spin
  | succ n ih =>
    apply (hchar _).bind
    intro c
    exact .ite (.pure _) (ih _)

/-! ### Conversions -/

def Directive.Counts (d : Directive) (base number : ℕ) : Prop :=
  -2147483648 + ((numeral base number).length : Int) ≤ d.width.toInt

instance (d : Directive) (base number : ℕ) : Decidable (d.Counts base number) := inferInstanceAs (Decidable (_ ≤ _))

def Directive.Fits (d : Directive) : Token → Prop
  | .error => ∀ err ap, d.ap = err :: ap → err ≠ BitVec.intMin 32
  | .decimal => ∀ num ap, intArg (·.signExtend 64) d.lflag d.ap = some (num, ap) →
      num ≠ BitVec.intMin 64 ∧ d.Counts 10 num.toInt.natAbs
  | .unsigned => ∀ num ap, intArg (·.setWidth 64) d.lflag d.ap = some (num, ap) → d.Counts 10 num.toNat
  | .hex => ∀ num ap, intArg (·.setWidth 64) d.lflag d.ap = some (num, ap) → d.Counts 16 num.toNat
  | .pointer => ∀ w ap, d.ap = w :: ap → d.Counts 16 w.toNat
  | _ => True

theorem clean_argument {α : Type} {x : Prog (Bytes × List CInt) (α × List Word)} {a : α}
    (y : α → Prog (Bytes × List CInt) Unit)
    (hx : Steady x) (hw : Writes x mem (a, ap) []) (hy : Writes (y a) mem () out) :
    Clean (x >>= fun a => y a.1 >>= fun _ => pure (p, a.2)) (mem, l) ↔ Clean (y a) (mem, l) := by
  rw [clean_bind (hw l), and_iff_right (hx.clean (hw l)), List.append_nil, clean_bind (hy l)]
  exact and_iff_left clean_pure

theorem clean_number {α : Type} {x : Prog (Bytes × List CInt) (α × List Word)} {a : α} (num : α → BitVec 64)
    (base : Word)
    (hb : 2 ≤ base.toNat) (hle : base.toNat ≤ 16) (hx : Steady x) (hw : Writes x mem (a, ap) []) :
    Clean (x >>= fun a => putNumber logHost d (num a.1) base >>= fun _ => pure (p, a.2)) (mem, l) ↔
      d.Counts base.toNat (num a).toNat :=
  (clean_argument (fun a => putNumber logHost d (num a) base) hx hw (putNumber_writes hb hle)).trans
    (clean_printnum (n := 64) hb hle (by decide) (num a).isLt)

def Announced (mem : Bytes) (ro : Rodata) (ok : CInt → Prop) : Prop := ∀ err fuel l out, ok err →
  Writes (vprintfmt logHost ro fuel (errorMessage ro (errorCode err)).1 (errorMessage ro (errorCode err)).2) mem
    () out →
  Clean (vprintfmtQuiet logHost ro fuel (errorMessage ro (errorCode err)).1 (errorMessage ro (errorCode err)).2)
    (mem, l)

theorem clean_putError {f : Word → List Word → Prog (Bytes × List CInt) Unit} {err : CInt}
    (hne : err ≠ BitVec.intMin 32)
    (hf : Clean (f (errorMessage ro (errorCode err)).1 (errorMessage ro (errorCode err)).2) (mem, l)) :
    Clean (putError ro f (errorCode err)) (mem, l) := by
  have hpos := errorCode_nonneg.mpr hne
  unfold errorMessage at hf
  unfold putError
  by_cases hm : maxError.toInt ≤ (errorCode err).toInt
  · rw [if_pos (Or.inl hm)] at hf
    rwa [if_pos hm]
  · have hcheck : Returns true (Prog.check (fun _ => decide (0 ≤ (errorCode err).toInt))) (mem, l) () (mem, l) :=
      returns_check.mpr ⟨rfl, fun _ => decide_eq_true hpos⟩
    rw [if_neg hm, clean_then hcheck, errorEntry_eq hm]
    by_cases hz : ro.errorString (errorCode err) = 0#32
    · rw [if_pos (Or.inr hz)] at hf
      rwa [if_pos hz]
    · rw [if_neg (not_or.mpr ⟨hm, hz⟩)] at hf
      rwa [if_neg hz]

theorem clean_error {ok : CInt → Prop} (hmsg : Announced mem ro ok) (hf : Finds mem ok d ap .error)
    (hw : Writes (convert logHost ro (fun fmt ap => vprintfmt logHost ro fuel fmt ap) fuel .error ch d) mem r out) :
    Clean (convertQuiet logHost ro (fun fmt ap => vprintfmtQuiet logHost ro fuel fmt ap) fuel .error ch d) (mem, l) ↔
      d.Fits .error := by
  obtain ⟨err, ha, he⟩ := hf
  obtain ⟨_, err', ha', hrun⟩ := writes_error.mp hw
  obtain ⟨rfl, _⟩ := List.cons.inj (ha.symm.trans ha')
  have hget : Returns true (vaArg d.ap) (mem, l) (err, ap) (mem, l) := returns_vaArg.mpr ⟨ha, rfl⟩
  have hcode : Writes (if err.toInt < 0 then signedNeg err else pure err) mem (errorCode err) [] :=
    writes_errorCode.mpr ⟨rfl, rfl⟩
  have hneg : Clean (if err.toInt < 0 then signedNeg err else pure err) (mem, l) ↔ err ≠ BitVec.intMin 32 := by
    split
    · exact clean_signedOp.trans (toInt_neg_eq (by decide))
    · next hpos =>
      refine iff_of_true clean_pure ?_
      rintro rfl
      exact hpos (by decide)
  have hloose : Returns false
    (putError ro (fun fmt ap => vprintfmtQuiet logHost ro fuel fmt ap) (errorCode err)) (mem, l) ()
      (mem, l ++ out) := (putError_agree _ _ _).mpr ((vprintfmtQuiet_agree _ _ _ _ _).mpr (hrun l))
  rw [convertQuiet, if_neg (by decide), convert, clean_then hget]
  refine (clean_bind (hcode l)).trans ?_
  rw [hneg, List.append_nil]
  constructor
  · rintro ⟨hne, _⟩ err' ap' ha'
    rwa [← (List.cons.inj (ha.symm.trans ha')).1]
  · intro h
    have hne := h err ap ha
    exact ⟨hne, (clean_bind hloose).mpr ⟨clean_putError hne (hmsg err fuel l out he hrun), clean_pure⟩⟩

theorem clean_known {ok : CInt → Prop} (hmsg : Announced mem ro ok) (hc : IsKnown c)
    (hf : Finds mem ok d ap (tokenOf (c.setWidth 32)))
    (hw : Writes
    (convert logHost ro (fun fmt ap => vprintfmt logHost ro fuel fmt ap) fuel (tokenOf (c.setWidth 32)) ch d)
    mem r out) :
    Clean (convertQuiet logHost ro (fun fmt ap => vprintfmtQuiet logHost ro fuel fmt ap) fuel
      (tokenOf (c.setWidth 32)) ch d) (mem, l) ↔
      d.Fits (tokenOf (c.setWidth 32)) := by
  have hfound : ∀ {num num' : BitVec 64} {ap'} {extend : Word → BitVec 64}, intArg extend d.lflag d.ap =
    some (num, ap) →
      intArg extend d.lflag d.ap = some (num', ap') → num = num' :=
        fun h h' => (Prod.mk.inj (Option.some.inj (h.symm.trans h'))).1
  have hputch : ∀ {ch l}, Returns true (logHost.putch ch) (mem, l) () (mem, l ++ [ch]) := returns_putch.mpr rfl
  unfold convertQuiet
  cases hk : tokenOf (c.setWidth 32) with
  | minus | zero | digit | star | dot | alt | long => exact absurd hc.1 (by simp [hk, Token.isFlag])
  | other => exact absurd hk hc.2
  | error =>
    rw [hk] at hf hw
    exact clean_error hmsg hf hw
  | string =>
    rw [hk] at hw
    rw [if_pos rfl]
    exact iff_of_true ⟨_, _, returns_quietly.mpr (hw l)⟩ trivial
  | octal =>
    rw [if_neg (by decide), convert, clean_then hputch, clean_then hputch, clean_then hputch]
    exact iff_of_true clean_pure trivial
  | percent =>
    rw [if_neg (by decide), convert, clean_then hputch]
    exact iff_of_true clean_pure trivial
  | char =>
    rw [hk] at hf
    obtain ⟨w, ha⟩ := hf
    rw [if_neg (by decide)]
    refine iff_of_true ?_ trivial
    exact (clean_argument logHost.putch (steady_vaArg d.ap) (writes_vaArg.mpr ⟨ha, rfl⟩)
      (writes_putch.mpr rfl)).mpr ⟨_, _, hputch⟩
  | decimal =>
    rw [hk] at hf
    obtain ⟨num, ha⟩ := hf
    rw [if_neg (by decide)]
    apply Iff.trans
      (clean_argument (putDecimal logHost d) (steady_intArg _ _ _) (writes_intArg.mpr ⟨ha, rfl⟩) putDecimal_writes)
    rw [clean_putDecimal]
    constructor
    · intro h num' ap' ha'
      rw [← hfound ha ha']
      exact h
    · exact fun h => h num ap ha
  | unsigned =>
    rw [hk] at hf
    obtain ⟨num, ha⟩ := hf
    rw [if_neg (by decide)]
    apply Iff.trans
      (clean_number id 10#32 (by decide) (by decide) (steady_intArg _ _ _) (writes_intArg.mpr ⟨ha, rfl⟩))
    exact ⟨fun h num' ap' ha' => hfound ha ha' ▸ h, fun h => h num ap ha⟩
  | hex =>
    rw [hk] at hf
    obtain ⟨num, ha⟩ := hf
    rw [if_neg (by decide)]
    apply Iff.trans
      (clean_number id 16#32 (by decide) (by decide) (steady_intArg _ _ _) (writes_intArg.mpr ⟨ha, rfl⟩))
    exact ⟨fun h num' ap' ha' => hfound ha ha' ▸ h, fun h => h num ap ha⟩
  | pointer =>
    rw [hk] at hf
    obtain ⟨w, ha⟩ := hf
    have hvalue : (w.setWidth 64).toNat = w.toNat := BitVec.toNat_setWidth_of_le (by decide)
    have hnumber : ∀ l, Clean (do
        let (w, ap) ← vaArg d.ap
        putNumber logHost d (w.setWidth 64) 16#32
        pure (d.fmt, ap)) (mem, l) ↔ d.Counts 16 (w.setWidth 64).toNat := fun l =>
      clean_number (fun w : Word => w.setWidth 64) 16#32 (by decide) (by decide) (steady_vaArg d.ap)
        (writes_vaArg.mpr ⟨ha, rfl⟩)
    rw [if_neg (by decide), convert, clean_then hputch, clean_then hputch]
    apply Iff.trans (hnumber _)
    rw [hvalue]
    constructor
    · intro h w' ap' ha'
      rw [← (List.cons.inj (ha.symm.trans ha')).1]
      exact h
    · exact fun h => h w ap ha

theorem clean_unknown (hw : Writes
    (convert logHost ro (fun fmt ap => vprintfmt logHost ro fuel fmt ap) fuel .other ch d) mem r out) :
    Clean (convertQuiet logHost ro (fun fmt ap => vprintfmtQuiet logHost ro fuel fmt ap) fuel .other ch d)
      (mem, l) := by
  have hsteady : Steady
    (convert logHost ro (fun fmt ap => vprintfmtQuiet logHost ro fuel fmt ap) fuel .other ch d) := by
    apply (steady_putch _).bind
    intro u
    exact (steady_rewind _ _).bind (fun _ => .pure _)
  rw [convertQuiet, if_neg (by decide)]
  exact hsteady.clean (hw l)

/-! ### Formats -/

theorem clean_text (hc : mem fmt = some c) (hp : c ≠ 37#8) (hz : c ≠ 0#8) :
    Clean (vprintfmtQuiet logHost ro (fuel + 1) fmt ap) (mem, l) ↔
    Clean (vprintfmtQuiet logHost ro fuel (fmt + 1#32) ap) (mem, l ++ [c.setWidth 32]) := by
  have hput : Returns true (logHost.putch (c.setWidth 32)) (mem, l) () (mem, l ++ [c.setWidth 32]) :=
    returns_putch.mpr rfl
  rw [vprintfmtQuiet, vprintfmtOn, clean_then (returns_charAt.mpr ⟨hc, rfl⟩)]
  dsimp only
  rw [if_neg (mt setWidth_eq_percent.mp hp), if_neg (mt setWidth_eq_zero.mp hz), clean_then hput, vprintfmtQuiet]

theorem clean_stop (hc : mem fmt = some 0#8) : Clean (vprintfmtQuiet logHost ro (fuel + 1) fmt ap) (mem, l) := by
  rw [vprintfmtQuiet, vprintfmtOn, clean_then (returns_charAt.mpr ⟨hc, rfl⟩)]
  exact clean_pure

theorem clean_directive (h : IsCString mem fmt (37#8 :: (body ++ rest))) (hb : ∀ c ∈ body, IsFlag c)
    (hr : ¬ IsFlag (rest.headD 0#8))
    (hd : directive body ap = some d) (hw : Writes (vprintfmt logHost ro (fuel + 1) fmt ap) mem () out) :
    ∃ r o₁ o₂,
    Writes (convert logHost ro (fun fmt ap => vprintfmt logHost ro fuel fmt ap) fuel
    (tokenOf ((rest.headD 0#8).setWidth 32))
        ((rest.headD 0#8).setWidth 32) { d with fmt := fmt + 1#32 + BitVec.ofNat 32 body.length + 1#32 }) mem r o₁ ∧
      Writes (vprintfmt logHost ro fuel r.1 r.2) mem () o₂ ∧
      (Clean (vprintfmtQuiet logHost ro (fuel + 1) fmt ap) (mem, l) ↔ TextFits body ∧
        Clean (convertQuiet logHost ro (fun fmt ap => vprintfmtQuiet logHost ro fuel fmt ap) fuel
          (tokenOf ((rest.headD 0#8).setWidth 32))
          ((rest.headD 0#8).setWidth 32) { d with fmt := fmt + 1#32 + BitVec.ofNat 32 body.length + 1#32 })
          (mem, l) ∧
        Clean (vprintfmtQuiet logHost ro fuel r.1 r.2) (mem, l ++ o₁)) := by
  obtain ⟨c, hc, hturn⟩ := writes_vprintfmt.mp hw
  obtain rfl : 37#8 = c := Option.some.inj (h.head.symm.trans hc)
  obtain ⟨_, r, o₁, o₂, hs, hrun, _⟩ | ⟨hz, _⟩ | ⟨hne, _⟩ := hturn
  · obtain ⟨hconv, hiff⟩ := @clean_flags ro mem (fmt + 1#32) (.start 0#32 ap) d l o₁ r body rest fuel fuel
      (convertQuiet logHost ro (fun fmt ap => vprintfmtQuiet logHost ro fuel fmt ap) fuel) h.tail hb hr hd hs
    refine ⟨r, o₁, o₂, hconv, hrun, ?_⟩
    have hzero : (Directive.start 0#32 ap).lflag.toInt = 0 := BitVec.toInt_zero
    have htext : FlagsFit (Directive.start 0#32 ap).lflag body ↔ TextFits body := by
      apply and_congr_right'
      omega
    have hloose : Returns false
      (reswitchOn logHost (convertQuiet logHost ro (fun fmt ap => vprintfmtQuiet logHost ro fuel fmt ap) fuel)
        fuel fuel (.start (fmt + 1#32) ap)) (mem, l) r (mem, l ++ o₁) := by
      apply (reswitchOn_agree
        (fun token ch d => convertQuiet_agree (fun fmt ap => vprintfmtQuiet_agree fmt ap) token ch d) _ _ _ _).mpr
      rw [reswitchOn_convert]
      exact hs l
    rw [vprintfmtQuiet, vprintfmtOn, clean_then (returns_charAt.mpr ⟨h.head, rfl⟩)]
    dsimp only
    rw [if_pos (by decide)]
    refine Iff.trans (clean_bind hloose) (Iff.trans (and_congr_left' (hiff (by omega))) ?_)
    rw [htext, and_assoc]
    exact Iff.rfl
  · cases hz
  · exact absurd rfl hne

theorem Finds.mono {ok ok' : CInt → Prop} {token : Token} (hok : ∀ err, ok err → ok' err)
    (h : Finds mem ok d ap token) :
    Finds mem ok' d ap token := by
  cases token with
  | error =>
    obtain ⟨err, ha, he⟩ := h
    exact ⟨err, ha, hok err he⟩
  | minus | zero | digit | star | dot | alt | long | char | string | decimal | unsigned | octal | pointer | hex | percent | other =>
      exact h

theorem finds_fmt {ok : CInt → Prop} (token : Token) : Finds mem ok { d with fmt := q } ap token ↔
    Finds mem ok d ap token := by
  cases token <;> rfl

theorem fits_fmt (token : Token) : ({ d with fmt := q } : Directive).Fits token ↔ d.Fits token := by
  cases token <;> rfl

theorem clean_known_directive {ok : CInt → Prop} (hmsg : Announced mem ro ok)
    (h : IsCString mem fmt (37#8 :: (body ++ c :: rest)))
    (hb : ∀ c ∈ body, IsFlag c) (hc : IsKnown c) (hd : directive body ap = some d)
    (hf : Finds mem ok d ap' (tokenOf (c.setWidth 32)))
    (hw : Writes (vprintfmt logHost ro (fuel + 1) fmt ap) mem () out) :
    ∃ o₁ o₂, Writes (vprintfmt logHost ro fuel (fmt + 1#32 + BitVec.ofNat 32 body.length + 1#32) ap') mem () o₂ ∧
      (Clean (vprintfmtQuiet logHost ro (fuel + 1) fmt ap) (mem, l) ↔ TextFits body ∧
      d.Fits (tokenOf (c.setWidth 32)) ∧
        Clean (vprintfmtQuiet logHost ro fuel (fmt + 1#32 + BitVec.ofNat 32 body.length + 1#32) ap')
          (mem, l ++ o₁)) := by
  obtain ⟨⟨q, ap₁⟩, o₁, o₂, hconv, hrun, hiff⟩ := @clean_directive ro mem fmt ap d l out body
    (c :: rest) fuel h hb hc.not_isFlag hd hw
  rw [List.headD_cons] at hconv hiff
  obtain ⟨hq, hfield⟩ := (converts_known hc).mp ⟨fuel, hconv⟩
  rw [field_fmt] at hfield
  obtain rfl : ap₁ = ap' := hf.of_field hfield
  obtain rfl : q = _ := hq
  have hknown := clean_known (l := l) hmsg hc ((finds_fmt _).mpr hf) hconv
  exact ⟨o₁, o₂, hrun, hiff.trans (and_congr_right (fun _ => and_congr_left' (hknown.trans (fits_fmt _))))⟩

theorem clean_unknown_directive (h : IsCString mem fmt (37#8 :: (body ++ rest))) (hb : ∀ c ∈ body, IsFlag c)
    (hr : ¬ IsFlag (rest.headD 0#8)) (hk : ¬ IsKnown (rest.headD 0#8)) (hd : directive body ap = some d)
    (hw : Writes (vprintfmt logHost ro (fuel + 1) fmt ap) mem () out) :
    ∃ o₁ o₂, Writes (vprintfmt logHost ro fuel (fmt + 1#32) d.ap) mem () o₂ ∧
      (Clean (vprintfmtQuiet logHost ro (fuel + 1) fmt ap) (mem, l) ↔ TextFits body ∧
        Clean (vprintfmtQuiet logHost ro fuel (fmt + 1#32) d.ap) (mem, l ++ o₁)) := by
  have hp : mem (fmt + 1#32 - 1#32) = some 37#8 := by
    rw [BitVec.add_sub_cancel]
    exact h.head
  have hh := h.tail.holds
  rw [List.append_assoc, holds_append] at hh
  obtain ⟨r, o₁, o₂, hconv, hrun, hiff⟩ := @clean_directive ro mem fmt ap d l out body rest fuel h hb hr hd hw
  rw [token_unknown hr hk] at hconv hiff
  obtain ⟨rfl, _⟩ := (converts_other hp hh.1 hb).mp ⟨fuel, hconv⟩
  exact ⟨o₁, o₂, hrun, hiff.trans (and_congr_right (fun _ => and_iff_right (clean_unknown hconv)))⟩

/-- Well-typed arguments with which nothing overflows: the numerals and the long flags of a directive can be
counted, no number is the
most negative one, and `printnum` can count every width down. -/
inductive Fitting (mem : Bytes) (ok : CInt → Prop) : List Byte → List Word → Prop
  | stop (ap : List Word) : Fitting mem ok [] ap
  | text {c : Byte} {cs : List Byte} {ap : List Word} (hc : c ≠ 37#8) (hrest : Fitting mem ok cs ap) :
    Fitting mem ok (c :: cs) ap
  | known {body rest : List Byte} {c : Byte} {ap ap' : List Word} {d : Directive} (hb : ∀ c ∈ body, IsFlag c)
    (hc : IsKnown c)
      (hd : directive body ap = some d) (ht : Finds mem ok d ap' (tokenOf (c.setWidth 32))) (hfit : TextFits body)
      (harg : d.Fits (tokenOf (c.setWidth 32))) (hrest : Fitting mem ok rest ap') :
      Fitting mem ok (37#8 :: (body ++ c :: rest)) ap
  | unknown {body rest : List Byte} {ap : List Word} {d : Directive} (hb : ∀ c ∈ body, IsFlag c)
    (hr : ¬ IsFlag (rest.headD 0#8))
      (hk : ¬ IsKnown (rest.headD 0#8)) (hd : directive body ap = some d) (hfit : TextFits body)
      (hrest : Fitting mem ok (body ++ rest) d.ap) :
      Fitting mem ok (37#8 :: (body ++ rest)) ap

section Formats

variable {ok : CInt → Prop}

theorem Fitting.supplies {ok' : CInt → Prop} (hok : ∀ err, ok err → ok' err) (h : Fitting mem ok bs ap) :
    Supplies mem ok' bs ap := by
  induction h with
  | stop ap => exact .stop ap
  | text hc hrest ih => exact .text hc ih
  | known hb hc hd ht hfit harg hrest ih => exact .known hb hc hd (ht.mono hok) ih
  | unknown hb hr hk hd hfit hrest ih => exact .unknown hb hr hk hd ih

theorem writes_fuel (hw : Writes (vprintfmt logHost ro n fmt ap) mem () out) : ∃ fuel, n = fuel + 1 := by
  cases n with
  | zero => exact absurd hw not_writes_spin
  | succ fuel => exact ⟨fuel, rfl⟩

theorem writes_text (hw : Writes (vprintfmt logHost ro (fuel + 1) fmt ap) mem () out) (hc : mem fmt = some c)
    (hp : c ≠ 37#8)
    (hz : c ≠ 0#8) : ∃ o, Writes (vprintfmt logHost ro fuel (fmt + 1#32) ap) mem () o := by
  obtain ⟨c', hc', hturn⟩ := writes_vprintfmt.mp hw
  obtain rfl : c = c' := Option.some.inj (hc.symm.trans hc')
  obtain ⟨hp', _⟩ | ⟨hz', _⟩ | ⟨_, _, o, ho, _⟩ := hturn
  · exact absurd hp' hp
  · exact absurd hz' hz
  · exact ⟨o, ho⟩

theorem clean_fitting (hmsg : Announced mem ro ok) (hs : Supplies mem ok bs ap) (h : IsCString mem fmt bs)
    (hw : Writes (vprintfmt logHost ro n fmt ap) mem () out)
    (hc : Clean (vprintfmtQuiet logHost ro n fmt ap) (mem, l)) :
    Fitting mem ok bs ap := by
  obtain ⟨fuel, rfl⟩ := writes_fuel hw
  induction hs generalizing fmt fuel l out with
  | stop ap => exact .stop ap
  | text hp hrest ih =>
    obtain ⟨o, hw⟩ := writes_text hw h.head hp h.head_ne
    obtain ⟨fuel, rfl⟩ := writes_fuel hw
    exact .text hp (ih h.tail fuel hw ((clean_text h.head hp h.head_ne).mp hc))
  | known hb hk hd ht hrest ih =>
    obtain ⟨o₁, o₂, hw, hiff⟩ := clean_known_directive hmsg h hb hk hd ht hw
    obtain ⟨fuel, rfl⟩ := writes_fuel hw
    obtain ⟨hfit, harg, hc⟩ := hiff.mp hc
    exact .known hb hk hd ht hfit harg (ih h.tail.drop.tail fuel hw hc)
  | unknown hb hr hk hd hrest ih =>
    obtain ⟨o₁, o₂, hw, hiff⟩ := clean_unknown_directive h hb hr hk hd hw
    obtain ⟨fuel, rfl⟩ := writes_fuel hw
    obtain ⟨hfit, hc⟩ := hiff.mp hc
    exact .unknown hb hr hk hd hfit (ih h.tail fuel hw hc)

theorem fitting_clean (hmsg : Announced mem ro ok) (hs : Fitting mem ok bs ap) (h : IsCString mem fmt bs)
    (hw : Writes (vprintfmt logHost ro n fmt ap) mem () out) :
    Clean (vprintfmtQuiet logHost ro n fmt ap) (mem, l) := by
  obtain ⟨fuel, rfl⟩ := writes_fuel hw
  induction hs generalizing fmt fuel l out with
  | stop ap => exact clean_stop h.nil
  | text hp hrest ih =>
    obtain ⟨o, hw⟩ := writes_text hw h.head hp h.head_ne
    obtain ⟨fuel, rfl⟩ := writes_fuel hw
    exact (clean_text h.head hp h.head_ne).mpr (ih h.tail fuel hw)
  | known hb hk hd ht hfit harg hrest ih =>
    obtain ⟨o₁, o₂, hw, hiff⟩ := clean_known_directive hmsg h hb hk hd ht hw
    obtain ⟨fuel, rfl⟩ := writes_fuel hw
    exact hiff.mpr ⟨hfit, harg, ih h.tail.drop.tail fuel hw⟩
  | unknown hb hr hk hd hfit hrest ih =>
    obtain ⟨o₁, o₂, hw, hiff⟩ := clean_unknown_directive h hb hr hk hd hw
    obtain ⟨fuel, rfl⟩ := writes_fuel hw
    exact hiff.mpr ⟨hfit, ih h.tail fuel hw⟩

/-! ### The messages -/

theorem fitting_one (hc : IsKnown c) (hd : directive [] ap = some d)
    (ht : Finds mem ok d ap' (tokenOf (c.setWidth 32)))
    (harg : d.Fits (tokenOf (c.setWidth 32))) : Fitting mem ok [37#8, c] ap :=
  @Fitting.known mem ok [] [] c ap ap' d (by simp) hc hd ht ⟨trivial, Nat.zero_le _⟩ harg (.stop ap')

theorem fits_int (code : CInt) : (Directive.start 0#32 [code]).Fits .decimal := by
  intro num ap h
  obtain ⟨rfl, rfl⟩ := Prod.mk.inj (Option.some.inj h)
  have hvalue : (code.signExtend 64).toInt = code.toInt := BitVec.toInt_signExtend_of_le (by decide)
  have hlow := BitVec.le_toInt (x := code)
  have hhigh := BitVec.toInt_lt (x := code)
  constructor
  · intro hmin
    have hint := congrArg BitVec.toInt hmin
    rw [hvalue, show (BitVec.intMin 64).toInt = -9223372036854775808 by decide] at hint
    omega
  · have hlen : (numeral 10 (code.signExtend 64).toInt.natAbs).length ≤ 64 :=
      length_numeral_le (by decide) (by omega)
    have hwidth : (Directive.start 0#32 [code]).width.toInt = -1 := show (-1#32 : CInt).toInt = -1 by decide
    rw [Directive.Counts, hwidth]
    dsimp only
    omega

theorem announced (hro : ro.Loaded mem) : Announced mem ro (fun _ => True) := by
  intro err fuel l out _ hw
  have hnone : Announced mem ro (fun _ => False) := fun _ _ _ _ h => h.elim
  unfold errorMessage at hw ⊢
  split at hw
  · next h =>
    have hs : Fitting mem (fun _ => False) (text "error %d") [errorCode err] :=
      .text (by decide)
        (.text (by decide) (.text (by decide) (.text (by decide) (.text (by decide) (.text (by decide)
        (fitting_one (by decide) rfl ⟨_, rfl⟩ (fits_int _)))))))
    rw [if_pos h]
    exact fitting_clean hnone hs hro.errorD hw
  · next h =>
    obtain ⟨s, hmsg⟩ := hro.message (not_or.mp h).2
    have hs : Fitting mem (fun _ => False) (text "%s") [ro.errorString (errorCode err)] :=
      fitting_one (by decide) rfl ⟨_, rfl, Or.inr (hmsg.readable _)⟩ trivial
    rw [if_neg h]
    exact fitting_clean hnone hs hro.percentS hw

end Formats

end Directive

/-! ### Safe arithmetic -/

variable {ro : Rodata} {mem : Bytes} {fmt : Word} {bs : List Byte} {ap : List Word}

/-- The formatter ends, it has read `error_string` only inside the table, and no signed operation of its parser, of
the sign or of
`printnum` has overflowed; `%e` prints the same for an error and for its negation. -/
structure SafeArithmetic (mem : Bytes) (ro : Rodata) (fmt : Word) (ap : List Word) : Prop where
  runs : ∃ fuel, Clean (vprintfmtQuiet logHost ro fuel fmt ap) (mem, [])
  negated : ∀ p body rest err ap₁ ap₂ ap' d₁ d₂ out, IsCString mem p (37#8 :: (body ++ 101#8 :: rest)) →
    (∀ c ∈ body, IsFlag c) →
    directive body ap₁ = some d₁ → d₁.ap = err :: ap' → directive body ap₂ = some d₂ → d₂.ap = -err :: ap' →
    (Emits false ro mem p ap₁ out ↔ Emits false ro mem p ap₂ out)

theorem errorCode_neg {err : CInt} : errorCode (-err) = errorCode err := by
  by_cases hmin : err = BitVec.intMin 32
  · rw [hmin, BitVec.neg_intMin]
  · have hneg : (-err).toInt = -err.toInt := BitVec.toInt_neg_of_ne_intMin hmin
    unfold errorCode
    rw [hneg]
    split
    · rw [if_neg (by omega), BitVec.neg_neg]
    · split
      · rfl
      · -- both signs are those of 0
        have hzero : err = 0#32 := BitVec.eq_of_toInt_eq (show err.toInt = 0 by omega)
        rw [hzero]
        rfl

theorem field_neg {err : CInt} {ap' : List Word} {d₁ d₂ : Directive} {out : List CInt} {ap₀ : List Word}
    (h₁ : d₁.ap = err :: ap')
    (h₂ : d₂.ap = -err :: ap') (h : Field mem ro d₁ ap₀ out .error) : Field mem ro d₂ ap₀ out .error := by
  obtain ⟨err', ha, hout⟩ := h
  obtain ⟨rfl, rfl⟩ := List.cons.inj (h₁.symm.trans ha)
  refine ⟨-err, h₂, ?_⟩
  rw [errorCode_neg]
  exact hout

theorem emits_neg {p : Word} {body rest : List Byte} {err : CInt} {ap₁ ap₂ ap' : List Word} {d₁ d₂ : Directive}
    {out : List CInt}
    (h : IsCString mem p (37#8 :: (body ++ 101#8 :: rest))) (hb : ∀ c ∈ body, IsFlag c)
    (hd₁ : directive body ap₁ = some d₁)
    (h₁ : d₁.ap = err :: ap') (hd₂ : directive body ap₂ = some d₂) (h₂ : d₂.ap = -err :: ap')
    (he : Emits false ro mem p ap₁ out) :
    Emits false ro mem p ap₂ out := by
  have hk : IsKnown 101#8 := by decide
  obtain ⟨d, ap₀, o₁, o₂, hd, hf, hrest, rfl⟩ := (emits_known h hb hk).mp he
  obtain rfl : d₁ = d := Option.some.inj (hd₁.symm.trans hd)
  exact (emits_known h hb hk).mpr ⟨d₂, ap₀, o₁, o₂, hd₂, field_neg h₁ h₂ hf, hrest, rfl⟩

theorem Finds.exact {ok : CInt → Prop} {d : Directive} {ap : List Word} {token : Token} (h : Finds mem ok d ap token)
    (hfit : d.Fits token) : Finds mem (· ≠ BitVec.intMin 32) d ap token := by
  cases token with
  | error =>
    obtain ⟨err, ha, _⟩ := h
    exact ⟨err, ha, hfit err ap ha⟩
  | minus | zero | digit | star | dot | alt | long | char | string | decimal | unsigned | octal | pointer | hex | percent | other =>
      exact h

theorem Fitting.exact {ok : CInt → Prop} (h : Fitting mem ok bs ap) : Fitting mem (· ≠ BitVec.intMin 32) bs ap := by
  induction h with
  | stop ap => exact .stop ap
  | text hc hrest ih => exact .text hc ih
  | known hb hc hd ht hfit harg hrest ih => exact .known hb hc hd (ht.exact harg) hfit harg ih
  | unknown hb hr hk hd hfit hrest ih => exact .unknown hb hr hk hd hfit ih

theorem SafeArithmetic.writes (h : SafeArithmetic mem ro fmt ap) : ∃ fuel out,
    Writes (vprintfmt logHost ro fuel fmt ap) mem () out ∧
      Clean (vprintfmtQuiet logHost ro fuel fmt ap) (mem, []) := by
  obtain ⟨⟨fuel, u, s', hr⟩, _⟩ := h
  have hloose := (vprintfmtQuiet_agree fmt ap _ _ _).mp hr.loosen
  obtain ⟨out, rfl, hw⟩ := (Blind.vprintfmt fuel fmt ap).writes hloose
  exact ⟨fuel, out, hw, u, _, hr⟩

theorem vprintfmt_arithmetic_iff (hro : ro.Loaded mem) (h : IsCString mem fmt bs)
    (hs : Supplies mem (fun _ => True) bs ap) :
    SafeArithmetic mem ro fmt ap ↔ Fitting mem (· ≠ BitVec.intMin 32) bs ap := by
  constructor
  · intro hsafe
    obtain ⟨fuel, out, hw, hc⟩ := hsafe.writes
    exact (clean_fitting (announced hro) hs h hw hc).exact
  · intro hfit
    have hmsg : Announced mem ro (· ≠ BitVec.intMin 32) := fun err fuel l out _ hw =>
      announced hro err fuel l out trivial hw
    obtain ⟨out, he⟩ := supplies_emits hro.nullString (fun _ _ => message_emits hro _) hs h
    obtain ⟨fuel, hw⟩ := emits_iff_writes.mp he
    refine ⟨⟨fuel, fitting_clean hmsg hfit h hw⟩, ?_⟩
    intro p body rest err ap₁ ap₂ ap' d₁ d₂ out hp hb hd₁ h₁ hd₂ h₂
    refine ⟨emits_neg hp hb hd₁ h₁ hd₂ h₂, emits_neg hp hb hd₂ h₂ hd₁ ?_⟩
    rwa [BitVec.neg_neg]

theorem vprintfmt_arithmetic_small :
    SafeArithmetic (image (rodataBytes ++ cString "%5d%e")) rodata 125#32 [42#32, 4294967292#32] := by
  have h : IsCString (image (rodataBytes ++ cString "%5d%e")) 125#32 (text "%5d%e") :=
    image_format (by decide) (by decide)
  have hfit : Fitting (image (rodataBytes ++ cString "%5d%e")) (· ≠ BitVec.intMin 32)
    (text "%5d%e") [42#32, 4294967292#32] := by
    refine @Fitting.known _ _ [53#8] (text "%e") 100#8 _ [4294967292#32] _ (by decide) (by decide) rfl ⟨_, rfl⟩
      (by decide) ?_ ?_
    · rintro num ap ⟨rfl⟩
      exact ⟨by decide, by decide⟩
    · refine fitting_one (by decide) rfl ⟨_, rfl, by decide⟩ ?_
      rintro err ap h
      obtain ⟨rfl, _⟩ := List.cons.inj h
      decide
  exact (vprintfmt_arithmetic_iff (rodata_loaded _) h (hfit.supplies (fun _ _ => trivial))).mpr hfit

theorem not_vprintfmt_arithmetic :
    ¬ ∀ (mem : Bytes) (ro : Rodata) (fmt : Word) (bs : List Byte) (ap : List Word), ro.Loaded mem →
    IsCString mem fmt bs → Supplies mem (fun _ => True) bs ap → SafeArithmetic mem ro fmt ap := by
  intro hall
  have h : IsCString (image (rodataBytes ++ cString "%e")) 125#32 (text "%e") := image_format (by decide) (by decide)
  have hk : IsKnown 101#8 := by decide
  have hf : Finds (image (rodataBytes ++ cString "%e")) (fun _ => True) (.start 0#32 [BitVec.intMin 32]) []
    .error := ⟨_, rfl, trivial⟩
  obtain ⟨fuel, out, hw, hc⟩ := (hall _ rodata 125#32 (text "%e") [BitVec.intMin 32] (rodata_loaded _) h
    (supplies_one (by decide) rfl ⟨_, rfl, trivial⟩)).writes
  obtain ⟨fuel, rfl⟩ := writes_fuel hw
  have hpercent : IsCString (image (rodataBytes ++ cString "%e")) 125#32 (37#8 :: ([] ++ 101#8 :: [])) := h
  obtain ⟨_, _, _, hiff⟩ := clean_known_directive (l := []) (announced (rodata_loaded _)) hpercent
    (by simp) hk rfl hf hw
  exact (hiff.mp hc).2.1 _ [] rfl rfl

end Cezos
