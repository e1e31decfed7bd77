import Cezos.Lib.Clean
import Cezos.Stdio.Output
import Mathlib.Data.List.Induction

namespace Cezos

open Lib

variable {ro : Rodata} {mem mem' : Bytes} {fmt p q : Word} {ap : List Word} {d d' : Directive} {ch : CInt}
    {out : List CInt}
  {r : Word × List Word} {c : Byte} {bs cs body rest : List Byte} {fuel n : ℕ}

/-! ### Strings in memory -/

def Holds (mem : Bytes) : Word → List Byte → Prop
  | _, [] => True
  | p, c :: cs => mem p = some c ∧ Holds mem (p + 1#32) cs

structure IsCString (mem : Bytes) (p : Word) (bs : List Byte) : Prop where
  holds : Holds mem p (bs ++ [0#8])
  no_nul : 0#8 ∉ bs

theorem add_length_cons (p : Word) (c : Byte) (cs : List Byte) :
    p + BitVec.ofNat 32 (c :: cs).length = p + 1#32 + BitVec.ofNat 32 cs.length := by
  rw [List.length_cons, Nat.add_comm, BitVec.ofNat_add, ← BitVec.add_assoc]

theorem add_length_nil (p : Word) : p + BitVec.ofNat 32 ([] : List Byte).length = p := BitVec.add_zero p

theorem add_length_append (p : Word) (bs cs : List Byte) :
    p + BitVec.ofNat 32 (bs ++ cs).length = p + BitVec.ofNat 32 bs.length + BitVec.ofNat 32 cs.length := by
  rw [List.length_append, BitVec.ofNat_add, ← BitVec.add_assoc]

theorem holds_append : Holds mem p (bs ++ cs) ↔ Holds mem p bs ∧ Holds mem (p + BitVec.ofNat 32 bs.length) cs := by
  induction bs generalizing p with
  | nil => simp [Holds]
  | cons b bs ih => rw [List.cons_append, Holds, Holds, ih, add_length_cons, and_assoc]

theorem holds_of_get (h : ∀ k < bs.length, mem (p + BitVec.ofNat 32 k) = bs[k]?) : Holds mem p bs := by
  induction bs generalizing p with
  | nil => trivial
  | cons b bs ih =>
    have hfirst := h 0 (by rw [List.length_cons]; omega)
    rw [BitVec.add_zero] at hfirst
    refine ⟨hfirst, ih (fun k hk => ?_)⟩
    have hnext := h (k + 1) (by rw [List.length_cons]; omega)
    rwa [Nat.add_comm, BitVec.ofNat_add, ← BitVec.add_assoc, Nat.add_comm 1 k] at hnext

namespace IsCString

theorem nil (h : IsCString mem p []) : mem p = some 0#8 := h.holds.1

theorem head (h : IsCString mem p (c :: cs)) : mem p = some c := h.holds.1

theorem head_ne (h : IsCString mem p (c :: cs)) : c ≠ 0#8 := fun hz => h.no_nul (hz ▸ List.mem_cons_self)

theorem tail (h : IsCString mem p (c :: cs)) : IsCString mem (p + 1#32) cs :=
  ⟨h.holds.2, fun hz => h.no_nul (List.mem_cons_of_mem c hz)⟩

theorem drop (h : IsCString mem p (bs ++ cs)) : IsCString mem (p + BitVec.ofNat 32 bs.length) cs := by
  have hh := h.holds
  rw [List.append_assoc, holds_append] at hh
  exact ⟨hh.2, fun hz => h.no_nul (List.mem_append_right bs hz)⟩

theorem next (h : IsCString mem p cs) : mem p = some (cs.headD 0#8) := by
  cases cs with
  | nil => exact h.nil
  | cons c cs => exact h.head

theorem mono (h : IsCString mem p bs) (hm : ∀ p c, mem p = some c → mem' p = some c) : IsCString mem' p bs := by
  refine ⟨?_, h.no_nul⟩
  have hh := h.holds
  generalize bs ++ [0#8] = cs at hh
  clear h
  induction cs generalizing p with
  | nil => trivial
  | cons c cs ih => exact ⟨hm _ _ hh.1, ih hh.2⟩

end IsCString

/-! ### Numerals -/

def IsDigit (c : Byte) : Prop :=
  (chr '0').toInt ≤ (c.signExtend 32 : CInt).toInt ∧ (c.signExtend 32 : CInt).toInt ≤ (chr '9').toInt

instance : DecidablePred IsDigit := fun _ => inferInstanceAs (Decidable (_ ∧ _))

def nextDigit (number : CInt) (c : Byte) : CInt := number * 10#32 + c.signExtend 32 - chr '0'

theorem digits_run {precision : CInt} (h : IsCString mem p (bs ++ cs)) (hb : ∀ c ∈ bs, IsDigit c)
    (hc : ¬ IsDigit (cs.headD 0#8)) :
    Returns false (digits logHost (bs.length + 1) p precision ch) (mem, [])
      (p + BitVec.ofNat 32 bs.length, bs.foldl nextDigit (precision * 10#32 + ch - chr '0')) (mem, []) := by
  have hstop : ∀ c : Byte, ((c.signExtend 32 : CInt).toInt < (chr '0').toInt ∨
    (chr '9').toInt < (c.signExtend 32 : CInt).toInt) ↔
      ¬ IsDigit c := fun c => by rw [IsDigit]; omega
  induction bs generalizing p precision ch with
  | nil =>
    rw [List.length_nil, digits]
    simp only [signedMul, signedAdd, signedSub, returns_bind, returns_ite, hstop]
    refine ⟨_, _, signedOp_returns _ _, _, _, signedOp_returns _ _, _, _, signedOp_returns _ _, _, _,
      returns_charAt.mpr ⟨h.next, rfl⟩, Or.inl ⟨hc, returns_pure.mpr ⟨?_, rfl⟩⟩⟩
    rw [BitVec.add_zero, List.foldl_nil]
  | cons b bs ih =>
    have hdigit : ¬ ¬ IsDigit b := not_not.mpr (hb b List.mem_cons_self)
    rw [List.length_cons, digits]
    simp only [signedMul, signedAdd, signedSub, returns_bind, returns_ite, hstop]
    refine ⟨_, _, signedOp_returns _ _, _, _, signedOp_returns _ _, _, _, signedOp_returns _ _, _, _,
      returns_charAt.mpr ⟨h.head, rfl⟩, Or.inr ⟨hdigit, ?_⟩⟩
    rw [← List.length_cons (a := b), add_length_cons]
    exact ih h.tail (fun c hc => hb c (List.mem_cons_of_mem b hc))

theorem digits_iff {precision : CInt} {v : Word × CInt} (h : IsCString mem p (bs ++ cs)) (hb : ∀ c ∈ bs, IsDigit c)
    (hc : ¬ IsDigit (cs.headD 0#8)) :
    (∃ fuel, Returns false (digits logHost fuel p precision ch) (mem, []) v (mem, [])) ↔
      v = (p + BitVec.ofNat 32 bs.length, bs.foldl nextDigit (precision * 10#32 + ch - chr '0')) := by
  have hrun := @digits_run mem p ch bs cs precision h hb hc
  constructor
  · rintro ⟨fuel, hr⟩
    have hmono := fun {n m : ℕ} (hle : n ≤ m) => (Host.Refines.refl logHost).digits hle p precision ch
    obtain ⟨_, h₁, rfl⟩ := hmono (Nat.le_max_left fuel (bs.length + 1)) _ _ _ _ _ rfl hr
    obtain ⟨_, h₂, _⟩ := hmono (Nat.le_max_right fuel (bs.length + 1)) _ _ _ _ _ rfl hrun
    exact (h₁.unique h₂).1
  · rintro rfl
    exact ⟨_, hrun⟩

/-! ### The flags of a directive, one character at a time -/

/-- A directive as far as it is read, and the numeral that is being read. -/
structure Opts where
  d : Directive
  number : Option CInt

def Directive.setNumber (d : Directive) (number : CInt) : Directive :=
  { d with precision := number }.processPrecision

theorem Directive.setNumber_fmt (d : Directive) (number : CInt) :
    ({ d with fmt := q, precision := number } : Directive).processPrecision =
    { d.setNumber number with fmt := q } := by
  unfold setNumber processPrecision
  split <;> rfl

def Opts.commit (o : Opts) : Directive :=
  match o.number with
  | none => o.d
  | some number => o.d.setNumber number

def Directive.flag (d : Directive) (c : Byte) : Option Opts :=
  match tokenOf (c.setWidth 32) with
  | .minus => some ⟨{ d with padc := chr '-' }, none⟩
  | .zero => some ⟨{ d with padc := chr '0' }, none⟩
  | .digit => some ⟨d, some (nextDigit 0#32 c)⟩
  | .star =>
    match d.ap with
    | [] => none
    | precision :: ap => some ⟨{ d with ap := ap }.setNumber precision, none⟩
  | .dot => some ⟨{ d with width := if d.width.toInt < 0 then 0#32 else d.width }, none⟩
  | .alt => some ⟨{ d with altflag := true }, none⟩
  | .long => some ⟨{ d with lflag := d.lflag + 1#32 }, none⟩
  | _ => none

def Opts.flag (o : Opts) (c : Byte) : Option Opts :=
  match o.number with
  | none => o.d.flag c
  | some number => if IsDigit c then some ⟨o.d, some (nextDigit number c)⟩ else o.commit.flag c

def Opts.flags : List Byte → Opts → Option Directive
  | [], o => some o.commit
  | c :: cs, o => (o.flag c).bind (Opts.flags cs)

def IsFlag (c : Byte) : Prop := (tokenOf (c.setWidth 32)).isFlag = true

instance : DecidablePred IsFlag := fun _ => inferInstanceAs (Decidable (_ = _))

theorem tokenOf_digit (c : Byte) : tokenOf (c.setWidth 32) = .digit ↔ IsDigit c ∧ c ≠ 48#8 := by
  revert c
  decide +kernel

theorem isDigit_isFlag {c : Byte} (h : IsDigit c) : IsFlag c := by
  revert c
  decide +kernel

theorem digit_extend {c : Byte} (h : IsDigit c) : (c.signExtend 32 : CInt) = c.setWidth 32 := by
  revert c
  decide +kernel

theorem flags_digits {number : CInt} (hb : ∀ c ∈ bs, IsDigit c) (hc : ¬ IsDigit (cs.headD 0#8)) :
    Opts.flags (bs ++ cs) ⟨d, some number⟩ = Opts.flags cs ⟨d.setNumber (bs.foldl nextDigit number), none⟩ := by
  induction bs generalizing number with
  | nil =>
    cases cs with
    | nil => rfl
    | cons c cs =>
      have hflag : Opts.flag ⟨d, some number⟩ c = (d.setNumber number).flag c := if_neg hc
      rw [List.nil_append, Opts.flags, hflag]
      rfl
  | cons b bs ih =>
    have hflag : Opts.flag ⟨d, some number⟩ b = some ⟨d, some (nextDigit number b)⟩ :=
      if_pos (hb b List.mem_cons_self)
    rw [List.cons_append, Opts.flags, hflag, Option.bind_some, ih (fun c hc => hb c (List.mem_cons_of_mem b hc))]
    rfl

theorem exists_prefix (P : Byte → Prop) [DecidablePred P] (bs : List Byte) :
    ∃ ds cs, bs = ds ++ cs ∧ (∀ c ∈ ds, P c) ∧ ∀ rest : List Byte, ¬ P (rest.headD 0#8) →
    ¬ P ((cs ++ rest).headD 0#8) := by
  induction bs with
  | nil => exact ⟨[], [], rfl, by simp, fun rest h => h⟩
  | cons c bs ih =>
    by_cases hc : P c
    · obtain ⟨ds, cs, rfl, hd, hr⟩ := ih
      exact ⟨c :: ds, cs, rfl, by simpa [hc] using hd, hr⟩
    · exact ⟨[], c :: bs, rfl, by simp, fun rest _ => hc⟩

theorem flagStep_iff {q : Word} (hd : tokenOf (c.setWidth 32) ≠ .digit) :
    FlagStep mem (c.setWidth 32) { d with fmt := q } d' ↔ ∃ d₁, d.flag c = some ⟨d₁, none⟩ ∧
      d' = { d₁ with fmt := q } := by
  unfold FlagStep Directive.flag
  cases hk : tokenOf (c.setWidth 32) with
  | digit => exact absurd hk hd
  | star =>
    simp only
    cases hap : d.ap with
    | nil => simp
    | cons precision ap =>
      have hset : ({ d with fmt := q, ap := ap, precision := precision } : Directive).processPrecision =
          { ({ d with ap := ap } : Directive).setNumber precision with fmt := q } :=
          Directive.setNumber_fmt { d with ap := ap } precision
      simp only [List.cons.injEq, Option.some.injEq, Opts.mk.injEq, and_true]
      constructor
      · rintro ⟨_, _, ⟨rfl, rfl⟩, rfl⟩
        exact ⟨_, rfl, hset⟩
      · rintro ⟨_, rfl, rfl⟩
        exact ⟨_, _, ⟨rfl, rfl⟩, hset.symm⟩
  | minus | zero | dot | alt | long => simp
  | char | error | string | decimal | unsigned | octal | pointer | hex | percent | other => simp

theorem Directive.flag_number {o : Opts} (hd : tokenOf (c.setWidth 32) ≠ .digit) (h : d.flag c = some o) :
    ∃ d₁, o = ⟨d₁, none⟩ := by
  unfold Directive.flag at h
  cases hk : tokenOf (c.setWidth 32) with
  | digit => exact absurd hk hd
  | star =>
    simp only [hk] at h
    cases hap : d.ap with
    | nil => simp [hap] at h
    | cons precision ap =>
      simp only [hap, Option.some.injEq] at h
      exact ⟨_, h.symm⟩
  | minus | zero | dot | alt | long =>
    simp only [hk, Option.some.injEq] at h
    exact ⟨_, h.symm⟩
  | char | error | string | decimal | unsigned | octal | pointer | hex | percent | other => simp [hk] at h

theorem numeral_iff (hd : tokenOf (c.setWidth 32) = .digit) (h : IsCString mem q (bs ++ cs))
    (hb : ∀ c ∈ bs, IsDigit c)
    (hc : ¬ IsDigit (cs.headD 0#8)) : FlagStep mem (c.setWidth 32) { d with fmt := q } d' ↔
      d' = { d.setNumber (bs.foldl nextDigit (nextDigit 0#32 c)) with fmt := q + BitVec.ofNat 32 bs.length } := by
  have hnum : 0#32 * 10#32 + c.setWidth 32 - chr '0' = nextDigit 0#32 c := by
    rw [nextDigit, digit_extend ((tokenOf_digit c).mp hd).1]
  have hiff := fun v => @digits_iff mem q (c.setWidth 32) bs cs 0#32 v h hb hc
  unfold FlagStep
  rw [hd]
  constructor
  · rintro ⟨fuel, fmt, number, hr, rfl⟩
    obtain ⟨rfl, rfl⟩ := Prod.mk.inj ((hiff _).mp ⟨fuel, hr⟩)
    rw [← hnum]
    exact d.setNumber_fmt _
  · rintro rfl
    obtain ⟨fuel, hr⟩ := (hiff _).mpr rfl
    refine ⟨fuel, _, _, hr, ?_⟩
    rw [← hnum]
    exact (d.setNumber_fmt _).symm

theorem scans_flags (h : IsCString mem q (body ++ rest)) (hb : ∀ c ∈ body, IsFlag c)
    (hr : ¬ IsFlag (rest.headD 0#8)) :
    Scans mem ro { d with fmt := q } r out ↔ ∃ d', Opts.flags body ⟨d, none⟩ = some d' ∧
      Scans mem ro { d' with fmt := q + BitVec.ofNat 32 body.length } r out := by
  induction hlen : body.length using Nat.strongRecOn generalizing body d q with
  | ind k ih =>
  subst hlen
  cases body with
  | nil =>
    rw [add_length_nil]
    exact ⟨fun hs => ⟨d, rfl, hs⟩, fun ⟨_, hd, hs⟩ => by cases hd; exact hs⟩
  | cons c body =>
    have hbody : ∀ c ∈ body, IsFlag c := fun b hm => hb b (List.mem_cons_of_mem c hm)
    have hcons : Opts.flags (c :: body) ⟨d, none⟩ = (d.flag c).bind (Opts.flags body) := rfl
    rw [scans_flag h.head (hb c List.mem_cons_self), hcons, add_length_cons]
    by_cases hd : tokenOf (c.setWidth 32) = .digit
    · -- a numeral is read to its end
      have hflag : d.flag c = some ⟨d, some (nextDigit 0#32 c)⟩ := by rw [Directive.flag, hd]
      obtain ⟨ds, cs, rfl, hds, hstop⟩ := exists_prefix IsDigit body
      have hcs := hstop rest (fun hn => hr (isDigit_isFlag hn))
      have hstop' : ¬ IsDigit (cs.headD 0#8) := by simpa using hstop [] (by decide)
      have htail : IsCString mem (q + 1#32) (ds ++ (cs ++ rest)) := by
        rw [← List.append_assoc]
        exact h.tail
      have hlt : cs.length < (c :: (ds ++ cs)).length := by
        rw [List.length_cons, List.length_append]
        omega
      rw [hflag, Option.bind_some, flags_digits hds hstop', add_length_append, ← ih cs.length hlt htail.drop
        (fun b hm => hbody b (List.mem_append_right ds hm)) rfl]
      simp only [numeral_iff hd htail hds hcs, exists_eq_left]
    · simp only [flagStep_iff hd]
      have hlt : body.length < (c :: body).length := by simp
      constructor
      · rintro ⟨_, ⟨d₁, hf, rfl⟩, hs⟩
        rw [ih body.length hlt h.tail hbody rfl] at hs
        rw [hf]
        exact hs
      · rintro ⟨d', hf, hs⟩
        obtain ⟨o, hf, hfs⟩ := Option.bind_eq_some_iff.mp hf
        obtain ⟨d₁, rfl⟩ := Directive.flag_number hd hf
        exact ⟨_, ⟨d₁, hf, rfl⟩, (ih body.length hlt h.tail hbody rfl).mpr ⟨d', hfs, hs⟩⟩

/-! ### The conversions -/

def directive (body : List Byte) (ap : List Word) : Option Directive := Opts.flags body ⟨.start 0#32 ap, none⟩

def IsKnown (c : Byte) : Prop := (tokenOf (c.setWidth 32)).isFlag = false ∧ tokenOf (c.setWidth 32) ≠ .other

instance : DecidablePred IsKnown := fun _ => inferInstanceAs (Decidable (_ ∧ _))

def intArg (extend : Word → BitVec 64) (lflag : CInt) (ap : List Word) : Option (BitVec 64 × List Word) :=
  if 2 ≤ lflag.toInt then
    match ap with
    | lo :: hi :: ap => some (hi ++ lo, ap)
    | _ => none
  else
    match ap with
    | w :: ap => some (extend w, ap)
    | [] => none

def errorCode (err : CInt) : CInt := if err.toInt < 0 then -err else err

def errorMessage (ro : Rodata) (code : CInt) : Word × List Word :=
  if maxError.toInt ≤ code.toInt ∨ ro.errorString code = 0#32 then (ro.errorD, [code])
    else (ro.percentS, [ro.errorString code])

/-- What a conversion emits, and the arguments that it leaves. -/
def Field (mem : Bytes) (ro : Rodata) (d : Directive) (ap : List Word) (out : List CInt) : Token → Prop
  | .char => ∃ w, d.ap = w :: ap ∧ out = [w]
  | .error =>
      ∃ err, d.ap = err :: ap ∧
      Emits false ro mem (errorMessage ro (errorCode err)).1 (errorMessage ro (errorCode err)).2 out
  | .string =>
      ∃ p, d.ap = p :: ap ∧
      ∃ fuel, Writes (putString logHost fuel d (if p = 0#32 then ro.nullString else p)) mem () out
  | .decimal =>
      ∃ num, intArg (·.signExtend 64) d.lflag d.ap = some (num, ap) ∧ Writes (putDecimal logHost d num) mem () out
  | .unsigned =>
      ∃ num, intArg (·.setWidth 64) d.lflag d.ap = some (num, ap) ∧ Writes (putNumber logHost d num 10#32) mem () out
  | .hex =>
      ∃ num, intArg (·.setWidth 64) d.lflag d.ap = some (num, ap) ∧ Writes (putNumber logHost d num 16#32) mem () out
  | .octal => ap = d.ap ∧ out = [chr 'X', chr 'X', chr 'X']
  | .pointer =>
      ∃ w o, d.ap = w :: ap ∧ Writes (putNumber logHost d (w.setWidth 64) 16#32) mem () o ∧
      out = chr '0' :: chr 'x' :: o
  | .percent => ap = d.ap ∧ out = [chr '%']
  | _ => False

theorem writes_vaArgLongLong {v : BitVec 64 × List Word} : Writes (vaArgLongLong ap) mem v out ↔
    (∃ lo hi, ap = lo :: hi :: v.2 ∧ v.1 = hi ++ lo) ∧ out = [] := by
  cases ap with
  | nil => simp [vaArgLongLong, not_writes_fault]
  | cons lo ap =>
    cases ap with
    | nil => simp [vaArgLongLong, not_writes_fault]
    | cons hi ap =>
      rw [vaArgLongLong, writes_pure, Prod.ext_iff]
      simp only [List.cons.injEq]
      constructor
      · rintro ⟨⟨h₁, h₂⟩, rfl⟩
        exact ⟨⟨lo, hi, ⟨rfl, rfl, h₂.symm⟩, h₁⟩, rfl⟩
      · rintro ⟨⟨_, _, ⟨rfl, rfl, h₂⟩, h₁⟩, rfl⟩
        exact ⟨⟨h₁, h₂.symm⟩, rfl⟩

theorem writes_intArg {extend : Word → BitVec 64} {v : BitVec 64 × List Word} {lflag : CInt} :
    Writes (if 2 ≤ lflag.toInt then vaArgLongLong ap else do
      let (w, ap) ← vaArg ap
      return (extend w, ap)) mem v out ↔ intArg extend lflag ap = some v ∧ out = [] := by
  rw [writes_ite]
  unfold intArg
  by_cases hl : 2 ≤ lflag.toInt
  · simp only [hl, true_and, not_true_eq_false, false_and, or_false, if_true, writes_vaArgLongLong]
    apply and_congr_left'
    match ap with
    | [] => simp
    | [_] => simp
    | lo :: hi :: ap => simp [Prod.ext_iff, eq_comm, and_comm]
  · simp only [hl, false_and, not_false_eq_true, true_and, false_or, if_false]
    rw [writes_bind (.vaArg _) (fun _ => .pure _)]
    simp only [writes_vaArg, writes_pure]
    match ap with
    | [] => simp
    | w :: ap =>
      constructor
      · rintro ⟨⟨_, _⟩, _, _, ⟨h, rfl⟩, ⟨rfl, rfl⟩, rfl⟩
        cases h
        exact ⟨rfl, rfl⟩
      · rintro ⟨h, rfl⟩
        cases h
        exact ⟨(w, ap), [], [], ⟨rfl, rfl⟩, ⟨rfl, rfl⟩, rfl⟩

section Argument

variable {α : Type} {x : Prog (Bytes × List CInt) (α × List Word)} {X : α × List Word → Prop}

theorem writes_argument (y : α → Prog (Bytes × List CInt) Unit) (hx : Blind x) (hy : ∀ a, Blind (y a))
    (hX : ∀ a o, Writes x mem a o ↔ X a ∧ o = []) :
    Writes (x >>= fun a => y a.1 >>= fun _ => pure (p, a.2)) mem r out ↔ r.1 = p ∧ ∃ a, X (a, r.2) ∧
      Writes (y a) mem () out := by
  rw [writes_bind hx (fun a => (hy a.1).bind (fun _ => .pure _))]
  constructor
  · rintro ⟨a, _, o, ha, hw, rfl⟩
    obtain ⟨hXa, rfl⟩ := (hX a _).mp ha
    rw [writes_bind (hy a.1) (fun _ => .pure _)] at hw
    obtain ⟨_, o₁, o₂, hya, hp, rfl⟩ := hw
    obtain ⟨rfl, rfl⟩ := writes_pure.mp hp
    rw [List.nil_append, List.append_nil]
    exact ⟨rfl, a.1, hXa, hya⟩
  · rintro ⟨hr, a, hXa, hw⟩
    refine ⟨(a, r.2), [], out, (hX _ []).mpr ⟨hXa, rfl⟩, ?_, rfl⟩
    rw [writes_bind (hy a) (fun _ => .pure _)]
    exact ⟨(), out, [], hw, writes_pure.mpr ⟨Prod.ext hr rfl, rfl⟩, by rw [List.append_nil]⟩

end Argument

theorem errorCode_nonneg {err : CInt} : 0 ≤ (errorCode err).toInt ↔ err ≠ BitVec.intMin 32 := by
  have hlt := BitVec.toInt_lt (x := err)
  have hge := BitVec.le_toInt (x := err)
  unfold errorCode
  constructor
  · rintro h rfl
    exact absurd h (by decide)
  · intro hne
    split
    · rw [BitVec.toInt_neg_of_ne_intMin hne]
      omega
    · omega

theorem writes_errorCode {err code : CInt} :
    Writes (if err.toInt < 0 then signedNeg err else pure err) mem code out ↔ code = errorCode err ∧ out = [] := by
  unfold errorCode
  split
  · exact writes_signedOp
  · exact writes_pure

theorem errorEntry_eq {err : CInt} (h : ¬ maxError.toInt ≤ (errorCode err).toInt) :
    ro.errorString (4#32 * errorCode err / 4#32) = ro.errorString (errorCode err) := by
  by_cases hn : err = BitVec.intMin 32
  · -- neither entry is one of a message
    rw [hn]
    rfl
  · have hmax : maxError.toInt = 7 := by decide
    have hpos := errorCode_nonneg.mpr hn
    have hnat := BitVec.toInt_eq_toNat_of_msb (x := errorCode err)
      (by rw [BitVec.msb_eq_toInt, decide_eq_false_iff_not]; omega)
    have heq : 4#32 * errorCode err / 4#32 = errorCode err := by
      apply BitVec.eq_of_toNat_eq
      simp only [BitVec.toNat_udiv, BitVec.toNat_mul, BitVec.toNat_ofNat, Nat.reducePow, Nat.reduceMod]
      omega
    rw [heq]

/-- The message for an error is the one of its code, also for the most negative one, whose entry is the first of the
table. -/
theorem putError_agree {f : Word → List Word → Prog (Bytes × List CInt) Unit} {err : CInt} :
    Agree (putError ro f (errorCode err))
      (f (errorMessage ro (errorCode err)).1 (errorMessage ro (errorCode err)).2) := by
  intro s u s'
  unfold putError errorMessage
  by_cases hm : maxError.toInt ≤ (errorCode err).toInt
  · rw [if_pos hm, if_pos (Or.inl hm)]
  · have hcheck : ∀ v t, Returns false (Prog.check (fun _ => decide (0 ≤ (errorCode err).toInt))) s v t ↔ True ∧
      v = () ∧ t = s := by
      intro v t
      simp [returns_check]
    rw [if_neg hm, returns_bind_of hcheck, true_and, errorEntry_eq hm]
    by_cases hz : ro.errorString (errorCode err) = 0#32
    · rw [if_pos hz, if_pos (Or.inr hz)]
    · rw [if_neg hz, if_neg (not_or.mpr ⟨hm, hz⟩)]

theorem writes_putError {err : CInt} :
    Writes (putError ro (fun fmt ap => vprintfmt logHost ro n fmt ap) (errorCode err)) mem () out ↔
    Writes (vprintfmt logHost ro n (errorMessage ro (errorCode err)).1 (errorMessage ro (errorCode err)).2) mem
      () out :=
  forall_congr' (fun _ => putError_agree _ _ _)

theorem writes_error :
    Writes (convert logHost ro (fun fmt ap => vprintfmt logHost ro fuel fmt ap) fuel .error ch d) mem r out ↔
    r.1 = d.fmt ∧ ∃ err, d.ap = err :: r.2 ∧
      Writes (vprintfmt logHost ro fuel (errorMessage ro (errorCode err)).1 (errorMessage ro (errorCode err)).2)
        mem () out := by
  have hcode : ∀ err : CInt, Blind (if err.toInt < 0 then signedNeg err else pure err) :=
    fun err mem l l' => .ite (forward_signedOp _ _) (.pure _)
  have hput : ∀ err, Blind (putError ro (fun fmt ap => vprintfmt logHost ro fuel fmt ap) err) :=
    fun err mem l l' => .ite (Blind.vprintfmt fuel _ _ mem l l') ((Forward.check _).bind (fun _ =>
      .ite (Blind.vprintfmt fuel _ _ mem l l') (Blind.vprintfmt fuel _ _ mem l l')))
  have hrest : ∀ (err : CInt) (ap : List Word), Blind (do
      let err ← (if err.toInt < 0 then signedNeg err else pure err)
      putError ro (fun fmt ap => vprintfmt logHost ro fuel fmt ap) err
      return (d.fmt, ap)) := fun err ap => (hcode err).bind (fun e => (hput e).bind (fun _ => .pure _))
  rw [convert, writes_bind (.vaArg _) (fun a => hrest a.1 a.2)]
  constructor
  · rintro ⟨⟨err, ap⟩, _, o, hget, hw, rfl⟩
    obtain ⟨ha, rfl⟩ := writes_vaArg.mp hget
    rw [writes_bind (hcode err) (fun e => (hput e).bind (fun _ => .pure _))] at hw
    obtain ⟨_, _, o, hneg, hw, rfl⟩ := hw
    obtain ⟨rfl, rfl⟩ := writes_errorCode.mp hneg
    rw [writes_bind (hput _) (fun _ => .pure _)] at hw
    obtain ⟨_, o, _, hmsg, hret, rfl⟩ := hw
    obtain ⟨rfl, rfl⟩ := writes_pure.mp hret
    rw [List.nil_append, List.nil_append, List.append_nil]
    exact ⟨rfl, err, ha, writes_putError.mp hmsg⟩
  · rintro ⟨hr, err, ha, hmsg⟩
    refine ⟨(err, r.2), [], out, writes_vaArg.mpr ⟨ha, rfl⟩, ?_, rfl⟩
    rw [writes_bind (hcode err) (fun e => (hput e).bind (fun _ => .pure _))]
    refine ⟨errorCode err, [], out, writes_errorCode.mpr ⟨rfl, rfl⟩, ?_, rfl⟩
    rw [writes_bind (hput _) (fun _ => .pure _)]
    exact ⟨(), out, [], writes_putError.mpr hmsg, writes_pure.mpr ⟨Prod.ext hr rfl, rfl⟩, (List.append_nil out).symm⟩

theorem converts_error : Converts mem ro .error ch d r out ↔ r.1 = d.fmt ∧ Field mem ro d r.2 out .error := by
  simp only [Converts, Field, emits_iff_writes, writes_error]
  constructor
  · rintro ⟨fuel, hr, err, ha, hmsg⟩
    exact ⟨hr, err, ha, fuel, hmsg⟩
  · rintro ⟨hr, err, ha, fuel, hmsg⟩
    exact ⟨fuel, hr, err, ha, hmsg⟩

theorem converts_of {token : Token} {P : Prop}
    (h : ∀ fuel, Writes (convert logHost ro (fun fmt ap => vprintfmt logHost ro fuel fmt ap)
    fuel token ch d) mem r out ↔ P) : Converts mem ro token ch d r out ↔ P :=
  ⟨fun ⟨fuel, hw⟩ => (h fuel).mp hw, fun hp => ⟨0, (h 0).mpr hp⟩⟩

theorem converts_string : Converts mem ro .string ch d r out ↔ r.1 = d.fmt ∧ Field mem ro d r.2 out .string := by
  have hw : ∀ fuel,
    Writes (convert logHost ro (fun fmt ap => vprintfmt logHost ro fuel fmt ap) fuel .string ch d) mem r out ↔
      r.1 = d.fmt ∧ ∃ p, d.ap = p :: r.2 ∧
        Writes (putString logHost fuel d (if p = 0#32 then ro.nullString else p)) mem () out :=
    fun fuel => writes_argument (fun p => putString logHost fuel d (if p = 0#32 then ro.nullString else p))
      (.vaArg d.ap)
      (fun _ => .putString _ _ _) (fun _ _ => writes_vaArg)
  simp only [Converts, hw]
  constructor
  · rintro ⟨fuel, hr, p, ha, h⟩
    exact ⟨hr, p, ha, fuel, h⟩
  · rintro ⟨hr, p, ha, fuel, h⟩
    exact ⟨fuel, hr, p, ha, h⟩

theorem converts_octal : Converts mem ro .octal ch d r out ↔ r.1 = d.fmt ∧ Field mem ro d r.2 out .octal := by
  have hX : Blind (do logHost.putch (chr 'X'); pure (d.fmt, d.ap)) := (Blind.putch _).bind (fun _ => .pure _)
  have hXX : Blind (do logHost.putch (chr 'X'); logHost.putch (chr 'X'); pure (d.fmt, d.ap)) :=
    (Blind.putch _).bind (fun _ => hX)
  refine converts_of (fun fuel => ?_)
  simp only [convert, writes_putch_bind hXX, writes_putch_bind hX, writes_putch_bind (Blind.pure _),
    writes_pure, Field]
  constructor
  · rintro ⟨_, rfl, _, rfl, _, rfl, rfl, rfl⟩
    exact ⟨rfl, rfl, rfl⟩
  · rintro ⟨h₁, h₂, rfl⟩
    exact ⟨_, rfl, _, rfl, _, rfl, Prod.ext h₁ h₂, rfl⟩

theorem converts_pointer : Converts mem ro .pointer ch d r out ↔ r.1 = d.fmt ∧ Field mem ro d r.2 out .pointer := by
  have hnumber : Blind (do
      let (w, ap) ← vaArg d.ap
      putNumber logHost d (w.setWidth 64) 16#32
      pure (d.fmt, ap)) := (Blind.vaArg _).bind (fun a => (Blind.printnum _ _ _ _ _).bind (fun _ => .pure _))
  have harg : ∀ o, Writes (do
      let (w, ap) ← vaArg d.ap
      putNumber logHost d (w.setWidth 64) 16#32
      pure (d.fmt, ap)) mem r o ↔ r.1 = d.fmt ∧ ∃ w, d.ap = w :: r.2 ∧
        Writes (putNumber logHost d (w.setWidth 64) 16#32) mem () o :=
    fun o => writes_argument (fun w : Word => putNumber logHost d (w.setWidth 64) 16#32) (.vaArg d.ap)
      (fun _ => .printnum _ _ _ _ _)
      (fun _ _ => writes_vaArg)
  refine converts_of (fun fuel => ?_)
  simp only [convert, writes_putch_bind ((Blind.putch _).bind (fun _ => hnumber)), writes_putch_bind hnumber,
    harg, Field]
  constructor
  · rintro ⟨_, rfl, o, rfl, h₁, w, hw, ho⟩
    exact ⟨h₁, w, o, hw, ho, rfl⟩
  · rintro ⟨h₁, w, o, hw, ho, rfl⟩
    exact ⟨_, rfl, o, rfl, h₁, w, hw, ho⟩

theorem converts_percent (hch : ch = chr '%') :
    Converts mem ro .percent ch d r out ↔ r.1 = d.fmt ∧ Field mem ro d r.2 out .percent := by
  refine converts_of (fun fuel => ?_)
  simp only [convert, writes_putch_bind (Blind.pure _), writes_pure, hch, Field]
  constructor
  · rintro ⟨_, rfl, rfl, rfl⟩
    exact ⟨rfl, rfl, rfl⟩
  · rintro ⟨h₁, h₂, rfl⟩
    exact ⟨_, rfl, Prod.ext h₁ h₂, rfl⟩

theorem tokenOf_percent {c : Byte} (h : tokenOf (c.setWidth 32) = .percent) : c.setWidth 32 = chr '%' := by
  revert c
  decide +kernel

theorem converts_known (hc : IsKnown c) : Converts mem ro (tokenOf (c.setWidth 32)) (c.setWidth 32) d r out ↔
    r.1 = d.fmt ∧ Field mem ro d r.2 out (tokenOf (c.setWidth 32)) := by
  cases hk : tokenOf (c.setWidth 32) with
  | minus | zero | digit | star | dot | alt | long => exact absurd hc.1 (by simp [hk, Token.isFlag])
  | other => exact absurd hk hc.2
  | error => exact converts_error
  | string => exact converts_string
  | octal => exact converts_octal
  | pointer => exact converts_pointer
  | percent => exact converts_percent (tokenOf_percent hk)
  | char =>
    refine converts_of (fun fuel => ?_)
    apply Iff.trans (writes_argument logHost.putch (.vaArg d.ap) .putch (fun _ _ => writes_vaArg))
    simp only [writes_putch, Field]
  | decimal =>
    exact converts_of
      (fun fuel => writes_argument (putDecimal logHost d) (.getint _ _) (.putDecimal d) (fun _ _ => writes_intArg))
  | unsigned =>
    exact converts_of
      (fun fuel => writes_argument (putNumber logHost d · 10#32) (.getuint _ _) (fun _ => .printnum _ _ _ _ _)
      (fun _ _ => writes_intArg))
  | hex =>
    exact converts_of
      (fun fuel => writes_argument (putNumber logHost d · 16#32) (.getuint _ _) (fun _ => .printnum _ _ _ _ _)
      (fun _ _ => writes_intArg))

/-! ### One directive of a format -/

theorem rewind_run (hp : mem (q - 1#32) = some 37#8) (h : Holds mem q body) (hb : ∀ c ∈ body, c ≠ 37#8)
    (hn : body.length < n) :
    Returns false (rewind logHost n (q + BitVec.ofNat 32 body.length)) (mem, []) q (mem, []) := by
  have hpercent : ∀ c : Byte, (c.signExtend 32 : CInt) = chr '%' ↔ c = 37#8 := by decide +kernel
  obtain ⟨n, rfl⟩ : ∃ k, n = k + 1 := ⟨n - 1, by omega⟩
  induction body using List.reverseRecOn generalizing n with
  | nil =>
    rw [add_length_nil, rewind, returns_bind]
    exact ⟨_, _, returns_charAt.mpr ⟨hp, rfl⟩, returns_ite.mpr (Or.inl ⟨by decide, returns_pure.mpr ⟨rfl, rfl⟩⟩)⟩
  | append_singleton body c ih =>
    obtain ⟨hbody, hc, _⟩ := holds_append.mp h
    rw [List.length_append, List.length_singleton] at hn
    obtain ⟨n, rfl⟩ : ∃ k, n = k + 1 := ⟨n - 1, by omega⟩
    have hback : q + BitVec.ofNat 32 (body ++ [c]).length - 1#32 = q + BitVec.ofNat 32 body.length := by
      rw [add_length_append, List.length_singleton, BitVec.add_sub_cancel]
    have hne : c ≠ 37#8 := hb c (List.mem_append_right body List.mem_cons_self)
    have hrun := ih hbody (fun b hm => hb b (List.mem_append_left [c] hm)) n (by omega)
    rw [rewind, returns_bind, hback]
    exact ⟨c, _, returns_charAt.mpr ⟨hc, rfl⟩, returns_ite.mpr (Or.inr ⟨mt (hpercent c).mp hne, hrun⟩)⟩

theorem isFlag_ne_percent (h : IsFlag c) : c ≠ 37#8 := by
  rintro rfl
  exact absurd h (by decide)

theorem writes_rewind (hp : mem (q - 1#32) = some 37#8) (h : Holds mem q body) (hb : ∀ c ∈ body, IsFlag c) :
    (∃ n, Writes (rewind logHost n (q + BitVec.ofNat 32 body.length)) mem p out) ↔ p = q ∧ out = [] := by
  have hrun := fun n hn => @rewind_run mem q body n hp h (fun c hc => isFlag_ne_percent (hb c hc)) hn
  constructor
  · rintro ⟨n, hw⟩
    have hmono := (Host.Refines.refl logHost).rewind (Nat.le_max_left n (body.length + 1))
      (q + BitVec.ofNat 32 body.length)
    obtain ⟨rfl, hs⟩ := ((hw.of_forward hmono) []).unique (hrun _ (by omega))
    exact ⟨rfl, (Prod.mk.inj hs).2⟩
  · rintro ⟨rfl, rfl⟩
    obtain ⟨o, hs, hw⟩ := (Blind.rewind _ _).writes (hrun (body.length + 1) (by omega))
    obtain rfl : [] = o := (Prod.mk.inj hs).2
    exact ⟨_, hw⟩

theorem converts_other (hp : mem (q - 1#32) = some 37#8) (h : Holds mem q body) (hb : ∀ c ∈ body, IsFlag c) :
    Converts mem ro .other ch { d with fmt := q + BitVec.ofNat 32 body.length + 1#32 } r out ↔ r = (q, d.ap) ∧
      out = [chr '%'] := by
  have hblind : ∀ n, Blind (do
      let fmt ← rewind logHost n (q + BitVec.ofNat 32 body.length)
      pure (fmt, d.ap)) := fun n => (Blind.rewind _ _).bind (fun _ => .pure _)
  have hconvert : ∀ n, Writes (convert logHost ro (fun fmt ap => vprintfmt logHost ro n fmt ap) n .other ch
      { d with fmt := q + BitVec.ofNat 32 body.length + 1#32 }) mem r out ↔
      ∃ o, out = chr '%' :: o ∧ ∃ fmt, Writes (rewind logHost n (q + BitVec.ofNat 32 body.length)) mem fmt o ∧
      r = (fmt, d.ap) := by
    intro n
    simp only [convert, BitVec.add_sub_cancel, writes_putch_bind (hblind n)]
    refine exists_congr (fun o => and_congr_right (fun _ => ?_))
    rw [writes_bind (.rewind _ _) (fun _ => .pure _)]
    constructor
    · rintro ⟨fmt, o, _, hw, hret, rfl⟩
      obtain ⟨hr, rfl⟩ := writes_pure.mp hret
      rw [List.append_nil]
      exact ⟨fmt, hw, hr⟩
    · rintro ⟨fmt, hw, hr⟩
      exact ⟨fmt, o, [], hw, writes_pure.mpr ⟨hr, rfl⟩, (List.append_nil o).symm⟩
  simp only [Converts, hconvert]
  constructor
  · rintro ⟨n, o, rfl, fmt, hw, rfl⟩
    obtain ⟨rfl, rfl⟩ := (writes_rewind hp h hb).mp ⟨n, hw⟩
    exact ⟨rfl, rfl⟩
  · rintro ⟨rfl, rfl⟩
    obtain ⟨n, hw⟩ := (writes_rewind hp h hb).mpr ⟨rfl, rfl⟩
    exact ⟨n, [], rfl, q, hw, rfl⟩

theorem IsKnown.not_isFlag (h : IsKnown c) : ¬ IsFlag c := by
  rw [IsFlag, h.1]
  exact Bool.false_ne_true

theorem field_fmt (token : Token) : Field mem ro { d with fmt := q } ap out token ↔ Field mem ro d ap out token := by
  cases token <;> rfl

theorem scans_directive (h : IsCString mem q (body ++ rest)) (hb : ∀ c ∈ body, IsFlag c)
    (hr : ¬ IsFlag (rest.headD 0#8)) :
    Scans mem ro (.start q ap) r out ↔ ∃ d, directive body ap = some d ∧
      Converts mem ro (tokenOf ((rest.headD 0#8).setWidth 32)) ((rest.headD 0#8).setWidth 32)
        { d with fmt := q + BitVec.ofNat 32 body.length + 1#32 } r out := by
  have hs : Scans mem ro (.start q ap) r out ↔ _ := scans_flags (d := .start 0#32 ap) h hb hr
  rw [hs]
  have hnext := h.drop.next
  refine exists_congr (fun d => and_congr_right (fun _ => ?_))
  exact scans_convert (d := { d with fmt := q + BitVec.ofNat 32 body.length }) hnext (Bool.eq_false_iff.mpr hr)

theorem emits_known (h : IsCString mem fmt (37#8 :: (body ++ c :: rest))) (hb : ∀ c ∈ body, IsFlag c)
    (hc : IsKnown c) :
    Emits false ro mem fmt ap out ↔ ∃ d ap' o₁ o₂, directive body ap = some d ∧
      Field mem ro d ap' o₁ (tokenOf (c.setWidth 32)) ∧
      Emits false ro mem (fmt + 1#32 + BitVec.ofNat 32 body.length + 1#32) ap' o₂ ∧ out = o₁ ++ o₂ := by
  rw [emits_percent h.head]
  simp only [scans_directive h.tail hb hc.not_isFlag, List.headD_cons, converts_known hc, field_fmt]
  constructor
  · rintro ⟨⟨_, ap'⟩, o₁, o₂, ⟨d, hd, rfl, hf⟩, he, rfl⟩
    exact ⟨d, ap', o₁, o₂, hd, hf, he, rfl⟩
  · rintro ⟨d, ap', o₁, o₂, hd, hf, he, rfl⟩
    exact ⟨(_, ap'), o₁, o₂, ⟨d, hd, rfl, hf⟩, he, rfl⟩

theorem emits_single (hd : directive body ap = some d) (h : IsCString mem fmt (37#8 :: (body ++ [c])))
    (hb : ∀ c ∈ body, IsFlag c)
    (hc : IsKnown c) : Emits false ro mem fmt ap out ↔ ∃ ap', Field mem ro d ap' out (tokenOf (c.setWidth 32)) := by
  rw [emits_known h hb hc]
  simp only [hd, emits_stop h.tail.drop.tail.nil]
  constructor
  · rintro ⟨_, ap', o, _, hd', hf, rfl, rfl⟩
    obtain rfl := Option.some.inj hd'
    rw [List.append_nil]
    exact ⟨ap', hf⟩
  · rintro ⟨ap', hf⟩
    exact ⟨d, ap', out, [], rfl, hf, rfl, (List.append_nil out).symm⟩

theorem token_unknown (h : ¬ IsFlag c) (hk : ¬ IsKnown c) : tokenOf (c.setWidth 32) = .other := by
  by_contra ho
  exact hk ⟨Bool.eq_false_iff.mpr h, ho⟩

theorem emits_unknown (h : IsCString mem fmt (37#8 :: (body ++ rest))) (hb : ∀ c ∈ body, IsFlag c)
    (hr : ¬ IsFlag (rest.headD 0#8))
    (hk : ¬ IsKnown (rest.headD 0#8)) :
    Emits false ro mem fmt ap out ↔ ∃ d o, directive body ap = some d ∧ Emits false ro mem (fmt + 1#32) d.ap o ∧
      out = chr '%' :: o := by
  have hp : mem (fmt + 1#32 - 1#32) = some 37#8 := by
    rw [BitVec.add_sub_cancel]
    exact h.head
  have hh := h.tail.holds
  rw [List.append_assoc, holds_append] at hh
  rw [emits_percent h.head]
  simp only [scans_directive h.tail hb hr, token_unknown hr hk, converts_other hp hh.1 hb]
  constructor
  · rintro ⟨_, _, o, ⟨d, hd, rfl, rfl⟩, he, rfl⟩
    exact ⟨d, o, hd, he, rfl⟩
  · rintro ⟨d, o, hd, he, rfl⟩
    exact ⟨_, _, o, ⟨d, hd, rfl, rfl⟩, he, rfl⟩

/-- A format is read in four ways: it ends, it goes on with a character, with a conversion, or with an escape
sequence that is
not known and read once more, without the percent sign. -/
theorem format_induction {P : List Byte → Prop} (stop : P []) (text : ∀ c cs, c ≠ 37#8 → P cs → P (c :: cs))
    (known : ∀ body c rest, (∀ c ∈ body, IsFlag c) → IsKnown c → P rest → P (37#8 :: (body ++ c :: rest)))
    (unknown : ∀ body rest, (∀ c ∈ body, IsFlag c) → ¬ IsFlag (rest.headD 0#8) → ¬ IsKnown (rest.headD 0#8) →
    P (body ++ rest) →
      P (37#8 :: (body ++ rest))) (bs : List Byte) : P bs := by
  induction hlen : bs.length using Nat.strongRecOn generalizing bs with
  | ind k ih =>
  subst hlen
  cases bs with
  | nil => exact stop
  | cons c cs =>
    by_cases hp : c = 37#8
    · subst hp
      obtain ⟨body, rest, rfl, hb, hstop⟩ := exists_prefix IsFlag cs
      have hr : ¬ IsFlag (rest.headD 0#8) := by simpa using hstop [] (by decide)
      by_cases hk : IsKnown (rest.headD 0#8)
      · cases rest with
        | nil => exact absurd hk (by decide)
        | cons c rest => exact known body c rest hb hk (ih rest.length (by simp; omega) rest rfl)
      · exact unknown body rest hb hr hk (ih _ (by simp) _ rfl)
    · exact text c cs hp (ih cs.length (by simp) cs rfl)

theorem emits_move (h : IsCString mem p bs) (h' : IsCString mem q bs) :
    Emits false ro mem p ap out ↔ Emits false ro mem q ap out := by
  induction bs using format_induction generalizing p q ap out with
  | stop => rw [emits_stop h.nil, emits_stop h'.nil]
  | text c cs hc ih =>
    rw [emits_text h.head hc h.head_ne, emits_text h'.head hc h'.head_ne]
    simp only [ih h.tail h'.tail]
  | known body c rest hb hc ih =>
    rw [emits_known h hb hc, emits_known h' hb hc]
    simp only [ih h.tail.drop.tail h'.tail.drop.tail]
  | unknown body rest hb hr hk ih =>
    rw [emits_unknown h hb hr hk, emits_unknown h' hb hr hk]
    simp only [ih h.tail h'.tail]

end Cezos
