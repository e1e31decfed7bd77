import Cezos.Stdio.Format
import Mathlib.Algebra.Group.Int.Defs
import Mathlib.Algebra.Group.Nat.Defs

namespace Cezos

open Lib

variable {ro : Rodata} {mem : Bytes} {p q : Word} {ap ap' : List Word} {d : Directive} {ch width padc : CInt}
    {out : List CInt}
  {c : Byte} {t s : List Byte} {fuel n : ℕ}

theorem pad_writes : Writes (pad logHost ch width) mem () (List.replicate width.toInt.toNat ch) := by
  have hloop : ∀ i n, Writes (Prog.forUp (fun _ => logHost.putch ch) i n) mem () (List.replicate n ch) := by
    intro i n
    induction n generalizing i with
    | zero => exact fun l => returns_forUp_zero.mpr (by rw [List.replicate_zero, List.append_nil])
    | succ n ih =>
      intro l
      refine returns_forUp_succ.mpr ⟨_, returns_putch.mpr rfl, ?_⟩
      have hrest := ih (i + 1) (l ++ [ch])
      rwa [List.append_assoc, List.singleton_append, ← List.replicate_succ] at hrest
  exact hloop 0 _

def numeral (base n : ℕ) : List CInt := (Nat.toDigits base n).map chr

theorem length_numeral_pos (base n : ℕ) : 0 < (numeral base n).length := by
  rw [numeral, List.length_map]
  exact Nat.length_toDigits_pos

theorem numeral_of_lt {base n : ℕ} (h : n < base) : numeral base n = [chr n.digitChar] := by
  rw [numeral, Nat.toDigits_of_lt_base h, List.map_singleton]

theorem numeral_of_le {base n : ℕ} (hb : 1 < base) (h : base ≤ n) :
    numeral base n = numeral base (n / base) ++ [chr (n % base).digitChar] := by
  rw [numeral, Nat.toDigits_of_base_le hb h, List.map_append, List.map_singleton, numeral]

theorem digitChar_eq {n : ℕ} (h : n < 16) : digitChar n = chr n.digitChar := by
  revert n
  decide

theorem div_base_lt {base number : ℕ} (hb : 2 ≤ base) (hn : number < 2 ^ (n + 1)) : number / base < 2 ^ n := by
  apply Nat.div_lt_of_lt_mul
  calc number < 2 ^ (n + 1) := hn
    _ = 2 * 2 ^ n := by rw [Nat.pow_succ, Nat.mul_comm]
    _ ≤ base * 2 ^ n := Nat.mul_le_mul_right _ hb

theorem printnum_writes {num : BitVec 64} {base : Word} (hb : 2 ≤ base.toNat) (hle : base.toNat ≤ 16) (h0 : n ≠ 0)
    (hn : num.toNat < 2 ^ n) : Writes (printnum logHost n num base width padc) mem ()
      (List.replicate (width - BitVec.ofNat 32 (numeral base.toNat num.toNat).length).toInt.toNat padc ++
        numeral base.toNat num.toNat) := by
  have hbase : (base.setWidth 64).toNat = base.toNat := by
    rw [BitVec.toNat_setWidth]
    omega
  induction n generalizing num width with
  | zero => exact absurd rfl h0
  | succ n ih =>
    have hdigit : digitChar (num % base.setWidth 64).toNat = chr (num.toNat % base.toNat).digitChar := by
      rw [BitVec.toNat_umod, hbase]
      exact digitChar_eq (Nat.lt_of_lt_of_le (Nat.mod_lt _ (by omega)) hle)
    have hprint : Blind
      (if base.setWidth 64 ≤ num then printnum logHost n (num / base.setWidth 64) base (width - 1#32) padc
        else pad logHost padc (width - 1#32)) := fun mem l l' =>
          .ite (Blind.printnum _ _ _ _ _ mem l l') (Blind.pad _ _ mem l l')
    have hturn : ∀ {o},
      Writes (if base.setWidth 64 ≤ num then printnum logHost n (num / base.setWidth 64) base (width - 1#32) padc
        else pad logHost padc (width - 1#32)) mem () o →
        Writes (printnum logHost (n + 1) num base width padc) mem ()
          (o ++ [chr (num.toNat % base.toNat).digitChar]) := by
      intro o ho l
      rw [printnum, signedSub, returns_bind]
      refine ⟨_, _, signedOp_returns _ _, returns_bind.mpr ⟨(), _, ho l, ?_⟩⟩
      rw [hdigit]
      exact returns_putch.mpr (by rw [List.append_assoc])
    by_cases hle : base.toNat ≤ num.toNat
    · have hcond : base.setWidth 64 ≤ num := by rwa [BitVec.le_def, hbase]
      have hdiv : (num / base.setWidth 64).toNat = num.toNat / base.toNat := by rw [BitVec.toNat_udiv, hbase]
      have hlt : num.toNat / base.toNat < 2 ^ n := div_base_lt hb hn
      have hn0 : n ≠ 0 := by
        rintro rfl
        omega
      have hrest := @ih (width - 1#32) (num / base.setWidth 64) hn0 (by rwa [hdiv])
      rw [numeral_of_le (by omega) hle, List.length_append, List.length_singleton, BitVec.ofNat_add,
        ← List.append_assoc]
      rw [hdiv] at hrest
      have hw : width - 1#32 - BitVec.ofNat 32 (numeral base.toNat (num.toNat / base.toNat)).length =
          width - (BitVec.ofNat 32 (numeral base.toNat (num.toNat / base.toNat)).length + BitVec.ofNat 32 1) := by
        rw [BitVec.sub_sub, BitVec.add_comm]
      rw [← hw]
      exact hturn (by rw [if_pos hcond]; exact hrest)
    · have hcond : ¬ base.setWidth 64 ≤ num := by rwa [BitVec.le_def, hbase]
      rw [numeral_of_lt (by omega), List.length_singleton]
      have hlast := hturn (by rw [if_neg hcond]; exact pad_writes)
      rwa [Nat.mod_eq_of_lt (by omega)] at hlast

def numberText (d : Directive) (base n : ℕ) : List CInt :=
  List.replicate (d.width - BitVec.ofNat 32 (numeral base n).length).toInt.toNat d.padc ++ numeral base n

def decimalText (d : Directive) (v : Int) : List CInt :=
  (if v < 0 then [chr '-'] else []) ++ numberText d 10 v.natAbs

theorem putNumber_writes {num : BitVec 64} {base : Word} (hb : 2 ≤ base.toNat) (hle : base.toNat ≤ 16) :
    Writes (putNumber logHost d num base) mem () (numberText d base.toNat num.toNat) :=
  printnum_writes hb hle (by decide) num.isLt

theorem toNat_neg_eq {num : BitVec 64} (h : num.toInt < 0) : (-num).toNat = num.toInt.natAbs := by
  rw [BitVec.toNat_neg]
  rw [BitVec.toInt_eq_toNat_cond] at h ⊢
  have hlt := num.isLt
  split at h
  · omega
  · omega

theorem toNat_eq_natAbs {num : BitVec 64} (h : ¬ num.toInt < 0) : num.toNat = num.toInt.natAbs := by
  rw [BitVec.toInt_eq_toNat_cond] at h ⊢
  have hlt := num.isLt
  split at h
  · omega
  · omega

theorem putDecimal_writes {num : BitVec 64} :
    Writes (putDecimal logHost d num) mem () (decimalText d num.toInt) := by
  unfold putDecimal decimalText
  by_cases hneg : num.toInt < 0
  · rw [if_pos hneg, if_pos hneg, ← toNat_neg_eq hneg]
    have hnumber : Writes (putNumber logHost d (-num) 10#32) mem () (numberText d 10 (-num).toNat) :=
      putNumber_writes (by decide) (by decide)
    have hblind : ∀ num, Blind (putNumber logHost d num 10#32) := fun num => .printnum 64 num 10#32 d.width d.padc
    have hrest : Blind (do
        let num ← signedNeg num
        putNumber logHost d num 10#32) := (Blind.signedOp _ _).bind hblind
    rw [writes_putch_bind hrest]
    refine ⟨_, rfl, ?_⟩
    rw [signedNeg, writes_bind (.signedOp _ _) hblind]
    exact ⟨_, [], _, writes_signedOp.mpr ⟨rfl, rfl⟩, hnumber, rfl⟩
  · rw [if_neg hneg, if_neg hneg, ← toNat_eq_natAbs hneg]
    exact putNumber_writes (by decide) (by decide)

/-- Where the characters `t` of a string end: at a character `c` that is its end, or that the precision leaves
out. -/
def Cut (precision : CInt) (t : List Byte) (c : Byte) : Prop :=
  (precision.toInt < 0 ∧ c = 0#8) ∨
  ((t.length : Int) ≤ precision.toInt ∧ (c = 0#8 ∨ (t.length : Int) = precision.toInt))

theorem countLoop_returns {precision : CInt} {u : List Byte} {k total n : ℕ} {l : List CInt}
    (hle : (total : Int) ≤ precision.toInt)
    (hend : c = 0#8 ∨ (total : Int) = precision.toInt) (hu : Holds mem (p + BitVec.ofNat 32 k) (u ++ [c]))
    (hz : 0#8 ∉ u)
    (hk : k + u.length = total) (hn : u.length < n) : Returns false (Prog.whileSome (fun i : CInt =>
      if i.toInt < precision.toInt then do
        let c ← charAt logHost (p + i)
        if c = 0#8 then return none else return some (i + 1#32)
      else return none) n (BitVec.ofNat 32 k)) (mem, l) (BitVec.ofNat 32 total) (mem, l) := by
  have hmax := BitVec.toInt_lt (x := precision)
  obtain ⟨n, rfl⟩ : ∃ j, n = j + 1 := ⟨n - 1, by omega⟩
  induction u generalizing k n with
  | nil =>
    obtain rfl : k = total := hk
    refine returns_whileSome_succ.mpr (Or.inl ⟨returns_ite.mpr ?_, rfl⟩)
    rw [toInt_ofNat_small (by omega)]
    rcases hend with rfl | hend
    · by_cases hlt : (k : Int) < precision.toInt
      · exact Or.inl ⟨hlt, returns_bind.mpr ⟨0#8, _, returns_charAt.mpr ⟨hu.1, rfl⟩,
          returns_ite.mpr (Or.inl ⟨rfl, returns_pure.mpr ⟨rfl, rfl⟩⟩)⟩⟩
      · exact Or.inr ⟨hlt, returns_pure.mpr ⟨rfl, rfl⟩⟩
    · exact Or.inr ⟨by omega, returns_pure.mpr ⟨rfl, rfl⟩⟩
  | cons b u ih =>
    rw [List.length_cons] at hk hn
    obtain ⟨n, rfl⟩ : ∃ j, n = j + 1 := ⟨n - 1, by omega⟩
    have htail : Holds mem (p + BitVec.ofNat 32 (k + 1)) (u ++ [c]) := by
      rw [BitVec.ofNat_add, ← BitVec.add_assoc]
      exact hu.2
    have hrest := ih htail (fun hm => hz (List.mem_cons_of_mem b hm)) (by omega) n (by omega)
    refine returns_whileSome_succ.mpr
      (Or.inr ⟨BitVec.ofNat 32 (k + 1), (mem, l), returns_ite.mpr (Or.inl ⟨?_, ?_⟩), hrest⟩)
    · rw [toInt_ofNat_small (by omega)]
      omega
    · refine returns_bind.mpr ⟨b, _, returns_charAt.mpr ⟨hu.1, rfl⟩, returns_ite.mpr (Or.inr ⟨?_, ?_⟩)⟩
      · exact fun hb => hz (hb ▸ List.mem_cons_self)
      · exact returns_pure.mpr ⟨by rw [BitVec.ofNat_add], rfl⟩

theorem countChars_writes {precision : CInt} (h : Holds mem p (t ++ [c])) (hz : 0#8 ∉ t) (hcut : Cut precision t c) :
    Writes (countChars logHost p precision) mem (if precision.toInt < 0 then 0#32 else BitVec.ofNat 32 t.length)
      [] := by
  have hmax := BitVec.toInt_lt (x := precision)
  intro l
  rw [List.append_nil]
  rcases hcut with ⟨hneg, _⟩ | ⟨hle, hend⟩
  · have hstop : ¬ (0#32 : CInt).toInt < precision.toInt := by
      rw [BitVec.toInt_zero]
      omega
    rw [if_pos hneg]
    exact returns_whileSome_succ.mpr (Or.inl ⟨returns_ite.mpr (Or.inr ⟨hstop, returns_pure.mpr ⟨rfl, rfl⟩⟩), rfl⟩)
  · rw [if_neg (by omega)]
    exact countLoop_returns hle hend (by rwa [BitVec.add_zero]) hz (Nat.zero_add _) (by omega)

theorem signExtend_eq_zero {c : Byte} : c.signExtend 32 = 0#32 ↔ c = 0#8 := by
  revert c
  decide +kernel

def shownText (altflag : Bool) (t : List Byte) : List CInt := t.map (fun c => shown altflag (c.signExtend 32))

theorem toInt_sub_small {a b : CInt} (h : -2 ^ 31 ≤ a.toInt - b.toInt) (h' : a.toInt - b.toInt < 2 ^ 31) :
    (a - b).toInt = a.toInt - b.toInt := by
  rw [BitVec.toInt_sub]
  exact Int.bmod_eq_of_le (by omega) (by omega)

theorem sub_one_toInt {w : CInt} (h : 0 < w.toInt) : (w - 1#32).toInt = w.toInt - 1 := by
  have hone : (1#32 : CInt).toInt = 1 := by decide
  have hmax := BitVec.toInt_lt (x := w)
  rw [toInt_sub_small (by omega) (by omega), hone]

theorem Cut.tail {precision : CInt} {b : Byte} (h : Cut precision (b :: t) c) (hp : ¬ precision.toInt < 0) :
    0 < precision.toInt ∧ Cut (precision - 1#32) t c := by
  rcases h with ⟨hneg, _⟩ | ⟨hle, hend⟩
  · exact absurd hneg hp
  · rw [List.length_cons] at hle hend
    have hpos : 0 < precision.toInt := by omega
    have hsub := sub_one_toInt hpos
    refine ⟨hpos, Or.inr ⟨by omega, hend.imp_right (fun he => by omega)⟩⟩

theorem scanString_stop {altflag : Bool} {sc : Scan} {l : List CInt} (hc : mem sc.p = some c)
    (hcut : Cut sc.precision [] c) :
    Returns false (scanString logHost altflag sc) (mem, l) none (mem, l) := by
  rw [scanString, returns_bind]
  refine ⟨c, _, returns_charAt.mpr ⟨hc, rfl⟩, returns_ite.mpr ?_⟩
  by_cases hz : c.signExtend 32 = 0#32
  · exact Or.inl ⟨hz, returns_pure.mpr ⟨rfl, rfl⟩⟩
  · have hne : c ≠ 0#8 := fun he => hz (signExtend_eq_zero.mpr he)
    -- only the precision can end the string here
    have hp : sc.precision = 0#32 := by
      rcases hcut with ⟨_, he⟩ | ⟨_, he | he⟩
      · exact absurd he hne
      · exact absurd he hne
      · exact BitVec.eq_of_toInt_eq (by rw [← he]; rfl)
    refine Or.inr
      ⟨hz, returns_ite.mpr (Or.inr ⟨by rw [hp]; decide, returns_bind.mpr ⟨_, _, signedOp_returns _ _, ?_⟩⟩)⟩
    refine returns_ite.mpr (Or.inr ⟨?_, returns_pure.mpr ⟨rfl, rfl⟩⟩)
    rw [hp]
    decide

theorem scanString_next {altflag : Bool} {sc : Scan} {b : Byte} (hb : mem sc.p = some b) (hz : b ≠ 0#8)
    (hcut : Cut sc.precision (b :: t) c) : ∃ precision, Cut precision t c ∧ ∀ l,
      Returns false (scanString logHost altflag sc) (mem, l) (some ⟨sc.p + 1#32, precision, sc.width - 1#32⟩)
        (mem, l ++ [shown altflag (b.signExtend 32)]) := by
  have hshow : ∀ l precision, Returns false (do
      logHost.putch (shown altflag (b.signExtend 32))
      let width ← signedSub sc.width 1#32
      return some (⟨sc.p + 1#32, precision, width⟩ : Scan)) (mem, l) (some ⟨sc.p + 1#32, precision, sc.width - 1#32⟩)
        (mem, l ++ [shown altflag (b.signExtend 32)]) := fun l precision =>
    returns_bind.mpr
      ⟨(), _, returns_putch.mpr rfl, returns_bind.mpr ⟨_, _, signedOp_returns _ _, returns_pure.mpr ⟨rfl, rfl⟩⟩⟩
  have hne : ¬ b.signExtend 32 = 0#32 := mt signExtend_eq_zero.mp hz
  rw [scanString]
  by_cases hp : sc.precision.toInt < 0
  · have hc : c = 0#8 := by
      rcases hcut with ⟨_, he⟩ | ⟨hle, _⟩
      · exact he
      · omega
    refine ⟨sc.precision, Or.inl ⟨hp, hc⟩, fun l => returns_bind.mpr ⟨b, _, returns_charAt.mpr ⟨hb, rfl⟩, ?_⟩⟩
    exact returns_ite.mpr (Or.inr ⟨hne, returns_ite.mpr (Or.inl ⟨hp, hshow l _⟩)⟩)
  · obtain ⟨hpos, hcut⟩ := hcut.tail hp
    refine ⟨sc.precision - 1#32, hcut, fun l => returns_bind.mpr ⟨b, _, returns_charAt.mpr ⟨hb, rfl⟩, ?_⟩⟩
    refine returns_ite.mpr (Or.inr ⟨hne, returns_ite.mpr (Or.inr ⟨hp, ?_⟩)⟩)
    refine returns_bind.mpr ⟨_, _, signedOp_returns _ _, returns_ite.mpr (Or.inl ⟨?_, hshow l _⟩)⟩
    rw [sub_one_toInt hpos]
    omega

theorem scan_writes {altflag : Bool} {precision : CInt} (h : Holds mem p (t ++ [c])) (hz : 0#8 ∉ t)
    (hcut : Cut precision t c)
    (hn : t.length < n) : ∃ sc : Scan, sc.width = width - BitVec.ofNat 32 t.length ∧
      Writes (Prog.whileSome (scanString logHost altflag) n ⟨p, precision, width⟩) mem sc (shownText altflag t) := by
  obtain ⟨n, rfl⟩ : ∃ k, n = k + 1 := ⟨n - 1, by omega⟩
  induction t generalizing p precision width n with
  | nil =>
    refine ⟨⟨p, precision, width⟩, by simp, fun l => ?_⟩
    exact returns_whileSome_succ.mpr (Or.inl ⟨by
      rw [shownText, List.map_nil, List.append_nil]
      exact scanString_stop h.1 hcut, rfl⟩)
  | cons b t ih =>
    rw [List.length_cons] at hn
    obtain ⟨n, rfl⟩ : ∃ k, n = k + 1 := ⟨n - 1, by omega⟩
    have hb : b ≠ 0#8 := fun he => hz (he ▸ List.mem_cons_self)
    obtain ⟨precision', hcut', hnext⟩ := @scanString_next mem c t altflag ⟨p, precision, width⟩ b h.1 hb hcut
    obtain ⟨sc, hw, hrest⟩ : ∃ sc : Scan, sc.width = width - 1#32 - BitVec.ofNat 32 t.length ∧
        Writes (Prog.whileSome (scanString logHost altflag) (n + 1) ⟨p + 1#32, precision', width - 1#32⟩) mem sc
          (shownText altflag t) :=
      ih h.2 (fun hm => hz (List.mem_cons_of_mem b hm)) hcut' n (by omega)
    refine ⟨sc, ?_, fun l => returns_whileSome_succ.mpr (Or.inr ⟨_, _, hnext l, ?_⟩)⟩
    · rw [hw, BitVec.sub_sub, List.length_cons, Nat.add_comm, BitVec.ofNat_add]
    · have hlog := hrest (l ++ [shown altflag (b.signExtend 32)])
      rwa [List.append_assoc] at hlog

def stringText (d : Directive) (t : List Byte) : List CInt :=
  let left := d.width - (if d.precision.toInt < 0 then 0#32 else BitVec.ofNat 32 t.length)
  if 0 < d.width.toInt ∧ d.padc ≠ chr '-' then
    List.replicate left.toInt.toNat d.padc ++
      (shownText d.altflag t ++ List.replicate (padded left - BitVec.ofNat 32 t.length).toInt.toNat (chr ' '))
  else
    shownText d.altflag t ++ List.replicate (d.width - BitVec.ofNat 32 t.length).toInt.toNat (chr ' ')

theorem putString_writes (h : Holds mem p (t ++ [c])) (hz : 0#8 ∉ t) (hcut : Cut d.precision t c)
    (hn : t.length < n) :
    Writes (putString logHost n d p) mem () (stringText d t) := by
  have hrest : ∀ width, Writes (do
      let sc ← Prog.whileSome (scanString logHost d.altflag) n ⟨p, d.precision, width⟩
      pad logHost (chr ' ') sc.width) mem ()
      (shownText d.altflag t ++ List.replicate (width - BitVec.ofNat 32 t.length).toInt.toNat (chr ' ')) := by
    intro width l
    obtain ⟨sc, hw, hscan⟩ := @scan_writes mem p width c t n d.altflag d.precision h hz hcut hn
    refine returns_bind.mpr ⟨sc, _, hscan l, ?_⟩
    rw [hw, ← List.append_assoc]
    exact pad_writes _
  intro l
  rw [putString, returns_bind, padString, stringText]
  split
  · refine ⟨_, _, returns_bind.mpr ⟨_, _, countChars_writes h hz hcut l, returns_bind.mpr ⟨(), _, pad_writes _,
      returns_pure.mpr ⟨rfl, rfl⟩⟩⟩, ?_⟩
    rw [List.append_nil, ← List.append_assoc]
    exact hrest _ _
  · exact ⟨_, _, returns_pure.mpr ⟨rfl, rfl⟩, hrest _ l⟩

end Cezos
