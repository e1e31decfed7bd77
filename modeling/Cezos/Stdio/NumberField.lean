import Cezos.Stdio.Width

namespace Cezos

open Lib

variable {ro : Rodata} {mem : Bytes} {fmt : Word} {ap ap' args : List Word} {d : Directive} {out : List CInt}
    {c : Byte}
  {bs cs body rest : List Byte} {w n l : ℕ}

inductive Justify
  | right | zeros | left
deriving DecidableEq

def Justify.bytes : Justify → List Byte
  | .right => []
  | .zeros => [48#8]
  | .left => [45#8]

def Justify.padc : Justify → CInt
  | .right => chr ' '
  | .zeros => chr '0'
  | .left => chr '-'

def Justify.field (j : Justify) (w : ℕ) (sign digits : List CInt) : List CInt :=
  let room := w - (sign ++ digits).length
  match j with
  | .right => List.replicate room (chr ' ') ++ (sign ++ digits)
  | .zeros => sign ++ (List.replicate room (chr '0') ++ digits)
  | .left => sign ++ digits ++ List.replicate room (chr ' ')

theorem Justify.length_field (j : Justify) (w : ℕ) (sign digits : List CInt) :
    (j.field w sign digits).length = max w (sign ++ digits).length := by
  cases j <;> simp [field] <;> omega

theorem Justify.flags (j : Justify) (hd : d.padc = chr ' ') :
    Opts.flags (j.bytes ++ cs) ⟨d, none⟩ = Opts.flags cs ⟨{ d with padc := j.padc }, none⟩ := by
  cases j with
  | right =>
    rw [padc, ← hd]
    rfl
  | zeros => rfl
  | left => rfl

theorem Justify.isFlag (j : Justify) : ∀ c ∈ j.bytes, IsFlag c := by
  cases j <;> decide

theorem flags_long (l : ℕ) :
    Opts.flags (List.replicate l 108#8) ⟨d, none⟩ = some { d with lflag := d.lflag + BitVec.ofNat 32 l } := by
  induction l generalizing d with
  | zero =>
    change some d = some { d with lflag := d.lflag + 0#32 }
    rw [BitVec.add_zero]
  | succ l ih =>
    have hlong : Opts.flags (List.replicate (l + 1) 108#8) ⟨d, none⟩ =
        Opts.flags (List.replicate l 108#8) ⟨{ d with lflag := d.lflag + 1#32 }, none⟩ := rfl
    rw [hlong, ih, Nat.add_comm l, BitVec.ofNat_add, ← BitVec.add_assoc]

inductive NumberConv
  | decimal | unsigned | hex

namespace NumberConv

def byte : NumberConv → Byte
  | decimal => 100#8
  | unsigned => 117#8
  | hex => 120#8

def base : NumberConv → ℕ
  | decimal => 10
  | unsigned => 10
  | hex => 16

/-- The argument, of the type that `l` letters `l` make it. -/
def arg : NumberConv → ℕ → List Word → Option (BitVec 64 × List Word)
  | decimal, l => intArg (·.signExtend 64) (BitVec.ofNat 32 l)
  | unsigned, l => intArg (·.setWidth 64) (BitVec.ofNat 32 l)
  | hex, l => intArg (·.setWidth 64) (BitVec.ofNat 32 l)

def value : NumberConv → BitVec 64 → Int
  | decimal, num => num.toInt
  | unsigned, num => num.toNat
  | hex, num => num.toNat

theorem isKnown (conv : NumberConv) : IsKnown conv.byte := by
  cases conv <;> decide

end NumberConv

def sign (v : Int) : List CInt := if v < 0 then [chr '-'] else []

theorem field_number {conv : NumberConv} {num : BitVec 64} (hl : d.lflag = BitVec.ofNat 32 l)
    (harg : conv.arg l d.ap = some (num, ap)) :
    Field mem ro d ap' out (tokenOf (conv.byte.setWidth 32)) ↔
      ap' = ap ∧ out = sign (conv.value num) ++ numberText d conv.base (conv.value num).natAbs := by
  have hone : ∀ {x : BitVec 64 → Prog (Bytes × List CInt) Unit} {o}, Writes (x num) mem () o →
    ∀ extend : Word → BitVec 64,
      intArg extend d.lflag d.ap = some (num, ap) →
      ((∃ num, intArg extend d.lflag d.ap = some (num, ap') ∧ Writes (x num) mem () out) ↔ ap' = ap ∧ out = o) := by
    intro x o ho extend ha
    constructor
    · rintro ⟨num', ha', hw⟩
      obtain ⟨rfl, rfl⟩ := Prod.mk.inj (Option.some.inj (ha.symm.trans ha'))
      exact ⟨rfl, (hw.unique ho).2⟩
    · rintro ⟨rfl, rfl⟩
      exact ⟨num, ha, ho⟩
  have hnonneg : sign (num.toNat : Int) = [] := if_neg (by omega)
  have hnumber : ∀ {base : Word}, 2 ≤ base.toNat → base.toNat ≤ 16 →
      Writes (putNumber logHost d num base) mem () (numberText d base.toNat num.toNat) :=
        fun hb hle => putNumber_writes hb hle
  cases conv with
  | decimal => exact hone putDecimal_writes _ (by rw [hl]; exact harg)
  | unsigned =>
    have h10 : Writes (putNumber logHost d num 10#32) mem () (numberText d 10 num.toNat) :=
      hnumber (by decide) (by decide)
    rw [NumberConv.value, hnonneg]
    exact hone h10 _ (by rw [hl]; exact harg)
  | hex =>
    have h16 : Writes (putNumber logHost d num 16#32) mem () (numberText d 16 num.toNat) :=
      hnumber (by decide) (by decide)
    rw [NumberConv.value, hnonneg]
    exact hone h16 _ (by rw [hl]; exact harg)

def numberDirective (j : Justify) (wt : List Byte) (l : ℕ) (conv : NumberConv) : List Byte :=
  37#8 :: ((j.bytes ++ (wt ++ List.replicate l 108#8)) ++ [conv.byte])

theorem numeral_digits {base : ℕ} (hb : 1 < base) (n : ℕ) :
    ∀ ch ∈ numeral base n, ∃ k < base, ch = chr k.digitChar := by
  induction n using Nat.strongRecOn with
  | ind n ih =>
    intro ch hch
    by_cases h : n < base
    · rw [numeral_of_lt h, List.mem_singleton] at hch
      exact ⟨n, h, hch⟩
    · rw [numeral_of_le hb (by omega), List.mem_append, List.mem_singleton] at hch
      rcases hch with hch | hch
      · exact ih (n / base) (Nat.div_lt_self (by omega) hb) ch hch
      · exact ⟨n % base, Nat.mod_lt n (by omega), hch⟩

theorem length_numeral_le {base n : ℕ} (hb : 2 ≤ base) (hn : n < 2 ^ 64) : (numeral base n).length ≤ 64 := by
  rw [numeral, List.length_map, Nat.length_toDigits_le_iff hb (by decide)]
  exact Nat.lt_of_lt_of_le hn (Nat.pow_le_pow_left hb 64)

theorem Justify.field_eq_iff {j : Justify} {v : Int} {digits : List CInt} (hd : digits ≠ [])
    (hm : chr '-' ∉ digits) :
    j.field w (sign v) digits = sign v ++ (List.replicate (w - digits.length) j.padc ++ digits) ↔
      w ≤ digits.length ∨ (0 ≤ v ∧ j ≠ .left) := by
  by_cases hw : w ≤ digits.length
  · have h₀ : w - digits.length = 0 := by omega
    have h₁ : w - (sign v ++ digits).length = 0 := by
      rw [List.length_append]
      omega
    refine iff_of_true ?_ (Or.inl hw)
    cases j <;> simp only [field, h₀, h₁, List.replicate_zero, List.nil_append, List.append_nil]
  · rw [or_iff_right hw]
    by_cases hv : v < 0
    · -- the minus sign is not counted
      refine iff_of_false (fun he => ?_) (fun h => by omega)
      have hlen := congrArg List.length he
      rw [length_field, List.length_append, List.length_append, List.length_append, List.length_replicate, sign,
        if_pos hv,
        List.length_singleton] at hlen
      omega
    · have hs : sign v = [] := if_neg hv
      rw [hs]
      cases j with
      | right => exact iff_of_true rfl ⟨by omega, by simp⟩
      | zeros => exact iff_of_true rfl ⟨by omega, by simp⟩
      | left =>
        refine iff_of_false (fun he => ?_) (fun h => h.2 rfl)
        obtain ⟨k, hk⟩ : ∃ k, w - digits.length = k + 1 := ⟨w - digits.length - 1, by omega⟩
        obtain ⟨x, xs, rfl⟩ := List.exists_cons_of_ne_nil hd
        rw [hk, List.replicate_succ] at he
        exact hm ((List.cons.inj he).1 ▸ List.mem_cons_self)

theorem minus_not_mem_numeral {base : ℕ} (hb : 1 < base) (hle : base ≤ 16) (n : ℕ) : chr '-' ∉ numeral base n := by
  intro hm
  obtain ⟨k, hk, he⟩ := numeral_digits hb n _ hm
  have hall : ∀ k < 16, chr '-' ≠ chr k.digitChar := by decide
  exact hall k (by omega) he

theorem NumberConv.value_lt (conv : NumberConv) (num : BitVec 64) : (conv.value num).natAbs < 2 ^ 64 := by
  have hnum := num.isLt
  have hmin := BitVec.le_toInt (x := num)
  have hmax := BitVec.toInt_lt (x := num)
  cases conv <;> simp only [value] <;> omega

theorem isFlag_number (j : Justify) {wt : List Byte} (hw : WidthText w wt args) :
    ∀ c ∈ j.bytes ++ (wt ++ List.replicate l 108#8), IsFlag c := by
  intro c hc
  rcases List.mem_append.mp hc with hc | hc
  · exact j.isFlag c hc
  rcases List.mem_append.mp hc with hc | hc
  · exact hw.isFlag c hc
  · rw [List.eq_of_mem_replicate hc]
    decide

theorem directive_number (j : Justify) {wt : List Byte} (hw : WidthText w wt args) :
    directive (j.bytes ++ (wt ++ List.replicate l 108#8)) (args ++ ap) = some { Directive.start 0#32 ap with
      padc := j.padc, width := if wt = [] then -1#32 else BitVec.ofNat 32 w, lflag :=
        0#32 + BitVec.ofNat 32 l } := by
  have hdigit : ¬ IsDigit ((List.replicate l 108#8).headD 0#8) := by
    cases l with
    | zero => decide
    | succ l =>
      rw [List.replicate_succ, List.headD_cons]
      decide
  rw [directive, j.flags rfl, hw.flags rfl rfl (show (args ++ ap : List Word) = args ++ ap from rfl) hdigit,
    flags_long]
  rfl

theorem number_field {j : Justify} {wt : List Byte} {conv : NumberConv} {num : BitVec 64} (hw : WidthText w wt args)
    (harg : conv.arg l ap = some (num, ap')) (h : IsCString mem fmt (numberDirective j wt l conv)) :
    Emits false ro mem fmt (args ++ ap)
      (j.field w (sign (conv.value num)) (numeral conv.base (conv.value num).natAbs)) ↔
      w ≤ (numeral conv.base (conv.value num).natAbs).length ∨ (0 ≤ conv.value num ∧ j ≠ .left) := by
  have hbase : 2 ≤ conv.base ∧ conv.base ≤ 16 := by cases conv <;> decide
  have hlen := length_numeral_le hbase.1 (conv.value_lt num)
  have hne : numeral conv.base (conv.value num).natAbs ≠ [] := List.ne_nil_of_length_pos (length_numeral_pos _ _)
  have hminus := minus_not_mem_numeral hbase.1 hbase.2 (conv.value num).natAbs
  let d : Directive := { Directive.start 0#32 ap with
    padc := j.padc, width := if wt = [] then -1#32 else BitVec.ofNat 32 w, lflag := 0#32 + BitVec.ofNat 32 l }
  have hl : d.lflag = BitVec.ofNat 32 l := BitVec.zero_add _
  have hd : directive (j.bytes ++ (wt ++ List.replicate l 108#8)) (args ++ ap) = some d := directive_number j hw
  have hroom : numberText d conv.base (conv.value num).natAbs =
    List.replicate (w - (numeral conv.base (conv.value num).natAbs).length) j.padc ++
      numeral conv.base (conv.value num).natAbs := by
    rw [numberText, hw.room (by omega)]
  have hout : ∀ out, Emits false ro mem fmt (args ++ ap) out ↔
      out = sign (conv.value num) ++ numberText d conv.base (conv.value num).natAbs := by
    intro out
    rw [emits_single hd h (isFlag_number j hw) conv.isKnown]
    simp only [field_number hl harg, exists_eq_left]
  rw [hout, hroom]
  exact Justify.field_eq_iff hne hminus

theorem number_field_small : Emits false rodata (image (rodataBytes ++ cString "%05lx")) 125#32 [48879#32]
    [chr '0', chr 'b', chr 'e', chr 'e', chr 'f'] := by
  have h : IsCString (image (rodataBytes ++ cString "%05lx")) 125#32
    (numberDirective .zeros (decimalBytes 5) 1 .hex) := by
    rw [show numberDirective .zeros (decimalBytes 5) 1 .hex = text "%05lx" by decide]
    exact image_format (by decide) (by decide)
  have hw : WidthText 5 (decimalBytes 5) [] := Or.inr (.numeral (by decide) (by decide))
  have hfield : Emits false rodata (image (rodataBytes ++ cString "%05lx")) 125#32 ([] ++ [48879#32])
      (Justify.field .zeros 5 (sign (NumberConv.hex.value 48879#64))
      (numeral 16 (NumberConv.hex.value 48879#64).natAbs)) :=
    (number_field hw rfl h).mpr (Or.inr ⟨by decide, by decide⟩)
  exact hfield

theorem not_number_field :
    ¬ ∀ (mem : Bytes) (ro : Rodata) (fmt : Word) (j : Justify) (w : ℕ) (wt : List Byte) (l : ℕ) (conv : NumberConv)
    (args ap ap' : List Word) (num : BitVec 64), WidthText w wt args → l ≤ 2 → conv.arg l ap = some (num, ap') →
    IsCString mem fmt (numberDirective j wt l conv) → Emits false ro mem fmt (args ++ ap)
      (j.field w (sign (conv.value num)) (numeral conv.base (conv.value num).natAbs)) := by
  intro hall
  have h : IsCString (image (rodataBytes ++ cString "%-5d")) 125#32
    (numberDirective .left (decimalBytes 5) 0 .decimal) := by
    rw [show numberDirective .left (decimalBytes 5) 0 .decimal = text "%-5d" by decide]
    exact image_format (by decide) (by decide)
  have hrun : Emits false rodata (image (rodataBytes ++ cString "%-5d")) 125#32 [42#32]
      [chr '-', chr '-', chr '-', chr '4', chr '2'] := ⟨8, _, Returns.of_eval (by decide +kernel), by decide +kernel⟩
  have hclaim := hall _ rodata 125#32 .left 5 (decimalBytes 5) 0 .decimal [] [42#32] [] 42#64
    (Or.inr (.numeral (by decide) (by decide)))
    (by decide) rfl h
  exact absurd (hrun.unique hclaim) (by decide)

end Cezos
