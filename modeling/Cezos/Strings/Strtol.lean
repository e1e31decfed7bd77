import Cezos.Strings.Copy
import Cezos.Strings.Grammar

namespace Cezos.Strings

open Lib

def skipBlanks : ℕ → Word → Prog Watched Word
  | 0, _ => Prog.spin
  | fuel + 1, s => do
    let c ← fetch s
    if c = 32#8 ∨ c = 9#8 then skipBlanks fuel (s + 1#32)
    else return s

def readSign (s : Word) : Prog Watched (Word × Bool) := do
  let c ← fetch s
  if c = 43#8 then return (s + 1#32, false)
  else if c = 45#8 then return (s + 1#32, true)
  else return (s, false)

def hexPrefix (s : Word) (base : CInt) : Prog Watched Bool :=
  if base = 0#32 ∨ base = 16#32 then do
    let c ← fetch s
    if c = 48#8 then do
      let c ← fetch (s + 1#32)
      return decide (c = 120#8)
    else return false
  else return false

def readPrefix (s : Word) (base : CInt) : Prog Watched (Word × CInt) := do
  let hex ← hexPrefix s base
  if hex then return (s + 2#32, 16#32)
  else if base = 0#32 then do
    let c ← fetch s
    if c = 48#8 then return (s + 1#32, 8#32)
    else return (s, 10#32)
  else return (s, base)

def digitOf (c : Byte) : Option CInt :=
  let ch : CInt := c.signExtend 32
  if 48 ≤ ch.toInt ∧ ch.toInt ≤ 57 then some (ch - 48#32)
  else if 97 ≤ ch.toInt ∧ ch.toInt ≤ 122 then some (ch - 97#32 + 10#32)
  else if 65 ≤ ch.toInt ∧ ch.toInt ≤ 90 then some (ch - 65#32 + 10#32)
  else none

def readDigits (base : CInt) : ℕ → Word → CInt → Prog Watched (Word × CInt)
  | 0, _, _ => Prog.spin
  | fuel + 1, s, val => do
    let c ← fetch s
    match digitOf c with
    | none => return (s, val)
    | some dig =>
      if base.toInt ≤ dig.toInt then return (s, val)
      else do
        let product ← signedMul val base
        let val ← signedAdd product dig
        readDigits base fuel (s + 1#32) val

def stored (endptr s : Word) : Option Word := if endptr = 0#32 then none else some s

/-- Answers what `strtol` returns, and what it stores at `endptr` where that is not NULL. -/
def strtol (fuel : ℕ) (s endptr : Word) (base : CInt) : Prog Watched (CInt × Option Word) := do
  let s ← skipBlanks fuel s
  let signed ← readSign s
  let based ← readPrefix signed.1 base
  let digits ← readDigits based.2 fuel based.1 0#32
  let r ← (if signed.2 then signedNeg digits.2 else return digits.2)
  return (r, stored endptr digits.1)

variable {α β : Type} {mem : Bytes} {p s endptr : Word} {A : Set Word} {a : α} {b : β} {c d : Byte}
  {x t u y pf ds blanks : List Byte} {sign : Sign} {base eb v fuel : ℕ}

theorem digitOf_eq (c : Byte) : digitOf c = if digit c < 36 then some (BitVec.ofNat 32 (digit c)) else none := by
  have hall : ∀ c : Byte, digitOf c = if digit c < 36 then some (BitVec.ofNat 32 (digit c)) else none := by
    decide +kernel
  exact hall c

/-- With enough fuel `x` answers `a`; it leaves memory alone and reads nothing outside `A`. -/
def Answers (A : Set Word) (mem : Bytes) (x : ℕ → Prog Watched α) (a : α) : Prop :=
  ∃ R, R ⊆ A ∧ ∃ N, ∀ fuel, N ≤ fuel → ∀ w, w.mem = mem → Returns false (x fuel) w a { w with reads := w.reads ∪ R }

namespace Answers

theorem of_returns {x : Prog Watched α} (h : ∀ w, Returns false x w a w) : Answers A mem (fun _ => x) a := by
  refine ⟨∅, Set.empty_subset A, 0, fun _ _ w _ => ?_⟩
  rw [Set.union_empty]
  exact h w

theorem pure : Answers A mem (fun _ => (Pure.pure a : Prog Watched α)) a :=
    of_returns (fun _ => returns_pure.mpr ⟨rfl, rfl⟩)

theorem signed {n : ℕ} {r : BitVec n} {exact : Int} : Answers A mem (fun _ => signedOp r exact) r :=
  of_returns (fun _ => returns_signed.mpr ⟨⟨rfl, rfl⟩, nofun⟩)

theorem fetch (hp : mem p = some c) (hA : p ∈ A) : Answers A mem (fun _ => Strings.fetch p) c := by
  refine ⟨{p}, Set.singleton_subset_iff.mpr hA, 0, fun _ _ w hw => returns_fetch.mpr ⟨hw ▸ hp, ?_⟩⟩
  rw [Set.union_singleton]

theorem bind {x : ℕ → Prog Watched α} {f : ℕ → α → Prog Watched β} (hx : Answers A mem x a)
    (hf : Answers A mem (fun fuel => f fuel a) b) :
    Answers A mem (fun fuel => x fuel >>= f fuel) b := by
  obtain ⟨R, hR, N, hx⟩ := hx
  obtain ⟨S, hS, M, hf⟩ := hf
  refine ⟨R ∪ S, Set.union_subset hR hS, max N M, fun fuel hle w hw =>
    returns_bind.mpr ⟨a, _, hx fuel (by omega) w hw, ?_⟩⟩
  rw [← Set.union_assoc]
  exact hf fuel (by omega) _ hw

theorem pos {p : Prop} [Decidable p] {x y : ℕ → Prog Watched α} (hp : p) (hx : Answers A mem x a) :
    Answers A mem (fun fuel => if p then x fuel else y fuel) a := by
  simp only [if_pos hp]
  exact hx

theorem neg {p : Prop} [Decidable p] {x y : ℕ → Prog Watched α} (hp : ¬ p) (hy : Answers A mem y a) :
    Answers A mem (fun fuel => if p then x fuel else y fuel) a := by
  simp only [if_neg hp]
  exact hy

theorem turn {x : ℕ → Prog Watched α} (h : Answers A mem (fun fuel => x (fuel + 1)) a) : Answers A mem x a := by
  obtain ⟨R, hR, N, h⟩ := h
  refine ⟨R, hR, N + 1, fun fuel hle => ?_⟩
  obtain ⟨fuel, rfl⟩ : ∃ k, fuel = k + 1 := ⟨fuel - 1, by omega⟩
  exact h fuel (by omega)

theorem ends {x : ℕ → Prog Watched α} (h : Answers A mem x a) : ∃ w, EndsAs false x (watch mem) a w ∧
    w.reads ⊆ A := by
  obtain ⟨R, hR, N, h⟩ := h
  exact ⟨_, ⟨N, fun fuel hle => h fuel hle (watch mem) rfl⟩, Set.union_subset (Set.empty_subset A) hR⟩

end Answers

structure Within (A : Set Word) (mem : Bytes) (p : Word) (t : List Byte) : Prop where
  string : IsCString mem p t
  inside : span p (t.length + 1) ⊆ A

namespace Within

theorem fetch (h : Within A mem p t) : Answers A mem (fun _ => Strings.fetch p) (t.headD 0#8) := by
  have hp : p ∈ span p (t.length + 1) := by
    rw [span_cons h.string.length_lt]
    exact Set.mem_insert p _
  apply Answers.fetch _ (h.inside hp)
  cases t with
  | nil => exact h.string.nil
  | cons c t => exact h.string.head

theorem tail (h : Within A mem p (c :: t)) : Within A mem (p + 1#32) t := by
  refine ⟨h.string.tail, fun q hq => h.inside ?_⟩
  rw [span_cons h.string.length_lt]
  exact Set.mem_insert_of_mem p hq

theorem drop (h : Within A mem p (x ++ t)) : Within A mem (p + BitVec.ofNat 32 x.length) t := by
  induction x generalizing p with
  | nil => rwa [add_length_nil]
  | cons c x ih =>
    rw [add_length_cons]
    exact ih h.tail

end Within

theorem skipBlanks_answers (h : Within A mem p t) (hr : Run Blank t blanks y) :
    Answers A mem (fun fuel => skipBlanks fuel p) (p + BitVec.ofNat 32 blanks.length) := by
  induction blanks generalizing p t with
  | nil =>
    rw [add_length_nil]
    apply Answers.turn
    apply h.fetch.bind
    exact .neg (hr.nil_iff.mp rfl) .pure
  | cons c blanks ih =>
    have hblank := hr.all c List.mem_cons_self
    obtain rfl := hr.eq
    rw [add_length_cons]
    apply Answers.turn
    apply h.fetch.bind
    exact .pos hblank (ih h.tail hr.tail)

theorem readSign_answers (h : Within A mem p (sign.text ++ t)) (hs : Split x blanks sign t) :
    Answers A mem (fun _ => readSign p) (p + BitVec.ofNat 32 sign.text.length, decide (sign.text = [45#8])) := by
  have hne : (45#8 : Byte) ≠ 43#8 := by decide
  apply h.fetch.bind
  cases sign with
  | none =>
    obtain ⟨hplus, hminus⟩ := hs.unsigned rfl
    rw [Sign.text, add_length_nil]
    exact .neg hplus (.neg hminus .pure)
  | plus => exact .pos rfl .pure
  | minus => exact .neg hne (.pos rfl .pure)

theorem ofNat_base {n : ℕ} (hb : base ≤ 36) (hn : n ≤ 36) : (BitVec.ofNat 32 base : CInt) = BitVec.ofNat 32 n ↔
    base = n := by
  constructor
  · intro h
    have hnat := congrArg BitVec.toNat h
    rw [BitVec.toNat_ofNat, BitVec.toNat_ofNat] at hnat
    omega
  · rintro rfl
    rfl

theorem hexPrefix_answers (h : Within A mem p t) (hl : Leads base t pf eb u) (hb : base ≤ 36) :
    Answers A mem (fun _ => hexPrefix p (BitVec.ofNat 32 base)) (decide (pf = [48#8, 120#8])) := by
  have hzero := @ofNat_base base 0 hb (by decide)
  have hsixteen := @ofNat_base base 16 hb (by decide)
  by_cases hpf : pf = [48#8, 120#8]
  · rw [decide_eq_true hpf]
    subst hpf
    cases hl with
    | hex base => exact .pos (base.imp hzero.mpr hsixteen.mpr) (h.fetch.bind (.pos rfl (h.tail.fetch.bind .pure)))
  · rw [decide_eq_false hpf]
    by_cases hbase : base = 0 ∨ base = 16
    · have htake := hl.not_hexed hpf hbase
      apply Answers.pos (hbase.imp hzero.mpr hsixteen.mpr)
      apply h.fetch.bind
      cases t with
      | nil => exact .neg (by decide) .pure
      | cons c t =>
        by_cases hc : c = 48#8
        · apply Answers.pos hc
          apply h.tail.fetch.bind
          have hx : t.headD 0#8 ≠ 120#8 := by
            intro hx
            cases t with
            | nil => exact absurd hx (by decide)
            | cons d t => exact htake (congrArg₂ (fun c d => [c, d]) hc hx)
          rw [decide_eq_false hx]
          exact .pure
        · exact .neg hc .pure
    · exact .neg (mt (Or.imp hzero.mp hsixteen.mp) hbase) .pure

theorem readPrefix_answers (h : Within A mem p t) (hl : Leads base t pf eb u) (hb : base ≤ 36) :
    Answers A mem (fun _ => readPrefix p (BitVec.ofNat 32 base))
      (p + BitVec.ofNat 32 pf.length, BitVec.ofNat 32 eb) := by
  have hzero := @ofNat_base base 0 hb (by decide)
  apply (hexPrefix_answers h hl hb).bind
  cases hl with
  | hex base => exact .pos rfl .pure
  | octal base stop => exact .neg (by decide) (.pos (hzero.mpr base) (h.fetch.bind (.pos rfl .pure)))
  | decimal base stop =>
    rw [add_length_nil]
    exact .neg (by decide) (.pos (hzero.mpr base) (h.fetch.bind (.neg stop .pure)))
  | given base stop =>
    rw [add_length_nil]
    exact .neg (by decide) (.neg (mt hzero.mp base) .pure)

theorem readDigits_answers (h : Within A mem p t) (hr : Run (Below eb) t ds y) (hb : eb ≤ 36) :
    Answers A mem (fun fuel => readDigits (BitVec.ofNat 32 eb) fuel p (BitVec.ofNat 32 v))
      (p + BitVec.ofNat 32 ds.length, BitVec.ofNat 32 ((ds.map digit).foldl (fun v d => v * eb + d) v)) := by
  have hbase := @toInt_ofNat_small eb (by omega)
  induction ds generalizing p t v with
  | nil =>
    have hstop : eb ≤ digit (t.headD 0#8) := Nat.not_lt.mp (hr.nil_iff.mp rfl)
    rw [add_length_nil]
    apply Answers.turn
    apply h.fetch.bind
    rw [digitOf_eq]
    split
    · next dig hnone => exact .pure
    · next dig hdig =>
      rw [Option.ite_none_right_eq_some] at hdig
      obtain ⟨hlt, hsome⟩ := hdig
      obtain rfl := Option.some.inj hsome
      apply Answers.pos _ .pure
      rw [hbase, toInt_ofNat_small (by omega)]
      exact Int.ofNat_le.mpr hstop
  | cons c ds ih =>
    have hbelow : digit c < eb := hr.all c List.mem_cons_self
    have hdigit : digitOf c = some (BitVec.ofNat 32 (digit c)) := by
      rw [digitOf_eq, if_pos (by omega)]
    obtain rfl := hr.eq
    rw [add_length_cons]
    apply Answers.turn
    apply h.fetch.bind
    simp only [List.cons_append, List.headD_cons, hdigit]
    apply Answers.neg
    · rw [hbase, toInt_ofNat_small (by omega)]
      omega
    · apply Answers.signed.bind
      apply Answers.signed.bind
      simp only [← BitVec.ofNat_mul, ← BitVec.ofNat_add]
      exact ih h.tail hr.tail

theorem strtol_answers (h : Within A mem s x) (hs : Split x blanks sign t) (hl : Leads base t pf eb u)
    (hr : Run (Below eb) u ds y)
    (hb : base ≤ 36) : Answers A mem (fun fuel => strtol fuel s endptr (BitVec.ofNat 32 base))
      (BitVec.ofInt 32 (sign.apply (valueOf eb ds)),
        stored endptr (s + BitVec.ofNat 32 (blanks ++ (sign.text ++ (pf ++ ds))).length)) := by
  have hsigned : Within A mem (s + BitVec.ofNat 32 blanks.length) (sign.text ++ t) := by
    rw [hs.eq] at h
    exact h.drop
  have hbased := hsigned.drop
  have hdigits := hbased
  rw [hl.eq] at hdigits
  have hvalue : (BitVec.ofNat 32 (((ds.map digit).foldl (fun v d => v * eb + d) 0)) : CInt) =
    BitVec.ofInt 32 (valueOf eb ds) :=
    (BitVec.ofInt_natCast 32 _).symm
  rw [add_length_append, add_length_append, add_length_append]
  apply (skipBlanks_answers h hs.blank).bind
  apply (readSign_answers hsigned hs).bind
  apply (readPrefix_answers hbased hl hb).bind
  apply (readDigits_answers hdigits.drop hr (hl.le hb)).bind
  cases sign with
  | none =>
    apply (Answers.neg Bool.false_ne_true .pure).bind
    rw [hvalue]
    exact .pure
  | plus =>
    apply (Answers.neg Bool.false_ne_true .pure).bind
    rw [hvalue]
    exact .pure
  | minus =>
    apply (Answers.pos rfl .signed).bind
    rw [hvalue, ← BitVec.ofInt_neg]
    exact .pure

def Accepts (base : ℕ) (mem : Bytes) (s : Word) (x : List Byte) : Prop :=
  ∀ endptr, ∃ r e w, EndsAs false (fun fuel => strtol fuel s endptr (BitVec.ofNat 32 base)) (watch mem) (r, e) w ∧
    (∀ t v, Longest base x t v → -2147483648 ≤ v → v < 2147483648 →
      r.toInt = v ∧ e = stored endptr (s + BitVec.ofNat 32 t.length)) ∧
    ((¬ ∃ t v, Numeral base t v ∧ t <+: x) → r = 0#32 ∧ e = stored endptr s) ∧
    w.reads ⊆ span s (x.length + 1)

/-- No `0x` dangles behind the sign, and there is a digit, or else neither blank nor sign. -/
def Regular (base : ℕ) (x : List Byte) : Prop :=
  ¬ Dangling base (afterSign x) ∧
    (Below (if base = 0 then 10 else base) ((afterSign x).headD 0#8) ∨ afterSign x = x)

instance : Decidable (Regular base x) := inferInstanceAs (Decidable (_ ∧ _))

theorem toInt_ofInt_of_fits {i : Int} (hlow : -2147483648 ≤ i) (hhigh : i < 2147483648) :
    (BitVec.ofInt 32 i : CInt).toInt = i := by
  rw [BitVec.toInt_ofInt]
  exact Int.bmod_eq_of_le (by omega) (by omega)

theorem stored_inj {n m : ℕ} (he : endptr ≠ 0#32) (hn : n < 4294967296) (hm : m < 4294967296)
    (h : stored endptr (s + BitVec.ofNat 32 n) = stored endptr (s + BitVec.ofNat 32 m)) : n = m := by
  rw [stored, stored, if_neg he, if_neg he, Option.some.injEq] at h
  rw [← @toNat_offset s n hn, h, toNat_offset hm]

theorem accepts_iff (hx : IsCString mem s x) (hb : base ≤ 36) (hs : Split x blanks sign t)
    (hl : Leads base t pf eb u)
    (hr : Run (Below eb) u ds y) : Accepts base mem s x ↔ ¬ Dangling base t ∧
    (pf ++ ds = [] → blanks ++ sign.text = []) := by
  have hrun (endptr : Word) :=
    (@strtol_answers mem s endptr _ x t u y pf ds blanks sign base eb ⟨hx, Set.Subset.refl _⟩ hs hl hr hb).ends
  have hlen := hx.length_lt
  have hparts : x.length = (blanks ++ (sign.text ++ (pf ++ ds))).length + y.length := by
    rw [hs.eq, hl.eq, hr.eq]
    simp only [List.length_append]
    omega
  constructor
  · intro h
    obtain ⟨r, e, w, hends, hlong, hnone, _⟩ := h 1#32
    obtain ⟨w', hends', _⟩ := hrun 1#32
    obtain ⟨hsame, _⟩ := hends.unique hends'
    obtain ⟨rfl, rfl⟩ := Prod.mk.inj hsame
    refine ⟨fun hd => ?_, fun hnil => ?_⟩
    · -- the end is behind the `x`, and not behind the zero
      obtain ⟨_, he⟩ := hlong _ _ (longest_dangling hb hs hl hr hd) (by rw [Sign.apply_zero]; decide)
        (by rw [Sign.apply_zero]; decide)
      obtain ⟨rfl, rfl⟩ := (hl.dangling_iff hr).mp hd
      have hlonger : (blanks ++ (sign.text ++ [48#8])).length <
        (blanks ++ (sign.text ++ ([48#8, 120#8] ++ []))).length := by
        simp
      have hshift := stored_inj (by decide) (by omega) (by omega) he
      omega
    · obtain ⟨_, he⟩ := hnone (fun hex => (numeral_exists_iff hb hs hl hr).mp hex hnil)
      rw [← BitVec.add_zero s, BitVec.add_assoc, BitVec.zero_add] at he
      have hzero := @stored_inj s 1#32 _ 0 (by decide) (by omega) (by decide) he
      rw [hnil, List.append_nil] at hzero
      exact List.eq_nil_of_length_eq_zero hzero
  · rintro ⟨hd, hnothing⟩ endptr
    obtain ⟨w, hends, hreads⟩ := hrun endptr
    refine ⟨_, _, w, hends, fun t' v hlong hlow hhigh => ?_, fun hnone => ?_, hreads⟩
    · obtain ⟨_, rfl, rfl⟩ := (longest_iff hb hs hl hr hd).mp hlong
      exact ⟨toInt_ofInt_of_fits hlow hhigh, rfl⟩
    · have hnil := not_not.mp (mt (numeral_exists_iff hb hs hl hr).mpr hnone)
      obtain ⟨rfl, rfl⟩ := List.append_eq_nil_iff.mp hnil
      obtain ⟨rfl, htext⟩ := List.append_eq_nil_iff.mp (hnothing hnil)
      rw [htext]
      refine ⟨?_, congrArg (stored endptr) (BitVec.add_zero s)⟩
      rw [valueOf, List.map_nil, value_nil, Sign.apply_zero]
      rfl

theorem strtol_accepts_iff (hx : IsCString mem s x) (hb : base ≤ 36) : Accepts base mem s x ↔ Regular base x := by
  obtain ⟨blanks, sign, hs⟩ := split_exists x
  obtain ⟨pf, eb, u, hl⟩ := leads_exists base (afterSign x)
  obtain ⟨ds, y, hr⟩ := run_exists (Below eb) (Nat.not_lt.mpr (hl.le hb)) u
  rw [accepts_iff hx hb hs hl hr, Regular, hl.nil_iff hr, ← hs.eq_iff, or_iff_not_imp_left]

def minusThirtyOne : List Byte := [0x20#8, 0x2D#8, 0x30#8, 0x78#8, 0x31#8, 0x66#8]

theorem strtol_accepts_minus_thirty_one : Accepts 0 (image (0#8 :: minusThirtyOne ++ [0#8])) 1#32 minusThirtyOne :=
  (strtol_accepts_iff ⟨by decide, by decide⟩ (by decide)).mpr (by decide)

/-- `"0xg"`: the zero is a numeral, but the end is set behind the `x`. -/
theorem not_strtol_accepts : ¬ ∀ (base : ℕ) (mem : Bytes) (s : Word) (x : List Byte), base = 0 ∨ 2 ≤ base ∧
    base ≤ 36 →
    IsCString mem s x → Accepts base mem s x := by
  intro h
  have hstring : IsCString (image [0#8, 0x30#8, 0x78#8, 0x67#8, 0#8]) 1#32 [0x30#8, 0x78#8, 0x67#8] :=
    ⟨by decide, by decide⟩
  have hs : Split [0x30#8, 0x78#8, 0x67#8] [] .none [0x30#8, 0x78#8, 0x67#8] :=
    ⟨⟨rfl, by decide, by decide⟩, fun _ => by decide⟩
  have hr : Run (Below 16) [0x67#8] [] [0x67#8] := ⟨rfl, by decide, by decide⟩
  have haccepts := h 16 _ _ _ (Or.inr (by decide)) hstring
  have hgood := (accepts_iff hstring (by decide) hs (.hex (Or.inr rfl)) hr).mp haccepts
  exact absurd hgood.1 (by decide)

end Cezos.Strings
