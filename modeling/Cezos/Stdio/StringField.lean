import Cezos.Stdio.NumberField

namespace Cezos

open Lib

variable {ro : Rodata} {mem mem' : Bytes} {fmt a : Word} {ap args wargs pargs : List Word} {d : Directive}
    {out : List CInt} {c : Byte}
  {bs cs fl wt pt s t : List Byte} {w n : ℕ} {p : Option ℕ}

def printed (alt : Bool) (c : Byte) : CInt :=
  if alt ∧ (c.toNat < 32 ∨ 126 < c.toNat) then chr '?' else c.signExtend 32

def stringField (left alt : Bool) (w : ℕ) (t : List Byte) : List CInt :=
  let room := List.replicate (w - t.length) (chr ' ')
  if left then t.map (printed alt) ++ room else room ++ t.map (printed alt)

theorem shownText_eq (alt : Bool) (t : List Byte) : shownText alt t = t.map (printed alt) := by
  have hall : ∀ (alt : Bool) (c : Byte), shown alt (c.signExtend 32) = printed alt c := by decide +kernel
  exact List.map_congr_left (fun c _ => hall alt c)

inductive PrecisionText : Option ℕ → List Byte → List Word → Prop
  | absent : PrecisionText none [] []
  | zero : PrecisionText (some 0) [46#8, 48#8] []
  | number {p : ℕ} {bs : List Byte} {args : List Word} (h : NumberText p bs args) :
    PrecisionText (some p) (46#8 :: bs) args

def cut (p : Option ℕ) (s : List Byte) : List Byte :=
  match p with
  | none => s
  | some p => s.take p

def uptoCut (p : Option ℕ) (s : List Byte) : List Byte :=
  match p with
  | none => s ++ [0#8]
  | some p => (s ++ [0#8]).take (p + 1)

theorem flags_string (hfl : ∀ c ∈ fl, c = 45#8 ∨ c = 35#8) : Opts.flags (fl ++ cs) ⟨d, none⟩ = Opts.flags cs
    ⟨{ d with padc := if 45#8 ∈ fl then chr '-' else d.padc, altflag := decide (35#8 ∈ fl) || d.altflag },
    none⟩ := by
  induction fl generalizing d with
  | nil => rfl
  | cons c fl ih =>
    have hrest : ∀ c ∈ fl, c = 45#8 ∨ c = 35#8 := fun b hb => hfl b (List.mem_cons_of_mem c hb)
    rcases hfl c List.mem_cons_self with rfl | rfl
    · have hcons :
        Opts.flags (45#8 :: fl ++ cs) ⟨d, none⟩ = Opts.flags (fl ++ cs) ⟨{ d with padc := chr '-' }, none⟩ := rfl
      rw [hcons, ih hrest]
      simp
    · have hcons :
        Opts.flags (35#8 :: fl ++ cs) ⟨d, none⟩ = Opts.flags (fl ++ cs) ⟨{ d with altflag := true }, none⟩ := rfl
      rw [hcons, ih hrest]
      simp

theorem take_uptoCut (p : ℕ) (s : List Byte) : ∃ c, uptoCut (some p) s = s.take p ++ [c] ∧
    (c = 0#8 ∨ (s.take p).length = p) := by
  by_cases hle : s.length ≤ p
  · refine ⟨0#8, ?_, Or.inl rfl⟩
    rw [uptoCut, List.take_of_length_le hle, List.take_of_length_le (by simp; omega)]
  · have hlt : p < s.length := by omega
    refine ⟨s[p], ?_, Or.inr (by rw [List.length_take]; omega)⟩
    rw [uptoCut, List.take_append_of_le_length (by omega), List.take_succ_eq_append_getElem hlt]

def stringDirective (fl wt pt : List Byte) : List Byte := 37#8 :: ((fl ++ (wt ++ pt)) ++ [115#8])

theorem emits_string {body : List Byte} (hd : directive body args = some d) (hap : d.ap = a :: ap) (ha : a ≠ 0#32)
    (h : IsCString mem fmt (37#8 :: (body ++ [115#8]))) (hb : ∀ c ∈ body, IsFlag c)
    (ht : Holds mem a (t ++ [c])) (hz : 0#8 ∉ t)
    (hcut : Cut d.precision t c) : Emits false ro mem fmt args out ↔ out = stringText d t := by
  have hwrite : ∀ n o, Writes (putString logHost n d a) mem () o → o = stringText d t := by
    intro n o hw
    have hmono := (Host.Refines.refl logHost).putString (Nat.le_max_left n (t.length + 1)) d a
    exact ((hw.of_forward hmono).unique (putString_writes ht hz hcut (by omega))).2
  rw [emits_single hd h hb (by decide)]
  constructor
  · rintro ⟨_, p, hp, n, hw⟩
    obtain ⟨rfl, _⟩ := List.cons.inj (hap.symm.trans hp)
    rw [if_neg ha] at hw
    exact hwrite n out hw
  · rintro rfl
    refine ⟨ap, a, hap, t.length + 1, ?_⟩
    rw [if_neg ha]
    exact putString_writes ht hz hcut (Nat.lt_succ_self _)

theorem Holds.get (h : Holds mem a bs) {k : ℕ} (hk : k < bs.length) : mem (a + BitVec.ofNat 32 k) = some bs[k] := by
  have hlen : (bs.take k).length = k := by
    rw [List.length_take]
    omega
  rw [← List.take_append_drop k bs, List.drop_eq_getElem_cons hk, holds_append, hlen] at h
  exact h.2.1

theorem IsCString.length_lt (h : IsCString mem a s) : s.length < 2 ^ 32 := by
  by_contra hlen
  obtain ⟨k, hk⟩ : ∃ k, s.length = k + 4294967296 := ⟨s.length - 4294967296, by omega⟩
  have hh := holds_append.mp h.holds
  have hchar := hh.1.get (show k < s.length by omega)
  have hend := hh.2.1
  -- the addresses wrap around, so that the end would stand on a character
  have hwrap : BitVec.ofNat 32 s.length = BitVec.ofNat 32 k := by
    apply BitVec.eq_of_toNat_eq
    rw [BitVec.toNat_ofNat, BitVec.toNat_ofNat]
    omega
  rw [hwrap, hchar, Option.some.injEq] at hend
  exact h.no_nul (hend ▸ List.getElem_mem _)

def Countable (wt : List Byte) (w n : ℕ) : Prop :=
  (n : Int) ≤ 2 ^ 31 + (if wt = [] then -1 else (w : Int)) ∨ (wt = [] ∧ n + 1 = 2 ^ 32)

theorem WidthText.room_iff (hw : WidthText w wt wargs) (hn : n < 2 ^ 32) :
    ((if wt = [] then -1#32 else BitVec.ofNat 32 w) - BitVec.ofNat 32 n).toInt.toNat = w - n ↔ Countable wt w n := by
  have hle := hw.le
  have hone : (-1#32 : CInt).toNat = 4294967295 := by decide
  have hint := fun x : CInt => BitVec.toInt_eq_toNat_cond (x - BitVec.ofNat 32 n)
  simp only [BitVec.toNat_sub, BitVec.toNat_ofNat, Nat.reducePow] at hint hle hn
  unfold Countable
  by_cases hwt : wt = []
  · have hw0 := hw.eq_zero hwt
    have hx := hint (-1#32)
    rw [hone] at hx
    rw [if_pos hwt, if_pos hwt, hx]
    simp only [hwt, true_and, Nat.reducePow, Int.reducePow]
    split <;> omega
  · have hx := hint (BitVec.ofNat 32 w)
    simp only [BitVec.toNat_ofNat, Nat.reducePow] at hx
    rw [if_neg hwt, if_neg hwt, hx]
    simp only [hwt, false_and, or_false, Int.reducePow]
    split <;> omega

theorem padc_left {left : Bool} (hpadc : d.padc = if left then chr '-' else chr ' ') : d.padc ≠ chr '-' ↔
    left = false := by
  rw [hpadc]
  cases left <;> decide

theorem stringText_neg (h : d.precision.toInt < 0) : stringText d t = if 0 < d.width.toInt ∧ d.padc ≠ chr '-' then
    List.replicate d.width.toInt.toNat d.padc ++
      (t.map (printed d.altflag) ++ List.replicate (padded d.width - BitVec.ofNat 32 t.length).toInt.toNat (chr ' '))
    else t.map (printed d.altflag) ++ List.replicate (d.width - BitVec.ofNat 32 t.length).toInt.toNat (chr ' ') := by
  simp only [stringText, h, if_true, BitVec.sub_zero, shownText_eq]

theorem stringText_nonneg (h : ¬ d.precision.toInt < 0) : stringText d t = if 0 < d.width.toInt ∧
    d.padc ≠ chr '-' then
    List.replicate (d.width - BitVec.ofNat 32 t.length).toInt.toNat d.padc ++ (t.map (printed d.altflag) ++
      List.replicate (padded (d.width - BitVec.ofNat 32 t.length) - BitVec.ofNat 32 t.length).toInt.toNat (chr ' '))
    else t.map (printed d.altflag) ++ List.replicate (d.width - BitVec.ofNat 32 t.length).toInt.toNat (chr ' ') := by
  simp only [stringText, h, if_false, shownText_eq]

theorem stringText_cut (hw : w ≤ 2 ^ 30) {p : ℕ} (hp : p ≤ 2 ^ 30) (hwidth : d.width = BitVec.ofNat 32 w)
    (hprecision : d.precision = BitVec.ofNat 32 p) {left : Bool} (hpadc : d.padc = if left then chr '-'
    else chr ' ') (ht : t.length ≤ p) :
    stringText d t = stringField left d.altflag w t := by
  have hwi : (BitVec.ofNat 32 w).toInt = w := toInt_ofNat_small (by omega)
  have hpi : (BitVec.ofNat 32 p).toInt = p := toInt_ofNat_small (by omega)
  have hti : (BitVec.ofNat 32 t.length).toInt = t.length := toInt_ofNat_small (by omega)
  have hroom : (BitVec.ofNat 32 w - BitVec.ofNat 32 t.length).toInt = w - t.length := by
    rw [toInt_sub_small (by omega) (by omega), hwi, hti]
  have hnat : (BitVec.ofNat 32 w - BitVec.ofNat 32 t.length).toInt.toNat = w - t.length := by omega
  rw [stringText_nonneg (by rw [hprecision]; omega)]
  unfold stringField
  simp only [padc_left hpadc, hwidth, hwi, hnat]
  cases left with
  | true => simp only [Bool.true_eq_false, and_false, if_false, if_true]
  | false =>
    simp only [Bool.false_eq_true, and_true, if_false]
    by_cases hpos : 0 < w
    · -- what is left of the width behind the padding is not positive
      have hrest : (padded (BitVec.ofNat 32 w - BitVec.ofNat 32 t.length) -
        BitVec.ofNat 32 t.length).toInt.toNat = 0 := by
        unfold padded
        split
        · rw [toInt_sub_small (by rw [hti]; simp; omega) (by rw [hti]; simp; omega), hti]
          simp
        · rw [toInt_sub_small (by omega) (by omega)]
          omega
      have hspace : d.padc = chr ' ' := hpadc
      rw [if_pos (by omega), hrest, hspace, List.replicate_zero, List.append_nil]
    · have h0 : w - t.length = 0 := by omega
      rw [if_neg (by omega), h0, List.replicate_zero, List.append_nil, List.nil_append]

theorem stringText_whole (hw : WidthText w wt wargs) (hwidth : d.width = if wt = [] then -1#32
    else BitVec.ofNat 32 w)
    (hprecision : d.precision = -1#32) {left : Bool} (hpadc : d.padc = if left then chr '-' else chr ' ')
    (hs : s.length < 2 ^ 32) :
    stringField left d.altflag w s = stringText d s ↔ (left = true ∨ w = 0 ∨ s = []) ∧ Countable wt w s.length := by
  have hle := hw.le
  have hroom := hw.room_iff hs
  have hpos : 0 < d.width.toInt ↔ 0 < w := by
    rw [hwidth]
    split
    · next h =>
      rw [hw.eq_zero h]
      decide
    · rw [toInt_ofNat_small (by omega)]
      omega
  have hreplicate : ∀ {n m : ℕ}, List.replicate n (chr ' ') = List.replicate m (chr ' ') ↔ n = m := by
    intro n m
    simp
  rw [stringText_neg (by rw [hprecision]; decide)]
  simp only [padc_left hpadc, hpos]
  rw [← hroom, ← hwidth]
  cases left with
  | true =>
    simp only [stringField, Bool.true_eq_false, and_false, if_false, if_true, true_or, true_and,
      List.append_cancel_left_eq, hreplicate]
    exact eq_comm
  | false =>
    simp only [stringField, Bool.false_eq_true, and_true, if_false, false_or]
    by_cases hw0 : w = 0
    · subst hw0
      rw [if_neg (by omega), Nat.zero_sub, List.replicate_zero, List.nil_append, List.self_eq_append_right,
        List.replicate_eq_nil_iff]
      exact (and_iff_right (Or.inl rfl)).symm
    · rw [if_pos (by omega), or_iff_right hw0]
      have hne : wt ≠ [] := fun h => hw0 (hw.eq_zero h)
      rw [if_neg hne] at hwidth
      have hwi : d.width.toInt = w := by rw [hwidth, toInt_ofNat_small (by omega)]
      have hspace : d.padc = chr ' ' := hpadc
      by_cases hnil : s = []
      · subst hnil
        refine iff_of_true ?_ ⟨rfl, ?_⟩
        · have hzero : padded d.width = 0#32 := if_pos (by omega)
          simp [hzero, hwi, hspace]
        · rw [List.length_nil, BitVec.sub_zero, hwi]
          simp
      · -- the padding does not take the length into account
        refine iff_of_false (fun he => ?_) (fun h => hnil h.1)
        have hpos' := List.length_pos_iff.mpr hnil
        have hlen := congrArg List.length he
        simp only [List.length_append, List.length_replicate, List.length_map, hwi] at hlen
        omega

theorem stringText_zero (hw : w ≤ 2 ^ 30) (hwidth : d.width = BitVec.ofNat 32 w) (hprecision : d.precision = -1#32)
    (hpadc : d.padc = chr '0') {left : Bool} : stringField left d.altflag w [] = stringText d s ↔ w = 0 ∧
    s = [] := by
  have hwi : (BitVec.ofNat 32 w).toInt = w := toInt_ofNat_small (by omega)
  have hroom : stringField left d.altflag w [] = List.replicate w (chr ' ') := by
    cases left <;> simp [stringField]
  rw [hroom, stringText_neg (by rw [hprecision]; decide)]
  simp only [hwidth, hpadc, hwi, Int.toNat_natCast]
  by_cases hpos : 0 < w
  · -- the zeros come first
    obtain ⟨k, rfl⟩ : ∃ k, w = k + 1 := ⟨w - 1, by omega⟩
    rw [if_pos ⟨by omega, by decide⟩, List.replicate_succ, List.replicate_succ, List.cons_append]
    exact iff_of_false (fun he => absurd (List.cons.inj he).1 (by decide)) (fun h => by omega)
  · obtain rfl : w = 0 := by omega
    rw [if_neg (by simp), List.replicate_zero]
    constructor
    · intro he
      have hnil := (List.append_eq_nil_iff.mp he.symm).1
      exact ⟨rfl, List.map_eq_nil_iff.mp hnil⟩
    · rintro ⟨_, rfl⟩
      rfl

/-- When `%s` emits the field: never beside a precision that is the numeral 0, but for the empty field, and without
a precision only
where nothing is padded on the left. -/
def StringFieldOk (left : Bool) (w : ℕ) (wt pt s : List Byte) : Prop :=
  (pt = [] → (left = true ∨ w = 0 ∨ s = []) ∧ Countable wt w s.length) ∧ (pt = [46#8, 48#8] → w = 0 ∧ s = [])

theorem PrecisionText.isFlag (hp : PrecisionText p pt pargs) : ∀ c ∈ pt, IsFlag c := by
  cases hp with
  | absent => decide
  | zero => decide
  | number h =>
    intro c hc
    rcases List.mem_cons.mp hc with rfl | hc
    · decide
    · exact h.isFlag c hc

theorem NumberText.ne_zero (h : NumberText n bs args) : bs ≠ [48#8] := by
  cases h with
  | numeral hw hle =>
    obtain ⟨c, cs, hcs, ht⟩ := decimalBytes_head hw
    rw [hcs]
    intro he
    rw [(List.cons.inj he).1] at ht
    exact absurd ht (by decide)
  | star hle => decide

def beforePrecision (fl wt : List Byte) (w : ℕ) (ap : List Word) : Directive :=
  { Directive.start 0#32 ap with
    padc := if decide (45#8 ∈ fl) = true then chr '-' else chr ' '
    width := if wt = [] then -1#32 else BitVec.ofNat 32 w
    altflag := decide (35#8 ∈ fl) }

theorem directive_string (hfl : ∀ c ∈ fl, c = 45#8 ∨ c = 35#8) (hw : WidthText w wt wargs)
    (hp : ¬ IsDigit (pt.headD 0#8)) :
    directive (fl ++ (wt ++ pt)) (wargs ++ ap) = Opts.flags pt ⟨beforePrecision fl wt w ap, none⟩ := by
  rw [directive, flags_string hfl, hw.flags rfl rfl (show wargs ++ ap = wargs ++ ap from rfl) hp]
  simp [beforePrecision, Directive.start]

theorem dot_width (hw : WidthText w wt wargs) :
    (if (beforePrecision fl wt w ap).width.toInt < 0 then 0#32 else (beforePrecision fl wt w ap).width) =
    BitVec.ofNat 32 w := by
  have hle := hw.le
  unfold beforePrecision
  by_cases hwt : wt = []
  · simp [hwt, hw.eq_zero hwt]
  · simp only [hwt, if_false, toInt_ofNat_small (show w < 2 ^ 31 by omega)]
    rw [if_neg (by omega)]

theorem flags_dot (hw : WidthText w wt wargs) : Opts.flags (46#8 :: cs) ⟨beforePrecision fl wt w ap, none⟩ =
    Opts.flags cs ⟨{ beforePrecision fl wt w ap with width := BitVec.ofNat 32 w }, none⟩ := by
  change Opts.flags cs ⟨{ beforePrecision fl wt w ap with
    width := if (beforePrecision fl wt w ap).width.toInt < 0 then 0#32
      else (beforePrecision fl wt w ap).width }, none⟩ = _
  rw [dot_width hw]

theorem IsCString.uptoCut (hs : IsCString mem a s) (p : Option ℕ) : Holds mem a (uptoCut p s) := by
  cases p with
  | none => exact hs.holds
  | some p =>
    have hh := hs.holds
    rw [← List.take_append_drop (p + 1) (s ++ [0#8]), holds_append] at hh
    exact hh.1

theorem isFlag_string (hfl : ∀ c ∈ fl, c = 45#8 ∨ c = 35#8) (hw : WidthText w wt wargs)
    (hp : PrecisionText p pt pargs) :
    ∀ c ∈ fl ++ (wt ++ pt), IsFlag c := by
  intro c hc
  rcases List.mem_append.mp hc with hc | hc
  · rcases hfl c hc with rfl | rfl <;> decide
  rcases List.mem_append.mp hc with hc | hc
  · exact hw.isFlag c hc
  · exact hp.isFlag c hc

theorem directive_precision {p : ℕ} (hfl : ∀ c ∈ fl, c = 45#8 ∨ c = 35#8) (hw : WidthText w wt wargs)
    (hp : NumberText p bs pargs) :
    directive (fl ++ (wt ++ 46#8 :: bs)) (wargs ++ (pargs ++ ap)) =
      some { beforePrecision fl wt w ap with width := BitVec.ofNat 32 w, precision := BitVec.ofNat 32 p } := by
  have hle := hw.le
  have hdigit : ¬ IsDigit ((46#8 :: bs).headD 0#8) := show ¬ IsDigit 46#8 by decide
  have hset : ({ beforePrecision fl wt w ap with width := BitVec.ofNat 32 w } : Directive).setNumber
    (BitVec.ofNat 32 p) =
      { beforePrecision fl wt w ap with width := BitVec.ofNat 32 w, precision := BitVec.ofNat 32 p } := by
    unfold Directive.setNumber Directive.processPrecision
    rw [if_neg]
    simp only [toInt_ofNat_small (show w < 2 ^ 31 by omega)]
    omega
  rw [directive_string hfl hw hdigit, flags_dot hw, ← List.append_nil bs, hp.flags rfl (by decide)]
  exact congrArg some hset

theorem string_field (hfl : ∀ c ∈ fl, c = 45#8 ∨ c = 35#8) (hw : WidthText w wt wargs)
    (hp : PrecisionText p pt pargs) (ha : a ≠ 0#32)
    (hs : IsCString mem a s) (h : IsCString mem fmt (stringDirective fl wt pt)) :
    (∀ mem', (∀ q c, mem' q = some c → mem q = some c) → IsCString mem' fmt (stringDirective fl wt pt) →
    Holds mem' a (uptoCut p s) →
      Emits false ro mem' fmt (wargs ++ (pargs ++ a :: ap)) (stringField (45#8 ∈ fl) (35#8 ∈ fl) w (cut p s))) ↔
      StringFieldOk (45#8 ∈ fl) w wt pt s := by
  have hle := hw.le
  have hnone : (-1#32 : CInt).toInt < 0 := by decide
  have hsame : ∀ q c, mem q = some c → mem q = some c := fun _ _ hc => hc
  have hupto := hs.uptoCut p
  have hb := isFlag_string hfl hw hp
  cases hp with
  | absent =>
    have hd : directive (fl ++ (wt ++ [])) (wargs ++ ([] ++ a :: ap)) = some (beforePrecision fl wt w (a :: ap)) :=
      directive_string hfl hw (by decide)
    have hout : ∀ {mem' out}, IsCString mem' fmt (stringDirective fl wt []) → Holds mem' a (s ++ [0#8]) →
        (Emits false ro mem' fmt (wargs ++ ([] ++ a :: ap)) out ↔
        out = stringText (beforePrecision fl wt w (a :: ap)) s) :=
      fun h' hh => emits_string hd rfl ha h' hb hh hs.no_nul (Or.inl ⟨hnone, rfl⟩)
    have hwhole := @stringText_whole wargs (beforePrecision fl wt w (a :: ap)) wt s w hw rfl rfl _ rfl hs.length_lt
    constructor
    · intro hall
      exact ⟨fun _ => hwhole.mp ((hout h hs.holds).mp (hall mem hsame h hupto)), fun he => by cases he⟩
    · intro hok mem' _ h' hh
      exact (hout h' hh).mpr (hwhole.mpr (hok.1 rfl))
  | zero =>
    let d : Directive := { beforePrecision fl wt w (a :: ap) with width := BitVec.ofNat 32 w, padc := chr '0' }
    have hd : directive (fl ++ (wt ++ [46#8, 48#8])) (wargs ++ ([] ++ a :: ap)) = some d := by
      rw [directive_string hfl hw (by decide), flags_dot hw]
      rfl
    have hout : ∀ {mem' out}, IsCString mem' fmt (stringDirective fl wt [46#8, 48#8]) → Holds mem' a (s ++ [0#8]) →
        (Emits false ro mem' fmt (wargs ++ ([] ++ a :: ap)) out ↔ out = stringText d s) :=
      fun h' hh => emits_string hd rfl ha h' hb hh hs.no_nul (Or.inl ⟨hnone, rfl⟩)
    have hzero := @stringText_zero d s w hle rfl rfl rfl (decide (45#8 ∈ fl))
    constructor
    · intro hall
      exact ⟨fun he => absurd he (List.cons_ne_nil _ _), fun _ =>
        hzero.mp ((hout h hs.holds).mp (hall mem hsame h hupto))⟩
    · intro hok mem' _ h' hh
      obtain ⟨rfl, rfl⟩ := hok.2 rfl
      exact (hout h' hh).mpr (hzero.mpr ⟨rfl, rfl⟩)
  | @number p bs args hp =>
    let d : Directive :=
      { beforePrecision fl wt w (a :: ap) with width := BitVec.ofNat 32 w, precision := BitVec.ofNat 32 p }
    have hd : directive (fl ++ (wt ++ 46#8 :: bs)) (wargs ++ (pargs ++ a :: ap)) = some d :=
      directive_precision hfl hw hp
    obtain ⟨c, hcut, hc⟩ := take_uptoCut p s
    have hz : 0#8 ∉ s.take p := fun hm => hs.no_nul (List.mem_of_mem_take hm)
    have hpi : d.precision.toInt = p := toInt_ofNat_small (by have := hp.le; omega)
    have hlen : (s.take p).length ≤ p := by
      rw [List.length_take]
      omega
    have hfield := @stringText_cut d (s.take p) w hle p hp.le rfl rfl _ rfl hlen
    refine iff_of_true (fun mem' _ h' hh => ?_) ⟨fun he => absurd he (List.cons_ne_nil _ _), fun he =>
      absurd (List.cons.inj he).2 hp.ne_zero⟩
    rw [hcut] at hh
    refine (emits_string hd rfl ha h' hb hh hz (Or.inr ⟨by omega, hc.imp_right (fun hc => by omega)⟩)).mpr
      hfield.symm

def stringBytes (s : String) : Bytes := image (rodataBytes ++ (cString s ++ cString "ab~\n"))

theorem string_field_small : Emits false rodata (stringBytes "%#-*.4s") 125#32 [6#32, 133#32]
    [chr 'a', chr 'b', chr '~', chr '?', chr ' ', chr ' '] := by
  have h : IsCString (stringBytes "%#-*.4s") 125#32 (stringDirective [35#8, 45#8] [42#8] (46#8 :: decimalBytes 4)) :=
    ⟨by decide +kernel, by decide⟩
  have hs : IsCString (stringBytes "%#-*.4s") 133#32 (text "ab~\n") := ⟨by decide +kernel, by decide⟩
  have hw : WidthText 6 [42#8] [6#32] := Or.inr (.star (by decide))
  have hp : PrecisionText (some 4) (46#8 :: decimalBytes 4) [] := .number (.numeral (by decide) (by decide))
  have hfield : Emits false rodata (stringBytes "%#-*.4s") 125#32 ([6#32] ++ ([] ++ [133#32]))
      (stringField (45#8 ∈ [35#8, 45#8]) (35#8 ∈ [35#8, 45#8]) 6 (cut (some 4) (text "ab~\n"))) :=
    (string_field (by decide) hw hp (by decide) hs h).mpr ⟨fun he => absurd he (List.cons_ne_nil _ _), by decide⟩ _
      (fun _ _ hc => hc) h (by decide +kernel)
  exact hfield

theorem not_string_field :
    ¬ ∀ (mem : Bytes) (ro : Rodata) (fmt a : Word) (fl wt pt s : List Byte) (w : ℕ) (p : Option ℕ)
    (wargs pargs ap : List Word), (∀ c ∈ fl, c = 45#8 ∨ c = 35#8) → WidthText w wt wargs →
    PrecisionText p pt pargs → a ≠ 0#32 →
    IsCString mem a s → IsCString mem fmt (stringDirective fl wt pt) →
    ∀ mem', (∀ q c, mem' q = some c → mem q = some c) → IsCString mem' fmt (stringDirective fl wt pt) →
    Holds mem' a (uptoCut p s) →
      Emits false ro mem' fmt (wargs ++ (pargs ++ a :: ap)) (stringField (45#8 ∈ fl) (35#8 ∈ fl) w (cut p s)) := by
  intro hall
  have h : IsCString (stringBytes "%5s") 125#32 (stringDirective [] (decimalBytes 5) []) :=
    ⟨by decide +kernel, by decide⟩
  have hs : IsCString (stringBytes "%5s") 129#32 (text "ab~\n") := ⟨by decide +kernel, by decide⟩
  have hw : WidthText 5 (decimalBytes 5) [] := Or.inr (.numeral (by decide) (by decide))
  have hrun : Emits false rodata (stringBytes "%5s") 125#32 [129#32]
      (List.replicate 5 (chr ' ') ++ [chr 'a', chr 'b', chr '~', 10#32]) :=
      ⟨8, _, Returns.of_eval (by decide +kernel), by decide +kernel⟩
  have hclaim := hall _ rodata 125#32 129#32 [] (decimalBytes 5) [] (text "ab~\n") 5 none [] [] []
    (by decide) hw .absent (by decide) hs h _
    (fun _ _ hc => hc) h hs.holds
  exact absurd (hrun.unique hclaim) (by decide)

end Cezos
