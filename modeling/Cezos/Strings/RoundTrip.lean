import Cezos.Stdio.NumberField
import Cezos.Strings.Strtol

namespace Cezos.Strings

open Lib

def digitByte (d : ℕ) : Byte := (digitChar d).setWidth 8

def digitsText (b n : ℕ) : List Byte := (places b n).map digitByte

variable {b n m k d : ℕ} {c : Byte} {mem mem' : Bytes} {buf fmt v : Word} {size : CInt} {ro : Rodata} {x : List Byte}

theorem digit_digitByte (hd : d < 16) : digit (digitByte d) = d := by
  have hall : ∀ d < 16, digit (digitByte d) = d := by decide
  exact hall d hd

theorem numeral_places (hb : 1 < b) (hle : b ≤ 16) : numeral b n = (places b n).map digitChar := by
  induction n using places_induction hb with
  | small n hlt => rw [numeral_of_lt hlt, places_of_lt hlt, List.map_singleton, digitChar_eq (by omega)]
  | large n hge ih =>
    have hmod := Nat.mod_lt n (show 0 < b by omega)
    rw [numeral_of_le hb hge, places_of_le hb hge, ih, List.map_append, List.map_singleton, digitChar_eq (by omega)]

theorem numeral_text (hb : 1 < b) (hle : b ≤ 16) : (numeral b n).map (·.setWidth 8) = digitsText b n := by
  rw [numeral_places hb hle, List.map_map]
  rfl

theorem digitsText_below (hb : 1 < b) (hle : b ≤ 16) (hc : c ∈ digitsText b n) : Below b c := by
  obtain ⟨d, hd, rfl⟩ := List.mem_map.mp hc
  have hlt := (positional_places hb n).digit d hd
  rw [Below, digit_digitByte (by omega)]
  exact hlt

theorem digitsText_ne_nil (hb : 1 < b) : digitsText b n ≠ [] :=
    fun h => (positional_places hb n).nonempty (List.map_eq_nil_iff.mp h)

theorem valueOf_digitsText (hb : 1 < b) (hle : b ≤ 16) : valueOf b (digitsText b n) = n := by
  have hdigits : ((places b n).map digitByte).map digit = places b n := by
    rw [List.map_map]
    apply List.map_congr_left _ |>.trans (List.map_id _)
    intro d hd
    exact digit_digitByte (Nat.lt_of_lt_of_le ((positional_places hb n).digit d hd) hle)
  rw [valueOf, digitsText, hdigits]
  exact (positional_places hb n).value_eq

theorem digitsText_lead (hb : 1 < b) (hle : b ≤ 16) : digitsText b n = [48#8] ∨
    (digitsText b n).headD 0#8 ≠ 48#8 := by
  have hpos := positional_places hb n
  obtain ⟨d, ds, hds⟩ := List.exists_cons_of_ne_nil hpos.nonempty
  have hlt := hpos.digit d (hds ▸ List.mem_cons_self)
  unfold digitsText
  by_cases hd : d = 0
  · left
    rw [hpos.lead (by rw [hds, hd]; rfl)]
    rfl
  · right
    rw [hds]
    intro hzero
    have hdigit := congrArg digit (show digitByte d = 48#8 from hzero)
    rw [digit_digitByte (by omega)] at hdigit
    exact hd hdigit

theorem length_digitsText (hb : 1 < b) (hle : b ≤ 16) (hk : 0 < k) (hn : n < b ^ k) :
    (digitsText b n).length ≤ k := by
  rw [← numeral_text hb hle, List.length_map, numeral, List.length_map, Nat.length_toDigits_le_iff hb hk]
  exact hn

inductive Readable
  | decimal | unsigned | hex | pointer

namespace Readable

def byte : Readable → Byte
  | decimal => 100#8
  | unsigned => 117#8
  | hex => 120#8
  | pointer => 112#8

def bases : Readable → List ℕ
  | decimal => [10, 0]
  | unsigned => [10]
  | hex => [16]
  | pointer => [0, 16]

def base : Readable → ℕ
  | decimal => 10
  | unsigned => 10
  | hex => 16
  | pointer => 16

def sign : Readable → Word → Sign
  | decimal, v => if v.toInt < 0 then .minus else .none
  | _, _ => .none

def magnitude : Readable → Word → ℕ
  | decimal, v => v.toInt.natAbs
  | _, v => v.toNat

def lead : Readable → List Byte
  | pointer => [48#8, 120#8]
  | _ => []

def text (conv : Readable) (v : Word) : List Byte :=
  (conv.sign v).text ++ (conv.lead ++ digitsText conv.base (conv.magnitude v))

variable {conv : Readable}

theorem base_bounds (conv : Readable) : 1 < conv.base ∧ conv.base ≤ 16 := by
  cases conv <;> decide

theorem value_text (conv : Readable) (v : Word) : BitVec.ofInt 32 ((conv.sign v).apply (conv.magnitude v)) = v := by
  have hunsigned : BitVec.ofInt 32 (v.toNat : Int) = v := by
    rw [BitVec.ofInt_natCast, BitVec.ofNat_toNat, BitVec.setWidth_eq]
  cases conv with
  | decimal =>
    have hsigned : (sign decimal v).apply (magnitude decimal v) = v.toInt := by
      by_cases hneg : v.toInt < 0
      · rw [sign, if_pos hneg]
        change -(v.toInt.natAbs : Int) = v.toInt
        omega
      · rw [sign, if_neg hneg]
        change (v.toInt.natAbs : Int) = v.toInt
        omega
    rw [hsigned]
    exact BitVec.ofInt_toInt
  | unsigned => exact hunsigned
  | hex => exact hunsigned
  | pointer => exact hunsigned

theorem numberText_unpadded {d : Directive} (hd : d.width = -1#32) (hb : 2 ≤ b) (hn : n < 18446744073709551616) :
    numberText d b n = numeral b n := by
  have hlen := length_numeral_le hb hn
  have hpad : (-1#32 - BitVec.ofNat 32 (numeral b n).length : CInt).toInt < 0 := by
    rw [BitVec.toInt_neg_iff, BitVec.toNat_sub, BitVec.toNat_ofNat]
    have hone : (-1#32 : CInt).toNat = 4294967295 := by decide
    omega
  rw [numberText, hd, Int.toNat_of_nonpos (Int.le_of_lt hpad)]
  rfl

theorem isKnown (conv : Readable) : IsKnown conv.byte := by
  cases conv <;> decide

theorem emits_text (h : IsCString mem fmt [37#8, conv.byte]) (v : Word) :
    ∃ out, Emits false ro mem fmt [v] out ∧ out.map (·.setWidth 8) = conv.text v := by
  have hd : directive [] [v] = some (.start 0#32 [v]) := rfl
  have hwide : (v.setWidth 64).toNat = v.toNat := by
    rw [BitVec.toNat_setWidth]
    have hv := v.isLt
    omega
  have hnumber : ∀ b : Word, 2 ≤ b.toNat → b.toNat ≤ 16 →
      Writes (putNumber logHost (.start 0#32 [v]) (v.setWidth 64) b) mem () (numeral b.toNat v.toNat) := by
    intro b hb hle
    have hwrites := @putNumber_writes mem (.start 0#32 [v]) (v.setWidth 64) b hb hle
    have hv := v.isLt
    rwa [hwide, numberText_unpadded rfl hb (by omega)] at hwrites
  have hfield : ∀ out, Field mem ro (.start 0#32 [v]) [] out (tokenOf (conv.byte.setWidth 32)) →
    Emits false ro mem fmt [v] out :=
    fun out hout => (emits_single hd h (by simp) conv.isKnown).mpr ⟨[], hout⟩
  cases conv with
  | decimal =>
    have hvalue : (v.signExtend 64).toInt = v.toInt := BitVec.toInt_signExtend_of_le (by decide)
    have habs : v.toInt.natAbs < 18446744073709551616 := by
      have hlow := v.le_toInt
      have hhigh := v.toInt_lt
      omega
    refine ⟨_, hfield _ ⟨v.signExtend 64, rfl, putDecimal_writes⟩, ?_⟩
    rw [decimalText, hvalue, numberText_unpadded rfl (by decide) habs, List.map_append, numeral_text (by decide)
      (by decide), text, sign]
    split <;> rfl
  | unsigned =>
      exact ⟨_, hfield _ ⟨v.setWidth 64, rfl, hnumber 10#32 (by decide) (by decide)⟩, numeral_text (by decide)
        (by decide)⟩
  | hex =>
      exact ⟨_, hfield _ ⟨v.setWidth 64, rfl, hnumber 16#32 (by decide) (by decide)⟩, numeral_text (by decide)
        (by decide)⟩
  | pointer =>
    refine ⟨_, hfield _ ⟨v, _, rfl, hnumber 16#32 (by decide) (by decide), rfl⟩, ?_⟩
    exact congrArg (fun cs => 48#8 :: 120#8 :: cs) (numeral_text (by decide) (by decide))

theorem length_text (conv : Readable) (v : Word) : (conv.text v).length ≤ 11 := by
  have hv := v.isLt
  have hlow := v.le_toInt
  have hhigh := v.toInt_lt
  have hten : ∀ {n}, n < 4294967296 → (digitsText 10 n).length ≤ 10 :=
    fun hn => length_digitsText (by decide) (by decide) (by decide) (by omega)
  have hsixteen : (digitsText 16 v.toNat).length ≤ 8 := length_digitsText (by decide) (by decide) (by decide) hv
  cases conv with
  | decimal =>
    have hdigits := @hten v.toInt.natAbs (by omega)
    have hsign : (sign decimal v).text.length ≤ 1 := by
      rw [sign]
      split
      · exact Nat.le_refl 1
      · exact Nat.zero_le 1
    rw [text, List.length_append]
    change _ + (digitsText 10 v.toInt.natAbs).length ≤ 11
    omega
  | unsigned => exact Nat.le_succ_of_le (hten hv)
  | hex => exact Nat.le_trans hsixteen (by decide)
  | pointer => exact Nat.le_trans (Nat.add_le_add_right hsixteen 2) (by decide)

theorem head_below (conv : Readable) (n : ℕ) : Below 16 ((conv.lead ++ digitsText conv.base n).headD 0#8) := by
  have hdigits : ∀ {b}, 1 < b → b ≤ 16 → Below 16 ((digitsText b n).headD 0#8) := by
    intro b hb hle
    obtain ⟨c, cs, hcs⟩ := List.exists_cons_of_ne_nil (@digitsText_ne_nil b n hb)
    have hc : Below b c := digitsText_below hb hle (hcs ▸ List.mem_cons_self)
    rw [hcs]
    exact Nat.lt_of_lt_of_le hc hle
  cases conv with
  | decimal => exact hdigits (by decide) (by decide)
  | unsigned => exact hdigits (by decide) (by decide)
  | hex => exact hdigits (by decide) (by decide)
  | pointer => exact show Below 16 48#8 by decide

theorem split_text (conv : Readable) (v : Word) :
    Split (conv.text v) [] (conv.sign v) (conv.lead ++ digitsText conv.base (conv.magnitude v)) := by
  have hhead := conv.head_below (conv.magnitude v)
  constructor
  · refine ⟨rfl, by simp, ?_⟩
    cases conv.sign v with
    | none =>
      intro hblank
      have hlt : digit ((conv.lead ++ digitsText conv.base (conv.magnitude v)).headD 0#8) < 16 := hhead
      have hdigit : digit ((conv.lead ++ digitsText conv.base (conv.magnitude v)).headD 0#8) = 36 := hblank.digit
      omega
    | plus => exact show ¬ Blank 43#8 by decide
    | minus => exact show ¬ Blank 45#8 by decide
  · intro _
    have hsigns : ¬ Below 16 43#8 ∧ ¬ Below 16 45#8 := by decide
    exact ⟨fun hplus => hsigns.1 (hplus ▸ hhead), fun hminus => hsigns.2 (hminus ▸ hhead)⟩

theorem leads_given (hb : 1 < b) (hle : b ≤ 16) : Leads b (digitsText b n) [] b (digitsText b n) := by
  refine .given (by omega) (fun _ u hu => ?_)
  have hletter : Below b 120#8 := digitsText_below hb hle (hu ▸ List.mem_cons_of_mem _ List.mem_cons_self)
  have hdigit : digit 120#8 = 33 := by decide
  rw [Below, hdigit] at hletter
  omega

theorem leads_text (hb : b ∈ conv.bases) (n : ℕ) :
    ∃ pf eb ds, Leads b (conv.lead ++ digitsText conv.base n) pf eb ds ∧
    (∀ c ∈ ds, Below eb c) ∧ valueOf eb ds = n := by
  have hgiven : ∀ {b}, 1 < b → b ≤ 16 → ∃ pf eb ds, Leads b (digitsText b n) pf eb ds ∧ (∀ c ∈ ds, Below eb c) ∧
    valueOf eb ds = n :=
    fun hb hle => ⟨_, _, _, leads_given hb hle, fun _ => digitsText_below hb hle, valueOf_digitsText hb hle⟩
  cases conv with
  | decimal =>
    have hpair : b = 10 ∨ b = 0 := by simpa [bases] using hb
    rcases hpair with rfl | rfl
    · exact hgiven (by decide) (by decide)
    · -- a zero in front is read as the prefix of an octal number
      have hten : 1 < 10 ∧ 10 ≤ 16 := by decide
      have hvalue := @valueOf_digitsText 10 n hten.1 hten.2
      rcases @digitsText_lead 10 n hten.1 hten.2 with hzero | hlead
      · rw [hzero] at hvalue
        change ∃ pf eb ds, Leads 0 (digitsText 10 n) pf eb ds ∧ _
        rw [hzero]
        exact ⟨_, _, [], .octal rfl (by decide), by simp, hvalue⟩
      · exact ⟨_, _, _, .decimal rfl hlead, fun _ => digitsText_below hten.1 hten.2, hvalue⟩
  | unsigned =>
    obtain rfl := List.mem_singleton.mp hb
    exact hgiven (by decide) (by decide)
  | hex =>
    obtain rfl := List.mem_singleton.mp hb
    exact hgiven (by decide) (by decide)
  | pointer =>
    have hsixteen : 1 < 16 ∧ 16 ≤ 16 := by decide
    have hpair : b = 0 ∨ b = 16 := by simpa [bases] using hb
    exact ⟨_, _, _, .hex hpair, fun _ => digitsText_below hsixteen.1 hsixteen.2,
      valueOf_digitsText hsixteen.1 hsixteen.2⟩

theorem base_le (hb : b ∈ conv.bases) : b ≤ 36 := by
  have hall : ∀ b ∈ conv.bases, b ≤ 36 := by cases conv <;> decide
  exact hall b hb

theorem strtol_text {endptr : Word} (hx : IsCString mem buf (conv.text v)) (hb : b ∈ conv.bases) :
    ∃ w, EndsAs false (fun fuel => strtol fuel buf endptr (BitVec.ofNat 32 b)) (watch mem)
      (v, stored endptr (buf + BitVec.ofNat 32 (conv.text v).length)) w := by
  obtain ⟨pf, eb, ds, hl, hds, hvalue⟩ := leads_text hb (conv.magnitude v)
  have hr : Run (Below eb) ds ds [] := ⟨(List.append_nil ds).symm, hds, Nat.not_lt.mpr (hl.le (base_le hb))⟩
  obtain ⟨w, hends, _⟩ :=
    (@strtol_answers mem buf endptr _ _ _ _ _ _ _ _ _ _ _ ⟨hx, Set.Subset.refl _⟩ (conv.split_text v) hl hr
    (base_le hb)).ends
  rw [hvalue, value_text, ← hl.eq] at hends
  exact ⟨w, hends⟩

end Readable

/-- What `snprintf` prints of `v`, `strtol` reads as `v`, up to the NUL. -/
def RoundTrips (ro : Rodata) (mem : Bytes) (buf : Word) (size : CInt) (fmt v : Word) (b : ℕ) : Prop :=
  ∃ r mem' x, Sprints false ro buf size fmt [v] mem r mem' ∧ IsCString mem' buf x ∧ ∀ endptr,
    ∃ w, EndsAs false (fun fuel => strtol fuel buf endptr (BitVec.ofNat 32 b)) (watch mem')
      (v, stored endptr (buf + BitVec.ofNat 32 x.length)) w

theorem Readable.no_nul (conv : Readable) (v : Word) : 0#8 ∉ conv.text v := by
  have hsign : 0#8 ∉ (conv.sign v).text := by
    cases conv.sign v <;> decide
  have hlead : 0#8 ∉ conv.lead := by
    cases conv <;> decide
  have hdigits : 0#8 ∉ digitsText conv.base (conv.magnitude v) := by
    intro hzero
    have hbelow : digit 0#8 < conv.base := digitsText_below conv.base_bounds.1 conv.base_bounds.2 hzero
    have hle := conv.base_bounds.2
    have hdigit : digit 0#8 = 36 := by decide
    omega
  rw [text, List.mem_append, List.mem_append]
  exact not_or.mpr ⟨hsign, not_or.mpr ⟨hlead, hdigits⟩⟩

theorem snprintf_strtol (conv : Readable) (h0 : buf ≠ 0#32) (hn : 12 ≤ size.toInt) (hb : Buffer mem buf size.toNat)
    (hfmt : IsCString (hide mem buf size.toNat) fmt [37#8, conv.byte]) (v : Word) :
    ∀ b ∈ conv.bases, RoundTrips ro mem buf size fmt v b := by
  intro b hbase
  obtain ⟨out, hemits, htext⟩ := @Readable.emits_text (hide mem buf size.toNat) fmt ro conv hfmt v
  have hlen := conv.length_text v
  obtain ⟨hsize, _, _⟩ := toNat_of_pos (show 1 ≤ size.toInt by omega)
  have hfitting : fitting size.toNat out = conv.text v := by
    rw [← htext, List.length_map] at hlen
    rw [fitting, List.take_of_length_le (by omega), htext]
  have hsprints := sprints_of_emits h0 (by omega) hb hemits
  rw [hfitting] at hsprints
  have hstring : IsCString (written mem buf (conv.text v ++ [0#8])) buf (conv.text v) :=
    ⟨written_holds (by rw [List.length_append, List.length_singleton]; omega), conv.no_nul v⟩
  exact ⟨_, _, _, hsprints, hstring, fun _ => Readable.strtol_text hstring hbase⟩

def formatAndRoom : Bytes := image ([0#8, 37#8, 100#8, 0#8] ++ List.replicate 12 0#8)

theorem snprintf_strtol_min : RoundTrips smallRodata formatAndRoom 4#32 12#32 1#32 0x80000000#32 0 :=
  snprintf_strtol .decimal (by decide) (by decide) ⟨by decide, by decide⟩ ⟨by decide, by decide⟩ 0x80000000#32 0
    (by decide)

end Cezos.Strings
