import Cezos.Lib.Places
import Cezos.Strings.Memory

namespace Cezos.Strings

open Lib

/-! ### The grammar of numerals -/

def Blank (c : Byte) : Prop := c = 32#8 ∨ c = 9#8

instance : DecidablePred Blank := fun _ => inferInstanceAs (Decidable (_ ∨ _))

def digit (c : Byte) : ℕ :=
  if 48 ≤ c.toNat ∧ c.toNat ≤ 57 then c.toNat - 48
  else if 97 ≤ c.toNat ∧ c.toNat ≤ 122 then c.toNat - 87
  else if 65 ≤ c.toNat ∧ c.toNat ≤ 90 then c.toNat - 55
  else 36

def Below (b : ℕ) (c : Byte) : Prop := digit c < b

instance {b : ℕ} : DecidablePred (Below b) := fun c => inferInstanceAs (Decidable (digit c < b))

inductive Sign
  | none | plus | minus

def Sign.text : Sign → List Byte
  | none => []
  | plus => [43#8]
  | minus => [45#8]

def Sign.apply : Sign → ℕ → Int
  | none, v => v
  | plus, v => v
  | minus, v => -v

theorem Sign.apply_zero (sign : Sign) : sign.apply 0 = 0 := by
  cases sign <;> rfl

def valueOf (b : ℕ) (ds : List Byte) : ℕ := value b (ds.map digit)

/-- The base that digits without a prefix are read in. -/
def effective (b : ℕ) (ds : List Byte) : ℕ := if b = 0 then if ds.head? = some 48#8 then 8 else 10 else b

inductive Magnitude (b : ℕ) : List Byte → ℕ → Prop
  | plain {ds : List Byte} (nonempty : ds ≠ []) (below : ∀ c ∈ ds, Below (effective b ds) c) :
      Magnitude b ds (valueOf (effective b ds) ds)
  | hex {ds : List Byte} (base : b = 0 ∨ b = 16) (nonempty : ds ≠ []) (below : ∀ c ∈ ds, Below 16 c) :
      Magnitude b (48#8 :: 120#8 :: ds) (valueOf 16 ds)

inductive Numeral (b : ℕ) : List Byte → Int → Prop
  | mk {blanks body : List Byte} {v : ℕ} (sign : Sign) (blank : ∀ c ∈ blanks, Blank c)
    (magnitude : Magnitude b body v) :
      Numeral b (blanks ++ (sign.text ++ body)) (sign.apply v)

structure Longest (b : ℕ) (x t : List Byte) (v : Int) : Prop where
  numeral : Numeral b t v
  inside : t <+: x
  longest : ∀ t' v', Numeral b t' v' → t' <+: x → t'.length ≤ t.length

variable {b eb m m' : ℕ} {c d : Byte} {x t t' u y ds pf body body' blanks : List Byte} {sign sign' : Sign} {v : Int}
  {p : Byte → Prop}

theorem Blank.digit (h : Blank c) : digit c = 36 := by
  rcases h with rfl | rfl
  · decide
  · decide

theorem effective_le (hb : b ≤ 36) : effective b ds ≤ 36 := by
  unfold effective
  split
  · split
    · decide
    · decide
  · exact hb

theorem Magnitude.head (hb : b ≤ 36) (h : Magnitude b body m) : ∃ c rest, body = c :: rest ∧
    Strings.digit c < 36 := by
  cases h with
  | plain nonempty below =>
    obtain ⟨c, rest, rfl⟩ := List.exists_cons_of_ne_nil nonempty
    exact ⟨c, rest, rfl, Nat.lt_of_lt_of_le (below c List.mem_cons_self) (effective_le hb)⟩
  | hex base nonempty below => exact ⟨48#8, _, rfl, by decide⟩

theorem Magnitude.extends_nonempty (hb : b ≤ 36) (h : Magnitude b body m) (hin : body <+: ds) : ds ≠ [] := by
  rintro rfl
  obtain ⟨c, rest, rfl, _⟩ := h.head hb
  exact List.cons_ne_nil _ _ (List.prefix_nil.mp hin)

/-! ### Runs of characters -/

/-- `ds` are the characters with `p` that `t` starts with, `y` is the rest. -/
structure Run (p : Byte → Prop) (t ds y : List Byte) : Prop where
  eq : t = ds ++ y
  all : ∀ c ∈ ds, p c
  stop : ¬ p (y.headD 0#8)

theorem run_exists (p : Byte → Prop) [DecidablePred p] (hnul : ¬ p 0#8) (t : List Byte) : ∃ ds y, Run p t ds y := by
  induction t with
  | nil => exact ⟨[], [], rfl, by simp, hnul⟩
  | cons c t ih =>
    by_cases hc : p c
    · obtain ⟨ds, y, rfl, hds, hstop⟩ := ih
      exact ⟨c :: ds, y, rfl, List.forall_mem_cons.mpr ⟨hc, hds⟩, hstop⟩
    · exact ⟨[], c :: t, rfl, by simp, hc⟩

theorem Run.tail (h : Run p (c :: t) (c :: ds) y) : Run p t ds y :=
  ⟨(List.cons.inj h.eq).2, fun d hd => h.all d (List.mem_cons_of_mem c hd), h.stop⟩

theorem Run.nil_iff (h : Run p t ds y) : ds = [] ↔ ¬ p (t.headD 0#8) := by
  obtain ⟨rfl, hall, hstop⟩ := h
  cases ds with
  | nil => simpa using hstop
  | cons d ds => simpa using hall d List.mem_cons_self

theorem Run.contains (h : Run p t ds y) (hbody : ∀ c ∈ body, p c) (hin : body <+: t) : body <+: ds := by
  induction body generalizing t ds with
  | nil => exact List.nil_prefix
  | cons c body ih =>
    have hc := hbody c List.mem_cons_self
    cases ds with
    | nil =>
      obtain ⟨z, rfl⟩ := hin
      exact absurd hc (h.nil_iff.mp rfl)
    | cons d ds =>
      obtain rfl := h.eq
      obtain ⟨rfl, htail⟩ := List.cons_prefix_cons.mp hin
      exact List.cons_prefix_cons.mpr ⟨rfl, ih h.tail (fun c hc => hbody c (List.mem_cons_of_mem _ hc)) htail⟩

theorem Run.unique (h : Run p t ds y) (hbody : ∀ c ∈ body, p c) (hc : ¬ p c) (hin : body ++ c :: u <+: t) :
    body = ds ∧ c :: u <+: y := by
  induction body generalizing t ds with
  | nil =>
    obtain ⟨z, rfl⟩ := hin
    obtain rfl : ds = [] := h.nil_iff.mpr hc
    exact ⟨rfl, z, h.eq⟩
  | cons d body ih =>
    obtain ⟨z, rfl⟩ := hin
    have hd := hbody d List.mem_cons_self
    cases ds with
    | nil => exact absurd hd (h.nil_iff.mp rfl)
    | cons e ds =>
      obtain ⟨rfl, _⟩ := List.cons.inj h.eq
      obtain ⟨rfl, hrest⟩ := ih h.tail (fun c hc => hbody c (List.mem_cons_of_mem _ hc)) (List.prefix_append _ z)
      exact ⟨rfl, hrest⟩

theorem Run.dropWhile [DecidablePred p] (h : Run p t ds y) : t.dropWhile (fun c => decide (p c)) = y := by
  obtain ⟨rfl, hall, hstop⟩ := h
  rw [List.dropWhile_append_of_pos (fun c hc => decide_eq_true (hall c hc))]
  cases y with
  | nil => rfl
  | cons c y => exact List.dropWhile_cons_of_neg (by simpa using hstop)

/-! ### Blanks and sign -/

def afterSign (x : List Byte) : List Byte :=
  match x.dropWhile (fun c => decide (Blank c)) with
  | [] => []
  | c :: t => if c = 43#8 ∨ c = 45#8 then t else c :: t

structure Split (x blanks : List Byte) (sign : Sign) (t : List Byte) : Prop where
  blank : Run Blank x blanks (sign.text ++ t)
  unsigned : sign = .none → t.headD 0#8 ≠ 43#8 ∧ t.headD 0#8 ≠ 45#8

theorem split_exists (x : List Byte) : ∃ blanks sign, Split x blanks sign (afterSign x) := by
  obtain ⟨blanks, y, hrun⟩ := run_exists Blank (by decide) x
  have hdrop := hrun.dropWhile
  unfold afterSign
  rw [hdrop]
  cases y with
  | nil => exact ⟨blanks, .none, hrun, fun _ => by decide⟩
  | cons c y =>
    simp only
    by_cases hplus : c = 43#8
    · rw [if_pos (Or.inl hplus)]
      subst hplus
      exact ⟨blanks, .plus, hrun, nofun⟩
    · by_cases hminus : c = 45#8
      · rw [if_pos (Or.inr hminus)]
        subst hminus
        exact ⟨blanks, .minus, hrun, nofun⟩
      · rw [if_neg (not_or.mpr ⟨hplus, hminus⟩)]
        exact ⟨blanks, .none, hrun, fun _ => ⟨hplus, hminus⟩⟩

theorem Split.eq (h : Split x blanks sign t) : x = blanks ++ (sign.text ++ t) := h.blank.eq

theorem Split.eq_iff (h : Split x blanks sign t) : t = x ↔ blanks ++ sign.text = [] := by
  rw [h.eq, ← List.append_assoc]
  constructor
  · intro ht
    have hlen := congrArg List.length ht
    rw [List.length_append] at hlen
    exact List.eq_nil_of_length_eq_zero (by omega)
  · intro hnil
    rw [hnil, List.nil_append]

theorem Split.sign_unique (h : Split x blanks sign t) (hc : digit c < 36)
    (hin : sign'.text ++ c :: body <+: sign.text ++ t) :
    sign' = sign ∧ c :: body <+: t := by
  have hplus : c ≠ 43#8 := by
    rintro rfl
    exact absurd hc (by decide)
  have hminus : c ≠ 45#8 := by
    rintro rfl
    exact absurd hc (by decide)
  cases sign' with
  | none =>
    cases sign with
    | none => exact ⟨rfl, hin⟩
    | plus => exact absurd (List.cons_prefix_cons.mp hin).1 hplus
    | minus => exact absurd (List.cons_prefix_cons.mp hin).1 hminus
  | plus =>
    cases sign with
    | none =>
      obtain ⟨z, rfl⟩ := hin
      exact absurd rfl (h.unsigned rfl).1
    | plus => exact ⟨rfl, (List.cons_prefix_cons.mp hin).2⟩
    | minus => exact absurd (List.cons_prefix_cons.mp hin).1 (by decide)
  | minus =>
    cases sign with
    | none =>
      obtain ⟨z, rfl⟩ := hin
      exact absurd rfl (h.unsigned rfl).2
    | plus => exact absurd (List.cons_prefix_cons.mp hin).1 (by decide)
    | minus => exact ⟨rfl, (List.cons_prefix_cons.mp hin).2⟩

theorem Sign.text_not_blank (hc : digit c < 36) : ∃ d rest, sign.text ++ c :: body = d :: rest ∧ ¬ Blank d := by
  cases sign with
  | none => exact ⟨c, body, rfl, fun h => by rw [h.digit] at hc; omega⟩
  | plus => exact ⟨43#8, c :: body, rfl, by decide⟩
  | minus => exact ⟨45#8, c :: body, rfl, by decide⟩

theorem Split.numeral_iff (hb : b ≤ 36) (h : Split x blanks sign t) : Numeral b t' v ∧ t' <+: x ↔
    ∃ body m, Magnitude b body m ∧ body <+: t ∧ t' = blanks ++ (sign.text ++ body) ∧ v = sign.apply m := by
  constructor
  · rintro ⟨⟨sign', blank, magnitude⟩, hin⟩
    obtain ⟨c, rest, rfl, hc⟩ := magnitude.head hb
    obtain ⟨d, tail, htext, hd⟩ := @Sign.text_not_blank c rest sign' hc
    rw [htext] at hin
    obtain ⟨rfl, hsigned⟩ := h.blank.unique blank hd hin
    rw [← htext] at hsigned
    obtain ⟨rfl, hbody⟩ := h.sign_unique hc hsigned
    exact ⟨c :: rest, _, magnitude, hbody, rfl, rfl⟩
  · rintro ⟨body, m, magnitude, ⟨z, rfl⟩, rfl, rfl⟩
    refine ⟨⟨sign, h.blank.all, magnitude⟩, z, ?_⟩
    rw [h.eq]
    simp only [List.append_assoc]

/-! ### Prefix and digits -/

/-- What stands before the digits of `t`, the base they are read in, and the rest of `t`. -/
inductive Leads (b : ℕ) : List Byte → List Byte → ℕ → List Byte → Prop
  | hex {u : List Byte} (base : b = 0 ∨ b = 16) : Leads b (48#8 :: 120#8 :: u) [48#8, 120#8] 16 u
  | octal {u : List Byte} (base : b = 0) (stop : u.headD 0#8 ≠ 120#8) : Leads b (48#8 :: u) [48#8] 8 u
  | decimal {t : List Byte} (base : b = 0) (stop : t.headD 0#8 ≠ 48#8) : Leads b t [] 10 t
  | given {t : List Byte} (base : b ≠ 0) (stop : b = 16 → ∀ u, t ≠ 48#8 :: 120#8 :: u) : Leads b t [] b t

theorem leads_exists (b : ℕ) (t : List Byte) : ∃ pf eb u, Leads b t pf eb u := by
  by_cases hhex : (b = 0 ∨ b = 16) ∧ ∃ u, t = 48#8 :: 120#8 :: u
  · obtain ⟨hbase, u, rfl⟩ := hhex
    exact ⟨_, _, _, .hex hbase⟩
  · by_cases hb : b = 0
    · by_cases hzero : t.headD 0#8 = 48#8
      · cases t with
        | nil => exact absurd hzero (by decide)
        | cons c u =>
          obtain rfl : c = 48#8 := hzero
          refine ⟨_, _, _, .octal hb (fun hx => hhex ⟨Or.inl hb, ?_⟩)⟩
          cases u with
          | nil => exact absurd hx (by decide)
          | cons d u =>
            obtain rfl : d = 120#8 := hx
            exact ⟨u, rfl⟩
      · exact ⟨_, _, _, .decimal hb hzero⟩
    · exact ⟨_, _, _, .given hb (fun h16 u hu => hhex ⟨Or.inr h16, u, hu⟩)⟩

def Dangling (b : ℕ) (t : List Byte) : Prop :=
  (b = 0 ∨ b = 16) ∧ t.take 2 = [48#8, 120#8] ∧ ¬ Below 16 ((t.drop 2).headD 0#8)

instance : Decidable (Dangling b t) := inferInstanceAs (Decidable (_ ∧ _))

namespace Leads

theorem eq (h : Leads b t pf eb u) : t = pf ++ u := by
  cases h <;> rfl

theorem le (h : Leads b t pf eb u) (hb : b ≤ 36) : eb ≤ 36 := by
  cases h with
  | hex => decide
  | octal => decide
  | decimal => decide
  | given => exact hb

theorem not_hexed (h : Leads b t pf eb u) (hpf : pf ≠ [48#8, 120#8]) (base : b = 0 ∨ b = 16) :
    t.take 2 ≠ [48#8, 120#8] := by
  intro htake
  obtain ⟨z, rfl⟩ : ∃ z, t = 48#8 :: 120#8 :: z := ⟨t.drop 2, by rw [← List.take_append_drop 2 t, htake]; rfl⟩
  cases h with
  | hex base => exact hpf rfl
  | octal base stop => exact stop rfl
  | decimal base stop => exact stop rfl
  | given ne stop => exact stop (base.resolve_left ne) z rfl

theorem dangling_iff (h : Leads b t pf eb u) (hr : Run (Below eb) u ds y) : Dangling b t ↔ pf = [48#8, 120#8] ∧
    ds = [] := by
  by_cases hpf : pf = [48#8, 120#8]
  · subst hpf
    cases h with
    | hex base => simp [Dangling, base, hr.nil_iff]
  · constructor
    · rintro ⟨base, htake, _⟩
      exact absurd htake (h.not_hexed hpf base)
    · rintro ⟨hhex, _⟩
      exact absurd hhex hpf

theorem nil_iff (h : Leads b t pf eb u) (hr : Run (Below eb) u ds y) :
    pf ++ ds = [] ↔ ¬ Below (if b = 0 then 10 else b) (t.headD 0#8) := by
  have hzero : Below 10 48#8 ∧ Below 16 48#8 := by decide
  cases h with
  | hex base =>
    apply iff_of_false (List.cons_ne_nil _ _)
    rcases base with rfl | rfl
    · exact not_not.mpr hzero.1
    · exact not_not.mpr hzero.2
  | octal base stop =>
    rw [if_pos base]
    exact iff_of_false (List.cons_ne_nil _ _) (not_not.mpr hzero.1)
  | decimal base stop =>
    rw [if_pos base]
    exact hr.nil_iff
  | given base stop =>
    rw [if_neg base]
    exact hr.nil_iff

theorem run (h : Leads b t pf eb u) (hpf : pf ≠ [48#8, 120#8]) (hr : Run (Below eb) u ds y) :
    Run (Below eb) t (pf ++ ds) y ∧ valueOf eb (pf ++ ds) = valueOf eb ds := by
  cases h with
  | hex base => exact absurd rfl hpf
  | octal base stop =>
    have hzero : Below 8 48#8 := by decide
    obtain ⟨rfl, hall, hstop⟩ := hr
    exact ⟨⟨rfl, List.forall_mem_cons.mpr ⟨hzero, hall⟩, hstop⟩, value_zero_cons⟩
  | decimal base stop => exact ⟨hr, rfl⟩
  | given base stop => exact ⟨hr, rfl⟩

theorem effective_of (h : Leads b t pf eb u) (hpf : pf ≠ [48#8, 120#8]) (hne : body ≠ []) (hin : body <+: t) :
    effective b body = eb := by
  obtain ⟨c, rest, rfl⟩ := List.exists_cons_of_ne_nil hne
  obtain ⟨z, hz⟩ := hin
  cases h with
  | hex base => exact absurd rfl hpf
  | octal base stop => simp [effective, base, (List.cons.inj hz).1]
  | decimal base stop =>
    subst hz
    simpa [effective, base] using stop
  | given base stop => exact if_neg base

theorem magnitude (h : Leads b t pf eb u) (hr : Run (Below eb) u ds y) (hne : pf ++ ds ≠ [])
    (hreg : ¬ (pf = [48#8, 120#8] ∧ ds = [])) : Magnitude b (pf ++ ds) (valueOf eb ds) := by
  by_cases hpf : pf = [48#8, 120#8]
  · subst hpf
    cases h with
    | hex base => exact .hex base (fun hds => hreg ⟨rfl, hds⟩) hr.all
  · obtain ⟨hrun, hvalue⟩ := h.run hpf hr
    have heff := h.effective_of hpf hne ⟨y, hrun.eq.symm⟩
    have hplain := @Magnitude.plain b (pf ++ ds) hne (by rw [heff]; exact hrun.all)
    rwa [heff, hvalue] at hplain

end Leads

theorem not_below_hexed (base : b = 0 ∨ b = 16) :
    ¬ ∀ c ∈ 48#8 :: 120#8 :: ds, Below (effective b (48#8 :: 120#8 :: ds)) c := by
  intro hall
  have hletter : ¬ Below 8 120#8 ∧ ¬ Below 16 120#8 := by decide
  have hx := hall 120#8 (List.mem_cons_of_mem _ List.mem_cons_self)
  rcases base with rfl | rfl
  · exact hletter.1 hx
  · exact hletter.2 hx

theorem Magnitude.unique (h : Magnitude b body m) (h' : Magnitude b body m') : m = m' := by
  cases h with
  | plain nonempty below =>
    cases h' with
    | plain => rfl
    | hex base => exact absurd below (not_below_hexed base)
  | hex base =>
    cases h' with
    | plain nonempty below => exact absurd below (not_below_hexed base)
    | hex => rfl

theorem Magnitude.hexed (base : b = 0 ∨ b = 16) (h : Magnitude b body m) (hin : body <+: 48#8 :: 120#8 :: u) :
    body = [48#8] ∨ ∃ ds, body = 48#8 :: 120#8 :: ds ∧ ds ≠ [] ∧ (∀ c ∈ ds, Below 16 c) ∧ ds <+: u := by
  cases h with
  | plain nonempty below =>
    obtain ⟨c, rest, rfl⟩ := List.exists_cons_of_ne_nil nonempty
    obtain ⟨rfl, hrest⟩ := List.cons_prefix_cons.mp hin
    cases rest with
    | nil => exact Or.inl rfl
    | cons d rest =>
      obtain ⟨rfl, _⟩ := List.cons_prefix_cons.mp hrest
      exact absurd below (not_below_hexed base)
  | hex _ nonempty below =>
    exact Or.inr ⟨_, rfl, nonempty, below, (List.cons_prefix_cons.mp (List.cons_prefix_cons.mp hin).2).2⟩

theorem Leads.longest (h : Leads b t pf eb u) (hr : Run (Below eb) u ds y) (hm : Magnitude b body m)
    (hin : body <+: t) :
    body <+: pf ++ ds ∧ (pf = [48#8, 120#8] ∧ ds = [] → body = [48#8]) := by
  by_cases hpf : pf = [48#8, 120#8]
  · subst hpf
    cases h with
    | hex base =>
      rcases hm.hexed base hin with rfl | ⟨es, rfl, hne, hbelow, hes⟩
      · exact ⟨⟨120#8 :: ds, rfl⟩, fun _ => rfl⟩
      · have hrun := hr.contains hbelow hes
        refine ⟨List.cons_prefix_cons.mpr ⟨rfl, List.cons_prefix_cons.mpr ⟨rfl, hrun⟩⟩, fun hds => absurd ?_ hne⟩
        rw [hds.2] at hrun
        exact List.prefix_nil.mp hrun
  · refine ⟨?_, fun hds => absurd hds.1 hpf⟩
    cases hm with
    | plain nonempty below =>
      rw [h.effective_of hpf nonempty hin] at below
      exact (h.run hpf hr).1.contains below hin
    | hex base =>
      obtain ⟨z, rfl⟩ := hin
      exact absurd rfl (h.not_hexed hpf base)

/-! ### The longest numeral -/

theorem longest_iff (hb : b ≤ 36) (hs : Split x blanks sign t) (hl : Leads b t pf eb u) (hr : Run (Below eb) u ds y)
    (hreg : ¬ Dangling b t) : Longest b x t' v ↔
      pf ++ ds ≠ [] ∧ t' = blanks ++ (sign.text ++ (pf ++ ds)) ∧ v = sign.apply (valueOf eb ds) := by
  rw [hl.dangling_iff hr] at hreg
  have hin : pf ++ ds <+: t := ⟨y, by rw [hl.eq, hr.eq, List.append_assoc]⟩
  constructor
  · rintro ⟨numeral, inside, longest⟩
    obtain ⟨body, m, hm, hbody, rfl, rfl⟩ := (hs.numeral_iff hb).mp ⟨numeral, inside⟩
    have hshort := (hl.longest hr hm hbody).1
    have hne := hm.extends_nonempty hb hshort
    have hmag := hl.magnitude hr hne hreg
    obtain ⟨hnum, hfront⟩ := (hs.numeral_iff hb).mpr ⟨_, _, hmag, hin, rfl, rfl⟩
    have hlen := longest _ _ hnum hfront
    simp only [List.length_append] at hlen
    obtain rfl : body = pf ++ ds := hshort.eq_of_length_le (by rw [List.length_append]; omega)
    exact ⟨hne, rfl, by rw [hm.unique hmag]⟩
  · rintro ⟨hne, rfl, rfl⟩
    obtain ⟨hnum, hfront⟩ := (hs.numeral_iff hb).mpr ⟨_, _, hl.magnitude hr hne hreg, hin, rfl, rfl⟩
    refine ⟨hnum, hfront, fun t' v' hnum' hfront' => ?_⟩
    obtain ⟨body, m, hm, hbody, rfl, rfl⟩ := (hs.numeral_iff hb).mp ⟨hnum', hfront'⟩
    have hlen := (hl.longest hr hm hbody).1.length_le
    simp only [List.length_append] at hlen ⊢
    omega

theorem longest_dangling (hb : b ≤ 36) (hs : Split x blanks sign t) (hl : Leads b t pf eb u)
    (hr : Run (Below eb) u ds y)
    (hd : Dangling b t) : Longest b x (blanks ++ (sign.text ++ [48#8])) (sign.apply 0) := by
  have hzero : Magnitude b [48#8] 0 := by
    rcases hd.1 with rfl | rfl
    · exact @Magnitude.plain 0 [48#8] (by decide) (by decide)
    · exact @Magnitude.plain 16 [48#8] (by decide) (by decide)
  obtain ⟨rfl, rfl⟩ := (hl.dangling_iff hr).mp hd
  obtain ⟨hnum, hfront⟩ := (hs.numeral_iff hb).mpr ⟨_, _, hzero, ⟨120#8 :: u, hl.eq.symm⟩, rfl, rfl⟩
  refine ⟨hnum, hfront, fun t' v' hnum' hfront' => ?_⟩
  obtain ⟨body, m, hm, hbody, rfl, rfl⟩ := (hs.numeral_iff hb).mp ⟨hnum', hfront'⟩
  rw [(hl.longest hr hm hbody).2 ⟨rfl, rfl⟩]

theorem numeral_exists_iff (hb : b ≤ 36) (hs : Split x blanks sign t) (hl : Leads b t pf eb u)
    (hr : Run (Below eb) u ds y) :
    (∃ t' v, Numeral b t' v ∧ t' <+: x) ↔ pf ++ ds ≠ [] := by
  constructor
  · rintro ⟨t', v, hnum⟩ hnil
    obtain ⟨body, m, hm, hbody, _, _⟩ := (hs.numeral_iff hb).mp hnum
    exact hm.extends_nonempty hb (hl.longest hr hm hbody).1 hnil
  · intro hne
    by_cases hd : Dangling b t
    · obtain ⟨hnum, hfront, _⟩ := longest_dangling hb hs hl hr hd
      exact ⟨_, _, hnum, hfront⟩
    · obtain ⟨hnum, hfront, _⟩ := (longest_iff hb hs hl hr hd).mpr ⟨hne, rfl, rfl⟩
      exact ⟨_, _, hnum, hfront⟩

end Cezos.Strings
