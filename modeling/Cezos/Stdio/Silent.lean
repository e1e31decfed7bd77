import Cezos.Stdio.Fields

namespace Cezos

open Lib

inductive Flags (mem : Bytes) : Directive → CInt → Directive → Prop
  | conversion {d : Directive} {c : Byte} (hc : mem d.fmt = some c) :
      Flags mem d (c.setWidth 32) { d with fmt := d.fmt + 1#32 }
  | flag {d d₁ d' : Directive} {c : Byte} {ch : CInt} (hc : mem d.fmt = some c)
      (hs : FlagStep mem (c.setWidth 32) { d with fmt := d.fmt + 1#32 } d₁) (hrest : Flags mem d₁ ch d') :
      Flags mem d ch d'

/-- A format that has nothing to print: no characters but directives, and these for strings that are empty, or cut
off at
the precision 0, and not padded. -/
inductive Silent (mem : Bytes) (ro : Rodata) : Word → List Word → Prop
  | stop {fmt : Word} {ap : List Word} (h : mem fmt = some 0#8) : Silent mem ro fmt ap
  | string {fmt p : Word} {ap ap' : List Word} {d : Directive} {c : Byte} (h : mem fmt = some 37#8)
      (hf : Flags mem (.start (fmt + 1#32) ap) (chr 's') d) (ha : d.ap = p :: ap') (hw : d.width.toInt ≤ 0)
      (hc : mem (if p = 0#32 then ro.nullString else p) = some c) (he : c = 0#8 ∨ d.precision = 0#32)
      (hrest : Silent mem ro d.fmt ap') : Silent mem ro fmt ap
  | error {fmt : Word} {err : CInt} {ap ap' : List Word} {d : Directive} (h : mem fmt = some 37#8)
      (hf : Flags mem (.start (fmt + 1#32) ap) (chr 'e') d) (ha : d.ap = err :: ap')
      (hm : Silent mem ro (errorMessage ro (errorCode err)).1 (errorMessage ro (errorCode err)).2)
      (hrest : Silent mem ro d.fmt ap') :
      Silent mem ro fmt ap

variable {st : Bool} {ro : Rodata} {mem : Bytes} {fmt p : Word} {ap : List Word} {s s' : Bytes × List CInt}
    {d d' : Directive}
  {ch : CInt} {l out : List CInt} {r : Word × List Word} {c : Byte} {n m fuel : ℕ}

def Grown (mem : Bytes) (l : List CInt) (s t : Bytes × List CInt) : Prop := s = t ∧ s.1 = mem ∧ l <+: s.2

theorem grown_refines : Host.Refines (Grown mem l) logHost logHost where
  peek h hp := h.1 ▸ hp
  putch ch := by
    rintro strict s t u s' ⟨rfl, hm, hl⟩ hr
    obtain rfl := returns_modify.mp hr
    exact ⟨_, hr, rfl, hm, hl.trans (List.prefix_append _ _)⟩

theorem grows {α : Type} {x : Prog (Bytes × List CInt) α} {a : α} (hx : ∀ mem l, Forward (Grown mem l) x x)
    (hr : Returns st x s a s') : s'.1 = s.1 ∧ s.2 <+: s'.2 := by
  obtain ⟨_, _, _, hm, hl⟩ := hx s.1 s.2 _ _ _ _ _ ⟨rfl, rfl, List.prefix_refl _⟩ hr
  exact ⟨hm, hl⟩

theorem log_ne_nil_first {α : Type} {x : Prog (Bytes × List CInt) α} {a : α}
    (hx : ∀ mem l, Forward (Grown mem l) x x)
    (hr : Returns st (logHost.putch ch >>= fun _ => x) s a s') : s'.2 ≠ [] := by
  obtain ⟨_, s₁, hp, hr⟩ := returns_bind.mp hr
  obtain rfl := returns_putch.mp hp
  have hpre := (grows hx hr).2
  intro hn
  rw [hn, List.prefix_nil] at hpre
  simp at hpre

theorem flags_of_reswitch (hw : Writes
    (reswitch logHost ro (fun fmt ap => vprintfmt logHost ro fuel fmt ap) fuel n d) mem r out) :
    ∃ ch d', Flags mem d ch d' ∧ (tokenOf ch).isFlag = false ∧
      Writes (convert logHost ro (fun fmt ap => vprintfmt logHost ro fuel fmt ap) fuel (tokenOf ch) ch d') mem r
        out := by
  induction n generalizing d with
  | zero => exact absurd hw not_writes_spin
  | succ n ih =>
    obtain ⟨c, hc⟩ := reswitch_char hw
    by_cases ht : (tokenOf (c.setWidth 32)).isFlag = true
    · obtain ⟨d₁, hs, hw⟩ := turn_flag ht rfl ((writes_reswitch hc).mp hw)
      obtain ⟨ch, d', hf, hw⟩ := ih hw
      exact ⟨ch, d', .flag hc hs hf, hw⟩
    · have hf : (tokenOf (c.setWidth 32)).isFlag = false := Bool.eq_false_iff.mpr ht
      exact ⟨_, _, .conversion hc, hf, (writes_convert hc hf).mp hw⟩

theorem FlagStep.isFlag (h : FlagStep mem ch d d') : (tokenOf ch).isFlag = true := by
  unfold FlagStep at h
  cases hk : tokenOf ch with
  | minus | zero | digit | star | dot | alt | long => rfl
  | char | error | string | decimal | unsigned | octal | pointer | hex | percent | other =>
    rw [hk] at h
    exact absurd h id

theorem Flags.scans (h : Flags mem d ch d') (ht : (tokenOf ch).isFlag = false)
    (hc : Converts mem ro (tokenOf ch) ch d' r out) :
    Scans mem ro d r out := by
  induction h with
  | conversion hchar => exact (scans_convert hchar ht).mpr hc
  | flag hchar hs hrest ih => exact (scans_flag hchar hs.isFlag).mpr ⟨_, hs, ih ht hc⟩

theorem log_nil {α : Type} {x : Prog (Bytes × List CInt) α} {a : α} (hx : ∀ mem l, Forward (Grown mem l) x x)
    (hr : Returns st x s a s') (hn : s'.2 = []) : s.2 = [] := by
  have hpre := (grows hx hr).2
  rwa [hn, List.prefix_nil] at hpre

theorem pad_silent {width : CInt} (hr : Returns st (pad logHost ch width) s () s') (hn : s'.2 = []) :
    width.toInt ≤ 0 ∧ s' = s := by
  unfold pad at hr
  cases hk : width.toInt.toNat with
  | zero =>
    rw [hk] at hr
    exact ⟨by omega, returns_forUp_zero.mp hr⟩
  | succ k =>
    rw [hk] at hr
    have hgrown : ∀ mem l, Forward (Grown mem l) (Prog.forUp (fun _ => logHost.putch ch) 1 k)
        (Prog.forUp (fun _ => logHost.putch ch) 1 k) := fun _ _ => .forUp (fun _ => grown_refines.putch ch) 1 k
    exact absurd hn (log_ne_nil_first hgrown hr)

theorem sub_one_neg {w : CInt} (h : 0 ≤ w.toInt) (h' : (w - 1#32).toInt < 0) : w = 0#32 := by
  by_cases hpos : 0 < w.toInt
  · have hsub := sub_one_toInt hpos
    omega
  · exact BitVec.eq_of_toInt_eq (Int.le_antisymm (Int.not_lt.mp hpos) h)

theorem scanString_cases {altflag : Bool} {sc : Scan} {o : Option Scan}
    (hr : Returns st (scanString logHost altflag sc) s o s') :
    ∃ c, s.1 sc.p = some c ∧ ((o = none ∧ s' = s ∧ (c = 0#8 ∨ sc.precision = 0#32)) ∨ s'.2 ≠ []) := by
  have hprint : ∀ (ch : CInt) (f : CInt → Scan), Returns st (do
      logHost.putch ch
      let width ← signedSub sc.width 1#32
      return some (f width)) s o s' → s'.2 ≠ [] := fun ch f h =>
    log_ne_nil_first (fun _ _ => (forward_signedOp _ _).bind (fun _ => .pure _)) h
  rw [scanString, returns_bind] at hr
  obtain ⟨c, s₁, hc, hr⟩ := hr
  obtain ⟨hc, rfl⟩ := returns_charAt.mp hc
  refine ⟨c, hc, ?_⟩
  rcases returns_ite.mp hr with ⟨hz, hr⟩ | ⟨_, hr⟩
  · obtain ⟨rfl, rfl⟩ := returns_pure.mp hr
    exact Or.inl ⟨rfl, rfl, Or.inl (signExtend_eq_zero.mp hz)⟩
  · rcases returns_ite.mp hr with ⟨_, hr⟩ | ⟨hpos, hr⟩
    · exact Or.inr (hprint _ _ hr)
    · obtain ⟨precision, s₂, hp, hk⟩ := returns_bind.mp hr
      obtain ⟨rfl, rfl⟩ := returns_signedOp hp
      rcases returns_ite.mp hk with ⟨_, hr⟩ | ⟨hneg, hr⟩
      · exact Or.inr (hprint _ _ hr)
      · obtain ⟨rfl, rfl⟩ := returns_pure.mp hr
        exact Or.inl ⟨rfl, rfl, Or.inr (sub_one_neg (by omega) (by omega))⟩

theorem scan_silent {altflag : Bool} {sc r : Scan}
    (hr : Returns st (Prog.whileSome (scanString logHost altflag) fuel sc) s r s')
    (hn : s'.2 = []) : r = sc ∧ s' = s ∧ ∃ c, s.1 sc.p = some c ∧ (c = 0#8 ∨ sc.precision = 0#32) := by
  cases fuel with
  | zero => exact absurd hr returns_spin
  | succ fuel =>
    rcases returns_whileSome_succ.mp hr with ⟨h, rfl⟩ | ⟨b, s₁, h, hrest⟩
    · obtain ⟨c, hc, ⟨_, rfl, he⟩ | hne⟩ := scanString_cases h
      · exact ⟨rfl, rfl, c, hc, he⟩
      · exact absurd hn hne
    · have hgrown : ∀ mem l, Forward (Grown mem l) (Prog.whileSome (scanString logHost altflag) fuel b)
          (Prog.whileSome (scanString logHost altflag) fuel b) :=
        fun _ _ => .whileSome (fun sc => grown_refines.scanString altflag sc) (Nat.le_refl _) b
      have hn₁ := log_nil hgrown hrest hn
      obtain ⟨c, _, ⟨hb, _⟩ | hne⟩ := scanString_cases h
      · cases hb
      · exact absurd hn₁ hne

theorem countChars_zero {precision len : CInt} {c : Byte} (hr : Returns st (countChars logHost p precision) s len s')
    (hc : s.1 p = some c) (he : c = 0#8 ∨ precision = 0#32) : len = 0#32 := by
  unfold countChars at hr
  rcases returns_whileSome_succ.mp hr with ⟨_, rfl⟩ | ⟨b, s₁, h, _⟩
  · rfl
  · rcases returns_ite.mp h with ⟨hlt, h⟩ | ⟨_, h⟩
    · obtain ⟨c', s₂, hc', hk⟩ := returns_bind.mp h
      obtain ⟨hc', rfl⟩ := returns_charAt.mp hc'
      rw [BitVec.add_zero, hc, Option.some.injEq] at hc'
      rcases returns_ite.mp hk with ⟨_, hk⟩ | ⟨hne, _⟩
      · cases (returns_pure.mp hk).1
      · rcases he with he | he
        · exact absurd (hc' ▸ he) hne
        · rw [he] at hlt
          exact absurd hlt (by decide)
    · cases (returns_pure.mp h).1

theorem putString_silent (hr : Returns st (putString logHost fuel d p) s () s') (hn : s'.2 = []) :
    d.width.toInt ≤ 0 ∧ s' = s ∧ ∃ c, s.1 p = some c ∧ (c = 0#8 ∨ d.precision = 0#32) := by
  rw [putString, returns_bind] at hr
  obtain ⟨width, s₁, hpad, hr⟩ := hr
  obtain ⟨sc, s₂, hscan, hr⟩ := returns_bind.mp hr
  obtain ⟨hw, rfl⟩ := pad_silent hr hn
  obtain ⟨rfl, rfl, c, hc, he⟩ := scan_silent hscan hn
  rw [padString] at hpad
  rcases returns_ite.mp hpad with ⟨hcond, hpad⟩ | ⟨_, hpad⟩
  · -- a positive width pads the empty string
    exfalso
    obtain ⟨len, s₃, hlen, hpad⟩ := returns_bind.mp hpad
    obtain ⟨_, s₄, hp, hpad⟩ := returns_bind.mp hpad
    obtain ⟨_, rfl⟩ := returns_pure.mp hpad
    obtain ⟨hle, rfl⟩ := pad_silent hp hn
    have hmem := (grows (fun _ _ => grown_refines.countChars p d.precision) hlen).1
    rw [hmem] at hc
    obtain rfl := countChars_zero hlen hc he
    rw [BitVec.sub_zero] at hle
    omega
  · obtain ⟨rfl, rfl⟩ := returns_pure.mp hpad
    exact ⟨hw, rfl, c, hc, he⟩

theorem writes_silent (hw : d.width.toInt ≤ 0) (hc : mem p = some c) (he : c = 0#8 ∨ d.precision = 0#32) :
    Writes (putString logHost 1 d p) mem () [] := by
  have hcut : Cut d.precision [] c := by
    by_cases hneg : d.precision.toInt < 0
    · refine Or.inl ⟨hneg, he.resolve_right (fun hp => ?_)⟩
      rw [hp] at hneg
      exact absurd hneg (by decide)
    · exact Or.inr ⟨by rw [List.length_nil]; omega, he.imp_right (fun hp => by rw [hp]; rfl)⟩
  have hnone : stringText d [] = [] := by
    have hlt : ¬ (0 < d.width.toInt ∧ d.padc ≠ chr '-') := fun h => by omega
    have hzero : d.width.toInt.toNat = 0 := by omega
    simp only [stringText, if_neg hlt, List.length_nil, BitVec.sub_zero, hzero, List.replicate_zero]
    rfl
  have hstring := @putString_writes mem p d c [] 1 ⟨hc, trivial⟩ List.not_mem_nil hcut Nat.one_pos
  rwa [hnone] at hstring

theorem Flags.byte (h : Flags mem d ch d') : ∃ c : Byte, ch = c.setWidth 32 := by
  induction h with
  | @conversion d c hc => exact ⟨c, rfl⟩
  | flag hc hs hrest ih => exact ih

theorem tokenOf_string (c : Byte) : tokenOf (c.setWidth 32) = .string ↔ c.setWidth 32 = chr 's' := by
  revert c
  decide +kernel

theorem tokenOf_error (c : Byte) : tokenOf (c.setWidth 32) = .error ↔ c.setWidth 32 = chr 'e' := by
  revert c
  decide +kernel

theorem numberText_ne_nil (d : Directive) (base n : ℕ) : numberText d base n ≠ [] := by
  intro hn
  exact List.ne_nil_of_length_pos (length_numeral_pos base n) (List.append_eq_nil_iff.mp hn).2

theorem Field.nil {token : Token} (h : Field mem ro d ap [] token) : token = .string ∨ token = .error := by
  cases token with
  | string => exact Or.inl rfl
  | error => exact Or.inr rfl
  | char =>
    obtain ⟨_, _, hout⟩ := h
    cases hout
  | decimal =>
    obtain ⟨num, _, hw⟩ := h
    have hout := (hw.unique putDecimal_writes).2
    exact absurd (List.append_eq_nil_iff.mp hout.symm).2 (numberText_ne_nil d 10 _)
  | unsigned | hex =>
    obtain ⟨num, _, hw⟩ := h
    exact absurd (hw.unique (putNumber_writes (by decide) (by decide))).2.symm (numberText_ne_nil d _ _)
  | octal | percent => cases h.2
  | pointer =>
    obtain ⟨_, _, _, _, hout⟩ := h
    cases hout
  | minus | zero | digit | star | dot | alt | long | other => exact absurd h id

theorem convert_silent (hw : Writes
    (convert logHost ro (fun fmt ap => vprintfmt logHost ro fuel fmt ap) fuel (tokenOf (c.setWidth 32))
    (c.setWidth 32) d) mem r []) (hf : (tokenOf (c.setWidth 32)).isFlag = false) : r.1 = d.fmt ∧
    ((tokenOf (c.setWidth 32) = .string ∧ ∃ p, d.ap = p :: r.2 ∧ d.width.toInt ≤ 0 ∧
      ∃ c, mem (if p = 0#32 then ro.nullString else p) = some c ∧ (c = 0#8 ∨ d.precision = 0#32)) ∨
    (tokenOf (c.setWidth 32) = .error ∧ ∃ err, d.ap = err :: r.2 ∧
      Writes (vprintfmt logHost ro fuel (errorMessage ro (errorCode err)).1 (errorMessage ro (errorCode err)).2)
        mem () [])) := by
  by_cases ho : tokenOf (c.setWidth 32) = .other
  · -- an unknown conversion prints a percent sign
    rw [ho] at hw
    have hrewind : Blind (do
        let fmt ← rewind logHost fuel (d.fmt - 1#32)
        return (fmt, d.ap)) := (Blind.rewind _ _).bind (fun _ => .pure _)
    obtain ⟨_, hout, _⟩ := (writes_putch_bind hrewind).mp hw
    cases hout
  · obtain ⟨hr, hfield⟩ := (converts_known ⟨hf, ho⟩).mp ⟨fuel, hw⟩
    refine ⟨hr, ?_⟩
    rcases hfield.nil with ht | ht
    · rw [ht] at hfield
      obtain ⟨p, ha, n, hput⟩ := hfield
      obtain ⟨hwidth, _, hc⟩ := putString_silent (hput []) rfl
      exact Or.inl ⟨ht, p, ha, hwidth, hc⟩
    · rw [ht] at hw
      exact Or.inr ⟨ht, (writes_error.mp hw).2⟩

theorem silent_of_writes (hw : Writes (vprintfmt logHost ro n fmt ap) mem () []) : Silent mem ro fmt ap := by
  induction n generalizing fmt ap with
  | zero => exact absurd hw not_writes_spin
  | succ n ih =>
    obtain ⟨c, hc, ⟨rfl, r, o₁, o₂, hsw, hrest, hout⟩ | ⟨rfl, _⟩ | ⟨_, _, o, _, hout⟩⟩ := writes_vprintfmt.mp hw
    · obtain ⟨rfl, rfl⟩ := List.append_eq_nil_iff.mp hout.symm
      obtain ⟨ch, d, hf, hflag, hcv⟩ := flags_of_reswitch hsw
      obtain ⟨c, rfl⟩ := hf.byte
      obtain ⟨hr, ⟨ht, p, ha, hwidth, c', hc', he⟩ | ⟨ht, err, ha, hm⟩⟩ := convert_silent hcv hflag
      · rw [tokenOf_string] at ht
        exact .string hc (ht ▸ hf) ha hwidth hc' he (hr ▸ ih hrest)
      · rw [tokenOf_error] at ht
        exact .error hc (ht ▸ hf) ha (ih hm) (hr ▸ ih hrest)
    · exact .stop hc
    · cases hout

theorem emits_of_silent (h : Silent mem ro fmt ap) : Emits false ro mem fmt ap [] := by
  induction h with
  | stop hc => exact (emits_stop hc).mpr rfl
  | @string fmt p ap ap' d c h hf ha hw hc he hrest ih =>
    have hconvert : Converts mem ro .string (chr 's') d (d.fmt, ap') [] :=
      converts_string.mpr ⟨rfl, p, ha, 1, writes_silent hw hc he⟩
    exact (emits_percent h).mpr ⟨(d.fmt, ap'), [], [], hf.scans rfl hconvert, ih, rfl⟩
  | @error fmt err ap ap' d h hf ha hm hrest ihm ih =>
    have hconvert : Converts mem ro .error (chr 'e') d (d.fmt, ap') [] := converts_error.mpr ⟨rfl, err, ha, ihm⟩
    exact (emits_percent h).mpr ⟨(d.fmt, ap'), [], [], hf.scans rfl hconvert, ih, rfl⟩

theorem emits_nil_iff (h : Emits st ro mem fmt ap out) : out = [] ↔ Silent mem ro fmt ap := by
  constructor
  · rintro rfl
    obtain ⟨fuel, s, hr, hs⟩ := h
    obtain ⟨o, rfl, hw⟩ := (Blind.vprintfmt fuel fmt ap).writes hr
    obtain rfl : o = [] := hs
    exact silent_of_writes hw
  · exact fun hs => h.unique (emits_of_silent hs)

end Cezos
