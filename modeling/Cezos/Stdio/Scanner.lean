import Cezos.Stdio.Fields

namespace Cezos

open Lib

variable {ro : Rodata} {mem mem' : Bytes} {fmt p q : Word} {ap ap' : List Word} {d : Directive} {ch : CInt}
    {out : List CInt}
  {c : Byte} {bs cs body rest s : List Byte} {ok : CInt → Prop}

def text (s : String) : List Byte := s.toList.map (fun c => BitVec.ofNat 8 c.toNat)

structure Rodata.Loaded (ro : Rodata) (mem : Bytes) : Prop where
  errorD : IsCString mem ro.errorD (text "error %d")
  percentS : IsCString mem ro.percentS (text "%s")
  nullString : IsCString mem ro.nullString (text "(null)")
  unspecified : IsCString mem ro.unspecified (text "unspecified error")
  badEnv : IsCString mem ro.badEnv (text "bad environment")
  invalid : IsCString mem ro.invalid (text "invalid parameter")
  noMem : IsCString mem ro.noMem (text "out of memory")
  noFreeEnv : IsCString mem ro.noFreeEnv (text "out of environments")
  segFault : IsCString mem ro.segFault (text "segmentation fault")

theorem Rodata.Loaded.message (h : ro.Loaded mem) {err : CInt} (he : ro.errorString err ≠ 0#32) :
    ∃ s, IsCString mem (ro.errorString err) s := by
  unfold errorString at he ⊢
  split
  · exact ⟨_, h.unspecified⟩
  split
  · exact ⟨_, h.badEnv⟩
  split
  · exact ⟨_, h.invalid⟩
  split
  · exact ⟨_, h.noMem⟩
  split
  · exact ⟨_, h.noFreeEnv⟩
  split
  · exact ⟨_, h.segFault⟩
  · simp_all

theorem Rodata.Loaded.mono (h : ro.Loaded mem) (hm : ∀ p c, mem p = some c → mem' p = some c) : ro.Loaded mem' :=
  ⟨h.errorD.mono hm, h.percentS.mono hm, h.nullString.mono hm, h.unspecified.mono hm, h.badEnv.mono hm,
  h.invalid.mono hm,
    h.noMem.mono hm, h.noFreeEnv.mono hm, h.segFault.mono hm⟩

def Readable (mem : Bytes) (precision : CInt) (p : Word) : Prop :=
  ∃ t c, Holds mem p (t ++ [c]) ∧ 0#8 ∉ t ∧ Cut precision t c

theorem IsCString.readable (h : IsCString mem p s) (precision : CInt) : Readable mem precision p := by
  by_cases hneg : precision.toInt < 0
  · exact ⟨s, 0#8, h.holds, h.no_nul, Or.inl ⟨hneg, rfl⟩⟩
  · by_cases hle : (s.length : Int) ≤ precision.toInt
    · exact ⟨s, 0#8, h.holds, h.no_nul, Or.inr ⟨hle, Or.inl rfl⟩⟩
    · -- the precision is the shorter one
      obtain ⟨t, c, u, hs, ht⟩ : ∃ t c u, s = t ++ c :: u ∧ (t.length : Int) = precision.toInt := by
        have hlt : precision.toInt.toNat < s.length := by omega
        refine ⟨s.take precision.toInt.toNat, s[precision.toInt.toNat], s.drop (precision.toInt.toNat + 1), ?_, ?_⟩
        · rw [← List.drop_eq_getElem_cons, List.take_append_drop]
        · rw [List.length_take]
          omega
      have hh := h.holds
      rw [hs, List.append_assoc, List.cons_append, ← List.singleton_append, ← List.append_assoc, holds_append] at hh
      exact ⟨t, c, hh.1, fun hz => h.no_nul (hs ▸ List.mem_append_left _ hz), Or.inr ⟨by omega, Or.inr ht⟩⟩

/-- A conversion finds an argument of the kind it asks for, and leaves the rest. -/
def Finds (mem : Bytes) (ok : CInt → Prop) (d : Directive) (ap : List Word) : Token → Prop
  | .char => ∃ w, d.ap = w :: ap
  | .error => ∃ err, d.ap = err :: ap ∧ ok err
  | .string => ∃ p, d.ap = p :: ap ∧ (p = 0#32 ∨ Readable mem d.precision p)
  | .decimal => ∃ num, intArg (·.signExtend 64) d.lflag d.ap = some (num, ap)
  | .unsigned => ∃ num, intArg (·.setWidth 64) d.lflag d.ap = some (num, ap)
  | .hex => ∃ num, intArg (·.setWidth 64) d.lflag d.ap = some (num, ap)
  | .octal => ap = d.ap
  | .pointer => ∃ w, d.ap = w :: ap
  | .percent => ap = d.ap
  | _ => False

inductive Supplies (mem : Bytes) (ok : CInt → Prop) : List Byte → List Word → Prop
  | stop (ap : List Word) : Supplies mem ok [] ap
  | text {c : Byte} {cs : List Byte} {ap : List Word} (hc : c ≠ 37#8) (hrest : Supplies mem ok cs ap) :
    Supplies mem ok (c :: cs) ap
  | known {body rest : List Byte} {c : Byte} {ap ap' : List Word} {d : Directive} (hb : ∀ c ∈ body, IsFlag c)
    (hc : IsKnown c)
      (hd : directive body ap = some d) (ht : Finds mem ok d ap' (tokenOf (c.setWidth 32)))
      (hrest : Supplies mem ok rest ap') :
      Supplies mem ok (37#8 :: (body ++ c :: rest)) ap
  | unknown {body rest : List Byte} {ap : List Word} {d : Directive} (hb : ∀ c ∈ body, IsFlag c)
    (hr : ¬ IsFlag (rest.headD 0#8))
      (hk : ¬ IsKnown (rest.headD 0#8)) (hd : directive body ap = some d)
      (hrest : Supplies mem ok (body ++ rest) d.ap) :
      Supplies mem ok (37#8 :: (body ++ rest)) ap

theorem finds_field (hnull : IsCString mem ro.nullString s) (token : Token)
    (hok : ∀ err, ok err →
    ∃ out, Emits false ro mem (errorMessage ro (errorCode err)).1 (errorMessage ro (errorCode err)).2 out)
    (h : Finds mem ok d ap token) : ∃ out, Field mem ro d ap out token := by
  cases token with
  | char =>
    obtain ⟨w, hw⟩ := h
    exact ⟨_, w, hw, rfl⟩
  | error =>
    obtain ⟨err, ha, he⟩ := h
    obtain ⟨out, hout⟩ := hok err he
    exact ⟨out, err, ha, hout⟩
  | string =>
    obtain ⟨p, ha, hp⟩ := h
    have hread : Readable mem d.precision (if p = 0#32 then ro.nullString else p) := by
      split
      · exact hnull.readable _
      · next hne => exact hp.resolve_left hne
    obtain ⟨t, c, ht, hz, hcut⟩ := hread
    exact ⟨_, p, ha, _, putString_writes ht hz hcut (Nat.lt_succ_self _)⟩
  | decimal =>
    obtain ⟨num, ha⟩ := h
    exact ⟨_, num, ha, putDecimal_writes⟩
  | unsigned | hex =>
    obtain ⟨num, ha⟩ := h
    exact ⟨_, num, ha, putNumber_writes (by decide) (by decide)⟩
  | octal | percent => exact ⟨_, h, rfl⟩
  | pointer =>
    obtain ⟨w, ha⟩ := h
    exact ⟨_, w, _, ha, putNumber_writes (by decide) (by decide), rfl⟩
  | minus | zero | digit | star | dot | alt | long | other => exact absurd h id

theorem supplies_emits (hnull : IsCString mem ro.nullString s)
    (hok : ∀ err, ok err →
    ∃ out, Emits false ro mem (errorMessage ro (errorCode err)).1 (errorMessage ro (errorCode err)).2 out)
    (hs : Supplies mem ok bs ap) (h : IsCString mem fmt bs) : ∃ out, Emits false ro mem fmt ap out := by
  induction hs generalizing fmt with
  | stop ap => exact ⟨[], (emits_stop h.nil).mpr rfl⟩
  | text hc hrest ih =>
    obtain ⟨o, ho⟩ := ih h.tail
    exact ⟨_, (emits_text h.head hc h.head_ne).mpr ⟨o, ho, rfl⟩⟩
  | @known body rest c ap ap' d hb hc hd ht hrest ih =>
    obtain ⟨o₁, hf⟩ := finds_field hnull _ hok ht
    obtain ⟨o₂, ho⟩ := ih h.tail.drop.tail
    exact ⟨_, (emits_known h hb hc).mpr ⟨d, ap', o₁, o₂, hd, hf, ho, rfl⟩⟩
  | @unknown body rest ap d hb hr hk hd hrest ih =>
    obtain ⟨o, ho⟩ := ih h.tail
    exact ⟨_, (emits_unknown h hb hr hk).mpr ⟨d, o, hd, ho, rfl⟩⟩

theorem supplies_one (hc : IsKnown c) (hd : directive [] ap = some d)
    (ht : Finds mem ok d ap' (tokenOf (c.setWidth 32))) :
    Supplies mem ok [37#8, c] ap := @Supplies.known mem ok [] [] c ap ap' d (by simp) hc hd ht (.stop ap')

theorem message_emits (hro : ro.Loaded mem) (code : CInt) :
    ∃ out, Emits false ro mem (errorMessage ro code).1 (errorMessage ro code).2 out := by
  have hnone : ∀ err : CInt, False → ∃ out, Emits false ro mem (errorMessage ro (errorCode err)).1
      (errorMessage ro (errorCode err)).2 out := fun _ => False.elim
  unfold errorMessage
  split
  · have hs : Supplies mem (fun _ => False) (text "error %d") [code] :=
      .text (by decide)
        (.text (by decide) (.text (by decide) (.text (by decide) (.text (by decide) (.text (by decide)
        (supplies_one (by decide) rfl ⟨_, rfl⟩))))))
    exact supplies_emits hro.nullString hnone hs hro.errorD
  · next h =>
    obtain ⟨s, hmsg⟩ := hro.message (not_or.mp h).2
    have hs : Supplies mem (fun _ => False) (text "%s") [ro.errorString code] :=
      supplies_one (by decide) rfl ⟨_, rfl, Or.inr (hmsg.readable _)⟩
    exact supplies_emits hro.nullString hnone hs hro.percentS

theorem Finds.of_field {ap₁ : List Word} {token : Token} (h : Finds mem' ok d ap token)
    (hf : Field mem ro d ap₁ out token) :
    ap₁ = ap := by
  have hcons : ∀ {w w' : Word}, d.ap = w :: ap → d.ap = w' :: ap₁ → ap₁ = ap := fun h h' =>
    (List.cons.inj (h'.symm.trans h)).2
  have hint : ∀ {extend : Word → BitVec 64} {n n' : BitVec 64}, intArg extend d.lflag d.ap = some (n, ap) →
      intArg extend d.lflag d.ap = some (n', ap₁) → ap₁ = ap := fun h h' =>
    (Prod.mk.inj (Option.some.inj (h'.symm.trans h))).2
  cases token with
  | char =>
    obtain ⟨w, ha⟩ := h
    obtain ⟨w', ha', _⟩ := hf
    exact hcons ha ha'
  | pointer =>
    obtain ⟨w, ha⟩ := h
    obtain ⟨w', _, ha', _⟩ := hf
    exact hcons ha ha'
  | error | string =>
    obtain ⟨w, ha, _⟩ := h
    obtain ⟨w', ha', _⟩ := hf
    exact hcons ha ha'
  | decimal | unsigned | hex =>
    obtain ⟨num, ha⟩ := h
    obtain ⟨num', ha', _⟩ := hf
    exact hint ha ha'
  | octal | percent => exact hf.1.trans h.symm
  | minus | zero | digit | star | dot | alt | long | other => exact absurd h id

theorem emits_plain (h : IsCString mem p (bs ++ cs)) (hb : ∀ c ∈ bs, c ≠ 37#8) : Emits false ro mem p ap out ↔
    ∃ o, Emits false ro mem (p + BitVec.ofNat 32 bs.length) ap o ∧ out = bs.map (·.setWidth 32) ++ o := by
  induction bs generalizing p out with
  | nil =>
    rw [add_length_nil]
    simp
  | cons b bs ih =>
    rw [List.cons_append] at h
    rw [emits_text h.head (hb b List.mem_cons_self) h.head_ne, add_length_cons]
    simp only [ih h.tail (fun c hc => hb c (List.mem_cons_of_mem b hc))]
    constructor
    · rintro ⟨_, ⟨o, ho, rfl⟩, rfl⟩
      exact ⟨o, ho, rfl⟩
    · rintro ⟨o, ho, rfl⟩
      exact ⟨_, ⟨o, ho, rfl⟩, rfl⟩

theorem emits_echo (h : IsCString mem p (37#8 :: (body ++ rest))) (hb : ∀ c ∈ body, IsFlag c)
    (hr : ¬ IsFlag (rest.headD 0#8))
    (hk : ¬ IsKnown (rest.headD 0#8)) : Emits false ro mem p ap out ↔ ∃ d o, directive body ap = some d ∧
      Emits false ro mem (p + 1#32) d.ap o ∧ out = chr '%' :: o ∧
      ∃ o', Emits false ro mem (p + 1#32 + BitVec.ofNat 32 (body ++ rest.take 1).length) d.ap o' ∧
        o = (body ++ rest.take 1).map (·.setWidth 32) ++ o' := by
  have hplain : ∀ c ∈ body ++ rest.take 1, c ≠ 37#8 := by
    intro c hc
    rcases List.mem_append.mp hc with hc | hc
    · exact isFlag_ne_percent (hb c hc)
    · cases rest with
      | nil => simp at hc
      | cons b rest =>
        obtain rfl : c = b := by simpa using hc
        rintro rfl
        exact hk (show IsKnown 37#8 by decide)
  have htail : IsCString mem (p + 1#32) ((body ++ rest.take 1) ++ rest.drop 1) := by
    rw [List.append_assoc, List.take_append_drop]
    exact h.tail
  rw [emits_unknown h hb hr hk]
  refine exists_congr (fun d => exists_congr (fun o => and_congr_right (fun _ => ?_)))
  constructor
  · rintro ⟨ho, hout⟩
    exact ⟨ho, hout, (emits_plain htail hplain).mp ho⟩
  · rintro ⟨ho, hout, _⟩
    exact ⟨ho, hout⟩

/-- `vprintfmt` ends, it reads nothing but the format, the strings of its arguments and its messages, and it echoes
an escape
sequence that it does not know. -/
structure Scanned (mem : Bytes) (ro : Rodata) (fmt : Word) (bs : List Byte) (ap : List Word) : Prop where
  ends : ∃ out, Emits false ro mem fmt ap out
  inside : ∀ mem', (∀ p c, mem' p = some c → mem p = some c) → IsCString mem' fmt bs → ro.Loaded mem' →
    Supplies mem' (fun _ => True) bs ap → ∀ out, Emits false ro mem fmt ap out → Emits false ro mem' fmt ap out
  echoes : ∀ p ap' body rest out, IsCString mem p (37#8 :: (body ++ rest)) → (∀ c ∈ body, IsFlag c) →
    ¬ IsFlag (rest.headD 0#8) →
    ¬ IsKnown (rest.headD 0#8) → (Emits false ro mem p ap' out ↔ ∃ d o, directive body ap' = some d ∧
      Emits false ro mem (p + 1#32) d.ap o ∧ out = chr '%' :: o ∧
      ∃ o', Emits false ro mem (p + 1#32 + BitVec.ofNat 32 (body ++ rest.take 1).length) d.ap o' ∧
        o = (body ++ rest.take 1).map (·.setWidth 32) ++ o')

theorem vprintfmt_scans (hro : ro.Loaded mem) (h : IsCString mem fmt bs) (hs : Supplies mem (fun _ => True) bs ap) :
    Scanned mem ro fmt bs ap := by
  refine ⟨supplies_emits hro.nullString (fun _ _ => message_emits hro _) hs h, ?_,
    fun p ap' body rest out hp hb hr hk =>
    emits_echo hp hb hr hk⟩
  intro mem' hm h' hro' hs' out ho
  obtain ⟨out', ho'⟩ := supplies_emits hro'.nullString (fun _ _ => message_emits hro' _) hs' h'
  obtain rfl := ho.unique (ho'.mono hm)
  exact ho'

def image (bytes : List Byte) : Bytes := fun p => bytes[p.toNat]?

theorem image_append {p : Word} {c : Byte} (h : image bs p = some c) : image (bs ++ cs) p = some c := by
  have hlt : p.toNat < bs.length := (List.getElem?_eq_some_iff.mp h).1
  rw [image, List.getElem?_append_left hlt]
  exact h

theorem holds_image (hl : cs.length + bs.length ≤ 2 ^ 32) :
    Holds (image (cs ++ bs)) (BitVec.ofNat 32 cs.length) bs := by
  induction bs generalizing cs with
  | nil => trivial
  | cons b bs ih =>
    rw [List.length_cons] at hl
    constructor
    · have hnat : (BitVec.ofNat 32 cs.length).toNat = cs.length := by
        rw [BitVec.toNat_ofNat]
        omega
      rw [image, hnat, List.getElem?_append_right (Nat.le_refl _), Nat.sub_self, List.getElem?_cons_zero]
    · have hrest := @ih (cs ++ [b]) (by rw [List.length_append, List.length_singleton]; omega)
      rw [List.append_assoc, List.singleton_append, List.length_append, List.length_singleton,
        BitVec.ofNat_add] at hrest
      exact hrest

def rodataBytes : List Byte :=
  0#8 :: ["error %d", "%s", "(null)", "unspecified error", "bad environment", "invalid parameter", "out of memory",
    "out of environments", "segmentation fault"].flatMap cString

def rodata : Rodata := ⟨1#32, 10#32, 13#32, 20#32, 38#32, 54#32, 72#32, 86#32, 106#32⟩

instance Holds.decide (mem : Bytes) : (p : Word) → (bs : List Byte) → Decidable (Holds mem p bs)
  | _, [] => isTrue trivial
  | p, _ :: bs => @instDecidableAnd _ _ _ (Holds.decide mem (p + 1#32) bs)

theorem rodata_loaded (bs : List Byte) : rodata.Loaded (image (rodataBytes ++ bs)) := by
  have h : ∀ {p : Word} {s : List Byte}, Holds (image rodataBytes) p (s ++ [0#8]) ∧ 0#8 ∉ s →
      IsCString (image (rodataBytes ++ bs)) p s := fun h => IsCString.mono ⟨h.1, h.2⟩ (fun _ _ hp => image_append hp)
  refine ⟨h ?_, h ?_, h ?_, h ?_, h ?_, h ?_, h ?_, h ?_, h ?_⟩ <;> decide +kernel

theorem image_format {s : String} (hz : 0#8 ∉ text s) (hl : (cString s).length ≤ 2 ^ 31) :
    IsCString (image (rodataBytes ++ cString s)) 125#32 (text s) := by
  have hlen : rodataBytes.length = 125 := by decide +kernel
  have hh : Holds (image (rodataBytes ++ cString s)) (BitVec.ofNat 32 rodataBytes.length) (cString s) :=
    holds_image (by omega)
  rw [hlen] at hh
  exact ⟨hh, hz⟩

theorem vprintfmt_scans_small :
    Scanned (image (rodataBytes ++ cString "%-5q%e")) rodata 125#32 (text "%-5q%e") [BitVec.intMin 32] := by
  have hs : Supplies (image (rodataBytes ++ cString "%-5q%e")) (fun _ => True)
    (text "%-5q%e") [BitVec.intMin 32] := by
    refine @Supplies.unknown _ _ [45#8, 53#8] (text "q%e") _ _ (by decide) (by decide) (by decide) rfl ?_
    exact .text (by decide) (.text (by decide) (.text (by decide) (supplies_one (by decide) rfl ⟨_, rfl, trivial⟩)))
  exact vprintfmt_scans (rodata_loaded _) (image_format (by decide) (by decide)) hs

end Cezos
