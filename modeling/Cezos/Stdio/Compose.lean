import Cezos.Stdio.StringField

namespace Cezos

open Lib

variable {ro : Rodata} {mem : Bytes} {p q : Word} {ap ap' ap₁ extra : List Word} {d : Directive}
    {out : List CInt} {c : Byte}
  {bs body : List Byte} {o o' : Opts} {token : Token} {n : ℕ}

/-! ### Formats of complete directives -/

inductive Item
  | text (c : Byte) (hc : c ≠ 37#8 ∧ c ≠ 0#8)
  | directive (body : List Byte) (conv : Byte) (hb : ∀ c ∈ body, IsFlag c) (hc : IsKnown conv)

def Item.bytes : Item → List Byte
  | text c _ => [c]
  | directive body conv _ _ => 37#8 :: (body ++ [conv])

def render (f : List Item) : List Byte := f.flatMap Item.bytes

def Item.isOctal : Item → Bool
  | text _ _ => false
  | directive _ conv _ _ => tokenOf (conv.setWidth 32) = .octal

/-! ### The arguments behind those of a directive -/

def Directive.extend (d : Directive) (extra : List Word) : Directive := { d with ap := d.ap ++ extra }

def Opts.extend (o : Opts) (extra : List Word) : Opts := ⟨o.d.extend extra, o.number⟩

theorem setNumber_extend (number : CInt) :
    (d.extend extra).setNumber number = (d.setNumber number).extend extra := by
  unfold Directive.setNumber Directive.processPrecision Directive.extend
  dsimp only
  split <;> rfl

theorem commit_extend : (o.extend extra).commit = o.commit.extend extra := by
  cases o with
  | mk d number =>
    cases number with
    | none => rfl
    | some number => exact setNumber_extend number

theorem Directive.flag_extend (h : d.flag c = some o) : (d.extend extra).flag c = some (o.extend extra) := by
  unfold flag at h ⊢
  cases hk : tokenOf (c.setWidth 32) with
  | star =>
    simp only [hk] at h ⊢
    cases hap : d.ap with
    | nil => simp [hap] at h
    | cons precision ap =>
      simp only [hap, Option.some.injEq] at h
      rw [← h, extend]
      simp only [hap, List.cons_append, Option.some.injEq]
      exact congrArg (Opts.mk · none) (setNumber_extend (d := { d with ap := ap }) precision)
  | minus | zero | digit | dot | alt | long =>
    simp only [hk, Option.some.injEq] at h ⊢
    rw [← h]
    rfl
  | char | error | string | decimal | unsigned | octal | pointer | hex | percent | other => simp [hk] at h

theorem Opts.flag_extend (h : o.flag c = some o') : (o.extend extra).flag c = some (o'.extend extra) := by
  cases o with
  | mk d number =>
    cases number with
    | none => exact Directive.flag_extend h
    | some number =>
      unfold flag at h ⊢
      simp only [extend] at h ⊢
      split at h
      · next hd =>
        rw [if_pos hd]
        rw [Option.some.injEq] at h
        rw [← h]
      · next hd =>
        rw [if_neg hd]
        exact (congrArg (Directive.flag · c) (commit_extend (o := ⟨d, some number⟩))).trans (Directive.flag_extend h)

theorem Opts.flags_extend (h : Opts.flags body o = some d) :
    Opts.flags body (o.extend extra) = some (d.extend extra) := by
  induction body generalizing o with
  | nil =>
    obtain rfl : o.commit = d := Option.some.inj h
    exact congrArg some commit_extend
  | cons c body ih =>
    obtain ⟨o', hf, hrest⟩ := Option.bind_eq_some_iff.mp h
    exact Option.bind_eq_some_iff.mpr ⟨_, flag_extend hf, ih hrest⟩

theorem directive_extend (h : directive body ap = some d) : directive body (ap ++ extra) = some (d.extend extra) :=
  Opts.flags_extend h

theorem intArg_extend {extend : Word → BitVec 64} {lflag : CInt} {v : BitVec 64 × List Word}
    (h : intArg extend lflag ap = some v) :
    intArg extend lflag (ap ++ extra) = some (v.1, v.2 ++ extra) := by
  unfold intArg at h ⊢
  split
  · next hl =>
    rw [if_pos hl] at h
    match ap with
    | [] => cases h
    | [_] => cases h
    | lo :: hi :: ap =>
      obtain rfl := Option.some.inj h
      rfl
  · next hl =>
    rw [if_neg hl] at h
    match ap with
    | [] => cases h
    | w :: ap =>
      obtain rfl := Option.some.inj h
      rfl

def Fed (mem : Bytes) (d : Directive) (ap : List Word) : Token → Prop
  | .octal => ∃ num, intArg (·.setWidth 64) d.lflag d.ap = some (num, ap)
  | token => Finds mem (fun _ => True) d ap token

inductive Feeds (mem : Bytes) : List Item → List Word → Prop
  | nil : Feeds mem [] []
  | text {c : Byte} {hc : c ≠ 37#8 ∧ c ≠ 0#8} {f : List Item} {ap : List Word} (hrest : Feeds mem f ap) :
    Feeds mem (.text c hc :: f) ap
  | directive {body : List Byte} {conv : Byte} {hb : ∀ c ∈ body, IsFlag c} {hc : IsKnown conv} {f : List Item}
    {ap ap' : List Word}
      {d : Directive} (hd : directive body ap = some d) (ht : Fed mem d ap' (tokenOf (conv.setWidth 32)))
      (hrest : Feeds mem f ap') :
      Feeds mem (.directive body conv hb hc :: f) ap

inductive Runs (mem : Bytes) (ro : Rodata) : List Item → List Word → List CInt → List Word → Prop
  | nil (ap : List Word) : Runs mem ro [] ap [] ap
  | text {c : Byte} {hc : c ≠ 37#8 ∧ c ≠ 0#8} {f : List Item} {ap ap' : List Word} {out : List CInt}
    (hrest : Runs mem ro f ap out ap') :
      Runs mem ro (.text c hc :: f) ap (c.setWidth 32 :: out) ap'
  | directive {body : List Byte} {conv : Byte} {hb : ∀ c ∈ body, IsFlag c} {hc : IsKnown conv} {f : List Item}
    {ap ap₁ ap' : List Word}
      {d : Directive} {o₁ o₂ : List CInt} (hd : directive body ap = some d)
      (hf : Field mem ro d ap₁ o₁ (tokenOf (conv.setWidth 32))) (hrest : Runs mem ro f ap₁ o₂ ap') :
      Runs mem ro (.directive body conv hb hc :: f) ap (o₁ ++ o₂) ap'

theorem emits_items {f : List Item} (h : IsCString mem p (render f ++ bs)) : Emits false ro mem p ap out ↔
    ∃ o₁ ap' o₂,
    Runs mem ro f ap o₁ ap' ∧ Emits false ro mem (p + BitVec.ofNat 32 (render f).length) ap' o₂ ∧
      out = o₁ ++ o₂ := by
  induction f generalizing p ap out with
  | nil =>
    rw [show render [] = [] from rfl, add_length_nil]
    constructor
    · exact fun he => ⟨[], ap, out, .nil ap, he, rfl⟩
    · rintro ⟨_, _, o, ⟨⟩, he, rfl⟩
      exact he
  | cons item f ih =>
    cases item with
    | text c hc =>
      have hcons : render (.text c hc :: f) = c :: render f := rfl
      rw [hcons, List.cons_append] at h
      rw [emits_text h.head hc.1 h.head_ne, hcons, add_length_cons]
      simp only [ih h.tail]
      constructor
      · rintro ⟨_, ⟨o₁, ap', o₂, hr, he, rfl⟩, rfl⟩
        exact ⟨_, ap', o₂, .text hr, he, rfl⟩
      · rintro ⟨_, ap', o₂, hr, he, rfl⟩
        cases hr with
        | text hr => exact ⟨_, ⟨_, ap', o₂, hr, he, rfl⟩, rfl⟩
    | directive body conv hb hc =>
      have hcons : render (.directive body conv hb hc :: f) = 37#8 :: (body ++ conv :: render f) := by
        change 37#8 :: (body ++ [conv]) ++ render f = _
        rw [List.cons_append, List.append_assoc, List.singleton_append]
      rw [hcons, List.cons_append, List.append_assoc, List.cons_append] at h
      rw [emits_known h hb hc, hcons, add_length_cons, add_length_append, add_length_cons]
      simp only [ih h.tail.drop.tail]
      constructor
      · rintro ⟨d, ap₁, o₁, _, hd, hf, ⟨o₂, ap', o₃, hr, he, rfl⟩, rfl⟩
        exact ⟨_, ap', o₃, .directive hd hf hr, he, (List.append_assoc _ _ _).symm⟩
      · rintro ⟨_, ap', o₃, hr, he, rfl⟩
        cases hr with
        | directive hd hf hr => exact ⟨_, _, _, _, hd, hf, ⟨_, ap', o₃, hr, he, rfl⟩, List.append_assoc _ _ _⟩

/-! ### The arguments behind those of a format -/

theorem Field.extend (h : Field mem ro d ap out token) : Field mem ro (d.extend extra) (ap ++ extra) out token := by
  cases token with
  | char | error | string =>
    obtain ⟨w, ha, hw⟩ := h
    exact ⟨w, congrArg (· ++ extra) ha, hw⟩
  | decimal | unsigned | hex =>
    obtain ⟨num, ha, hw⟩ := h
    exact ⟨num, intArg_extend ha, hw⟩
  | pointer =>
    obtain ⟨w, o, ha, hw⟩ := h
    exact ⟨w, o, congrArg (· ++ extra) ha, hw⟩
  | octal | percent => exact ⟨congrArg (· ++ extra) h.1, h.2⟩
  | minus | zero | digit | star | dot | alt | long | other => exact absurd h id

theorem Runs.extend {f : List Item} (h : Runs mem ro f ap out ap') :
    Runs mem ro f (ap ++ extra) out (ap' ++ extra) := by
  induction h with
  | nil ap => exact .nil _
  | text hrest ih => exact .text ih
  | directive hd hf hrest ih => exact .directive (directive_extend hd) hf.extend ih

theorem Fed.field_extend (ht : Fed mem d ap' token) (ho : token ≠ .octal)
    (h : Field mem ro (d.extend extra) ap₁ out token) :
    ap₁ = ap' ++ extra ∧ Field mem ro d ap' out token := by
  have hcons : ∀ {w w' : Word}, d.ap = w :: ap' → (d.extend extra).ap = w' :: ap₁ → w' = w ∧
    ap₁ = ap' ++ extra := fun ha ha' =>
    List.cons.inj (ha'.symm.trans (congrArg (· ++ extra) ha))
  have hint : ∀ {extend : Word → BitVec 64} {n n' : BitVec 64}, intArg extend d.lflag d.ap = some (n, ap') →
      intArg extend d.lflag (d.ap ++ extra) = some (n', ap₁) → n' = n ∧ ap₁ = ap' ++ extra := fun ha ha' =>
    Prod.mk.inj (Option.some.inj (ha'.symm.trans (intArg_extend ha)))
  cases token with
  | char =>
    obtain ⟨w, ha⟩ := ht
    obtain ⟨w', ha', rfl⟩ := h
    obtain ⟨rfl, rfl⟩ := hcons ha ha'
    exact ⟨rfl, w', ha, rfl⟩
  | error | string =>
    obtain ⟨w, ha, _⟩ := ht
    obtain ⟨w', ha', hw⟩ := h
    obtain ⟨rfl, rfl⟩ := hcons ha ha'
    exact ⟨rfl, w', ha, hw⟩
  | decimal | unsigned | hex =>
    obtain ⟨num, ha⟩ := ht
    obtain ⟨num', ha', hw⟩ := h
    obtain ⟨rfl, rfl⟩ := hint ha ha'
    exact ⟨rfl, num', ha, hw⟩
  | octal => exact absurd rfl ho
  | pointer =>
    obtain ⟨w, ha⟩ := ht
    obtain ⟨w', o, ha', hw⟩ := h
    obtain ⟨rfl, rfl⟩ := hcons ha ha'
    exact ⟨rfl, w', o, ha, hw⟩
  | percent =>
    obtain rfl : ap' = d.ap := ht
    exact ⟨h.1, rfl, h.2⟩
  | minus | zero | digit | star | dot | alt | long | other => exact absurd ht id

theorem Feeds.runs_extend {f : List Item} (hf : Feeds mem f ap) (ho : ∀ item ∈ f, item.isOctal = false)
    (h : Runs mem ro f (ap ++ extra) out ap') : ap' = extra ∧ Runs mem ro f ap out [] := by
  induction hf generalizing out with
  | nil =>
    cases h
    exact ⟨rfl, .nil []⟩
  | text hrest ih =>
    cases h with
    | text h =>
      obtain ⟨rfl, hr⟩ := ih (fun item hi => ho item (List.mem_cons_of_mem _ hi)) h
      exact ⟨rfl, .text hr⟩
  | @directive body conv hb hc f ap ap₀ d hd ht hrest ih =>
    cases h with
    | directive hd' hf h =>
      obtain rfl := Option.some.inj ((directive_extend hd).symm.trans hd')
      have htoken : tokenOf (conv.setWidth 32) ≠ .octal := of_decide_eq_false (ho _ List.mem_cons_self)
      obtain ⟨rfl, hfield⟩ := ht.field_extend htoken hf
      obtain ⟨rfl, hr⟩ := ih (fun item hi => ho item (List.mem_cons_of_mem _ hi)) h
      exact ⟨rfl, .directive hd hfield hr⟩

/-- The output of `f` followed by `g`, on the arguments of both, is that of `f` and then that of `g`. -/
def Composes (f : List Item) : Prop :=
  ∀ (mem : Bytes) (ro : Rodata) (pf pg pfg : Word) (g : List Item) (A B : List Word),
  ro.Loaded mem → IsCString mem pf (render f) → IsCString mem pg (render g) → IsCString mem pfg (render (f ++ g)) →
  Feeds mem f A → Feeds mem g B → ∀ out, Emits false ro mem pfg (A ++ B) out ↔
    ∃ o₁ o₂, Emits false ro mem pf A o₁ ∧ Emits false ro mem pg B o₂ ∧ out = o₁ ++ o₂

theorem composes_of {f : List Item} (ho : ∀ item ∈ f, item.isOctal = false) : Composes f := by
  intro mem ro pf pg pfg g A B _ hf hg hfg hA _ out
  have happend : render (f ++ g) = render f ++ render g := List.flatMap_append
  rw [happend] at hfg
  have hf' : IsCString mem pf (render f ++ []) := by rwa [List.append_nil]
  simp only [emits_items hfg, emits_items hf', emits_move hfg.drop hg, emits_stop hf'.drop.nil]
  constructor
  · rintro ⟨o₁, ap', o₂, hrun, he, rfl⟩
    obtain ⟨rfl, hr⟩ := hA.runs_extend ho hrun
    exact ⟨o₁, o₂, ⟨o₁, [], [], hr, rfl, (List.append_nil _).symm⟩, he, rfl⟩
  · rintro ⟨_, o₂, ⟨o₁, ap', _, hrun, rfl, rfl⟩, he, rfl⟩
    have hrun' : Runs mem ro f (A ++ []) o₁ ap' := by rwa [List.append_nil]
    obtain ⟨_, hr⟩ := hA.runs_extend ho hrun'
    exact ⟨o₁, B, o₂, hr.extend, he, by rw [List.append_nil]⟩

/-! ### Arguments that are all zero -/

theorem Directive.extend_extend (d : Directive) (xs ys : List Word) :
    (d.extend xs).extend ys = d.extend (xs ++ ys) := by
  unfold extend
  rw [List.append_assoc]

theorem Directive.extend_nil (d : Directive) : d.extend [] = d := by
  unfold extend
  rw [List.append_nil]

theorem Directive.setNumber_ap (d : Directive) (number : CInt) : (d.setNumber number).ap = d.ap := by
  unfold setNumber processPrecision
  split <;> rfl

theorem Directive.flag_zeros (hap : d.ap = []) (hc : IsFlag c) :
    ∃ n o, (d.extend (List.replicate n 0#32)).flag c = some o ∧ o.d.ap = [] := by
  unfold IsFlag at hc
  cases hk : tokenOf (c.setWidth 32) with
  | star =>
    have hone : (d.extend (List.replicate 1 0#32)).ap = [0#32] := congrArg (· ++ [0#32]) hap
    refine ⟨1, ⟨({ d with ap := [] } : Directive).setNumber 0#32, none⟩, ?_, setNumber_ap _ _⟩
    unfold flag
    simp only [hk, hone]
    rfl
  | minus | zero | digit | dot | alt | long =>
    have h : ∃ o, d.flag c = some o ∧ o.d.ap = [] := by
      unfold flag
      rw [hk]
      exact ⟨_, rfl, hap⟩
    exact ⟨0, by rwa [List.replicate_zero, extend_nil]⟩
  | char | error | string | decimal | unsigned | octal | pointer | hex | percent | other =>
    rw [hk] at hc
    cases hc

theorem Opts.flag_zeros (hap : o.d.ap = []) (hc : IsFlag c) :
    ∃ n o', (o.extend (List.replicate n 0#32)).flag c = some o' ∧ o'.d.ap = [] := by
  cases o with
  | mk d number =>
    cases number with
    | none => exact Directive.flag_zeros hap hc
    | some number =>
      by_cases hd : IsDigit c
      · exact ⟨0, ⟨d.extend [], some (nextDigit number c)⟩, if_pos hd, congrArg (· ++ []) hap⟩
      · obtain ⟨n, o', hf, hap'⟩ := Directive.flag_zeros ((d.setNumber_ap number).trans hap) hc
        refine ⟨n, o', ?_, hap'⟩
        rw [← setNumber_extend] at hf
        exact (if_neg hd).trans hf

theorem Opts.flags_zeros (hap : o.d.ap = []) (hb : ∀ c ∈ body, IsFlag c) :
    ∃ n d, Opts.flags body (o.extend (List.replicate n 0#32)) = some d ∧ d.ap = [] := by
  induction body generalizing o with
  | nil =>
    refine ⟨0, (o.extend []).commit, rfl, ?_⟩
    cases o with
    | mk d number =>
      cases number with
      | none => exact congrArg (· ++ []) hap
      | some number => exact (Directive.setNumber_ap _ _).trans (congrArg (· ++ []) hap)
  | cons c body ih =>
    obtain ⟨n, o', hf, hap'⟩ := flag_zeros hap (hb c List.mem_cons_self)
    obtain ⟨m, d, hrest, hd⟩ := ih hap' (fun b hm => hb b (List.mem_cons_of_mem c hm))
    refine ⟨n + m, d, ?_, hd⟩
    have hsplit : o.extend (List.replicate (n + m) 0#32) = (o.extend (List.replicate n 0#32)).extend
      (List.replicate m 0#32) := by
      rw [← List.replicate_append_replicate, Opts.extend, Opts.extend, Opts.extend, Directive.extend_extend]
    rw [hsplit]
    exact Option.bind_eq_some_iff.mpr ⟨_, flag_extend hf, hrest⟩

theorem directive_zeros (hb : ∀ c ∈ body, IsFlag c) :
    ∃ n d, directive body (List.replicate n 0#32) = some d ∧ d.ap = [] :=
  @Opts.flags_zeros body ⟨.start 0#32 [], none⟩ rfl hb

theorem Fed.extend (h : Fed mem d ap token) : Fed mem (d.extend extra) (ap ++ extra) token := by
  cases token with
  | char | pointer =>
    obtain ⟨w, ha⟩ := h
    exact ⟨w, congrArg (· ++ extra) ha⟩
  | error | string =>
    obtain ⟨w, ha, hw⟩ := h
    exact ⟨w, congrArg (· ++ extra) ha, hw⟩
  | decimal | unsigned | hex | octal =>
    obtain ⟨num, ha⟩ := h
    exact ⟨num, intArg_extend ha⟩
  | percent => exact congrArg (· ++ extra) h
  | minus | zero | digit | star | dot | alt | long | other => exact absurd h id

theorem intArg_zeros (extend : Word → BitVec 64) (lflag : CInt) :
    ∃ k num, 0 < k ∧ intArg extend lflag (List.replicate k 0#32) = some (num, []) := by
  unfold intArg
  by_cases hl : 2 ≤ lflag.toInt
  · exact ⟨2, _, by decide, by rw [if_pos hl]; rfl⟩
  · exact ⟨1, _, by decide, by rw [if_neg hl]; rfl⟩

theorem fed_zeros (hro : ro.Loaded mem) (hap : d.ap = []) (hf : token.isFlag = false) (ho : token ≠ .other) :
    ∃ k, Fed mem (d.extend (List.replicate k 0#32)) [] token ∧ (token = .octal → 0 < k) ∧
      (token ≠ .octal → ∃ out, Field mem ro (d.extend (List.replicate k 0#32)) [] out token) := by
  have hzeros : ∀ k, (d.extend (List.replicate k 0#32)).ap = List.replicate k 0#32 := fun k => congrArg (· ++ _) hap
  have hfield : ∀ {k}, Finds mem (fun _ => True) (d.extend (List.replicate k 0#32)) [] token →
      ∃ out, Field mem ro (d.extend (List.replicate k 0#32)) [] out token :=
    fun ht => finds_field hro.nullString token (fun _ _ => message_emits hro _) ht
  cases token with
  | char | pointer => exact ⟨1, ⟨_, hzeros 1⟩, nofun, fun _ => hfield ⟨_, hzeros 1⟩⟩
  | error => exact ⟨1, ⟨_, hzeros 1, trivial⟩, nofun, fun _ => hfield ⟨_, hzeros 1, trivial⟩⟩
  | string => exact ⟨1, ⟨_, hzeros 1, Or.inl rfl⟩, nofun, fun _ => hfield ⟨_, hzeros 1, Or.inl rfl⟩⟩
  | decimal =>
    obtain ⟨k, num, _, ha⟩ := intArg_zeros (·.signExtend 64) d.lflag
    rw [← hzeros k] at ha
    exact ⟨k, ⟨num, ha⟩, nofun, fun _ => hfield ⟨num, ha⟩⟩
  | unsigned | hex =>
    obtain ⟨k, num, _, ha⟩ := intArg_zeros (·.setWidth 64) d.lflag
    rw [← hzeros k] at ha
    exact ⟨k, ⟨num, ha⟩, nofun, fun _ => hfield ⟨num, ha⟩⟩
  | octal =>
    obtain ⟨k, num, hk, ha⟩ := intArg_zeros (·.setWidth 64) d.lflag
    rw [← hzeros k] at ha
    exact ⟨k, ⟨num, ha⟩, fun _ => hk, fun h => absurd rfl h⟩
  | percent => exact ⟨0, (hzeros 0).symm, nofun, fun _ => hfield (hzeros 0).symm⟩
  | minus | zero | digit | star | dot | alt | long => cases hf
  | other => exact absurd rfl ho

theorem runs_zeros (hro : ro.Loaded mem) (f : List Item) : ∃ n m out, Feeds mem f (List.replicate n 0#32) ∧
    Runs mem ro f (List.replicate m 0#32) out [] ∧ m ≤ n ∧ (∀ item ∈ f, item.isOctal = true → m < n) := by
  induction f with
  | nil => exact ⟨0, 0, [], .nil, .nil [], Nat.le_refl _, nofun⟩
  | cons item f ih =>
    obtain ⟨n, m, out, hfeed, hrun, hle, hlt⟩ := ih
    cases item with
    | text c hc =>
      refine ⟨n, m, _, .text hfeed, .text hrun, hle, fun item hi ho => ?_⟩
      rcases List.mem_cons.mp hi with rfl | hi
      · cases ho
      · exact hlt item hi ho
    | directive body conv hb hc =>
      obtain ⟨j, d, hd, hap⟩ := directive_zeros hb
      obtain ⟨k, hfed, hk, hfield⟩ := fed_zeros hro hap hc.1 hc.2
      have hsplit : ∀ i, directive body (List.replicate (j + i) 0#32) =
        some (d.extend (List.replicate i 0#32)) := fun i => by
        rw [← List.replicate_append_replicate]
        exact directive_extend hd
      have hfeeds : Feeds mem (.directive body conv hb hc :: f) (List.replicate (j + (k + n)) 0#32) := by
        refine .directive (hsplit _) ?_ hfeed
        rw [← List.replicate_append_replicate, ← Directive.extend_extend]
        exact hfed.extend
      by_cases ho : tokenOf (conv.setWidth 32) = .octal
      · have hkpos := hk ho
        refine ⟨j + (k + n), j + m, [chr 'X', chr 'X', chr 'X'] ++
          out, hfeeds, .directive (hsplit m) ?_ hrun, by omega,
          fun _ _ _ => by omega⟩
        rw [ho]
        exact ⟨(congrArg (· ++ _) hap).symm, rfl⟩
      · obtain ⟨o, hf⟩ := hfield ho
        refine ⟨j + (k + n), j + (k + m), o ++ out, hfeeds, .directive (hsplit _) ?_ hrun, by omega,
          fun item hi ho' => ?_⟩
        · rw [← List.replicate_append_replicate, ← Directive.extend_extend]
          exact hf.extend
        · rcases List.mem_cons.mp hi with rfl | hi
          · exact absurd (of_decide_eq_true ho') ho
          · have := hlt item hi ho'
            omega

/-! ### A format with `%o` -/

theorem render_no_nul (f : List Item) : 0#8 ∉ render f := by
  intro hm
  obtain ⟨item, _, hm⟩ := List.mem_flatMap.mp hm
  cases item with
  | text c hc => exact hc.2 (List.mem_singleton.mp hm).symm
  | directive body conv hb hc =>
    rcases List.mem_cons.mp hm with hm | hm
    · cases hm
    · rcases List.mem_append.mp hm with hm | hm
      · exact absurd (hb _ hm) (by decide)
      · rw [← List.mem_singleton.mp hm] at hc
        exact absurd hc (by decide)

theorem image_string {xs ys s : List Byte} (hz : 0#8 ∉ s) (hl : xs.length + (s.length + 1) ≤ 2 ^ 32) :
    IsCString (image (xs ++ (s ++ [0#8]) ++ ys)) (BitVec.ofNat 32 xs.length) s := by
  have hheld : Holds (image (xs ++ (s ++ [0#8]))) (BitVec.ofNat 32 xs.length) (s ++ [0#8]) :=
    holds_image (by rw [List.length_append, List.length_singleton]; exact hl)
  exact IsCString.mono ⟨hheld, hz⟩ (fun _ _ hp => image_append hp)

def charItem : Item := .directive [] 99#8 (by simp) (by decide)

theorem emits_char {w : Word} (h : IsCString mem p (render [charItem])) : Emits false ro mem p (w :: ap) [w] := by
  have h' : IsCString mem p (render [charItem] ++ []) := h
  have hrun : Runs mem ro [charItem] (w :: ap) ([w] ++ []) ap := .directive rfl ⟨w, rfl, rfl⟩ (.nil ap)
  exact (emits_items h').mpr ⟨_, ap, [], hrun, (emits_stop h'.drop.nil).mpr rfl, rfl⟩

theorem not_composes {f : List Item} {item : Item} (hi : item ∈ f) (ho : item.isOctal = true)
    (hfits : 2 * (render f).length + 256 ≤ 2 ^ 32) : ¬ Composes f := by
  intro hall
  have happend : render (f ++ [charItem]) = render f ++ render [charItem] := List.flatMap_append
  have hchar : (render [charItem]).length = 2 := rfl
  have hro : rodataBytes.length = 125 := by decide +kernel
  let xs := rodataBytes ++ (render f ++ [0#8])
  let ys := xs ++ (render [charItem] ++ [0#8])
  let mem := image (ys ++ (render (f ++ [charItem]) ++ [0#8]))
  have hxs : xs.length = 126 + (render f).length := by
    simp only [xs, List.length_append, List.length_singleton, hro]
    omega
  have hys : ys.length = 129 + (render f).length := by
    simp only [ys, List.length_append, List.length_singleton, hxs, hchar]
    omega
  have hmem : mem = image (rodataBytes ++ (render f ++ [0#8]) ++
      (render [charItem] ++ [0#8] ++ (render (f ++ [charItem]) ++ [0#8]))) := by
    simp only [mem, ys, xs, List.append_assoc]
  have hf : IsCString mem (BitVec.ofNat 32 rodataBytes.length) (render f ++ []) := by
    rw [hmem, List.append_nil]
    exact image_string (render_no_nul f) (by omega)
  have hg : IsCString mem (BitVec.ofNat 32 xs.length) (render [charItem]) :=
    image_string (render_no_nul _) (by omega)
  have hfg : IsCString mem (BitVec.ofNat 32 ys.length) (render f ++ render [charItem]) := by
    have hlen := congrArg List.length happend
    rw [List.length_append, hchar] at hlen
    have hlast := @image_string ys [] _ (render_no_nul (f ++ [charItem])) (by omega)
    rw [List.append_nil] at hlast
    rw [← happend]
    exact hlast
  have hloaded : rodata.Loaded mem := by
    rw [hmem, List.append_assoc]
    exact rodata_loaded _
  obtain ⟨n, m, o, hfeeds, hruns, _, hlt⟩ := runs_zeros hloaded f
  obtain ⟨k, rfl⟩ : ∃ k, n = m + (k + 1) := ⟨n - m - 1, by have := hlt item hi ho; omega⟩
  rw [← List.replicate_append_replicate] at hfeeds
  have hrun : Runs mem rodata f (List.replicate m 0#32 ++ List.replicate (k + 1) 0#32) o
    (List.replicate (k + 1) 0#32) := hruns.extend
  have hrest : Emits false rodata mem (BitVec.ofNat 32 rodataBytes.length)
      (List.replicate m 0#32 ++ List.replicate (k + 1) 0#32) o :=
    (emits_items hf).mpr ⟨o, _, [], hrun, (emits_stop hf.drop.nil).mpr rfl, (List.append_nil o).symm⟩
  -- the `%c` behind `f` gets the zero that `%o` has left
  have hshift : Emits false rodata mem (BitVec.ofNat 32 ys.length)
      ((List.replicate m 0#32 ++ List.replicate (k + 1) 0#32) ++ [1#32]) (o ++ [0#32]) :=
    (emits_items hfg).mpr ⟨o, _, [0#32], hrun.extend, emits_char hfg.drop, rfl⟩
  have hfed : Feeds mem [charItem] [1#32] := .directive rfl ⟨1#32, rfl⟩ .nil
  rw [List.append_nil] at hf
  rw [← happend] at hfg
  have hclaim := (hall mem rodata _ _ _ [charItem] _ [1#32] hloaded hf hg hfg hfeeds hfed (o ++ [1#32])).mpr
    ⟨o, [1#32], hrest, emits_char hg, rfl⟩
  have heq := List.append_cancel_left (hshift.unique hclaim)
  exact absurd heq (by decide)

theorem vprintfmt_composes (f : List Item) : ((∀ item ∈ f, item.isOctal = false) → Composes f) ∧
    (2 * (render f).length + 256 ≤ 2 ^ 32 → (Composes f ↔ ∀ item ∈ f, item.isOctal = false)) := by
  refine ⟨composes_of, fun hfits => ⟨fun hall item hi => ?_, composes_of⟩⟩
  by_contra ho
  exact not_composes hi ((Bool.not_eq_false _).mp ho) hfits hall

def starItem : Item := .directive [42#8] 120#8 (by decide) (by decide)

def octalItem : Item := .directive [] 111#8 (by simp) (by decide)

theorem vprintfmt_composes_small : Composes [starItem, charItem] ∧ ¬ Composes [charItem, octalItem] :=
  ⟨(vprintfmt_composes [starItem, charItem]).1 (by decide),
    fun h => absurd (((vprintfmt_composes [charItem, octalItem]).2 (by decide)).mp h octalItem (by simp))
      (by decide)⟩

theorem octal_not_composes : ¬ ∀ f : List Item, Composes f := fun hall =>
  not_composes (List.mem_singleton_self octalItem) rfl (by decide) (hall [octalItem])

end Cezos
