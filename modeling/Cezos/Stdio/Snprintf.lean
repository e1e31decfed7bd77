import Cezos.Stdio.Refine
import Mathlib.Algebra.Group.Nat.Defs

namespace Cezos

open Lib

abbrev Bytes := Word → Option Byte

def logHost : Host (Bytes × List CInt) where
  peek s p := s.1 p
  putch ch := Prog.modify (fun s => (s.1, s.2 ++ [ch]))

def Emits (st : Bool) (ro : Rodata) (mem : Bytes) (fmt : Word) (ap : List Word) (out : List CInt) : Prop :=
  ∃ fuel s, Returns st (vprintfmt logHost ro fuel fmt ap) (mem, []) () s ∧ s.2 = out

structure Sprintbuf where
  buf : Word
  ebuf : Word
  cnt : CInt

def storeByte (p : Word) (c : Byte) : Prog (Bytes × Sprintbuf) Unit := fun s =>
  match s.1 p with
  | some _ => .ret () (Function.update s.1 p (some c), s.2) true
  | none => .fault s

def sprintputch (ch : CInt) : Prog (Bytes × Sprintbuf) Unit := do
  Prog.modify (fun s => (s.1, { s.2 with cnt := s.2.cnt + 1#32 }))
  let b ← Prog.read (·.2)
  if b.buf < b.ebuf then do
    storeByte b.buf (ch.setWidth 8)
    Prog.modify (fun s => (s.1, { s.2 with buf := b.buf + 1#32 }))
  else return ()

def sprintHost : Host (Bytes × Sprintbuf) where
  peek s p := s.1 p
  putch := sprintputch

def vsnprintf (ro : Rodata) (fuel : ℕ) (buf : Word) (n : CInt) (fmt : Word) (ap : List Word) : Prog Bytes CInt :=
  if buf = 0#32 ∨ n.toInt < 1 then return -eInval
  else do
    let (rc, _) ← Prog.scope ⟨buf, buf + n - 1#32, 0#32⟩ (do
      vprintfmt sprintHost ro fuel fmt ap
      let b ← Prog.read (·.2)
      storeByte b.buf 0#8
      return b.cnt)
    return rc

def Sprints (st : Bool) (ro : Rodata) (buf : Word) (n : CInt) (fmt : Word) (ap : List Word) (mem : Bytes) (r : CInt)
    (mem' : Bytes) : Prop := ∃ fuel, Returns st (vsnprintf ro fuel buf n fmt ap) mem r mem'

variable {st : Bool} {ro : Rodata} {mem mem' : Bytes} {buf fmt p : Word} {n : CInt} {ap : List Word}
    {out : List CInt}
  {k : ℕ}

structure Buffer (mem : Bytes) (buf : Word) (n : ℕ) : Prop where
  fits : buf.toNat + n ≤ 2 ^ 32
  mapped : ∀ i < n, (mem (buf + BitVec.ofNat 32 i)).isSome = true

def hide (mem : Bytes) (buf : Word) (n : ℕ) : Bytes := fun p => if (p - buf).toNat < n then none else mem p

def written (mem : Bytes) (buf : Word) (cs : List Byte) : Bytes := fun p =>
  match cs[(p - buf).toNat]? with
  | some c => some c
  | none => mem p

theorem sub_toNat_eq {i : ℕ} (hi : i < 2 ^ 32) : (p - buf).toNat = i ↔ p = buf + BitVec.ofNat 32 i := by
  constructor
  · rintro rfl
    rw [BitVec.ofNat_toNat, BitVec.setWidth_eq, BitVec.add_comm, BitVec.sub_add_cancel]
  · rintro rfl
    rw [BitVec.add_comm, BitVec.add_sub_cancel, BitVec.toNat_ofNat, Nat.mod_eq_of_lt hi]

theorem written_nil : written mem buf [] = mem := rfl

theorem written_append {cs : List Byte} (hl : cs.length < 2 ^ 32) (c : Byte) :
    written mem buf (cs ++ [c]) = Function.update (written mem buf cs) (buf + BitVec.ofNat 32 cs.length)
      (some c) := by
  funext q
  rw [Function.update_apply]
  split
  · next hq =>
    rw [written, (sub_toNat_eq hl).mpr hq]
    simp
  · next hq =>
    have hne : (q - buf).toNat ≠ cs.length := fun he => hq ((sub_toNat_eq hl).mp he)
    rw [written, written]
    by_cases hlt : (q - buf).toNat < cs.length
    · rw [List.getElem?_append_left hlt]
    · rw [List.getElem?_eq_none (by rw [List.length_append, List.length_singleton]; omega),
        List.getElem?_eq_none (by omega)]

theorem written_of_le {cs : List Byte} (h : cs.length ≤ (p - buf).toNat) : written mem buf cs p = mem p := by
  rw [written, List.getElem?_eq_none h]

theorem written_of_lt {cs : List Byte} {i : ℕ} (hi : i < 2 ^ 32) {c : Byte} (h : cs[i]? = some c) :
    written mem buf cs (buf + BitVec.ofNat 32 i) = some c := by
  rw [written, (sub_toNat_eq hi).mpr rfl, h]

def fitting (n : ℕ) (out : List CInt) : List Byte := (out.take (n - 1)).map (·.setWidth 8)

theorem length_fitting (n : ℕ) (out : List CInt) : (fitting n out).length = min (n - 1) out.length := by
  rw [fitting, List.length_map, List.length_take]

theorem fitting_append_lt {out : List CInt} {n : ℕ} (h : out.length < n - 1) (ch : CInt) :
    fitting n (out ++ [ch]) = fitting n out ++ [ch.setWidth 8] := by
  rw [fitting, fitting, List.take_of_length_le (by simp; omega), List.take_of_length_le (by omega), List.map_append,
    List.map_singleton]

theorem fitting_append_ge {out : List CInt} {n : ℕ} (h : n - 1 ≤ out.length) (ch : CInt) :
    fitting n (out ++ [ch]) = fitting n out := by
  rw [fitting, fitting, List.take_append_of_le_length h]

structure Sunk (mem : Bytes) (buf : Word) (n : ℕ) (s : Bytes × List CInt) (t : Bytes × Sprintbuf) : Prop where
  readable : s.1 = hide mem buf n
  memory : t.1 = written mem buf (fitting n s.2)
  buf_eq : t.2.buf = buf + BitVec.ofNat 32 (min (n - 1) s.2.length)
  ebuf_eq : t.2.ebuf = buf + BitVec.ofNat 32 (n - 1)
  cnt_eq : t.2.cnt = BitVec.ofNat 32 s.2.length

section Sink

variable {n : ℕ} {s : Bytes × List CInt} {t : Bytes × Sprintbuf}

theorem Sunk.peek (hS : Sunk mem buf n s t) {c : Byte} (hp : s.1 p = some c) : t.1 p = some c := by
  rw [hS.readable, hide] at hp
  split at hp
  · cases hp
  · next hlt =>
    rw [hS.memory, written_of_le (by rw [length_fitting]; omega), hp]

theorem Sunk.next_mapped (hS : Sunk mem buf n s t) (hb : Buffer mem buf n) (hn : 0 < n) :
    ∃ c, t.1 (buf + BitVec.ofNat 32 (min (n - 1) s.2.length)) = some c := by
  have hfits := hb.fits
  have hlt : min (n - 1) s.2.length < 2 ^ 32 := by omega
  have hsome := hb.mapped (min (n - 1) s.2.length) (by omega)
  rw [hS.memory, written_of_le (Nat.le_of_eq (by rw [length_fitting, (sub_toNat_eq hlt).mpr rfl]))]
  exact Option.isSome_iff_exists.mp hsome

theorem Sunk.lt_iff (hS : Sunk mem buf n s t) (hb : Buffer mem buf n) (hn : 0 < n) :
    t.2.buf < t.2.ebuf ↔ s.2.length < n - 1 := by
  have hfits := hb.fits
  have hbuf : (buf + BitVec.ofNat 32 (min (n - 1) s.2.length)).toNat = buf.toNat + min (n - 1) s.2.length := by
    rw [BitVec.toNat_add, BitVec.toNat_ofNat]
    omega
  have hebuf : (buf + BitVec.ofNat 32 (n - 1)).toNat = buf.toNat + (n - 1) := by
    rw [BitVec.toNat_add, BitVec.toNat_ofNat]
    omega
  rw [hS.buf_eq, hS.ebuf_eq, BitVec.lt_def, hbuf, hebuf]
  omega

theorem Sunk.start : Sunk mem buf n (hide mem buf n, []) (mem, ⟨buf, buf + BitVec.ofNat 32 (n - 1), 0#32⟩) :=
  ⟨rfl, by rw [fitting, List.take_nil, List.map_nil, written_nil], by simp, rfl, rfl⟩

theorem returns_storeByte {c c' : Byte} {u : Unit} {t t' : Bytes × Sprintbuf} (hp : t.1 p = some c') :
    Returns st (storeByte p c) t u t' ↔ t' = (Function.update t.1 p (some c), t.2) := by
  constructor
  · rintro ⟨clean, hx, _⟩
    simp only [storeByte, hp, Outcome.ret.injEq] at hx
    exact hx.2.1.symm
  · rintro rfl
    exact ⟨true, by simp only [storeByte, hp], fun _ => rfl⟩

theorem Sunk.putch (hS : Sunk mem buf n s t) (hb : Buffer mem buf n) (hn : 0 < n) (ch : CInt) :
    ∃ t', Returns st (sprintputch ch) t () t' ∧ Sunk mem buf n (s.1, s.2 ++ [ch]) t' := by
  have hfits := hb.fits
  have hcount : t.2.cnt + 1#32 = BitVec.ofNat 32 (s.2 ++ [ch]).length := by
    rw [hS.cnt_eq, List.length_append, List.length_singleton, BitVec.ofNat_add]
  have hlt := hS.lt_iff hb hn
  simp only [sprintputch, returns_bind, returns_modify, returns_read, returns_ite]
  by_cases hroom : s.2.length < n - 1
  · obtain ⟨c, hc⟩ := hS.next_mapped hb hn
    rw [← hS.buf_eq] at hc
    have hmin : min (n - 1) s.2.length = (fitting n s.2).length := by rw [length_fitting]
    have hwrite : Function.update t.1 t.2.buf (some (ch.setWidth 8)) =
      written mem buf (fitting n (s.2 ++ [ch])) := by
      rw [fitting_append_lt hroom, written_append (by rw [length_fitting]; omega), hS.memory, hS.buf_eq, hmin]
    have hstore :=
      (@returns_storeByte st _ (ch.setWidth 8) _ () (t.1, { t.2 with cnt := t.2.cnt + 1#32 }) _ hc).mpr rfl
    refine ⟨_, ⟨(), _, rfl, _, _, ⟨rfl, rfl⟩, Or.inl ⟨hlt.mpr hroom, (), _, hstore, rfl⟩⟩, hS.readable, hwrite, ?_,
      hS.ebuf_eq, hcount⟩
    have hl : min (n - 1) (s.2 ++ [ch]).length = min (n - 1) s.2.length + 1 := by
      rw [List.length_append, List.length_singleton]
      omega
    change t.2.buf + 1#32 = _
    rw [hl, hS.buf_eq, BitVec.ofNat_add, ← BitVec.add_assoc]
  · refine ⟨_, ⟨(), _, rfl, _, _, ⟨rfl, rfl⟩, Or.inr ⟨fun h => hroom (hlt.mp h), returns_pure.mpr ⟨rfl, rfl⟩⟩⟩,
      hS.readable, ?_, ?_, hS.ebuf_eq, hcount⟩
    · rw [fitting_append_ge (by omega)]
      exact hS.memory
    · change t.2.buf = _
      have hl : min (n - 1) (s.2 ++ [ch]).length = min (n - 1) s.2.length := by
        rw [List.length_append, List.length_singleton]
        omega
      rw [hl, hS.buf_eq]

theorem sprintHost_refines (hb : Buffer mem buf n) (hn : 0 < n) :
    Host.Refines (Sunk mem buf n) logHost sprintHost where
  peek hS hp := hS.peek hp
  putch ch := by
    intro strict s t u s' hS hr
    obtain rfl := returns_modify.mp hr
    exact hS.putch hb hn ch

end Sink

theorem Host.Refines.refl {σ : Type} (h : Host σ) : Host.Refines Eq h h where
  peek hs hp := hs ▸ hp
  putch ch := by
    rintro strict s t u s' rfl hr
    exact ⟨s', hr, rfl⟩

theorem vprintfmt_fuel {σ : Type} {h : Host σ} {fuel fuel' : ℕ} {s s' : σ} (hle : fuel ≤ fuel')
    (hr : Returns st (vprintfmt h ro fuel fmt ap) s () s') : Returns st (vprintfmt h ro fuel' fmt ap) s () s' := by
  obtain ⟨_, hr', rfl⟩ := (Host.Refines.refl h).vprintfmt hle fmt ap _ _ _ _ _ rfl hr
  exact hr'

theorem returns_vsnprintf {fuel : ℕ} {r : CInt} (h0 : buf ≠ 0#32) (hn : 1 ≤ n.toInt) :
    Returns st (vsnprintf ro fuel buf n fmt ap) mem r mem' ↔
      ∃ t c, Returns st (vprintfmt sprintHost ro fuel fmt ap) (mem, ⟨buf, buf + n - 1#32, 0#32⟩) () t ∧
        t.1 t.2.buf = some c ∧ r = t.2.cnt ∧ mem' = Function.update t.1 t.2.buf (some 0#8) := by
  have hvalid : ¬ (buf = 0#32 ∨ n.toInt < 1) := by
    rintro (h | h)
    · exact h0 h
    · omega
  have hbody : ∀ t : Bytes × Sprintbuf, ∀ r' t', Returns st (do
      storeByte t.2.buf 0#8
      return t.2.cnt : Prog (Bytes × Sprintbuf) CInt) t r' t' ↔
        ∃ c, t.1 t.2.buf = some c ∧ r' = t.2.cnt ∧ t' = (Function.update t.1 t.2.buf (some 0#8), t.2) := by
    intro t r' t'
    rw [returns_bind]
    constructor
    · rintro ⟨_, t₁, hs, hp⟩
      obtain ⟨rfl, rfl⟩ := returns_pure.mp hp
      cases hc : t.1 t.2.buf with
      | none =>
        obtain ⟨_, hx, _⟩ := hs
        simp [storeByte, hc] at hx
      | some c => exact ⟨c, rfl, rfl, (returns_storeByte hc).mp hs⟩
    · rintro ⟨c, hc, rfl, rfl⟩
      exact ⟨(), _, (returns_storeByte hc).mpr rfl, returns_pure.mpr ⟨rfl, rfl⟩⟩
  rw [vsnprintf, if_neg hvalid]
  simp only [returns_bind, returns_scope, returns_read]
  constructor
  · rintro ⟨⟨rc, b⟩, mem₁, ⟨_, t, hr, _, _, ⟨rfl, rfl⟩, hstore⟩, hp⟩
    obtain ⟨rfl, rfl⟩ := returns_pure.mp hp
    obtain ⟨c, hc, rfl, ht⟩ := (hbody _ _ _).mp (returns_bind.mpr hstore)
    exact ⟨_, c, hr, hc, rfl, (Prod.ext_iff.mp ht).1⟩
  · rintro ⟨t, c, hr, hc, rfl, rfl⟩
    refine ⟨(t.2.cnt, t.2), _, ⟨(), t, hr, t.2, t, ⟨rfl, rfl⟩, ?_⟩, returns_pure.mpr ⟨rfl, rfl⟩⟩
    exact returns_bind.mp ((hbody _ _ _).mpr ⟨c, hc, rfl, rfl⟩)

theorem sprints_invalid (h : buf = 0#32 ∨ n.toInt < 1) : Sprints st ro buf n fmt ap mem (-eInval) mem :=
  ⟨0, by rw [vsnprintf, if_pos h]; exact returns_pure.mpr ⟨rfl, rfl⟩⟩

theorem Sprints.unique {r r' : CInt} {mem₁ mem₂ : Bytes} (h : Sprints st ro buf n fmt ap mem r mem₁)
    (h' : Sprints st ro buf n fmt ap mem r' mem₂) : r = r' ∧ mem₁ = mem₂ := by
  obtain ⟨fuel, hr⟩ := h
  obtain ⟨fuel', hr'⟩ := h'
  by_cases hv : buf = 0#32 ∨ n.toInt < 1
  · rw [vsnprintf, if_pos hv] at hr hr'
    exact hr.unique hr'
  · rw [not_or] at hv
    obtain ⟨t, c, ht, _, rfl, rfl⟩ := (returns_vsnprintf hv.1 (by omega)).mp hr
    obtain ⟨t', c', ht', _, rfl, rfl⟩ := (returns_vsnprintf hv.1 (by omega)).mp hr'
    obtain ⟨_, rfl⟩ := (vprintfmt_fuel (Nat.le_max_left fuel fuel') ht).unique
      (vprintfmt_fuel (Nat.le_max_right fuel fuel') ht')
    exact ⟨rfl, rfl⟩

theorem Emits.mono (h : Emits st ro mem fmt ap out) (hm : ∀ p c, mem p = some c → mem' p = some c) :
    Emits st ro mem' fmt ap out := by
  obtain ⟨fuel, s, hr, hs⟩ := h
  have href : Host.Refines (fun s t => (∀ p c, s.1 p = some c → t.1 p = some c) ∧ s.2 = t.2) logHost logHost := by
    refine ⟨fun hR hp => hR.1 _ _ hp, fun ch strict s t u s' hR hx => ?_⟩
    obtain rfl := returns_modify.mp hx
    exact ⟨_, returns_modify.mpr rfl, hR.1, by rw [hR.2]⟩
  obtain ⟨t, hr', hR⟩ := href.vprintfmt (Nat.le_refl fuel) fmt ap st (mem, []) (mem', []) () s ⟨hm, rfl⟩ hr
  exact ⟨fuel, t, hr', hR.2.symm.trans hs⟩

/-- The buffer holds the first characters of `out` that fit and a zero byte; all other memory is as before. -/
structure Truncated (mem mem' : Bytes) (buf : Word) (n : ℕ) (out : List CInt) : Prop where
  stored : ∀ i < min out.length (n - 1), mem' (buf + BitVec.ofNat 32 i) = (out[i]?).map (·.setWidth 8)
  nul : mem' (buf + BitVec.ofNat 32 (min out.length (n - 1))) = some 0#8
  rest : ∀ p, min out.length (n - 1) < (p - buf).toNat → mem' p = mem p

theorem getElem_fitting {n i : ℕ} (h : i < n - 1) : (fitting n out)[i]? = (out[i]?).map (·.setWidth 8) := by
  rw [fitting, List.getElem?_map, List.getElem?_take, if_pos h]

theorem truncated_written {n : ℕ} (hn : n < 2 ^ 32) :
    Truncated mem (written mem buf (fitting n out ++ [0#8])) buf n out := by
  have hlen := length_fitting n out
  refine ⟨fun i hi => ?_, ?_, fun p hp => ?_⟩
  · obtain ⟨c, hc⟩ : ∃ c, (out[i]?).map (·.setWidth 8) = some c :=
      Option.isSome_iff_exists.mp (by rw [Option.isSome_map]; simp; omega)
    rw [hc]
    apply written_of_lt (by omega)
    rw [List.getElem?_append_left (by omega), getElem_fitting (by omega), hc]
  · apply written_of_lt (by omega)
    rw [List.getElem?_append_right (by omega)]
    simp [hlen, Nat.min_comm]
  · apply written_of_le
    rw [List.length_append, List.length_singleton]
    omega

theorem toNat_of_pos (hn : 1 ≤ n.toInt) : n.toInt = n.toNat ∧ 1 ≤ n.toNat ∧ n.toNat < 2 ^ 31 := by
  have h := BitVec.toInt_eq_toNat_cond n
  have hlt := n.isLt
  split at h <;> omega

theorem sprints_of_emits (h0 : buf ≠ 0#32) (hn : 1 ≤ n.toInt) (hb : Buffer mem buf n.toNat)
    (he : Emits st ro (hide mem buf n.toNat) fmt ap out) :
    Sprints st ro buf n fmt ap mem (BitVec.ofNat 32 out.length)
      (written mem buf (fitting n.toNat out ++ [0#8])) := by
  obtain ⟨_, hpos, hlt⟩ := toNat_of_pos hn
  obtain ⟨fuel, s, hr, rfl⟩ := he
  have hebuf : buf + n - 1#32 = buf + BitVec.ofNat 32 (n.toNat - 1) := by
    apply BitVec.eq_of_toNat_eq
    rw [BitVec.toNat_sub, BitVec.toNat_add, BitVec.toNat_add, BitVec.toNat_ofNat, BitVec.toNat_ofNat]
    omega
  obtain ⟨t, ht, hS⟩ := (sprintHost_refines hb hpos).vprintfmt (Nat.le_refl fuel) fmt ap _ _ _ _ _ Sunk.start hr
  rw [← hebuf] at ht
  obtain ⟨c, hc⟩ := hS.next_mapped hb hpos
  rw [← hS.buf_eq] at hc
  refine ⟨fuel, (returns_vsnprintf h0 hn).mpr ⟨t, c, ht, hc, hS.cnt_eq.symm, ?_⟩⟩
  rw [written_append (by rw [length_fitting]; omega), hS.memory, hS.buf_eq, length_fitting]

theorem truncated_agree {n₁ n₂ : ℕ} {mem₁ mem₂ : Bytes} (h₁ : Truncated mem mem₁ buf n₁ out)
    (h₂ : Truncated mem mem₂ buf n₂ out) (hle : n₁ ≤ n₂) (hn : n₂ < 2 ^ 32) {i : ℕ} (hi : i < n₁ - 1) :
    mem₁ (buf + BitVec.ofNat 32 i) = mem₂ (buf + BitVec.ofNat 32 i) := by
  rcases Nat.lt_trichotomy i out.length with hlt | rfl | hgt
  · rw [h₁.stored i (by omega), h₂.stored i (by omega)]
  · have hmin₁ : min out.length (n₁ - 1) = out.length := by omega
    have hmin₂ : min out.length (n₂ - 1) = out.length := by omega
    have hnul₁ := h₁.nul
    have hnul₂ := h₂.nul
    rw [hmin₁] at hnul₁
    rw [hmin₂] at hnul₂
    rw [hnul₁, hnul₂]
  · have hsub : (buf + BitVec.ofNat 32 i - buf).toNat = i := (sub_toNat_eq (by omega)).mpr rfl
    rw [h₁.rest _ (by omega), h₂.rest _ (by omega)]

theorem vsnprintf_truncates (st : Bool) (ro : Rodata) (buf fmt : Word) (ap : List Word) (mem : Bytes) :
    (∀ n : CInt, buf = 0#32 ∨ n.toInt < 1 → Sprints st ro buf n fmt ap mem (-eInval) mem) ∧
    (∀ (n : CInt) (out : List CInt), buf ≠ 0#32 → 1 ≤ n.toInt → Buffer mem buf n.toNat →
      Emits st ro (hide mem buf n.toNat) fmt ap out → out.length < 2 ^ 31 →
      (∃ r mem', Sprints st ro buf n fmt ap mem r mem') ∧
      ∀ r mem', Sprints st ro buf n fmt ap mem r mem' → r.toInt = out.length ∧ Truncated mem mem' buf n.toNat out) ∧
    (∀ (n₁ n₂ : CInt) (out : List CInt), buf ≠ 0#32 → 1 ≤ n₁.toInt → n₁.toInt ≤ n₂.toInt → Buffer mem buf n₂.toNat →
      Emits st ro (hide mem buf n₂.toNat) fmt ap out → out.length < 2 ^ 31 →
      ∀ r₁ r₂ mem₁ mem₂, Sprints st ro buf n₁ fmt ap mem r₁ mem₁ → Sprints st ro buf n₂ fmt ap mem r₂ mem₂ →
        r₁ = r₂ ∧ ∀ i < n₁.toNat - 1, mem₁ (buf + BitVec.ofNat 32 i) = mem₂ (buf + BitVec.ofNat 32 i)) := by
  refine ⟨fun n h => sprints_invalid h, fun n out h0 hn hb he hlen => ?_, fun n₁ n₂ out h0 hn hle hb he hlen => ?_⟩
  · have hs := sprints_of_emits h0 hn hb he
    obtain ⟨_, _, hlt⟩ := toNat_of_pos hn
    refine ⟨⟨_, _, hs⟩, fun r mem' hr => ?_⟩
    obtain ⟨rfl, rfl⟩ := hs.unique hr
    refine ⟨?_, truncated_written (by omega)⟩
    rw [BitVec.toInt_eq_toNat_cond, BitVec.toNat_ofNat]
    split <;> omega
  · intro r₁ r₂ mem₁ mem₂ hr₁ hr₂
    obtain ⟨h₁, hpos₁, hlt₁⟩ := toNat_of_pos hn
    obtain ⟨h₂, hpos₂, hlt₂⟩ := toNat_of_pos (n := n₂) (by omega)
    have hnat : n₁.toNat ≤ n₂.toNat := by omega
    have hb₁ : Buffer mem buf n₁.toNat :=
      ⟨Nat.le_trans (Nat.add_le_add_left hnat _) hb.fits, fun i hi => hb.mapped i (by omega)⟩
    have he₁ : Emits st ro (hide mem buf n₁.toNat) fmt ap out := he.mono (fun p c hp => by
      rw [hide] at hp ⊢
      split at hp
      · cases hp
      · rwa [if_neg (by omega)])
    obtain ⟨rfl, rfl⟩ := (sprints_of_emits h0 hn hb₁ he₁).unique hr₁
    obtain ⟨rfl, rfl⟩ := (sprints_of_emits h0 (by omega) hb he).unique hr₂
    exact ⟨rfl, fun i hi => truncated_agree (truncated_written (by omega)) (truncated_written (by omega)) hnat
      (by omega) hi⟩

def cString (s : String) : List Byte := s.toList.map (fun c => BitVec.ofNat 8 c.toNat) ++ [0#8]

def smallBytes : Bytes := written (written (fun _ => none) 0x1000#32 (cString "%d!")) 0x2000#32 [1#8, 2#8, 3#8, 4#8]

def smallRodata : Rodata := ⟨0#32, 0#32, 0#32, 0#32, 0#32, 0#32, 0#32, 0#32, 0#32⟩

theorem smallBytes_emits (st : Bool) : Emits st smallRodata (hide smallBytes 0x2000#32 4) 0x1000#32 [4294967284#32]
    [chr '-', chr '1', chr '2', chr '!'] :=
  ⟨8, _, Returns.of_eval (by decide +kernel), by decide +kernel⟩

theorem vsnprintf_truncates_small : ∃ r mem', Sprints true smallRodata 0x2000#32 4#32 0x1000#32 [4294967284#32]
    smallBytes r mem' ∧ r.toInt = 4 ∧
      Truncated smallBytes mem' 0x2000#32 4 [chr '-', chr '1', chr '2', chr '!'] := by
  have hbuffer : Buffer smallBytes 0x2000#32 4 := ⟨by decide, by decide +kernel⟩
  obtain ⟨⟨r, mem', hr⟩, hall⟩ :=
    (vsnprintf_truncates true smallRodata 0x2000#32 0x1000#32 [4294967284#32] smallBytes).2.1
    4#32 _ (by decide) (by decide) hbuffer (smallBytes_emits true) (by decide)
  exact ⟨r, mem', hr, hall r mem' hr⟩

end Cezos
