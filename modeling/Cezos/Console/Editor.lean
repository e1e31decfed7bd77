import Cezos.Console.Fifo
import Cezos.Console.Frames
import Cezos.Console.Streams

namespace Cezos

open Lib

variable {st : Bool} {text : ConsoleTexts} {depth fuel : ℕ} {s s₀ s₁ s₂ s' : LineInput} {c : CInt} {i i' : ℕ}
    {cs : List CInt}
  {prompt : Word} {t : Turn} {line x : List Byte}

/-! ### The line editor -/

def edit (line : List Byte) (c : CInt) : List Byte :=
  if c = chr '\x08' ∨ c = chr '\x7f' then line.dropLast
  else if 0x20 ≤ c.toNat ∧ line.length < buflen - 1 then line ++ [c.setWidth 8]
  else line

def deletes (line : List Byte) (c : CInt) : ℕ := if (c = chr '\x08' ∨ c = chr '\x7f') ∧ line ≠ [] then 1 else 0

def deletions : List Byte → List CInt → ℕ
  | _, [] => 0
  | line, c :: cs => deletes line c + deletions (edit line c) cs

/-- 0x7f is typed only where there is a character to delete. -/
def DeletesInside : List Byte → List CInt → Prop
  | _, [] => True
  | line, c :: cs => (c = chr '\x7f' → line ≠ []) ∧ DeletesInside (edit line c) cs

structure IsLine (buf : ℕ → Byte) (x : List Byte) : Prop where
  fits : x.length < buflen
  chars : ∀ j < x.length, some (buf j) = x[j]?
  nul : buf x.length = 0#8
  no_nul : 0#8 ∉ x

/-! ### One character -/

namespace LineInput

def held (s : LineInput) (i : ℕ) : List Byte := (List.range i).map s.buf

def sent (s : LineInput) : List Byte := s.input.con.sent serialData

@[simp] theorem held_length : (s.held i).length = i := by rw [held, List.length_map, List.length_range]

theorem held_congr (h : ∀ j < i, s'.buf j = s.buf j) : s'.held i = s.held i :=
  List.map_congr_left (fun j hj => h j (List.mem_range.mp hj))

theorem held_succ : s.held (i + 1) = s.held i ++ [s.buf i] := by
  rw [held, held, List.range_succ, List.map_append, List.map_singleton]

theorem held_setBuf : (s.setBuf i c).held (i + 1) = s.held i ++ [c.setWidth 8] := by
  rw [held_succ]
  congr 1
  · apply held_congr
    intro j hj
    exact Function.update_of_ne (Nat.ne_of_lt hj) _ _
  · exact congrArg (fun b => [b]) (Function.update_self i _ s.buf)

theorem held_eq_nil : s.held i = [] ↔ i = 0 := by
  rw [← List.length_eq_zero_iff, held_length]

end LineInput

structure Editing (i : ℕ) (s : LineInput) : Prop where
  fits : i ≤ buflen - 1
  apart : s.input.con.Apart serialData
  no_nul : 0#8 ∉ s.held i

theorem echo_sends (hd : 2 ≤ depth) (hs : s.input.con.Apart serialData) :
    ∃ s', Returns false (echo depth (iscons 0#32) c) s () s' ∧ s'.input.con.Apart serialData ∧
    s'.sent = s.sent ++ putBytes c ∧
      s'.buf = s.buf := by
  obtain ⟨_, d, hput, hapart, hsent⟩ := cputchar_sends (c := c) (Or.inl rfl) hd s.input.con hs
  exact ⟨_, returns_ite.mpr (Or.inl ⟨by decide, returns_onConsole hput⟩), hapart, hsent, rfl⟩

theorem putBytes_char (hhi : c.toNat ≤ 255) (ht : c ≠ chr '\t') : putBytes c = [c.setWidth 8] := by
  have hlow : c &&& 0xFF#32 = c := by
    apply BitVec.eq_of_toNat_eq
    rw [BitVec.toNat_and]
    change c.toNat &&& 2 ^ 8 - 1 = c.toNat
    rw [Nat.and_two_pow_sub_one_eq_mod]
    omega
  rw [putBytes, hlow, if_neg ht]

/-- What one character does: `out` is what is echoed. -/
structure EditStep (i : ℕ) (s : LineInput) (c : CInt) (i' : ℕ) (s' : LineInput) (out : List Byte) : Prop where
  editing : Editing i' s'
  erased : out.count 0x08#8 = deletes (s.held i) c
  held : s'.held i' = if c = chr '\x7f' ∧ s.held i = [] then [0x7f#8] else edit (s.held i) c
  outside : ∀ j, buflen ≤ j → s'.buf j = s.buf j

theorem toInt_typed (h : c.toNat ≤ 255) : c.toInt = c.toNat := by rw [BitVec.toInt_eq_toNat_cond, if_pos (by omega)]

theorem turn_erases (hd : 2 ≤ depth) (he : Editing (i + 1) s) (hhi : c.toNat ≤ 255) (hc : c = chr '\x08' ∨
    c = chr '\x7f') :
    ∃ s', Returns false (readlineTurn text depth fuel (iscons 0#32) (i + 1) c) s (.again i) s' ∧
    s'.sent = s.sent ++ [0x08#8] ∧
      EditStep (i + 1) s c i s' [0x08#8] := by
  obtain ⟨s₁, hecho, hapart, hsent, hbuf⟩ := @echo_sends depth s (chr '\x08') hd he.apart
  have hint := toInt_typed hhi
  have hheld : s₁.held i = (s.held (i + 1)).dropLast := by
    rw [LineInput.held_succ, List.dropLast_concat]
    exact LineInput.held_congr (fun j _ => by rw [hbuf])
  have hne : s.held (i + 1) ≠ [] := mt LineInput.held_eq_nil.mp (Nat.succ_ne_zero i)
  refine ⟨s₁, ?_, hsent, ⟨⟨(Nat.le_succ i).trans he.fits, hapart, ?_⟩, ?_, ?_, fun j _ => by rw [hbuf]⟩⟩
  · rw [readlineTurn, if_neg (by omega), if_pos ⟨hc, Nat.succ_pos i⟩]
    exact returns_bind.mpr ⟨(), s₁, hecho, returns_pure.mpr ⟨rfl, rfl⟩⟩
  · rw [hheld]
    exact fun hz => he.no_nul (List.dropLast_subset _ hz)
  · rw [deletes, if_pos ⟨hc, hne⟩]
    decide
  · rw [if_neg (fun h => hne h.2), edit, if_pos hc, hheld]

theorem turn_appends (hd : 2 ≤ depth) (he : Editing i s) (hhi : c.toNat ≤ 255) (hlow : 0x20 ≤ c.toNat)
    (hi : i < buflen - 1)
    (hc : ¬ ((c = chr '\x08' ∨ c = chr '\x7f') ∧ 0 < i)) :
    ∃ s', Returns false (readlineTurn text depth fuel (iscons 0#32) i c) s (.again (i + 1)) s' ∧
    s'.sent = s.sent ++ [c.setWidth 8] ∧
      EditStep i s c (i + 1) s' [c.setWidth 8] := by
  obtain ⟨s₁, hecho, hapart, hsent, hbuf⟩ := @echo_sends depth s c hd he.apart
  have hint := toInt_typed hhi
  have hspace : (chr ' ').toInt = 32 := by decide
  have hne : ∀ d : CInt, d.toNat < 0x20 → c ≠ d := by
    rintro d hd rfl
    omega
  have hbyte : (c.setWidth 8).toNat = c.toNat := by
    rw [BitVec.toNat_setWidth]
    omega
  have hnew : ∀ b : Byte, b.toNat < 0x20 → c.setWidth 8 ≠ b := by
    rintro b hb rfl
    omega
  have hheld : (s₁.setBuf i c).held (i + 1) = s.held i ++ [c.setWidth 8] := by
    rw [LineInput.held_setBuf]
    exact congrArg (· ++ _) (LineInput.held_congr (fun j _ => by rw [hbuf]))
  rw [putBytes_char hhi (hne _ (by decide))] at hsent
  refine ⟨s₁.setBuf i c, ?_, hsent, ⟨⟨hi, hapart, ?_⟩, ?_, ?_, fun j hj => ?_⟩⟩
  · rw [readlineTurn, if_neg (by omega), if_neg hc, if_pos ⟨by omega, hi⟩]
    refine returns_bind.mpr ⟨(), s₁, hecho, returns_bind.mpr ⟨(), s₁.setBuf i c, returns_modify.mpr rfl, ?_⟩⟩
    exact returns_pure.mpr ⟨rfl, rfl⟩
  · rw [hheld, List.mem_append, List.mem_singleton]
    rintro (hz | hz)
    · exact he.no_nul hz
    · exact hnew 0#8 (by decide) hz.symm
  · have hkeep : ¬ ((c = chr '\x08' ∨ c = chr '\x7f') ∧ s.held i ≠ []) := fun h =>
      hc ⟨h.1, Nat.pos_of_ne_zero (mt LineInput.held_eq_nil.mpr h.2)⟩
    have hother := hnew 0x08#8 (by decide)
    rw [deletes, if_neg hkeep, List.count_singleton, if_neg (by simpa using hother)]
  · rw [hheld]
    by_cases hfirst : c = chr '\x7f' ∧ s.held i = []
    · rw [if_pos hfirst, hfirst.2, hfirst.1]
      rfl
    · have hplain : ¬ (c = chr '\x08' ∨ c = chr '\x7f') := by
        rintro (h | h)
        · exact hne _ (by decide) h
        · exact hc ⟨Or.inr h, Nat.pos_of_ne_zero (fun hz => hfirst ⟨h, LineInput.held_eq_nil.mpr hz⟩)⟩
      rw [if_neg hfirst, edit, if_neg hplain, if_pos ⟨hlow, by rwa [LineInput.held_length]⟩]
  · change Function.update s₁.buf i _ j = _
    have hsize : buflen = 1024 := rfl
    rw [Function.update_of_ne (by omega), hbuf]

theorem turn_ignores (he : Editing i s) (hhi : c.toNat ≤ 255) (hput : ¬ (0x20 ≤ c.toNat ∧ i < buflen - 1))
    (hc : ¬ ((c = chr '\x08' ∨ c = chr '\x7f') ∧ 0 < i)) (hnl : c ≠ chr '\n') (hcr : c ≠ chr '\r') :
    Returns false (readlineTurn text depth fuel (iscons 0#32) i c) s (.again i) s ∧ EditStep i s c i s [] := by
  have hint := toInt_typed hhi
  have hspace : (chr ' ').toInt = 32 := by decide
  have hkeep : ¬ ((c = chr '\x08' ∨ c = chr '\x7f') ∧ s.held i ≠ []) := fun h =>
    hc ⟨h.1, Nat.pos_of_ne_zero (mt LineInput.held_eq_nil.mpr h.2)⟩
  refine ⟨?_, ⟨he, ?_, ?_, fun j _ => rfl⟩⟩
  · rw [readlineTurn, if_neg (by omega), if_neg hc, if_neg (by omega), if_neg (by simp [hnl, hcr])]
    exact returns_pure.mpr ⟨rfl, rfl⟩
  · rw [deletes, if_neg hkeep]
    rfl
  · have hfirst : ¬ (c = chr '\x7f' ∧ s.held i = []) := by
      rintro ⟨rfl, hnil⟩
      rw [LineInput.held_eq_nil.mp hnil] at hput
      exact hput (by decide)
    rw [if_neg hfirst, edit]
    by_cases herase : c = chr '\x08' ∨ c = chr '\x7f'
    · have hnil : s.held i = [] := by_contra fun hne => hkeep ⟨herase, hne⟩
      rw [if_pos herase, hnil]
      rfl
    · rw [if_neg herase, LineInput.held_length, if_neg hput]

theorem readlineTurn_edits (hd : 2 ≤ depth) (he : Editing i s) (hhi : c.toNat ≤ 255) (hnl : c ≠ chr '\n')
    (hcr : c ≠ chr '\r') :
    ∃ i' s' out, Returns false (readlineTurn text depth fuel (iscons 0#32) i c) s (.again i') s' ∧
    s'.sent = s.sent ++ out ∧
      EditStep i s c i' s' out := by
  by_cases herase : (c = chr '\x08' ∨ c = chr '\x7f') ∧ 0 < i
  · obtain ⟨k, rfl⟩ : ∃ k, i = k + 1 := ⟨i - 1, by omega⟩
    obtain ⟨s', hturn, hsent, hstep⟩ := @turn_erases text depth fuel s c k hd he hhi herase.1
    exact ⟨k, s', _, hturn, hsent, hstep⟩
  · by_cases hput : 0x20 ≤ c.toNat ∧ i < buflen - 1
    · obtain ⟨s', hturn, hsent, hstep⟩ := @turn_appends text depth fuel s c i hd he hhi hput.1 hput.2 herase
      exact ⟨i + 1, s', _, hturn, hsent, hstep⟩
    · obtain ⟨hturn, hstep⟩ := @turn_ignores text depth fuel s c i he hhi hput herase hnl hcr
      exact ⟨i, s, [], hturn, (List.append_nil _).symm, hstep⟩

theorem readlineTurn_ends (hd : 2 ≤ depth) (he : Editing i s) (hc : c = chr '\n' ∨ c = chr '\r') :
    ∃ s', Returns false (readlineTurn text depth fuel (iscons 0#32) i c) s .line s' ∧ IsLine s'.buf (s.held i) ∧
      ∀ j, buflen ≤ j → s'.buf j = s.buf j := by
  obtain ⟨s₁, hecho, _, _, hbuf⟩ := @echo_sends depth s (chr '\n') hd he.apart
  have hfits := he.fits
  have hsize : buflen = 1024 := rfl
  have hhi : c.toNat < 0x20 := by rcases hc with rfl | rfl <;> decide
  have hint := @toInt_typed c (by omega)
  have hspace : (chr ' ').toInt = 32 := by decide
  have herase : ¬ ((c = chr '\x08' ∨ c = chr '\x7f') ∧ 0 < i) := by
    rintro ⟨h, _⟩
    rcases hc with rfl | rfl <;> rcases h with h | h <;> exact absurd h (by decide)
  refine ⟨s₁.setBuf i 0#32, ?_, ⟨?_, fun j hj => ?_, ?_, he.no_nul⟩, fun j hj => ?_⟩
  · rw [readlineTurn, if_neg (by omega), if_neg herase, if_neg (by omega), if_pos hc]
    refine returns_bind.mpr ⟨(), s₁, hecho, returns_bind.mpr ⟨(), s₁.setBuf i 0#32, returns_modify.mpr rfl, ?_⟩⟩
    exact returns_pure.mpr ⟨rfl, rfl⟩
  · rw [LineInput.held_length]
    omega
  · rw [LineInput.held_length] at hj
    change some (Function.update s₁.buf i _ j) = _
    rw [Function.update_of_ne (Nat.ne_of_lt hj), hbuf, LineInput.held, List.getElem?_map, List.getElem?_range hj]
    rfl
  · rw [LineInput.held_length]
    exact Function.update_self i _ s₁.buf
  · change Function.update s₁.buf i _ j = _
    rw [Function.update_of_ne (by omega), hbuf]

/-! ### What `getchar` answers -/

theorem consoleGetc_char {s s' : Input} (h : Returns st (consoleGetc text depth fuel) s c s') : c.toNat < 256 := by
  obtain ⟨_, _, _, k, _, _, _, hend⟩ := consoleGetc_polls h
  rcases hend with ⟨_, rfl, _⟩ | ⟨_, rfl, _⟩
  · rw [BitVec.toNat_setWidth]
    have hlt := (k.buf k.rpos.toNat).isLt
    omega
  · decide

theorem getchar_char {s s' : LineInput} (h : Returns st (onInput (getchar text depth fuel)) s c s') :
    c ≠ 0#32 ∧ c.toNat < 256 := by
  obtain ⟨t, hget, _⟩ := returns_zoom.mp h
  have hloop : ∀ (n : ℕ) (b : CInt) (s : Input), b.toNat < 256 →
    Returns st (Prog.whileSome (fun c => if c = 0#32 then do
      let c ← consoleGetc text depth fuel
      return some c
    else return none) n b) s c t → c ≠ 0#32 ∧ c.toNat < 256 := by
    intro n
    induction n with
    | zero => exact fun b s _ hr => absurd hr returns_spin
    | succ n ih =>
      intro b s hb hr
      rcases returns_whileSome_succ.mp hr with ⟨hstop, rfl⟩ | ⟨b', s₁, hnext, hrest⟩
      · rcases returns_ite.mp hstop with ⟨_, hstop⟩ | ⟨hne, _⟩
        · obtain ⟨_, _, _, hp⟩ := returns_bind.mp hstop
          cases (returns_pure.mp hp).1
        · exact ⟨hne, hb⟩
      · rcases returns_ite.mp hnext with ⟨_, hnext⟩ | ⟨_, hnext⟩
        · obtain ⟨d, s₂, hone, hp⟩ := returns_bind.mp hnext
          obtain ⟨hd, rfl⟩ := returns_pure.mp hp
          obtain rfl := Option.some.inj hd
          exact ih _ _ (consoleGetc_char hone) hrest
        · cases (returns_pure.mp hnext).1
  exact hloop fuel 0#32 s.input (by decide) hget

theorem Editing.framed (he : Editing i s) (h : (s'.input.con.wiring, s'.buf) = (s.input.con.wiring, s.buf)) :
    Editing i s' ∧ s'.held i = s.held i := by
  obtain ⟨hwiring, hbuf⟩ := Prod.mk.inj h
  have hport : s'.input.con.port = s.input.con.port := congrArg (·.2.1) hwiring
  have hheld : s'.held i = s.held i := LineInput.held_congr (fun j _ => by rw [hbuf])
  refine ⟨⟨he.fits, ?_, ?_⟩, hheld⟩
  · rw [Console.Apart, hport]
    exact he.apart
  · rw [hheld]
    exact he.no_nul

theorem EditStep.congr {out : List Byte} (h : EditStep i s₁ c i' s' out) (hbuf : s₁.buf = s.buf) :
    EditStep i s c i' s' out := by
  have hheld : s₁.held i = s.held i := LineInput.held_congr (fun j _ => by rw [hbuf])
  have herased := h.erased
  have hnew := h.held
  rw [hheld] at herased hnew
  exact ⟨h.editing, herased, hnew, fun j hj => (h.outside j hj).trans (by rw [hbuf])⟩

theorem getchar_turn (hd : 2 ≤ depth) (he : Editing i s)
    (hget : Returns false (onInput (getchar text depth fuel)) s c s₁) :
    ((c = chr '\n' ∨ c = chr '\r') ∧
    ∃ s', Returns false (readlineTurn text depth fuel (iscons 0#32) i c) s₁ .line s' ∧
      IsLine s'.buf (s.held i) ∧ ∀ j, buflen ≤ j → s'.buf j = s.buf j) ∨
    (c ≠ chr '\n' ∧ c ≠ chr '\r' ∧
    ∃ i' s' out, Returns false (readlineTurn text depth fuel (iscons 0#32) i c) s₁ (.again i') s' ∧
      s'.sent = s₁.sent ++ out ∧ EditStep i s c i' s' out) := by
  have hkeep := frames_getchar _ _ _ _ hget
  obtain ⟨he₁, hheld⟩ := he.framed hkeep
  have hbuf : s₁.buf = s.buf := (Prod.mk.inj hkeep).2
  by_cases hc : c = chr '\n' ∨ c = chr '\r'
  · obtain ⟨s', hturn, hline, hout⟩ := @readlineTurn_ends text depth fuel s₁ c i hd he₁ hc
    rw [hheld, hbuf] at *
    exact Or.inl ⟨hc, s', hturn, hline, hout⟩
  · obtain ⟨hnl, hcr⟩ := not_or.mp hc
    have hhi := (getchar_char hget).2
    obtain ⟨i', s', out, hturn, hsent, hstep⟩ := @readlineTurn_edits text depth fuel s₁ c i hd he₁ (by omega) hnl hcr
    exact Or.inr ⟨hnl, hcr, i', s', out, hturn, hsent, hstep.congr hbuf⟩

/-! ### Runs of the editor -/

def Edits (text : ConsoleTexts) (depth fuel : ℕ) (p : ℕ × LineInput) (e : CInt × List Byte)
    (p' : ℕ × LineInput) : Prop :=
  ∃ s₁, Returns false (onInput (getchar text depth fuel)) p.2 e.1 s₁ ∧
    Returns false (readlineTurn text depth fuel (iscons 0#32) p.1 e.1) s₁ (.again p'.1) p'.2 ∧
      p'.2.sent = s₁.sent ++ e.2

variable {p p' p₁ : ℕ × LineInput} {e : CInt × List Byte} {es : List (CInt × List Byte)}

theorem Edits.unique (h : Edits text depth fuel p e p') (h' : Edits text depth fuel p e p₁) : p₁ = p' := by
  obtain ⟨s₁, hget, hturn, _⟩ := h
  obtain ⟨s₂, hget', hturn', _⟩ := h'
  obtain ⟨_, rfl⟩ := hget.unique hget'
  obtain ⟨heq, hs⟩ := hturn'.unique hturn
  exact Prod.ext (Turn.again.inj heq) hs

theorem Edits.step (hd : 2 ≤ depth) (he : Editing p.1 p.2) (h : Edits text depth fuel p e p') :
    EditStep p.1 p.2 e.1 p'.1 p'.2 e.2 := by
  obtain ⟨s₁, hget, hturn, hsent⟩ := h
  rcases getchar_turn hd he hget with ⟨_, s', hturn', _⟩ | ⟨_, _, i', s', out, hturn', hsent', hstep⟩
  · cases (hturn.unique hturn').1
  · obtain ⟨heq, hs⟩ := hturn.unique hturn'
    rw [hs, hsent'] at hsent
    rw [Turn.again.inj heq, hs, ← List.append_cancel_left hsent]
    exact hstep

def backspaces (es : List (CInt × List Byte)) : ℕ := (es.flatMap Prod.snd).count 0x08#8

/-- After every prefix of the characters the line is what the editor makes of them, and each deletion has been
echoed once. -/
def Follows (text : ConsoleTexts) (depth fuel : ℕ) (p : ℕ × LineInput) (line : List Byte)
    (es : List (CInt × List Byte)) : Prop :=
  ∀ es₁ es₂ p', es = es₁ ++ es₂ → Trace (Edits text depth fuel) p es₁ p' →
    p'.2.held p'.1 = (es₁.map Prod.fst).foldl edit line ∧ backspaces es₁ = deletions line (es₁.map Prod.fst)

theorem backspaces_cons : backspaces (e :: es) = e.2.count 0x08#8 + backspaces es := by
  rw [backspaces, List.flatMap_cons, List.count_append]
  rfl

theorem follows_cons (hone : Edits text depth fuel p e p₁) (hline : p.2.held p.1 = line)
    (herased : e.2.count 0x08#8 = deletes line e.1) :
    Follows text depth fuel p line (e :: es) ↔ Follows text depth fuel p₁ (edit line e.1) es := by
  constructor
  · rintro h es₁ es₂ p' rfl hrun
    obtain ⟨hfold, hcount⟩ := h (e :: es₁) es₂ p' rfl (.cons hone hrun)
    rw [backspaces_cons, herased, List.map_cons, deletions] at hcount
    exact ⟨hfold, Nat.add_left_cancel hcount⟩
  · intro h es₁ es₂ p' hes hrun
    cases es₁ with
    | nil =>
      rw [Trace.nil_iff.mp hrun]
      exact ⟨hline, rfl⟩
    | cons e' es₁ =>
      rw [List.cons_append, List.cons.injEq] at hes
      obtain ⟨rfl, hes⟩ := hes
      obtain ⟨p₂, hone', hrest⟩ := Trace.cons_iff.mp hrun
      rw [hone.unique hone'] at hrest
      obtain ⟨hfold, hcount⟩ := h es₁ es₂ p' hes hrest
      refine ⟨hfold, ?_⟩
      rw [backspaces_cons, herased, List.map_cons, deletions, hcount]

theorem follows_iff (hd : 2 ≤ depth) (he : Editing p.1 p.2) (hline : p.2.held p.1 = line)
    (hrun : Trace (Edits text depth fuel) p es p') :
    Follows text depth fuel p line es ↔ DeletesInside line (es.map Prod.fst) := by
  induction es generalizing p line with
  | nil =>
    refine iff_of_true (fun es₁ es₂ p₁ hes h => ?_) trivial
    obtain ⟨rfl, _⟩ := List.append_eq_nil_iff.mp hes.symm
    rw [Trace.nil_iff.mp h]
    exact ⟨hline, rfl⟩
  | cons e es ih =>
    obtain ⟨p₁, hone, hrest⟩ := Trace.cons_iff.mp hrun
    have hstep := hone.step hd he
    have herased := hstep.erased
    have hheld := hstep.held
    rw [hline] at herased hheld
    rw [List.map_cons, DeletesInside]
    by_cases hfirst : e.1 = chr '\x7f' ∧ line = []
    · refine iff_of_false (fun h => ?_) (fun h => h.1 hfirst.1 hfirst.2)
      -- the code has put 0x7f on the line
      obtain ⟨hfold, _⟩ := h [e] es p₁ rfl (Trace.single hone)
      rw [hheld, if_pos hfirst, List.map_singleton, List.foldl_cons, List.foldl_nil, edit,
        if_pos (Or.inr hfirst.1), hfirst.2] at hfold
      cases hfold
    · rw [if_neg hfirst] at hheld
      rw [follows_cons hone hline herased, ih hstep.editing hheld hrest]
      exact (and_iff_right (fun h hnil => hfirst ⟨h, hnil⟩)).symm

/-! ### A call of `readline` -/

theorem frames_readlinePrompt :
    Frames (fun s : LineInput => (s.input.con.wiring, s.buf)) (readlinePrompt text depth fuel prompt) := by
  have hprint : Frames (fun s : LineInput => (s.input.con.wiring, s.buf))
      (onInput (onConsole (consolePrintf text depth fuel text.percentS [prompt]))) := by
    have hinput : Frames (fun s : Input => s.con.wiring)
      (onConsole (consolePrintf text depth fuel text.percentS [prompt])) :=
      .zoom (wired frames_consolePrintf) (fun _ _ hs => hs)
    refine .zoom hinput (fun t s hs => ?_)
    change s.con.wiring = t.input.con.wiring at hs
    change (s.con.wiring, t.buf) = (t.input.con.wiring, t.buf)
    rw [hs]
  exact .ite (hprint.bind (fun _ => .pure _)) (.pure _)

theorem edits_run (hd : 2 ≤ depth) (he : Editing p.1 p.2) (hrun : Trace (Edits text depth fuel) p es p') :
    Editing p'.1 p'.2 ∧ ∀ j, buflen ≤ j → p'.2.buf j = p.2.buf j := by
  induction hrun with
  | nil p => exact ⟨he, fun _ _ => rfl⟩
  | cons head tail ih =>
    have hstep := head.step hd he
    obtain ⟨he', hout⟩ := ih hstep.editing
    exact ⟨he', fun j hj => (hout j hj).trans (hstep.outside j hj)⟩

theorem gets_editing (hd : 2 ≤ depth) (he : Editing p.1 p.2) (hrun : Trace (Gets false text depth fuel) p cs p') :
    Editing p'.1 p'.2 := by
  refine hrun.invariant (I := fun p => Editing p.1 p.2) (fun p c p' _ he hgets => ?_) he
  obtain ⟨s₁, hget, hturn⟩ := hgets
  rcases getchar_turn hd he hget with ⟨_, s', hturn', _⟩ | ⟨_, _, i', s', out, hturn', _, hstep⟩
  · cases (hturn.unique hturn').1
  · obtain ⟨heq, hs⟩ := hturn.unique hturn'
    rw [Turn.again.inj heq, hs]
    exact hstep.editing

theorem readline_line (hd : 2 ≤ depth) (hport : s.input.con.Apart serialData)
    (h : Returns false (readline text depth fuel prompt) s t s') : t = .line ∧ ∃ x, IsLine s'.buf x := by
  obtain ⟨s₀, cs, i, s₁, c, s₂, hprompt, hrun, hget, hturn, hlast⟩ := readline_gets h
  have hstart : Editing 0 s := ⟨Nat.zero_le _, hport, List.not_mem_nil⟩
  have he₀ := (hstart.framed (frames_readlinePrompt _ _ _ _ hprompt)).1
  have he₁ := gets_editing (p := (0, s₀)) hd he₀ hrun
  rcases getchar_turn hd he₁ hget with ⟨_, s₃, hturn', hline, _⟩ | ⟨_, _, i', s₃, out, hturn', _⟩
  · obtain ⟨ht, hs⟩ := hturn.unique hturn'
    exact ⟨ht, _, hs ▸ hline⟩
  · exact absurd (hturn.unique hturn').1 (hlast i')

theorem loop_edits {n : ℕ} (hrun : Trace (Edits text depth fuel) (i, s) es (i', s₁))
    (hget : Returns false (onInput (getchar text depth fuel)) s₁ c s₂)
    (hturn : Returns false (readlineTurn text depth fuel (iscons 0#32) i' c) s₂ .line s') (hn : es.length + 2 ≤ n) :
    Returns false (Prog.whileSome (readlineStep text depth fuel (iscons 0#32)) n (.again i)) s .line s' := by
  induction es generalizing i s n with
  | nil =>
    obtain ⟨n, rfl⟩ : ∃ k, n = k + 2 := ⟨n - 2, by rw [List.length_nil] at hn; omega⟩
    obtain ⟨rfl, rfl⟩ := Prod.mk.inj (Trace.nil_iff.mp hrun)
    refine returns_whileSome_succ.mpr (Or.inr ⟨.line, s', ?_, ?_⟩)
    · exact returns_bind.mpr ⟨c, s₂, hget, returns_bind.mpr ⟨.line, s', hturn, returns_pure.mpr ⟨rfl, rfl⟩⟩⟩
    · exact returns_whileSome_succ.mpr (Or.inl ⟨returns_pure.mpr ⟨rfl, rfl⟩, rfl⟩)
  | cons e es ih =>
    obtain ⟨n, rfl⟩ : ∃ k, n = k + 1 := ⟨n - 1, by omega⟩
    obtain ⟨⟨i₁, s₃⟩, ⟨s₄, hget', hturn', _⟩, hrest⟩ := Trace.cons_iff.mp hrun
    rw [List.length_cons] at hn
    refine returns_whileSome_succ.mpr (Or.inr ⟨.again i₁, s₃, ?_, ih hrest (by omega)⟩)
    exact returns_bind.mpr ⟨_, s₄, hget', returns_bind.mpr ⟨_, s₃, hturn', returns_pure.mpr ⟨rfl, rfl⟩⟩⟩

theorem readline_edits_iff (hd : 2 ≤ depth) (hport : s.input.con.Apart serialData)
    (hprompt : Returns false (readlinePrompt text depth fuel prompt) s () s₀)
    (hrun : Trace (Edits text depth fuel) (0, s₀) es (i, s₁)) :
    (∀ c s₂, Returns false (onInput (getchar text depth fuel)) s₁ c s₂ →
      (c ≠ chr '\n' ∧ c ≠ chr '\r' → ∃ out p', Edits text depth fuel (i, s₁) (c, out) p') ∧
      (c = chr '\n' ∨ c = chr '\r' → es.length + 2 ≤ fuel →
      ∃ s', Returns false (readline text depth fuel prompt) s .line s' ∧
        IsLine s'.buf (s₁.held i) ∧ (∀ j, buflen ≤ j → s'.buf j = s.buf j) ∧
        (DeletesInside [] (es.map Prod.fst) → IsLine s'.buf ((es.map Prod.fst).foldl edit []) ∧
          backspaces es = deletions [] (es.map Prod.fst)))) ∧
    (Follows text depth fuel (0, s₀) [] es ↔ DeletesInside [] (es.map Prod.fst)) := by
  have hkeep := frames_readlinePrompt _ _ _ _ hprompt
  have hstart : Editing 0 s := ⟨Nat.zero_le _, hport, List.not_mem_nil⟩
  have hstart₀ : Editing 0 s₀ := (hstart.framed hkeep).1
  have hiff := follows_iff (p := (0, s₀)) hd hstart₀ rfl hrun
  obtain ⟨hend, hout⟩ := edits_run (p := (0, s₀)) hd hstart₀ hrun
  refine ⟨fun c s₂ hget => ?_, hiff⟩
  rcases getchar_turn hd hend hget with ⟨hc, s', hturn, hline, hout'⟩ | ⟨hnl, hcr, i', s', out, hturn, hsent, _⟩
  · refine ⟨fun hne => absurd hc (not_or.mpr hne), fun _ hf => ?_⟩
    refine ⟨s', returns_bind.mpr ⟨(), s₀, hprompt, loop_edits hrun hget hturn hf⟩, hline, fun j hj =>
      ?_, fun hinside => ?_⟩
    · rw [hout' j hj, hout j hj, congrFun (Prod.mk.inj hkeep).2 j]
    · obtain ⟨hfold, hcount⟩ := hiff.mpr hinside es [] (i, s₁) (List.append_nil es).symm hrun
      exact ⟨hfold ▸ hline, hcount⟩
  · exact ⟨fun _ => ⟨out, (i', s'), s₂, hget, hturn, hsent⟩, fun hc => absurd hc (not_or.mpr ⟨hnl, hcr⟩)⟩

deriving instance DecidableEq for Turn

def typedLine (first : Byte) : LineInput where
  input := {
    con := { fullConsole with
      device := fun _ p => if p = 0x3FD#16 then 0x20#8 else if p = 0x379#16 then 0x80#8 else 0#8
      cPos := 0#16
      serialExists := false }
    cons := ⟨fun j => if j = 0 then first else 0x0A#8, 0#32, 2#32⟩ }
  buf _ := 0#8

theorem typedLine_edits (first : Byte) (hfirst : first = 0x61#8 ∨ first = 0x7f#8) :
    ∃ s₁ s₂, Edits noTexts 2 3 (0, typedLine first) (first.setWidth 32, [first]) (1, s₁) ∧
      Returns false (onInput (getchar noTexts 2 3)) s₁ (chr '\n') s₂ := by
  rcases hfirst with rfl | rfl
  · exact ⟨_, _, ⟨_, .of_eval (by decide +kernel), .of_eval (by decide +kernel), by decide +kernel⟩,
      .of_eval (by decide +kernel)⟩
  · exact ⟨_, _, ⟨_, .of_eval (by decide +kernel), .of_eval (by decide +kernel), by decide +kernel⟩,
      .of_eval (by decide +kernel)⟩

theorem readline_edits_typed : ∃ s', Returns false (readline noTexts 2 3 0#32) (typedLine 0x61#8) .line s' ∧
    IsLine s'.buf [0x61#8] := by
  obtain ⟨s₁, s₂, hone, hget⟩ := typedLine_edits 0x61#8 (Or.inl rfl)
  have hprompt : Returns false (readlinePrompt noTexts 2 3 0#32) (typedLine 0x61#8) () (typedLine 0x61#8) :=
    returns_ite.mpr (Or.inr ⟨fun h => h rfl, returns_pure.mpr ⟨rfl, rfl⟩⟩)
  obtain ⟨hnext, _⟩ := readline_edits_iff (Nat.le_refl 2) (by decide) hprompt (Trace.single hone)
  obtain ⟨s', hr, _, _, hfold⟩ := (hnext _ _ hget).2 (Or.inl rfl) (by decide)
  have hinside : DeletesInside [] [chr 'a'] := ⟨fun h => absurd h (by decide), trivial⟩
  exact ⟨s', hr, (hfold hinside).1⟩

theorem not_readline_edits : ¬ ∀ (text : ConsoleTexts) (depth fuel : ℕ) (prompt : Word) (s s₀ s₁ s₂ s' : LineInput)
    (es : List (CInt × List Byte)) (i : ℕ) (c : CInt), 2 ≤ depth → s.input.con.Apart serialData →
    Returns false (readlinePrompt text depth fuel prompt) s () s₀ →
      Trace (Edits text depth fuel) (0, s₀) es (i, s₁) →
    Returns false (onInput (getchar text depth fuel)) s₁ c s₂ → c = chr '\n' ∨ c = chr '\r' → es.length + 2 ≤ fuel →
    Returns false (readline text depth fuel prompt) s .line s' →
      IsLine s'.buf ((es.map Prod.fst).foldl edit []) := by
  intro h
  obtain ⟨s₁, s₂, hone, hget⟩ := typedLine_edits 0x7f#8 (Or.inr rfl)
  have hprompt : Returns false (readlinePrompt noTexts 2 3 0#32) (typedLine 0x7f#8) () (typedLine 0x7f#8) :=
    returns_ite.mpr (Or.inr ⟨fun h => h rfl, returns_pure.mpr ⟨rfl, rfl⟩⟩)
  have hstart : Editing 0 (typedLine 0x7f#8) := ⟨Nat.zero_le _, by decide, List.not_mem_nil⟩
  have hstep := hone.step (Nat.le_refl 2) hstart
  have hheld := hstep.held
  obtain ⟨he₂, hheld₂⟩ := hstep.editing.framed (frames_getchar _ _ _ _ hget)
  obtain ⟨s', hturn, hline, _⟩ := @readlineTurn_ends noTexts 2 3 s₂ _ 1 (Nat.le_refl 2) he₂ (Or.inl rfl)
  have hr : Returns false (readline noTexts 2 3 0#32) (typedLine 0x7f#8) .line s' :=
    returns_bind.mpr ⟨(), _, hprompt, loop_edits (Trace.single hone) hget hturn (by decide)⟩
  have hempty : IsLine s'.buf [] := h noTexts 2 3 _ _ _ _ _ _ _ _ _ (Nat.le_refl 2) (by decide) hprompt
    (Trace.single hone) hget
    (Or.inl rfl) (by decide) hr
  -- the terminator would stand where 0x7f is
  have hfirst := hline.chars 0 (by rw [LineInput.held_length]; decide)
  have hnul := hempty.nul
  rw [hheld₂, hheld, if_pos ⟨by decide, rfl⟩] at hfirst
  rw [List.length_nil] at hnul
  rw [hnul] at hfirst
  exact absurd hfirst (by decide)

end Cezos
