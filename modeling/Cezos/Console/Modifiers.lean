import Cezos.Console.Frames
import Cezos.Console.Scrollback

namespace Cezos

open Lib

variable {st : Bool} {text : ConsoleTexts} {depth fuel : ℕ} {s s' : Console} {c : CInt} {data : Byte} {shift : Word}

def shiftAfter (shift : Word) (data : Byte) : Word :=
  if data = 0xE0#8 then shift ||| e0esc
  else if data &&& 0x80#8 ≠ 0#8 then shift &&&
    ~~~(shiftcode (if shift &&& e0esc ≠ 0#32 then data else data &&& 0x7F#8) ||| e0esc)
  else if shift &&& e0esc ≠ 0#32 then
    (shift &&& ~~~e0esc ||| shiftcode (data ||| 0x80#8)) ^^^ togglecode (data ||| 0x80#8)
  else (shift ||| shiftcode data) ^^^ togglecode data

structure KeyReady (s : Console) (data : Byte) : Prop where
  full : s.device s.clock 0x64#16 &&& kbsDib ≠ 0#8
  keyboard : s.device s.clock 0x64#16 &&& kbsTerr = 0#8
  byte : s.device (s.clock + 1) 0x60#16 = data

theorem kbdPressed_shift (h : Returns st (kbdPressed text depth fuel data) s c s') :
    s'.shift = (s.shift ||| shiftcode data) ^^^ togglecode data := by
  obtain ⟨old, s₁, hread, h⟩ := returns_bind.mp h
  obtain ⟨rfl, rfl⟩ := returns_read.mp hread
  obtain ⟨_, s₂, hset, h⟩ := returns_bind.mp h
  have hrest : ∀ (p : Prop) [Decidable p] (c : CInt), Frames Console.setup (if p then do
      let _ ← consolePrintf text depth fuel text.rebooting []
      outb 0x92#32 0x3#8
      return c
    else return c) :=
    fun _ _ _ => .ite (frames_consolePrintf.bind (fun _ => frames_outb.bind (fun _ => .pure _))) (.pure _)
  have hkeep : s'.shift = s₂.shift := congrArg (·.2.2.2.2) (hrest _ _ _ _ _ _ h)
  rw [hkeep, returns_modify.mp hset]

theorem kbdProcData_shift (hk : KeyReady s data) (h : Returns st (kbdProcData text depth fuel) s c s') :
    s'.shift = shiftAfter s.shift data := by
  obtain ⟨stat, s₁, hstat, h⟩ := returns_bind.mp h
  obtain ⟨rfl, rfl⟩ := hstat.unique (returns_ret inb_eval)
  rw [if_neg (show ¬ s.device s.clock (kbstatp.setWidth 16) &&& kbsDib = 0#8 from hk.full),
    if_neg (show ¬ s.device s.clock (kbstatp.setWidth 16) &&& kbsTerr ≠ 0#8 from not_not.mpr hk.keyboard)] at h
  obtain ⟨byte, s₂, hbyte, h⟩ := returns_bind.mp h
  obtain ⟨hb, rfl⟩ := hbyte.unique (returns_ret inb_eval)
  obtain rfl : byte = data := hb.trans hk.byte
  obtain ⟨shift, s₃, hread, h⟩ := returns_bind.mp h
  obtain ⟨rfl, rfl⟩ := returns_read.mp hread
  have hset : ∀ {t t' : Console} {shift : Word} {u : Unit}, Returns st (setShift shift) t u t' →
    t'.shift = shift := fun h => by
    rw [returns_modify.mp h]
  unfold shiftAfter
  rcases returns_ite.mp h with ⟨he0, h⟩ | ⟨he0, h⟩
  · obtain ⟨_, s₄, hr, h⟩ := returns_bind.mp h
    rw [if_pos he0, (returns_pure.mp h).2, hset hr]
  rw [if_neg he0]
  rcases returns_ite.mp h with ⟨hup, h⟩ | ⟨hup, h⟩
  · obtain ⟨_, s₄, hr, h⟩ := returns_bind.mp h
    rw [if_pos hup, (returns_pure.mp h).2, hset hr]
  rw [if_neg hup]
  rcases returns_ite.mp h with ⟨hesc, h⟩ | ⟨hesc, h⟩
  · obtain ⟨_, s₄, hr, h⟩ := returns_bind.mp h
    rw [if_pos hesc, kbdPressed_shift h, hset hr]
  · rw [if_neg hesc, kbdPressed_shift h]

/-- A key of the keyboard: `ext` is set when its codes come after 0xE0. -/
structure Key where
  ext : Bool
  code : Byte
deriving DecidableEq

structure KeyEvent where
  key : Key
  down : Bool

namespace Key

def Valid (k : Key) : Prop := 0x01#8 ≤ k.code ∧ k.code ≤ 0x5F#8

def index (k : Key) : Byte := if k.ext then k.code ||| 0x80#8 else k.code

end Key

namespace KeyEvent

def bytes (e : KeyEvent) : List Byte :=
  (if e.key.ext then [0xE0#8] else []) ++ [if e.down then e.key.code else e.key.code ||| 0x80#8]

def mask (shift : Word) (e : KeyEvent) : Word := e.bytes.foldl shiftAfter shift

end KeyEvent

def heldAfter (held : Key → Bool) (e : KeyEvent) : Key → Bool := Function.update held e.key e.down

def KeyStream : (Key → Bool) → List KeyEvent → Prop
  | _, [] => True
  | held, e :: es => e.key.Valid ∧ (e.down = false → held e.key = true) ∧ KeyStream (heldAfter held e) es

structure Modifier where
  bit : ℕ
  left : Key
  right : Key

def modifiers : List Modifier :=
  [⟨0, ⟨false, 0x2A#8⟩, ⟨false, 0x36#8⟩⟩, ⟨1, ⟨false, 0x1D#8⟩, ⟨true, 0x1D#8⟩⟩, ⟨2, ⟨false, 0x38#8⟩, ⟨true, 0x38#8⟩⟩]

structure Tracks (shift : Word) (held : Key → Bool) : Prop where
  shiftHeld : shift &&& shiftKey ≠ 0#32 ↔ held ⟨false, 0x2A#8⟩ = true ∨ held ⟨false, 0x36#8⟩ = true
  ctlHeld : shift &&& ctlKey ≠ 0#32 ↔ held ⟨false, 0x1D#8⟩ = true ∨ held ⟨true, 0x1D#8⟩ = true
  altHeld : shift &&& altKey ≠ 0#32 ↔ held ⟨false, 0x38#8⟩ = true ∨ held ⟨true, 0x38#8⟩ = true
  noEscape : shift &&& e0esc = 0#32

/-- No key of a modifier is released while the other one is held. -/
def ReleasedAlone (held : Key → Bool) (e : KeyEvent) : Prop :=
  e.down = false → ∀ m ∈ modifiers, (e.key = m.left → held m.right = false) ∧ (e.key = m.right → held m.left = false)

def AllReleasedAlone : (Key → Bool) → List KeyEvent → Prop
  | _, [] => True
  | held, e :: es => ReleasedAlone held e ∧ AllReleasedAlone (heldAfter held e) es

section Codes

variable {m : Modifier} {e : KeyEvent} {held : Key → Bool} {x : Word} {i : ℕ}

theorem code_bytes : ∀ code : Byte, 0x01#8 ≤ code → code ≤ 0x5F#8 → code ≠ 0xE0#8 ∧ code ||| 0x80#8 ≠ 0xE0#8 ∧
    code &&& 0x80#8 = 0#8 ∧
    (code ||| 0x80#8) &&& 0x80#8 ≠ 0#8 ∧ (code ||| 0x80#8) &&& 0x7F#8 = code := by
  decide +kernel

theorem shiftcode_bit : ∀ m ∈ modifiers, ∀ (ext : Bool) (code : Byte), 0x01#8 ≤ code → code ≤ 0x5F#8 →
    ((shiftcode (Key.index ⟨ext, code⟩)).getLsbD m.bit = true ↔ (⟨ext, code⟩ : Key) = m.left ∨
    (⟨ext, code⟩ : Key) = m.right) := by
  decide +kernel

theorem codes_bits : ∀ i : Byte, (∀ m ∈ modifiers, (togglecode i).getLsbD m.bit = false) ∧
    (togglecode i).getLsbD 6 = false ∧
    (shiftcode i).getLsbD 6 = false := by
  decide +kernel

theorem modifiers_apart : ∀ m ∈ modifiers, m.left ≠ m.right ∧ m.bit < 32 := by decide

theorem bit_iff (hi : i < 32) : shift &&& 1#32 <<< i ≠ 0#32 ↔ shift.getLsbD i = true := by
  have hone : BitVec.twoPow 32 i ≠ 0#32 := fun h => by
    have hbit := congrArg (·.getLsbD i) h
    simp [hi] at hbit
  rw [← BitVec.twoPow_eq, BitVec.and_twoPow]
  cases shift.getLsbD i
  · exact iff_of_false (fun h => h rfl) (by decide)
  · exact iff_of_true hone rfl

theorem e0esc_iff : shift &&& e0esc = 0#32 ↔ shift.getLsbD 6 = false := by
  rw [← Bool.not_eq_true, ← bit_iff (by decide), not_not]
  rfl

theorem e0esc_set : (shift ||| e0esc) &&& e0esc ≠ 0#32 := by
  rw [Ne, e0esc_iff, BitVec.getLsbD_or, show e0esc.getLsbD 6 = true from rfl, Bool.or_true]
  decide

theorem e0esc_bit (h : shift &&& e0esc = 0#32) : (shift.getLsbD i && e0esc.getLsbD i) = false := by
  have hbit := congrArg (·.getLsbD i) h
  rwa [BitVec.getLsbD_and, BitVec.getLsbD_zero] at hbit

theorem e0esc_cleared (h : shift &&& e0esc = 0#32) : (shift ||| e0esc) &&& ~~~e0esc = shift := by
  apply BitVec.eq_of_getLsbD_eq
  intro i hi
  have hbit := @e0esc_bit _ i h
  simp only [BitVec.getLsbD_and, BitVec.getLsbD_or, BitVec.getLsbD_not, hi, decide_true, Bool.true_and]
  revert hbit
  cases shift.getLsbD i <;> cases e0esc.getLsbD i <;> decide

theorem released (h : shift &&& e0esc = 0#32) : shift &&& ~~~(x ||| e0esc) = shift &&& ~~~x := by
  apply BitVec.eq_of_getLsbD_eq
  intro i hi
  have hbit := @e0esc_bit _ i h
  simp only [BitVec.getLsbD_and, BitVec.getLsbD_or, BitVec.getLsbD_not, hi, decide_true, Bool.true_and]
  revert hbit
  cases shift.getLsbD i <;> cases e0esc.getLsbD i <;> cases x.getLsbD i <;> decide

theorem released_ext (h : shift &&& e0esc = 0#32) : (shift ||| e0esc) &&& ~~~(x ||| e0esc) = shift &&& ~~~x := by
  rw [BitVec.not_or, BitVec.and_comm (~~~x), ← BitVec.and_assoc, e0esc_cleared h]

theorem mask_eq (hk : e.key.Valid) (hesc : shift &&& e0esc = 0#32) : e.mask shift =
    if e.down then (shift ||| shiftcode e.key.index) ^^^ togglecode e.key.index
      else shift &&& ~~~shiftcode e.key.index := by
  obtain ⟨⟨ext, code⟩, down⟩ := e
  obtain ⟨hne, hne', hlow, hhigh, hback⟩ := code_bytes code hk.1 hk.2
  have hescape : shiftAfter shift 0xE0#8 = shift ||| e0esc := if_pos rfl
  cases ext <;> cases down
  · change shiftAfter shift (code ||| 0x80#8) = shift &&& ~~~shiftcode code
    rw [shiftAfter, if_neg hne', if_pos hhigh, if_neg (not_not.mpr hesc), hback, released hesc]
  · change shiftAfter shift code = (shift ||| shiftcode code) ^^^ togglecode code
    rw [shiftAfter, if_neg hne, if_neg (not_not.mpr hlow), if_neg (not_not.mpr hesc)]
  · change shiftAfter (shiftAfter shift 0xE0#8) (code ||| 0x80#8) = shift &&& ~~~shiftcode (code ||| 0x80#8)
    rw [hescape, shiftAfter, if_neg hne', if_pos hhigh, if_pos e0esc_set, released_ext hesc]
  · change shiftAfter (shiftAfter shift 0xE0#8) code = (shift ||| shiftcode (code ||| 0x80#8)) ^^^ togglecode
      (code ||| 0x80#8)
    rw [hescape, shiftAfter, if_neg hne, if_neg (not_not.mpr hlow), if_pos e0esc_set, e0esc_cleared hesc]

theorem mask_e0esc (hk : e.key.Valid) (hesc : shift &&& e0esc = 0#32) : e.mask shift &&& e0esc = 0#32 := by
  obtain ⟨_, htoggle, hcode⟩ := codes_bits e.key.index
  rw [e0esc_iff] at hesc ⊢
  rw [mask_eq hk (e0esc_iff.mpr hesc)]
  cases e.down
  · rw [if_neg (by decide), BitVec.getLsbD_and, hesc, Bool.false_and]
  · rw [if_pos rfl, BitVec.getLsbD_xor, BitVec.getLsbD_or, hesc, hcode, htoggle]
    rfl

theorem heldAfter_eq {k : Key} : heldAfter held e k = true ↔ if k = e.key then e.down = true else held k = true := by
  rw [heldAfter, Function.update_apply]
  split <;> rfl

theorem modifier_step (hm : m ∈ modifiers) (hk : e.key.Valid) (hesc : shift &&& e0esc = 0#32)
    (h : shift.getLsbD m.bit = true ↔ held m.left = true ∨ held m.right = true) :
    ((e.mask shift).getLsbD m.bit = true ↔ heldAfter held e m.left = true ∨ heldAfter held e m.right = true) ↔
      (e.down = false → (e.key = m.left → held m.right = false) ∧ (e.key = m.right → held m.left = false)) := by
  have hcode := shiftcode_bit m hm e.key.ext e.key.code hk.1 hk.2
  have htoggle := (codes_bits e.key.index).1 m hm
  obtain ⟨hne, hbit⟩ := modifiers_apart m hm
  rw [mask_eq hk hesc, heldAfter_eq, heldAfter_eq]
  cases hdown : e.down
  · rw [if_neg (by decide), BitVec.getLsbD_and, BitVec.getLsbD_not, decide_eq_true hbit, Bool.true_and,
      Bool.and_eq_true,
      Bool.not_eq_true', h]
    change (_ ∧ (shiftcode e.key.index).getLsbD m.bit = false ↔ _) ↔ _
    rw [← Bool.not_eq_true, hcode]
    by_cases hl : e.key = m.left
    · have hr : e.key ≠ m.right := fun he => hne (hl.symm.trans he)
      rw [if_pos hl.symm, if_neg hr.symm]
      simp [hl, hne]
    · by_cases hr : e.key = m.right
      · rw [if_neg (Ne.symm hl), if_pos hr.symm]
        simp [hr, hne.symm]
      · rw [if_neg (Ne.symm hl), if_neg (Ne.symm hr)]
        simp [hl, hr]
  · rw [if_pos rfl, BitVec.getLsbD_xor, BitVec.getLsbD_or, htoggle, Bool.xor_false, Bool.or_eq_true, h, hcode]
    refine iff_of_true ?_ nofun
    by_cases hl : e.key = m.left
    · rw [if_pos hl.symm]
      exact iff_of_true (Or.inr (Or.inl hl)) (Or.inl rfl)
    · by_cases hr : e.key = m.right
      · rw [if_pos hr.symm]
        exact iff_of_true (Or.inr (Or.inr hr)) (Or.inr rfl)
      · rw [if_neg (Ne.symm hl), if_neg (Ne.symm hr)]
        exact or_iff_left (not_or.mpr ⟨hl, hr⟩)

theorem tracks_iff : Tracks shift held ↔
    (∀ m ∈ modifiers, (shift.getLsbD m.bit = true ↔ held m.left = true ∨ held m.right = true)) ∧
    shift &&& e0esc = 0#32 := by
  constructor
  · rintro ⟨hshift, hctl, halt, hesc⟩
    refine ⟨fun m hm => ?_, hesc⟩
    rw [← bit_iff (modifiers_apart m hm).2]
    simp only [modifiers, List.mem_cons, List.not_mem_nil, or_false] at hm
    rcases hm with rfl | rfl | rfl
    · exact hshift
    · exact hctl
    · exact halt
  · rintro ⟨hall, hesc⟩
    simp only [modifiers, List.forall_mem_cons] at hall
    obtain ⟨hshift, hctl, halt, _⟩ := hall
    exact ⟨(bit_iff (by decide)).trans hshift, (bit_iff (by decide)).trans hctl,
      (bit_iff (by decide)).trans halt, hesc⟩

theorem tracks_step (hk : e.key.Valid) (h : Tracks shift held) :
    Tracks (e.mask shift) (heldAfter held e) ↔ ReleasedAlone held e := by
  rw [tracks_iff] at h
  obtain ⟨hall, hesc⟩ := h
  rw [tracks_iff, and_iff_left (mask_e0esc hk hesc)]
  constructor
  · exact fun h hup m hm => (modifier_step hm hk hesc (hall m hm)).mp (h m hm) hup
  · exact fun h m hm => (modifier_step hm hk hesc (hall m hm)).mpr (fun hup => h hup m hm)

theorem tracks_run {es : List KeyEvent} (hes : KeyStream held es) (h : Tracks shift held) :
    (∀ es₁ es₂, es = es₁ ++ es₂ → Tracks (es₁.foldl KeyEvent.mask shift) (es₁.foldl heldAfter held)) ↔
    AllReleasedAlone held es := by
  induction es generalizing held shift with
  | nil =>
    refine iff_of_true (fun es₁ es₂ hnil => ?_) trivial
    obtain ⟨rfl, _⟩ := List.append_eq_nil_iff.mp hnil.symm
    exact h
  | cons e es ih =>
    obtain ⟨hk, _, hrest⟩ := hes
    constructor
    · intro hall
      have hfirst : Tracks (e.mask shift) (heldAfter held e) := hall [e] es rfl
      exact ⟨(tracks_step hk h).mp hfirst, (ih hrest hfirst).mp
        (fun es₁ es₂ hes => hall (e :: es₁) es₂ (congrArg _ hes))⟩
    · rintro ⟨halone, hall⟩ es₁ es₂ hsplit
      cases es₁ with
      | nil => exact h
      | cons e' es₁ =>
        obtain ⟨rfl, hes⟩ := List.cons.inj hsplit
        exact (ih hrest ((tracks_step hk h).mpr halone)).mpr hall es₁ es₂ hes

end Codes

/-- The next byte is decoded; whatever happens before that leaves the mask alone. -/
def Decodes (text : ConsoleTexts) (s : Console) (data : Byte) (s' : Console) : Prop :=
  ∃ s₁, s₁.shift = s.shift ∧ KeyReady s₁ data ∧ ∃ depth fuel c, Returns false (kbdProcData text depth fuel) s₁ c s'

theorem decodes_shift {bs : List Byte} (h : Trace (Decodes text) s bs s') :
    s'.shift = bs.foldl shiftAfter s.shift := by
  induction h with
  | nil s => rfl
  | cons head tail ih =>
    obtain ⟨s₁, hkeep, hk, depth, fuel, c, hr⟩ := head
    rw [ih, List.foldl_cons, kbdProcData_shift hk hr, hkeep]

theorem decodes_mask {es : List KeyEvent} (h : Trace (Decodes text) s (es.flatMap KeyEvent.bytes) s') :
    s'.shift = es.foldl KeyEvent.mask s.shift := by
  rw [decodes_shift h, List.foldl_flatMap]
  rfl

theorem kbdProcData_tracks_iff {held : Key → Bool} {es : List KeyEvent} (hstart : Tracks s.shift held)
    (hes : KeyStream held es)
    (hrun : Trace (Decodes text) s (es.flatMap KeyEvent.bytes) s') :
    (∀ es₁ es₂ s₁, es = es₁ ++ es₂ → Trace (Decodes text) s (es₁.flatMap KeyEvent.bytes) s₁ →
      Tracks s₁.shift (es₁.foldl heldAfter held)) ↔ AllReleasedAlone held es := by
  rw [← tracks_run hes hstart]
  constructor
  · rintro h es₁ es₂ rfl
    rw [List.flatMap_append] at hrun
    obtain ⟨s₁, hfirst, _⟩ := Trace.append_iff.mp hrun
    rw [← decodes_mask hfirst]
    exact h es₁ es₂ s₁ rfl hfirst
  · intro h es₁ es₂ s₁ hsplit hfirst
    rw [decodes_mask hfirst]
    exact h es₁ es₂ hsplit

def scanConsole (bs : List Byte) : Console :=
  { fullConsole with device := fun t p => if p = 0x64#16 then 0x01#8 else bs.getD (t / 2) 0#8 }

theorem decodes_eval {r : CInt} (hk : KeyReady s data) (h : (kbdProcData noTexts 0 0 s).returned = some (r, true)) :
    Decodes noTexts s data (kbdProcData noTexts 0 0 s).state := ⟨s, rfl, hk, 0, 0, r, .of_eval h⟩

theorem scanConsole_decodes {b : Byte} {r : CInt} (hb : b = 0x1E#8 ∧ r = chr 'A' ∨ b = 0x36#8 ∧ r = 0#32) :
    ∃ s', Trace (Decodes noTexts) (scanConsole [0x2A#8, b, 0xAA#8]) [0x2A#8, b, 0xAA#8] s' := by
  have hready : ∀ {s : Console} {data : Byte}, s.device s.clock 0x64#16 = 0x01#8 →
    s.device (s.clock + 1) 0x60#16 = data →
      KeyReady s data := fun hstat hdata => ⟨by rw [hstat]; decide, by rw [hstat]; decide, hdata⟩
  refine ⟨_, .cons (decodes_eval (r := 0#32) (hready ?_ ?_) ?_) (.cons (decodes_eval (r := r) (hready ?_ ?_) ?_)
    (.single (decodes_eval (r := 0#32) (hready ?_ ?_) ?_)))⟩
  all_goals rcases hb with ⟨rfl, rfl⟩ | ⟨rfl, rfl⟩ <;> decide +kernel

theorem scanConsole_tracks {bs : List Byte} : Tracks (scanConsole bs).shift (fun _ => false) := by
  change Tracks 0#32 _
  exact ⟨by decide, by decide, by decide, by decide⟩

def overlap (code : Byte) : List KeyEvent :=
  [⟨⟨false, 0x2A#8⟩, true⟩, ⟨⟨false, code⟩, true⟩, ⟨⟨false, 0x2A#8⟩, false⟩]

theorem kbdProcData_tracks_overlap :
    ∃ s', Trace (Decodes noTexts) (scanConsole [0x2A#8, 0x1E#8, 0xAA#8]) [0x2A#8, 0x1E#8, 0xAA#8] s' ∧
    Tracks s'.shift ((overlap 0x1E#8).foldl heldAfter (fun _ => false)) := by
  obtain ⟨s', hrun⟩ := scanConsole_decodes (Or.inl ⟨rfl, rfl⟩)
  have hes : KeyStream (fun _ => false) (overlap 0x1E#8) :=
    ⟨⟨by decide, by decide⟩, nofun, ⟨by decide, by decide⟩, nofun, ⟨by decide, by decide⟩, fun _ => by decide,
    trivial⟩
  have halone : AllReleasedAlone (fun _ => false) (overlap 0x1E#8) := ⟨nofun, nofun, fun _ => by decide, trivial⟩
  have hlaw := (kbdProcData_tracks_iff scanConsole_tracks hes hrun).mpr halone
  exact ⟨s', hrun, hlaw (overlap 0x1E#8) [] s' (List.append_nil _).symm hrun⟩

theorem not_kbdProcData_tracks : ¬ ∀ (text : ConsoleTexts) (s s' : Console) (held : Key → Bool) (es : List KeyEvent),
    Tracks s.shift held → KeyStream held es → Trace (Decodes text) s (es.flatMap KeyEvent.bytes) s' →
    Tracks s'.shift (es.foldl heldAfter held) := by
  intro h
  obtain ⟨s', hrun⟩ := scanConsole_decodes (Or.inr ⟨rfl, rfl⟩)
  have hes : KeyStream (fun _ => false) (overlap 0x36#8) :=
    ⟨⟨by decide, by decide⟩, nofun, ⟨by decide, by decide⟩, nofun, ⟨by decide, by decide⟩, fun _ => by decide,
    trivial⟩
  have hlaw := h noTexts _ s' _ (overlap 0x36#8) scanConsole_tracks hes hrun
  have hmask : s'.shift = (overlap 0x36#8).foldl KeyEvent.mask (scanConsole _).shift := decodes_mask hrun
  rw [hmask] at hlaw
  exact absurd hlaw.shiftHeld (by decide)

end Cezos
