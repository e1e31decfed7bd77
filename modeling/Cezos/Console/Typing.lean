import Cezos.Console.Controller

namespace Cezos

open Lib

structure Keyboard where
  held : Key → Bool
  caps : Bool

def swapCase (b : Byte) : Byte :=
  if key 'a' ≤ b ∧ b ≤ key 'z' then b - 0x20#8
  else if key 'A' ≤ b ∧ b ≤ key 'Z' then b + 0x20#8
  else b

namespace Keyboard

def shiftHeld (k : Keyboard) : Bool := k.held ⟨false, 0x2A#8⟩ || k.held ⟨false, 0x36#8⟩

def ctlHeld (k : Keyboard) : Bool := k.held ⟨false, 0x1D#8⟩ || k.held ⟨true, 0x1D#8⟩

def isCapsLock (k : Key) : Bool := decide (k = ⟨false, 0x3A#8⟩)

/-- Caps Lock changes when its key goes down. -/
def after (k : Keyboard) (e : KeyEvent) : Keyboard := ⟨heldAfter k.held e, k.caps ^^ (e.down && isCapsLock e.key)⟩

def character (k : Keyboard) (i : Byte) : Byte :=
  let c := if k.ctlHeld then ctlmap i else if k.shiftHeld then shiftmap i else normalmap i
  if k.caps then swapCase c else c

/-- What an event adds to the text: a key that goes down adds its character, if it has one. -/
def strikes (k : Keyboard) (e : KeyEvent) : List Byte :=
  if e.down ∧ (k.after e).character e.key.index ≠ 0#8 then [(k.after e).character e.key.index] else []

def types : Keyboard → List KeyEvent → List Byte
  | _, [] => []
  | k, e :: es => k.strikes e ++ types (k.after e) es

end Keyboard

/-- The decoder's mask shows the keys that are held, and Caps Lock. -/
structure Reflects (shift : Word) (k : Keyboard) : Prop where
  tracks : Tracks shift k.held
  caps : shift.getLsbD 3 = k.caps

variable {shift : Word} {k : Keyboard} {e : KeyEvent} {es : List KeyEvent} {i b : Byte}

namespace Reflects

theorem caps_codes : ∀ (ext : Bool) (code : Byte), 0x01#8 ≤ code → code ≤ 0x5F#8 →
    (shiftcode (Key.index ⟨ext, code⟩)).getLsbD 3 = false ∧
      (togglecode (Key.index ⟨ext, code⟩)).getLsbD 3 = Keyboard.isCapsLock ⟨ext, code⟩ := by
  decide +kernel

theorem step (h : Reflects shift k) (hk : e.key.Valid) (ha : ReleasedAlone k.held e) :
    Reflects (e.mask shift) (k.after e) := by
  refine ⟨(tracks_step hk h.tracks).mpr ha, ?_⟩
  obtain ⟨hcode, htoggle⟩ := caps_codes e.key.ext e.key.code hk.1 hk.2
  rw [mask_eq hk h.tracks.noEscape, Keyboard.after]
  cases e.down with
  | false =>
    rw [if_neg (by decide), BitVec.getLsbD_and, BitVec.getLsbD_not, hcode, h.caps]
    simp
  | true =>
    rw [if_pos rfl, BitVec.getLsbD_xor, BitVec.getLsbD_or, hcode, htoggle, h.caps]
    simp

theorem capsLocked_on : ∀ b : Byte, capsLocked capslock (b.setWidth 32) = (swapCase b).setWidth 32 := by
  decide +kernel

theorem capsLocked_eq (h : shift.getLsbD 3 = k.caps) (b : Byte) :
    capsLocked shift (b.setWidth 32) = (if k.caps then swapCase b else b).setWidth 32 := by
  have hcaps : shift &&& capslock = 0#32 ↔ k.caps = false := by
    rw [← Bool.not_eq_true, ← h, ← bit_iff (by decide), not_not]
    rfl
  cases hk : k.caps with
  | false =>
    rw [capsLocked, if_pos (hcaps.mpr hk)]
    rfl
  | true =>
    have hon : ¬ capslock &&& capslock = 0#32 := by decide
    rw [if_pos rfl, ← capsLocked_on, capsLocked, capsLocked, if_neg (by rw [hcaps, hk]; decide), if_neg hon]

theorem layer (shift : Word) : shift &&& (ctlKey ||| shiftKey) =
    (if shift.getLsbD 0 then 1#32 else 0#32) ||| (if shift.getLsbD 1 then 2#32 else 0#32) := by
  apply BitVec.eq_of_getLsbD_eq
  intro j hj
  have hkeys : (ctlKey ||| shiftKey : Word) = 3#32 := by decide
  rw [hkeys, BitVec.getLsbD_and, BitVec.getLsbD_or]
  by_cases h0 : j = 0
  · subst h0
    cases shift.getLsbD 0 <;> cases shift.getLsbD 1 <;> decide
  by_cases h1 : j = 1
  · subst h1
    cases shift.getLsbD 0 <;> cases shift.getLsbD 1 <;> decide
  · have hhigh : ∀ j < 32, j ≠ 0 → j ≠ 1 → (3#32 : Word).getLsbD j = false ∧ (1#32 : Word).getLsbD j = false ∧
        (2#32 : Word).getLsbD j = false ∧ (0#32 : Word).getLsbD j = false := by decide
    obtain ⟨h₃, h₁, h₂, hz⟩ := hhigh j hj h0 h1
    rw [h₃, Bool.and_false]
    cases shift.getLsbD 0 <;> cases shift.getLsbD 1 <;> simp [h₁, h₂]

theorem charcode_eq (h : Tracks shift k.held) : charcode (shift &&& (ctlKey ||| shiftKey)) i =
    if k.ctlHeld then ctlmap i else if k.shiftHeld then shiftmap i else normalmap i := by
  have hshift : shift.getLsbD 0 = k.shiftHeld := by
    rw [Bool.eq_iff_iff, ← bit_iff (by decide), Keyboard.shiftHeld, Bool.or_eq_true]
    exact h.shiftHeld
  have hctl : shift.getLsbD 1 = k.ctlHeld := by
    rw [Bool.eq_iff_iff, ← bit_iff (by decide), Keyboard.ctlHeld, Bool.or_eq_true]
    exact h.ctlHeld
  rw [layer, hshift, hctl]
  cases k.shiftHeld <;> cases k.ctlHeld <;> rfl

theorem pressed_eq (h : Reflects ((shift ||| shiftcode i) ^^^ togglecode i) k) :
    pressed shift i = (k.character i).setWidth 32 := by
  rw [pressed, charcode_eq h.tracks, capsLocked_eq h.caps, Keyboard.character]

theorem decoded_event (hk : e.key.Valid) (hesc : shift &&& e0esc = 0#32) : decoded shift e.bytes =
    if e.down ∧ pressed shift e.key.index ≠ 0#32 then [pressed shift e.key.index] else [] := by
  obtain ⟨⟨ext, code⟩, down⟩ := e
  obtain ⟨hne, hne', hlow, hhigh, _⟩ := code_bytes code hk.1 hk.2
  have hescape : shiftAfter shift 0xE0#8 = shift ||| e0esc := if_pos rfl
  have hprefix : scanned shift 0xE0#8 = 0#32 := if_pos rfl
  have hup : ∀ shift, scanned shift (code ||| 0x80#8) = 0#32 := fun _ => by rw [scanned, if_neg hne', if_pos hhigh]
  have hplain : scanned shift code = pressed shift code := by
    rw [scanned, if_neg hne, if_neg (not_not.mpr hlow), if_neg (not_not.mpr hesc)]
  have hext : scanned (shift ||| e0esc) code = pressed shift (code ||| 0x80#8) := by
    rw [scanned, if_neg hne, if_neg (not_not.mpr hlow), if_pos e0esc_set, e0esc_cleared hesc]
  cases ext <;> cases down
  · simp [KeyEvent.bytes, decoded, hup]
  · simp [KeyEvent.bytes, decoded, hplain, Key.index]
  · simp [KeyEvent.bytes, decoded, hprefix, hup]
  · simp [KeyEvent.bytes, decoded, hprefix, hescape, hext, Key.index]

theorem decoded_strikes (h : Reflects shift k) (hk : e.key.Valid) (ha : ReleasedAlone k.held e) :
    decoded shift e.bytes = (k.strikes e).map (·.setWidth 32) := by
  rw [decoded_event hk h.tracks.noEscape, Keyboard.strikes]
  cases hdown : e.down with
  | false => simp
  | true =>
    have hstep := h.step hk ha
    rw [mask_eq hk h.tracks.noEscape, hdown, if_pos rfl] at hstep
    have hzero : ∀ b : Byte, (b.setWidth 32 : CInt) = 0#32 ↔ b = 0#8 := by decide +kernel
    rw [pressed_eq hstep]
    by_cases hz : (k.after e).character e.key.index = 0#8
    · rw [if_neg (by simp [hz]), if_neg (by simp [hz])]
      rfl
    · rw [if_pos ⟨rfl, mt (hzero _).mp hz⟩, if_pos ⟨rfl, hz⟩]
      rfl

theorem decoded_types (h : Reflects shift k) (hes : KeyStream k.held es) (ha : AllReleasedAlone k.held es) :
    decoded shift (es.flatMap KeyEvent.bytes) = (k.types es).map (·.setWidth 32) ∧
      Reflects (es.foldl KeyEvent.mask shift) (es.foldl Keyboard.after k) := by
  induction es generalizing shift k with
  | nil => exact ⟨rfl, h⟩
  | cons e es ih =>
    obtain ⟨hk, _, hrest⟩ := hes
    obtain ⟨halone, hall⟩ := ha
    obtain ⟨htext, hfollows⟩ := ih (h.step hk halone) hrest hall
    refine ⟨?_, hfollows⟩
    rw [List.flatMap_cons, decoded_append, decoded_strikes h hk halone, Keyboard.types, List.map_append, ← htext]
    rfl

end Reflects

section Texts

variable {held : Key → Bool} {es' : List KeyEvent} {x : List Byte} {c : Byte}

theorem types_append : k.types (es ++ es') = k.types es ++ (es.foldl Keyboard.after k).types es' := by
  induction es generalizing k with
  | nil => rfl
  | cons e es ih => rw [List.cons_append, Keyboard.types, Keyboard.types, ih, List.append_assoc, List.foldl_cons]

theorem keyStream_append : KeyStream held (es ++ es') ↔ KeyStream held es ∧
    KeyStream (es.foldl heldAfter held) es' := by
  induction es generalizing held with
  | nil => exact (and_iff_right trivial).symm
  | cons e es ih =>
    rw [List.cons_append, KeyStream, KeyStream, ih, List.foldl_cons]
    simp only [and_assoc]

theorem allReleasedAlone_append :
    AllReleasedAlone held (es ++ es') ↔ AllReleasedAlone held es ∧
      AllReleasedAlone (es.foldl heldAfter held) es' := by
  induction es generalizing held with
  | nil => exact (and_iff_right trivial).symm
  | cons e es ih => rw [List.cons_append, AllReleasedAlone, AllReleasedAlone, ih, List.foldl_cons, and_assoc]

theorem held_after : (es.foldl Keyboard.after k).held = es.foldl heldAfter k.held := by
  induction es generalizing k with
  | nil => rfl
  | cons e es ih =>
    rw [List.foldl_cons, ih]
    rfl

def keyFor (c : Byte) : Option (Bool × Byte) :=
  let codes := (List.range 0x5A).map (BitVec.ofNat 8)
  match codes.find? (fun i => normalmap i = c) with
  | some i => some (false, i)
  | none => (codes.find? (fun i => shiftmap i = c)).map (fun i => (true, i))

def stroke (key : Key) : List KeyEvent := [⟨key, true⟩, ⟨key, false⟩]

def leftShift : Key := ⟨false, 0x2A#8⟩

def typing (c : Byte) : List KeyEvent :=
  match keyFor c with
  | none => []
  | some (false, i) => stroke ⟨false, i⟩
  | some (true, i) => ⟨leftShift, true⟩ :: stroke ⟨false, i⟩ ++ [⟨leftShift, false⟩]

def Typable (c : Byte) : Prop := (0x20#8 ≤ c ∧ c ≤ 0x7E#8) ∨ c = key '\x08' ∨ c = key '\t' ∨ c = key '\n'

instance : DecidablePred Typable := fun _ => inferInstanceAs (Decidable (_ ∨ _))

instance {key : Key} : Decidable key.Valid := inferInstanceAs (Decidable (_ ∧ _))

instance {held : Key → Bool} {e : KeyEvent} : Decidable (ReleasedAlone held e) := inferInstanceAs (Decidable (_ → _))

def decidableKeyStream : (held : Key → Bool) → (es : List KeyEvent) → Decidable (KeyStream held es)
  | _, [] => isTrue trivial
  | held, e :: es =>
    have := decidableKeyStream (heldAfter held e) es
    inferInstanceAs (Decidable (_ ∧ _ ∧ _))

def decidableAllReleasedAlone : (held : Key → Bool) → (es : List KeyEvent) → Decidable (AllReleasedAlone held es)
  | _, [] => isTrue trivial
  | held, e :: es =>
    have := decidableAllReleasedAlone (heldAfter held e) es
    inferInstanceAs (Decidable (_ ∧ _))

instance : Decidable (KeyStream held es) := decidableKeyStream held es

instance : Decidable (AllReleasedAlone held es) := decidableAllReleasedAlone held es

def idle (caps : Bool) : Keyboard := ⟨fun _ => false, caps⟩

theorem typing_types : ∀ c, Typable c → ∀ caps, (idle caps).types (typing c) = [if caps then swapCase c else c] ∧
    KeyStream (fun _ => false) (typing c) ∧ AllReleasedAlone (fun _ => false) (typing c) ∧
      ((typing c).foldl Keyboard.after (idle caps)).caps = caps := by
  decide +kernel

theorem typing_held (c : Byte) : (typing c).foldl heldAfter (fun _ => false) = fun _ => false := by
  funext j
  unfold typing
  split
  · rfl
  · simp [stroke, heldAfter]
  · next i _ =>
    by_cases hs : j = leftShift
    · simp [stroke, heldAfter, hs]
    · by_cases hi : j = ⟨false, i⟩
      · simp [stroke, heldAfter, hi, Function.update_apply]
      · simp [stroke, heldAfter, hs, hi]

theorem typing_idle (hc : Typable c) (caps : Bool) : (typing c).foldl Keyboard.after (idle caps) = idle caps := by
  have hheld := @held_after (idle caps) (typing c)
  have hcaps := (typing_types c hc caps).2.2.2
  have hrest : (idle caps).held = fun _ => false := rfl
  rw [hrest, typing_held] at hheld
  cases hk : (typing c).foldl Keyboard.after (idle caps)
  rw [hk] at hheld hcaps
  cases hheld
  cases hcaps
  rfl

theorem text_types (hx : ∀ c ∈ x, Typable c) (caps : Bool) :
    (idle caps).types (x.flatMap typing) = x.map (fun c => if caps then swapCase c else c) ∧
      KeyStream (fun _ => false) (x.flatMap typing) ∧ AllReleasedAlone (fun _ => false) (x.flatMap typing) := by
  induction x with
  | nil => exact ⟨rfl, trivial, trivial⟩
  | cons c x ih =>
    obtain ⟨hc, hx⟩ := List.forall_mem_cons.mp hx
    obtain ⟨htext, hstream, halone⟩ := ih hx
    obtain ⟨hone, hstream₁, halone₁, _⟩ := typing_types c hc caps
    rw [List.flatMap_cons, types_append, typing_idle hc, hone, htext, keyStream_append, allReleasedAlone_append,
      typing_held]
    exact ⟨rfl, ⟨hstream₁, hstream⟩, halone₁, halone⟩

end Texts

end Cezos
