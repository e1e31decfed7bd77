import Cezos.Lib.Ends
import Cezos.Stdio.Arithmetic
import Cezos.Stdio.StringField
import Cezos.Strings.Watched

namespace Cezos

open Lib

namespace IsCString

variable {mem : Bytes} {p : Word} {c : Byte} {x y : List Byte}

theorem cons (h : mem p = some c) (hc : c ≠ 0#8) (hx : IsCString mem (p + 1#32) x) : IsCString mem p (c :: x) :=
  ⟨⟨h, hx.holds⟩, fun hz => (List.mem_cons.mp hz).elim (fun he => hc he.symm) hx.no_nul⟩

theorem unique (hx : IsCString mem p x) (hy : IsCString mem p y) : x = y := by
  induction x generalizing p y with
  | nil =>
    cases y with
    | nil => rfl
    | cons b y => exact absurd (Option.some.inj (hy.head.symm.trans hx.nil)) hy.head_ne
  | cons a x ih =>
    cases y with
    | nil => exact absurd (Option.some.inj (hx.head.symm.trans hy.nil)) hx.head_ne
    | cons b y => rw [Option.some.inj (hx.head.symm.trans hy.head), ih hx.tail hy.tail]

end IsCString

namespace Strings

variable {st : Bool} {mem : Bytes} {w w' : Watched} {p q dst src size : Word} {c : Byte} {x y z : List Byte}
    {n k fuel : ℕ}
  {count v : CInt}

/-! ### `strlen` -/

def strlenFrom : ℕ → Word → CInt → Prog Watched CInt
  | 0, _, _ => Prog.spin
  | fuel + 1, p, count => do
    let c ← fetch p
    if c = 0#8 then return count
    else do
      let count ← signedAdd count 1#32
      strlenFrom fuel (p + 1#32) count

def strlen (fuel : ℕ) (s : Word) : Prog Watched CInt :=
  if s = 0#32 then return -1#32
  else strlenFrom fuel s 0#32

theorem add_succ_length (v : CInt) (n : ℕ) : v + 1#32 + BitVec.ofNat 32 n = v + BitVec.ofNat 32 (n + 1) := by
  rw [Nat.add_comm, BitVec.ofNat_add, BitVec.add_assoc]

theorem strlenFrom_iff : Returns st (strlenFrom fuel p count) w v w' ↔ ∃ x, IsCString w.mem p x ∧ x.length < fuel ∧
    (st = true → count.toInt + x.length < 2147483648) ∧ v = count + BitVec.ofNat 32 x.length ∧
    w' = { w with reads := w.reads ∪ span p (x.length + 1) } := by
  induction fuel generalizing p count w with
  | zero =>
    rw [strlenFrom]
    simp
  | succ fuel ih =>
    have hlow := count.le_toInt
    have hhigh := count.toInt_lt
    have hone : (1#32 : CInt).toInt = 1 := rfl
    have hadd := @toInt_add_eq count 1#32
    rw [strlenFrom, returns_bind]
    constructor
    · rintro ⟨c, w₁, hfetch, h⟩
      obtain ⟨hp, rfl⟩ := returns_fetch.mp hfetch
      rcases returns_ite.mp h with ⟨rfl, hret⟩ | ⟨hc, hrest⟩
      · obtain ⟨rfl, rfl⟩ := returns_pure.mp hret
        refine ⟨[], ⟨⟨hp, trivial⟩, List.not_mem_nil⟩, Nat.succ_pos fuel, fun _ => ?_, (BitVec.add_zero v).symm, ?_⟩
        · rw [List.length_nil]
          omega
        · rw [List.length_nil, span_succ (by omega), span_zero, BitVec.add_zero, Set.union_insert, Set.union_empty]
      · obtain ⟨_, _, hcount, hnext⟩ := returns_bind.mp hrest
        obtain ⟨⟨rfl, rfl⟩, hexact⟩ := returns_signed.mp hcount
        obtain ⟨x, hx, hlt, hfit, rfl, rfl⟩ := ih.mp hnext
        have hstring : IsCString w.mem p (c :: x) := IsCString.cons hp hc hx
        have hlen := hstring.length_lt
        rw [List.length_cons] at hlen
        refine ⟨c :: x, hstring, by rw [List.length_cons]; omega, fun hs => ?_, add_succ_length count x.length, ?_⟩
        · have hsum := hfit hs
          rw [hexact hs] at hsum
          rw [List.length_cons]
          omega
        · rw [List.length_cons, span_cons hlen, Set.union_insert, Set.insert_union]
    · rintro ⟨x, hx, hlt, hfit, rfl, rfl⟩
      cases x with
      | nil =>
        refine ⟨0#8, _, returns_fetch.mpr ⟨hx.nil, rfl⟩,
          returns_ite.mpr (Or.inl ⟨rfl, returns_pure.mpr ⟨BitVec.add_zero count, ?_⟩⟩)⟩
        rw [List.length_nil, span_succ (by omega), span_zero, BitVec.add_zero, Set.union_insert, Set.union_empty]
      | cons c x =>
        have hlen := hx.length_lt
        rw [List.length_cons] at hlt hlen hfit
        have hexact : st = true → (count + 1#32).toInt = count.toInt + 1 :=
          fun hs => hadd.mpr ⟨by omega, by have := hfit hs; omega⟩
        refine ⟨c, _, returns_fetch.mpr ⟨hx.head, rfl⟩, returns_ite.mpr (Or.inr ⟨hx.head_ne, returns_bind.mpr
          ⟨_, _, returns_signed.mpr ⟨⟨rfl, rfl⟩, hexact⟩, ih.mpr ⟨x, hx.tail, by omega, fun hs => ?_, ?_, ?_⟩⟩⟩)⟩
        · have hsum := hfit hs
          rw [hexact hs]
          omega
        · exact (add_succ_length count x.length).symm
        · rw [List.length_cons, span_cons hlen, Set.union_insert, Set.insert_union]

theorem strlen_iff (hp : p ≠ 0#32) : Returns st (strlen fuel p) w v w' ↔ ∃ x, IsCString w.mem p x ∧ x.length < fuel ∧
    (st = true → x.length < 2147483648) ∧ v = BitVec.ofNat 32 x.length ∧
    w' = { w with reads := w.reads ∪ span p (x.length + 1) } := by
  rw [strlen, if_neg hp, strlenFrom_iff]
  have hfit (x : List Byte) : (0#32 : CInt).toInt + x.length < 2147483648 ↔ x.length < 2147483648 := by
    change (0 : Int) + _ < _ ↔ _
    omega
  simp only [hfit, BitVec.zero_add]

/-! ### The copy loop -/

def copyFrom (more : Word → Bool) (next : Word → Prog Watched Word) (dst src : Word) : ℕ → Word → Prog Watched Word
  | 0, _ => Prog.spin
  | fuel + 1, i => do
    let c ← fetch (src + i)
    if c ≠ 0#8 ∧ more i = true then do
      let c ← fetch (src + i)
      put (dst + i) c
      let i ← next i
      copyFrom more next dst src fuel i
    else return i

/-- Copying up to index `n` never writes on a byte of `src` that is still to be read. -/
def Clear (dst src : Word) (n : ℕ) : Prop := (dst - src).toNat = 0 ∨ n < (dst - src).toNat

instance : Decidable (Clear dst src n) := inferInstanceAs (Decidable (_ ∨ _))

theorem Clear.source (h : Clear dst src n) (hn : n < 4294967296) {i : ℕ} (hik : i ≤ k) (hkn : k ≤ n) :
    src + BitVec.ofNat 32 k ∉ span dst i := by
  have hindex : src + BitVec.ofNat 32 k - dst = BitVec.ofNat 32 k - (dst - src) := by
    grind
  rw [mem_span, hindex, BitVec.toNat_sub, BitVec.toNat_ofNat]
  rcases h with hzero | hlt <;> omega

def copied (w : Watched) (dst src : Word) (x : List Byte) (i : ℕ) : Watched :=
  ⟨written w.mem dst (x.take i), w.reads ∪ span src i, w.writes ∪ span dst i⟩

theorem copied_mem {i : ℕ} : (copied w dst src x i).mem = written w.mem dst (x.take i) := rfl

theorem copied_zero : copied w dst src x 0 = w := by
  rw [copied, List.take_zero, written_nil, span_zero, span_zero, Set.union_empty, Set.union_empty]

theorem copied_succ {i : ℕ} (hx : x.length < 4294967296) (hi : i < x.length) : copied w dst src x (i + 1) =
    ⟨Function.update (written w.mem dst (x.take i)) (dst + BitVec.ofNat 32 i) (some x[i]),
      insert (src + BitVec.ofNat 32 i) (w.reads ∪ span src i), insert (dst + BitVec.ofNat 32 i)
        (w.writes ∪ span dst i)⟩ := by
  have hlen : (x.take i).length = i := by
    rw [List.length_take]
    omega
  have hwritten := @written_append w.mem dst (x.take i) (by omega) x[i]
  rw [hlen, List.take_append_getElem] at hwritten
  rw [copied, hwritten, span_succ (by omega), span_succ (by omega), Set.union_insert, Set.union_insert]

theorem copyFrom_returns {more : Word → Bool} {next : Word → Prog Watched Word} (hx : IsCString w.mem src x)
    (hclear : Clear dst src x.length) (hm : Mapped w.mem dst x.length)
    (hmore : ∀ k < x.length, more (BitVec.ofNat 32 k) = true)
    (hnext : ∀ k < x.length, ∀ w, Returns st (next (BitVec.ofNat 32 k)) w (BitVec.ofNat 32 (k + 1)) w)
    {i : ℕ} (hi : i ≤ x.length) (hf : x.length - i < fuel) :
    Returns st (copyFrom more next dst src fuel (BitVec.ofNat 32 i)) (copied w dst src x i)
      (BitVec.ofNat 32 x.length)
      { copied w dst src x x.length with reads := w.reads ∪ span src (x.length + 1) } := by
  have hlen := hx.length_lt
  have hsource : ∀ {i k}, i ≤ k → k ≤ x.length → (copied w dst src x i).mem (src + BitVec.ofNat 32 k) =
      w.mem (src + BitVec.ofNat 32 k) := by
    intro i k hik hkn
    apply written_outside
    rw [List.length_take, Nat.min_eq_left (by omega)]
    exact hclear.source hlen hik hkn
  obtain ⟨m, hm'⟩ : ∃ m, m = x.length - i := ⟨_, rfl⟩
  induction m generalizing i fuel with
  | zero =>
    obtain ⟨fuel, rfl⟩ : ∃ k, fuel = k + 1 := ⟨fuel - 1, by omega⟩
    obtain rfl : i = x.length := by omega
    rw [copyFrom]
    refine returns_bind.mpr ⟨0#8, _, returns_fetch.mpr ⟨?_, rfl⟩,
      returns_ite.mpr (Or.inr ⟨by simp, returns_pure.mpr ⟨rfl, ?_⟩⟩)⟩
    · rw [hsource (Nat.le_refl _) (Nat.le_refl _)]
      exact (holds_append.mp hx.holds).2.1
    · rw [span_succ hlen, Set.union_insert]
      rfl
  | succ m ih =>
    obtain ⟨fuel, rfl⟩ : ∃ k, fuel = k + 1 := ⟨fuel - 1, by omega⟩
    have hlt : i < x.length := by omega
    have hchar : w.mem (src + BitVec.ofNat 32 i) = some x[i] := (holds_append.mp hx.holds).1.get hlt
    have hne : x[i] ≠ 0#8 := fun hz => hx.no_nul (hz ▸ List.getElem_mem hlt)
    have hroom : ((copied w dst src x i).mem (dst + BitVec.ofNat 32 i)).isSome := by
      have hout : dst + BitVec.ofNat 32 i ∉ span dst (x.take i).length := by
        rw [List.length_take, Nat.min_eq_left (by omega), offset_mem_span (by omega)]
        omega
      rw [copied_mem, written_outside hout]
      exact hm i hlt
    have hread := hsource (Nat.le_refl i) hi
    rw [hchar] at hread
    have hstep := ih (show i + 1 ≤ x.length by omega) (show x.length - (i + 1) < fuel by omega) (by omega)
    rw [copied_succ hlen hlt] at hstep
    rw [copyFrom]
    refine returns_bind.mpr ⟨x[i], _, returns_fetch.mpr ⟨hread, rfl⟩,
      returns_ite.mpr (Or.inl ⟨⟨hne, hmore i hlt⟩, ?_⟩)⟩
    refine returns_bind.mpr ⟨x[i], _, returns_fetch.mpr ⟨?_, rfl⟩,
      returns_bind.mpr ⟨(), _, returns_put.mpr ⟨?_, rfl⟩, ?_⟩⟩
    · exact hread
    · exact Option.isSome_iff_exists.mp hroom
    · refine returns_bind.mpr ⟨_, _, hnext i hlt _, ?_⟩
      rw [Set.insert_idem]
      exact hstep

theorem copy_returns {more : Word → Bool} {next : Word → Prog Watched Word} (hx : IsCString w.mem src x)
    (hclear : Clear dst src x.length) (hm : Mapped w.mem dst x.length)
    (hmore : ∀ k < x.length, more (BitVec.ofNat 32 k) = true)
    (hnext : ∀ k < x.length, ∀ w, Returns st (next (BitVec.ofNat 32 k)) w (BitVec.ofNat 32 (k + 1)) w)
    (hf : x.length < fuel) :
    Returns st (copyFrom more next dst src fuel 0#32) w (BitVec.ofNat 32 x.length)
      ⟨written w.mem dst x, w.reads ∪ span src (x.length + 1), w.writes ∪ span dst x.length⟩ := by
  have h := copyFrom_returns hx hclear hm hmore hnext (Nat.zero_le _) hf
  rwa [copied_zero, copied, List.take_length] at h

theorem terminate_returns {reads writes : Set Word} (hx : x.length < 4294967296)
    (hm : (mem (dst + BitVec.ofNat 32 x.length)).isSome) :
    Returns st (put (dst + BitVec.ofNat 32 x.length) 0#8) ⟨written mem dst x, reads, writes ∪ span dst x.length⟩ ()
      ⟨written mem dst (x ++ [0#8]), reads, writes ∪ span dst (x.length + 1)⟩ := by
  apply returns_put.mpr
  constructor
  · have hout : dst + BitVec.ofNat 32 x.length ∉ span dst x.length := by
      rw [offset_mem_span hx]
      omega
    apply Option.isSome_iff_exists.mp
    change (written mem dst x _).isSome
    rw [written_outside hout]
    exact hm
  · rw [← written_append hx, span_succ hx, Set.union_insert]

/-! ### `strcat` -/

/-- `i` is what the outer variable `i` holds on entry; the loop counts with one of its own. -/
def strcat (fuel : ℕ) (i : Word) (dst src : Word) : Prog Watched Word := do
  let len ← strlen fuel dst
  let _ ← copyFrom (fun _ => true) (fun i => signedAdd i 1#32) (dst + len) src fuel 0#32
  put (dst + len + i) 0#8
  return dst

def Concatenates (mem : Bytes) (i dst src : Word) (x y : List Byte) : Prop :=
  ∃ w, EndsAs false (fun fuel => strcat fuel i dst src) (watch mem) dst w ∧ IsCString w.mem dst (x ++ y) ∧
    ∀ p, p ∉ span dst (x.length + y.length + 1) → w.mem p = mem p

def Separate (dst src : Word) (x y : List Byte) : Prop :=
  ∀ p, p ∈ span dst (x.length + y.length + 1) → p ∉ span src (y.length + 1)

theorem Separate.clear (h : Separate dst src x y) (hx : x.length < 4294967296) :
    Clear (dst + BitVec.ofNat 32 x.length) src y.length := by
  right
  by_contra hle
  apply h (dst + BitVec.ofNat 32 x.length)
  · rw [offset_mem_span hx]
    omega
  · rw [mem_span]
    omega

theorem append_mapped (hm : Mapped mem dst (x.length + y.length + 1)) :
    Mapped mem (dst + BitVec.ofNat 32 x.length) (y.length + 1) := by
  intro k hk
  have hbyte := hm (x.length + k) (by omega)
  rwa [BitVec.ofNat_add, ← BitVec.add_assoc] at hbyte

theorem strcat_run {i r : Word} (hd : dst ≠ 0#32) (hx : IsCString mem dst x) (hy : IsCString mem src y)
    (hsep : Separate dst src x y)
    (hm : Mapped mem dst (x.length + y.length + 1)) (hf : x.length < fuel) (hf' : y.length < fuel) :
    Returns false (strcat fuel i dst src) (watch mem) r w ↔
      r = dst ∧ (∃ b, written mem (dst + BitVec.ofNat 32 x.length) y (dst + BitVec.ofNat 32 x.length + i) = some b) ∧
        w = ⟨Function.update (written mem (dst + BitVec.ofNat 32 x.length) y)
          (dst + BitVec.ofNat 32 x.length + i) (some 0#8),
          ∅ ∪ span dst (x.length + 1) ∪ span src (y.length + 1),
          insert (dst + BitVec.ofNat 32 x.length + i) (∅ ∪ span (dst + BitVec.ofNat 32 x.length) y.length)⟩ := by
  have hlen : Returns false (strlen fuel dst) (watch mem) (BitVec.ofNat 32 x.length)
      { watch mem with reads := ∅ ∪ span dst (x.length + 1) } :=
    (strlen_iff hd).mpr ⟨x, hx, hf, by simp, rfl, rfl⟩
  have hcopy := @copy_returns false { watch mem with reads := ∅ ∪ span dst (x.length + 1) }
    (dst + BitVec.ofNat 32 x.length) src y
    fuel (fun _ => true) (fun i => signedAdd i 1#32) hy (hsep.clear hx.length_lt)
      (fun k hk => append_mapped hm k (by omega))
    (fun _ _ => rfl) (fun k _ w => returns_signed.mpr ⟨⟨BitVec.ofNat_add k 1, rfl⟩, by simp⟩) hf'
  constructor
  · intro h
    obtain ⟨len, w₁, hstrlen, hrest⟩ := returns_bind.mp h
    obtain ⟨rfl, rfl⟩ := hstrlen.unique hlen
    obtain ⟨_, w₂, hloop, hlast⟩ := returns_bind.mp hrest
    obtain ⟨_, rfl⟩ := hloop.unique hcopy
    obtain ⟨_, w₃, hput, hret⟩ := returns_bind.mp hlast
    obtain ⟨hmapped, rfl⟩ := returns_put.mp hput
    obtain ⟨rfl, rfl⟩ := returns_pure.mp hret
    exact ⟨rfl, hmapped, rfl⟩
  · rintro ⟨rfl, hmapped, rfl⟩
    exact returns_bind.mpr ⟨_, _, hlen, returns_bind.mpr ⟨_, _, hcopy, returns_bind.mpr
      ⟨(), _, returns_put.mpr ⟨hmapped, rfl⟩, returns_pure.mpr ⟨rfl, rfl⟩⟩⟩⟩

theorem Separate.room (h : Separate dst src x y) : x.length + y.length + 1 < 4294967296 := by
  by_contra hle
  have hlt := (src - dst).isLt
  apply h src
  · rw [mem_span]
    omega
  · rw [mem_span, BitVec.sub_self]
    exact Nat.succ_pos _

theorem before_span (hk : k < x.length) (hn : x.length + n ≤ 4294967296) :
    dst + BitVec.ofNat 32 k ∉ span (dst + BitVec.ofNat 32 x.length) n := by
  have hindex : dst + BitVec.ofNat 32 k - (dst + BitVec.ofNat 32 x.length) = BitVec.ofNat 32 k -
    BitVec.ofNat 32 x.length := by
    grind
  rw [mem_span, hindex, BitVec.toNat_sub, BitVec.toNat_ofNat, BitVec.toNat_ofNat]
  omega

theorem span_behind (hn : x.length + n ≤ 4294967296) :
    span (dst + BitVec.ofNat 32 x.length) n ⊆ span dst (x.length + n) := by
  intro p hp
  obtain ⟨k, hk, rfl⟩ := (mem_span_iff (by omega)).mp hp
  rw [BitVec.add_assoc, ← BitVec.ofNat_add, offset_mem_span (by omega)]
  omega

theorem appended {mem' : Bytes} (hx : IsCString mem dst x) (hroom : x.length + y.length + 1 < 4294967296)
    (hy : IsCString mem' (dst + BitVec.ofNat 32 x.length) y)
    (hrest : ∀ p, p ∉ span (dst + BitVec.ofNat 32 x.length) (y.length + 1) → mem' p = mem p) :
    IsCString mem' dst (x ++ y) ∧ ∀ p, p ∉ span dst (x.length + y.length + 1) → mem' p = mem p := by
  have hold : Holds mem' dst x := holds_of_get (fun k hk => by
    rw [hrest _ (before_span hk (by omega)), (holds_append.mp hx.holds).1.get hk, List.getElem?_eq_getElem hk])
  refine ⟨⟨?_, fun hz => (List.mem_append.mp hz).elim hx.no_nul hy.no_nul⟩, fun p hp => hrest p (fun hin => hp ?_)⟩
  · rw [List.append_assoc, holds_append]
    exact ⟨hold, hy.holds⟩
  · rw [Nat.add_assoc]
    exact span_behind (by omega) hin

theorem cleared_where {i : Word} (hroom : x.length + y.length + 1 < 4294967296)
    (hstring : IsCString
    (Function.update (written mem (dst + BitVec.ofNat 32 x.length) y) (dst + BitVec.ofNat 32 x.length + i)
    (some 0#8))
      dst (x ++ y))
    (hframe : ∀ p, p ∉ span dst (x.length + y.length + 1) →
      Function.update (written mem (dst + BitVec.ofNat 32 x.length) y) (dst + BitVec.ofNat 32 x.length + i)
        (some 0#8) p = mem p) :
    i.toNat = y.length ∨ (y.length < i.toNat ∧
      mem (dst + BitVec.ofNat 32 (x.length + y.length)) = some 0#8 ∧ mem (dst + BitVec.ofNat 32 x.length + i) =
        some 0#8) := by
  have hlast : dst + BitVec.ofNat 32 (x.length + y.length) = dst + BitVec.ofNat 32 x.length +
    BitVec.ofNat 32 y.length := by
    rw [BitVec.ofNat_add, BitVec.add_assoc]
  have hbehind : dst + BitVec.ofNat 32 x.length +
    BitVec.ofNat 32 y.length ∉ span (dst + BitVec.ofNat 32 x.length) y.length := by
    rw [offset_mem_span (by omega)]
    omega
  have hcleared : Function.update (written mem (dst + BitVec.ofNat 32 x.length) y)
    (dst + BitVec.ofNat 32 x.length + i) (some 0#8)
      (dst + BitVec.ofNat 32 x.length + i) = some 0#8 := Function.update_self _ _ _
  have hnul := (holds_append.mp hstring.holds).2.1
  -- no character of the result stands where the byte is cleared
  have hchar : ∀ k, k < (x ++ y).length → dst + BitVec.ofNat 32 x.length + i ≠ dst + BitVec.ofNat 32 k := by
    intro k hk hslot'
    have hget := (holds_append.mp hstring.holds).1.get hk
    rw [← hslot', hcleared] at hget
    exact hstring.no_nul (Option.some.inj hget ▸ List.getElem_mem hk)
  have hat : ∀ k, i = BitVec.ofNat 32 k → dst + BitVec.ofNat 32 x.length + i = dst +
    BitVec.ofNat 32 (x.length + k) := by
    rintro k rfl
    rw [BitVec.ofNat_add, BitVec.add_assoc]
  rw [List.length_append] at hchar hnul
  rcases Nat.lt_trichotomy i.toNat y.length with hlt | heq | hgt
  · have hi : i = BitVec.ofNat 32 i.toNat := by rw [BitVec.ofNat_toNat, BitVec.setWidth_eq]
    exact absurd (hat _ hi) (hchar _ (by omega))
  · exact Or.inl heq
  · have hne : dst + BitVec.ofNat 32 (x.length + y.length) ≠ dst + BitVec.ofNat 32 x.length + i := by
      rw [hlast]
      intro he
      have hi := (BitVec.add_right_inj _).mp he
      rw [← hi, BitVec.toNat_ofNat] at hgt
      omega
    rw [Function.update_of_ne hne, hlast, written_outside hbehind, ← hlast] at hnul
    refine Or.inr ⟨hgt, hnul, ?_⟩
    rw [← hcleared, eq_comm]
    apply hframe
    intro hin
    obtain ⟨k, hk, hkat⟩ := (mem_span_iff (by omega)).mp hin
    have hk' : x.length + y.length ≤ k := by
      by_contra hlt
      exact hchar k (by omega) hkat
    obtain rfl : k = x.length + y.length := by omega
    exact hne hkat.symm

theorem Concatenates.slot {i : Word} (hd : dst ≠ 0#32) (hx : IsCString mem dst x) (hy : IsCString mem src y)
    (hsep : Separate dst src x y) (hm : Mapped mem dst (x.length + y.length + 1))
    (h : Concatenates mem i dst src x y) :
    i.toNat = y.length ∨ (y.length < i.toNat ∧
      mem (dst + BitVec.ofNat 32 (x.length + y.length)) = some 0#8 ∧ mem (dst + BitVec.ofNat 32 x.length + i) =
        some 0#8) := by
  obtain ⟨w, ⟨N, hrun⟩, hstring, hframe⟩ := h
  have hfuel : x.length < max N (x.length + y.length + 1) := by omega
  obtain ⟨_, _, rfl⟩ := (strcat_run hd hx hy hsep hm hfuel (by omega)).mp (hrun _ (Nat.le_max_left _ _))
  exact cleared_where hsep.room hstring hframe

theorem strcat_concatenates_iff {i : Word} (hd : dst ≠ 0#32) (hx : IsCString mem dst x) (hy : IsCString mem src y)
    (hsep : Separate dst src x y) (hm : Mapped mem dst (x.length + y.length + 1)) :
    Concatenates mem i dst src x y ↔ i.toNat = y.length ∨ (y.length < i.toNat ∧
      mem (dst + BitVec.ofNat 32 (x.length + y.length)) = some 0#8 ∧ mem (dst + BitVec.ofNat 32 x.length + i) =
        some 0#8) := by
  have hroom := hsep.room
  have hlast : dst + BitVec.ofNat 32 (x.length + y.length) = dst + BitVec.ofNat 32 x.length +
    BitVec.ofNat 32 y.length := by
    rw [BitVec.ofNat_add, BitVec.add_assoc]
  have hslot : (dst + BitVec.ofNat 32 x.length + i - (dst + BitVec.ofNat 32 x.length)).toNat = i.toNat := by
    rw [BitVec.add_comm, BitVec.add_sub_cancel]
  have hbehind : dst + BitVec.ofNat 32 x.length +
    BitVec.ofNat 32 y.length ∉ span (dst + BitVec.ofNat 32 x.length) y.length := by
    rw [offset_mem_span (by omega)]
    omega
  refine ⟨Concatenates.slot hd hx hy hsep hm, fun h => ?_⟩
  have hstart : ∀ fuel, x.length + y.length + 1 ≤ fuel → x.length < fuel ∧ y.length < fuel :=
    fun fuel hf => ⟨by omega, by omega⟩
  rcases h with heq | ⟨hlt, hnul, hzero⟩
  · -- the byte cleared is the one behind the copy
    obtain rfl : i = BitVec.ofNat 32 y.length := by
      rw [← heq, BitVec.ofNat_toNat, BitVec.setWidth_eq]
    have hbyte := append_mapped hm y.length (Nat.lt_succ_self _)
    refine ⟨_,
      ⟨x.length + y.length + 1, fun fuel hf =>
      (strcat_run hd hx hy hsep hm (hstart fuel hf).1 (hstart fuel hf).2).mpr
      ⟨rfl, ?_, rfl⟩⟩, ?_⟩
    · rw [written_outside hbehind]
      exact Option.isSome_iff_exists.mp hbyte
    · rw [← written_append (by omega)]
      apply appended hx hroom ⟨written_holds (by rw [List.length_append, List.length_singleton]; omega), hy.no_nul⟩
      intro p hp
      apply written_outside
      rwa [List.length_append, List.length_singleton]
  · -- the byte cleared lies elsewhere and is zero already
    have hout : dst + BitVec.ofNat 32 x.length + i ∉ span (dst + BitVec.ofNat 32 x.length) y.length := by
      rw [mem_span, hslot]
      omega
    have hsame : written mem (dst + BitVec.ofNat 32 x.length) y (dst + BitVec.ofNat 32 x.length + i) = some 0#8 := by
      rw [written_outside hout, hzero]
    refine ⟨_,
      ⟨x.length + y.length + 1, fun fuel hf =>
      (strcat_run hd hx hy hsep hm (hstart fuel hf).1 (hstart fuel hf).2).mpr
      ⟨rfl, ⟨_, hsame⟩, rfl⟩⟩, ?_⟩
    rw [← hsame, Function.update_eq_self]
    apply appended hx hroom ⟨holds_append.mpr ⟨written_holds (by omega), ?_, trivial⟩, hy.no_nul⟩
    · exact fun p hp => written_outside (fun hin => hp (span_mono (Nat.le_succ _) hin))
    · rw [written_outside hbehind, ← hlast, hnul]

def twoWords : Bytes := image [0#8, 0x41#8, 0#8, 0#8, 0#8, 0x42#8, 0#8]

theorem twoWords_first : IsCString twoWords 1#32 [0x41#8] := ⟨by decide, by decide⟩

theorem twoWords_second : IsCString twoWords 5#32 [0x42#8] := ⟨by decide, by decide⟩

theorem twoWords_separate : Separate 1#32 5#32 [0x41#8] [0x42#8] := by
  intro p hp
  obtain ⟨k, hk, rfl⟩ := (mem_span_iff (by decide)).mp hp
  have hout : ∀ k < 3, 1#32 + BitVec.ofNat 32 k ∉ span 5#32 2 := by decide
  exact hout k hk

theorem strcat_concatenates_two : Concatenates twoWords 1#32 1#32 5#32 [0x41#8] [0x42#8] :=
  (strcat_concatenates_iff (by decide) twoWords_first twoWords_second twoWords_separate (by decide)).mpr (Or.inl rfl)

theorem not_strcat_concatenates : ¬ ∀ (mem : Bytes) (i dst src : Word) (x y : List Byte), dst ≠ 0#32 →
    IsCString mem dst x →
    IsCString mem src y → Separate dst src x y → Mapped mem dst (x.length + y.length + 1) →
      Concatenates mem i dst src x y := by
  intro h
  have hroom : Mapped twoWords 1#32 3 := by decide
  have hjoined := h twoWords 0#32 1#32 5#32 _ _ (by decide) twoWords_first twoWords_second twoWords_separate hroom
  rcases hjoined.slot (by decide) twoWords_first twoWords_second twoWords_separate hroom with heq | ⟨hlt, _⟩
  · exact absurd heq (by decide)
  · exact absurd hlt (by decide)

/-! ### `strncpy` -/

def strncpy (fuel : ℕ) (dst src size : Word) : Prog Watched Word := do
  let i ← copyFrom (fun i => decide (i < size)) (fun i => return i + 1#32) dst src fuel 0#32
  put (dst + i) 0#8
  return dst

theorem copyFrom_overruns {I : ℕ → Bytes → Prop} {i : ℕ} {r : Word}
    (hread : ∀ i m, i < size.toNat → I i m → m (src + BitVec.ofNat 32 i) ≠ some 0#8)
    (hstep : ∀ i m c, i < size.toNat → I i m → c ≠ 0#8 →
    I (i + 1) (Function.update m (dst + BitVec.ofNat 32 i) (some c)))
    (hi : i ≤ size.toNat) (hinv : I i w.mem)
    (h : Returns false
    (copyFrom (fun i => decide (i < size)) (fun i => return i + 1#32) dst src fuel (BitVec.ofNat 32 i)) w r w') :
    src + size ∈ w'.reads := by
  have hsize := size.isLt
  induction fuel generalizing i w with
  | zero => exact absurd h returns_spin
  | succ fuel ih =>
    obtain ⟨c, w₁, hfetch, hrest⟩ := returns_bind.mp h
    obtain ⟨hc, rfl⟩ := returns_fetch.mp hfetch
    have hmore : decide ((BitVec.ofNat 32 i : Word) < size) = true ↔ i < size.toNat := by
      rw [decide_eq_true_iff, BitVec.lt_def, BitVec.toNat_ofNat, Nat.mod_eq_of_lt (by omega)]
    rcases returns_ite.mp hrest with ⟨⟨hne, hlt⟩, hbody⟩ | ⟨hstop, hret⟩
    · obtain ⟨c', w₂, hfetch', hput⟩ := returns_bind.mp hbody
      obtain ⟨hc', rfl⟩ := returns_fetch.mp hfetch'
      obtain rfl : c = c' := Option.some.inj (hc.symm.trans hc')
      obtain ⟨_, w₃, hstore, hloop⟩ := returns_bind.mp hput
      obtain ⟨_, rfl⟩ := returns_put.mp hstore
      obtain ⟨_, w₄, hcount, hnext⟩ := returns_bind.mp hloop
      obtain ⟨rfl, rfl⟩ := returns_pure.mp hcount
      rw [hmore] at hlt
      rw [← BitVec.ofNat_add] at hnext
      exact ih hlt (hstep i _ c hlt hinv hne) hnext
    · obtain ⟨rfl, rfl⟩ := returns_pure.mp hret
      rw [hmore] at hstop
      have hbound : i = size.toNat := by
        by_contra hne
        exact hstop ⟨fun hz => hread i _ (by omega) hinv (hz ▸ hc), by omega⟩
      rw [hbound, BitVec.ofNat_toNat, BitVec.setWidth_eq]
      exact Set.mem_insert _ _

/-- `x` is what stands at `p` up to the NUL, or up to the bound where there is none before it. -/
structure Upto (mem : Bytes) (p size : Word) (x : List Byte) : Prop where
  holds : Holds mem p x
  no_nul : 0#8 ∉ x
  ends : x.length = size.toNat ∨ (x.length < size.toNat ∧ mem (p + BitVec.ofNat 32 x.length) = some 0#8)

theorem upto_take (h : IsCString mem p x) (size : Word) : Upto mem p size (x.take size.toNat) := by
  have hh := holds_append.mp h.holds
  have hholds := hh.1
  rw [← List.take_append_drop size.toNat x, holds_append] at hholds
  refine ⟨hholds.1, fun hz => h.no_nul (List.mem_of_mem_take hz), ?_⟩
  rw [List.length_take]
  by_cases hlt : x.length < size.toNat
  · right
    rw [Nat.min_eq_right (Nat.le_of_lt hlt)]
    exact ⟨hlt, hh.2.1⟩
  · left
    omega

theorem Upto.string (h : Upto mem p size x) (hlt : x.length < size.toNat) : IsCString mem p x := by
  refine ⟨holds_append.mpr ⟨h.holds, ?_, trivial⟩, h.no_nul⟩
  rcases h.ends with heq | ⟨_, hnul⟩
  · omega
  · exact hnul

theorem Upto.char (h : Upto mem p size x) (hk : k < x.length) : mem (p + BitVec.ofNat 32 k) ≠ some 0#8 := by
  rw [h.holds.get hk]
  intro hz
  exact h.no_nul (Option.some.inj hz ▸ List.getElem_mem hk)

def CopiesWithin (mem : Bytes) (dst src size : Word) (x : List Byte) : Prop :=
  ∃ w, Ends (fun fuel => strncpy fuel dst src size) (watch mem) dst w ∧ Holds w.mem dst x ∧
    w.writes ⊆ span dst size.toNat ∧ w.reads ⊆ span src size.toNat ∧ ∀ p, p ∉ span dst size.toNat → w.mem p = mem p

theorem strncpy_overruns {dst' : Word} (hx : Upto mem src size x) (hbad : x.length = size.toNat ∨
    ¬ Clear dst src x.length)
    (h : Returns false (strncpy fuel dst src size) (watch mem) dst' w) : src + size ∈ w.reads := by
  obtain ⟨i, w₁, hloop, hrest⟩ := returns_bind.mp h
  obtain ⟨_, w₂, hput, hret⟩ := returns_bind.mp hrest
  obtain ⟨_, rfl⟩ := returns_put.mp hput
  obtain ⟨_, rfl⟩ := returns_pure.mp hret
  by_cases hend : x.length = size.toNat
  · -- the bytes up to the bound are no NUL, and none is ever written
    apply copyFrom_overruns (I := fun i m => ∀ j, i ≤ j → j < size.toNat →
      m (src + BitVec.ofNat 32 j) ≠ some 0#8) _ _
      (Nat.zero_le _) _ hloop
    · exact fun i m hi hinv => hinv i (Nat.le_refl i) hi
    · intro i m c hi hinv hc j hij hj
      by_cases hp : src + BitVec.ofNat 32 j = dst + BitVec.ofNat 32 i
      · rw [hp, Function.update_self]
        exact fun hz => hc (Option.some.inj hz)
      · rw [Function.update_of_ne hp]
        exact hinv j (by omega) hj
    · exact fun j _ hj => hx.char (by omega)
  · -- byte `i` is written `dst - src` places further on, where the NUL stood too
    have hclear := hbad.resolve_left hend
    rw [Clear, not_or, Nat.not_lt] at hclear
    have hdst : ∀ i, dst + BitVec.ofNat 32 i = src + BitVec.ofNat 32 (i + (dst - src).toNat) := by
      intro i
      rw [BitVec.ofNat_add, BitVec.ofNat_toNat, BitVec.setWidth_eq]
      grind
    apply copyFrom_overruns
      (I := fun i m => ∀ j, i ≤ j → j < i + (dst - src).toNat → j < size.toNat →
      m (src + BitVec.ofNat 32 j) ≠ some 0#8) _ _
      (Nat.zero_le _) _ hloop
    · exact fun i m hi hinv => hinv i (Nat.le_refl i) (by omega) hi
    · intro i m c hi hinv hc j hij hjd hj
      by_cases hp : src + BitVec.ofNat 32 j = dst + BitVec.ofNat 32 i
      · rw [hp, Function.update_self]
        exact fun hz => hc (Option.some.inj hz)
      · rw [Function.update_of_ne hp]
        have hne : j ≠ i + (dst - src).toNat := fun he => hp (by rw [hdst, he])
        exact hinv j (by omega) (by omega) hj
    · exact fun j _ hjd _ => hx.char (by omega)

theorem strncpy_returns (hx : IsCString mem src x) (hclear : Clear dst src x.length)
    (hm : Mapped mem dst (x.length + 1))
    (hlt : x.length < size.toNat) (hf : x.length < fuel) : Returns true (strncpy fuel dst src size) (watch mem) dst
      ⟨written mem dst (x ++ [0#8]), ∅ ∪ span src (x.length + 1), ∅ ∪ span dst (x.length + 1)⟩ := by
  have hlen := hx.length_lt
  refine returns_bind.mpr ⟨_, _, copy_returns hx hclear (fun k hk => hm k (by omega)) (fun k hk => ?_)
    (fun k hk w => ?_) hf,
    returns_bind.mpr ⟨(), _, terminate_returns hlen (hm x.length (by omega)), returns_pure.mpr ⟨rfl, rfl⟩⟩⟩
  · rw [decide_eq_true_iff, BitVec.lt_def, BitVec.toNat_ofNat, Nat.mod_eq_of_lt (by omega)]
    omega
  · rw [BitVec.ofNat_add]
    exact returns_pure.mpr ⟨rfl, rfl⟩

theorem strncpy_bounded_iff (hx : Upto mem src size x) (hm : Mapped mem dst size.toNat) :
    CopiesWithin mem dst src size x ↔ x.length < size.toNat ∧ Clear dst src x.length := by
  have hsize := size.isLt
  have hsrc : (src + size - src).toNat = size.toNat := by
    rw [BitVec.add_comm, BitVec.add_sub_cancel]
  constructor
  · rintro ⟨w, ⟨N, hN⟩, _, _, hreads, _⟩
    have hover : src + size ∉ w.reads := fun hmem => by
      have hin := mem_span.mp (hreads hmem)
      omega
    have hgood := mt (fun hbad => strncpy_overruns hx hbad (hN N (Nat.le_refl N)).loosen) hover
    rw [not_or, not_not] at hgood
    refine ⟨?_, hgood.2⟩
    rcases hx.ends with heq | ⟨hlt, _⟩
    · exact absurd heq hgood.1
    · exact hlt
  · rintro ⟨hlt, hclear⟩
    have hrun := fun fuel => @strncpy_returns mem dst src size x fuel (hx.string hlt) hclear
      (fun k hk => hm k (by omega)) hlt
    have hwritten := @written_holds mem dst (x ++ [0#8]) (by rw [List.length_append, List.length_singleton]; omega)
    refine ⟨_, ⟨x.length + 1, fun fuel hf => hrun fuel (by omega)⟩, (holds_append.mp hwritten).1, ?_, ?_,
      fun p hp => ?_⟩
    · apply Set.union_subset (Set.empty_subset _)
      exact span_mono hlt
    · apply Set.union_subset (Set.empty_subset _)
      exact span_mono hlt
    · apply written_outside
      rw [List.length_append, List.length_singleton]
      exact fun hin => hp (span_mono hlt hin)

/-! ### `strnlen` -/

/-- `len > (int)size ? (int)size : len` -/
def strnlen (fuel : ℕ) (s size : Word) : Prog Watched CInt :=
  if s = 0#32 then return -1#32
  else do
    let len ← strlen fuel s
    return if size.toInt < len.toInt then size else len

def CountsWithin (mem : Bytes) (s size : Word) (x : List Byte) : Prop :=
  ∃ v w, Ends (fun fuel => strnlen fuel s size) (watch mem) v w ∧ v.toInt = x.length ∧ w.reads ⊆ span s size.toNat

theorem strnlen_iff (hp : p ≠ 0#32) : Returns st (strnlen fuel p size) w v w' ↔ ∃ x, IsCString w.mem p x ∧
    x.length < fuel ∧
    (st = true → x.length < 2147483648) ∧
    v = (if size.toInt < (BitVec.ofNat 32 x.length : CInt).toInt then size else BitVec.ofNat 32 x.length) ∧
    w' = { w with reads := w.reads ∪ span p (x.length + 1) } := by
  rw [strnlen, if_neg hp, returns_bind]
  simp only [strlen_iff hp, returns_pure]
  constructor
  · rintro ⟨_, _, ⟨x, hx, hlt, hfit, rfl, rfl⟩, rfl, rfl⟩
    exact ⟨x, hx, hlt, hfit, rfl, rfl⟩
  · rintro ⟨x, hx, hlt, hfit, rfl, rfl⟩
    exact ⟨_, _, ⟨x, hx, hlt, hfit, rfl, rfl⟩, rfl, rfl⟩

theorem Upto.eq_of_short (hx : Upto mem p size x) (hy : IsCString mem p y) (hlt : y.length < size.toNat) :
    x = y := by
  rcases hx.ends with heq | ⟨hlt', _⟩
  · exact absurd (holds_append.mp hy.holds).2.1 (hx.char (by omega))
  · exact (hx.string hlt').unique hy

theorem strnlen_bounded_iff (hp : p ≠ 0#32) (hx : Upto mem p size x) :
    CountsWithin mem p size x ↔ x.length < size.toNat ∧ size.toNat < 2147483648 := by
  have hsize := BitVec.toInt_eq_toNat_cond size
  have hlt := size.isLt
  constructor
  · rintro ⟨v, w, ⟨N, hN⟩, hv, hreads⟩
    obtain ⟨y, hy, _, hfit, rfl, rfl⟩ := (strnlen_iff hp).mp (hN N (Nat.le_refl N))
    have hshort : y.length < size.toNat := by
      have hlen := hy.length_lt
      rw [← @offset_mem_span p size.toNat y.length hlen]
      exact hreads (Set.mem_union_right _ ((offset_mem_span hlen).mpr (Nat.lt_succ_self _)))
    obtain rfl := hx.eq_of_short hy hshort
    have hcount := @toInt_ofNat_small x.length (hfit rfl)
    rw [hcount] at hv
    refine ⟨hshort, ?_⟩
    by_contra hbig
    rw [if_neg (by omega)] at hsize
    rw [if_pos (by omega)] at hv
    omega
  · rintro ⟨hshort, hsmall⟩
    have hcount := @toInt_ofNat_small x.length (by omega)
    rw [if_pos (by omega)] at hsize
    refine ⟨_, _, ⟨x.length + 1, fun fuel hf => (strnlen_iff hp).mpr
      ⟨x, hx.string hshort, by omega, fun _ => by omega, rfl, rfl⟩⟩, ?_, ?_⟩
    · rw [hcount, if_neg (by omega), hcount]
    · apply Set.union_subset (Set.empty_subset _)
      exact span_mono hshort

theorem bounded_strings_iff {bound : Word} (hx : Upto mem src size x) (hm : Mapped mem dst size.toNat)
    (hy : Upto mem p bound y)
    (hp : p ≠ 0#32) : (CopiesWithin mem dst src size x ↔ x.length < size.toNat ∧ Clear dst src x.length) ∧
      (CountsWithin mem p bound y ↔ y.length < bound.toNat ∧ bound.toNat < 2147483648) :=
  ⟨strncpy_bounded_iff hx hm, strnlen_bounded_iff hp hy⟩

def shortString : Bytes := image [0#8, 0x41#8, 0x42#8, 0#8, 0#8, 0#8, 0#8, 0#8]

theorem shortString_holds : IsCString shortString 1#32 [0x41#8, 0x42#8] := ⟨by decide, by decide⟩

theorem bounded_strings_short : CopiesWithin shortString 4#32 1#32 3#32 [0x41#8, 0x42#8] ∧
    CountsWithin shortString 1#32 3#32 [0x41#8, 0x42#8] := by
  have hupto : Upto shortString 1#32 3#32 [0x41#8, 0x42#8] := upto_take shortString_holds 3#32
  obtain ⟨hcopy, hcount⟩ := @bounded_strings_iff shortString 1#32 4#32 1#32 3#32 _ _ 3#32 hupto
    (by decide) hupto (by decide)
  exact ⟨hcopy.mpr (by decide), hcount.mpr (by decide)⟩

theorem not_bounded_strings :
    ¬ ∀ (mem : Bytes) (dst src size p bound : Word) (x y : List Byte), Upto mem src size x →
    Mapped mem dst size.toNat → Upto mem p bound y → p ≠ 0#32 → CopiesWithin mem dst src size x ∧
      CountsWithin mem p bound y := by
  intro h
  have hupto : Upto shortString 1#32 2#32 [0x41#8, 0x42#8] := upto_take shortString_holds 2#32
  obtain ⟨hcopy, _⟩ := h shortString 4#32 1#32 2#32 1#32 2#32 _ _ hupto (by decide) hupto (by decide)
  have hshort := ((strncpy_bounded_iff hupto (by decide)).mp hcopy).1
  exact absurd hshort (by decide)

end Strings

end Cezos
