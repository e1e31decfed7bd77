import Cezos.Kernel.VmPages

namespace Cezos

open Lib

def VmCall.actor : VmCall → Option ℕ
  | .procInitVm task => some task
  | .insertPage task _ _ _ => some task
  | .removePage task _ => some task
  | _ => none

variable {st : Bool} {s s₀ s' : KState} {x y : TaskSession} {pool : Finset ℕ} {L : List ℕ} {c : VmCall}
    {cs cs' : List VmCall}
  {q task kf gone : ℕ} {m₀ : ℕ → ℕ → Word} {va : Word} {e : Entry}

namespace VmInv

theorem contents (h : VmInv m₀ kf gone x pool L) (hc : VmStep st x c y) (hq : x.UsedAs q .held) :
    y.s.mem q = x.s.mem q := by
  have hu := hq.usable h.balanced h.given
  cases hc with
  | pageAlloc flags ps hr =>
    obtain ⟨L', rfl, _, _, _, _, hm⟩ := h.pageAlloc hr
    exact hm q (fun he => hu.used (by rw [he]; exact List.mem_cons_self))
  | freePage ps ho hr => exact congrFun (h.freePage ho hr).2.2 q
  | procInitVm task hn hr =>
    obtain ⟨ps, L', rfl, _, _, _, _, _, hm⟩ := h.procInitVm hn hr
    have hne : q ≠ ps := fun he => hu.used (by rw [he]; exact List.mem_cons_self)
    rw [hm, Radix.setFrame_ne _ _ hne]
  | insertPage task ps va perms r ht ho hv hp hr =>
    obtain ⟨_, _, _, _, hch, _⟩ := h.insertPage ht hv ho hp hr
    exact hch.kept q hu.used hu.not_dir hu.not_table
  | removePage task va ht hv hp hr =>
    obtain ⟨_, _, _, hch, _⟩ := h.removePage ht hv hr
    exact hch.kept q hu.used hu.not_dir hu.not_table

end VmInv

end Cezos
