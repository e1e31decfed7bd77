import Cezos.Kernel.VmRuns

namespace Cezos

open Lib

variable {st : Bool} {s s₀ : KState} {x : TaskSession} {pool : Finset ℕ} {L₀ L : List ℕ} {cs : List VmCall}
    {task kf gone f : ℕ}
  {m : ℕ → ℕ → Word} {va : Word}

namespace VmInv

end VmInv

end Cezos
