import Cezos.Kernel.CheckDir
import Cezos.Kernel.PageCalls

namespace Cezos

open Lib

variable {st : Bool} {s s' : KState} {pgdir va w : Word} {q : ℕ} {msg : String}

end Cezos
