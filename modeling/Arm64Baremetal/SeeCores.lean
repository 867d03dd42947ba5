import Arm64Baremetal.SeeReplies

/-!
The secure servicers of several cores over one EL3. What one core does is an event of another
core for the rest, so each core has the replies to its own requests, and a key that is wrapped on
one core can be unwrapped on any other.
-/

set_option autoImplicit false

namespace Arm64
open Runs

structure OnCore (μ : Type) where
  mem : μ
  asked : Option Request
  preempted : Bool

structure SeeCores (μ : Type) where
  system : System
  core : CoreId → OnCore μ

variable {img : Image} {k : Crypto} {μ : Type}

def SeeCores.on (s : SeeCores μ) (c : CoreId) : Service μ where
  system := s.system
  mem := (s.core c).mem
  asked := (s.core c).asked
  preempted := (s.core c).preempted

section Invariant
variable {running : CoreId → Prop} {p : Servicer img k μ} {s : SeeCores μ}

end Invariant

end Arm64
