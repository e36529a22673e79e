/-
GemCourier/Commands/Surroundings.lean

What a command finds around it, apart from the disk.
-/
import GemCourier.Bytecode.Compiler
import GemCourier.Remote.GitHub

namespace GemCourier

/-- The network, the machine and the tools a command works with. -/
structure Surroundings where
  network : Remote.Network
  /-- The token for requests, if the environment has one. -/
  token : Option String
  compiler : Bytecode.Compiler
  /-- The operating system and the processor of the machine. -/
  system : String
  processor : String
  /-- Where the running executable is. -/
  executable : Except Fault Path

end GemCourier
