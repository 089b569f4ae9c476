/-!
# Toolchain

The external commands that turn assembly text into an executable.
-/

namespace Cinder.Machine

structure Command where
  program : String
  arguments : List String
deriving DecidableEq, Repr

def assemblerCommand (input output : String) : Command :=
  ⟨"as", ["--64", "-o", output, input]⟩

def linkerCommand (input output : String) : Command :=
  ⟨"ld", ["-o", output, input]⟩

end Cinder.Machine
