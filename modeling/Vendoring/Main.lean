import Vendoring.Files.Machine
import Vendoring.Command.Run

/-!
The program: it runs a command on the file system of the machine.
-/

namespace Vendoring.Command

/-- A text that no other run comes upon. -/
def freshText : IO String := do
  let bytes ← IO.getRandomBytes 8
  return String.ofList (bytes.toList.map fun b => Nat.digitChar (b.toNat % 16))

/-- The number of the process, where the machine tells it. -/
def processTag : IO String := do
  try
    let here : Path := ⟨(← IO.FS.realPath "/proc/self").toString⟩
    return here.fileName?.getD (← freshText)
  catch _ => freshText

/-- What this process gives to a run. -/
def Environment.current : IO Environment := do
  return ⟨⟨← processTag, ← freshText⟩, ⟨(← IO.currentDir).toString⟩,
    ← IO.getEnv "VEND_MAX_DEPTH"⟩

end Vendoring.Command

open Vendoring.Command in
def main (arguments : List String) : IO UInt32 := do
  let environment ← Environment.current
  let outcome ← (run environment arguments : BaseIO Outcome)
  IO.print outcome.stdout
  IO.eprint outcome.stderr
  return outcome.status.toUInt32
