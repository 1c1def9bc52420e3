import Categorial.CommandLine.Run
import Categorial.Forest.Codecs
set_option autoImplicit false

namespace Categorial

open CommandLine

def succeeds (x : IO Unit) : IO Bool := do
  match ← x.toBaseIO with
  | .ok () => pure true
  | .error _ => pure false

instance : Files IO where
  read path := do
    match ← (IO.FS.readBinFile path).toBaseIO with
    | .ok bytes => pure (.contents bytes)
    | .error (.noFileOrDirectory _ _ _) => pure .nothing
    | .error _ => pure .unreadable
  write path contents := succeeds (IO.FS.writeBinFile path contents)
  append path contents := succeeds (IO.FS.withFile path .append fun h => h.write contents)
  move source target := succeeds (IO.FS.rename source target)
  makeDirectory path := succeeds (IO.FS.createDirAll path)
  print := IO.print
  note := IO.eprintln

end Categorial

def main (args : List String) : IO UInt32 := do
  let code : Nat ← Categorial.CommandLine.run .raw args
  pure code.toUInt32
