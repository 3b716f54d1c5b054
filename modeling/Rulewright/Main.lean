import Rulewright.Draw.Dot

/-!
The command line of the drawing program. It reads the rule folders that the arguments name, below the
current folder, and writes the graph of their rules to the output file.
-/

namespace Rulewright.Draw

def readFolder (folder : String) : IO Files := do
  match resolve folder with
  | none => return []
  | some path =>
    let found ← ["rules.toml", "edges.toml"].mapM fun name => do
      let file := folder ++ "/" ++ name
      match ← (IO.FS.readFile file).toBaseIO with
      | .ok text => pure [(⟨path ++ [name], text⟩ : File)]
      | .error _ => pure []
    return found.flatten

def readOutput (output : String) : IO Files := do
  match resolve output, ← (IO.FS.realPath output).toBaseIO with
  | some path, .ok place => return if ← place.isDir then [⟨path ++ ["."], ""⟩] else []
  | _, _ => return []

def report : Failure → IO UInt32
  | .exit (.int code) => do
    IO.eprintln "usage: OUTPUT FOLDER [FOLDER ...] [--title [TITLE]] [--unflatten] [--stagger [STAGGER]]"
    return UInt32.ofNat code.toNat
  | e => do
    IO.eprintln e.words
    return 1

end Rulewright.Draw

open Rulewright.Draw in
def main (args : List String) : IO UInt32 := do
  match readArguments args with
  | .error e => report e
  | .ok o =>
    let folders ← o.folders.mapM readFolder
    match run ((← readOutput o.output) ++ folders.flatten) args with
    | .error e => report e
    | .ok drawing =>
      match resolve o.output with
      | some path =>
        let folder := "/".intercalate ("." :: path.dropLast)
        IO.FS.createDirAll folder
      | none => pure ()
      IO.FS.writeFile o.output drawing.dot
      return 0
