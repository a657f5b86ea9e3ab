import Checkup.CommandLine.Execute
import Std.Time.Format

/-!
# The program

What the command line looks at is read into a tree, the command line is carried out on it, and what
became of the tree is written back.
-/

namespace Checkup.Program

open CommandLine

/-- Folders whose content no check looks at. -/
def closedFolders : List String := ["node_modules", ".git"]

/-- The tree with the folders above its nodes. -/
def withFoldersAbove (t : Tree) : Tree :=
  t.entries.foldl (fun t entry =>
    if (t.node? entry.1.dropLast).isSome then t else (t.makeFolders entry.1.dropLast).2) t

/-- Adds what stands at a location and below it, and what its links lead to. What cannot be read is
left out. A location that is in the tree has been read. -/
partial def load (t : Tree) (location : Location) : IO Tree := do
  if !location.isEmpty && (t.node? location).isSome then return t
  let path := Path.absolute location
  try
    let real ← IO.FS.realPath path
    if real.toString ≠ path then
      return ← load (t.put location (.link real.toString)) (Path.steps real.toString)
    match (← real.metadata).type with
    | .dir =>
      let t := if location.isEmpty then t else t.put location .folder
      if closedFolders.contains (location.getLastD "") then return t
      (← real.readDir).foldlM (fun t entry => load t (location ++ [entry.fileName])) t
    | .file => return t.put location (.file (← IO.FS.readBinFile path))
    | _ => return t
  catch _ => return t

/-- Adds the file at a location and the folder in which it stands. -/
def loadFile (t : Tree) (location : Location) : IO Tree := do
  try
    let parent ← IO.FS.realPath (Path.absolute location.dropLast)
    if ← parent.isDir then load (t.makeFolders (Path.steps parent.toString)).2 location
    else return t
  catch _ => return t

/-- The tree that an invocation looks at, from the working directory. -/
def treeFor (i : Invocation) (current : List String) : IO Tree := do
  let place (path : String) : Location := Path.normalSteps true (Path.stepsFrom current path)
  let project ← match i.command with
    | .check path .. => load .empty (place path)
    | _ => pure .empty
  let t := withFoldersAbove (project.makeFolders current).2
  match i.logFile with
  | some path => loadFile t (place path)
  | none => return t

/-- Writes back what became of a location. -/
def store : Location × Tree.Change → IO Unit
  | (location, .now (.file bytes)) => IO.FS.writeBinFile (Path.absolute location) bytes
  | (location, .now .folder) => IO.FS.createDirAll (Path.absolute location)
  | (_, .now (.link _)) => pure ()
  | (location, .removed) => IO.FS.removeFile (Path.absolute location)

/-- The time that stands in log files. -/
def time : IO String := do
  return (← Std.Time.PlainDateTime.now).format "uuuu-MM-dd HH:mm:ss,SSS"

end Checkup.Program

open Checkup in
def main (args : List String) : IO UInt32 := do
  let current := Path.steps (← IO.currentDir).toString
  let before ← match CommandLine.parse args with
    | .ok i => Program.treeFor i current
    | .error _ => pure .empty
  let (result, after) := CommandLine.execute args before current (← Program.time)
  (before.changes after).forM Program.store
  match result with
  | .ok ending =>
    IO.eprint ending.errors
    match ending.output with
    | .text output =>
      IO.print output
      return ending.exitCode.toUInt32
    | .loose .. =>
      IO.eprintln Fault.notEncodable.message
      return 1
  | .error fault =>
    IO.eprintln fault.message
    return 1
