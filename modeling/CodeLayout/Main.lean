import CodeLayout.Command.Run

/-!
# The command line

Reads the files that the arguments name, runs the command on them, prints its output and stores the
files that it has changed.
-/

namespace CodeLayout.Main

/-- The name of a path. -/
def nameOf (path : Bytes) : String :=
  (String.fromUTF8? ⟨path.toArray⟩).getD ""

/-- Adds what is at a path to a tree of files: a file, or everything below a directory if `deep`. -/
partial def addPath (deep : Bool) (tree : FileTree) (path : Bytes) : IO FileTree := do
  let place := (← IO.currentDir) / nameOf path
  let own := Path.segments (Path.clean path)
  if ← place.isDir then
    let tree := { tree with folders := own :: tree.folders }
    if !deep then return tree
    (← place.readDir).toList.foldlM (fun tree entry =>
      addPath true tree (path ++ [Path.slash] ++ Bytes.ofString entry.fileName)) tree
  else if ← place.pathExists then
    let text := (← IO.FS.readBinFile place).toList
    return { tree with files := (own, text) :: tree.files }
  else return tree

/-- Adds what is at a path and at every place on the way to it. -/
def addWay (tree : FileTree) (path : Bytes) : IO FileTree := do
  let parts := Path.segments path
  let way := (List.range parts.length).map fun n => Bytes.join [Path.slash] (parts.take n)
  let tree ← (way.filter (!·.isEmpty)).foldlM (addPath false) tree
  if path.isEmpty then return tree else addPath true tree path

/-- The files that settings name. -/
def treeFor (s : Command.Settings) : IO FileTree :=
  (s.config :: s.paths).foldlM addWay ⟨[], []⟩

/-- Reads all input behind what is already read. -/
partial def readAll (input : IO.FS.Stream) (done : ByteArray) : IO ByteArray := do
  let more ← input.read 65536
  if more.isEmpty then return done else readAll input (done ++ more)

/-- Stores the files whose texts have changed. -/
def store (before after : FileTree) : IO Unit := do
  for ((own, old), (_, new)) in before.files.zip after.files do
    if old != new then
      let place := (← IO.currentDir) / nameOf (Bytes.join [Path.slash] own)
      IO.FS.writeBinFile place ⟨new.toArray⟩

/-- Prints an error and fails. -/
def fail (message : Bytes) : IO UInt32 := do
  (← IO.getStderr).write ⟨(message ++ [newline]).toArray⟩
  return 1

/-- Runs a request. -/
def run (request : Command.Request) : IO UInt32 := do
  let settings := request.settings
  let tree ← treeFor settings
  let readsInput := settings.paths.isEmpty && request = .format settings
  let input ← if readsInput then readAll (← IO.getStdin) .empty else pure .empty
  match request.run tree input.toList with
  | .error e => fail e.message
  | .ok (output, after) =>
    (← IO.getStdout).write ⟨output.toArray⟩
    store tree after
    return 0

end CodeLayout.Main

/-- Runs the command with the arguments of the process. -/
def main (arguments : List String) : IO UInt32 :=
  match CodeLayout.Command.Request.ofArguments (arguments.map CodeLayout.Bytes.ofString) with
  | .error e => CodeLayout.Main.fail e.message
  | .ok request => CodeLayout.Main.run request
