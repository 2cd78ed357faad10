import CodeLayout.Chunk.OfNode
import CodeLayout.Edit
import CodeLayout.Style.Options
import CodeLayout.Syntax.Tree
import CodeLayout.Token.Lexer

/-!
# The formatter

A text is read into tokens, a tree, chunks and a layout, and then written again. Formatting never
fails: what is wrong with the text is recorded, and if a step meets a fault the text is returned
unchanged.
-/

namespace CodeLayout

/-- A text in all the forms it takes on its way. -/
structure Formatted where
  tree : Node
  chunk : Chunk
  layout : Layout
  output : Output

/-- Takes a text through all steps, and gives what was recorded until the end or the first fault. -/
def Formatted.ofFile (file : SourceFile) (kind : SourceKind) (style : Style) :
    Except Fault Formatted × Report :=
  let stream := TokenStream.ofFile file
  let parsed := Node.ofStream stream kind
  let read := stream.report ++ parsed.report
  let regions := Regions.ofStream stream style
  match parsed.tree.bind fun tree => (Chunk.ofNode stream tree style regions).map (tree, ·) with
  | .error fault => (.error fault, read)
  | .ok (tree, chunk) =>
    let laid := Layout.ofChunk chunk file style
    let written := do
      let _ ← laid.position
      let output ← Output.ofLayout laid.layout file style regions
      return { tree, chunk, layout := laid.layout, output }
    (written, read ++ laid.report)

/-- A style and what the texts given to it contain. -/
structure Formatter where
  style : Style := .bare
  kind : SourceKind := .unit

namespace Formatter

/-- The style that is used in place of the given one: the style with nothing set stands for the
default style. -/
def effective (f : Formatter) : Style × Report :=
  (if f.style.agrees .bare then Style.default else f.style).normalize

/-- Formats a file. -/
def run (f : Formatter) (file : SourceFile) : Output × Report :=
  let (style, warnings) := f.effective
  let (result, recorded) := Formatted.ofFile file f.kind style
  let report := (warnings ++ recorded).recover (ascii "formatting") {} result
  match result with
  | .ok formatted => (formatted.output, report)
  | .error _ => ({ text := file.text }, report)

/-- Formats a text. -/
def format (f : Formatter) (text : Bytes) : Bytes × Report :=
  let (output, report) := f.run ⟨[], text⟩
  (output.text, report)

/-- The edits of formatting a text that touch a region of it. -/
def edits (f : Formatter) (text : Bytes) (offset length : Int64) : List Edit × Report :=
  let (output, report) := f.run ⟨[], text⟩
  ((output.edits text).filter (Edit.touches offset length), report)

/-- What formatting one of several files comes to. -/
structure Result where
  path : Bytes
  text : Bytes
  changed : Bool
  report : Report

/-- Formats one of several files. -/
def formatFile (f : Formatter) (file : SourceFile) : Result :=
  let (output, report) := f.run file
  ⟨file.path, output.text, output.text != file.text, report⟩

/-- Why several files were not formatted. -/
inductive BatchError where
  | canceled
  deriving DecidableEq, Repr

/-- The text of an error. -/
def BatchError.message : BatchError → Bytes
  | .canceled => ascii "context canceled"

/-- Formats several files unless that was canceled. Without files there is nothing to cancel. -/
def formatAll (f : Formatter) (canceled : Bool) (files : List SourceFile) :
    Except BatchError (List Result) :=
  if canceled && !files.isEmpty then .error .canceled else .ok (files.map f.formatFile)

end Formatter

end CodeLayout
