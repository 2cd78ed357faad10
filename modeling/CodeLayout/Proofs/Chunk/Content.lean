import CodeLayout.Chunk.Lists

/-!
# What chunks hold

The tokens and comments of a tree of chunks, without what decides where they go. Putting chunks
together, marking them, numbering and measuring them leaves this as it is.
-/

namespace CodeLayout

/-- A token or a comment of a tree of chunks, with its range in the input. -/
inductive Leaf where
  | token (start stop : Int) (text : Bytes)
  | comment (start stop : Int) (text : Bytes) (contents : Option Comment)

/-- Where a token or a comment starts in the input. -/
def Leaf.start : Leaf → Int
  | .token start _ _ => start
  | .comment start _ _ _ => start

namespace Chunk

/-- The items of a block. -/
def items : Chunk → List Chunk
  | .block _ _ _ _ items => items
  | _ => []

/-- What a chunk by itself holds. -/
def leaf? : Chunk → Option Leaf
  | .token t s => some (.token t.start t.stop s)
  | .comment t s c => some (.comment t.start t.stop s c)
  | .group .. | .block .. => none

/-- The tokens and comments of a tree. -/
def content (c : Chunk) : List Leaf :=
  c.walk.filterMap leaf?

/-- The tokens and comments of a list of trees. -/
def contentAll (cs : List Chunk) : List Leaf :=
  (walkList cs).filterMap leaf?

/-- The tokens and comments of a tree that may be missing. -/
def contentAny (c : Option Chunk) : List Leaf :=
  contentAll c.toList

@[simp] theorem contentAll_nil : contentAll [] = [] :=
  rfl

@[simp] theorem contentAll_cons (c : Chunk) (cs : List Chunk) :
    contentAll (c :: cs) = c.content ++ contentAll cs := by
  simp [contentAll, content, walkList]

@[simp] theorem contentAll_append (cs ds : List Chunk) :
    contentAll (cs ++ ds) = contentAll cs ++ contentAll ds := by
  induction cs with
  | nil => rfl
  | cons c cs ih => simp [ih]

@[simp] theorem contentAny_none : contentAny none = [] :=
  rfl

@[simp] theorem contentAny_some (c : Chunk) : contentAny (some c) = c.content := by
  simp [contentAny]

@[simp] theorem contentAll_toList (c : Option Chunk) : contentAll c.toList = contentAny c :=
  rfl

@[simp] theorem content_token (t : Traits) (s : Bytes) :
    (token t s).content = [.token t.start t.stop s] := by
  simp [content, walk, leaf?]

@[simp] theorem content_comment (t : Traits) (s : Bytes) (c : Option Comment) :
    (comment t s c).content = [.comment t.start t.stop s c] := by
  simp [content, walk, leaf?]

@[simp] theorem content_group (t : Traits) (x : WrapContext) (b : Bool) (cs : List Chunk) :
    (group t x b cs).content = contentAll cs := by
  simp [content, contentAll, walk, leaf?, List.filterMap_cons]

@[simp] theorem content_block (t : Traits) (o c : Option Chunk) (i : Bool) (cs : List Chunk) :
    (block t o c i cs).content = contentAny o ++ contentAll cs ++ contentAny c := by
  cases o <;> cases c <;>
    simp [content, contentAny, contentAll, walk, walkList, leaf?, List.filterMap_cons]

@[simp] theorem content_seq (cs : List Chunk) : (seq cs).content = contentAll cs :=
  content_group ..

@[simp] theorem content_ofElements (x : WrapContext) (cs : List Chunk) :
    (ofElements x cs).content = contentAll cs :=
  content_group ..

@[simp] theorem content_ofItems (o c : Option Chunk) (cs : List Chunk) :
    (ofItems o c cs).content = contentAny o ++ contentAll cs ++ contentAny c :=
  content_block ..

/-- A change of the traits of a chunk that keeps its range. -/
theorem content_modify {f : Traits → Traits} (c : Chunk)
    (hf : ∀ t, (f t).start = t.start ∧ (f t).stop = t.stop) : (c.modify f).content = c.content := by
  cases c <;> simp [modify, hf]

@[simp] theorem content_withSpace (c : Chunk) : c.withSpace.content = c.content :=
  content_modify c fun _ => ⟨rfl, rfl⟩

theorem contentAll_map {f : Chunk → Chunk} (hf : ∀ c, (f c).content = c.content)
    (cs : List Chunk) : contentAll (cs.map f) = contentAll cs := by
  induction cs with
  | nil => rfl
  | cons c cs ih => simp [hf, ih]

theorem contentAny_map {f : Chunk → Chunk} (hf : ∀ c, (f c).content = c.content)
    (c : Option Chunk) : contentAny (c.map f) = contentAny c := by
  cases c with
  | none => rfl
  | some c => simp [hf]

@[simp] theorem contentAll_withSpace (cs : List Chunk) :
    contentAll (cs.map withSpace) = contentAll cs :=
  contentAll_map content_withSpace cs

@[simp] theorem contentAny_withSpace (c : Option Chunk) :
    contentAny (c.map withSpace) = contentAny c :=
  contentAny_map content_withSpace c

end Chunk

namespace Build

open Chunk

@[simp] theorem contentAll_spaced (parts : List Chunk) (c : Option Chunk) :
    contentAll (spaced parts c) = contentAll parts ++ contentAny c := by
  cases c with
  | none => simp [spaced]
  | some c =>
      simp only [spaced, contentAll_append, contentAny_some]
      split <;> simp

@[simp] theorem contentAll_glued (parts : List Chunk) (c : Option Chunk) :
    contentAll (glued parts c) = contentAll parts ++ contentAny c := by
  cases c <;> simp [glued]

@[simp] theorem contentAny_sequence (cs : List Chunk) :
    contentAny (sequence cs) = contentAll cs := by
  match cs with
  | [] => rfl
  | [c] => simp [sequence]
  | c :: d :: cs => simp [sequence]

@[simp] theorem content_bracketed (context : WrapContext) (o c : Option Chunk) (es : List Chunk) :
    (bracketed context o c es).content = contentAny o ++ contentAll es ++ contentAny c := by
  cases es <;> cases o <;> cases c <;> simp [bracketed]

end Build

namespace Chunk

mutual

/-- Numbering and measuring keeps what a tree holds. -/
theorem content_annotate (tabstop : Int) (n : Nat) (c : Chunk) :
    (c.annotate tabstop n).1.content = c.content := by
  match c with
  | .token t s => simp [annotate]
  | .comment t s c => simp [annotate]
  | .group t x b cs => simp [annotate, contentAll_annotateList]
  | .block t o c i cs =>
      cases o <;> cases c <;> simp [annotate, contentAll_annotateList, content_annotate]

theorem contentAll_annotateList (tabstop : Int) (n : Nat) (cs : List Chunk) :
    contentAll (annotateList tabstop n cs).1 = contentAll cs := by
  match cs with
  | [] => rfl
  | c :: cs => simp [annotateList, content_annotate, contentAll_annotateList]

end

end Chunk

end CodeLayout
