import VueSetup.Span
import VueSetup.Text.Offset

/-!
# VueSetup.Draft

A **draft** is a text together with the edits recorded against it. Edits address the text by byte
offsets and never change it, so that all of them can use the positions of one parse; they take
effect when the draft, or a slice of it, is rendered.

Rendering is split in two. `Draft.layout` decides, in offsets alone, which stretches of the text
are kept and which texts are written between them; it is total. `Draft.assemble?` then cuts the
kept stretches out of the text; it is the only step that can fail, and does so exactly when a kept
stretch is not one of whole characters of the text.

* Insertions at one offset keep the order in which they were recorded.
* A replacement hides every insertion strictly inside its range, and the one at its start and the
  one at its end survive.
* Of replacements that overlap, the one that starts first wins; of those that start together, the
  longest.

Offsets are numbers without a bound here and 32 bits wide in the program, which cannot address texts
of 4 GiB and more; such texts are outside of the model.
-/

namespace VueSetup

/-- One change to a text. -/
inductive Edit where
  /-- Write a text at an offset. -/
  | insert (offset : Nat) (text : String)
  /-- Put a text in the place of a stretch; an empty text removes the stretch. -/
  | replace (span : Span) (text : String)
  deriving DecidableEq, Repr

/-- A text and the edits recorded against it, oldest first. -/
structure Draft where
  source : String
  edits : List Edit := []
  deriving Repr

namespace Draft

/-! ### Recording edits -/

/-- Record one more edit. -/
def record (d : Draft) (e : Edit) : Draft :=
  { d with edits := d.edits ++ [e] }

/-- Write `text` at `offset`. -/
def insert (d : Draft) (offset : Nat) (text : String) : Draft :=
  d.record (.insert offset text)

/-- Write `text` right before a stretch. -/
def insertBefore (d : Draft) (span : Span) (text : String) : Draft :=
  d.insert span.start text

/-- Write `text` right behind a stretch. -/
def insertAfter (d : Draft) (span : Span) (text : String) : Draft :=
  d.insert span.stop text

/-- Put `text` in the place of a stretch. -/
def overwrite (d : Draft) (span : Span) (text : String) : Draft :=
  d.record (.replace span text)

/-- Take a stretch out. -/
def remove (d : Draft) (span : Span) : Draft :=
  d.overwrite span ""

/-- Some edit has been recorded. -/
def isModified (d : Draft) : Bool :=
  !d.edits.isEmpty

@[simp] theorem source_record (d : Draft) (e : Edit) : (d.record e).source = d.source := rfl

@[simp] theorem edits_record (d : Draft) (e : Edit) : (d.record e).edits = d.edits ++ [e] := rfl

@[simp] theorem isModified_record (d : Draft) (e : Edit) : (d.record e).isModified = true := by
  simp [isModified]

/-! ### Which edits take part -/

/-- The two ways to read a range of a draft. -/
inductive Extent where
  /-- With the insertions that stand on its ends. -/
  | closed
  /-- Without them: they belong to the surrounding text. -/
  | interior
  deriving DecidableEq, Repr

/-- An insertion at `offset` takes part in rendering the range. -/
def Extent.admits (e : Extent) (range : Span) (offset : Nat) : Bool :=
  match e with
  | .closed => range.start ≤ offset && offset ≤ range.stop
  | .interior => range.start < offset && offset < range.stop

/-- A text to be written at an offset. -/
structure Insertion where
  offset : Nat
  text : String
  deriving DecidableEq, Repr

/-- A text to be put in the place of a stretch. -/
structure Replacement where
  span : Span
  text : String
  deriving DecidableEq, Repr

/-- Insertions come by offset. -/
def Insertion.le (a b : Insertion) : Bool :=
  a.offset ≤ b.offset

/-- Replacements come by start, and of those that start together the longest comes first. -/
def Replacement.le (a b : Replacement) : Bool :=
  a.span.start < b.span.start ||
    (a.span.start == b.span.start && b.span.stop ≤ a.span.stop)

/-- The insertions that take part, by offset and then in the order of recording. -/
def insertionsIn (d : Draft) (range : Span) (extent : Extent) : List Insertion :=
  (d.edits.filterMap fun
    | .insert offset text =>
      if extent.admits range offset then some (Insertion.mk offset text) else none
    | .replace _ _ => none).mergeSort Insertion.le

/-- The replacements that lie in the range, by `Replacement.le` and then in the order of
recording. -/
def replacementsIn (d : Draft) (range : Span) : List Replacement :=
  (d.edits.filterMap fun
    | .insert _ _ => none
    | .replace span text =>
      if range.start ≤ span.start && span.stop ≤ range.stop then
        some (Replacement.mk span text)
      else none).mergeSort Replacement.le

/-! ### Layout -/

/-- One part of a rendered range. -/
inductive Piece where
  /-- A stretch of the text as it is. -/
  | kept (span : Span)
  /-- A text of an edit. -/
  | written (text : String)
  deriving DecidableEq, Repr

/-- Keep the text up to each insertion and write it there. -/
def layInsertions (pos : Nat) : List Insertion → List Piece
  | [] => []
  | i :: is => .kept ⟨pos, i.offset⟩ :: .written i.text :: layInsertions i.offset is

/-- Where the text goes on behind the insertions. -/
def endOfInsertions (pos : Nat) : List Insertion → Nat
  | [] => pos
  | i :: is => endOfInsertions i.offset is

/-- Keep and write from `pos` to `stop`. A replacement that starts before `pos` is covered by one
already made and is passed over; one that is made swallows the insertions before its end. -/
def layout (stop : Nat) (pos : Nat) (insertions : List Insertion) : List Replacement → List Piece
  | [] => layInsertions pos insertions ++ [.kept ⟨endOfInsertions pos insertions, stop⟩]
  | r :: rs =>
    if r.span.start < pos then layout stop pos insertions rs
    else
      let before := insertions.takeWhile (·.offset ≤ r.span.start)
      let behind := (insertions.dropWhile (·.offset ≤ r.span.start)).dropWhile
        (·.offset < r.span.stop)
      layInsertions pos before ++
        .kept ⟨endOfInsertions pos before, r.span.start⟩ :: .written r.text ::
        layout stop r.span.stop behind rs

/-- Cut the kept stretches out of the text and join all parts; `none` when one of them is not a
stretch of whole characters. -/
def assemble? (source : List Char) : List Piece → Option (List Char)
  | [] => some []
  | .kept span :: ps => do
    let kept ← Text.slice? source span.start span.stop
    return kept ++ (← assemble? source ps)
  | .written text :: ps => do
    return text.toList ++ (← assemble? source ps)

/-! ### Rendering -/

/-- The text of a range with its edits made. -/
def renderRange? (d : Draft) (range : Span) (extent : Extent) : Option String :=
  if range.start ≤ range.stop then
    let pieces := layout range.stop range.start (d.insertionsIn range extent)
      (d.replacementsIn range)
    (assemble? d.source.toList pieces).map String.ofList
  else none

/-- The text of a stretch with the edits inside it made. Insertions that stand exactly on its ends
are not part of it. -/
def slice? (d : Draft) (span : Span) : Option String :=
  d.renderRange? span .interior

/-- The whole text with all edits made. -/
def render? (d : Draft) : Option String :=
  d.renderRange? ⟨0, d.source.utf8ByteSize⟩ .closed

end Draft

end VueSetup
