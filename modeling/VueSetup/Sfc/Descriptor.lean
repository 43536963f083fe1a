import VueSetup.Sfc.Block

/-!
# VueSetup.Sfc.Descriptor

The blocks of a single-file component sorted by what they are for. A file has at most one template,
one script and one setup script; a second one is an error. Styles and blocks of any other name may
stand any number of times.
-/

namespace VueSetup.Sfc

/-- The kinds of blocks that a file can hold once only. -/
inductive Unique where
  | script
  | scriptSetup
  | template
  deriving DecidableEq, Repr

/-- A block stands a second time. -/
structure Duplicate where
  kind : Unique
  /-- Where the second one stands. -/
  location : Location
  deriving DecidableEq, Repr

/-- The rule that is broken. -/
def Duplicate.message (d : Duplicate) : String :=
  match d.kind with
  | .script => "SFC can only contain one <script> block"
  | .scriptSetup => "SFC can only contain one <script setup> block"
  | .template => "SFC can only contain one <template> block"

/-- A fixed name for the rule that is broken. -/
def Duplicate.code (d : Duplicate) : String :=
  match d.kind with
  | .script => "DUPLICATE_SCRIPT"
  | .scriptSetup => "DUPLICATE_SCRIPT_SETUP"
  | .template => "DUPLICATE_TEMPLATE"

/-- The blocks of a file by role. -/
structure Descriptor where
  template : Option Block := none
  script : Option Block := none
  scriptSetup : Option Block := none
  styles : List Block := []
  customBlocks : List Block := []
  deriving DecidableEq, Repr

namespace Descriptor

/-- Add the next block of the file. -/
def add (d : Descriptor) (b : Block) : Except Duplicate Descriptor :=
  if sameName b.tag "script" then
    if b.isSetup then
      if d.scriptSetup.isSome then .error ⟨.scriptSetup, b.location⟩
      else .ok { d with scriptSetup := some b }
    else if d.script.isSome then .error ⟨.script, b.location⟩
    else .ok { d with script := some b }
  else if sameName b.tag "template" then
    if d.template.isSome then .error ⟨.template, b.location⟩
    else .ok { d with template := some b }
  else if sameName b.tag "style" then .ok { d with styles := d.styles ++ [b] }
  else .ok { d with customBlocks := d.customBlocks ++ [b] }

/-- Sort blocks by role; the first one that stands a second time is the error. -/
def ofBlocks (bs : List Block) : Except Duplicate Descriptor :=
  bs.foldlM add {}

/-- Split a file in its blocks. -/
def parse (source : String) : Except Duplicate Descriptor :=
  ofBlocks (blocks source)

end Descriptor

end VueSetup.Sfc
