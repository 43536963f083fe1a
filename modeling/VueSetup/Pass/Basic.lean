import VueSetup.Component
import VueSetup.Draft
import VueSetup.Options

/-!
# VueSetup.Pass.Basic

A **pass** makes one kind of declaration out of a component's options. It only records edits: all
passes address the script by the offsets of one parse, and each looks at the component anew, so that
any of them can run alone or after others.
-/

namespace VueSetup

open Script (Program)

/-- What a pass did: the draft with its edits, and whether it made a declaration. -/
structure PassResult where
  draft : Draft
  produced : Bool

/-- A pass. It has no result when a text that it moves cannot be cut out of the script. -/
abbrev Pass := Program → Options → Draft → Option PassResult

namespace PassResult

/-- Nothing was there to be done. -/
def idle (d : Draft) : PassResult :=
  ⟨d, false⟩

/-- A declaration was made. -/
def made (d : Draft) : PassResult :=
  ⟨d, true⟩

end PassResult

end VueSetup
