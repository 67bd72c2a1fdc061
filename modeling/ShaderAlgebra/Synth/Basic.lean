import ShaderAlgebra.Registry
import ShaderAlgebra.Glsl.Declaration

/-!
# Synthesis with a registry of definitions

A synthesis step yields a term and may enter definitions that the term relies
on.  A definition is made at most once, and those that it needs itself are
entered before it.

A step on a shape that is known to be valid cannot fail (`Synth`).  A step that
checks its operands can (`Build`), and what it entered before it failed stays.
-/

namespace ShaderAlgebra

/-- The definitions of a shader. -/
abbrev Definitions := Registry Glsl.Declaration

/-- A synthesis step. -/
abbrev Synth := StateM Definitions

/-- A synthesis step that may fail. -/
abbrev Build := ExceptT Failure Synth

namespace Synth

/-- Enters the definition that `make` yields, unless its key is present.  What `make` enters on
its way comes first. -/
def declare (category : Category) (name : String) (make : Synth Glsl.Declaration) : Synth Unit := do
  if (← get).contains category name then
    pure ()
  else
    let body ← make
    modify fun r => r.push category name body

end Synth

namespace Definitions

/-- The text of all definitions. -/
def header (d : Definitions) : String :=
  Registry.header Glsl.Declaration.text d

end Definitions

/-- The decimal that a literal writes for a number. -/
def literal? (x : Binary64) : Except Failure Decimal :=
  if x.isFinite then .ok (Decimal.shortest .up x) else .error (.literal x)

end ShaderAlgebra
