import TensorFusion.Optimizer

/-!
# Proofs — Sample

Small programs, written down with texts for all names, and the optimizer that is made when nothing
is asked for.
-/

namespace TensorFusion

/-- Slots of names that are all texts. -/
def Slots.ofTexts (entries : List (String × List String)) : Slots :=
  .ofList (entries.map fun e => (.text e.1, e.2.map Value.text))

/-- An operator without attributes, all of whose names are texts. -/
def Op.ofTexts (opType : String) (inputs outputs : List (String × List String))
    (params : List (String × List String) := []) : Op where
  opType := opType
  inputs := .ofTexts inputs
  outputs := .ofTexts outputs
  params := .ofTexts params

/-- A program of one block. -/
def Program.ofOps (ops : List Op) : Program where
  blocks := [{ ops }]

/-- The optimizer with the standard registry, the standard templates and the first settings. -/
def Optimizer.usual : Optimizer where
  registry := .standard
  catalog := { templates := Template.standard }
  config := {}

/-- The optimizer with the standard registry, some templates and the first settings. -/
def Optimizer.withTemplates (templates : List Template) : Optimizer where
  registry := .standard
  catalog := { templates }
  config := {}

end TensorFusion
