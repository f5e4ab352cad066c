import SchemaTypes.CompileError
import SchemaTypes.Model.Basic

/-!
# Alias types

A type without elements and without enum values only gives another name to the
type it states.  `chase` follows such names to the definition that is no alias
any more.  Chains of `maxDepth` or more steps are not followed to their end,
and neither are cycles.
-/

namespace SchemaTypes

/-- How deep structures, alias chains and key chains may be nested. -/
def maxDepth : Nat := 10

namespace Model

/-- Whether a definition only gives another name to a type. -/
def isAlias (d : Definition) : Bool := d.isKind .type && !d.isStructure && !d.isEnum

/-- The alias that the type of a definition names, if it names one. -/
def aliasStep? (m : Model) (d : Definition) : Option Definition :=
  match d.typeName? with
  | none => none
  | some name => (m.find? name).filter isAlias

/-- The end of a chain of aliases, if it takes less than the given number of
steps. -/
def chaseWithin (m : Model) : Nat → Definition → Option Definition
  | 0, _ => none
  | steps + 1, d =>
      match m.aliasStep? d with
      | none => some d
      | some next => m.chaseWithin steps next

/-- The definition that a chain of aliases ends in. -/
def chase (m : Model) (d : Definition) : Except CompileError Definition :=
  match m.chaseWithin maxDepth d with
  | some result => .ok result
  | none => .error (.recursionLimit (d.typeName?.getD "") maxDepth)

end Model

end SchemaTypes
