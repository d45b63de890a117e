import ShaderWord.Draft
import ShaderWord.Json.Scan

/-!
# Format tables

A table lists formats, each with its members from the highest bits down. A member is given by an
object with one key, the member's name. `Table.definitions` draws the formats up one at a time; within
a format a member object with more or fewer keys counts before any mistake in the layout.
-/

namespace ShaderWord.Table

/-- What a table says of one member. -/
inductive MemberSpec where
  /-- The bits the member is fixed to. -/
  | pattern (bits : String)
  | width (count : UInt32)
  | detailed (count : UInt32) (offset : Option UInt32) (pattern : Option String) (signed : Bool)
  deriving DecidableEq

/-- The member of a name. -/
def MemberSpec.member (name : String) : MemberSpec → Member
  | pattern bits => .fixed name bits
  | width count => .field name count
  | detailed count offset bits signed => ⟨name, offset, count, signed, bits⟩

/-- An object of members; its keys are distinct. -/
abbrev MemberObject := List (String × MemberSpec)

/-- The object with one more entry; a key that it has already keeps its place and changes what it
stands for. -/
def MemberObject.insert (name : String) (spec : MemberSpec) : MemberObject → MemberObject
  | [] => [(name, spec)]
  | (other, old) :: rest =>
    if other = name then (name, spec) :: rest else (other, old) :: insert name spec rest

/-- A format or a case by itself, the cases below it apart. -/
structure Heading where
  name : String
  members : List MemberObject

/-- A format of a table with the cases below it. -/
abbrev FormatSpec := Tree Heading

/-- A table. -/
structure Document where
  formats : List FormatSpec

/-- Why a text is no table of definitions. -/
inductive TableError where
  | unreadable (fault : Json.Fault)
  /-- A member object of the format has so many keys, not one. -/
  | memberKeys (format : String) (keys : Nat)
  | defective (defect : Defect)

def TableError.message : TableError → String
  | unreadable _ => "malformed format table"
  | memberKeys format keys =>
    s!"format `{format}`: each member must be an object with exactly one key, found {keys}"
  | defective defect => defect.message

namespace Heading

/-- The layout with the members of some objects added. -/
def addMembers (name : String) (d : Draft) : List MemberObject → Except TableError Draft
  | [] => .ok d
  | [(member, spec)] :: rest => addMembers name (d.member (spec.member member)) rest
  | object :: _ => .error (.memberKeys name object.length)

/-- The layout of the members. -/
def draft (h : Heading) : Except TableError Draft := addMembers h.name (.new h.name) h.members

end Heading

namespace FormatSpec

mutual
/-- The layout of a format; its mistakes stay with it. -/
def draft : FormatSpec → Except TableError Draft
  | .leaf h => h.draft
  | .select h field cases => do
    let d ← h.draft
    return d.select field (← draftCases cases)
/-- The layouts of the cases. -/
def draftCases : List (Word × FormatSpec) → Except TableError (List (Word × Draft))
  | [] => .ok []
  | (key, child) :: rest => do
    let d ← draft child
    return (key, d) :: (← draftCases rest)
end

/-- The definition of a format. -/
def definition (f : FormatSpec) : Except TableError Definition := do
  let d ← draft f
  match d.build with
  | .ok definition => .ok definition
  | .error defect => .error (.defective defect)

end FormatSpec

/-- The definitions of a table, or the first error of the first format that has one. -/
def Document.definitions (d : Document) : Except TableError (List Definition) :=
  d.formats.mapM FormatSpec.definition

end ShaderWord.Table
