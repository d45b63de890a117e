import ShaderWord.Defect
import ShaderWord.Definition

/-!
# Drafting a layout

A draft lays a definition out from bit 63 down. A member takes the bits right below the one before
it, unless it names its own lowest bit; then the bits in between are left open, as are the bits below
the last member. A member with a pattern fixes its bits, and is a field like the others. The first
mistake stays with the draft and is what `Draft.build` answers.
-/

namespace ShaderWord

/-- One member of a layout. -/
structure Member where
  name : String
  /-- The lowest bit, for a member that does not follow on the one before it. -/
  offset : Option UInt32
  width : UInt32
  isSigned : Bool
  /-- The bits the member is fixed to, the highest first. -/
  pattern : Option String

namespace Member

/-- As many bits as a pattern has bytes. -/
def patternWidth (pattern : String) : UInt32 := pattern.utf8ByteSize.toUInt32

/-- A member that is fixed to a pattern. -/
def fixed (name pattern : String) : Member :=
  ⟨name, none, patternWidth pattern, false, some pattern⟩

/-- A member that is read unsigned. -/
def field (name : String) (width : UInt32) : Member := ⟨name, none, width, false, none⟩

/-- A member that is read as a two's complement number. -/
def signed (name : String) (width : UInt32) : Member := ⟨name, none, width, true, none⟩

/-- The member with a lowest bit of its own. -/
def atBit (offset : UInt32) (m : Member) : Member := { m with offset := some offset }

/-- The lowest bit of a member that has the bits below `cursor` to itself. -/
def lowestBit (format : String) (cursor : UInt32) (m : Member) : Except Defect UInt32 :=
  if m.width = 0 ∨ 64 < m.width then
    .error (.invalidField format m.name (m.offset.getD 0) m.width)
  else
    match m.offset with
    | some offset =>
      if 64 < offset.toNat + m.width.toNat then
        .error (.invalidField format m.name offset m.width)
      else if cursor < offset + m.width then .error (.memberOverlap format m.name)
      else .ok offset
    | none =>
      if cursor < m.width then .error (.invalidField format m.name 0 m.width)
      else .ok (cursor - m.width)

/-- A binary number with one more digit at its low end. -/
def appendDigit (bits : Word) (digit : Char) : Option Word :=
  if digit = '0' then some (bits <<< 1)
  else if digit = '1' then some (bits <<< 1 ||| 1)
  else none

/-- The number that a pattern of 0 and 1 writes in `width` digits. -/
def patternBits? (width : UInt32) (pattern : String) : Option Word :=
  if patternWidth pattern = width then
    pattern.toList.foldlM appendDigit 0
  else none

end Member

namespace Draft

/-- What a layout holds so far; `cursor` is the lowest bit that a member has taken. -/
structure Progress where
  cursor : UInt32
  mask : Word
  value : Word
  fields : List Field
  selection : Option (String × List (Word × Definition))

namespace Progress

/-- Nothing is laid out. -/
def start : Progress := ⟨64, 0, 0, [], none⟩

/-- The progress with a member below the others; a pattern fixes its bits. -/
def add (format : String) (p : Progress) (m : Member) : Except Defect Progress := do
  let lowest ← m.lowestBit format p.cursor
  let slice : Slice := ⟨lowest.toUInt8, m.width.toUInt8, m.isSigned⟩
  let placed := { p with cursor := lowest, fields := p.fields ++ [⟨m.name, slice⟩] }
  match m.pattern with
  | none => return placed
  | some pattern =>
    match Member.patternBits? m.width pattern with
    | none => .error (.badPattern format m.name pattern)
    | some bits =>
      return { placed with
        mask := p.mask ||| slice.mask
        value := p.value ||| bits <<< lowest.toNat }

/-- The definition with the layout so far. -/
def toDefinition (name : String) (p : Progress) : Definition :=
  let shape : Shape := ⟨name, p.mask, p.value, p.fields⟩
  match p.selection with
  | none => .leaf shape
  | some (field, cases) => .select shape field cases

end Progress

end Draft

/-- A layout in the making: its name, and what it holds so far or the first mistake. -/
structure Draft where
  name : String
  state : Except Defect Draft.Progress

namespace Draft

/-- An empty layout. -/
def new (name : String) : Draft := ⟨name, .ok .start⟩

/-- The layout as a definition, or its first mistake. -/
def build (d : Draft) : Except Defect Definition := d.state.map (·.toDefinition d.name)

/-- Adds a member below the others. -/
def member (d : Draft) (m : Member) : Draft := { d with state := d.state.bind (·.add d.name m) }

/-- The layout of the members, from the highest bits down. -/
def ofMembers (name : String) (members : List Member) : Draft :=
  members.foldl member (new name)

/-- The cases as definitions, or the first mistake of the first that has one. -/
def buildCases : List (Word × Draft) → Except Defect (List (Word × Definition))
  | [] => .ok []
  | (key, d) :: rest => do
    let child ← d.build
    let children ← buildCases rest
    return (key, child) :: children

/-- Selects among `cases` by the value of `field`, in place of an earlier selection. -/
def select (d : Draft) (field : String) (cases : List (Word × Draft)) : Draft :=
  { d with
    state := d.state.bind fun p =>
      (buildCases cases).map fun children => { p with selection := some (field, children) } }

/-- One step of drawing up a layout. -/
inductive Step where
  | member (m : Member)
  | select (field : String) (cases : List (Word × Draft))

/-- Takes a step. -/
def step (d : Draft) : Step → Draft
  | .member m => d.member m
  | .select field cases => d.select field cases

/-- The layout that the steps draw up in order. -/
def ofSteps (name : String) (steps : List Step) : Draft := steps.foldl step (new name)

end Draft

end ShaderWord
