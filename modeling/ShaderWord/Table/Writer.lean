import ShaderWord.Table.Reader

/-!
# Writing tables

Definitions that were drawn up as layouts have a table: every field becomes a member that is spelled
out, and a member whose bits are all fixed also has its pattern.
-/

namespace ShaderWord.Table

/-- The low `width` bits of a word as a pattern, the highest first. -/
def patternOf (width : Nat) (w : Word) : String :=
  .ofList ((List.range width).reverse.map fun i => if w.getLsbD i then '1' else '0')

/-- The member of a field, as an object with one key. -/
def memberJson (s : Shape) (f : Field) : Json :=
  let isFixed := f.slice.mask &&& s.mask = f.slice.mask
  let pattern := patternOf f.slice.width.toNat (f.slice.raw s.value)
  .object [(f.name, .object (
    [("count", .number (.ofNat f.slice.width.toNat)),
     ("offset", .number (.ofNat f.slice.offset.toNat)),
     ("signed", .bool f.slice.signed)] ++
    if isFixed then [("match", .string pattern)] else []))]

/-- The entries of a definition, its discriminant apart. -/
def shapeEntries (s : Shape) : List (String × Json) :=
  [("name", .string s.name), ("members", .array (s.fields.map (memberJson s)))]

mutual
/-- The entries of a definition. -/
def definitionEntries : Definition → List (String × Json)
  | .leaf s => shapeEntries s
  | .select s field cases =>
    shapeEntries s ++ [("discriminant",
      .object [("field", .string field), ("cases", .array (casesJson cases))])]
/-- The cases of a discriminant. -/
def casesJson : List (Word × Definition) → List Json
  | [] => []
  | (key, child) :: rest =>
    .object (("value", .number (.ofNat key.toNat)) :: definitionEntries child) :: casesJson rest
end

/-- The table of some definitions. -/
def toJson (definitions : List Definition) : Json :=
  .object [("formats", .array (definitions.map fun d => .object (definitionEntries d)))]

/-- The table of some definitions as text. -/
def write (definitions : List Definition) : String := .ofList (toJson definitions).write

end ShaderWord.Table
