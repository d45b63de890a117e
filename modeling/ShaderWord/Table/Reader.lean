import ShaderWord.Json.Value
import ShaderWord.Registry
import ShaderWord.Table.Document

/-!
# Reading tables

A table is the JSON object `{"formats": [...]}`. A format has a `name` and may have `members` and a
`discriminant`, which has a `field` and `cases`; a case is a format with a `value`. Where the keys of an
object are fixed, none may come twice and others are passed over, and up to the discriminant an array
of the values in order may stand for the object.
-/

namespace ShaderWord.Table

open Json Json.Scan

/-- How deep arrays and objects may nest where a value is read whole. -/
def maxNesting : Nat := 127

/-! ## Values that have been read whole -/

/-- Gives an entry that may come once its value. -/
def once {α : Type} (old : Option α) (new : Option α) : Option (Option α) :=
  if old.isSome then none else new.map some

def text? : Json → Option String
  | .string s => some s
  | _ => none

/-- A natural number of 32 bits. -/
def word32? : Json → Option UInt32
  | .number n => do
    let n ← n.toNat?
    if n < UInt32.size then some (.ofNat n) else none
  | _ => none

/-- A natural number of 64 bits. -/
def word64? : Json → Option Word
  | .number n => n.toNat?.map (.ofNat 64)
  | _ => none

/-- A value that may be `null` instead. -/
def nullable {α : Type} (value : Json → Option α) : Json → Option (Option α)
  | .null => some none
  | j => (value j).map some

/-- The entries of a member that is spelled out, as far as they have been met. -/
structure MemberEntries where
  count : Option UInt32
  offset : Option (Option UInt32)
  pattern : Option (Option String)
  signed : Option Bool

namespace MemberEntries

/-- Takes in an entry. -/
def add (m : MemberEntries) : String × Json → Option MemberEntries
  | ("count", j) => return { m with count := ← once m.count (word32? j) }
  | ("offset", j) => return { m with offset := ← once m.offset (nullable word32? j) }
  | ("match", j) => return { m with pattern := ← once m.pattern (nullable text? j) }
  | ("signed", .bool b) => return { m with signed := ← once m.signed (some b) }
  | ("signed", _) => none
  | _ => some m

/-- The member of the entries; only `count` must be there. -/
def spec (m : MemberEntries) : Option MemberSpec :=
  m.count.map fun count =>
    .detailed count (m.offset.getD none) (m.pattern.getD none) (m.signed.getD false)

end MemberEntries

/-- A member: its pattern, its width, or an object that spells it out. -/
def memberSpec? : Json → Option MemberSpec
  | .string bits => some (.pattern bits)
  | .object entries => do (← entries.foldlM MemberEntries.add ⟨none, none, none, none⟩).spec
  | j => (word32? j).map .width

/-- An object of members. -/
def memberObject? : Json → Option MemberObject
  | .object entries =>
    entries.foldlM (fun object (name, j) => return object.insert name (← memberSpec? j)) []
  | _ => none

/-- A list of objects of members. -/
def members? : Json → Option (List MemberObject)
  | .array items => items.mapM memberObject?
  | _ => none

/-- The field and the cases of a discriminant. -/
abbrev Selection := String × List (Word × FormatSpec)

/-- The entries of a format, as far as they have been met. -/
structure FormatEntries where
  name : Option String
  members : Option (List MemberObject)
  discriminant : Option (Option Selection)

namespace FormatEntries

/-- No entry has been met. -/
def start : FormatEntries := ⟨none, none, none⟩

/-- The format of the entries; only `name` must be there. -/
def spec (f : FormatEntries) : Option FormatSpec :=
  f.name.map fun name =>
    let heading : Heading := ⟨name, f.members.getD []⟩
    match f.discriminant.getD none with
    | none => .leaf heading
    | some (field, cases) => .select heading field cases

end FormatEntries

mutual
/-- Takes in the entries of a format. -/
def formatEntries? (f : FormatEntries) : List (String × Json) → Option FormatEntries
  | [] => some f
  | ("name", j) :: rest => do
    formatEntries? { f with name := ← once f.name (text? j) } rest
  | ("members", j) :: rest => do
    formatEntries? { f with members := ← once f.members (members? j) } rest
  | ("discriminant", j) :: rest => do
    formatEntries? { f with discriminant := ← once f.discriminant (selection? j) } rest
  | _ :: rest => formatEntries? f rest
/-- A discriminant, or none for `null`. -/
def selection? : Json → Option (Option Selection)
  | .null => some none
  | .object entries => do
    let (field, cases) ← selectionEntries? none none entries
    return some (← field, ← cases)
  | .array [field, cases] => return some (← text? field, ← cases? cases)
  | _ => none
/-- The field and the cases among the entries of a discriminant. -/
def selectionEntries? (field : Option String) (cases : Option (List (Word × FormatSpec))) :
    List (String × Json) → Option (Option String × Option (List (Word × FormatSpec)))
  | [] => some (field, cases)
  | ("field", j) :: rest => do selectionEntries? (← once field (text? j)) cases rest
  | ("cases", j) :: rest => do selectionEntries? field (← once cases (cases? j)) rest
  | _ :: rest => selectionEntries? field cases rest
/-- The cases of a discriminant. -/
def cases? : Json → Option (List (Word × FormatSpec))
  | .array items => caseItems? items
  | _ => none
/-- The cases of a list. -/
def caseItems? : List Json → Option (List (Word × FormatSpec))
  | [] => some []
  | .object entries :: rest => do
    let key ← caseKey? none entries
    let f ← (← formatEntries? .start entries).spec
    return (← key, f) :: (← caseItems? rest)
  | _ :: _ => none
/-- The key of a case among its entries. -/
def caseKey? (key : Option Word) : List (String × Json) → Option (Option Word)
  | [] => some key
  | ("value", j) :: rest => do caseKey? (← once key (word64? j)) rest
  | _ :: rest => caseKey? key rest
end

/-! ## Values that are read as they come -/

/-- The value, which must be there. -/
def require {α : Type} : Option α → Scan α
  | some x => return x
  | none => throw .mismatched

/-- An entry that may come once: nothing is read of it when it comes again. -/
def entryOnce {α : Type} (old : Option α) (value : Scan α) : Scan (Option α) := do
  if old.isSome then throw .mismatched
  colon
  return some (← value)

/-- An entry of another name. -/
def passOver : Scan Unit := do
  colon
  skip

/-- An object of members. -/
def readMemberObject : Scan MemberObject := do
  if (← ahead) = '\x7b' then
    advance
    let entry name (object : MemberObject) := do
      colon
      let j ← Json.read (maxNesting - 5)
      return object.insert name (← require (memberSpec? j))
    entries text entry []
  else mismatch

/-- What has been met of a case: its key, and the other entries in reverse. -/
abbrev CaseEntries := Option Word × List (String × Json)

/-- A case. -/
def readCase : Scan (Word × FormatSpec) := do
  if (← ahead) = '\x7b' then
    advance
    let entry name (met : CaseEntries) := do
      if name = "value" then
        return (← entryOnce met.1 (do return .ofNat 64 (← readNatural)), met.2)
      else
        colon
        return (met.1, (name, ← Json.read (maxNesting - 6)) :: met.2)
    let (key, others) ← entries text entry (none, [])
    let key ← require key
    let f ← require ((formatEntries? .start others.reverse).bind FormatEntries.spec)
    return (key, f)
  else mismatch

/-- A discriminant. -/
def readSelection : Scan Selection := do
  let c ← ahead
  if c = '\x7b' then
    advance
    let entry name (met : Option String × Option (List (Word × FormatSpec))) := do
      if name = "field" then return (← entryOnce met.1 readText, met.2)
      else if name = "cases" then return (met.1, ← entryOnce met.2 (readArray readCase))
      else
        passOver
        return met
    let (field, cases) ← entries text entry (none, none)
    return (← require field, ← require cases)
  else if c = '[' then
    advance
    if ¬ (← moreElements true) then throw .mismatched
    let field ← readText
    if ¬ (← moreElements false) then throw .mismatched
    let cases ← readArray readCase
    closeArray
    return (field, cases)
  else mismatch

/-- A format. -/
def readFormat : Scan FormatSpec := do
  let c ← ahead
  let met ← if c = '\x7b' then do
      advance
      let entry name (f : FormatEntries) := do
        if name = "name" then return { f with name := ← entryOnce f.name readText }
        else if name = "members" then
          return { f with members := ← entryOnce f.members (readArray readMemberObject) }
        else if name = "discriminant" then
          return { f with discriminant := ← entryOnce f.discriminant (readOption readSelection) }
        else
          passOver
          return f
      entries text entry .start
    else if c = '[' then do
      advance
      if ¬ (← moreElements true) then throw .mismatched
      let name ← readText
      let members ← if ← moreElements false then pure (some (← readArray readMemberObject))
        else pure none
      let discriminant ← if ← moreElements false then pure (some (← readOption readSelection))
        else pure none
      closeArray
      pure ⟨some name, members, discriminant⟩
    else mismatch
  require met.spec

/-- A table. -/
def readDocument : Scan Document := do
  let c ← ahead
  if c = '\x7b' then
    advance
    let entry name (met : Option (List FormatSpec)) := do
      if name = "formats" then entryOnce met (readArray readFormat)
      else
        passOver
        return met
    return ⟨← require (← entries text entry none)⟩
  else if c = '[' then
    advance
    if ¬ (← moreElements true) then throw .mismatched
    let formats ← readArray readFormat
    closeArray
    return ⟨formats⟩
  else mismatch

/-- The table that a text is. -/
def Document.ofText (s : String) : Except Json.Fault Document :=
  ((do let d ← readDocument; finish; return d : Scan Document).run s.toList).map (·.1)

/-- The definitions of the table that a text is. -/
def parse (s : String) : Except TableError (List Definition) :=
  match Document.ofText s with
  | .error fault => .error (.unreadable fault)
  | .ok d => d.definitions

/-- The registry of the table that a text is. -/
def registry (s : String) : Except TableError Registry := do
  match Registry.build (← parse s) with
  | .ok r => .ok r
  | .error defect => .error (.defective defect)

end ShaderWord.Table
