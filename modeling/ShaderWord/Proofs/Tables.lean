import ShaderWord.Proofs.JsonValues
import ShaderWord.Proofs.Redrawing
import ShaderWord.Table.Reader

/-!
# Tables of definitions

* `Table.FormatSpec.ofDefinition d` — what a table says of a definition whose fields are all spelled out;
* `Table.FormatSpec.definition_ofDefinition`: of a definition that is laid it says all there is;
* `Table.spec_definitionEntries`: it is what the entries of the definition say, once they have been read.
-/

namespace ShaderWord.Table

open Json

/-! ### What a table says of a definition -/

/-- The member of a field, spelled out. -/
def MemberSpec.ofField (s : Shape) (f : Field) : MemberSpec :=
  .detailed f.slice.width.toUInt32 (some f.slice.offset.toUInt32) (s.pattern? f) f.slice.signed

/-- The heading of a shape, with one object for each field. -/
def Heading.ofShape (s : Shape) : Heading := ⟨s.name, s.fields.map fun f => [(f.name, .ofField s f)]⟩

mutual
/-- The format of a definition. -/
def FormatSpec.ofDefinition : Definition → FormatSpec
  | .leaf s => .leaf (.ofShape s)
  | .select s field cases => .select (.ofShape s) field (ofCases cases)
/-- The formats of cases. -/
def FormatSpec.ofCases : List (Word × Definition) → List (Word × FormatSpec)
  | [] => []
  | (key, child) :: rest => (key, .ofDefinition child) :: ofCases rest
end

theorem FormatSpec.ofCases_eq_map (cases : List (Word × Definition)) :
    ofCases cases = cases.map fun c => (c.1, .ofDefinition c.2) := by
  induction cases with
  | nil => rw [ofCases, List.map_nil]
  | cons c cases ih => rw [ofCases, ih, List.map_cons]

/-- A shape that is laid, and whose value is within its mask. -/
def IsSpelled (s : Shape) : Prop := s.IsLaid ∧ s.pin.IsWithin

theorem Heading.addMembers_eq (name : String) (d : Draft) (s : Shape) (fs : List Field) :
    addMembers name d (fs.map fun f => [(f.name, .ofField s f)]) =
      .ok ((fs.map s.memberOf).foldl Draft.member d) := by
  induction fs generalizing d with
  | nil => rfl
  | cons f fs ih => exact ih (d.member (s.memberOf f))

theorem Heading.exists_draft_ofShape {s : Shape} (h : IsSpelled s) :
    ∃ p, (ofShape s).draft = .ok ⟨s.name, .ok p⟩ ∧ p.selection = none ∧
      (⟨s.name, p.mask, p.value, p.fields⟩ : Shape) = s := by
  obtain ⟨p, hp, hsel, hshape⟩ := Draft.exists_ofMembers_memberOf h.1 h.2
  refine ⟨p, ?_, hsel, hshape⟩
  rw [← hp]
  exact addMembers_eq s.name (.new s.name) s s.fields

namespace FormatSpec

theorem exists_draftCases {cases : List (Word × Definition)}
    (h : ∀ c ∈ cases, ∃ draft, (ofDefinition c.2).draft = .ok draft ∧ draft.build = .ok c.2) :
    ∃ drafts, draftCases (ofCases cases) = .ok drafts ∧ Draft.buildCases drafts = .ok cases := by
  induction cases with
  | nil => exact ⟨[], rfl, rfl⟩
  | cons c cases ih =>
    obtain ⟨key, child⟩ := c
    obtain ⟨⟨draft, hdraft, hbuild⟩, hcases⟩ := List.forall_mem_cons.1 h
    obtain ⟨drafts, hdrafts, hbuilds⟩ := ih hcases
    refine ⟨(key, draft) :: drafts, ?_, ?_⟩
    · rw [ofCases, draftCases, hdraft, hdrafts]
      rfl
    · rw [Draft.buildCases, hbuild, hbuilds]
      rfl

theorem exists_draft_ofDefinition {d : Definition} (h : d.Each IsSpelled) :
    ∃ draft, (ofDefinition d).draft = .ok draft ∧ draft.build = .ok d := by
  induction h with
  | @leaf s hs =>
    obtain ⟨p, hp, hsel, hshape⟩ := Heading.exists_draft_ofShape hs
    refine ⟨_, hp, ?_⟩
    have : p.toDefinition s.name = .leaf s := by
      rw [Draft.Progress.toDefinition, hsel, hshape]
    exact congrArg Except.ok this
  | @select s field cases hs _ ih =>
    obtain ⟨p, hp, -, hshape⟩ := Heading.exists_draft_ofShape hs
    obtain ⟨drafts, hdrafts, hbuilds⟩ := exists_draftCases ih
    refine ⟨Draft.select ⟨s.name, .ok p⟩ field drafts, ?_, ?_⟩
    · rw [ofDefinition, draft, hp, hdrafts]
      rfl
    · have hstate : (Draft.select ⟨s.name, .ok p⟩ field drafts).state =
          .ok { p with selection := some (field, cases) } := by
        rw [Draft.select, hbuilds]
        rfl
      rw [Draft.build, hstate]
      exact congrArg (fun s => Except.ok (Tree.select s field cases)) hshape

/-- **What a table says of a spelled definition is that definition.** -/
theorem definition_ofDefinition {d : Definition} (h : d.Each IsSpelled) :
    (ofDefinition d).definition = .ok d := by
  obtain ⟨draft, hdraft, hbuild⟩ := exists_draft_ofDefinition h
  rw [definition, hdraft]
  simp only [bind, Except.bind, hbuild]

end FormatSpec

/-! ### What the entries of a definition say -/

section Entries

variable {s : Shape} {f : Field} {b : UInt8}

theorem toNat_le_maxSignificand (b : UInt8) : b.toNat ≤ Numeral.maxSignificand :=
  Nat.le_trans (Nat.le_of_lt b.toNat_lt) (by decide)

theorem word_le_maxSignificand (w : Word) : w.toNat ≤ Numeral.maxSignificand :=
  Nat.le_pred_of_lt w.isLt

theorem word32?_byte (b : UInt8) : word32? (.number (.ofNat b.toNat)) = some b.toUInt32 := by
  have hlt : b.toNat < UInt32.size := Nat.lt_trans b.toNat_lt (by decide)
  rw [word32?, Numeral.toNat?_ofNat (toNat_le_maxSignificand b)]
  simp [hlt]

theorem word64?_word (w : Word) : word64? (.number (.ofNat w.toNat)) = some w := by
  rw [word64?, Numeral.toNat?_ofNat (word_le_maxSignificand w)]
  simp

/-- The entries of a member that is spelled out. -/
def memberEntries (s : Shape) (f : Field) : List (String × Json) :=
  [("count", .number (.ofNat f.slice.width.toNat)), ("offset", .number (.ofNat f.slice.offset.toNat)),
    ("signed", .bool f.slice.signed)] ++ ((s.pattern? f).map fun bits => ("match", Json.string bits)).toList

theorem memberJson_eq (s : Shape) (f : Field) :
    memberJson s f = .object [(f.name, .object (memberEntries s f))] := by
  unfold memberJson memberEntries Shape.pattern?
  by_cases hfixed : s.Fixes f
  · rw [if_pos hfixed]
    exact congrArg (fun more => Json.object [(f.name, .object (_ ++ more))]) (if_pos hfixed)
  · rw [if_neg hfixed]
    exact congrArg (fun more => Json.object [(f.name, .object (_ ++ more))]) (if_neg hfixed)

theorem memberSpec?_memberEntries (s : Shape) (f : Field) :
    memberSpec? (.object (memberEntries s f)) = some (.ofField s f) := by
  have hcount := word32?_byte f.slice.width
  have hoffset := word32?_byte f.slice.offset
  unfold memberSpec? memberEntries MemberSpec.ofField
  cases s.pattern? f with
  | none => simp [MemberEntries.add, once, nullable, hcount, hoffset, MemberEntries.spec]
  | some bits => simp [MemberEntries.add, once, nullable, text?, hcount, hoffset, MemberEntries.spec]

theorem memberObject?_memberJson (s : Shape) (f : Field) :
    memberObject? (memberJson s f) = some [(f.name, .ofField s f)] := by
  rw [memberJson_eq, memberObject?]
  simp only [List.foldlM_cons, memberSpec?_memberEntries]
  rfl

theorem members?_memberJson (s : Shape) :
    members? (.array (s.fields.map (memberJson s))) = some (Heading.ofShape s).members := by
  unfold members? Heading.ofShape
  induction s.fields with
  | nil => rfl
  | cons f fs ih =>
    simp only [List.map_cons, List.mapM_cons] at ih ⊢
    rw [memberObject?_memberJson, ih]
    rfl

theorem formatEntries?_shapeEntries (s : Shape) (rest : List (String × Json)) :
    formatEntries? .start (shapeEntries s ++ rest) =
      formatEntries? ⟨some s.name, some (Heading.ofShape s).members, none⟩ rest := by
  simp only [shapeEntries, List.cons_append, List.nil_append, formatEntries?, members?_memberJson]
  rfl

/-- The object of a case. -/
def caseJson (c : Word × Definition) : Json :=
  .object (("value", .number (.ofNat c.1.toNat)) :: definitionEntries c.2)

theorem casesJson_eq_map (cases : List (Word × Definition)) : casesJson cases = cases.map caseJson := by
  induction cases with
  | nil => rw [casesJson, List.map_nil]
  | cons c cases ih => rw [casesJson, ih, List.map_cons, caseJson]

/-- A key that is no entry of a definition stays what it is. -/
theorem caseKey?_definitionEntries (key : Option Word) (d : Definition) :
    caseKey? key (definitionEntries d) = some key := by
  cases d with
  | leaf s => simp [definitionEntries, shapeEntries, caseKey?]
  | select s field cases => simp [definitionEntries, shapeEntries, caseKey?]

theorem caseItems?_casesJson {cases : List (Word × Definition)}
    (h : ∀ c ∈ cases, (formatEntries? .start (definitionEntries c.2)).bind FormatEntries.spec =
      some (.ofDefinition c.2)) : caseItems? (casesJson cases) = some (FormatSpec.ofCases cases) := by
  induction cases with
  | nil => simp [casesJson, caseItems?, FormatSpec.ofCases]
  | cons c cases ih =>
    obtain ⟨key, child⟩ := c
    obtain ⟨hchild, hcases⟩ := List.forall_mem_cons.1 h
    obtain ⟨entries, hentries, hspec⟩ := Option.bind_eq_some_iff.1 hchild
    have hstart : formatEntries? .start (("value", .number (.ofNat key.toNat)) :: definitionEntries child) =
        some entries := hentries
    have hkey : caseKey? none (("value", .number (.ofNat key.toNat)) :: definitionEntries child) =
        some (some key) := by
      simp only [caseKey?, once, word64?_word]
      exact caseKey?_definitionEntries (some key) child
    rw [casesJson, caseItems?, hkey, hstart]
    simp only [Option.bind_eq_bind, Option.bind_some, hspec, ih hcases, FormatSpec.ofCases]
    rfl

/-- **The entries of a definition say what the definition is.** -/
theorem spec_definitionEntries (d : Definition) :
    (formatEntries? .start (definitionEntries d)).bind FormatEntries.spec = some (.ofDefinition d) := by
  induction d using Tree.induct with
  | leaf s =>
    have hentries := formatEntries?_shapeEntries s []
    rw [List.append_nil] at hentries
    rw [definitionEntries, hentries]
    rfl
  | select s field cases ih =>
    rw [definitionEntries, formatEntries?_shapeEntries]
    simp only [formatEntries?, selection?, selectionEntries?, cases?, text?, caseItems?_casesJson ih]
    rfl

end Entries

end ShaderWord.Table
