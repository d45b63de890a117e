import Mathlib.Data.List.Pairwise
import ShaderWord.Chain
import ShaderWord.Proofs.Pin

/-!
# Trails and positions

A chain is a position in the trees of definitions: `Chain.extend` goes one case further down, and every
position is reached from a top-level format by such steps (`Chain.induct`). What the definitions and the
choices on the way to a position say is its `Trail`: fields in order, and pins. Positions of different lists
with the same way down (`Chain.Alike`) have all this in common.
-/

namespace ShaderWord

/-- The fields have different names and no bit in common. -/
def Field.IsApart (f g : Field) : Prop := f.name ≠ g.name ∧ f.slice.mask &&& g.slice.mask = 0

instance : Std.Symm Field.IsApart where
  symm _ _ h := ⟨h.1.symm, (BitVec.and_comm _ _).trans h.2⟩

theorem Field.IsApart.not_common {f g : Field} (h : f.IsApart g) {i : Nat}
    (hf : f.slice.mask.getLsbD i = true) (hg : g.slice.mask.getLsbD i = true) : False := by
  have hfree : g.slice.mask.getLsbD i = false := inter_eq_zero_iff.1 h.2 i hf
  rw [hg] at hfree
  cases hfree

/-- The definitions passed on a way down, and the choices made between them. -/
structure Trail where
  shapes : List Shape
  path : List Choice

namespace Trail

/-- Nothing is passed above a top-level format. -/
def empty : Trail := ⟨[], []⟩

def enter (t : Trail) (s : Shape) : Trail := { t with shapes := t.shapes ++ [s] }

def choose (t : Trail) (p : Choice) : Trail := { t with path := t.path ++ [p] }

def fields (t : Trail) : List Field := t.shapes.flatMap Shape.fields

/-- The field of a name. -/
def field? (t : Trail) (name : String) : Option Field := t.fields.find? (·.name = name)

/-- The pin of a choice, if its field is known. -/
def choicePin (t : Trail) (p : Choice) : Option Pin := (t.field? p.field).map (·.pin p.key)

/-- What the definitions and the choices pin. -/
def pins (t : Trail) : List Pin := t.shapes.map Shape.pin ++ t.path.filterMap t.choicePin

/-- What holds of the trails that can be resolved. -/
structure IsSound (t : Trail) : Prop where
  within : ∀ s ∈ t.shapes, s.pin.IsWithin
  valid : ∀ f ∈ t.fields, f.slice.IsValid
  apart : t.fields.Pairwise Field.IsApart
  known : ∀ p ∈ t.path, ∃ f, t.field? p.field = some f ∧ f.slice.signed = false ∧
    p.key >>> f.slice.width.toNat = 0

variable {t : Trail} {s : Shape} {p : Choice} {f : Field} {name : String}

@[simp] theorem shapes_enter : (t.enter s).shapes = t.shapes ++ [s] := rfl

@[simp] theorem path_enter : (t.enter s).path = t.path := rfl

@[simp] theorem shapes_choose : (t.choose p).shapes = t.shapes := rfl

@[simp] theorem path_choose : (t.choose p).path = t.path ++ [p] := rfl

@[simp] theorem fields_enter : (t.enter s).fields = t.fields ++ s.fields := by
  simp [fields, enter]

@[simp] theorem fields_choose : (t.choose p).fields = t.fields := rfl

@[simp] theorem field?_choose : (t.choose p).field? name = t.field? name := rfl

theorem field?_enter (h : t.field? name = some f) : (t.enter s).field? name = some f := by
  unfold field? at h ⊢
  rw [fields_enter, List.find?_append, h, Option.some_or]

theorem field?_eq_some (h : t.field? name = some f) : f ∈ t.fields ∧ f.name = name := by
  unfold field? at h
  exact ⟨List.mem_of_find?_eq_some h, by simpa using List.find?_some h⟩

theorem mem_pins {q : Pin} : q ∈ t.pins ↔
    (∃ s ∈ t.shapes, s.pin = q) ∨ ∃ p ∈ t.path, ∃ f, t.field? p.field = some f ∧ f.pin p.key = q := by
  simp [pins, choicePin]

theorem pins_choose (h : t.field? p.field = some f) :
    (t.choose p).pins = t.pins ++ [f.pin p.key] := by
  have hpin : t.choicePin p = some (f.pin p.key) := by simp [choicePin, h]
  change t.shapes.map Shape.pin ++ (t.path ++ [p]).filterMap t.choicePin = _
  simp [pins, hpin]

namespace IsSound

theorem empty : Trail.empty.IsSound where
  within := by simp [Trail.empty]
  valid := by simp [Trail.empty, fields]
  apart := by simp [Trail.empty, fields]
  known := by simp [Trail.empty]

theorem exists_field (h : t.IsSound) (hp : p ∈ t.path) : ∃ f, t.field? p.field = some f :=
  (h.known p hp).imp fun _ hf => hf.1

theorem fits (h : t.IsSound) (hp : p ∈ t.path) (hf : t.field? p.field = some f) :
    p.key >>> f.slice.width.toNat = 0 := by
  obtain ⟨g, hg, -, hfit⟩ := h.known p hp
  rwa [Option.some.inj (hg.symm.trans hf)] at hfit

/-- The definition entered adds its fixed bits to the pins; the known choices keep theirs. -/
theorem mem_pins_enter (h : t.IsSound) {q : Pin} :
    q ∈ (t.enter s).pins ↔ q ∈ t.pins ++ [s.pin] := by
  have hsame : ∀ p ∈ t.path, ∀ g, (t.enter s).field? p.field = some g ↔ t.field? p.field = some g := by
    intro p hp g
    obtain ⟨f, hf⟩ := h.exists_field hp
    rw [hf, field?_enter hf]
  have hpath : (∃ p ∈ t.path, ∃ f, (t.enter s).field? p.field = some f ∧ f.pin p.key = q) ↔
      ∃ p ∈ t.path, ∃ f, t.field? p.field = some f ∧ f.pin p.key = q := by
    refine exists_congr fun p => and_congr_right fun hp => exists_congr fun f => ?_
    rw [hsame p hp]
  rw [List.mem_append, List.mem_singleton, mem_pins, mem_pins, path_enter, hpath, shapes_enter]
  simp only [List.mem_append, List.mem_singleton, or_and_right, exists_or, exists_eq_left,
    eq_comm (a := q)]
  exact or_right_comm

theorem isWithin_of_mem_pins (h : t.IsSound) {q : Pin} (hq : q ∈ t.pins) : q.IsWithin := by
  rcases mem_pins.1 hq with ⟨s, hs, rfl⟩ | ⟨p, hp, f, hf, rfl⟩
  · exact h.within s hs
  · exact Field.isWithin_pin (h.fits hp hf)

/-- A word has the bits of a choice if and only if the field reads its key. -/
theorem holds_choice_iff (h : t.IsSound) (hp : p ∈ t.path) (hf : t.field? p.field = some f)
    {w : Word} : (f.pin p.key).Holds w ↔ f.slice.raw w = p.key :=
  Field.holds_pin_iff (h.valid f (field?_eq_some hf).1) (h.fits hp hf)

theorem choose (h : t.IsSound) (hf : t.field? p.field = some f) (hu : f.slice.signed = false)
    (hfit : p.key >>> f.slice.width.toNat = 0) : (t.choose p).IsSound where
  within := h.within
  valid := h.valid
  apart := h.apart
  known := by
    intro q hq
    rcases List.mem_append.1 hq with hq | hq
    · exact h.known q hq
    · obtain rfl := List.mem_singleton.1 hq
      exact ⟨f, hf, hu, hfit⟩

/-- A definition with fixed bits within its mask and fields apart from all others keeps a trail sound. -/
theorem enter (h : t.IsSound) (hw : s.pin.IsWithin) (hv : ∀ f ∈ s.fields, f.slice.IsValid)
    (ha : (t.fields ++ s.fields).Pairwise Field.IsApart) : (t.enter s).IsSound where
  within := by
    intro r hr
    rcases List.mem_append.1 hr with hr | hr
    · exact h.within r hr
    · obtain rfl := List.mem_singleton.1 hr
      exact hw
  valid := by
    intro f hf
    rw [fields_enter] at hf
    rcases List.mem_append.1 hf with hf | hf
    · exact h.valid f hf
    · exact hv f hf
  apart := by rwa [fields_enter]
  known := by
    intro p hp
    obtain ⟨f, hf, rest⟩ := h.known p hp
    exact ⟨f, field?_enter hf, rest⟩

/-- Fields of a sound trail with a common bit are one field. -/
theorem apart_of_ne (h : t.IsSound) {f g : Field} (hf : f ∈ t.fields) (hg : g ∈ t.fields)
    (hne : f ≠ g) : f.IsApart g :=
  h.apart.forall hf hg hne

end IsSound

end Trail

/-! ### Positions -/

namespace Tree

variable {α : Type} {t : Tree α} {a : α} {field : String} {cases : List (Word × Tree α)}

theorem label_of_leaf (h : t = .leaf a) : t.label = a := by rw [h]; rfl

theorem label_of_select (h : t = .select a field cases) : t.label = a := by rw [h]; rfl

theorem selection_of_select (h : t = .select a field cases) : t.selection = some (field, cases) := by
  rw [h]; rfl

/-- The cases have one key, and their trees are related. -/
inductive AtKey {β : Type} (R : Tree α → Tree β → Prop) : Word × Tree α → Word × Tree β → Prop
  | mk (key : Word) {t : Tree α} {u : Tree β} (h : R t u) : AtKey R (key, t) (key, u)

end Tree

namespace Chain

/-- The way to the target, without the target. -/
def above (c : Chain) : Trail := ⟨c.links.map Link.shape, c.path⟩

/-- The way to the target, and the target. -/
def trail (c : Chain) : Trail := ⟨c.shapes, c.path⟩

/-- The chain that goes on into a case of the target. -/
def extend (c : Chain) (p : Choice) (child : Definition) : Chain :=
  ⟨c.links ++ [⟨c.target.label, p⟩], child⟩

/-- The chain that goes on from the target by another chain. -/
def append (c c' : Chain) : Chain := ⟨c.links ++ c'.links, c'.target⟩

/-- The chains to all definitions, top-level or not, in declaration order. -/
def ofDefinitions (ds : List Definition) : List Chain := ds.flatMap ofDefinition

section Extend

variable (c : Chain) (p : Choice) (child : Definition)

theorem trail_eq_enter : c.trail = c.above.enter c.target.label := rfl

theorem above_extend : (c.extend p child).above = c.trail.choose p := by
  simp [above, extend, trail, shapes, path, Trail.choose]

@[simp] theorem links_extend : (c.extend p child).links = c.links ++ [⟨c.target.label, p⟩] := rfl

@[simp] theorem target_extend : (c.extend p child).target = child := rfl

@[simp] theorem shapes_extend : (c.extend p child).shapes = c.shapes ++ [child.label] := by
  simp [shapes]

@[simp] theorem path_extend : (c.extend p child).path = c.path ++ [p] := by simp [path]

@[simp] theorem names_extend : (c.extend p child).names = c.names ++ [child.label.name] := by
  simp [names]

@[simp] theorem append_root : c.append ⟨[], c.target⟩ = c := by simp [append]

theorem append_below (c' : Chain) :
    c.append (c'.below ⟨c.target.label, p⟩) = (c.extend p child).append c' := by
  simp [append, below, extend]

theorem pinned_eq : c.pinned = (Pin.join c.trail.pins).mask := by
  have hpath : ∀ q : Choice, ((c.field? q.field).map fun f => f.slice.mask) =
      (c.trail.choicePin q).map Pin.mask := fun q => by
    rw [Trail.choicePin, Option.map_map]
    rfl
  unfold pinned Pin.join Trail.pins
  rw [List.map_append, List.map_map, List.map_filterMap]
  simp only [hpath]
  rfl

end Extend

theorem mem_ofCases {s : Shape} {field : String} {cases : List (Word × Definition)} {c : Chain} :
    c ∈ ofCases s field cases ↔
      ∃ key child, (key, child) ∈ cases ∧
        ∃ c' ∈ ofDefinition child, c = c'.below ⟨s, ⟨field, key⟩⟩ := by
  induction cases with
  | nil => simp [ofCases]
  | cons head rest ih =>
    obtain ⟨key, child⟩ := head
    rw [ofCases, List.mem_append, ih, List.mem_map]
    constructor
    · rintro (⟨c', hc', rfl⟩ | ⟨k, t, ht, c', hc', rfl⟩)
      · exact ⟨key, child, List.mem_cons_self, c', hc', rfl⟩
      · exact ⟨k, t, List.mem_cons_of_mem _ ht, c', hc', rfl⟩
    · rintro ⟨k, t, ht, c', hc', rfl⟩
      rcases List.mem_cons.1 ht with heq | ht
      · obtain ⟨rfl, rfl⟩ := Prod.mk.inj heq
        exact Or.inl ⟨c', hc', rfl⟩
      · exact Or.inr ⟨k, t, ht, c', hc', rfl⟩

theorem root_mem (d : Definition) : ⟨[], d⟩ ∈ ofDefinition d := by
  cases d <;> simp [ofDefinition]

theorem mem_ofDefinition {d : Definition} {c : Chain} :
    c ∈ ofDefinition d ↔ c = ⟨[], d⟩ ∨
      ∃ s field cases key child, d = .select s field cases ∧ (key, child) ∈ cases ∧
        ∃ c' ∈ ofDefinition child, c = c'.below ⟨s, ⟨field, key⟩⟩ := by
  cases d with
  | leaf s => simp [ofDefinition]
  | select s field cases =>
    rw [ofDefinition, List.mem_cons, mem_ofCases]
    constructor
    · rintro (rfl | ⟨key, child, hmem, hc⟩)
      · exact Or.inl rfl
      · exact Or.inr ⟨s, field, cases, key, child, rfl, hmem, hc⟩
    · rintro (rfl | ⟨s', field', cases', key, child, heq, hmem, hc⟩)
      · exact Or.inl rfl
      · obtain ⟨rfl, rfl, rfl⟩ := Tree.select.inj heq
        exact Or.inr ⟨key, child, hmem, hc⟩

theorem below_mem {s : Shape} {field : String} {cases : List (Word × Definition)} {key : Word}
    {child : Definition} {c : Chain} (hmem : (key, child) ∈ cases) (hc : c ∈ ofDefinition child) :
    c.below ⟨s, ⟨field, key⟩⟩ ∈ ofDefinition (.select s field cases) :=
  mem_ofDefinition.2 (Or.inr ⟨s, field, cases, key, child, rfl, hmem, c, hc, rfl⟩)

theorem extend_mem {d : Definition} {c : Chain} {s : Shape} {field : String}
    {cases : List (Word × Definition)} {key : Word} {child : Definition}
    (hc : c ∈ ofDefinition d) (ht : c.target = .select s field cases) (hmem : (key, child) ∈ cases) :
    c.extend ⟨field, key⟩ child ∈ ofDefinition d := by
  induction d using Tree.induct generalizing c with
  | leaf a =>
    obtain rfl : c = ⟨[], .leaf a⟩ := by simpa [ofDefinition] using hc
    cases ht
  | select a f cs ih =>
    rcases mem_ofDefinition.1 hc with rfl | ⟨a', f', cs', k, t, heq, hkt, c', hc', rfl⟩
    · obtain ⟨rfl, rfl, rfl⟩ := Tree.select.inj ht
      exact below_mem hmem (root_mem child)
    · obtain ⟨rfl, rfl, rfl⟩ := Tree.select.inj heq
      have hgo := ih (k, t) hkt hc' ht
      exact below_mem hkt hgo

/-- **Every position is reached from the top**, one case at a time. -/
theorem induct {d : Definition} {P : Chain → Prop} (root : P ⟨[], d⟩)
    (extend : ∀ c ∈ ofDefinition d, ∀ s field cases key child, c.target = .select s field cases →
      (key, child) ∈ cases → P c → P (c.extend ⟨field, key⟩ child)) :
    ∀ c ∈ ofDefinition d, P c := by
  -- the chains within the target of a position, by induction on the target
  suffices h : ∀ t : Definition, ∀ c ∈ ofDefinition d, c.target = t → P c →
      ∀ c' ∈ ofDefinition t, P (c.append c') by
    intro c hc
    simpa [append] using h d ⟨[], d⟩ (root_mem d) rfl root c hc
  intro t
  induction t using Tree.induct with
  | leaf a =>
    intro c _ ht hP c' hc'
    obtain rfl : c' = ⟨[], .leaf a⟩ := by simpa [ofDefinition] using hc'
    rwa [← ht, append_root]
  | select a f cs ih =>
    intro c hc ht hP c' hc'
    rcases mem_ofDefinition.1 hc' with rfl | ⟨a', f', cs', k, t, heq, hkt, c'', hc'', rfl⟩
    · rwa [← ht, append_root]
    · obtain ⟨rfl, rfl, rfl⟩ := Tree.select.inj heq
      rw [← Tree.label_of_select ht, append_below c ⟨f, k⟩ t]
      exact ih (k, t) hkt _ (extend_mem hc ht hkt) rfl (extend c hc a f cs k t ht hkt hP) c'' hc''

theorem mem_ofDefinitions {ds : List Definition} {d : Definition} {c : Chain} (hd : d ∈ ds)
    (hc : c ∈ ofDefinition d) : c ∈ ofDefinitions ds :=
  List.mem_flatMap.2 ⟨d, hd, hc⟩

theorem exists_of_mem_ofDefinitions {ds : List Definition} {c : Chain} (hc : c ∈ ofDefinitions ds) :
    ∃ d ∈ ds, c ∈ ofDefinition d :=
  List.mem_flatMap.1 hc

theorem head?_shapes {d : Definition} {c : Chain} (hc : c ∈ ofDefinition d) :
    c.shapes.head? = some d.label := by
  refine induct (P := fun c => c.shapes.head? = some d.label) rfl ?_ c hc
  intro c _ s field cases key child _ _ ih
  rw [shapes_extend, List.head?_append, ih]
  rfl

theorem head?_names {d : Definition} {c : Chain} (hc : c ∈ ofDefinition d) :
    c.names.head? = some d.label.name := by
  rw [names, List.head?_map, head?_shapes hc]
  rfl

/-! ### Positions alike -/

/-- The ways down are the same, up to and with the definition that they lead to. The definitions below it may
differ. -/
structure Alike (c c' : Chain) : Prop where
  links : c.links = c'.links
  label : c.target.label = c'.target.label

namespace Alike

variable {c c' : Chain} {w : Word}

theorem symm (h : c.Alike c') : c'.Alike c := ⟨h.links.symm, h.label.symm⟩

theorem path_eq (h : c.Alike c') : c.path = c'.path := by rw [path, path, h.links]

theorem above_eq (h : c.Alike c') : c.above = c'.above := by rw [above, above, h.links, h.path_eq]

theorem shapes_eq (h : c.Alike c') : c.shapes = c'.shapes := by rw [shapes, shapes, h.links, h.label]

theorem fields_eq (h : c.Alike c') : c.fields = c'.fields := by rw [fields, fields, h.shapes_eq]

theorem field?_eq (h : c.Alike c') (name : String) : c.field? name = c'.field? name := by
  rw [field?, field?, h.fields_eq]

theorem trail_eq (h : c.Alike c') : c.trail = c'.trail := by
  rw [trail, trail, h.shapes_eq, h.path_eq]

theorem pinned_eq (h : c.Alike c') : c.pinned = c'.pinned := by
  rw [Chain.pinned_eq, Chain.pinned_eq, h.trail_eq]

theorem layout_eq (h : c.Alike c') : c.layout = c'.layout := by
  rw [layout, layout, key, key, names, names, h.shapes_eq, h.path_eq, h.fields_eq]

theorem admits_iff (h : c.Alike c') : c.Admits w ↔ c'.Admits w := by
  unfold Admits
  rw [h.shapes_eq, h.path_eq]
  simp only [h.field?_eq]

theorem extend (h : c.Alike c') (p : Choice) {child child' : Definition}
    (hlabel : child.label = child'.label) : (c.extend p child).Alike (c'.extend p child') where
  links := by rw [links_extend, links_extend, h.links, h.label]
  label := hlabel

end Alike

end Chain

end ShaderWord
