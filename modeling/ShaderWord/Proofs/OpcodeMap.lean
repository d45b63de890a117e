import ShaderWord.Proofs.Ambiguity
import ShaderWord.Proofs.BuiltIn
import ShaderWord.Proofs.Routing

/-!
# The opcode map of the built-in formats

* `Usse.opcodeMap w` — the key of the instruction that `w` is, or why it is none, read off the opcode in the top
  five bits and, for one opcode, off a few bits further down;
* `Usse.opcode_map`: this is what the built-in registry answers.

A word is of a terminal position (`Usse.admits_vmovAt` and the others), or its way ends at `spec` because there
is no case for its category (`Usse.endsAt_specRoot`), or no format accepts it (`Usse.not_accepts`).
-/

namespace ShaderWord

/-! ### Tables with a handler for each format -/

theorem Registry.exists_handler {m : Type → Type} {α : Type} {ds : List Definition} {r : Registry}
    {w : Word} {inst : Instruction} {t : HandlerTable m α} (h : build ds = .ok r)
    (hinst : r.decode w = .ok inst) (ht : ∀ d ∈ ds, (t.handlers.lookup d.label.name).isSome = true) :
    ∃ f, t.lookup? inst.key = some f := by
  obtain ⟨c, hc, -, hlayout⟩ := exists_admits_of_decode h hinst
  have hmem := (Chain.mem_terminals.1 hc).1
  obtain ⟨d, hd, hcd⟩ := Chain.exists_of_mem_ofDefinitions hmem
  -- the way to the position starts at the format
  have hroot : d.label.name ∈ Key.enclosing c.key := by
    refine (Chain.mem_enclosing_key_iff (accepted_of_build h).1.vetted hmem).2 ⟨⟨[], d⟩, ?_, ?_⟩
    · exact ⟨Chain.mem_ofDefinitions hd (Chain.root_mem d), c, hcd, rfl⟩
    · exact Key.ofNames_singleton _
  refine Option.isSome_iff_exists.1 ?_
  rw [Instruction.key_of_layout hlayout, HandlerTable.lookup?, List.findSome?_isSome_iff]
  exact ⟨_, hroot, ht d hd⟩

namespace Usse

/-- What a word is by its opcode bits. -/
def opcodeMap (w : Word) : Except DecodeError String :=
  match bitsAt w 59 5 with
  | 0b00111 => .ok "vmov"
  | 0b00000 => .ok "vmadsi"
  | 0b00001 => .ok "vmad4"
  | 0b11111 =>
    if bitsAt w 49 1 = 1 then .ok "phas"
    else
      match bitsAt w 51 3 with
      | 0 => .ok "spec.flow"
      | 1 => .ok "spec.moe"
      | 2 => .ok "spec.sync"
      | 3 => .ok (if bitsAt w 50 1 = 0 then "spec.misc.kill" else "spec.misc.halt")
      | c => .error (.unknownDiscriminant "spec" "category" (.ofNat 64 c) w)
  | _ => .error (.unknownFormat w)

/-! ### Words without a case, and words without a format -/

section Errors

variable {w : Word}

theorem endsAt_specRoot (hw : specRoot.Admits w) (hcategory : 4 ≤ bitsAt w 51 3) :
    specRoot.EndsAt w := by
  refine ⟨hw, fun field cases hsel f hf child hmem => ?_⟩
  obtain ⟨rfl, rfl⟩ : "category" = field ∧ categories = cases := by
    simpa [specRoot, Tree.selection] using hsel
  obtain rfl : category = f := Option.some.inj (field?_category.symm.trans hf)
  have hkeys : ∀ p ∈ categories, p.1.toNat < 4 := by decide
  have hlt := hkeys _ hmem
  rw [Slice.toNat_raw] at hlt
  exact absurd hcategory (Nat.not_le_of_lt hlt)

theorem not_accepts (h7 : bitsAt w 59 5 ≠ 0b00111) (h0 : bitsAt w 59 5 ≠ 0b00000)
    (h1 : bitsAt w 59 5 ≠ 0b00001) (h31 : bitsAt w 59 5 ≠ 0b11111) :
    ∀ d ∈ builtIn, d.label.accepts w = false := by
  intro d hd
  rw [← Bool.not_eq_true, ← Chain.admits_root]
  simp only [builtIn, List.mem_cons, List.not_mem_nil, or_false] at hd
  rcases hd with rfl | rfl | rfl | rfl | rfl
  · exact fun hw => h7 (admits_vmovAt.1 hw)
  · exact fun hw => h0 (admits_vmadsiAt.1 hw)
  · exact fun hw => h1 (admits_vmad4At.1 hw)
  · exact fun hw => h31 (admits_phasAt.1 hw).1
  · exact fun hw => h31 (admits_specRoot.1 hw).1

end Errors

/-! ### The map -/

section Decode

variable {r : Registry} {w : Word} (h : Registry.build builtIn = .ok r)
include h

theorem key_of_admits {c : Chain} (hc : c ∈ Chain.terminals builtIn) (hw : c.Admits w) :
    (r.decode w).map Instruction.key = .ok c.key := by
  rw [Registry.decode_eq_of_admits h hc hw]
  rfl

theorem decode_of_endsAt_specRoot (hw : specRoot.EndsAt w) :
    r.decode w = .error (.unknownDiscriminant "spec" "category" (.ofNat 64 (bitsAt w 51 3)) w) := by
  have hc : specRoot ∈ Chain.ofDefinitions builtIn :=
    Chain.root_mem_ofDefinitions (List.mem_of_getLast? rfl)
  have hvalue : category.slice.raw w = .ofNat 64 (bitsAt w 51 3) := by
    have hlt := bitsAt_lt w 51 3
    rw [Slice.raw_eq_iff, BitVec.toNat_ofNat, Nat.mod_eq_of_lt (by omega)]
    rfl
  have hdecode : r.decode w = (r.trace w).read .blank := rfl
  rw [hdecode, Registry.trace_eq_report h hc hw, Chain.report_of_selection rfl field?_category, hvalue]
  rfl

/-- The words of one opcode are told apart by `phase_select`, then by category, then by `special`. -/
theorem map_key_decode_of_shared (hop : bitsAt w 59 5 = 0b11111) :
    (r.decode w).map Instruction.key = opcodeMap w := by
  simp only [opcodeMap, hop]
  by_cases hphase : bitsAt w 49 1 = 1
  · rw [if_pos hphase]
    exact key_of_admits h (List.mem_of_getElem? (i := 3) rfl) (admits_phasAt.2 ⟨hop, hphase⟩)
  rw [if_neg hphase]
  have hlt := bitsAt_lt w 49 1
  have hspec : specRoot.Admits w := admits_specRoot.2 ⟨hop, by omega⟩
  split
  case h_1 hcategory =>
    have hw : flowAt.Admits w := (admits_specAt (by decide)).2 ⟨hspec, hcategory⟩
    exact key_of_admits h (List.mem_of_getElem? (i := 4) rfl) hw
  case h_2 hcategory =>
    have hw : moeAt.Admits w := (admits_specAt (by decide)).2 ⟨hspec, hcategory⟩
    exact key_of_admits h (List.mem_of_getElem? (i := 5) rfl) hw
  case h_3 hcategory =>
    have hw : syncAt.Admits w := (admits_specAt (by decide)).2 ⟨hspec, hcategory⟩
    exact key_of_admits h (List.mem_of_getElem? (i := 6) rfl) hw
  case h_4 hcategory =>
    have hmisc : miscRoot.Admits w := admits_miscRoot.2 ⟨hspec, hcategory⟩
    split_ifs with hspecial
    · have hw : killAt.Admits w := (admits_miscAt (by decide)).2 ⟨hmisc, hspecial⟩
      exact key_of_admits h (List.mem_of_getElem? (i := 7) rfl) hw
    · have hlt := bitsAt_lt w 50 1
      have hw : haltAt.Admits w := (admits_miscAt (by decide)).2 ⟨hmisc, by change _ = 1; omega⟩
      exact key_of_admits h (List.mem_of_getElem? (i := 8) rfl) hw
  case h_5 h0 h1 h2 h3 =>
    -- no case has such a category, so the way ends at `spec`
    simp only [imp_false] at h0 h1 h2 h3
    rw [decode_of_endsAt_specRoot h (endsAt_specRoot hspec (by omega))]
    rfl

/-- **A word goes where its opcode bits say.** -/
theorem map_key_decode (w : Word) : (r.decode w).map Instruction.key = opcodeMap w := by
  by_cases hshared : bitsAt w 59 5 = 0b11111
  · exact map_key_decode_of_shared h hshared
  unfold opcodeMap
  split
  case h_1 hop => exact key_of_admits h (List.mem_of_getElem? (i := 0) rfl) (admits_vmovAt.2 hop)
  case h_2 hop => exact key_of_admits h (List.mem_of_getElem? (i := 1) rfl) (admits_vmadsiAt.2 hop)
  case h_3 hop => exact key_of_admits h (List.mem_of_getElem? (i := 2) rfl) (admits_vmad4At.2 hop)
  case h_4 hop => exact absurd hop hshared
  case h_5 h7 h0 h1 _ =>
    have hdecode : r.decode w = (r.trace w).read .blank := rfl
    rw [hdecode, Registry.trace_eq_of_refused h (not_accepts h7 h0 h1 hshared)]
    rfl

end Decode

/-- Of the discriminants only `category` can have a value that means nothing, and only from 4 up. -/
theorem opcodeMap_eq_unknownDiscriminant {w v value : Word} {format field : String}
    (h : opcodeMap w = .error (.unknownDiscriminant format field value v)) :
    format = "spec" ∧ field = "category" ∧ v = w ∧ value.toNat = bitsAt w 51 3 ∧
      4 ≤ value.toNat := by
  have hlt := bitsAt_lt w 51 3
  unfold opcodeMap at h
  split at h
  -- the opcode of `phas` and `spec`
  case h_4 =>
    by_cases hphase : bitsAt w 49 1 = 1
    · rw [if_pos hphase] at h
      cases h
    rw [if_neg hphase] at h
    split at h <;> cases h
    case h_5 h0 h1 h2 h3 =>
      simp only [imp_false] at h0 h1 h2 h3
      rw [BitVec.toNat_ofNat, Nat.mod_eq_of_lt (by omega)]
      exact ⟨rfl, rfl, rfl, rfl, by omega⟩
  all_goals cases h

/-- **The opcode map of the built-in formats.** They make a registry, and it answers for every word what the
opcode bits say. A discriminant without a case is `category` of `spec` with a value from 4 up; and a table that
has the names of the five formats handles every word that decodes. -/
theorem opcode_map : ∃ r, registry = .ok r ∧ r.names = ["vmov", "vmadsi", "vmad4", "phas", "spec"] ∧
    ∀ w, (r.decode w).map Instruction.key = opcodeMap w ∧
      (∀ format field value v, r.decode w = .error (.unknownDiscriminant format field value v) →
        format = "spec" ∧ field = "category" ∧ v = w ∧ value.toNat = bitsAt w 51 3 ∧
          4 ≤ value.toNat) ∧
      ∀ {m : Type → Type} [Monad m] {α : Type} (t : HandlerTable m α),
        (∀ name ∈ r.names, (t.handlers.lookup name).isSome = true) →
        ∀ inst, r.decode w = .ok inst → ∃ f, t.lookup? inst.key = some f ∧ t.dispatch inst = f inst ∧
          r.handle w t = Except.mapError .dispatch <$> f inst := by
  obtain ⟨r, hr⟩ := exists_build
  have hnames : r.names = builtIn.map (·.label.name) := by
    obtain ⟨-, plans, -, rfl⟩ := Registry.build_eq_ok_iff.1 hr
    rfl
  refine ⟨r, registry_eq.trans hr, hnames, fun w => ⟨map_key_decode hr w, ?_, ?_⟩⟩
  · intro format field value v he
    refine opcodeMap_eq_unknownDiscriminant ?_
    rw [← map_key_decode hr w, he, Except.map]
  · intro m _ α t ht inst hinst
    obtain ⟨f, hf⟩ := Registry.exists_handler (t := t) hr hinst fun d hd =>
      ht _ (hnames ▸ List.mem_map_of_mem hd)
    have hdecoded : inst.isDecoded = true := by
      obtain ⟨c, -, -, hlayout⟩ := Registry.exists_admits_of_decode hr hinst
      rw [Instruction.isDecoded, hlayout, Option.isSome_some]
    have hdispatch : t.dispatch inst = f inst := by
      rw [HandlerTable.dispatch, if_pos hdecoded, hf]
    exact ⟨f, hf, hdispatch, by rw [← hdispatch, Registry.handle, hinst]⟩

/-- A handler for each format, and nothing for their variants. -/
def formatHandlers : HandlerTable Id Nat :=
  ["vmov", "vmadsi", "vmad4", "phas", "spec"].foldl (fun t name => t.add name fun _ => name.length)
    .empty

/-- Category 7 has no case; category 3 with bit 50 set is a halt, and handled. -/
theorem opcode_map_categories : ∃ r inst, registry = .ok r ∧
    r.decode 0xF838000000000000 =
      .error (.unknownDiscriminant "spec" "category" 7 0xF838000000000000) ∧
    r.decode 0xF81C000000000000 = .ok inst ∧ inst.key = "spec.misc.halt" ∧
    ∃ f, formatHandlers.lookup? inst.key = some f ∧ formatHandlers.dispatch inst = f inst := by
  obtain ⟨r, hr, hnames, hmap⟩ := opcode_map
  have hunknown : (r.decode 0xF838000000000000).map Instruction.key =
      .error (.unknownDiscriminant "spec" "category" 7 0xF838000000000000) :=
    (hmap 0xF838000000000000).1
  obtain ⟨hhalt, -, hhandled⟩ := hmap 0xF81C000000000000
  have herror : r.decode 0xF838000000000000 =
      .error (.unknownDiscriminant "spec" "category" 7 0xF838000000000000) := by
    cases hd : r.decode 0xF838000000000000 with
    | error e =>
      rw [hd] at hunknown
      rw [Except.error.inj hunknown]
    | ok inst =>
      rw [hd] at hunknown
      cases hunknown
  obtain ⟨inst, hinst, hkey⟩ : ∃ inst, r.decode 0xF81C000000000000 = .ok inst ∧
      inst.key = "spec.misc.halt" := by
    cases hd : r.decode 0xF81C000000000000 with
    | error e =>
      rw [hd] at hhalt
      cases hhalt
    | ok inst =>
      rw [hd] at hhalt
      exact ⟨inst, rfl, Except.ok.inj hhalt⟩
  have hformats : ∀ name ∈ r.names, (formatHandlers.handlers.lookup name).isSome = true := by
    rw [hnames]
    decide
  obtain ⟨f, hfound, hdispatch, -⟩ := hhandled formatHandlers hformats inst hinst
  exact ⟨r, inst, hr, herror, hinst, hkey, f, hfound, hdispatch⟩

end Usse

end ShaderWord
