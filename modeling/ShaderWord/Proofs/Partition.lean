import ShaderWord.Proofs.Naming
import ShaderWord.Proofs.Walks

/-!
# Layouts partition the words that decode

A terminal position admits the words that its definitions accept and that have the keys on the way to it in
the fields that select. The decoder goes to the first format and to one case of each discriminant and never
comes back; still a word decodes to the layout of every terminal position that admits it
(`Chain.reaches_iff`), so there is one at most (`Chain.eq_of_admits`).
-/

namespace ShaderWord

namespace Chain

variable {ds : List Definition} {c c' : Chain} {w : Word}

/-- **One terminal position at most admits a word.** -/
theorem eq_of_admits (h : Accepted ds) (hc : c ∈ terminals ds) (hc' : c' ∈ terminals ds)
    (hw : c.Admits w) (hw' : c'.Admits w) : c = c' := by
  obtain ⟨hc, ht⟩ := mem_terminals.1 hc
  obtain ⟨hc', ht'⟩ := mem_terminals.1 hc'
  obtain ⟨inst, hinst, hlayout⟩ := (reaches_iff h hc ht).2 hw
  obtain ⟨inst', hinst', hlayout'⟩ := (reaches_iff h hc' ht').2 hw'
  obtain rfl : inst = inst' := Except.ok.inj (hinst.symm.trans hinst')
  have heq : c.layout = c'.layout := Option.some.inj (hlayout.symm.trans hlayout')
  exact eq_of_layout_eq h.vetted hc hc' heq

end Chain

theorem Instruction.key_of_layout {inst : Instruction} {c : Chain}
    (h : inst.layout = some c.layout) : inst.key = c.key := by
  rw [key, h]
  rfl

namespace Registry

variable {ds : List Definition} {r : Registry} {w : Word}

theorem exists_admits_of_decode (h : build ds = .ok r) {inst : Instruction}
    (hinst : r.decode w = .ok inst) :
    ∃ c ∈ Chain.terminals ds, c.Admits w ∧ inst.layout = some c.layout := by
  obtain ⟨hacc, hdecode, -⟩ := accepted_of_build h
  rw [hdecode] at hinst
  obtain ⟨c, hc, ht, hw, hlayout⟩ := Chain.exists_admits_of_decode hacc hinst
  exact ⟨c, Chain.mem_terminals.2 ⟨hc, ht⟩, hw, hlayout⟩

/-- **Layouts partition the words that decode.** The layouts are those of the terminal positions, each once; a
word decodes to a layout if and only if its position admits the word, no two admit one word, and a word
that none admits does not decode. -/
theorem layouts_partition (h : build ds = .ok r) :
    r.layouts = (Chain.terminals ds).map Chain.layout ∧ r.layouts.Nodup ∧ ∀ w,
      (∀ c ∈ Chain.terminals ds,
        (∃ inst, r.decode w = .ok inst ∧ inst.layout = some c.layout) ↔ c.Admits w) ∧
      (∀ c ∈ Chain.terminals ds, ∀ c' ∈ Chain.terminals ds, c.Admits w → c'.Admits w → c = c') ∧
      ((∀ c ∈ Chain.terminals ds, ¬ c.Admits w) → ∃ e, r.decode w = .error e) := by
  obtain ⟨hacc, hdecode, -⟩ := accepted_of_build h
  refine ⟨layouts_eq_of_build h, List.Nodup.of_map _ (nodup_layout_keys h), fun w => ⟨?_, ?_, ?_⟩⟩
  · intro c hc
    obtain ⟨hc, ht⟩ := Chain.mem_terminals.1 hc
    rw [hdecode]
    exact Chain.reaches_iff hacc hc ht
  · exact fun c hc c' hc' hw hw' => Chain.eq_of_admits hacc hc hc' hw hw'
  · intro hnone
    cases hw : r.decode w with
    | error e => exact ⟨e, rfl⟩
    | ok inst =>
      obtain ⟨c, hc, hadmits, -⟩ := exists_admits_of_decode h hw
      exact (hnone c hc hadmits).elim

/-- The word 9 goes to the layout of `a.b.a`. The word 11 is of the same format, and of no layout. -/
theorem layouts_partition_reusedNames : ∃ r, build reusedNames = .ok r ∧
    r.layouts.map Layout.key = ["a.a", "a.b.a", "b"] ∧
    (∃ inst, r.decode 9 = .ok inst ∧ inst.key = "a.b.a") ∧ ∃ e, r.decode 11 = .error e := by
  obtain ⟨r, hr⟩ : ∃ r, build reusedNames = .ok r := ⟨_, rfl⟩
  obtain ⟨hlayouts, -, hwords⟩ := layouts_partition hr
  have hkeys : r.layouts.map Layout.key = ["a.a", "a.b.a", "b"] := by
    rw [hlayouts]
    decide +kernel
  obtain ⟨c, hc, hadmits, hkey⟩ : ∃ c ∈ Chain.terminals reusedNames, c.Admits 9 ∧ c.key = "a.b.a" := by
    decide +kernel
  obtain ⟨inst, hinst, hlayout⟩ := ((hwords 9).1 c hc).2 hadmits
  refine ⟨r, hr, hkeys, ⟨inst, hinst, (Instruction.key_of_layout hlayout).trans hkey⟩, ?_⟩
  exact (hwords 11).2.2 (by decide +kernel)

end Registry

end ShaderWord
