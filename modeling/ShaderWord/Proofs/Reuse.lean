import Mathlib.Data.List.Induction
import ShaderWord.Dispatch
import ShaderWord.Proofs.Traces
import ShaderWord.Stream

/-!
# One instruction for many words

* `Turn` — a decode into an instruction: the registry of the turn, and a reader in some state
  (`Registry.decodeNext` is such a call on `Source.reader`);
* `Instruction.afterTurns ts` — the instruction, blank at first, after the turns;
* `Instruction.IsCoherent` — no layout and no values, or for each field of the layout the value that the
  word has.

Nothing is relied on of the readers. A turn that gets no bytes changes nothing
(`Registry.decodeInto_of_error`), and one that gets bytes leaves no trace of the turns before it
(`Registry.decodeInto_of_ok`), so that every instruction is coherent after every run
(`Instruction.isCoherent_afterTurns`).
-/

namespace ShaderWord

/-- A decode into an instruction: by which registry, and on which reader in which state. The state may be one that
an earlier turn has left. -/
structure Turn where
  {ρ : Type}
  registry : Registry
  reader : Reader ρ
  state : ρ

namespace Turn

/-- The registry of the turn is one that was built. -/
def IsReady (t : Turn) : Prop := ∃ ds, Registry.build ds = .ok t.registry

/-- What the reader answers when it is asked for a word, and its state after that. -/
def answer (t : Turn) : Except ReadError (List UInt8) × t.ρ := t.reader.fill 8 t.state

/-- The turn of an instruction: what the decoder leaves, and the result. -/
def play (t : Turn) (slot : Instruction) : Reading t.ρ × Except DecodeError Unit :=
  t.registry.decodeInto t.reader ⟨slot, t.state⟩

end Turn

/-! ### A turn -/

namespace Registry

variable {ρ : Type} {reader : Reader ρ} {ds : List Definition} {r : Registry} {x : Reading ρ} {s : ρ}
  {e : ReadError} {bytes : List UInt8}

theorem decodeInto_of_error (hfill : reader.fill 8 x.state = (.error e, s)) :
    r.decodeInto reader x = (⟨x.slot, s⟩, .error e.toDecodeError) := by
  rw [decodeInto, hfill]

/-- **With bytes the instruction is what their word is**, or the word alone, in place of what was there. -/
theorem decodeInto_of_ok (h : build ds = .ok r) (hfill : reader.fill 8 x.state = (.ok bytes, s)) :
    (∃ c : Chain, r.decode (Word.ofBytes bytes) = .ok (c.instruction (Word.ofBytes bytes)) ∧
      r.decodeInto reader x = (⟨c.instruction (Word.ofBytes bytes), s⟩, .ok ())) ∨
    ∃ e, r.decode (Word.ofBytes bytes) = .error e ∧
      r.decodeInto reader x = (⟨⟨Word.ofBytes bytes, none, []⟩, s⟩, .error e) := by
  have hcall : r.decodeInto reader x = (⟨(r.redecode x.slot (Word.ofBytes bytes)).1, s⟩,
      (r.redecode x.slot (Word.ofBytes bytes)).2) := by
    rw [decodeInto, hfill]
  rcases redecode_cases h x.slot (Word.ofBytes bytes) with
    ⟨c, -, -, -, hdecode, hleft⟩ | ⟨e, hdecode, hleft⟩
  · exact .inl ⟨c, hdecode, by rw [hcall, hleft]⟩
  · exact .inr ⟨e, hdecode, by rw [hcall, hleft]⟩

end Registry

/-! ### Runs -/

namespace Instruction

variable {inst : Instruction} {turns : List Turn} {t : Turn}

/-- The instruction shows its word: it has no layout and no values, or in the order of the fields the values
that the word has in them. -/
def IsCoherent (inst : Instruction) : Prop :=
  (inst.layout = none ∧ inst.values = []) ∨
  ∃ layout, inst.layout = some layout ∧
    inst.values = layout.fields.map fun f => f.slice.extract inst.word

/-- One instruction, blank at first, after the turns in order. -/
def afterTurns (turns : List Turn) : Instruction :=
  turns.foldl (fun slot t => (t.play slot).1.slot) blank

@[simp] theorem afterTurns_append_singleton (turns : List Turn) (t : Turn) :
    afterTurns (turns ++ [t]) = (t.play (afterTurns turns)).1.slot := by
  simp [afterTurns]

theorem isCoherent_undecoded (w : Word) : IsCoherent ⟨w, none, []⟩ := .inl ⟨rfl, rfl⟩

theorem isCoherent_instruction (c : Chain) (w : Word) : (c.instruction w).IsCoherent :=
  .inr ⟨c.layout, rfl, rfl⟩

theorem IsCoherent.play (hinst : inst.IsCoherent) (ht : t.IsReady) : (t.play inst).1.slot.IsCoherent := by
  obtain ⟨ds, hds⟩ := ht
  cases hanswer : t.answer with
  | mk answer s =>
    cases answer with
    | error e =>
      rw [Turn.play, Registry.decodeInto_of_error hanswer]
      exact hinst
    | ok bytes =>
      rcases Registry.decodeInto_of_ok (x := ⟨inst, t.state⟩) hds hanswer with
        ⟨c, -, hleft⟩ | ⟨e, -, hleft⟩
      · rw [Turn.play, hleft]
        exact isCoherent_instruction c (Word.ofBytes bytes)
      · rw [Turn.play, hleft]
        exact isCoherent_undecoded (Word.ofBytes bytes)

/-- **After every run the instruction is coherent.** -/
theorem isCoherent_afterTurns (hturns : ∀ t ∈ turns, t.IsReady) : (afterTurns turns).IsCoherent := by
  induction turns using List.reverseRecOn with
  | nil => exact isCoherent_undecoded 0
  | append_singleton turns t ih =>
    rw [afterTurns_append_singleton]
    have hcoherent := ih fun t' ht' => hturns t' (List.mem_append_left _ ht')
    exact hcoherent.play (hturns t (by simp))

end Instruction

/-- **That an instruction is used again does not show**, whatever the readers answer. After any run by registries
that were built, the instruction is coherent. A further turn whose reader fails leaves it as it is. One that
gets bytes leaves what a decode of their word gives, with the same result; where that is an error the
instruction has the word and no key, format or field, and no handler runs on it. -/
theorem Instruction.reuse_exact {turns : List Turn} (hturns : ∀ t ∈ turns, t.IsReady) {t : Turn}
    (ht : t.IsReady) :
    (afterTurns turns).IsCoherent ∧
    (∀ e s, t.answer = (.error e, s) →
      t.play (afterTurns turns) = (⟨afterTurns turns, s⟩, .error e.toDecodeError)) ∧
    ∀ bytes s, t.answer = (.ok bytes, s) →
      (∀ inst, t.registry.decode (Word.ofBytes bytes) = .ok inst →
        t.play (afterTurns turns) = (⟨inst, s⟩, .ok ())) ∧
      ∀ e, t.registry.decode (Word.ofBytes bytes) = .error e → ∃ inst : Instruction,
        t.play (afterTurns turns) = (⟨inst, s⟩, .error e) ∧
        inst.word = Word.ofBytes bytes ∧ inst.layout = none ∧ inst.values = [] ∧
        inst.key = "" ∧ inst.format = "" ∧ inst.fields = [] ∧
        ∀ {m : Type → Type} [Monad m] {α : Type} (table : HandlerTable m α),
          table.dispatch inst = pure (.error (.undecoded (Word.ofBytes bytes))) := by
  obtain ⟨ds, hds⟩ := ht
  refine ⟨isCoherent_afterTurns hturns, fun e s hanswer => Registry.decodeInto_of_error hanswer, ?_⟩
  intro bytes s hanswer
  rcases Registry.decodeInto_of_ok (x := ⟨afterTurns turns, t.state⟩) hds hanswer with
    ⟨c, hdecode, hleft⟩ | ⟨e, hdecode, hleft⟩
  · rw [Turn.play, hdecode, hleft]
    refine ⟨?_, by simp⟩
    rintro inst ⟨⟩
    rfl
  · rw [Turn.play, hdecode, hleft]
    refine ⟨by simp, ?_⟩
    rintro e' ⟨⟩
    exact ⟨_, rfl, rfl, rfl, rfl, rfl, rfl, rfl, fun _ => rfl⟩

/-- The word 9 decodes, then a reader of another kind fails, then a word comes that stops in a case, then the
bytes run short. -/
theorem Instruction.reuse_exact_reusedNames : ∃ r, Registry.build reusedNames = .ok r ∧
    let broken : Reader Unit := ⟨fun _ s => (.error (.io "broken"), s)⟩
    let decoded : Turn := ⟨r, Source.reader, .ofBytes [9, 0, 0, 0, 0, 0, 0, 0]⟩
    let failed : Turn := ⟨r, broken, ()⟩
    let stopped : Turn := ⟨r, Source.reader, .ofBytes (List.replicate 8 255)⟩
    let short : Turn := ⟨r, Source.reader, .ofBytes [1, 2, 3]⟩
    r.decode 9 = .ok (afterTurns [decoded]) ∧
    afterTurns [decoded, failed] = afterTurns [decoded] ∧
    (∃ s e, stopped.play (afterTurns [decoded, failed]) =
      (⟨⟨BitVec.allOnes 64, none, []⟩, s⟩, .error e)) ∧
    afterTurns [decoded, failed, stopped, short] = afterTurns [decoded, failed, stopped] ∧
    (afterTurns [decoded, failed, stopped, short]).IsCoherent := by
  obtain ⟨r, hr⟩ : ∃ r, Registry.build reusedNames = .ok r := ⟨_, rfl⟩
  refine ⟨r, hr, ?_⟩
  intro broken decoded failed stopped short
  have hrun : ∀ ts ⊆ [decoded, failed, stopped, short], ∀ t ∈ ts, t.IsReady := by
    intro ts hts t ht
    have ht := hts ht
    simp only [List.mem_cons, List.not_mem_nil, or_false] at ht
    rcases ht with rfl | rfl | rfl | rfl <;> exact ⟨_, hr⟩
  obtain ⟨inst, hinst⟩ : ∃ inst, r.decode 9 = .ok inst := by
    obtain ⟨hv, plans, hplans, rfl⟩ := Registry.build_eq_ok_iff.1 hr
    rw [Registry.decode_ofPlans hv hplans]
    exact ⟨_, rfl⟩
  obtain ⟨e, he⟩ : ∃ e, r.decode (BitVec.allOnes 64) = .error e := by
    obtain ⟨hv, plans, hplans, rfl⟩ := Registry.build_eq_ok_iff.1 hr
    rw [Registry.decode_ofPlans hv hplans]
    exact ⟨_, rfl⟩
  have hdecoded := (reuse_exact (t := decoded) (hrun [] (by simp)) ⟨_, hr⟩).2.2 _ _ rfl
  have hfailed := (reuse_exact (t := failed) (hrun [decoded] (by simp)) ⟨_, hr⟩).2.1 _ _ rfl
  have hstopped := (reuse_exact (t := stopped) (hrun [decoded, failed] (by simp)) ⟨_, hr⟩).2.2 _ _ rfl
  have hshort := (reuse_exact (t := short) (hrun [decoded, failed, stopped] (by simp)) ⟨_, hr⟩).2.1 _ _ rfl
  refine ⟨?_, ?_, ?_, ?_, ?_⟩
  · rw [hinst]
    exact congrArg Except.ok (congrArg (·.1.slot) (hdecoded.1 inst hinst)).symm
  · exact (afterTurns_append_singleton [decoded] failed).trans (by rw [hfailed])
  · obtain ⟨⟨_, _, _⟩, hleft, hword, hlayout, hvalues, -⟩ := hstopped.2 e he
    obtain ⟨rfl, rfl, rfl⟩ : _ ∧ _ ∧ _ := ⟨hword, hlayout, hvalues⟩
    exact ⟨_, e, hleft⟩
  · exact (afterTurns_append_singleton [decoded, failed, stopped] short).trans (by rw [hshort])
  · exact (reuse_exact (t := short) (hrun _ (List.Subset.refl _)) ⟨_, hr⟩).1

end ShaderWord
