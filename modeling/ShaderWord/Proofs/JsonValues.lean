import Mathlib.Data.List.Forall2
import ShaderWord.Proofs.Spellings

/-!
# Values as they are written

* `Json.IsPlain n j` — the numbers of `j` are natural numbers of 64 bits, and arrays and objects nest in it
  at most `n` deep;
* `Json.Reads p j x` — where `j` is written the scan `p` takes `x`, whatever may come behind a value;
* `Json.reads_read`: a plain value is read back as it was.

A reader of one type reads an array from the readings of its elements (`Json.reads_readArray`) and an object
from the steps that its entries take (`Json.Gathers`).
-/

namespace ShaderWord.Json

open Scan

variable {α σ : Type}

/-- A value of natural numbers of 64 bits, nested at most so deep. -/
inductive IsPlain : Nat → Json → Prop
  | null {n : Nat} : IsPlain n null
  | bool {n : Nat} (b : Bool) : IsPlain n (bool b)
  | number {n k : Nat} (h : k ≤ Numeral.maxSignificand) : IsPlain n (number (.ofNat k))
  | string {n : Nat} (s : String) : IsPlain n (string s)
  | array {n : Nat} {items : List Json} (h : ∀ j ∈ items, IsPlain n j) : IsPlain (n + 1) (array items)
  | object {n : Nat} {entries : List (String × Json)} (h : ∀ e ∈ entries, IsPlain n e.2) :
      IsPlain (n + 1) (object entries)

theorem IsPlain.mono {m n : Nat} {j : Json} (h : IsPlain m j) (hmn : m ≤ n) : IsPlain n j := by
  induction h generalizing n with
  | null => exact .null
  | bool b => exact .bool b
  | number hk => exact .number hk
  | string s => exact .string s
  | @array m items _ ih =>
    obtain ⟨n, rfl⟩ : ∃ k, n = k + 1 := ⟨n - 1, by omega⟩
    exact .array fun j hj => ih j hj (by omega)
  | @object m entries _ ih =>
    obtain ⟨n, rfl⟩ : ∃ k, n = k + 1 := ⟨n - 1, by omega⟩
    exact .object fun e he => ih e he (by omega)

theorem IsPlain.of_array {n : Nat} {items : List Json} (h : IsPlain n (.array items)) :
    ∀ j ∈ items, IsPlain n j := by
  cases h with
  | @array n _ h => exact fun j hj => (h j hj).mono (Nat.le_succ n)

theorem IsPlain.of_object {n : Nat} {entries : List (String × Json)} (h : IsPlain n (.object entries)) :
    ∀ e ∈ entries, IsPlain n e.2 := by
  cases h with
  | @object n _ h => exact fun e he => (h e he).mono (Nat.le_succ n)

/-! ### How a value is written -/

section Writing

variable {rest : List Char}

theorem write_number (k : Nat) : (number (.ofNat k)).write = Nat.toDigits 10 k :=
  Numeral.write_ofNat k

theorem write_string (s : String) :
    (string s).write ++ rest = '"' :: (s.toList.flatMap writeChar ++ '"' :: rest) := by
  change ('"' :: s.toList.flatMap writeChar ++ ['"']) ++ rest = _
  simp

theorem write_array (items : List Json) : (array items).write ++ rest = '[' :: (writeItems items ++ rest) :=
  rfl

theorem write_object (entries : List (String × Json)) :
    (object entries).write ++ rest = '\x7b' :: (writeEntries entries ++ rest) :=
  rfl

end Writing

/-- A value can be told from the end of an array by its first character. -/
def Begins (j : Json) : Prop := ∃ c s, j.write = c :: s ∧ isBlank c = false ∧ c ≠ ']'

theorem begins_string (s : String) : (string s).Begins := ⟨'"', _, rfl, rfl, by decide⟩

theorem begins_array (items : List Json) : (array items).Begins := ⟨'[', _, rfl, rfl, by decide⟩

theorem begins_object (entries : List (String × Json)) : (object entries).Begins :=
  ⟨'\x7b', _, rfl, rfl, by decide⟩

theorem ne_of_isDigit {b c : Char} (h : isDigit c = true) (hb : isDigit b = false) : c ≠ b := by
  rintro rfl
  rw [h] at hb
  cases hb

theorem not_isBlank_of_isDigit {c : Char} (h : isDigit c = true) : isBlank c = false := by
  unfold isBlank
  rw [decide_eq_false (ne_of_isDigit h rfl), decide_eq_false (ne_of_isDigit h rfl),
    decide_eq_false (ne_of_isDigit h rfl), decide_eq_false (ne_of_isDigit h rfl)]
  rfl

theorem begins_number (k : Nat) : (number (.ofNat k)).Begins := by
  obtain ⟨c, ds, hdigits, hc⟩ := exists_toDigits k
  refine ⟨c, ds, ?_, not_isBlank_of_isDigit hc, ne_of_isDigit hc rfl⟩
  rw [write_number, hdigits]

theorem IsPlain.begins {n : Nat} {j : Json} (h : IsPlain n j) : j.Begins := by
  cases h with
  | null => exact ⟨'n', _, rfl, rfl, by decide⟩
  | bool b => cases b with
    | false => exact ⟨'f', _, rfl, rfl, by decide⟩
    | true => exact ⟨'t', _, rfl, rfl, by decide⟩
  | number _ => exact begins_number _
  | string s => exact begins_string s
  | array _ => exact begins_array _
  | object _ => exact begins_object _

/-! ### Arrays -/

/-- Where the value is written the scan takes `x`. -/
structure Reads (p : Scan α) (j : Json) (x : α) : Prop where
  begins : j.Begins
  takes : ∀ rest, EndsValue rest → Takes p (j.write ++ rest) x rest

/-- The rest of an array behind an element. -/
def writeMoreItems : List Json → List Char
  | [] => [']']
  | items => ',' :: writeItems items

theorem writeItems_cons (j : Json) (items : List Json) :
    writeItems (j :: items) = j.write ++ writeMoreItems items := by
  cases items <;> rfl

theorem writeMoreItems_cons (j : Json) (items : List Json) :
    writeMoreItems (j :: items) = ',' :: (j.write ++ writeMoreItems items) := by
  rw [← writeItems_cons]
  rfl

theorem endsValue_writeMoreItems (items : List Json) (rest : List Char) :
    EndsValue (writeMoreItems items ++ rest) := by
  cases items with
  | nil => exact endsValue_cons (by simp)
  | cons j items => exact endsValue_cons (by simp)

section Arrays

variable {item : Scan α} {items : List Json} {xs : List α} {rest : List Char}

/-- Behind an element the others are read, with fuel for the text that is left. -/
theorem takes_elementsFrom_more (h : List.Forall₂ (Reads item) items xs) {fuel : Nat}
    (hfuel : (writeMoreItems items ++ rest).length < fuel) :
    Takes (elementsFrom item fuel false) (writeMoreItems items ++ rest) xs rest := by
  induction h generalizing fuel with
  | nil =>
    obtain ⟨fuel, rfl⟩ : ∃ k, fuel = k + 1 := ⟨fuel - 1, by omega⟩
    exact (takes_moreElements_close false).bind (takes_advance.bind (.pure []))
  | @cons j x items xs hj _ ih =>
    obtain ⟨fuel, rfl⟩ : ∃ k, fuel = k + 1 := ⟨fuel - 1, by omega⟩
    obtain ⟨c, s, hwrite, hblank, hne⟩ := hj.begins
    rw [writeMoreItems_cons, List.cons_append, List.append_assoc] at hfuel ⊢
    have htakes := hj.takes _ (endsValue_writeMoreItems items rest)
    -- the comma at least is off the text
    have hlength : (writeMoreItems items ++ rest).length < fuel := by
      simp only [List.length_cons, List.length_append] at hfuel ⊢
      omega
    rw [hwrite, List.cons_append] at htakes ⊢
    exact (takes_moreElements_comma hblank hne).bind
      (htakes.bind ((ih hlength).bind (.pure (x :: xs))))

/-- **The elements of an array are read one by one.** -/
theorem takes_elements (h : List.Forall₂ (Reads item) items xs) :
    Takes (elements item) (writeItems items ++ rest) xs rest := by
  refine takes_get.bind ?_
  cases h with
  | nil => exact (takes_moreElements_close true).bind (takes_advance.bind (.pure []))
  | @cons j x items xs hj hitems =>
    obtain ⟨c, s, hwrite, hblank, hne⟩ := hj.begins
    rw [writeItems_cons, List.append_assoc]
    have htakes := hj.takes _ (endsValue_writeMoreItems items rest)
    have hlength : (writeMoreItems items ++ rest).length <
        (j.write ++ (writeMoreItems items ++ rest)).length := by
      rw [hwrite]
      simp only [List.length_append, List.length_cons]
      omega
    have hmore := takes_elementsFrom_more hitems hlength
    rw [hwrite, List.cons_append] at htakes hmore ⊢
    exact (takes_moreElements_first hblank hne).bind (htakes.bind (hmore.bind (.pure (x :: xs))))

end Arrays

/-! ### Objects -/

/-- The rest of an object behind an entry. -/
def writeMoreEntries : List (String × Json) → List Char
  | [] => ['\x7d']
  | entries => ',' :: writeEntries entries

theorem writeEntries_cons (key : String) (j : Json) (entries : List (String × Json))
    (rest : List Char) : writeEntries ((key, j) :: entries) ++ rest = '"' :: (key.toList.flatMap writeChar ++
      '"' :: ':' :: (j.write ++ (writeMoreEntries entries ++ rest))) := by
  have hkey : writeEntries ((key, j) :: entries) =
      writeText key ++ ':' :: j.write ++ writeMoreEntries entries := by
    cases entries <;> rfl
  rw [hkey, writeText]
  simp

theorem writeMoreEntries_cons (key : String) (j : Json) (entries : List (String × Json))
    (rest : List Char) : writeMoreEntries ((key, j) :: entries) ++ rest =
      ',' :: '"' :: (key.toList.flatMap writeChar ++
        '"' :: ':' :: (j.write ++ (writeMoreEntries entries ++ rest))) := by
  rw [← writeEntries_cons]
  rfl

theorem endsValue_writeMoreEntries (entries : List (String × Json)) (rest : List Char) :
    EndsValue (writeMoreEntries entries ++ rest) := by
  cases entries with
  | nil => exact endsValue_cons (by simp)
  | cons e entries => exact endsValue_cons (by simp)

/-- From the state `s` the scan of the entries goes to `t`, one entry after the other. -/
inductive Gathers (entry : String → σ → Scan σ) : List (String × Json) → σ → σ → Prop
  | nil (s : σ) : Gathers entry [] s s
  | cons {key : String} {j : Json} {entries : List (String × Json)} {s t u : σ}
      (hentry : ∀ rest, EndsValue rest → Takes (entry key s) (':' :: (j.write ++ rest)) t rest)
      (hentries : Gathers entry entries t u) : Gathers entry ((key, j) :: entries) s u

section Objects

variable {entry : String → σ → Scan σ} {entries : List (String × Json)} {s t : σ} {rest : List Char}

theorem takes_entriesFrom_more (h : Gathers entry entries s t) {fuel : Nat}
    (hfuel : (writeMoreEntries entries ++ rest).length < fuel) :
    Takes (entriesFrom text entry fuel false s) (writeMoreEntries entries ++ rest) t rest := by
  induction h generalizing fuel with
  | nil s =>
    obtain ⟨fuel, rfl⟩ : ∃ k, fuel = k + 1 := ⟨fuel - 1, by omega⟩
    exact (takes_nextKey_close false).bind (.pure s)
  | @cons key j entries s t u hentry _ ih =>
    obtain ⟨fuel, rfl⟩ : ∃ k, fuel = k + 1 := ⟨fuel - 1, by omega⟩
    rw [writeMoreEntries_cons] at hfuel ⊢
    have hlength : (writeMoreEntries entries ++ rest).length < fuel := by
      simp only [List.length_cons, List.length_append] at hfuel ⊢
      omega
    have hvalue := hentry _ (endsValue_writeMoreEntries entries rest)
    exact (takes_nextKey_comma (takes_text key)).bind (hvalue.bind (ih hlength))

/-- **The entries of an object are read one by one.** -/
theorem takes_entries (h : Gathers entry entries s t) :
    Takes (Scan.entries text entry s) (writeEntries entries ++ rest) t rest := by
  refine takes_get.bind ?_
  cases h with
  | nil s => exact (takes_nextKey_close true).bind (.pure s)
  | @cons key j entries s t u hentry hentries =>
    rw [writeEntries_cons]
    have hlength : (writeMoreEntries entries ++ rest).length < ('"' :: (key.toList.flatMap writeChar ++
        '"' :: ':' :: (j.write ++ (writeMoreEntries entries ++ rest)))).length := by
      simp only [List.length_cons, List.length_append]
      omega
    have hvalue := hentry _ (endsValue_writeMoreEntries entries rest)
    exact (takes_nextKey_first (takes_text key)).bind
      (hvalue.bind (takes_entriesFrom_more hentries hlength))

end Objects

theorem reads_object {p : Scan α} {entries : List (String × Json)} {x : α}
    (h : ∀ rest, Takes p ('\x7b' :: (writeEntries entries ++ rest)) x rest) : Reads p (object entries) x := by
  refine ⟨begins_object entries, fun rest _ => ?_⟩
  rw [write_object]
  exact h rest

/-! ### Values of any type -/

theorem takes_readNumeral {k : Nat} {s : List Char} (h : k ≤ Numeral.maxSignificand) (hs : EndsValue s) :
    Takes readNumeral ((Numeral.ofNat k).write ++ s) (.ofNat k) s := by
  refine (takes_numeral hs .truncated).bind ?_
  rw [if_neg (by simp [Numeral.isFinite_ofNat h])]
  exact .pure _

theorem takes_read_of_scalar {n : Nat} {c : Char} {s t : List Char} {j : Json} (h : isBlank c = false)
    (harray : c ≠ '[') (hobject : c ≠ '\x7b') (hread : Takes (readScalar c) (c :: s) j t) :
    Takes (read n) (c :: s) j t := by
  unfold read
  refine (takes_ahead h).bind ?_
  rwa [if_neg harray, if_neg hobject]

theorem takes_readScalar_number {k : Nat} {c : Char} {s t : List Char}
    (hk : k ≤ Numeral.maxSignificand) (hs : EndsValue t) (hc : isDigit c = true)
    (hwrite : (Numeral.ofNat k).write ++ t = c :: s) :
    Takes (readScalar c) (c :: s) (number (.ofNat k)) t := by
  have hread := takes_readNumeral hk hs
  rw [hwrite] at hread
  unfold readScalar
  rw [if_neg (ne_of_isDigit hc rfl), if_neg (ne_of_isDigit hc rfl), if_neg (ne_of_isDigit hc rfl),
    if_neg (ne_of_isDigit hc rfl), if_pos (Or.inr hc)]
  exact hread.bind (.pure _)

/-- Entries of any type are put before those that have been met. -/
theorem gathers_read {n : Nat} {entry : String → σ → Scan σ} {entries : List (String × Json)}
    (put : List (String × Json) → σ) (hentry : ∀ e ∈ entries, ∀ met, entry e.1 (put met) = do
      colon
      return put ((e.1, ← read n) :: met))
    (h : ∀ e ∈ entries, Reads (read n) e.2 e.2) (met : List (String × Json)) :
    Gathers entry entries (put met) (put (entries.reverse ++ met)) := by
  induction entries generalizing met with
  | nil => exact .nil _
  | cons e entries ih =>
    obtain ⟨key, j⟩ := e
    obtain ⟨hj, hentries⟩ := List.forall_mem_cons.1 h
    obtain ⟨hfirst, hothers⟩ := List.forall_mem_cons.1 hentry
    rw [List.reverse_cons, List.append_assoc]
    refine .cons (fun rest hrest => ?_) (ih hothers hentries _)
    rw [hfirst]
    exact takes_colon.bind ((hj.takes rest hrest).bind (.pure _))

/-- **A plain value is read as it is written.** -/
theorem reads_read {n : Nat} {j : Json} (h : IsPlain n j) : Reads (read n) j j := by
  refine ⟨h.begins, ?_⟩
  induction h with
  | null =>
    intro rest _
    refine takes_read_of_scalar rfl (by decide) (by decide) ?_
    exact (takes_expectAll "null").bind (.pure null)
  | bool b =>
    intro rest _
    cases b with
    | false =>
      refine takes_read_of_scalar rfl (by decide) (by decide) ?_
      exact (takes_expectAll "false").bind (.pure (bool false))
    | true =>
      refine takes_read_of_scalar rfl (by decide) (by decide) ?_
      exact (takes_expectAll "true").bind (.pure (bool true))
  | @number n k hk =>
    intro rest hrest
    obtain ⟨c, s, hwrite, hc⟩ := exists_toDigits k
    have hspelled : (Numeral.ofNat k).write ++ rest = c :: (s ++ rest) := by
      rw [Numeral.write_ofNat, hwrite, List.cons_append]
    change Takes (read n) ((Numeral.ofNat k).write ++ rest) _ _
    rw [hspelled]
    exact takes_read_of_scalar (not_isBlank_of_isDigit hc) (ne_of_isDigit hc rfl) (ne_of_isDigit hc rfl)
      (takes_readScalar_number hk hrest hc hspelled)
  | string s =>
    intro rest _
    rw [write_string]
    refine takes_read_of_scalar rfl (by decide) (by decide) ?_
    exact takes_advance.bind ((takes_text s).bind (.pure (string s)))
  | @array n items h ih =>
    intro rest hrest
    rw [write_array, read]
    refine (takes_ahead rfl).bind ?_
    rw [if_pos rfl]
    refine takes_advance.bind ?_
    have hitems : List.Forall₂ (Reads (read n)) items items :=
      List.forall₂_same.2 fun j hj => ⟨(h j hj).begins, ih j hj⟩
    exact (takes_elements hitems).bind (.pure _)
  | @object n entries h ih =>
    intro rest hrest
    rw [write_object, read]
    refine (takes_ahead rfl).bind ?_
    rw [if_neg (by decide), if_pos rfl]
    refine takes_advance.bind ?_
    -- each entry is put before those read already, so the list is turned round at the end
    have hentries : Gathers (fun key met => do colon; return (key, ← read n) :: met) entries []
        (entries.reverse ++ []) :=
      gathers_read id (fun _ _ _ => rfl) (fun e he => ⟨(h e he).begins, ih e he⟩) []
    refine (takes_entries hentries).bind ?_
    rw [List.append_nil, List.reverse_reverse]
    exact .pure _

/-! ### Values of one type -/

section Types

variable {p : Scan α} {x : α} {rest : List Char}

theorem Reads.map {β : Type} {j : Json} (h : Reads p j x) (f : α → β) :
    Reads (do return f (← p)) j (f x) :=
  ⟨h.begins, fun rest hrest => (h.takes rest hrest).bind (.pure (f x))⟩

theorem reads_readText (s : String) : Reads readText (string s) s := by
  refine ⟨begins_string s, fun rest _ => ?_⟩
  rw [write_string]
  exact (takes_ahead rfl).bind (takes_advance.bind (takes_text s))

theorem reads_readNatural {k : Nat} (h : k ≤ Numeral.maxSignificand) :
    Reads readNatural (number (.ofNat k)) k := by
  refine ⟨begins_number k, fun rest hrest => ?_⟩
  obtain ⟨c, ds, hdigits, hc⟩ := exists_toDigits k
  have hread := takes_readNumeral h hrest
  rw [write_number]
  rw [Numeral.write_ofNat] at hread
  rw [hdigits, List.cons_append] at hread ⊢
  refine (takes_ahead (not_isBlank_of_isDigit hc)).bind ?_
  rw [if_pos (Or.inr hc)]
  refine hread.bind ?_
  rw [Numeral.toNat?_ofNat h]
  exact .pure k

theorem reads_readArray {item : Scan α} {items : List Json} {xs : List α}
    (h : List.Forall₂ (Reads item) items xs) : Reads (readArray item) (array items) xs := by
  refine ⟨begins_array items, fun rest _ => ?_⟩
  rw [write_array]
  exact (takes_ahead rfl).bind (takes_advance.bind (takes_elements h))

theorem reads_readOption {entries : List (String × Json)} (h : Reads p (object entries) x) :
    Reads (readOption p) (object entries) (some x) := by
  refine ⟨h.begins, fun rest hrest => ?_⟩
  have hread := h.takes rest hrest
  rw [write_object] at hread ⊢
  exact (takes_ahead rfl).bind (hread.bind (.pure (some x)))

end Types

end ShaderWord.Json
