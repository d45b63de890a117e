import ShaderWord.Json.Scan

/-!
# What scans take

`Takes p s x rest` — the scan `p` takes `x` off the front of `s` and leaves `rest`. A scan that is put
together takes what its parts take one after the other (`Takes.bind`), so the lemmas about the single steps
are all that a reader needs.
-/

namespace ShaderWord.Json.Scan

variable {α β : Type} {s t u : List Char} {c : Char}

/-- The scan takes `x` off the text and leaves the rest. -/
def Takes (p : Scan α) (s : List Char) (x : α) (rest : List Char) : Prop := p s = .ok (x, rest)

namespace Takes

theorem pure (x : α) : Takes (Pure.pure x) s x s := rfl

theorem bind {p : Scan α} {f : α → Scan β} {x : α} {y : β} (hp : Takes p s x t)
    (hf : Takes (f x) t y u) : Takes (p >>= f) s y u := by
  have hrun : (p >>= f) s = (p s).bind fun r => f r.1 r.2 := rfl
  unfold Takes at *
  rw [hrun, hp]
  exact hf

end Takes

/-! ### Steps -/

theorem takes_get : Takes get s s s := rfl

theorem takes_next : Takes next (c :: s) c s := rfl

theorem takes_advance : Takes advance (c :: s) () s := rfl

theorem takes_peek : Takes peek s s.head? s := rfl

theorem takes_expect : Takes (expect c) (c :: s) () s := by
  refine takes_next.bind ?_
  rw [if_neg fun h => h rfl]
  exact .pure ()

theorem takes_forM_expect : ∀ literal : List Char, Takes (literal.forM expect) (literal ++ s) () s
  | [] => .pure ()
  | _ :: literal => takes_expect.bind (takes_forM_expect literal)

theorem takes_expectAll (literal : String) : Takes (expectAll literal) (literal.toList ++ s) () s :=
  takes_forM_expect literal.toList

/-! ### Steps over blanks -/

theorem takes_skipBlanks (h : isBlank c = false) : Takes skipBlanks (c :: s) () (c :: s) := by
  have hdrop : (c :: s).dropWhile isBlank = c :: s := List.dropWhile_cons_of_neg (by simp [h])
  change Except.ok ((), (c :: s).dropWhile isBlank) = _
  rw [hdrop]

theorem takes_ahead (h : isBlank c = false) : Takes ahead (c :: s) c (c :: s) :=
  (takes_skipBlanks h).bind (takes_peek.bind (.pure c))

theorem takes_colon : Takes colon (':' :: s) () s :=
  (takes_skipBlanks rfl).bind takes_expect

theorem takes_finish : Takes finish [] () [] := rfl

/-! ### Steps of arrays -/

theorem takes_moreElements_close (first : Bool) :
    Takes (moreElements first) (']' :: s) false (']' :: s) :=
  (takes_ahead rfl).bind (.pure false)

theorem takes_moreElements_first (h : isBlank c = false) (hc : c ≠ ']') :
    Takes (moreElements true) (c :: s) true (c :: s) := by
  refine (takes_ahead h).bind ?_
  rw [if_neg hc]
  exact .pure true

theorem takes_moreElements_comma (h : isBlank c = false) (hc : c ≠ ']') :
    Takes (moreElements false) (',' :: c :: s) true (c :: s) := by
  refine (takes_ahead rfl).bind (takes_advance.bind ((takes_ahead h).bind ?_))
  rw [if_neg hc]
  exact .pure true

/-! ### Steps of objects -/

section Keys

variable {text : Scan String} {key : String}

theorem takes_nextKey_close (first : Bool) : Takes (nextKey text first) ('\x7d' :: s) none s :=
  (takes_ahead rfl).bind (takes_advance.bind (.pure none))

theorem takes_nextKey_first (h : Takes text s key t) :
    Takes (nextKey text true) ('"' :: s) (some key) t := by
  refine (takes_ahead rfl).bind ?_
  rw [if_neg (by decide), if_pos rfl]
  exact (Takes.pure '"').bind (takes_advance.bind (h.bind (.pure (some key))))

theorem takes_nextKey_comma (h : Takes text s key t) :
    Takes (nextKey text false) (',' :: '"' :: s) (some key) t := by
  refine (takes_ahead rfl).bind ?_
  rw [if_neg (by decide)]
  exact takes_advance.bind ((takes_ahead rfl).bind (takes_advance.bind (h.bind (.pure (some key)))))

end Keys

end ShaderWord.Json.Scan
