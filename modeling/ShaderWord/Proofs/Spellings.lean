import Mathlib.Data.String.Basic
import Mathlib.Tactic.Common
import ShaderWord.Json.Value
import ShaderWord.Proofs.Scans

/-!
# Numbers and strings as they are written

A natural number of 64 bits and a string of any characters are read back as they were, the number
provided that the text behind it does not go on with a numeral (`EndsValue`): `Scan.takes_numeral` and
`Scan.takes_text`.
-/

namespace ShaderWord.Json

/-- A value may end before the text: the text is empty, or goes on with a mark of an array or of an
object. -/
def EndsValue (s : List Char) : Prop :=
  ∀ c, s.head? = some c → c = ',' ∨ c = ']' ∨ c = '\x7d'

theorem endsValue_nil : EndsValue [] := fun _ h => nomatch h

theorem endsValue_cons {c : Char} {s : List Char} (h : c = ',' ∨ c = ']' ∨ c = '\x7d') :
    EndsValue (c :: s) := by
  rintro _ ⟨⟩
  exact h

theorem EndsValue.head?_ne {s : List Char} (h : EndsValue s) {c : Char}
    (hc : c ≠ ',' ∧ c ≠ ']' ∧ c ≠ '\x7d') : s.head? ≠ some c := by
  intro hhead
  rcases h c hhead with rfl | rfl | rfl
  · exact hc.1 rfl
  · exact hc.2.1 rfl
  · exact hc.2.2 rfl

/-! ### Numbers -/

section Numbers

variable {n : Nat} {c : Char} {s ds : List Char}

theorem isDigit_of_mem_toDigits (h : c ∈ Nat.toDigits 10 n) : Scan.isDigit c = true :=
  Nat.isDigit_of_mem_toDigits (by decide) (by decide) h

theorem exists_toDigits (n : Nat) : ∃ c ds, Nat.toDigits 10 n = c :: ds ∧ Scan.isDigit c = true := by
  cases h : Nat.toDigits 10 n with
  | nil => exact absurd h Nat.toDigits_ne_nil
  | cons c ds => exact ⟨c, ds, rfl, isDigit_of_mem_toDigits (h ▸ List.mem_cons_self)⟩

theorem head?_toDigits_ne (h : 0 < n) : (Nat.toDigits 10 n).head? ≠ some '0' := by
  induction n using Nat.strongRecOn with
  | ind n ih =>
    rw [Nat.toDigits_eq_if (by decide)]
    split
    · rename_i hlt
      intro hzero
      have hdigit := Nat.toNat_digitChar_of_lt_ten hlt
      rw [Option.some.inj hzero] at hdigit
      have : '0'.toNat = 48 := rfl
      omega
    · have hdiv : 0 < n / 10 := by omega
      obtain ⟨c, ds, hdigits, -⟩ := exists_toDigits (n / 10)
      have hhead := ih _ (Nat.div_lt_self h (by decide)) hdiv
      rw [hdigits] at hhead ⊢
      exact hhead

theorem toDigits_spelled (n : Nat) :
    ¬ ((Nat.toDigits 10 n).head? = some '0' ∧ (Nat.toDigits 10 n).length ≠ 1) := by
  rintro ⟨hhead, hlength⟩
  rcases Nat.eq_zero_or_pos n with rfl | hpos
  · exact hlength rfl
  · exact head?_toDigits_ne hpos hhead

theorem EndsValue.not_isDigit (h : EndsValue s) : ∀ c, s.head? = some c → Scan.isDigit c = false := by
  intro c hc
  rcases h c hc with rfl | rfl | rfl <;> rfl

namespace Numeral

theorem ofDigits_toDigits (n : Nat) : ofDigits (Nat.toDigits 10 n) = n := by
  have hstep : (fun n c => n * 10 + (c.toNat - '0'.toNat)) =
      fun (n : Nat) (c : Char) => 10 * n + (c.toNat - '0'.toNat) := by
    funext n c
    rw [Nat.mul_comm]
  rw [ofDigits, hstep, ← Nat.ofDigitChars_eq_foldl, Nat.ofDigitChars_ten_toDigits]

theorem le_foldl (m : Nat) :
    m ≤ ds.foldl (fun n c => n * 10 + (c.toNat - '0'.toNat)) m := by
  induction ds generalizing m with
  | nil => exact Nat.le_refl m
  | cons c ds ih => exact Nat.le_trans (by dsimp only; omega) (ih _)

/-- All digits of a number of 64 bits are taken in. -/
theorem absorb_eq (ds : List Char) {m : Nat}
    (h : ds.foldl (fun n c => n * 10 + (c.toNat - '0'.toNat)) m ≤ maxSignificand) :
    absorb m ds = (ds.foldl (fun n c => n * 10 + (c.toNat - '0'.toNat)) m, []) := by
  induction ds generalizing m with
  | nil => rfl
  | cons c ds ih =>
    rw [List.foldl_cons] at h ⊢
    rw [absorb, if_pos (Nat.le_trans (le_foldl _) h), ih h]

theorem write_ofNat (n : Nat) : (ofNat n).write = Nat.toDigits 10 n := by
  simp [write, ofNat]

theorem toNat?_ofNat (h : n ≤ maxSignificand) : (ofNat n).toNat? = some n := by
  have hvalue : ofDigits (ofNat n).whole = n := ofDigits_toDigits n
  rw [toNat?, if_neg (by simp [ofNat]), hvalue, if_pos h]

theorem isFinite_ofNat (h : n ≤ maxSignificand) : (ofNat n).isFinite = true := by
  have hvalue : ofDigits (Nat.toDigits 10 n) = n := ofDigits_toDigits n
  have hparts : (ofNat n).parts = (n, 0) := by
    rw [ofDigits] at hvalue
    have habsorb := absorb_eq (Nat.toDigits 10 n) (m := 0) (by rwa [hvalue])
    rw [hvalue] at habsorb
    simp [parts, ofNat, habsorb, absorb]
  simp [isFinite, hparts]

end Numeral

namespace Scan

theorem takes_digits (h : ∀ c ∈ ds, isDigit c = true) (hs : EndsValue s) :
    Takes digits (ds ++ s) ds s := by
  have hrest : s.takeWhile isDigit = [] ∧ s.dropWhile isDigit = s := by
    cases s with
    | nil => exact ⟨rfl, rfl⟩
    | cons c s => simp [hs.not_isDigit c rfl]
  have htake : (ds ++ s).takeWhile isDigit = ds := by
    rw [List.takeWhile_append_of_pos h, hrest.1, List.append_nil]
  have hdrop : (ds ++ s).dropWhile isDigit = s := by
    rw [List.dropWhile_append_of_pos h, hrest.2]
  change Except.ok ((ds ++ s).takeWhile isDigit, (ds ++ s).dropWhile isDigit) = _
  rw [htake, hdrop]

theorem takes_someDigits (h : ∀ c ∈ ds, isDigit c = true) (hne : ds ≠ []) (hs : EndsValue s)
    (ended : Fault) : Takes (someDigits ended) (ds ++ s) ds s := by
  refine (takes_digits h hs).bind ?_
  rw [if_neg (by simpa using hne)]
  exact .pure ds

/-- **A natural number is read as it is written.** -/
theorem takes_numeral (hs : EndsValue s) (ended : Fault) :
    Takes (numeral ended) ((Numeral.ofNat n).write ++ s) (.ofNat n) s := by
  obtain ⟨c, ds, hdigits, hc⟩ := exists_toDigits n
  have hsign : ((Nat.toDigits 10 n ++ s).head? == some '-') = false := by
    have hne : c ≠ '-' := by
      rintro rfl
      exact absurd hc (by decide)
    simpa [hdigits] using hne
  rw [Numeral.write_ofNat]
  refine takes_peek.bind ?_
  rw [hsign]
  refine (takes_someDigits (fun _ => isDigit_of_mem_toDigits) Nat.toDigits_ne_nil hs ended).bind ?_
  rw [if_neg (toDigits_spelled n)]
  refine takes_peek.bind ?_
  rw [if_neg (hs.head?_ne (by decide))]
  refine (Takes.pure none).bind (takes_peek.bind ?_)
  rw [if_neg (by
    rintro (h | h)
    · exact hs.head?_ne (by decide) h
    · exact hs.head?_ne (by decide) h)]
  exact (Takes.pure none).bind (.pure _)

end Scan

end Numbers

/-! ### Strings -/

namespace Scan

variable {s : List Char} {c : Char}

theorem hexValue?_digitChar : ∀ n < 16, hexValue? n.digitChar = some n := by decide

theorem toDigits_control : ∀ n < 32,
    (Nat.toDigits 16 n).leftpad 4 '0' = ['0', '0', (n / 16).digitChar, (n % 16).digitChar] := by
  decide

theorem takes_codeUnit {a b c d : Char} {i j k l : Nat} (ha : hexValue? a = some i)
    (hb : hexValue? b = some j) (hc : hexValue? c = some k) (hd : hexValue? d = some l) :
    Takes codeUnit (a :: b :: c :: d :: s) (((i * 16 + j) * 16 + k) * 16 + l) s := by
  have hsize : ¬ (String.ofList [a, b, c, d]).utf8ByteSize < 4 := by
    have := Char.utf8Size_pos a
    have := Char.utf8Size_pos b
    have := Char.utf8Size_pos c
    have := Char.utf8Size_pos d
    simp only [String.utf8ByteSize_ofList, String.utf8Len_cons, String.utf8Len_nil]
    omega
  have hvalues : [a, b, c, d].mapM hexValue? = some [i, j, k, l] := by simp [ha, hb, hc, hd]
  refine takes_get.bind ?_
  rw [show (a :: b :: c :: d :: s).take 4 = [a, b, c, d] from rfl, if_neg hsize, hvalues]
  exact .pure _

theorem takes_codeUnits_control {n : Nat} (h : n < 32) :
    Takes codeUnits ((Nat.toDigits 16 n).leftpad 4 '0' ++ s) (.ofNat n) s := by
  rw [toDigits_control n h]
  have hunit := takes_codeUnit (s := s) (hexValue?_digitChar 0 (by decide))
    (hexValue?_digitChar 0 (by decide)) (hexValue?_digitChar (n / 16) (by omega))
    (hexValue?_digitChar (n % 16) (by omega))
  have hvalue : ((0 * 16 + 0) * 16 + n / 16) * 16 + n % 16 = n := by omega
  rw [hvalue] at hunit
  refine hunit.bind ?_
  have hleading : isLeading n = false := by simp [isLeading]; omega
  have htrailing : isTrailing n = false := by simp [isTrailing]; omega
  rw [htrailing, hleading]
  exact .pure _

/-- **A character of a string is read as it is written.** -/
theorem takes_textChar (c : Char) : Takes (textChar codeUnits) (writeChar c ++ s) (some c) s := by
  unfold writeChar
  by_cases hquote : c = '"'
  · subst hquote
    exact takes_next.bind (Takes.bind (takes_next.bind (.pure '"')) (.pure (some '"')))
  by_cases hslash : c = '\\'
  · subst hslash
    exact takes_next.bind (Takes.bind (takes_next.bind (.pure '\\')) (.pure (some '\\')))
  rw [if_neg hquote, if_neg hslash]
  by_cases hcontrol : c < ' '
  · rw [if_pos hcontrol]
    have hread := takes_codeUnits_control (s := s) (n := c.toNat) hcontrol
    rw [Char.ofNat_toNat] at hread
    exact takes_next.bind (Takes.bind (takes_next.bind hread) (.pure (some c)))
  · rw [if_neg hcontrol]
    refine takes_next.bind ?_
    rw [if_neg hquote, if_neg hslash, if_neg hcontrol]
    exact .pure (some c)

theorem takes_textChar_quote : Takes (textChar codeUnits) ('"' :: s) none s :=
  takes_next.bind (.pure none)

theorem length_writeChar_pos (c : Char) : 0 < (writeChar c).length := by
  unfold writeChar
  split_ifs <;> simp

theorem takes_textFrom {fuel : Nat} (cs : List Char)
    (h : (cs.flatMap writeChar ++ '"' :: s).length < fuel) :
    Takes (textFrom codeUnits fuel) (cs.flatMap writeChar ++ '"' :: s) cs s := by
  induction fuel generalizing cs with
  | zero => exact absurd h (Nat.not_lt_zero _)
  | succ fuel ih =>
    cases cs with
    | nil => exact takes_textChar_quote.bind (.pure [])
    | cons c cs =>
      rw [List.flatMap_cons, List.append_assoc] at h ⊢
      -- the text gets shorter with each character, so the fuel lasts
      have hfuel : (cs.flatMap writeChar ++ '"' :: s).length < fuel := by
        have hpos := length_writeChar_pos c
        rw [List.length_append] at h
        omega
      exact (takes_textChar c).bind ((ih cs hfuel).bind (.pure (c :: cs)))

/-- **A string is read as it is written.** -/
theorem takes_text (key : String) : Takes text (key.toList.flatMap writeChar ++ '"' :: s) key s := by
  have hread := takes_textFrom (s := s) key.toList (Nat.lt_succ_self _)
  have hkey : Takes (pure (.ofList key.toList)) s key s := by
    rw [String.ofList_toList]
    exact .pure key
  exact takes_get.bind (hread.bind hkey)

end Scan

end ShaderWord.Json
