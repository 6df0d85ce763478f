import Decompiler.Text.Hex
import Decompiler.Text.Numeral
import Mathlib.Tactic
/-!
# Numbers that are written and read

A number that is written in hexadecimal reads back as itself (`hexadecimal?_hex`), and so does one
that is written in decimal and is not too long (`decimal?_toString`). Digits are read from the left,
so the argument goes by the last digit: what is read of the others is the number without it.
-/

namespace Decompiler.Text

open List

variable {c : Char} {d n : Nat}

/-! ## Digits -/

theorem digit?_digitChar : ∀ radix ≤ 16, ∀ d < radix, digit? radix d.digitChar = some d := by decide

theorem digitChar_plain :
    ∀ d < 16, d.digitChar ≠ '_' ∧ d.digitChar.toNat < 128 ∧ isPadding d.digitChar = false := by
  decide

section

variable {radix : Nat}

/-- The digits of a number are digits. -/
theorem exists_digit_of_mem_toDigits (radix : Nat) (hradix : 1 < radix) (n : Nat) :
    c ∈ Nat.toDigits radix n → ∃ d < radix, c = d.digitChar := by
  induction n using Nat.strong_induction_on with
  | _ n ih =>
    intro hc
    rw [Nat.toDigits_eq_if hradix] at hc
    split at hc
    · rename_i hn
      exact ⟨n, hn, mem_singleton.mp hc⟩
    · rename_i hn
      rcases mem_append.mp hc with hc | hc
      · exact ih (n / radix) (Nat.div_lt_self (by omega) hradix) hc
      · exact ⟨n % radix, Nat.mod_lt _ (by omega), mem_singleton.mp hc⟩

theorem plain_of_mem_toDigits (hradix : 1 < radix) (hle : radix ≤ 16)
    (hc : c ∈ Nat.toDigits radix n) : c ≠ '_' ∧ c.toNat < 128 ∧ isPadding c = false := by
  obtain ⟨d, hd, rfl⟩ := exists_digit_of_mem_toDigits radix hradix n hc
  exact digitChar_plain d (by omega)

theorem digitsFrom_cons {acc : Nat} {rest : List Char} (hc : c ≠ '_')
    (hd : digit? radix c = some d) :
    digitsFrom radix acc (c :: rest) = digitsFrom radix (acc * radix + d) rest := by
  rw [digitsFrom.eq_3 _ _ _ _ fun c' rest' h _ => hc h, hd]

/-- One more digit at the end. -/
theorem digitsFrom_concat (hc : c ≠ '_') (hd : digit? radix c = some d) : ∀ {l : List Char}
    {acc n : Nat}, (∀ c ∈ l, c ≠ '_' ∧ (digit? radix c).isSome) → digitsFrom radix acc l = some n →
    digitsFrom radix acc (l ++ [c]) = some (n * radix + d) := by
  intro l
  induction l with
  | nil =>
    intro acc n _ h
    obtain rfl : acc = n := Option.some.inj h
    exact digitsFrom_cons hc hd
  | cons c' l ih =>
    intro acc n hl h
    obtain ⟨⟨hplain, hdigit⟩, hl⟩ := forall_mem_cons.mp hl
    obtain ⟨d', hd'⟩ := Option.isSome_iff_exists.mp hdigit
    rw [digitsFrom_cons hplain hd'] at h
    rw [cons_append, digitsFrom_cons hplain hd']
    exact ih hl h

theorem natural?_concat {l : List Char} (hc : c ≠ '_') (hd : digit? radix c = some d)
    (hl : ∀ c ∈ l, c ≠ '_' ∧ (digit? radix c).isSome) (h : natural? radix l = some n) :
    natural? radix (l ++ [c]) = some (n * radix + d) := by
  cases l with
  | nil => cases h
  | cons c' l =>
    obtain ⟨⟨-, hdigit⟩, hl⟩ := forall_mem_cons.mp hl
    obtain ⟨d', hd'⟩ := Option.isSome_iff_exists.mp hdigit
    rw [natural?, hd'] at h
    rw [cons_append, natural?, hd']
    exact digitsFrom_concat hc hd hl h

/-- The digits of a number read as the number. -/
theorem natural?_toDigits (radix : Nat) (hradix : 1 < radix) (hle : radix ≤ 16) (n : Nat) :
    natural? radix (Nat.toDigits radix n) = some n := by
  induction n using Nat.strong_induction_on with
  | _ n ih =>
    rw [Nat.toDigits_eq_if hradix]
    split
    · rename_i hn
      rw [natural?, digit?_digitChar radix hle n hn]
      rfl
    · rename_i hn
      have hlast : n % radix < radix := Nat.mod_lt _ (by omega)
      have hdigits : ∀ c ∈ Nat.toDigits radix (n / radix), c ≠ '_' ∧ (digit? radix c).isSome := by
        intro c hc
        obtain ⟨d, hd, rfl⟩ := exists_digit_of_mem_toDigits radix hradix _ hc
        exact ⟨(digitChar_plain d (by omega)).1, by rw [digit?_digitChar radix hle d hd]; rfl⟩
      rw [natural?_concat (digitChar_plain _ (by omega)).1 (digit?_digitChar radix hle _ hlast)
        hdigits (ih (n / radix) (Nat.div_lt_self (by omega) hradix)), Nat.div_add_mod']

end

/-! ## Numerals -/

/-- Nothing is dropped or changed in ASCII text without blanks. -/
theorem numeralChars_eq {s : String} (h : ∀ c ∈ s.toList, c.toNat < 128 ∧ isPadding c = false) :
    numeralChars s = s.toList := by
  have hmap : s.toList.map numeralChar = s.toList := by
    conv_rhs => rw [← map_id s.toList]
    exact map_congr_left fun c hc => if_pos (h c hc).1
  have hdrop : ∀ l : List Char, (∀ c ∈ l, isPadding c = false) → l.dropWhile isPadding = l := by
    intro l hl
    cases l with
    | nil => rfl
    | cons c rest => rw [dropWhile_cons_of_neg (by simp [hl c (.head _)])]
  have hplain : ∀ c ∈ s.toList, isPadding c = false := fun c hc => (h c hc).2
  rw [numeralChars, hmap, hdrop _ hplain, hdrop _ fun c hc => hplain c (mem_reverse.mp hc),
    reverse_reverse]

/-- A number that is written with its sign in front is split into its sign and its digits. -/
theorem splitSign_numeralChars {s : String} {n : Int} {digits : List Char}
    (hs : s.toList = (if n < 0 then ['-'] else []) ++ digits)
    (hdigits : splitSign digits = (false, digits))
    (hplain : ∀ c ∈ digits, c.toNat < 128 ∧ isPadding c = false) :
    splitSign (numeralChars s) = (decide (n < 0), digits) := by
  by_cases hneg : n < 0
  · rw [if_pos hneg] at hs
    rw [numeralChars_eq (hs ▸ forall_mem_cons.mpr ⟨by decide, hplain⟩), hs, decide_eq_true hneg]
    rfl
  · rw [if_neg hneg, nil_append] at hs
    rw [numeralChars_eq (hs ▸ hplain), hs, hdigits, decide_eq_false hneg]

theorem signed_natAbs (n : Int) :
    (if decide (n < 0) = true then -(n.natAbs : Int) else n.natAbs) = n := by
  simp only [decide_eq_true_eq]
  omega

theorem dropRadixMark_toDigits (n : Nat) :
    dropRadixMark ('0' :: 'x' :: Nat.toDigits 16 n) = Nat.toDigits 16 n := by
  cases hl : Nat.toDigits 16 n with
  | nil => exact absurd hl Nat.toDigits_ne_nil
  | cons c rest =>
    have hc : c ≠ '_' := (plain_of_mem_toDigits (by decide) (by decide) (hl ▸ mem_cons_self)).1
    unfold dropRadixMark
    split <;> simp_all

theorem toList_hex (n : Int) :
    (hex n).toList = (if n < 0 then ['-'] else []) ++ '0' :: 'x' :: Nat.toDigits 16 n.natAbs := by
  unfold hex hexDigits
  split <;> simp

/-- What is written in hexadecimal reads back. -/
theorem hexadecimal?_hex (n : Int) : hexadecimal? (hex n) = some n := by
  have hplain : ∀ c ∈ '0' :: 'x' :: Nat.toDigits 16 n.natAbs, c.toNat < 128 ∧ isPadding c = false :=
    forall_mem_cons.mpr ⟨by decide, forall_mem_cons.mpr ⟨by decide,
      fun c hc => (plain_of_mem_toDigits (by decide) (by decide) hc).2⟩⟩
  rw [hexadecimal?, splitSign_numeralChars (toList_hex n) rfl hplain]
  simp only [dropRadixMark_toDigits, natural?_toDigits 16 (by decide) (by decide)]
  exact congrArg some (signed_natAbs n)

theorem toList_toString (n : Int) :
    (toString n).toList = (if n < 0 then ['-'] else []) ++ Nat.toDigits 10 n.natAbs := by
  rw [Int.toString_eq_repr]
  cases n with
  | ofNat n => simp [Int.repr, Nat.repr_eq_ofList_toDigits]
  | negSucc n => simp [Int.repr, Nat.repr_eq_ofList_toDigits, Int.negSucc_lt_zero]

theorem splitSign_toDigits (n : Nat) :
    splitSign (Nat.toDigits 10 n) = (false, Nat.toDigits 10 n) := by
  cases hl : Nat.toDigits 10 n with
  | nil => rfl
  | cons c rest =>
    obtain ⟨d, hd, rfl⟩ := exists_digit_of_mem_toDigits 10 (by decide) n (hl ▸ mem_cons_self)
    have hsign : ∀ d < 10, d.digitChar ≠ '-' ∧ d.digitChar ≠ '+' := by decide
    unfold splitSign
    split <;> simp_all

/-- What is written in decimal reads back, if it is not too long. -/
theorem decimal?_toString {n : Int} (h : n.natAbs < 10 ^ maxDecimalDigits) :
    decimal? (toString n) = some n := by
  have hdigit : ∀ c ∈ Nat.toDigits 10 n.natAbs, c ≠ '_' ∧ c.toNat < 128 ∧ isPadding c = false :=
    fun c hc => plain_of_mem_toDigits (by decide) (by decide) hc
  have hlength : ¬ maxDecimalDigits < ((Nat.toDigits 10 n.natAbs).filter (· ≠ '_')).length := by
    rw [filter_eq_self.mpr fun c hc => decide_eq_true (hdigit c hc).1, not_lt]
    have hpos : 0 < maxDecimalDigits := by decide
    exact (Nat.length_toDigits_le_iff (by decide) hpos).mpr h
  rw [decimal?, splitSign_numeralChars (toList_toString n) (splitSign_toDigits _) fun c hc =>
    (hdigit c hc).2]
  simp only [if_neg hlength, natural?_toDigits 10 (by decide) (by decide)]
  exact congrArg some (signed_natAbs n)

end Decompiler.Text
