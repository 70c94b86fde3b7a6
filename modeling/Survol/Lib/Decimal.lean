import Survol.Lib.Text

/-!
# Decimal numbers

A number that is printed in decimal, with any white space around it, is read back.

## Main results

* `PyText.int?_of_strip` — a text whose stripped form is a printed number is read as the number.
* `PyText.strip_blanks` — blanks around a text without blanks at its ends are stripped.
-/

namespace PyText

theorem digitVal?_of_isDigit {c : Char} (h : c.isDigit = true) :
    digitVal? 10 c = some (c.toNat - '0'.toNat) := by
  rw [Char.isDigit, Bool.and_eq_true, decide_eq_true_eq, decide_eq_true_eq] at h
  have hle : '0' ≤ c ∧ c ≤ '9' := h
  have hlt : c.toNat - '0'.toNat < 10 := by
    have : c.toNat ≤ '9'.toNat := h.2
    have h9 : '9'.toNat = 57 := rfl
    have h0 : '0'.toNat = 48 := rfl
    omega
  rw [digitVal?, if_pos hle]
  simp only [Option.filter, hlt, decide_true, if_true]

theorem natOfDigits_ofDigitChars {t : Text} (h : ∀ c ∈ t, c.isDigit = true) (acc : ℕ) :
    natOfDigits 10 acc t = some (Nat.ofDigitChars 10 t acc) := by
  induction t generalizing acc with
  | nil => simp [natOfDigits]
  | cons c t ih =>
    rw [natOfDigits, digitVal?_of_isDigit (h c List.mem_cons_self), Nat.ofDigitChars_cons]
    simp only
    rw [ih fun d hd => h d (List.mem_cons_of_mem c hd), Nat.mul_comm]

/-- A text with a character that is not a digit is not a number. -/
theorem natOfDigits_eq_none {b : ℕ} {t : Text} {c : Char} (hc : c ∈ t) (hd : digitVal? b c = none)
    (acc : ℕ) : natOfDigits b acc t = none := by
  induction t generalizing acc with
  | nil => cases hc
  | cons d t ih =>
    rw [natOfDigits]
    rcases List.mem_cons.mp hc with rfl | hc
    · rw [hd]
    · cases digitVal? b d with
      | none => rfl
      | some v => exact ih hc _

theorem isBlank_of_isDigit {c : Char} (h : c.isDigit = true) : isBlank c = false := by
  by_contra hb
  rw [Bool.not_eq_false] at hb
  exact @forall_isBlank (fun c => ¬ c.isDigit = true) (by decide) c hb h

theorem isDigit_of_mem_toDigits {n : ℕ} {c : Char} (h : c ∈ Nat.toDigits 10 n) :
    c.isDigit = true := Nat.isDigit_of_mem_toDigits (by decide) (by decide) h

/-- A text whose stripped form is a printed number is read as the number. -/
theorem int?_of_strip {s : Text} {n : ℕ} (h : strip s = Nat.toDigits 10 n) :
    int? s = some (n : ℤ) := by
  have hne : Nat.toDigits 10 n ≠ [] := Nat.toDigits_ne_nil
  obtain ⟨c, t, ht⟩ := List.exists_cons_of_ne_nil hne
  have hd : ∀ d ∈ Nat.toDigits 10 n, d.isDigit = true := fun d => isDigit_of_mem_toDigits
  have hval : nat? 10 (Nat.toDigits 10 n) = some n := by
    rw [nat?, if_neg hne, natOfDigits_ofDigitChars hd, Nat.ofDigitChars_ten_toDigits]
  have hc : c.isDigit = true := hd c (by simp [ht])
  rw [int?, h, ht, signed]
  · rw [← ht, hval]
    rfl
  · rintro s ⟨⟩
    exact absurd hc (by decide)
  · rintro s ⟨⟩
    exact absurd hc (by decide)

theorem dropWhile_isBlank_append {a : Text} (ha : ∀ c ∈ a, isBlank c = true) (s : Text) :
    (a ++ s).dropWhile isBlank = s.dropWhile isBlank := by
  induction a with
  | nil => rfl
  | cons c a ih =>
    rw [List.cons_append, List.dropWhile_cons_of_pos (ha c List.mem_cons_self),
      ih fun d hd => ha d (List.mem_cons_of_mem c hd)]

theorem dropWhile_isBlank_of_digits {d : Text} (hd : ∀ c ∈ d, c.isDigit = true) (s : Text)
    (hne : d ≠ []) : (d ++ s).dropWhile isBlank = d ++ s := by
  obtain ⟨c, t, rfl⟩ := List.exists_cons_of_ne_nil hne
  exact List.dropWhile_cons_of_neg (by simp [isBlank_of_isDigit (hd c List.mem_cons_self)])

/-- White space around digits is stripped. -/
theorem strip_blanks {a b d : Text} (ha : ∀ c ∈ a, isBlank c = true)
    (hb : ∀ c ∈ b, isBlank c = true) (hd : ∀ c ∈ d, c.isDigit = true) (hne : d ≠ []) :
    strip (a ++ d ++ b) = d := by
  have hrev : ∀ c ∈ d.reverse, c.isDigit = true := fun c hc => hd c (List.mem_reverse.mp hc)
  have hrev' : ∀ c ∈ b.reverse, isBlank c = true := fun c hc => hb c (List.mem_reverse.mp hc)
  have hright := dropWhile_isBlank_of_digits hrev [] (by simpa using hne)
  rw [strip, List.append_assoc, dropWhile_isBlank_append ha, dropWhile_isBlank_of_digits hd b hne,
    List.rdropWhile, List.reverse_append, dropWhile_isBlank_append hrev']
  rw [List.append_nil] at hright
  rw [hright, List.reverse_reverse]

end PyText
