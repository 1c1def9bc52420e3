import Categorial.Proofs.Text.Records
set_option autoImplicit false

namespace Categorial.Text

/-- The text is a numeral of the number. -/
def Numeral (bound : Nat) (s : List Char) (n : Nat) : Prop :=
  ∃ digits, (s = digits ∨ s = '+' :: digits) ∧ digits ≠ [] ∧ (∀ c ∈ digits, c.isDigit = true) ∧
    Nat.ofDigitChars 10 digits 0 = n ∧ n ≤ bound

variable {bound n m : Nat} {fault : NumeralError} {s : List Char}

theorem readDigits_ok_iff (hm : m ≤ bound) : readDigits bound fault m s = .ok n ↔
    (∀ c ∈ s, c.isDigit = true) ∧ Nat.ofDigitChars 10 s m = n ∧ n ≤ bound := by
  constructor
  · intro h
    induction s generalizing m with
    | nil =>
      cases h
      exact ⟨by simp, by simp, hm⟩
    | cons c s ih =>
      rw [readDigits, digit?] at h
      by_cases hc : c.isDigit = true
      · simp only [hc, if_true] at h
        split at h
        · cases h
        · rename_i hle
          obtain ⟨hdigits, hvalue, hn⟩ := ih (Nat.not_lt.mp hle) h
          exact ⟨List.forall_mem_cons.mpr ⟨hc, hdigits⟩, by rw [Nat.ofDigitChars_cons, hvalue], hn⟩
      · simp [hc] at h
  · rintro ⟨hdigits, rfl, hn⟩
    exact readDigits_ofDigitChars hdigits hn

theorem isDigit_plus : '+'.isDigit = false := by decide

theorem readNat_ok_iff : readNat bound s = .ok n ↔ Numeral bound s n := by
  constructor
  · intro h
    unfold readNat at h
    split at h
    · cases h
    · cases h
    · rename_i hne
      obtain ⟨hdigits, hvalue, hn⟩ := (readDigits_ok_iff (Nat.zero_le bound)).mp h
      exact ⟨_, .inr rfl, fun hnil => hne (by rw [hnil]), hdigits, hvalue, hn⟩
    · rename_i hne _ _
      obtain ⟨hdigits, hvalue, hn⟩ := (readDigits_ok_iff (Nat.zero_le bound)).mp h
      exact ⟨_, .inl rfl, hne, hdigits, hvalue, hn⟩
  · rintro ⟨digits, hs, hne, hdigits, hvalue, hn⟩
    have hread : readDigits bound .tooLarge 0 digits = .ok n :=
      (readDigits_ok_iff (Nat.zero_le bound)).mpr ⟨hdigits, hvalue, hn⟩
    obtain rfl | rfl := hs
    · have hplus : ∀ rest, s ≠ '+' :: rest := by
        rintro rest rfl
        cases isDigit_plus.symm.trans (hdigits '+' (by simp))
      rw [readNat]
      · exact hread
      · exact hne
      · exact hplus []
      · exact hplus
    · rw [readNat]
      · exact hread
      · exact hne

theorem Numeral.le (h : Numeral bound s n) : n ≤ bound := by
  obtain ⟨_, _, _, _, _, hn⟩ := h
  exact hn

theorem numeral_natDigits (h : n ≤ bound) : Numeral bound (natDigits n) n := readNat_ok_iff.mp (readNat_natDigits h)

end Categorial.Text
