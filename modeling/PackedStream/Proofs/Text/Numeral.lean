import Mathlib
import PackedStream.Proofs.Bytes
import PackedStream.Text.Numeral

namespace PackedStream.Text

section Digits

theorem digit?_of_isDigit {c : Char} (hc : c.isDigit = true) :
    digit? c = some (c.toNat - '0'.toNat) := by
  rw [Char.isDigit, Bool.and_eq_true, decide_eq_true_iff, decide_eq_true_iff] at hc
  exact if_pos hc

theorem readDigitsFrom_eq {cs : List Char} (hcs : ∀ c ∈ cs, c.isDigit = true) (n : ℕ) :
    readDigitsFrom n cs = some (Nat.ofDigitChars 10 cs n) := by
  induction cs generalizing n with
  | nil => rw [readDigitsFrom, Nat.ofDigitChars_nil]
  | cons c cs ih =>
    rw [List.forall_mem_cons] at hcs
    rw [readDigitsFrom, digit?_of_isDigit hcs.1, Option.bind_some, ih hcs.2, Nat.ofDigitChars_cons]

def digits (zeros n : ℕ) : List Char := List.replicate zeros '0' ++ Nat.toDigits 10 n

theorem isDigit_of_mem_digits {zeros n : ℕ} {c : Char} (hc : c ∈ digits zeros n) :
    c.isDigit = true := by
  obtain h | h := List.mem_append.mp hc
  · rw [List.eq_of_mem_replicate h]
    rfl
  · exact Nat.isDigit_of_mem_toDigits (by decide) (by decide) h

theorem exists_digits_eq_cons (zeros n : ℕ) :
    ∃ c cs, digits zeros n = c :: cs ∧ c.isDigit = true := by
  have hne : digits zeros n ≠ [] := List.append_ne_nil_of_right_ne_nil _ Nat.toDigits_ne_nil
  obtain ⟨c, cs, h⟩ := List.exists_cons_of_ne_nil hne
  have hmem : c ∈ digits zeros n := h ▸ List.mem_cons_self
  exact ⟨c, cs, h, isDigit_of_mem_digits hmem⟩

theorem readDigits?_digits (zeros n : ℕ) : readDigits? (digits zeros n) = some n := by
  have hdigits : ∀ c ∈ digits zeros n, c.isDigit = true := fun _ hc => isDigit_of_mem_digits hc
  have hread := readDigitsFrom_eq hdigits 0
  rw [digits, Nat.ofDigitChars_append, Nat.ofDigitChars_replicate_zero, Nat.mul_zero,
    Nat.ofDigitChars_ten_toDigits] at hread
  obtain ⟨c, cs, h, -⟩ := exists_digits_eq_cons zeros n
  rw [h]
  rw [← digits, h] at hread
  exact hread

end Digits

inductive Writes : List Char → ℤ → Prop
  | plain (zeros n : ℕ) : Writes (digits zeros n) n
  | plus (zeros n : ℕ) : Writes ('+' :: digits zeros n) n
  | minus (zeros n : ℕ) (hn : 0 < n) : Writes ('-' :: digits zeros n) (-n)

variable {cs : List Char} {i : ℤ}

theorem readSigned?_of_isDigit {c : Char} (hc : c.isDigit = true) (bits : ℕ) (cs : List Char) :
    readSigned? bits (c :: cs) =
      ((readDigits? (c :: cs)).bind (within? (pow2 (bits - 1)))).map Int.ofNat := by
  unfold readSigned?
  split
  case h_1 _ heq =>
    obtain rfl := (List.cons.inj heq).1
    cases hc
  case h_2 _ heq =>
    obtain rfl := (List.cons.inj heq).1
    cases hc
  case h_3 => rfl

theorem readUnsigned?_of_isDigit {c : Char} (hc : c.isDigit = true) (bits : ℕ) (cs : List Char) :
    readUnsigned? bits (c :: cs) = (readDigits? (c :: cs)).bind (within? (pow2 bits)) := by
  unfold readUnsigned?
  split
  case h_1 _ heq =>
    obtain rfl := (List.cons.inj heq).1
    cases hc
  case h_2 => rfl

theorem readSigned?_writes (h : Writes cs i) (bits : ℕ) :
    readSigned? bits cs =
      if -2 ^ (bits - 1) ≤ i ∧ i < 2 ^ (bits - 1) then some i else none := by
  have hpow : ((pow2 (bits - 1) : ℕ) : ℤ) = 2 ^ (bits - 1) := by
    rw [pow2_eq]
    norm_cast
  have hnonneg (n : ℕ) : ((some n).bind (within? (pow2 (bits - 1)))).map Int.ofNat =
      if -2 ^ (bits - 1) ≤ (n : ℤ) ∧ (n : ℤ) < 2 ^ (bits - 1) then some (n : ℤ) else none := by
    rw [← hpow, Option.bind_some, within?]
    split_ifs <;> first | rfl | omega
  cases h with
  | plain zeros n =>
    obtain ⟨c, tail, hcons, hc⟩ := exists_digits_eq_cons zeros n
    rw [hcons, readSigned?_of_isDigit hc, ← hcons, readDigits?_digits]
    exact hnonneg n
  | plus zeros n =>
    rw [readSigned?, readDigits?_digits]
    exact hnonneg n
  | minus zeros n hn =>
    rw [readSigned?, readDigits?_digits, ← hpow, Option.bind_some, within?]
    split_ifs <;> first | rfl | omega

theorem readUnsigned?_writes (h : Writes cs i) (bits : ℕ) :
    readUnsigned? bits cs = if 0 ≤ i ∧ i < 2 ^ bits then some i.toNat else none := by
  have hpow : ((pow2 bits : ℕ) : ℤ) = 2 ^ bits := by
    rw [pow2_eq]
    norm_cast
  have hnonneg (n : ℕ) : (some n).bind (within? (pow2 bits)) =
      if 0 ≤ (n : ℤ) ∧ (n : ℤ) < 2 ^ bits then some (n : ℤ).toNat else none := by
    rw [← hpow, Option.bind_some, within?]
    split_ifs <;> first | rfl | omega
  cases h with
  | plain zeros n =>
    obtain ⟨c, tail, hcons, hc⟩ := exists_digits_eq_cons zeros n
    rw [hcons, readUnsigned?_of_isDigit hc, ← hcons, readDigits?_digits]
    exact hnonneg n
  | plus zeros n =>
    rw [readUnsigned?, readDigits?_digits]
    exact hnonneg n
  | minus zeros n hn =>
    rw [if_neg (by omega)]
    rfl

section Reading

/-- The numbers that decimal texts stand for: digits, with one sign before them at most. -/
inductive Numeral : List Char → ℤ → Prop
  | plain {cs : List Char} (hne : cs ≠ []) (hcs : ∀ c ∈ cs, c.isDigit = true) :
    Numeral cs (Nat.ofDigitChars 10 cs 0)
  | plus {cs : List Char} (hne : cs ≠ []) (hcs : ∀ c ∈ cs, c.isDigit = true) :
    Numeral ('+' :: cs) (Nat.ofDigitChars 10 cs 0)
  | minus {cs : List Char} (hne : cs ≠ []) (hcs : ∀ c ∈ cs, c.isDigit = true) :
    Numeral ('-' :: cs) (-Nat.ofDigitChars 10 cs 0)

inductive Unsigned : List Char → ℕ → Prop
  | plain {cs : List Char} (hne : cs ≠ []) (hcs : ∀ c ∈ cs, c.isDigit = true) :
    Unsigned cs (Nat.ofDigitChars 10 cs 0)
  | plus {cs : List Char} (hne : cs ≠ []) (hcs : ∀ c ∈ cs, c.isDigit = true) :
    Unsigned ('+' :: cs) (Nat.ofDigitChars 10 cs 0)

variable {bits m n : ℕ}

theorem Unsigned.numeral (h : Unsigned cs n) : Numeral cs n := by
  cases h with
  | plain hne hcs => exact .plain hne hcs
  | plus hne hcs => exact .plus hne hcs

theorem Unsigned.notMem {c : Char} (h : Unsigned cs n) (hplus : c ≠ '+') (hc : c.isDigit = false) :
    c ∉ cs := by
  intro hmem
  cases h with
  | plain hne hcs => simp [hcs c hmem] at hc
  | plus hne hcs =>
    obtain rfl | hmem := List.mem_cons.mp hmem
    · exact hplus rfl
    · simp [hcs c hmem] at hc

theorem isDigit_of_mem_natChars {c : Char} (hc : c ∈ natChars n) : c.isDigit = true :=
  Nat.isDigit_of_mem_toDigits (by decide) (by decide) hc

theorem unsigned_natChars (n : ℕ) : Unsigned (natChars n) n := by
  have h := Unsigned.plain (Nat.toDigits_ne_nil (n := n) (b := 10))
    fun c hc => isDigit_of_mem_natChars hc
  rwa [Nat.ofDigitChars_ten_toDigits] at h

theorem isDigit_of_digit? {c : Char} (h : (digit? c).isSome = true) : c.isDigit = true := by
  unfold digit? at h
  split at h
  case isTrue hc =>
    rw [Char.isDigit, Bool.and_eq_true, decide_eq_true_iff, decide_eq_true_iff]
    exact hc
  case isFalse => cases h

theorem isDigit_of_readDigitsFrom (h : readDigitsFrom m cs = some n) :
    ∀ c ∈ cs, c.isDigit = true := by
  induction cs generalizing m with
  | nil => simp
  | cons c cs ih =>
    obtain ⟨d, hd, htail⟩ := Option.bind_eq_some_iff.mp h
    exact List.forall_mem_cons.mpr ⟨isDigit_of_digit? (hd ▸ rfl), ih htail⟩

theorem readDigits?_eq_some (h : readDigits? cs = some n) :
    cs ≠ [] ∧ (∀ c ∈ cs, c.isDigit = true) ∧ Nat.ofDigitChars 10 cs 0 = n := by
  cases cs with
  | nil => cases h
  | cons c cs =>
    have hcs := isDigit_of_readDigitsFrom h
    refine ⟨List.cons_ne_nil c cs, hcs, ?_⟩
    have hvalue := readDigitsFrom_eq hcs 0
    exact Option.some.inj (hvalue.symm.trans h)

theorem readDigits?_within {limit : ℕ} (h : (readDigits? cs).bind (within? limit) = some n) :
    readDigits? cs = some n ∧ n < limit := by
  obtain ⟨m, hread, hwithin⟩ := Option.bind_eq_some_iff.mp h
  unfold within? at hwithin
  split at hwithin
  case isTrue hlt =>
    obtain rfl := Option.some.inj hwithin
    exact ⟨hread, hlt⟩
  case isFalse => cases hwithin

theorem readSigned?_eq_some (h : readSigned? bits cs = some i) :
    Numeral cs i ∧ -2 ^ (bits - 1) ≤ i ∧ i < 2 ^ (bits - 1) := by
  have hpow : ((pow2 (bits - 1) : ℕ) : ℤ) = 2 ^ (bits - 1) := by
    rw [pow2_eq]
    norm_cast
  have hpos : (0 : ℤ) < 2 ^ (bits - 1) := by positivity
  have hnonneg {cs : List Char}
      (h : ((readDigits? cs).bind (within? (pow2 (bits - 1)))).map Int.ofNat = some i) :
      cs ≠ [] ∧ (∀ c ∈ cs, c.isDigit = true) ∧ (Nat.ofDigitChars 10 cs 0 : ℤ) = i ∧
        -2 ^ (bits - 1) ≤ i ∧ i < 2 ^ (bits - 1) := by
    obtain ⟨n, hn, rfl⟩ := Option.map_eq_some_iff.mp h
    obtain ⟨hread, hlt⟩ := readDigits?_within hn
    obtain ⟨hne, hcs, rfl⟩ := readDigits?_eq_some hread
    rw [← hpow, Int.ofNat_eq_natCast]
    exact ⟨hne, hcs, rfl, by omega⟩
  unfold readSigned? at h
  split at h
  case h_1 =>
    obtain ⟨_, hcast, rfl⟩ := Option.map_eq_some_iff.mp h
    obtain ⟨n, hn, hcast⟩ := Option.bind_eq_some_iff.mp hcast
    obtain rfl := Option.some.inj hcast
    obtain ⟨hread, hlt⟩ := readDigits?_within hn
    obtain ⟨hne, hcs, rfl⟩ := readDigits?_eq_some hread
    rw [← hpow] at hpos ⊢
    exact ⟨.minus hne hcs, by omega⟩
  case h_2 =>
    obtain ⟨hne, hcs, rfl, hbounds⟩ := hnonneg h
    exact ⟨.plus hne hcs, hbounds⟩
  case h_3 =>
    obtain ⟨hne, hcs, rfl, hbounds⟩ := hnonneg h
    exact ⟨.plain hne hcs, hbounds⟩

theorem readDigits?_of_isDigit (hne : cs ≠ []) (hcs : ∀ c ∈ cs, c.isDigit = true) :
    readDigits? cs = some (Nat.ofDigitChars 10 cs 0) := by
  cases cs with
  | nil => exact absurd rfl hne
  | cons c cs => exact readDigitsFrom_eq hcs 0

theorem readUnsigned?_eq_some_iff : readUnsigned? bits cs = some n ↔ Unsigned cs n ∧ n < 2 ^ bits := by
  rw [← pow2_eq]
  constructor
  · intro h
    unfold readUnsigned? at h
    split at h
    all_goals
      obtain ⟨hread, hlt⟩ := readDigits?_within h
      obtain ⟨hne, hcs, rfl⟩ := readDigits?_eq_some hread
    · exact ⟨.plus hne hcs, hlt⟩
    · exact ⟨.plain hne hcs, hlt⟩
  · rintro ⟨h, hlt⟩
    cases h with
    | plain hne hcs =>
      obtain ⟨c, tail, rfl⟩ := List.exists_cons_of_ne_nil hne
      rw [readUnsigned?_of_isDigit (hcs c List.mem_cons_self), readDigits?_of_isDigit hne hcs]
      exact if_pos hlt
    | plus hne hcs =>
      rw [readUnsigned?, readDigits?_of_isDigit hne hcs]
      exact if_pos hlt

theorem readUnsigned?_eq_some (h : readUnsigned? bits cs = some n) :
    Numeral cs n ∧ n < 2 ^ bits := by
  obtain ⟨hcs, hlt⟩ := readUnsigned?_eq_some_iff.mp h
  exact ⟨hcs.numeral, hlt⟩

end Reading

theorem ofList_natChars (n : ℕ) : String.ofList (natChars n) = toString n :=
  Nat.toString_eq_ofList_toDigits.symm

theorem toList_toString (n : ℕ) : (toString n).toList = natChars n := by
  rw [← ofList_natChars, String.toList_ofList]

theorem writes_intChars (i : ℤ) : Writes (intChars i) i := by
  unfold intChars natChars
  split
  case isTrue h =>
    have hi := Writes.minus 0 i.natAbs (by omega)
    rwa [Int.ofNat_natAbs_of_nonpos h.le, neg_neg] at hi
  case isFalse h =>
    have hi := Writes.plain 0 i.natAbs
    rwa [Int.natAbs_of_nonneg (not_lt.mp h)] at hi

theorem ofList_intChars (i : ℤ) : String.ofList (intChars i) = toString i := by
  cases i with
  | ofNat n => exact ofList_natChars n
  | negSucc n =>
    have htext : toString (Int.negSucc n) = "-" ++ (n + 1).repr := rfl
    apply String.toList_inj.mp
    rw [htext, String.toList_ofList, String.toList_append, Nat.toList_repr, intChars,
      if_pos (Int.negSucc_lt_zero n)]
    rfl

end PackedStream.Text
