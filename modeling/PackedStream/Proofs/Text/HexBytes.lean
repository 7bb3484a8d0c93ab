import PackedStream.Command.Directory
import PackedStream.Proofs.Text.Hex
import PackedStream.Text.HexBytes

/-!
A text is read byte by byte as it is read character by character. What is accepted are the texts
with an even number of digits, and those with a plus in the first place of a pair.
-/

namespace PackedStream.Text

variable {b b' : UInt8} {c d : Char} {cs : List Char}

section Encoding

theorem fromUTF8?_eq_some_iff {bytes : ByteArray} {s : String} :
    String.fromUTF8? bytes = some s ↔ s.toByteArray = bytes := by
  unfold String.fromUTF8?
  split
  case isTrue h =>
    rw [Option.some.injEq, ← String.toByteArray_inj, eq_comm]
    rfl
  case isFalse h =>
    simp only [reduceCtorEq, false_iff]
    rintro rfl
    exact h s.isValidUTF8

theorem utf8Size_eq_one_iff : c.utf8Size = 1 ↔ c.toNat ≤ 127 := by
  rw [Char.utf8Size_eq_one_iff, UInt32.le_iff_toNat_le]
  rfl

theorem toNat_toUInt8 (hc : c.utf8Size = 1) : c.val.toUInt8.toNat = c.toNat := by
  have hlt := utf8Size_eq_one_iff.mp hc
  exact Nat.mod_eq_of_lt (hlt.trans_lt (by decide))

theorem le_of_mem_utf8EncodeChar (hc : c.utf8Size ≠ 1) (hb : b ∈ String.utf8EncodeChar c) :
    128 ≤ b.toNat := by
  rw [Ne, utf8Size_eq_one_iff] at hc
  have hc : ¬ c.val.toNat ≤ 127 := hc
  unfold String.utf8EncodeChar at hb
  simp only [if_neg hc] at hb
  split_ifs at hb
  all_goals
    simp only [List.mem_cons, List.not_mem_nil, or_false] at hb
    rcases hb with rfl | rfl | rfl | rfl <;> rw [UInt8.toNat_ofNat'] <;> omega

theorem isBlankByte_iff : isBlankByte b = true ↔ b.toNat ∈ [0x20, 0x09, 0x0A, 0x0C, 0x0D] := by
  simp [isBlankByte, ← UInt8.toNat_inj, or_assoc]

theorem isAsciiBlank_iff : isAsciiBlank c = true ↔ c.toNat ∈ [0x20, 0x09, 0x0A, 0x0C, 0x0D] := by
  simp [isAsciiBlank, ← Char.toNat_inj, or_assoc]

theorem isBlankByte_utf8EncodeChar (hb : b ∈ String.utf8EncodeChar c) :
    isBlankByte b = isAsciiBlank c := by
  rw [Bool.eq_iff_iff, isBlankByte_iff, isAsciiBlank_iff]
  by_cases hc : c.utf8Size = 1
  · rw [String.utf8EncodeChar_eq_singleton hc, List.mem_singleton] at hb
    rw [hb, toNat_toUInt8 hc]
  · have hbyte := le_of_mem_utf8EncodeChar hc hb
    rw [utf8Size_eq_one_iff] at hc
    simp only [List.mem_cons, List.not_mem_nil, or_false]
    omega

theorem filter_utf8EncodeChar (c : Char) : (String.utf8EncodeChar c).filter (!isBlankByte ·) =
    if isAsciiBlank c = true then [] else String.utf8EncodeChar c := by
  split
  case isTrue h =>
    rw [List.filter_eq_nil_iff]
    intro b hb
    rw [isBlankByte_utf8EncodeChar hb, h]
    decide
  case isFalse h =>
    rw [List.filter_eq_self]
    intro b hb
    rw [isBlankByte_utf8EncodeChar hb]
    simpa using h

theorem filter_flatMap_utf8EncodeChar (cs : List Char) :
    (cs.flatMap String.utf8EncodeChar).filter (!isBlankByte ·) =
      (cs.filter (!isAsciiBlank ·)).flatMap String.utf8EncodeChar := by
  induction cs with
  | nil => rfl
  | cons c cs ih =>
    rw [List.flatMap_cons, List.filter_append, filter_utf8EncodeChar, ih]
    by_cases hc : isAsciiBlank c = true
    · rw [if_pos hc, List.filter_cons_of_neg (by simp [hc]), List.nil_append]
    · rw [if_neg hc, List.filter_cons_of_pos (by simp [hc]), List.flatMap_cons]

theorem length_flatMap_utf8EncodeChar (cs : List Char) :
    (cs.flatMap String.utf8EncodeChar).length = utf8Length cs := by
  induction cs with
  | nil => rfl
  | cons c cs ih =>
    rw [List.flatMap_cons, List.length_append, ih, String.length_utf8EncodeChar, utf8Length_cons]

end Encoding

section Pairs

theorem readHexDigitsFrom_ascii {m n : ℕ} (h : readHexDigitsFrom m cs = some n) :
    ∀ c ∈ cs, c.utf8Size = 1 := by
  induction cs generalizing m with
  | nil => simp
  | cons c cs ih =>
    obtain ⟨d, hd, h⟩ := Option.bind_eq_some_iff.mp h
    exact List.forall_mem_cons.mpr ⟨utf8Size_of_hexDigit? (hd ▸ rfl), ih h⟩

theorem readHexDigits?_ascii {n : ℕ} (h : readHexDigits? cs = some n) :
    ∀ c ∈ cs, c.utf8Size = 1 := by
  cases cs with
  | nil => simp
  | cons c cs => exact readHexDigitsFrom_ascii h

theorem readHexNumber?_ascii {bits n : ℕ} (h : readHexNumber? bits cs = some n) :
    ∀ c ∈ cs, c.utf8Size = 1 := by
  unfold readHexNumber? at h
  split at h
  case h_1 =>
    obtain ⟨m, hm, -⟩ := Option.bind_eq_some_iff.mp h
    exact List.forall_mem_cons.mpr ⟨rfl, readHexDigits?_ascii hm⟩
  case h_2 =>
    obtain ⟨m, hm, -⟩ := Option.bind_eq_some_iff.mp h
    exact readHexDigits?_ascii hm

theorem spelledByte?_eq_none (h : 128 ≤ b.toNat ∨ 128 ≤ b'.toNat) : spelledByte? b b' = none := by
  rw [Option.eq_none_iff_forall_ne_some]
  intro v hv
  obtain ⟨text, htext, hv⟩ := Option.bind_eq_some_iff.mp hv
  obtain ⟨n, hn, -⟩ := Option.bind_eq_some_iff.mp hv
  have hbytes : text.toList.flatMap String.utf8EncodeChar = [b, b'] := by
    rw [← List.toByteArray_inj]
    exact String.utf8Encode_toList.trans (fromUTF8?_eq_some_iff.mp htext)
  have hlt (x : UInt8) (hx : x ∈ [b, b']) : x.toNat ≤ 127 := by
    rw [← hbytes] at hx
    obtain ⟨c, hc, hx⟩ := List.mem_flatMap.mp hx
    have hsize := readHexNumber?_ascii hn c hc
    rw [String.utf8EncodeChar_eq_singleton hsize, List.mem_singleton] at hx
    rw [hx, toNat_toUInt8 hsize]
    exact utf8Size_eq_one_iff.mp hsize
  have hb := hlt b (by simp)
  have hb' := hlt b' (by simp)
  omega

theorem within?_of_lt {limit n : ℕ} (h : n < limit) : within? limit n = some n := if_pos h

theorem readHexNumber?_of_ne {bits : ℕ} (hc : c ≠ '+') :
    readHexNumber? bits (c :: cs) = (readHexDigitsFrom 0 (c :: cs)).bind (within? (pow2 bits)) := by
  unfold readHexNumber?
  split
  case h_1 heq => exact absurd (List.cons.inj heq).1 hc
  case h_2 => rfl

theorem readHexNumber?_pair (c d : Char) :
    (readHexNumber? 8 [c, d]).map UInt8.ofNat = hexPair? c d := by
  by_cases hc : c = '+'
  · subst hc
    rw [hexPair?, if_pos rfl]
    cases hd : hexDigit? d with
    | none => simp [readHexNumber?, readHexDigits?, readHexDigitsFrom, hd]
    | some n =>
      have hn := (toLower_of_hexDigit? hd).1
      have hlt : n < pow2 8 := hn.trans (by decide)
      simp [readHexNumber?, readHexDigits?, readHexDigitsFrom, hd, within?_of_lt hlt]
  · rw [readHexNumber?_of_ne hc, hexPair?, if_neg hc, readHexDigitsFrom]
    cases hm : hexDigit? c with
    | none => rfl
    | some m =>
      cases hn : hexDigit? d with
      | none => simp [readHexDigitsFrom, hn]
      | some n =>
        have hmlt := (toLower_of_hexDigit? hm).1
        have hnlt := (toLower_of_hexDigit? hn).1
        have hlt : 16 * m + n < pow2 8 := (by omega : 16 * m + n < 256)
        simp [readHexDigitsFrom, hn, within?_of_lt hlt]

theorem spelledByte?_ascii (hc : c.utf8Size = 1) (hd : d.utf8Size = 1) :
    spelledByte? c.val.toUInt8 d.val.toUInt8 = hexPair? c d := by
  have htext : String.fromUTF8? [c.val.toUInt8, d.val.toUInt8].toByteArray =
      some (String.ofList [c, d]) := by
    rw [fromUTF8?_eq_some_iff, String.toByteArray_ofList, List.utf8Encode, List.flatMap_cons,
      List.flatMap_singleton, String.utf8EncodeChar_eq_singleton hc,
      String.utf8EncodeChar_eq_singleton hd]
    rfl
  rw [spelledByte?, htext, ← readHexNumber?_pair]
  simp only [Option.bind_eq_bind, Option.bind_some, String.toList_ofList]
  cases readHexNumber? 8 [c, d] <;> rfl

theorem exists_utf8EncodeChar (hc : c.utf8Size ≠ 1) : ∃ b b' rest,
    String.utf8EncodeChar c = b :: b' :: rest ∧ 128 ≤ b.toNat := by
  have hlength := String.length_utf8EncodeChar c
  have hpos := c.utf8Size_pos
  match h : String.utf8EncodeChar c with
  | [] => simp [h] at hlength; omega
  | [b] => simp [h] at hlength; omega
  | b :: b' :: rest =>
    exact ⟨b, b', rest, rfl, le_of_mem_utf8EncodeChar hc (h ▸ List.mem_cons_self)⟩

theorem hexDigit?_of_utf8Size (hc : c.utf8Size ≠ 1) : hexDigit? c = none := by
  by_contra h
  exact hc (utf8Size_of_hexDigit? (Option.isSome_iff_ne_none.mpr h))

theorem spelledBytes?_utf8 (heven : utf8Length cs % 2 = 0) :
    spelledBytes? (cs.flatMap String.utf8EncodeChar) = hexPairs? cs := by
  have hwide {c : Char} (hc : c.utf8Size ≠ 1) (bytes : List UInt8) :
      spelledBytes? (String.utf8EncodeChar c ++ bytes) = none := by
    obtain ⟨b, b', rest, h, hb⟩ := exists_utf8EncodeChar hc
    rw [h, List.cons_append, List.cons_append, spelledBytes?, spelledByte?_eq_none (.inl hb)]
    rfl
  fun_induction hexPairs? cs with
  | case1 => rfl
  | case2 c =>
    have hc : c.utf8Size ≠ 1 := by
      intro hc
      rw [utf8Length_cons, hc] at heven
      cases heven
    exact hwide hc []
  | case3 c d cs ih =>
    rw [List.flatMap_cons, List.flatMap_cons]
    by_cases hc : c.utf8Size = 1
    · rw [String.utf8EncodeChar_eq_singleton hc]
      by_cases hd : d.utf8Size = 1
      · rw [utf8Length_cons, utf8Length_cons, hc, hd, ← Nat.add_assoc, Nat.add_mod_left] at heven
        rw [String.utf8EncodeChar_eq_singleton hd, List.singleton_append, List.singleton_append,
          spelledBytes?, spelledByte?_ascii hc hd, ih heven]
      · obtain ⟨b, b', rest, h, hb⟩ := exists_utf8EncodeChar hd
        have hpair : hexPair? c d = none := by
          simp [hexPair?, hexDigit?_of_utf8Size hd]
        rw [h, List.singleton_append, List.cons_append, spelledBytes?,
          spelledByte?_eq_none (.inr hb), hpair]
        rfl
    · have hpair : hexPair? c d = none := by
        have hplus : c ≠ '+' := by
          rintro rfl
          exact hc rfl
        simp [hexPair?, hexDigit?_of_utf8Size hc, hplus]
      rw [hwide hc, hpair]
      rfl

theorem readHexBytes_eq (s : String) : readHexBytes s = readHex s := by
  have hdigits : hexDigits s.toList = (hexBody s.toList).filter (!isAsciiBlank ·) := rfl
  rw [readHexBytes, readHex, hdigits, filter_flatMap_utf8EncodeChar, length_flatMap_utf8EncodeChar]
  split
  case isTrue => rfl
  case isFalse h =>
    have hpairs := spelledBytes?_utf8 (not_ne_iff.mp h)
    cases hread : hexPairs? ((hexBody s.toList).filter (!isAsciiBlank ·)) with
    | none => simp only [hpairs, hread]
    | some bytes => simp only [hpairs, hread]

end Pairs

/--
What is read as bytes: two digits for each, in either case, where a plus in the first place of a
pair counts as a zero. So a text without a plus is read if it has an even number of characters, all
of them digits, and a text with one is read though it has not. Taking a text apart into bytes
instead of characters gives the same.
-/
theorem readHex_grammar (s : String) :
    (∀ bytes, readHex s = .ok bytes ↔
      (plusAsZero (hexDigits s.toList)).map Char.toLower = hexChars bytes) ∧
    ('+' ∉ hexDigits s.toList →
      ((∃ bytes, readHex s = .ok bytes) ↔
        (∀ c ∈ hexDigits s.toList, (hexDigit? c).isSome = true) ∧
          (hexDigits s.toList).length % 2 = 0) ∧
      ∀ bytes, readHex s = .ok bytes ↔ (hexDigits s.toList).map Char.toLower = hexChars bytes) ∧
    (∀ bytes, readHex s = .ok bytes →
      (∀ c ∈ hexDigits s.toList, (hexDigit? c).isSome = true ∨ c = '+') ∧
        ((∀ c ∈ hexDigits s.toList, (hexDigit? c).isSome = true) ↔ '+' ∉ hexDigits s.toList)) ∧
    readHexBytes s = readHex s := by
  refine ⟨fun bytes => readHex_eq_ok_iff, ?_, ?_, readHexBytes_eq s⟩
  · intro hplus
    refine ⟨exists_readHex_iff hplus, fun bytes => ?_⟩
    rw [readHex_eq_ok_iff, plusAsZero_of_notMem hplus]
  · intro bytes h
    have hchars : ∀ c ∈ hexDigits s.toList, (hexDigit? c).isSome = true ∨ c = '+' :=
      fun c hc => hexDigit?_or_plus (readHex_eq_ok_iff.mp h) hc
    refine ⟨hchars, fun hdigits hmem => ?_, fun hplus c hc => ?_⟩
    · cases hdigits '+' hmem
    · exact (hchars c hc).resolve_right fun heq => hplus (heq ▸ hc)

theorem readHex_grammar_mixed :
    '+' ∉ hexDigits " 0X5d 84\t0F\n".toList ∧ readHex " 0X5d 84\t0F\n" = .ok #[0x5D, 0x84, 0x0F] ∧
      readHexBytes " 0X5d 84\t0F\n" = .ok #[0x5D, 0x84, 0x0F] ∧
      readHex "5d+f" = .ok #[0x5D, 0x0F] ∧
      ¬ ∀ c ∈ hexDigits "5d+f".toList, (hexDigit? c).isSome = true := by
  obtain ⟨-, hplain, -, hbytes⟩ := readHex_grammar " 0X5d 84\t0F\n"
  obtain ⟨hspelled, -, hplus, -⟩ := readHex_grammar "5d+f"
  have hnone : '+' ∉ hexDigits " 0X5d 84\t0F\n".toList := by decide +kernel
  have hread : readHex " 0X5d 84\t0F\n" = .ok #[0x5D, 0x84, 0x0F] :=
    ((hplain hnone).2 _).mpr (by decide +kernel)
  have hsigned : readHex "5d+f" = .ok #[0x5D, 0x0F] := (hspelled _).mpr (by decide +kernel)
  refine ⟨hnone, hread, hbytes.trans hread, hsigned, fun h => ?_⟩
  exact (hplus _ hsigned).2.mp h (by decide +kernel)

theorem readHex_takes_sign :
    hexDigits "+5".toList = ['+', '5'] ∧ (hexDigit? '+').isSome = false ∧
      readHex "+5" = .ok #[5] ∧ readHexBytes "+5" = .ok #[5] ∧
      ((Directory.plain []).run (.unpack (.uint 8) 0 (.hex "+5"))).2 = .success "5\n" :=
  ⟨by decide +kernel, rfl, by decide +kernel, by decide +kernel, by decide +kernel⟩

end PackedStream.Text
