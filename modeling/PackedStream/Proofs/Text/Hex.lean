import PackedStream.Proofs.Text.Chars
import PackedStream.Text.Hex

namespace PackedStream.Text

variable {c d : Char} {cs : List Char}

section Digits

theorem hexDigit?_eq (c : Char) : hexDigit? c =
    if 48 ≤ c.toNat ∧ c.toNat ≤ 57 then some (c.toNat - 48)
    else if 97 ≤ c.toNat ∧ c.toNat ≤ 102 then some (c.toNat - 97 + 10)
    else if 65 ≤ c.toNat ∧ c.toNat ≤ 70 then some (c.toNat - 65 + 10)
    else none := rfl

theorem toNat_toLower (c : Char) :
    c.toLower.toNat = if 65 ≤ c.toNat ∧ c.toNat ≤ 90 then c.toNat + 32 else c.toNat := by
  unfold Char.toLower
  split
  case isTrue h =>
    have hbounds : 65 ≤ c.toNat ∧ c.toNat ≤ 90 :=
      ⟨UInt32.le_iff_toNat_le.mp h.1, UInt32.le_iff_toNat_le.mp h.2⟩
    have hsum : (c.val + ('a'.val - 'A'.val)).toNat = (c.toNat + 32) % 2 ^ 32 := UInt32.toNat_add _ _
    rw [if_pos hbounds]
    exact hsum.trans (Nat.mod_eq_of_lt (by omega))
  case isFalse h =>
    rw [if_neg]
    rintro ⟨hlow, hhigh⟩
    exact h ⟨UInt32.le_iff_toNat_le.mpr hlow, UInt32.le_iff_toNat_le.mpr hhigh⟩

theorem hexDigit?_toLower (c : Char) : hexDigit? c.toLower = hexDigit? c := by
  rw [hexDigit?_eq, hexDigit?_eq, toNat_toLower]
  by_cases hupper : 65 ≤ c.toNat ∧ c.toNat ≤ 90
  · grind
  · rw [if_neg hupper]

theorem hexDigit?_digitChar : ∀ n < 16, hexDigit? n.digitChar = some n := by
  decide

theorem toNat_bounds (hc : (hexDigit? c).isSome = true) :
    48 ≤ c.toNat ∧ c.toNat ≤ 57 ∨ 97 ≤ c.toNat ∧ c.toNat ≤ 102 ∨ 65 ≤ c.toNat ∧ c.toNat ≤ 70 := by
  rw [hexDigit?_eq] at hc
  split_ifs at hc with h₁ h₂ h₃
  · exact .inl h₁
  · exact .inr (.inl h₂)
  · exact .inr (.inr h₃)
  · cases hc

theorem isBlank_of_hexDigit? (hc : (hexDigit? c).isSome = true) : isBlank c = false := by
  have hbounds := toNat_bounds hc
  rw [← Bool.not_eq_true]
  simp only [isBlank, Bool.or_eq_true, Bool.and_eq_true, decide_eq_true_iff, beq_iff_eq]
  omega

theorem utf8Size_of_hexDigit? (hc : (hexDigit? c).isSome = true) : c.utf8Size = 1 := by
  have hbounds := toNat_bounds hc
  rw [Char.utf8Size_eq_one_iff, UInt32.le_iff_toNat_le]
  change c.toNat ≤ 127
  omega

end Digits

section Pairs

theorem hexDigit?_of_toLower {n : ℕ} (hn : n < 16) (hc : c.toLower = n.digitChar) :
    hexDigit? c = some n := by
  rw [← hexDigit?_toLower, hc, hexDigit?_digitChar n hn]

theorem hexPair?_of_toLower {b : UInt8} (hc : c.toLower = Nat.digitChar (b.toNat / 16))
    (hd : d.toLower = Nat.digitChar (b.toNat % 16)) : hexPair? c d = some b := by
  have hlt := b.toNat_lt
  have hhigh := hexDigit?_of_toLower (by omega) hc
  have hlow := hexDigit?_of_toLower (by omega) hd
  have hplus : c ≠ '+' := by
    rintro rfl
    cases hhigh
  have hsum : 16 * (b.toNat / 16) + b.toNat % 16 = b.toNat := by omega
  rw [hexPair?, if_neg hplus, hhigh, hlow]
  simp only [Option.bind_eq_bind, Option.bind_some, hsum, UInt8.ofNat_toNat]
  rfl

theorem hexPairs?_of_toLower (bytes : List UInt8)
    (hcs : cs.map Char.toLower = hexChars bytes.toArray) : hexPairs? cs = some bytes := by
  rw [hexChars] at hcs
  induction bytes generalizing cs with
  | nil =>
    obtain rfl := List.map_eq_nil_iff.mp hcs
    rfl
  | cons b bytes ih =>
    obtain ⟨c, rest, rfl, hc, hrest⟩ := List.map_eq_cons_iff.mp hcs
    obtain ⟨d, rest, rfl, hd, hrest⟩ := List.map_eq_cons_iff.mp hrest
    rw [hexPairs?, hexPair?_of_toLower hc hd, ih hrest]
    rfl

theorem exists_of_mem_hexChars {bytes : Array UInt8} (hc : c ∈ hexChars bytes) :
    ∃ n < 16, c = n.digitChar := by
  obtain ⟨b, -, hb⟩ := List.mem_flatMap.mp hc
  have hlt := b.toNat_lt
  simp only [List.mem_cons, List.not_mem_nil, or_false] at hb
  obtain hb | hb := hb
  · exact ⟨_, by omega, hb⟩
  · exact ⟨_, by omega, hb⟩

theorem hexDigit?_of_mem {bytes : Array UInt8} (hcs : cs.map Char.toLower = hexChars bytes)
    (hc : c ∈ cs) : (hexDigit? c).isSome = true := by
  obtain ⟨n, hn, hlower⟩ := exists_of_mem_hexChars (hcs ▸ List.mem_map_of_mem hc)
  rw [hexDigit?_of_toLower hn hlower]
  rfl

theorem foldl_utf8Size (cs : List Char) (n : ℕ) :
    cs.foldl (fun n c => n + c.utf8Size) n = n + utf8Length cs := by
  rw [utf8Length]
  induction cs generalizing n with
  | nil => rfl
  | cons c cs ih =>
    rw [List.foldl_cons, List.foldl_cons, ih, ih (0 + c.utf8Size)]
    omega

theorem utf8Length_cons (c : Char) (cs : List Char) :
    utf8Length (c :: cs) = c.utf8Size + utf8Length cs := by
  rw [utf8Length, List.foldl_cons, foldl_utf8Size, Nat.zero_add]

theorem utf8Length_eq (hcs : ∀ c ∈ cs, c.utf8Size = 1) : utf8Length cs = cs.length := by
  induction cs with
  | nil => rfl
  | cons c cs ih =>
    rw [List.forall_mem_cons] at hcs
    rw [utf8Length_cons, hcs.1, ih hcs.2, List.length_cons, Nat.add_comm]

theorem length_hexChars (bytes : Array UInt8) : (hexChars bytes).length = 2 * bytes.size := by
  have hpair (b : UInt8) :
      [Nat.digitChar (b.toNat / 16), Nat.digitChar (b.toNat % 16)].length = 2 := rfl
  rw [hexChars, List.length_flatMap]
  simp only [hpair, List.map_const', List.sum_replicate, Array.length_toList, smul_eq_mul]
  omega

end Pairs

section Blanks

theorem trim_marker {m : Char} (hm : isBlank m = false) (cs : List Char) :
    trim ('0' :: m :: cs) = '0' :: m :: trimEnd cs := by
  have hzero : isBlank '0' = false := rfl
  have hend : [m, '0'].dropWhile isBlank = [m, '0'] := List.dropWhile_cons_of_neg (by simp [hm])
  have hreverse : ('0' :: m :: cs).reverse.dropWhile isBlank =
      cs.reverse.dropWhile isBlank ++ [m, '0'] := by
    rw [List.reverse_cons, List.reverse_cons, List.append_assoc, List.dropWhile_append]
    split
    case isTrue h =>
      rw [List.isEmpty_iff.mp h]
      exact hend
    case isFalse => rfl
  rw [trim, List.dropWhile_cons_of_neg (by simp [hzero]), hreverse, List.reverse_append]
  rfl

end Blanks

def Spells (cs : List Char) (bytes : Array UInt8) : Prop :=
  ∃ marker body, cs = marker ++ body ∧
    (marker = [] ∨ marker = ['0', 'x'] ∨ marker = ['0', 'X']) ∧
    (body.filter (!isAsciiBlank ·)).map Char.toLower = hexChars bytes

theorem spells_hexChars (bytes : Array UInt8) : Spells (hexChars bytes) bytes := by
  have hdigit : ∀ n < 16, isAsciiBlank n.digitChar = false ∧ n.digitChar.toLower = n.digitChar := by
    decide
  have hchar (c : Char) (hc : c ∈ hexChars bytes) : isAsciiBlank c = false ∧ c.toLower = c := by
    obtain ⟨n, hn, rfl⟩ := exists_of_mem_hexChars hc
    exact hdigit n hn
  refine ⟨[], hexChars bytes, rfl, .inl rfl, ?_⟩
  rw [List.filter_eq_self.mpr fun c hc => by rw [(hchar c hc).1]; rfl]
  exact (List.map_congr_left fun c hc => (hchar c hc).2).trans (List.map_id' _)

theorem hexDigits_marker {marker body : List Char}
    (hmarker : marker = [] ∨ marker = ['0', 'x'] ∨ marker = ['0', 'X'])
    (hbody : ∀ c ∈ body, isAsciiBlank c = false → (hexDigit? c).isSome = true) :
    hexDigits (marker ++ body) = body.filter (!isAsciiBlank ·) := by
  have hblank : ∀ c ∈ body, isBlank c = true → (!isAsciiBlank c) = false := by
    intro c hc hb
    by_contra h
    rw [Bool.not_eq_false, Bool.not_eq_true'] at h
    rw [isBlank_of_hexDigit? (hbody c hc h)] at hb
    cases hb
  have hletter (m : Char) (hm : m = 'x' ∨ m = 'X') : m ∉ body := by
    intro hmem
    have hdigit := hbody m hmem (by obtain rfl | rfl := hm <;> rfl)
    obtain rfl | rfl := hm <;> cases hdigit
  obtain rfl | rfl | rfl := hmarker
  · have hnone (m : Char) (hm : m = 'x' ∨ m = 'X') : after? ['0', m] (trim body) = none := by
      rw [after?, if_neg]
      intro h
      have hstart := List.isPrefixOf_iff_prefix.mp h
      exact hletter m hm (mem_of_mem_trim (hstart.subset (by simp)))
    rw [List.nil_append, hexDigits, hnone 'x' (.inl rfl), hnone 'X' (.inr rfl)]
    exact filter_trim hblank
  · have hafter : after? ['0', 'x'] ('0' :: 'x' :: trimEnd body) = some (trimEnd body) := rfl
    rw [List.cons_append, List.cons_append, List.nil_append, hexDigits, trim_marker rfl, hafter]
    exact filter_trimEnd hblank
  · have hlower : after? ['0', 'x'] ('0' :: 'X' :: trimEnd body) = none := rfl
    have hafter : after? ['0', 'X'] ('0' :: 'X' :: trimEnd body) = some (trimEnd body) := rfl
    rw [List.cons_append, List.cons_append, List.nil_append, hexDigits, trim_marker rfl, hlower,
      hafter]
    exact filter_trimEnd hblank

theorem readHex_spells {text : String} {bytes : Array UInt8} (h : Spells text.toList bytes) :
    readHex text = .ok bytes := by
  obtain ⟨marker, body, htext, hmarker, hbody⟩ := h
  have hdigits {c : Char} (hc : c ∈ body) (hb : isAsciiBlank c = false) :
      (hexDigit? c).isSome = true :=
    hexDigit?_of_mem hbody (List.mem_filter.mpr ⟨hc, by rw [hb]; rfl⟩)
  have hlength : (body.filter (!isAsciiBlank ·)).length = 2 * bytes.size := by
    rw [← List.length_map Char.toLower, hbody, length_hexChars]
  have hall : ∀ c ∈ body.filter (!isAsciiBlank ·), (hexDigit? c).isSome = true :=
    fun c hc => hexDigit?_of_mem hbody hc
  rw [readHex, htext, hexDigits_marker hmarker (fun c hc hb => hdigits hc hb)]
  simp only [utf8Length_eq fun c hc => utf8Size_of_hexDigit? (hall c hc), hlength, Nat.mul_mod_right, ne_eq, not_true_eq_false, if_false]
  rw [hexPairs?_of_toLower bytes.toList (by simpa using hbody)]

section Accepted

variable {s : String} {bytes : Array UInt8}

theorem toNat_digitChar : ∀ n < 16, n.digitChar.toNat = if n < 10 then 48 + n else 87 + n := by
  decide

theorem toLower_of_hexDigit? {n : ℕ} (hc : hexDigit? c = some n) : n < 16 ∧ c.toLower = n.digitChar := by
  rw [hexDigit?_eq] at hc
  have hn : n < 16 ∧ c.toLower.toNat = if n < 10 then 48 + n else 87 + n := by
    rw [toNat_toLower]
    grind
  exact ⟨hn.1, Char.toNat_inj.mp (hn.2.trans (toNat_digitChar n hn.1).symm)⟩

def plusAsZero : List Char → List Char
  | c :: d :: cs => (if c = '+' then '0' else c) :: d :: plusAsZero cs
  | cs => cs

theorem length_plusAsZero (cs : List Char) : (plusAsZero cs).length = cs.length := by
  fun_induction plusAsZero cs with
  | case1 c d cs ih => simp [ih]
  | case2 => rfl

theorem plusAsZero_of_notMem (h : '+' ∉ cs) : plusAsZero cs = cs := by
  fun_induction plusAsZero cs with
  | case1 c d cs ih =>
    simp only [List.mem_cons, not_or] at h
    rw [ih h.2.2, if_neg (Ne.symm h.1)]
  | case2 => rfl

theorem mem_plusAsZero (hc : c ∈ cs) : c = '+' ∨ c ∈ plusAsZero cs := by
  fun_induction plusAsZero cs with
  | case1 b d cs ih =>
    simp only [List.mem_cons] at hc ⊢
    obtain rfl | rfl | hc := hc
    · by_cases hplus : c = '+'
      · exact .inl hplus
      · exact .inr (.inl (if_neg hplus).symm)
    · exact .inr (.inr (.inl rfl))
    · exact (ih hc).imp_right fun h => .inr (.inr h)
  | case2 => exact .inr hc

theorem hexPair?_plus (d : Char) : hexPair? '+' d = hexPair? '0' d := by
  have hzero : hexDigit? '0' = some 0 := rfl
  rw [hexPair?, if_pos rfl, hexPair?, if_neg (by decide), hzero]
  cases hexDigit? d <;> simp

theorem hexPair?_plusAsZero (c d : Char) :
    hexPair? (if c = '+' then '0' else c) d = hexPair? c d := by
  split
  case isTrue h => rw [h, hexPair?_plus]
  case isFalse => rfl

theorem hexPairs?_plusAsZero (cs : List Char) : hexPairs? (plusAsZero cs) = hexPairs? cs := by
  fun_induction plusAsZero cs with
  | case1 c d cs ih => rw [hexPairs?, hexPairs?, ih, hexPair?_plusAsZero]
  | case2 => rfl

theorem toLower_of_hexPair? {b : UInt8} (hc : c ≠ '+') (h : hexPair? c d = some b) :
    [c, d].map Char.toLower = [Nat.digitChar (b.toNat / 16), Nat.digitChar (b.toNat % 16)] := by
  rw [hexPair?, if_neg hc] at h
  obtain ⟨m, hm, h⟩ := Option.bind_eq_some_iff.mp h
  obtain ⟨n, hn, h⟩ := Option.bind_eq_some_iff.mp h
  obtain rfl := Option.some.inj h
  obtain ⟨hmlt, hmc⟩ := toLower_of_hexDigit? hm
  obtain ⟨hnlt, hnd⟩ := toLower_of_hexDigit? hn
  have hnat : (UInt8.ofNat (16 * m + n)).toNat = 16 * m + n := by
    rw [UInt8.toNat_ofNat']
    exact Nat.mod_eq_of_lt (by omega)
  have hhigh : (16 * m + n) / 16 = m := by omega
  have hlow : (16 * m + n) % 16 = n := by omega
  rw [hnat, hhigh, hlow, List.map_cons, List.map_singleton, hmc, hnd]

theorem hexPairs?_eq_some_iff {bytes : List UInt8} :
    hexPairs? cs = some bytes ↔ (plusAsZero cs).map Char.toLower = hexChars bytes.toArray := by
  refine ⟨fun h => ?_, fun h => hexPairs?_plusAsZero cs ▸ hexPairs?_of_toLower bytes h⟩
  rw [hexChars]
  fun_induction plusAsZero cs generalizing bytes with
  | case1 c d cs ih =>
    obtain ⟨b, hb, h⟩ := Option.bind_eq_some_iff.mp h
    obtain ⟨rest, hrest, h⟩ := Option.bind_eq_some_iff.mp h
    obtain rfl := Option.some.inj h
    have hplus : (if c = '+' then '0' else c) ≠ '+' := by split <;> simp [*]
    have hpair := toLower_of_hexPair? hplus (hexPair?_plusAsZero c d ▸ hb)
    exact congrArg₂ (· ++ ·) hpair (ih hrest)
  | case2 cs hshort =>
    obtain - | ⟨c, - | ⟨d, cs⟩⟩ := cs
    · obtain rfl := Option.some.inj h
      rfl
    · cases h
    · exact absurd rfl (hshort c d cs)

theorem hexDigit?_or_plus (hbytes : (plusAsZero cs).map Char.toLower = hexChars bytes) (hc : c ∈ cs) :
    (hexDigit? c).isSome = true ∨ c = '+' :=
  (mem_plusAsZero hc).symm.imp_left (hexDigit?_of_mem hbytes)

theorem utf8Length_of_plusAsZero (hbytes : (plusAsZero cs).map Char.toLower = hexChars bytes) :
    utf8Length cs = 2 * bytes.size := by
  have hsize : ∀ c ∈ cs, c.utf8Size = 1 := by
    intro c hc
    obtain hdigit | rfl := hexDigit?_or_plus hbytes hc
    · exact utf8Size_of_hexDigit? hdigit
    · rfl
  have hlength := congrArg List.length hbytes
  rw [List.length_map, length_plusAsZero, length_hexChars] at hlength
  rw [utf8Length_eq hsize, hlength]

theorem readHex_eq_ok_iff : readHex s = .ok bytes ↔
    (plusAsZero (hexDigits s.toList)).map Char.toLower = hexChars bytes := by
  constructor
  · intro h
    rw [readHex] at h
    split at h
    case isTrue => cases h
    case isFalse =>
      split at h
      case h_1 list hlist =>
        obtain rfl := Except.ok.inj h
        exact hexPairs?_eq_some_iff.mp hlist
      case h_2 => cases h
  · intro h
    have hpairs : hexPairs? (hexDigits s.toList) = some bytes.toList := hexPairs?_eq_some_iff.mpr h
    simp [readHex, utf8Length_of_plusAsZero h, hpairs]

theorem exists_hexPairs? (hcs : ∀ c ∈ cs, (hexDigit? c).isSome = true) (heven : cs.length % 2 = 0) :
    ∃ bytes, hexPairs? cs = some bytes := by
  fun_induction plusAsZero cs with
  | case1 c d cs ih =>
    simp only [List.forall_mem_cons] at hcs
    obtain ⟨m, hm⟩ := Option.isSome_iff_exists.mp hcs.1
    obtain ⟨n, hn⟩ := Option.isSome_iff_exists.mp hcs.2.1
    rw [List.length_cons, List.length_cons, Nat.add_assoc, Nat.add_mod_right] at heven
    obtain ⟨bytes, hbytes⟩ := ih hcs.2.2 heven
    have hplus : c ≠ '+' := by
      rintro rfl
      cases hm
    have hpair : hexPair? c d = some (UInt8.ofNat (16 * m + n)) := by
      rw [hexPair?, if_neg hplus, hm, hn]
      rfl
    exact ⟨UInt8.ofNat (16 * m + n) :: bytes, by rw [hexPairs?, hpair, hbytes]; rfl⟩
  | case2 cs hshort =>
    obtain - | ⟨c, - | ⟨d, cs⟩⟩ := cs
    · exact ⟨[], rfl⟩
    · cases heven
    · exact absurd rfl (hshort c d cs)

theorem exists_readHex_iff (hplus : '+' ∉ hexDigits s.toList) : (∃ bytes, readHex s = .ok bytes) ↔
    (∀ c ∈ hexDigits s.toList, (hexDigit? c).isSome = true) ∧
      (hexDigits s.toList).length % 2 = 0 := by
  simp only [readHex_eq_ok_iff, plusAsZero_of_notMem hplus]
  constructor
  · rintro ⟨bytes, hbytes⟩
    have hlength := congrArg List.length hbytes
    rw [List.length_map, length_hexChars] at hlength
    exact ⟨fun c hc => hexDigit?_of_mem hbytes hc, by omega⟩
  · rintro ⟨hdigits, heven⟩
    obtain ⟨bytes, hbytes⟩ := exists_hexPairs? hdigits heven
    rw [hexPairs?_eq_some_iff, plusAsZero_of_notMem hplus] at hbytes
    exact ⟨bytes.toArray, hbytes⟩

end Accepted

end PackedStream.Text
