import Mathlib
import PackedStream.Text.Chars

namespace PackedStream.Text

variable {c : Char} {cs : List Char}

section Trim

theorem filter_dropWhile {p q : Char → Bool} (h : ∀ c ∈ cs, p c = true → q c = false) :
    (cs.dropWhile p).filter q = cs.filter q := by
  induction cs with
  | nil => rfl
  | cons c cs ih =>
    rw [List.forall_mem_cons] at h
    by_cases hc : p c = true
    · rw [List.dropWhile_cons_of_pos hc, ih h.2, List.filter_cons_of_neg (by simp [h.1 hc])]
    · rw [List.dropWhile_cons_of_neg hc]

def trimEnd (cs : List Char) : List Char := (cs.reverse.dropWhile isBlank).reverse

theorem filter_trimEnd {q : Char → Bool} (h : ∀ c ∈ cs, isBlank c = true → q c = false) :
    (trimEnd cs).filter q = cs.filter q := by
  rw [trimEnd, List.filter_reverse, filter_dropWhile, ← List.filter_reverse, List.reverse_reverse]
  intro c hc
  exact h c (List.mem_reverse.mp hc)

theorem filter_trim {q : Char → Bool} (h : ∀ c ∈ cs, isBlank c = true → q c = false) :
    (trim cs).filter q = cs.filter q := by
  have hrest : ∀ c ∈ cs.dropWhile isBlank, isBlank c = true → q c = false :=
    fun c hc => h c ((List.dropWhile_sublist _).subset hc)
  exact (filter_trimEnd hrest).trans (filter_dropWhile h)

theorem mem_of_mem_trim (hc : c ∈ trim cs) : c ∈ cs := by
  have hsub : (trimEnd (cs.dropWhile isBlank)).Sublist (cs.dropWhile isBlank) := by
    rw [trimEnd, ← List.reverse_sublist, List.reverse_reverse]
    exact List.dropWhile_sublist _
  exact (List.dropWhile_sublist _).subset (hsub.subset hc)

theorem mem_trim_iff (hc : isBlank c = false) : c ∈ trim cs ↔ c ∈ cs := by
  refine ⟨mem_of_mem_trim, fun h => ?_⟩
  have hkept : (trim cs).filter (!isBlank ·) = cs.filter (!isBlank ·) :=
    filter_trim fun d _ hd => by rw [hd]; rfl
  have hmem : c ∈ cs.filter (!isBlank ·) := List.mem_filter.mpr ⟨h, by rw [hc]; rfl⟩
  exact List.mem_of_mem_filter (hkept ▸ hmem)

theorem dropWhile_of_forall {p : Char → Bool} (h : ∀ c ∈ cs, p c = false) : cs.dropWhile p = cs := by
  cases cs with
  | nil => rfl
  | cons c cs => exact List.dropWhile_cons_of_neg (by simp [h c List.mem_cons_self])

theorem trim_of_forall (h : ∀ c ∈ cs, isBlank c = false) : trim cs = cs := by
  rw [trim, dropWhile_of_forall h, dropWhile_of_forall, List.reverse_reverse]
  intro c hc
  exact h c (List.mem_reverse.mp hc)

theorem trim_append_left {blanks : List Char} (h : ∀ c ∈ blanks, isBlank c = true) :
    trim (blanks ++ cs) = trim cs := by
  rw [trim, List.dropWhile_append_of_pos h, trim]

theorem trim_append_right {blanks : List Char} (h : ∀ c ∈ blanks, isBlank c = true) :
    trim (cs ++ blanks) = trim cs := by
  have hreverse : ∀ c ∈ blanks.reverse, isBlank c = true := fun c hc => h c (List.mem_reverse.mp hc)
  rw [trim, trim, List.dropWhile_append]
  split
  case isTrue hcs =>
    rw [List.isEmpty_iff.mp hcs, List.dropWhile_eq_nil_iff.mpr h]
  case isFalse =>
    rw [List.reverse_append, List.dropWhile_append_of_pos hreverse]

theorem trim_map {g : Char → Char} (hg : ∀ c, isBlank (g c) = isBlank c) :
    trim (cs.map g) = (trim cs).map g := by
  have hblank : isBlank ∘ g = isBlank := funext hg
  rw [trim, List.dropWhile_map, hblank, ← List.map_reverse, List.dropWhile_map, hblank,
    ← List.map_reverse, trim]

end Trim

section Case

theorem toNat_toUpper (c : Char) :
    c.toUpper.toNat = if 97 ≤ c.toNat ∧ c.toNat ≤ 122 then c.toNat - 32 else c.toNat := by
  unfold Char.toUpper
  split
  case isTrue h =>
    have hbounds : 97 ≤ c.toNat ∧ c.toNat ≤ 122 :=
      ⟨UInt32.le_iff_toNat_le.mp h.1, UInt32.le_iff_toNat_le.mp h.2⟩
    have hsum : (c.val + ('A'.val - 'a'.val)).toNat = (c.toNat + (2 ^ 32 - 32)) % 2 ^ 32 :=
      UInt32.toNat_add _ _
    rw [if_pos hbounds]
    refine hsum.trans ?_
    omega
  case isFalse h =>
    rw [if_neg]
    rintro ⟨hlow, hhigh⟩
    exact h ⟨UInt32.le_iff_toNat_le.mpr hlow, UInt32.le_iff_toNat_le.mpr hhigh⟩

theorem isBlank_toUpper (c : Char) : isBlank c.toUpper = isBlank c := by
  rw [Bool.eq_iff_iff]
  simp only [isBlank, toNat_toUpper, Bool.or_eq_true, Bool.and_eq_true, decide_eq_true_iff,
    beq_iff_eq]
  split <;> omega

def IsCapital (c : Char) : Prop := 33 ≤ c.toNat ∧ c.toNat ≤ 96

instance (c : Char) : Decidable (IsCapital c) := inferInstanceAs (Decidable (_ ∧ _))

theorem IsCapital.isBlank_eq (hc : IsCapital c) : isBlank c = false := by
  obtain ⟨hlow, hhigh⟩ := hc
  rw [← Bool.not_eq_true]
  simp only [isBlank, Bool.or_eq_true, Bool.and_eq_true, decide_eq_true_iff, beq_iff_eq]
  omega

theorem IsCapital.toUpper_eq (hc : IsCapital c) : c.toUpper = c := by
  have hnat : c.toUpper.toNat = c.toNat := by
    rw [toNat_toUpper, if_neg]
    exact fun h => absurd hc.2 (by omega)
  exact Char.toNat_inj.mp hnat

theorem isCapital_of_isDigit (hc : c.isDigit = true) : IsCapital c := by
  rw [Char.isDigit, Bool.and_eq_true, decide_eq_true_iff, decide_eq_true_iff] at hc
  have hlow : 48 ≤ c.toNat := UInt32.le_iff_toNat_le.mp hc.1
  have hhigh : c.toNat ≤ 57 := UInt32.le_iff_toNat_le.mp hc.2
  exact ⟨by omega, by omega⟩

end Case

section Cut

theorem after?_eq_some_iff {word rest : List Char} :
    after? word cs = some rest ↔ cs = word ++ rest := by
  unfold after?
  split
  case isTrue h =>
    obtain ⟨tail, rfl⟩ := List.isPrefixOf_iff_prefix.mp h
    simp
  case isFalse h =>
    simp only [reduceCtorEq, false_iff]
    rintro rfl
    exact h (List.isPrefixOf_iff_prefix.mpr (List.prefix_append word rest))

theorem cut?_append {sep : Char} {left : List Char} (h : sep ∉ left) (right : List Char) :
    cut? sep (left ++ sep :: right) = some (left, right) := by
  have hleft : ∀ c ∈ left, (c != sep) = true :=
    fun c hc => bne_iff_ne.mpr fun heq => h (heq ▸ hc)
  rw [cut?, List.span_eq_takeWhile_dropWhile, List.takeWhile_append_of_pos hleft,
    List.dropWhile_append_of_pos hleft]
  simp

theorem eq_of_cut? {sep : Char} {left right : List Char} (h : cut? sep cs = some (left, right)) :
    cs = left ++ sep :: right := by
  have happend : cs.takeWhile (· != sep) ++ cs.dropWhile (· != sep) = cs :=
    List.takeWhile_append_dropWhile
  unfold cut? at h
  rw [List.span_eq_takeWhile_dropWhile] at h
  split at h
  case h_1 => cases h
  case h_2 c rest heq =>
    obtain ⟨rfl, hrest⟩ := Prod.mk.inj heq
    obtain ⟨rfl, rfl⟩ := Prod.mk.inj (Option.some.inj h)
    have hstop := List.head?_dropWhile_not (· != sep) cs
    rw [hrest] at hstop
    obtain rfl : c = sep := by simpa using hstop
    rw [← hrest, happend]

end Cut

end PackedStream.Text
