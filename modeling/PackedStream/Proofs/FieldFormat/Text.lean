import PackedStream.FieldFormat.Text
import PackedStream.Proofs.Field
import PackedStream.Proofs.Text.Chars
import PackedStream.Proofs.Text.Numeral

namespace PackedStream.FieldFormat

open Text

variable {f g : FieldFormat} {cs : List Char} {a b n : ℕ}

inductive Named : List Char → FieldFormat → Prop
  | uint {cs : List Char} {n : ℕ} (hn : Unsigned cs n) (hlt : n < 2 ^ 32) :
    Named ("UINT".toList ++ cs) (uint n)
  | int {cs : List Char} {n : ℕ} (hn : Unsigned cs n) (hlt : n < 2 ^ 32) :
    Named ("INT".toList ++ cs) (int n)
  | fixed {as bs : List Char} {a b : ℕ} (ha : Unsigned (trim as) a) (hlta : a < 2 ^ 32)
    (hb : Unsigned (trim bs) b) (hltb : b < 2 ^ 32) :
    Named ("FIXED<".toList ++ (as ++ ',' :: bs ++ ['>'])) (fixed a b)
  | float32 : Named "FLOAT32".toList float32
  | binary : Named "BINARY".toList binary
  | ternary : Named "TERNARY".toList ternary
  | bipolar : Named "BIPOLAR".toList bipolar

theorem readFixed?_eq_some_iff : readFixed? cs = some f ↔ ∃ as bs a b,
    cs = as ++ ',' :: bs ++ ['>'] ∧ (Unsigned (trim as) a ∧ a < 2 ^ 32) ∧
      (Unsigned (trim bs) b ∧ b < 2 ^ 32) ∧ fixed a b = f := by
  unfold readFixed?
  simp only [← readUnsigned?_eq_some_iff]
  constructor
  · intro h
    obtain ⟨_, hlast, h⟩ := Option.bind_eq_some_iff.mp h
    obtain ⟨⟨as, bs⟩, hcut, h⟩ := Option.bind_eq_some_iff.mp h
    obtain ⟨a, ha, h⟩ := Option.bind_eq_some_iff.mp h
    obtain ⟨b, hb, hfixed⟩ := Option.bind_eq_some_iff.mp h
    have hclose : cs.getLast? = some '>' := by
      by_contra hopen
      simp [guard, hopen] at hlast
    obtain ⟨tail, rfl⟩ := List.getLast?_eq_some_iff.mp hclose
    rw [List.dropLast_concat] at hcut
    exact ⟨as, bs, a, b, by rw [eq_of_cut? hcut], ha, hb, Option.some.inj hfixed⟩
  · rintro ⟨as, bs, a, b, rfl, ha, hb, rfl⟩
    have hcomma : ',' ∉ as := by
      rw [← mem_trim_iff rfl]
      exact (readUnsigned?_eq_some_iff.mp ha).1.notMem (by decide) rfl
    rw [List.getLast?_concat, List.dropLast_concat, cut?_append hcomma]
    simp [ha, hb]

theorem readName?_uint (ds : List Char) :
    readName? ("UINT".toList ++ ds) = (readUnsigned? 32 ds).map uint := rfl

theorem readName?_int (ds : List Char) :
    readName? ("INT".toList ++ ds) = (readUnsigned? 32 ds).map int := rfl

theorem readName?_fixed (cs : List Char) :
    readName? ("FIXED<".toList ++ cs) = readFixed? cs := rfl

theorem readName?_eq_some_iff : readName? cs = some f ↔ Named cs f := by
  constructor
  · intro h
    unfold readName? at h
    split_ifs at h with h₁ h₂ h₃ h₄
    · obtain rfl := Option.some.inj h
      exact h₁ ▸ .float32
    · obtain rfl := Option.some.inj h
      exact h₂ ▸ .binary
    · obtain rfl := Option.some.inj h
      exact h₃ ▸ .ternary
    · obtain rfl := Option.some.inj h
      exact h₄ ▸ .bipolar
    split at h
    case h_1 ds hds =>
      obtain rfl := after?_eq_some_iff.mp hds
      obtain ⟨n, hn, rfl⟩ := Option.map_eq_some_iff.mp h
      obtain ⟨hn, hlt⟩ := readUnsigned?_eq_some_iff.mp hn
      exact .uint hn hlt
    case h_2 =>
    split at h
    case h_1 ds hds =>
      obtain rfl := after?_eq_some_iff.mp hds
      obtain ⟨n, hn, rfl⟩ := Option.map_eq_some_iff.mp h
      obtain ⟨hn, hlt⟩ := readUnsigned?_eq_some_iff.mp hn
      exact .int hn hlt
    case h_2 =>
    obtain ⟨rest, hrest, h⟩ := Option.bind_eq_some_iff.mp h
    obtain rfl := after?_eq_some_iff.mp hrest
    obtain ⟨as, bs, a, b, rfl, ⟨ha, hlta⟩, ⟨hb, hltb⟩, rfl⟩ := readFixed?_eq_some_iff.mp h
    exact .fixed ha hlta hb hltb
  · intro h
    cases h with
    | float32 | binary | ternary | bipolar => rfl
    | uint hn hlt => rw [readName?_uint, readUnsigned?_eq_some_iff.mpr ⟨hn, hlt⟩, Option.map_some]
    | int hn hlt => rw [readName?_int, readUnsigned?_eq_some_iff.mpr ⟨hn, hlt⟩, Option.map_some]
    | fixed ha hlta hb hltb =>
      rw [readName?_fixed, readFixed?_eq_some_iff]
      exact ⟨_, _, _, _, rfl, ⟨ha, hlta⟩, ⟨hb, hltb⟩, rfl⟩

section Capitals

def capitals (s : String) : List Char := (trim s.toList).map Char.toUpper

theorem capitals_blanks {front back : List Char} (hfront : ∀ c ∈ front, isBlank c = true)
    (hback : ∀ c ∈ back, isBlank c = true) (s : String) :
    capitals (String.ofList (front ++ s.toList ++ back)) = capitals s := by
  rw [capitals, String.toList_ofList, trim_append_right hback, trim_append_left hfront, capitals]

theorem capitals_eq_trim (s : String) : capitals s = trim (s.toList.map Char.toUpper) :=
  (trim_map isBlank_toUpper).symm

theorem toList_text_uint (n : ℕ) : (uint n).text.toList = "UINT".toList ++ natChars n := by
  have htext : (uint n).text = "UINT" ++ toString n := rfl
  rw [htext, String.toList_append, toList_toString]

theorem toList_text_int (n : ℕ) : (int n).text.toList = "INT".toList ++ natChars n := by
  have htext : (int n).text = "INT" ++ toString n := rfl
  rw [htext, String.toList_append, toList_toString]

theorem toList_text_fixed (a b : ℕ) : (fixed a b).text.toList =
    "FIXED<".toList ++ (natChars a ++ ',' :: natChars b ++ ['>']) := by
  have htext : (fixed a b).text = "FIXED<" ++ toString a ++ "," ++ toString b ++ ">" := rfl
  have hcomma : ",".toList = [','] := rfl
  have hclose : ">".toList = ['>'] := rfl
  rw [htext]
  simp only [String.toList_append, toList_toString, hcomma, hclose, List.append_assoc,
    List.cons_append, List.nil_append]

theorem trim_natChars (n : ℕ) : trim (natChars n) = natChars n :=
  trim_of_forall fun _ hc => (isCapital_of_isDigit (isDigit_of_mem_natChars hc)).isBlank_eq

def widths : FieldFormat → List ℕ
  | uint n | int n => [n]
  | fixed a b => [a, b]
  | _ => []

theorem named_text (h : ∀ n ∈ f.widths, n < 2 ^ 32) : Named f.text.toList f := by
  cases f with
  | uint n =>
    rw [toList_text_uint]
    exact .uint (unsigned_natChars n) (h n List.mem_cons_self)
  | int n =>
    rw [toList_text_int]
    exact .int (unsigned_natChars n) (h n List.mem_cons_self)
  | fixed a b =>
    have ha := unsigned_natChars a
    have hb := unsigned_natChars b
    rw [← trim_natChars] at ha hb
    rw [toList_text_fixed]
    exact .fixed ha (h a (by simp [widths])) hb (h b (by simp [widths]))
  | float32 => exact .float32
  | binary => exact .binary
  | ternary => exact .ternary
  | bipolar => exact .bipolar

theorem isCapital_text (f : FieldFormat) : ∀ c ∈ f.text.toList, IsCapital c := by
  have hdigits (n : ℕ) : ∀ c ∈ natChars n, IsCapital c :=
    fun c hc => isCapital_of_isDigit (isDigit_of_mem_natChars hc)
  have huint : ∀ c ∈ ['U', 'I', 'N', 'T'], IsCapital c := by simp [IsCapital]
  have hint : ∀ c ∈ ['I', 'N', 'T'], IsCapital c := by simp [IsCapital]
  have hfixed : ∀ c ∈ ['F', 'I', 'X', 'E', 'D', '<'], IsCapital c := by simp [IsCapital]
  cases f with
  | uint n =>
    rw [toList_text_uint]
    exact List.forall_mem_append.mpr ⟨huint, hdigits n⟩
  | int n =>
    rw [toList_text_int]
    exact List.forall_mem_append.mpr ⟨hint, hdigits n⟩
  | fixed a b =>
    rw [toList_text_fixed]
    simp only [List.forall_mem_append, List.forall_mem_cons]
    exact ⟨hfixed, ⟨hdigits a, by decide, hdigits b⟩, by decide, by simp⟩
  | float32 | binary | ternary | bipolar => simp [text, IsCapital]

theorem capitals_text (f : FieldFormat) : capitals f.text = f.text.toList := by
  have h := isCapital_text f
  rw [capitals, trim_of_forall fun c hc => (h c hc).isBlank_eq]
  exact (List.map_congr_left fun c hc => (h c hc).toUpper_eq).trans (List.map_id' _)

end Capitals

section Parse

variable {s t : String} {r : Except StreamError FieldFormat}

def InRange : FieldFormat → Prop
  | uint n | int n => 1 ≤ n ∧ n ≤ 64
  | fixed a b => (1 ≤ a ∧ a ≤ 64) ∧ 1 ≤ b ∧ b ≤ a
  | _ => True

theorem validate_eq_ok_iff : f.validate = .ok () ↔ f.InRange := by
  cases f with
  | uint n | int n => exact checkWidth_eq_ok_iff
  | fixed a b => exact validate_fixed_iff.trans and_assoc.symm
  | float32 | binary | ternary | bipolar => exact iff_of_true rfl trivial

theorem checked_of_inRange (h : f.InRange) : f.checked = .ok f := by
  rw [checked, validate_eq_ok_iff.mpr h]
  rfl

theorem checked_of_width (h : f.width = 0 ∨ 64 < f.width) :
    f.checked = .error (.unsupportedWidth f.width) := by
  have hcheck {n : ℕ} (hn : n = 0 ∨ 64 < n) : checkWidth n = .error (.unsupportedWidth n) :=
    if_pos hn
  cases f with
  | uint n | int n => exact congrArg (Except.map _) (hcheck h)
  | fixed a b =>
    have hcheck : checkWidth a = .error (.unsupportedWidth a) := hcheck h
    rw [checked, validate, hcheck]
    rfl
  | float32 | binary | ternary | bipolar => simp [width] at h

theorem checked_fixed (ha : 1 ≤ a ∧ a ≤ 64) (hb : b = 0 ∨ a < b) :
    (fixed a b).checked = .error (.invalidFixedPoint a b) := by
  rw [checked, validate, checkWidth_eq_ok_iff.mpr ha]
  simp only [bind, Except.bind, if_pos hb]
  rfl

/-- What a text is read as: the width is checked before the point, and after both are known. -/
inductive Reads (s : String) : Except StreamError FieldFormat → Prop
  | format {f : FieldFormat} (h : Named (capitals s) f) (hf : f.InRange) : Reads s (.ok f)
  | width {f : FieldFormat} (h : Named (capitals s) f) (hf : f.width = 0 ∨ 64 < f.width) :
    Reads s (.error (.unsupportedWidth f.width))
  | point {a b : ℕ} (h : Named (capitals s) (fixed a b)) (ha : 1 ≤ a ∧ a ≤ 64)
    (hb : b = 0 ∨ a < b) : Reads s (.error (.invalidFixedPoint a b))
  | unknown (h : ∀ f, ¬ Named (capitals s) f) : Reads s (.error (.unknownFormat s))

theorem parse_of_named (h : Named (capitals s) f) : parse s = f.checked := by
  have hread := readName?_eq_some_iff.mpr h
  rw [capitals] at hread
  rw [parse, hread]

theorem parse_of_not_named (h : ∀ f, ¬ Named (capitals s) f) :
    parse s = .error (.unknownFormat s) := by
  have hread : readName? (capitals s) = none :=
    Option.eq_none_iff_forall_ne_some.mpr fun f hf => h f (readName?_eq_some_iff.mp hf)
  rw [capitals] at hread
  rw [parse, hread]

theorem Reads.parse_eq (h : Reads s r) : parse s = r := by
  cases h with
  | format h hf => rw [parse_of_named h, checked_of_inRange hf]
  | width h hf => rw [parse_of_named h, checked_of_width hf]
  | point h ha hb => rw [parse_of_named h, checked_fixed ha hb]
  | unknown h => exact parse_of_not_named h

theorem exists_reads (s : String) : ∃ r, Reads s r := by
  by_cases hnamed : ∃ f, Named (capitals s) f
  · obtain ⟨f, h⟩ := hnamed
    by_cases hwidth : f.width = 0 ∨ 64 < f.width
    · exact ⟨_, .width h hwidth⟩
    cases f with
    | uint n | int n =>
      simp only [width] at hwidth
      exact ⟨_, .format h ⟨by omega, by omega⟩⟩
    | fixed a b =>
      simp only [width] at hwidth
      have ha : 1 ≤ a ∧ a ≤ 64 := by omega
      by_cases hb : b = 0 ∨ a < b
      · exact ⟨_, .point h ha hb⟩
      · exact ⟨_, .format h ⟨ha, by omega, by omega⟩⟩
    | float32 | binary | ternary | bipolar => exact ⟨_, .format h trivial⟩
  · exact ⟨_, .unknown (not_exists.mp hnamed)⟩

theorem parse_eq_iff : parse s = r ↔ Reads s r := by
  constructor
  · rintro rfl
    obtain ⟨r, h⟩ := exists_reads s
    rwa [h.parse_eq]
  · exact Reads.parse_eq

theorem parse_eq_ok_iff : parse s = .ok f ↔ Named (capitals s) f ∧ f.InRange := by
  rw [parse_eq_iff]
  constructor
  · rintro ⟨h, hf⟩
    exact ⟨h, hf⟩
  · rintro ⟨h, hf⟩
    exact .format h hf

theorem parse_eq_ok_congr (h : capitals s = capitals t) : parse s = .ok f ↔ parse t = .ok f := by
  rw [parse_eq_ok_iff, parse_eq_ok_iff, h]

theorem parse_text (h : ∀ n ∈ f.widths, n < 2 ^ 32) : parse f.text = f.checked :=
  parse_of_named (capitals_text f ▸ named_text h)

theorem InRange.widths_lt (h : f.InRange) : ∀ n ∈ f.widths, n < 2 ^ 32 := by
  cases f with
  | uint n | int n =>
    simp only [widths, List.forall_mem_singleton]
    exact h.2.trans_lt (by decide)
  | fixed a b =>
    obtain ⟨⟨-, ha⟩, -, hb⟩ := h
    simp only [widths, List.forall_mem_cons]
    exact ⟨by omega, by omega, by simp⟩
  | float32 | binary | ternary | bipolar => simp [widths]

/--
Reading accepts the names of the usable formats, in any case and with blanks around them, and tells
an unusable width, an unusable point and an unknown name apart. It undoes what `text` shows.
-/
theorem parse_grammar :
    (∀ (s : String) (r : Except StreamError FieldFormat), parse s = r ↔ Reads s r) ∧
    (∀ (s : String) (f : FieldFormat), parse s = .ok f →
      f.validate = .ok () ∧ parse f.text = .ok f) ∧
    (∀ (s t : String) (f : FieldFormat), s.toList.map Char.toUpper = t.toList.map Char.toUpper →
      (parse s = .ok f ↔ parse t = .ok f)) ∧
    (∀ (s : String) (front back : List Char) (f : FieldFormat),
      (∀ c ∈ front, isBlank c = true) → (∀ c ∈ back, isBlank c = true) →
      (parse (String.ofList (front ++ s.toList ++ back)) = .ok f ↔ parse s = .ok f)) ∧
    ∀ f : FieldFormat, (∀ n ∈ f.widths, n < 2 ^ 32) →
      parse f.text = f.validate.map fun _ => f := by
  refine ⟨fun s r => parse_eq_iff, ?_, ?_, ?_, fun f h => parse_text h⟩
  · intro s f h
    have hf : f.InRange := (parse_eq_ok_iff.mp h).2
    exact ⟨validate_eq_ok_iff.mpr hf, by rw [parse_text hf.widths_lt, checked_of_inRange hf]⟩
  · intro s t f h
    apply parse_eq_ok_congr
    rw [capitals_eq_trim, capitals_eq_trim, h]
  · intro s front back f hfront hback
    exact parse_eq_ok_congr (capitals_blanks hfront hback s)

theorem parse_grammar_spaced :
    parse " fixed< +08 ,4>\t" = .ok (fixed 8 4) ∧ parse (fixed 8 4).text = .ok (fixed 8 4) ∧
      " fixed< +08 ,4>\t".toList.map Char.toUpper = " FIXED< +08 ,4>\t".toList.map Char.toUpper ∧
      parse " FIXED< +08 ,4>\t" = .ok (fixed 8 4) ∧
      (∀ c ∈ ['\x0b', '\u2003'], isBlank c = true) ∧
      parse (String.ofList (['\x0b', '\u2003'] ++ "int7".toList ++ ['\x0b', '\u2003'])) = .ok (int 7) ∧
      (∀ n ∈ (fixed 200 0).widths, n < 2 ^ 32) ∧
      parse (fixed 200 0).text = .error (.unsupportedWidth 200) := by
  obtain ⟨-, hback, hcase, hblanks, hshown⟩ := parse_grammar
  have hread : parse " fixed< +08 ,4>\t" = .ok (fixed 8 4) := by decide +kernel
  have hupper : " fixed< +08 ,4>\t".toList.map Char.toUpper =
      " FIXED< +08 ,4>\t".toList.map Char.toUpper := by decide +kernel
  have hint : parse "int7" = .ok (int 7) := by decide +kernel
  have hspace : ∀ c ∈ ['\x0b', '\u2003'], isBlank c = true := by simp [isBlank]
  have hwidths : ∀ n ∈ (fixed 200 0).widths, n < 2 ^ 32 := by simp [widths]
  exact ⟨hread, (hback _ _ hread).2, hupper, (hcase _ _ _ hupper).mp hread, hspace,
    (hblanks "int7" _ _ _ hspace hspace).mpr hint, hwidths, hshown _ hwidths⟩

end Parse

end PackedStream.FieldFormat
