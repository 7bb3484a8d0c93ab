import PackedStream.Proofs.Command.RoundTrip
import PackedStream.Proofs.Represented.Integers

namespace PackedStream

open Text
open FloatFormat (binary64)

variable {words : List String} {ints : List ℤ}

def ReadAs (words : List String) (ints : List ℤ) : Prop :=
  ∃ vs : HostValues, readValues words = .ok vs ∧ vs.type.isInteger = true ∧
    vs.values.map vs.type.toInt = ints

section Reading

theorem forall₂_of_mapM {α β : Type} {g : α → Option β} {as : List α} {bs : List β}
    (h : as.mapM g = some bs) : List.Forall₂ (fun a b => g a = some b) as bs := by
  induction as generalizing bs with
  | nil =>
    obtain rfl : [] = bs := Option.some.inj h
    exact .nil
  | cons a as ih =>
    rw [List.mapM_cons] at h
    obtain ⟨b, hb, h⟩ := Option.bind_eq_some_iff.mp h
    obtain ⟨bs, hbs, h⟩ := Option.bind_eq_some_iff.mp h
    obtain rfl := Option.some.inj h
    exact .cons hb (ih hbs)

theorem ReadAs.numerals (h : ReadAs words ints) :
    List.Forall₂ (fun word i => Numeral word.toList i) words ints := by
  obtain ⟨vs, hread, ht, rfl⟩ := h
  unfold readValues at hread
  split at hread
  case h_1 values hvalues =>
    obtain rfl := Except.ok.inj hread
    change List.Forall₂ _ words (List.map BitVec.toInt (List.map (BitVec.ofInt 64) values))
    rw [List.map_map, List.forall₂_map_right_iff]
    refine (forall₂_of_mapM hvalues).imp fun word i hi => ?_
    obtain ⟨hnumeral, hlow, hhigh⟩ := readSigned?_eq_some hi
    rw [Function.comp_apply, toInt_ofInt_of_bounds (by decide) hlow hhigh]
    exact hnumeral
  split at hread
  case h_1 values hvalues =>
    obtain rfl := Except.ok.inj hread
    change List.Forall₂ _ words
      (List.map (fun v : BitVec 64 => (v.toNat : ℤ)) (List.map (BitVec.ofNat 64) values))
    rw [List.map_map, List.forall₂_map_right_iff]
    refine (forall₂_of_mapM hvalues).imp fun word n hn => ?_
    obtain ⟨hnumeral, hlt⟩ := readUnsigned?_eq_some hn
    rw [Function.comp_apply, BitVec.toNat_ofNat, Nat.mod_eq_of_lt hlt]
    exact hnumeral
  case h_2 =>
    simp only [bind, Except.bind] at hread
    split at hread
    case h_1 => cases hread
    case h_2 =>
      obtain rfl := Except.ok.inj hread
      cases ht

theorem HostType.toInt_bounds {t : HostType} (v : t.Value) : -2 ^ 63 ≤ t.toInt v ∧ t.toInt v < 2 ^ 64 := by
  have hsigned {m : ℕ} (hm : m ≤ 64) (x : BitVec m) : -2 ^ 63 ≤ x.toInt ∧ x.toInt < 2 ^ 64 := by
    have hpow : (2 : ℤ) ^ m ≤ 2 ^ 64 := pow_le_pow_right₀ (by norm_num) hm
    have hlow := x.le_two_mul_toInt
    have hhigh := x.two_mul_toInt_lt
    omega
  have hunsigned {m : ℕ} (hm : m ≤ 64) (x : BitVec m) :
      -2 ^ 63 ≤ (x.toNat : ℤ) ∧ (x.toNat : ℤ) < 2 ^ 64 := by
    have hlt := x.isLt.trans_le (Nat.pow_le_pow_right (by decide) hm)
    omega
  cases t with
  | i8 | i16 | i32 | i64 => exact hsigned (by decide) v
  | u8 | u16 | u32 | u64 | f32 | f64 => exact hunsigned (by decide) v

theorem ReadAs.bounds (h : ReadAs words ints) : ∀ i ∈ ints, -2 ^ 63 ≤ i ∧ i < 2 ^ 64 := by
  obtain ⟨vs, -, -, rfl⟩ := h
  exact List.forall_mem_map.mpr fun v _ => HostType.toInt_bounds v

theorem toBinary64_toScalar {t : HostType} (ht : t.isInteger = true) (v : t.Value) :
    (t.toScalar v).toBinary64 = binary64.ofInt (t.toInt v) := by
  have hsigned {m : ℕ} (h : m ≤ 64) (x : BitVec m) :
      binary64.ofInt (x.signExtend 64).toInt = (binary64.ofInt x.toInt : Word) := by
    rw [BitVec.toInt_signExtend_of_le h]
  have hunsigned {m : ℕ} (h : m < 64) (x : BitVec m) :
      binary64.ofInt (x.setWidth 64).toInt = (binary64.ofInt (x.toNat : ℤ) : Word) := by
    rw [toInt_setWidth_of_lt h]
  cases t with
  | i8 | i16 | i32 | i64 => exact hsigned (by decide) v
  | u8 | u16 | u32 => exact hunsigned (by decide) v
  | u64 => rfl
  | f32 | f64 => cases ht

end Reading

section Strict

variable {f : FieldFormat} (hf : f.validate = .ok ()) (hint : f.isInteger = true)
  (hbi : f ≠ .bipolar)

include hf hint hbi in
theorem firstRefused?_eq {vs : HostValues} (ht : vs.type.isInteger = true) :
    firstRefused? f vs =
      ((vs.values.map vs.type.toInt).find? fun i => ¬ f.Passes i).map binary64.ofInt := by
  have himage : (fun v => (vs.type.toScalar v).toBinary64) = binary64.ofInt ∘ vs.type.toInt :=
    funext (toBinary64_toScalar ht)
  have htest : ((fun x => !f.represents x) ∘ binary64.ofInt) ∘ vs.type.toInt =
      (fun i => decide (¬ f.Passes i)) ∘ vs.type.toInt := by
    funext v
    obtain ⟨hlow, hhigh⟩ := HostType.toInt_bounds v
    have hpasses := FieldFormat.represents_ofInt_iff hf hint hbi (i := vs.type.toInt v) (by omega)
      hhigh.le
    simp only [Function.comp_apply, decide_not, ← hpasses, Bool.decide_eq_true]
  rw [firstRefused?, himage, ← List.map_map, List.find?_map, List.find?_map, List.find?_map, htest]

namespace Directory

/--
Packing words and unpacking what has been shown, with the padding that has been shown, shows a text:
over the text of the bytes in any spelling, and over a file.
-/
def ShowsBack (f : FieldFormat) (strict : Bool) (words : List String) (shown : String) : Prop :=
  ∃ (bytes : Array UInt8) (padding : ℕ),
    (∀ (d : Directory) (sequential : Bool), d.run (.pack f none strict sequential words) =
      (d, .success (String.ofList (hexChars bytes) ++ "\n" ++ s!"padding: {padding}\n"))) ∧
    Spells (hexChars bytes) bytes ∧
    (∀ (d : Directory) (text : String), Spells text.toList bytes →
      d.run (.unpack f padding (.hex text)) = (d, .success (shown ++ "\n"))) ∧
    ∀ (d : Directory) (path : String) (place : Place) (sequential : Bool),
      d.LeadsBack path → d.place .write path = .ok place →
      ∃ d' : Directory, d.run (.pack f (some path) strict sequential words) =
          (d', .success s!"padding: {padding}\n") ∧
        d'.run (.unpack f padding (.file path)) = (d', .success (shown ++ "\n"))

variable {d : Directory} {output : Option String} {sequential : Bool}

theorem run_pack_strict_of_none {vs : HostValues} (hread : readValues words = .ok vs)
    (hnone : firstRefused? f vs = none) :
    d.run (.pack f output true sequential words) = d.run (.pack f output false sequential words) := by
  have haction : Command.action d.read (.pack f output true sequential words) =
      Command.action d.read (.pack f output false sequential words) := by
    rw [Command.action, Command.action, Command.packAction, Command.packAction, hread]
    simp only [bind, Except.bind, if_true, hnone]
    rfl
  rw [run, haction]
  rfl

include hf hint hbi in
theorem run_pack_strict (h : ReadAs words ints) :
    d.run (.pack f output true sequential words) =
      match ints.find? fun i => ¬ f.Passes i with
      | some i => (d, .failure (.notRepresentable (binary64.ofInt i) f))
      | none => d.run (.pack f output false sequential words) := by
  obtain ⟨vs, hread, ht, rfl⟩ := h
  have hrefused := firstRefused?_eq hf hint hbi ht
  cases hfind : (vs.values.map vs.type.toInt).find? fun i => ¬ f.Passes i with
  | some i =>
    rw [hfind] at hrefused
    have haction : Command.action d.read (.pack f output true sequential words) =
        .error (.notRepresentable (binary64.ofInt i) f) := by
      rw [Command.action, Command.packAction, hread]
      simp only [bind, Except.bind, if_true, hrefused]
      rfl
    rw [run, haction]
  | none => exact run_pack_strict_of_none hread (hrefused.trans (congrArg _ hfind))

include hf hint hbi in
theorem run_pack_strict_of_passes (h : ReadAs words ints) (hpasses : ∀ i ∈ ints, f.Passes i) :
    d.run (.pack f output true sequential words) = d.run (.pack f output false sequential words) := by
  have hnone : ints.find? (fun i => ¬ f.Passes i) = none :=
    List.find?_eq_none.mpr fun i hi => by simpa using hpasses i hi
  rw [run_pack_strict hf hint hbi h, hnone]

include hf hint hbi in
theorem passes_of_run_pack_strict (h : ReadAs words ints)
    (hexit : (d.run (.pack f output true sequential words)).2.exit = 0) :
    ∀ i ∈ ints, f.Passes i := by
  rw [run_pack_strict hf hint hbi h] at hexit
  split at hexit
  case h_1 => cases hexit
  case h_2 hnone =>
    intro i hi
    simpa using List.find?_eq_none.mp hnone i hi

include hf hint hbi in
theorem run_unpack_run_pack_strict (h : ReadAs words ints) (hne : words ≠ [])
    (hpasses : ∀ i ∈ ints, f.Passes i) :
    ShowsBack f true words (String.intercalate " " ((ints.map f.wrap).map toString)) := by
  have hstrict (d : Directory) (output : Option String) (sequential : Bool) :
      d.run (.pack f output true sequential words) = d.run (.pack f output false sequential words) :=
    run_pack_strict_of_passes hf hint hbi h hpasses
  have hlength := h.numerals.length_eq
  obtain ⟨vs, hread, ht, rfl⟩ := h
  have hnonempty : vs.values ≠ [] := by
    intro hnil
    rw [hnil] at hlength
    exact hne (List.length_eq_zero_iff.mp hlength)
  obtain ⟨bytes, back, hpack, hunpack, htext⟩ :=
    FieldFormat.text_unpackHost_pack_wrap hf hint hbi ht hnonempty
  rw [← htext]
  refine ⟨bytes, _, ?_, spells_hexChars bytes, fun d text hspells => run_unpack_hex hspells hunpack, ?_⟩
  · intro d sequential
    rw [hstrict]
    exact run_pack hread (hpack _ (usable_options sequential))
  · intro d path place sequential hback hplace
    obtain ⟨d', hwrite⟩ : ∃ d', d.write path bytes = .ok d' :=
      ⟨_, write_eq_ok_iff.mpr ⟨place, hplace, rfl⟩⟩
    refine ⟨d', ?_, run_unpack_file (read_of_write hback hwrite) hunpack⟩
    rw [hstrict]
    exact run_pack_output hread (hpack _ (usable_options sequential)) hwrite

include hf hint hbi in
/--
A strict run packs integers, given in decimal, if all of them pass, and reports the first that does
not; packing changes just those that the format does not hold. A strict run keeps its promise for
the formats of at most 53 bits, and for unsigned integers of 64 bits, which the words themselves
cannot exceed: the other ones let an integer through that lies next to the range.
-/
theorem strict_pack_sound_iff :
    (∀ {words : List String} {ints : List ℤ}, ReadAs words ints →
      List.Forall₂ (fun word i => Numeral word.toList i) words ints ∧
      ∀ (d : Directory) (output : Option String) (sequential : Bool),
        d.run (.pack f output true sequential words) =
          match ints.find? fun i => ¬ f.Passes i with
          | some i => (d, .failure (.notRepresentable (binary64.ofInt i) f))
          | none => d.run (.pack f output false sequential words)) ∧
    (∀ {words : List String} {ints : List ℤ}, ReadAs words ints → words ≠ [] →
      (∀ i ∈ ints, f.Passes i) →
      ShowsBack f true words (String.intercalate " " ((ints.map f.wrap).map toString)) ∧
      (ints.map f.wrap = ints ↔ ∀ i ∈ ints, f.Holds i)) ∧
    ((∀ (words : List String) (ints : List ℤ) (d : Directory) (output : Option String)
        (sequential : Bool), ReadAs words ints →
        (d.run (.pack f output true sequential words)).2.exit = 0 → ∀ i ∈ ints, f.Holds i) ↔
      f.width ≤ 53 ∨ f = .uint 64) := by
  refine ⟨fun h => ⟨h.numerals, fun d output sequential => run_pack_strict hf hint hbi h⟩,
    fun h hne hpasses => ⟨run_unpack_run_pack_strict hf hint hbi h hne hpasses,
      FieldFormat.map_wrap_eq_self_iff (FieldFormat.width_pos hf)⟩, ?_, ?_⟩
  · intro hsound
    by_contra hwide
    obtain ⟨hwidth, hne⟩ := not_or.mp hwide
    obtain ⟨i, hlow, hhigh, hpasses, hlost⟩ :=
      FieldFormat.exists_passes_not_holds hf hint hbi (not_le.mp hwidth) hne
    have hwords : List.Forall₂ (fun word i => Writes word.toList i) [toString i] [i] := by
      refine .cons ?_ .nil
      rw [← ofList_intChars, String.toList_ofList]
      exact writes_intChars i
    have hread : ReadAs [toString i] [i] := readValues_writes hwords (by
      simp only [List.forall_mem_singleton]
      omega)
    have hall : ∀ j ∈ [i], f.Passes j := List.forall_mem_singleton.mpr hpasses
    obtain ⟨bytes, padding, hrun, -⟩ :=
      run_unpack_run_pack_strict hf hint hbi hread (List.cons_ne_nil _ _) hall
    have hexit := congrArg (fun result => result.2.exit) (hrun (plain []) false)
    exact hlost (hsound _ _ _ _ _ hread hexit i (List.mem_singleton_self i))
  · intro hwidth words ints d output sequential hread hexit i hi
    have hpasses := passes_of_run_pack_strict hf hint hbi hread hexit i hi
    exact hpasses.holds hf hint hwidth (hread.bounds i hi).2

theorem strict_pack_sound_int53 :
    (FieldFormat.int 53).validate = .ok () ∧ (FieldFormat.int 53).isInteger = true ∧
      FieldFormat.int 53 ≠ .bipolar ∧
      ∀ (words : List String) (ints : List ℤ) (d : Directory) (output : Option String)
        (sequential : Bool), ReadAs words ints →
        (d.run (.pack (.int 53) output true sequential words)).2.exit = 0 →
        ∀ i ∈ ints, (FieldFormat.int 53).Holds i :=
  ⟨rfl, rfl, by decide, (strict_pack_sound_iff rfl rfl (by decide)).2.2.mpr (.inl (by decide))⟩

theorem strict_pack_lets_through :
    ((FieldFormat.uint 54).validate = .ok () ∧ ReadAs ["18014398509481984"] [2 ^ 54] ∧
      ¬ (FieldFormat.uint 54).Holds (2 ^ 54) ∧
      ((plain []).run (.pack (.uint 54) none true false ["18014398509481984"])).2 =
        .success "00000000000000\npadding: 2\n" ∧
      ((plain []).run (.unpack (.uint 54) 2 (.hex "00000000000000"))).2 = .success "0\n") ∧
    (FieldFormat.int 54).validate = .ok () ∧ ReadAs ["-9007199254740993"] [-2 ^ 53 - 1] ∧
      ¬ (FieldFormat.int 54).Holds (-2 ^ 53 - 1) ∧
      ((plain []).run (.pack (.int 54) none true false ["-9007199254740993"])).2 =
        .success "ffffffffffff1f\npadding: 2\n" ∧
      ((plain []).run (.unpack (.int 54) 2 (.hex "ffffffffffff1f"))).2 =
        .success "9007199254740991\n" :=
  ⟨⟨rfl, ⟨_, rfl, rfl, rfl⟩, by decide, by decide +kernel, by decide +kernel⟩,
    rfl, ⟨_, rfl, rfl, rfl⟩, by decide, by decide +kernel, by decide +kernel⟩

end Directory

end Strict

end PackedStream
