import PackedStream.Proofs.Command.Directory
import PackedStream.Proofs.Native
import PackedStream.Proofs.RoundTrip
import PackedStream.Proofs.Text.Hex
import PackedStream.Proofs.Text.Numeral

namespace PackedStream

open Text

section Words

variable {α β γ : Type}

theorem mapM_congr {g : α → Option γ} {k : β → Option γ} {as : List α} {bs : List β}
    (h : List.Forall₂ (fun a b => g a = k b) as bs) : as.mapM g = bs.mapM k := by
  induction h with
  | nil => rfl
  | cons hab _ ih => rw [List.mapM_cons, List.mapM_cons, hab, ih]

theorem mapM_ite (P : α → Prop) [DecidablePred P] (k : α → β) (as : List α) :
    as.mapM (fun a => if P a then some (k a) else none) =
      if ∀ a ∈ as, P a then some (as.map k) else none := by
  induction as with
  | nil => simp
  | cons a as ih =>
    rw [List.mapM_cons, ih]
    by_cases ha : P a
    · simp only [List.forall_mem_cons, ha, if_true, true_and]
      split <;> rfl
    · simp only [List.forall_mem_cons, ha, if_false, false_and]
      rfl

end Words

variable {words : List String} {ints : List ℤ}

theorem readValues_writes (hwords : List.Forall₂ (fun word i => Writes word.toList i) words ints)
    (hrange : (∀ i ∈ ints, -2 ^ 63 ≤ i ∧ i < 2 ^ 63) ∨ ∀ i ∈ ints, 0 ≤ i ∧ i < 2 ^ 64) :
    ∃ vs : HostValues, readValues words = .ok vs ∧ vs.type.isInteger = true ∧
      vs.values.map vs.type.toInt = ints := by
  have hsigned : (words.mapM fun s => readSigned? 64 s.toList) =
      if ∀ i ∈ ints, -2 ^ 63 ≤ i ∧ i < 2 ^ 63 then some (ints.map id) else none := by
    rw [← mapM_ite]
    exact mapM_congr (hwords.imp fun _ _ h => readSigned?_writes h 64)
  have hunsigned : (words.mapM fun s => readUnsigned? 64 s.toList) =
      if ∀ i ∈ ints, 0 ≤ i ∧ i < 2 ^ 64 then some (ints.map Int.toNat) else none := by
    rw [← mapM_ite]
    exact mapM_congr (hwords.imp fun _ _ h => readUnsigned?_writes h 64)
  rw [readValues, hsigned, hunsigned]
  by_cases hs : ∀ i ∈ ints, -2 ^ 63 ≤ i ∧ i < 2 ^ 63
  · rw [if_pos hs]
    refine ⟨_, rfl, rfl, ?_⟩
    change List.map BitVec.toInt (List.map (BitVec.ofInt 64) (List.map id ints)) = ints
    rw [List.map_id, List.map_map]
    refine (List.map_congr_left fun i hi => ?_).trans (List.map_id' ints)
    obtain ⟨hlow, hhigh⟩ := hs i hi
    exact toInt_ofInt_of_bounds (by decide) hlow hhigh
  · have hu := hrange.resolve_left hs
    rw [if_neg hs, if_pos hu]
    refine ⟨_, rfl, rfl, ?_⟩
    change List.map (fun v : BitVec 64 => (v.toNat : ℤ))
      (List.map (BitVec.ofNat 64) (List.map Int.toNat ints)) = ints
    rw [List.map_map, List.map_map]
    refine (List.map_congr_left fun i hi => ?_).trans (List.map_id' ints)
    obtain ⟨hlow, hhigh⟩ := hu i hi
    rw [Function.comp_apply, Function.comp_apply, BitVec.toNat_ofNat, Nat.mod_eq_of_lt (by omega),
      Int.toNat_of_nonneg hlow]

theorem HostType.text_eq {t : HostType} (ht : t.isInteger = true) (v : t.Value) :
    t.text v = toString (t.toInt v) := by
  cases t with
  | u8 | u16 | u32 | u64 => exact ofList_natChars _
  | i8 | i16 | i32 | i64 => exact ofList_intChars _
  | f32 | f64 => cases ht

namespace FieldFormat

variable {f : FieldFormat} (hf : f.validate = .ok ()) (hint : f.isInteger = true) (hbi : f ≠ bipolar)

include hf in
theorem range_of_holds {ints : List ℤ} (hholds : ∀ i ∈ ints, f.Holds i) :
    (∀ i ∈ ints, -2 ^ 63 ≤ i ∧ i < 2 ^ 63) ∨ ∀ i ∈ ints, 0 ≤ i ∧ i < 2 ^ 64 := by
  have hw := width_le hf
  by_cases hs : f.signed = true
  · left
    intro i hi
    have hpow : (2 : ℤ) ^ (f.width - 1) ≤ 2 ^ 63 := pow_le_pow_right₀ (by norm_num) (by omega)
    have h := hholds i hi
    rw [Holds, if_pos hs] at h
    omega
  · right
    intro i hi
    have hpow : (2 : ℤ) ^ f.width ≤ 2 ^ 64 := pow_le_pow_right₀ (by norm_num) hw
    have h := hholds i hi
    rw [Holds, if_neg hs] at h
    omega

include hf hint in
theorem toInt_ofInt_hostType {i : ℤ} (hi : f.Holds i) :
    f.hostType.toInt (BitVec.ofInt f.hostType.width i) = i := by
  have hhost := isInteger_hostType hint
  have hwidth := width_le_hostType hf hint
  have hsigned := signed_hostType hint
  unfold Holds at hi
  split at hi
  case isTrue hs =>
    have hpow : (2 : ℤ) ^ (f.width - 1) ≤ 2 ^ (f.hostType.width - 1) :=
      pow_le_pow_right₀ (by norm_num) (by omega)
    have hpos := width_pos hf
    rw [HostType.toInt_of_signed hhost (hsigned.trans hs),
      toInt_ofInt_of_bounds (by omega) (by omega) (by omega)]
  case isFalse hs =>
    have hpow : (2 : ℤ) ^ f.width ≤ 2 ^ f.hostType.width := pow_le_pow_right₀ (by norm_num) hwidth
    rw [HostType.toInt_of_unsigned (hsigned.trans (Bool.not_eq_true _ ▸ hs)), BitVec.toNat_ofInt,
      Int.toNat_of_nonneg (Int.emod_nonneg _ (by positivity))]
    exact Int.emod_eq_of_lt hi.1 (by push_cast; omega)

include hf hint hbi in
theorem text_unpackHost_pack_wrap {t : HostType} (ht : t.isInteger = true) {values : List t.Value}
    (hne : values ≠ []) :
    ∃ bytes vs, (∀ o : PackOptions, o.Usable → f.pack values o = .ok bytes) ∧
      f.unpackHost bytes (f.packedLength values.length).2 = .ok vs ∧
      vs.text = String.intercalate " " (((values.map t.toInt).map f.wrap).map toString) := by
  have hdefault := PackOptions.usable_default
  obtain ⟨bytes, hpack, hunpack⟩ := unpack_pack hf hdefault hdefault hne f.hostType
  have hbuffer (o : PackOptions) (ho : o.Usable) : f.pack values o = .ok bytes := by
    rw [← hpack, pack_eq_buffer hf ho.valid, pack_eq_buffer hf hdefault.valid]
  refine ⟨bytes, _, hbuffer, congrArg (Except.map _) hunpack, ?_⟩
  have hhost := isInteger_hostType hint
  rw [HostValues.text, List.map_map, List.map_map, List.map_map]
  congr 1
  apply List.map_congr_left
  intro v _
  change f.hostType.text (f.hostType.ofScalar (f.decode (f.encode (t.toScalar v)))) = _
  rw [ofScalar_decode_encode hf hint hbi ht hhost, HostType.text_eq hhost,
    toInt_ofInt_hostType hf hint (holds_wrap (width_pos hf) _)]
  rfl

theorem map_wrap_eq_self_iff (hpos : 0 < f.width) {ints : List ℤ} :
    ints.map f.wrap = ints ↔ ∀ i ∈ ints, f.Holds i := by
  have hself (i : ℤ) : f.wrap i = id i ↔ f.Holds i := by
    constructor
    · intro h
      rw [← id_eq i, ← h]
      exact holds_wrap hpos i
    · exact wrap_eq_self hpos
  nth_rewrite 2 [← List.map_id ints]
  simp only [List.map_inj_left, hself]

include hf hint hbi in
theorem text_unpackHost_pack {t : HostType} (ht : t.isInteger = true) {values : List t.Value}
    (hne : values ≠ []) (hholds : ∀ v ∈ values, f.Holds (t.toInt v)) :
    ∃ bytes vs, (∀ o : PackOptions, o.Usable → f.pack values o = .ok bytes) ∧
      f.unpackHost bytes (f.packedLength values.length).2 = .ok vs ∧
      vs.text = String.intercalate " " ((values.map t.toInt).map toString) := by
  obtain ⟨bytes, vs, hpack, hunpack, htext⟩ := text_unpackHost_pack_wrap hf hint hbi ht hne
  have hwrap : (values.map t.toInt).map f.wrap = values.map t.toInt :=
    (map_wrap_eq_self_iff (width_pos hf)).mpr (List.forall_mem_map.mpr hholds)
  rw [hwrap] at htext
  exact ⟨bytes, vs, hpack, hunpack, htext⟩

end FieldFormat

namespace Directory

variable {f : FieldFormat} {d : Directory} {bytes : Array UInt8} {padding : ℕ} {vs : HostValues}

theorem usable_options (sequential : Bool) :
    (if sequential = true then PackOptions.sequential else {}).Usable := by
  cases sequential with
  | false => exact PackOptions.usable_default
  | true => exact ⟨rfl, by decide⟩

theorem run_pack {sequential : Bool} (hread : readValues words = .ok vs)
    (hpack : f.pack vs.values (if sequential = true then .sequential else {}) = .ok bytes) :
    d.run (.pack f none false sequential words) = (d, .success (String.ofList (hexChars bytes) ++
      "\n" ++ s!"padding: {(f.packedLength vs.values.length).2}\n")) := by
  have haction : Command.action d.read (.pack f none false sequential words) =
      .ok (.print (String.ofList (hexChars bytes) ++ "\n" ++
        s!"padding: {(f.packedLength vs.values.length).2}\n")) := by
    rw [Command.action, Command.packAction, hread]
    simp only [bind, Except.bind, Bool.false_eq_true, if_false, Command.fromStream, hpack]
    rfl
  rw [run, haction]

theorem run_pack_output {sequential : Bool} {d' : Directory} {path : String}
    (hread : readValues words = .ok vs)
    (hpack : f.pack vs.values (if sequential = true then .sequential else {}) = .ok bytes)
    (hwrite : d.write path bytes = .ok d') :
    d.run (.pack f (some path) false sequential words) =
      (d', .success s!"padding: {(f.packedLength vs.values.length).2}\n") := by
  have haction : Command.action d.read (.pack f (some path) false sequential words) =
      .ok (.save path bytes s!"padding: {(f.packedLength vs.values.length).2}\n") := by
    rw [Command.action, Command.packAction, hread]
    simp only [bind, Except.bind, Bool.false_eq_true, if_false, Command.fromStream, hpack]
    rfl
  rw [run, haction]
  simp only [hwrite]

theorem unpackAction_eq (hunpack : f.unpackHost bytes padding = .ok vs) :
    Command.unpackAction f padding bytes = .ok (.print (vs.text ++ "\n")) := by
  rw [Command.unpackAction, Command.fromStream, hunpack]
  rfl

theorem run_unpack_hex {text : String} (hspells : Spells text.toList bytes)
    (hunpack : f.unpackHost bytes padding = .ok vs) :
    d.run (.unpack f padding (.hex text)) = (d, .success (vs.text ++ "\n")) := by
  have haction : Command.action d.read (.unpack f padding (.hex text)) =
      .ok (.print (vs.text ++ "\n")) := by
    rw [Command.action, Command.hexBytes, readHex_spells hspells]
    exact unpackAction_eq hunpack
  rw [run, haction]

theorem run_unpack_file {path : String} (hread : d.read path = .ok bytes)
    (hunpack : f.unpackHost bytes padding = .ok vs) :
    d.run (.unpack f padding (.file path)) = (d, .success (vs.text ++ "\n")) := by
  have haction : Command.action d.read (.unpack f padding (.file path)) =
      .ok (.print (vs.text ++ "\n")) := by
    rw [Command.action, hread]
    exact unpackAction_eq hunpack
  rw [run, haction]

/--
Packing integers and unpacking what has been shown, with the padding that has been shown, shows the
integers: over the text of the bytes in any spelling, and over a file.
-/
theorem run_unpack_run_pack (hf : f.validate = .ok ()) (hint : f.isInteger = true)
    (hbi : f ≠ .bipolar) (hne : words ≠ [])
    (hwords : List.Forall₂ (fun word i => Writes word.toList i) words ints)
    (hholds : ∀ i ∈ ints, f.Holds i) :
    ∃ (bytes : Array UInt8) (padding : ℕ),
      (∀ (d : Directory) (sequential : Bool), d.run (.pack f none false sequential words) =
        (d, .success (String.ofList (hexChars bytes) ++ "\n" ++ s!"padding: {padding}\n"))) ∧
      Spells (hexChars bytes) bytes ∧
      (∀ (d : Directory) (text : String), Spells text.toList bytes →
        d.run (.unpack f padding (.hex text)) =
          (d, .success (String.intercalate " " (ints.map toString) ++ "\n"))) ∧
      ∀ (d : Directory) (path : String) (place : Place) (sequential : Bool),
        d.LeadsBack path → d.place .write path = .ok place →
        ∃ d' : Directory, d.run (.pack f (some path) false sequential words) =
            (d', .success s!"padding: {padding}\n") ∧
          d'.run (.unpack f padding (.file path)) =
            (d', .success (String.intercalate " " (ints.map toString) ++ "\n")) := by
  obtain ⟨⟨t, values⟩, hread, ht, hvalues⟩ :=
    readValues_writes hwords (FieldFormat.range_of_holds hf hholds)
  have hnonempty : values ≠ [] := by
    rintro rfl
    obtain rfl : ints = [] := hvalues.symm
    exact hne (List.forall₂_nil_right_iff.mp hwords)
  have hin : ∀ v ∈ values, f.Holds (t.toInt v) := fun v hv =>
    hholds _ (hvalues ▸ List.mem_map_of_mem hv)
  obtain ⟨bytes, vs, hpack, hunpack, htext⟩ :=
    FieldFormat.text_unpackHost_pack hf hint hbi ht hnonempty hin
  rw [hvalues] at htext
  refine ⟨bytes, _, fun d sequential => run_pack hread (hpack _ (usable_options sequential)),
    spells_hexChars bytes, fun d text hspells => htext ▸ run_unpack_hex hspells hunpack, ?_⟩
  intro d path place sequential hback hplace
  obtain ⟨d', hwrite⟩ : ∃ d', d.write path bytes = .ok d' :=
    ⟨_, write_eq_ok_iff.mpr ⟨place, hplace, rfl⟩⟩
  exact ⟨d', run_pack_output hread (hpack _ (usable_options sequential)) hwrite,
    htext ▸ run_unpack_file (read_of_write hback hwrite) hunpack⟩

theorem run_unpack_run_pack_unsigned :
    (FieldFormat.uint 64).validate = .ok () ∧ (FieldFormat.uint 64).isInteger = true ∧
      FieldFormat.uint 64 ≠ .bipolar ∧
      List.Forall₂ (fun word i => Writes word.toList i) ["+07", "18446744073709551615"]
        [7, 18446744073709551615] ∧
      (∀ i ∈ [7, 18446744073709551615], (FieldFormat.uint 64).Holds i) ∧
      ∃ (padding : ℕ) (d : Directory),
        (plain []).run (.pack (.uint 64) (some "out") false false ["+07", "18446744073709551615"]) =
          (d, .success s!"padding: {padding}\n") ∧
        d.run (.unpack (.uint 64) padding (.file "out")) =
          (d, .success "7 18446744073709551615\n") := by
  have hbi : FieldFormat.uint 64 ≠ .bipolar := by decide
  have hwords : List.Forall₂ (fun word i => Writes word.toList i) ["+07", "18446744073709551615"]
      [7, 18446744073709551615] :=
    .cons (.plus 1 7) (.cons (.plain 0 18446744073709551615) .nil)
  have hholds : ∀ i ∈ [7, 18446744073709551615], (FieldFormat.uint 64).Holds i := by decide
  have hplace : (plain []).place .write "out" = .ok ["out"] := by cbv
  obtain ⟨bytes, padding, -, -, -, hfile⟩ :=
    run_unpack_run_pack (f := .uint 64) rfl rfl hbi (by decide) hwords hholds
  obtain ⟨d, hpack, hunpack⟩ :=
    hfile (plain []) "out" ["out"] false (leadsBack_of_ofPath rfl "out") hplace
  exact ⟨rfl, rfl, hbi, hwords, hholds, padding, d, hpack, hunpack⟩

end Directory

end PackedStream
