import PackedStream.Proofs.Command.Strict
import PackedStream.Proofs.Numbers

namespace PackedStream

open Text
open FloatFormat (binary64)

variable {f : FieldFormat} (hf : f.validate = .ok ()) {words : List String} {ints : List ℤ}

namespace FieldFormat

theorem holds_of_mem_numbers (hf : f.validate = .ok ()) (hint : f.isInteger = true)
    (hbi : f ≠ bipolar) {i : ℤ} (hi : (i : ℚ) ∈ f.numbers) : f.Holds i := by
  have hfloat : f ≠ float32 := by
    rintro rfl
    cases hint
  obtain ⟨n, hlow, hhigh, hn⟩ := (denotes_iff hfloat hbi).mp ((mem_numbers_iff hf).mp hi)
  rw [fracBits_of_isInteger hint, pow_zero, div_one, Int.cast_inj] at hn
  exact hn ▸ holds_of_lowest_le hlow hhigh

include hf in
theorem range_of_mem_numbers (hint : f.isInteger = true) (h : ∀ i ∈ ints, (i : ℚ) ∈ f.numbers) :
    (∀ i ∈ ints, -2 ^ 63 ≤ i ∧ i < 2 ^ 63) ∨ ∀ i ∈ ints, 0 ≤ i ∧ i < 2 ^ 64 := by
  by_cases hbi : f = bipolar
  · subst hbi
    left
    intro i hi
    obtain hi | hi : (i : ℚ) = -1 ∨ (i : ℚ) = 1 := h i hi
    · obtain rfl : i = -1 := by exact_mod_cast hi
      decide
    · obtain rfl : i = 1 := by exact_mod_cast hi
      decide
  · exact range_of_holds hf fun i hi => holds_of_mem_numbers hf hint hbi (h i hi)

end FieldFormat

namespace Directory

variable {d : Directory} {output : Option String} {sequential : Bool}

include hf in
theorem run_pack_strict_of_numbers (h : ReadAs words ints) (hints : ∀ i ∈ ints, (i : ℚ) ∈ f.numbers) :
    d.run (.pack f output true sequential words) = d.run (.pack f output false sequential words) := by
  obtain ⟨vs, hread, ht, rfl⟩ := h
  apply run_pack_strict_of_none hread
  rw [firstRefused?, List.find?_eq_none]
  intro x hx
  obtain ⟨v, hv, rfl⟩ := List.mem_map.mp hx
  rw [toBinary64_toScalar ht,
    FieldFormat.represents_ofInt_of_mem_numbers hf (hints _ (List.mem_map_of_mem hv))]
  decide

include hf in
theorem run_pack_strict_numbers (hint : f.isInteger = true)
    (hwords : List.Forall₂ (fun word i => Writes word.toList i) words ints)
    (hints : ∀ i ∈ ints, (i : ℚ) ∈ f.numbers) : ∃ (bytes : Array UInt8) (padding : ℕ),
      ∀ (d : Directory) (sequential : Bool), d.run (.pack f none true sequential words) =
        (d, .success (String.ofList (hexChars bytes) ++ "\n" ++ s!"padding: {padding}\n")) := by
  obtain ⟨vs, hread, ht, hvalues⟩ :=
    readValues_writes hwords (FieldFormat.range_of_mem_numbers hf hint hints)
  refine ⟨(f.buffer vs.values).bytes, (f.packedLength vs.values.length).2, fun d sequential => ?_⟩
  rw [run_pack_strict_of_numbers hf ⟨vs, hread, ht, hvalues⟩ hints]
  exact run_pack hread (FieldFormat.pack_eq_buffer hf (usable_options sequential).valid _)

include hf in
/--
The test lets every number of a format through, and every integer among them also when it has been
rounded to binary64. A strict run does with such integers what the run without the test does.
-/
theorem strict_pack_complete :
    (∀ x : Word, binary64.isFinite x = true → binary64.value x ∈ f.numbers →
      f.represents x = true) ∧
    (∀ i : ℤ, (i : ℚ) ∈ f.numbers → f.represents (binary64.ofInt i) = true) ∧
    (∀ {words : List String} {ints : List ℤ}, ReadAs words ints →
      (∀ i ∈ ints, (i : ℚ) ∈ f.numbers) →
      ∀ (d : Directory) (output : Option String) (sequential : Bool),
        d.run (.pack f output true sequential words) =
          d.run (.pack f output false sequential words)) ∧
    (f.isInteger = true → ∀ {words : List String} {ints : List ℤ},
      List.Forall₂ (fun word i => Writes word.toList i) words ints →
      (∀ i ∈ ints, (i : ℚ) ∈ f.numbers) → ∃ (bytes : Array UInt8) (padding : ℕ),
        ∀ (d : Directory) (sequential : Bool), d.run (.pack f none true sequential words) =
          (d, .success (String.ofList (hexChars bytes) ++ "\n" ++ s!"padding: {padding}\n"))) :=
  ⟨fun _ => FieldFormat.represents_of_mem_numbers hf,
    fun _ => FieldFormat.represents_ofInt_of_mem_numbers hf,
    fun hread hints _ _ _ => run_pack_strict_of_numbers hf hread hints,
    fun hint _ _ => run_pack_strict_numbers hf hint⟩

theorem strict_pack_complete_uint64 :
    (FieldFormat.uint 64).validate = .ok () ∧ (FieldFormat.uint 64).isInteger = true ∧
      List.Forall₂ (fun word i => Writes word.toList i) ["18446744073709551615"] [2 ^ 64 - 1] ∧
      (∀ i ∈ [(2 ^ 64 - 1 : ℤ)], (i : ℚ) ∈ (FieldFormat.uint 64).numbers) ∧
      binary64.value (binary64.ofInt (2 ^ 64 - 1) : Word) = (2 ^ 64 : ℤ) ∧
      (FieldFormat.uint 64).represents (binary64.ofInt (2 ^ 64 - 1)) = true ∧
      ∃ (bytes : Array UInt8) (padding : ℕ),
        ∀ (d : Directory) (sequential : Bool),
          d.run (.pack (.uint 64) none true sequential ["18446744073709551615"]) =
            (d, .success (String.ofList (hexChars bytes) ++ "\n" ++ s!"padding: {padding}\n")) := by
  have hwords : List.Forall₂ (fun word i => Writes word.toList i) ["18446744073709551615"]
      [2 ^ 64 - 1] := .cons (.plain 0 18446744073709551615) .nil
  have hints : ∀ i ∈ [(2 ^ 64 - 1 : ℤ)], (i : ℚ) ∈ (FieldFormat.uint 64).numbers :=
    List.forall_mem_singleton.mpr (FieldFormat.intCast_mem_numbers_uint.mpr (by decide))
  obtain ⟨-, hrounded, -, hrun⟩ := strict_pack_complete (f := .uint 64) rfl
  exact ⟨rfl, rfl, hwords, hints, FloatFormat.value_eq_intCast_iff.mpr (by decide +kernel),
    hrounded _ (hints _ (List.mem_singleton_self _)), hrun rfl hwords hints⟩

end Directory

end PackedStream
