import PackedStream.Proofs.BitBuffer

namespace PackedStream

namespace BitBuffer

def Clean (b : BitBuffer) : Prop := ∀ k, b.bitLength ≤ k → Bytes.bit b.bytes k = false

def Sized (b : BitBuffer) : Prop := b.bytes.size = (b.bitLength + 7) / 8

variable {b other c : BitBuffer}

theorem Sized.bitLength_le (h : b.Sized) : b.bitLength ≤ 8 * b.bytes.size := by
  unfold Sized at h
  omega

theorem sized_zeros (n : ℕ) : (zeros n).Sized := size_zeros n

theorem Sized.write (h : b.Sized) (value : Word) (offset : ℕ) : (b.write value offset).Sized := by
  rwa [Sized, size_write, bitLength_write]

theorem clean_zeros (n : ℕ) : (zeros n).Clean := fun k _ => bit_zeros n k

theorem clean_iff : b.Clean ↔
    ∀ k, (b.bitLength ≤ k → Bytes.bit b.bytes k = false) ∧ Bytes.bit b.bytes k = b.get k := by
  refine ⟨fun h k => ⟨h k, ?_⟩, fun h k => (h k).1⟩
  rw [get]
  by_cases hk : k < b.bitLength
  · rw [decide_eq_true hk, Bool.true_and]
  · rw [h k (Nat.le_of_not_lt hk), decide_eq_false hk, Bool.false_and]

theorem Clean.set (h : b.Clean) (hb : b.Sized) (n : ℕ) : (b.set n).Clean := by
  intro k hk
  rw [bitLength_set] at hk
  rw [bit_set b hb.bitLength_le, h k hk, decide_eq_false (by omega), Bool.or_self]

theorem Clean.write (h : b.Clean) (hb : b.Sized) (value : Word) (offset : ℕ) :
    (b.write value offset).Clean := by
  intro k hk
  rw [bitLength_write] at hk
  rw [bit_write b hb.bitLength_le, h k hk, decide_eq_false (by omega), Bool.false_and, Bool.or_self]

theorem clean_merge_iff (h : b.Clean) (hc : b.merge other = .ok c) :
    c.Clean ↔ ∀ k, b.bitLength ≤ k → Bytes.bit other.bytes k = false := by
  obtain ⟨hsize, rfl⟩ := b.merge_eq_ok_iff.mp hc
  unfold Clean
  apply forall₂_congr
  intro k hk
  rw [Bytes.bit_zipWith_or hsize, h k hk, Bool.false_or]

end BitBuffer

inductive BitCall where
  | zeros (bitLength : ℕ)
  | clone (source : ℕ)
  | set (target n : ℕ)
  | write (target : ℕ) (value : Word) (offset : ℕ)
  | merge (target source : ℕ)

namespace BitCall

def apply (bs : List BitBuffer) : BitCall → List BitBuffer
  | zeros bitLength => bs ++ [.zeros bitLength]
  | clone source => bs ++ bs[source]?.toList
  | set target n => bs.modify target (·.set n)
  | write target value offset => bs.modify target (·.write value offset)
  | merge target source =>
    match bs[target]?, bs[source]? with
    | some b, some other =>
      match b.merge other with
      | .ok c => bs.set target c
      | .error _ => bs
    | _, _ => bs

def run (calls : List BitCall) : List BitBuffer := calls.foldl apply []

/-- A merge that goes through fits if it adds no bit beyond the capacity; other calls never do. -/
def Fits (bs : List BitBuffer) : BitCall → Prop
  | merge target source => ∀ b other c, bs[target]? = some b → bs[source]? = some other →
    b.merge other = .ok c → ∀ k, b.bitLength ≤ k → Bytes.bit other.bytes k = false
  | _ => True

inductive Changes (bs : List BitBuffer) : BitCall → BitBuffer → BitBuffer → Prop
  | keep (call : BitCall) (b : BitBuffer) : Changes bs call b b
  | set (target n : ℕ) (b : BitBuffer) : Changes bs (.set target n) b (b.set n)
  | write (target : ℕ) (value : Word) (offset : ℕ) (b : BitBuffer) :
      Changes bs (.write target value offset) b (b.write value offset)
  | merge {target source : ℕ} {b other c : BitBuffer} (hb : bs[target]? = some b)
      (hother : bs[source]? = some other) (hc : b.merge other = .ok c) :
      Changes bs (.merge target source) b c

variable {bs : List BitBuffer} {b b' : BitBuffer} {calls : List BitCall} {call : BitCall} {r : ℕ}

theorem Changes.bitLength_eq (h : Changes bs call b b') : b'.bitLength = b.bitLength := by
  cases h with
  | keep => rfl
  | set => exact b.bitLength_set _
  | write => exact b.bitLength_write _ _
  | merge _ _ hc =>
    obtain ⟨-, rfl⟩ := b.merge_eq_ok_iff.mp hc
    rfl

theorem Changes.sized (h : Changes bs call b b') (hb : b.Sized) : b'.Sized := by
  rw [BitBuffer.Sized, h.bitLength_eq, ← hb]
  cases h with
  | keep => rfl
  | set => exact b.size_set _
  | write => exact b.size_write _ _
  | merge _ _ hc =>
    obtain ⟨hsize, rfl⟩ := b.merge_eq_ok_iff.mp hc
    rw [Array.size_zipWith, ← hsize, Nat.min_self]

theorem Changes.clean (h : Changes bs call b b') (hb : b.Sized) (hclean : b.Clean)
    (hfits : call.Fits bs) : b'.Clean := by
  cases h with
  | keep => exact hclean
  | set => exact hclean.set hb _
  | write => exact hclean.write hb _ _
  | merge hb hother hc => exact (BitBuffer.clean_merge_iff hclean hc).mpr (hfits _ _ _ hb hother hc)

theorem Changes.bit_of_bit (h : Changes bs call b b') (hb : b.Sized) {k : ℕ}
    (hk : Bytes.bit b.bytes k = true) : Bytes.bit b'.bytes k = true := by
  cases h with
  | keep => exact hk
  | set => rw [b.bit_set hb.bitLength_le, hk, Bool.true_or]
  | write => rw [b.bit_write hb.bitLength_le, hk, Bool.true_or]
  | merge _ _ hc =>
    obtain ⟨hsize, rfl⟩ := b.merge_eq_ok_iff.mp hc
    rw [Bytes.bit_zipWith_or hsize, hk, Bool.true_or]

theorem getElem?_apply (call : BitCall) (h : bs[r]? = some b) :
    ∃ b', (call.apply bs)[r]? = some b' ∧ Changes bs call b b' := by
  have hr : r < bs.length := (List.getElem?_eq_some_iff.mp h).1
  have hmodify (target : ℕ) (g : BitBuffer → BitBuffer) :
      (bs.modify target g)[r]? = some (g b) ∨ (bs.modify target g)[r]? = some b := by
    rw [List.getElem?_modify, h]
    by_cases htarget : target = r
    · exact .inl (by simp [htarget])
    · exact .inr (by simp [htarget])
  cases call with
  | zeros n => exact ⟨b, (List.getElem?_append_left hr).trans h, .keep _ _⟩
  | clone source => exact ⟨b, (List.getElem?_append_left hr).trans h, .keep _ _⟩
  | set target n =>
    obtain hset | hkept := hmodify target (·.set n)
    · exact ⟨b.set n, hset, .set target n b⟩
    · exact ⟨b, hkept, .keep _ _⟩
  | write target value offset =>
    obtain hwritten | hkept := hmodify target (·.write value offset)
    · exact ⟨b.write value offset, hwritten, .write target value offset b⟩
    · exact ⟨b, hkept, .keep _ _⟩
  | merge target source =>
    rw [apply]
    split
    case h_1 a other ha hother =>
      split
      case h_1 c hc =>
        by_cases htarget : target = r
        · subst htarget
          obtain rfl := Option.some_inj.mp (h.symm.trans ha)
          exact ⟨c, List.getElem?_set_self hr, .merge ha hother hc⟩
        · exact ⟨b, (List.getElem?_set_ne htarget).trans h, .keep _ _⟩
      case h_2 => exact ⟨b, h, .keep _ _⟩
    case h_2 => exact ⟨b, h, .keep _ _⟩

theorem mem_apply (h : b' ∈ call.apply bs) :
    (∃ n, b' = .zeros n) ∨ ∃ b ∈ bs, Changes bs call b b' := by
  have hsame (hlength : (call.apply bs).length = bs.length) : ∃ b ∈ bs, Changes bs call b b' := by
    obtain ⟨r, hr⟩ := List.getElem?_of_mem h
    have hlt : r < bs.length := hlength ▸ (List.getElem?_eq_some_iff.mp hr).1
    obtain ⟨c, hc, hchanges⟩ := getElem?_apply call (List.getElem?_eq_getElem hlt)
    obtain rfl := Option.some_inj.mp (hr.symm.trans hc)
    exact ⟨_, List.getElem_mem hlt, hchanges⟩
  cases call with
  | zeros n =>
    obtain hold | hnew := List.mem_append.mp h
    · exact .inr ⟨b', hold, .keep _ _⟩
    · exact .inl ⟨n, List.mem_singleton.mp hnew⟩
  | clone source =>
    obtain hold | hnew := List.mem_append.mp h
    · exact .inr ⟨b', hold, .keep _ _⟩
    · exact .inr ⟨b', List.mem_of_getElem? (Option.mem_toList.mp hnew), .keep _ _⟩
  | set target n => exact .inr (hsame (List.length_modify _ _ _))
  | write target value offset => exact .inr (hsame (List.length_modify _ _ _))
  | merge target source =>
    refine .inr (hsame ?_)
    rw [apply]
    split
    · split
      · exact List.length_set
      · rfl
    · rfl

theorem sized_apply (hbs : ∀ b ∈ bs, b.Sized) : ∀ b ∈ call.apply bs, b.Sized := by
  intro b hb
  obtain ⟨n, rfl⟩ | ⟨a, ha, hchanges⟩ := mem_apply hb
  · exact BitBuffer.sized_zeros n
  · exact hchanges.sized (hbs a ha)

theorem clean_apply_iff (hsized : ∀ b ∈ bs, b.Sized) (hclean : ∀ b ∈ bs, b.Clean) :
    (∀ b ∈ call.apply bs, b.Clean) ↔ call.Fits bs := by
  constructor
  · intro h
    cases call with
    | zeros | clone | set | write => exact trivial
    | merge target source =>
      intro b other c hb hother hc
      have htarget : target < bs.length := (List.getElem?_eq_some_iff.mp hb).1
      have hmem : c ∈ apply bs (.merge target source) := by
        simp only [apply, hb, hother, hc]
        exact List.mem_set htarget c
      exact (BitBuffer.clean_merge_iff (hclean b (List.mem_of_getElem? hb)) hc).mp (h c hmem)
  · intro hfits b hb
    obtain ⟨n, rfl⟩ | ⟨a, ha, hchanges⟩ := mem_apply hb
    · exact BitBuffer.clean_zeros n
    · exact hchanges.clean (hsized a ha) (hclean a ha) hfits

theorem run_concat (calls : List BitCall) (call : BitCall) :
    run (calls ++ [call]) = call.apply (run calls) := by
  rw [run, run, List.foldl_append]
  rfl

theorem sized_run (calls : List BitCall) : ∀ b ∈ run calls, b.Sized := by
  induction calls using List.reverseRecOn with
  | nil => exact List.forall_mem_nil _
  | append_singleton calls call ih =>
    rw [run_concat]
    exact sized_apply ih

theorem run_append_keeps (more : List BitCall) (h : (run calls)[r]? = some b) :
    ∃ b', (run (calls ++ more))[r]? = some b' ∧ b'.bitLength = b.bitLength ∧
      ∀ k, Bytes.bit b.bytes k = true → Bytes.bit b'.bytes k = true := by
  induction more using List.reverseRecOn with
  | nil => exact ⟨b, by rwa [List.append_nil], rfl, fun _ hk => hk⟩
  | append_singleton more call ih =>
    obtain ⟨c, hc, hlength, hkept⟩ := ih
    obtain ⟨b', hb', hchanges⟩ := getElem?_apply call hc
    have hsized : c.Sized := sized_run (calls ++ more) c (List.mem_of_getElem? hc)
    rw [← List.append_assoc, run_concat]
    exact ⟨b', hb', hchanges.bitLength_eq.trans hlength,
      fun k hk => hchanges.bit_of_bit hsized (hkept k hk)⟩

theorem getElem?_run_append (more : List BitCall) (h : (run calls)[r]? = some b) :
    ∃ b', (run (calls ++ more))[r]? = some b' ∧ b'.bitLength = b.bitLength := by
  obtain ⟨b', hb', hlength, -⟩ := run_append_keeps more h
  exact ⟨b', hb', hlength⟩

theorem clean_prefixes_iff (calls : List BitCall) :
    (∀ earlier, earlier <+: calls → ∀ b ∈ run earlier, b.Clean) ↔
      ∀ earlier call, earlier ++ [call] <+: calls → call.Fits (run earlier) := by
  induction calls using List.reverseRecOn with
  | nil =>
    constructor
    · intro _ earlier call h
      simp at h
    · intro _ earlier h
      obtain rfl := List.prefix_nil.mp h
      exact List.forall_mem_nil _
  | append_singleton calls call ih =>
    have hclean : (∀ earlier, earlier <+: calls ++ [call] → ∀ b ∈ run earlier, b.Clean) ↔
        (∀ b ∈ call.apply (run calls), b.Clean) ∧
          ∀ earlier, earlier <+: calls → ∀ b ∈ run earlier, b.Clean := by
      simp only [List.prefix_concat_iff, or_imp, forall_and, forall_eq, run_concat]
    have hfits : (∀ earlier last, earlier ++ [last] <+: calls ++ [call] → last.Fits (run earlier)) ↔
        call.Fits (run calls) ∧
          ∀ earlier last, earlier ++ [last] <+: calls → last.Fits (run earlier) := by
      simp only [List.prefix_concat_iff, or_imp, forall_and]
      refine and_congr_left' ⟨fun h => h calls call rfl, fun h earlier last heq => ?_⟩
      obtain ⟨rfl, hlast⟩ := List.append_inj' heq rfl
      cases hlast
      exact h
    rw [hclean, hfits, ih]
    refine and_congr_left fun h => clean_apply_iff (sized_run calls) ?_
    exact ih.mpr h calls List.prefix_rfl

theorem fits_of_bitLength_le (hclean : ∀ b ∈ bs, b.Clean) {target source : ℕ}
    (h : ∀ b other c, bs[target]? = some b → bs[source]? = some other → b.merge other = .ok c →
      other.bitLength ≤ b.bitLength) : (merge target source).Fits bs := by
  intro b other c hb hother hc k hk
  exact hclean other (List.mem_of_getElem? hother) k ((h b other c hb hother hc).trans hk)

theorem clean_run_of_bitLength_le (calls : List BitCall)
    (h : ∀ earlier target source, earlier ++ [merge target source] <+: calls →
      ∀ b other c, (run earlier)[target]? = some b → (run earlier)[source]? = some other →
        b.merge other = .ok c → other.bitLength ≤ b.bitLength) :
    ∀ b ∈ run calls, b.Clean := by
  induction calls using List.reverseRecOn with
  | nil => exact List.forall_mem_nil _
  | append_singleton calls call ih =>
    have hclean := ih fun earlier target source hearlier =>
      h earlier target source (hearlier.trans (List.prefix_append calls [call]))
    rw [run_concat, clean_apply_iff (sized_run calls) hclean]
    cases call with
    | zeros | clone | set | write => exact trivial
    | merge target source =>
      exact fits_of_bitLength_le hclean (h calls target source List.prefix_rfl)

/--
Whatever is done to any number of buffers, each keeps its capacity and has the bytes for it. The
bits beyond the capacity stay 0 exactly as long as no merge brings one from a buffer of a larger
capacity that takes as many bytes.
-/
theorem clean_run_iff (calls : List BitCall) :
    (∀ b ∈ run calls, b.bytes.size = (b.bitLength + 7) / 8) ∧
    (∀ (more : List BitCall) (r : ℕ) (b : BitBuffer), (run calls)[r]? = some b →
      ∃ b' : BitBuffer, (run (calls ++ more))[r]? = some b' ∧ b'.bitLength = b.bitLength) ∧
    ((∀ earlier, earlier <+: calls → ∀ b ∈ run earlier, ∀ k,
        (b.bitLength ≤ k → Bytes.bit b.bytes k = false) ∧ Bytes.bit b.bytes k = b.get k) ↔
      ∀ earlier call, earlier ++ [call] <+: calls → call.Fits (run earlier)) ∧
    ((∀ earlier target source, earlier ++ [merge target source] <+: calls →
        ∀ b other c, (run earlier)[target]? = some b → (run earlier)[source]? = some other →
          b.merge other = .ok c → other.bitLength ≤ b.bitLength) →
      ∀ b ∈ run calls, ∀ k,
        (b.bitLength ≤ k → Bytes.bit b.bytes k = false) ∧ Bytes.bit b.bytes k = b.get k) := by
  refine ⟨sized_run calls, fun more r b => getElem?_run_append more, ?_, ?_⟩
  · simp only [← BitBuffer.clean_iff]
    exact clean_prefixes_iff calls
  · intro h b hb
    exact BitBuffer.clean_iff.mp (clean_run_of_bitLength_le calls h b hb)

theorem merge_beyond_capacity :
    ∃ b, (run [.zeros 9, .zeros 16, .set 1 15, .merge 0 1])[0]? = some b ∧ b.bitLength = 9 ∧
      Bytes.bit b.bytes 15 = true ∧ b.get 15 = false :=
  ⟨⟨#[0, 128], 9⟩, by cbv, rfl, rfl, rfl⟩

end BitCall

end PackedStream
