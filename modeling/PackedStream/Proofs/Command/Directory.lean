import Mathlib
import PackedStream.Command.Directory

namespace PackedStream

namespace Place

variable {files files' : List Place} {p q : Place} {name : String}

theorem isDirectory_mono (h : files ⊆ files') (hq : isDirectory files q = true) :
    isDirectory files' q = true := by
  simp only [isDirectory, Bool.or_eq_true, List.any_eq_true] at hq ⊢
  obtain hq | ⟨file, hfile, hq⟩ := hq
  · exact .inl hq
  · exact .inr ⟨file, h hfile, hq⟩

theorem isDirectory_cons_self (h : isDirectory files p = false) (hsub : files' ⊆ p :: files) :
    isDirectory files' p = false := by
  rw [← Bool.not_eq_true] at h ⊢
  intro hp
  apply h
  simp only [isDirectory, Bool.or_eq_true, List.any_eq_true, Bool.and_eq_true] at hp ⊢
  obtain hp | ⟨file, hfile, hne, hsuffix⟩ := hp
  · exact .inl hp
  · obtain rfl | hfile := List.mem_cons.mp (hsub hfile)
    · simp at hne
    · exact .inr ⟨file, hfile, hne, hsuffix⟩

theorem enter_mono (h : files ⊆ files') (he : enter files p name = .ok q) :
    enter files' p name = .ok q := by
  unfold enter at he ⊢
  split at he
  case isTrue hdot => rwa [if_pos hdot]
  rw [if_neg ‹_›]
  split at he
  case isTrue hdots => rwa [if_pos hdots]
  rw [if_neg ‹_›]
  cases hnamed : p.named name with
  | error e =>
    rw [hnamed] at he
    cases he
  | ok next =>
    rw [hnamed] at he
    simp only [bind, Except.bind] at he ⊢
    split at he
    case isTrue hdirectory => rwa [if_pos (isDirectory_mono h hdirectory)]
    case isFalse => cases he

theorem foldlM_enter_mono (h : files ⊆ files') {names : List String}
    (he : names.foldlM (enter files) p = .ok q) : names.foldlM (enter files') p = .ok q := by
  induction names generalizing p with
  | nil => exact he
  | cons name names ih =>
    rw [List.foldlM_cons] at he ⊢
    cases hnext : enter files p name with
    | error e =>
      rw [hnext] at he
      cases he
    | ok next =>
      rw [hnext] at he
      rw [enter_mono h hnext]
      exact ih he

theorem ofPath_eq_ok_iff {access : Access} {path : String} :
    ofPath files access path = .ok p ↔
      path ≠ "" ∧ path.utf8ByteSize < 4096 ∧
      (path.splitOn "/").getLastD "" ∉ ["", ".", ".."] ∧
      (∃ place, ((path.splitOn "/").dropLast.filter (· != "")).foldlM (enter files)
          (if path.startsWith "/" then ["/"] else []) = .ok place ∧
        place.named ((path.splitOn "/").getLastD "") = .ok p) ∧
      isDirectory files p = false := by
  unfold ofPath
  simp only [bind, Except.bind, pure, Except.pure, throw, throwThe, MonadExceptOf.throw]
  generalize (path.splitOn "/").getLastD "" = last
  generalize (path.splitOn "/").dropLast.filter (· != "") = names
  generalize (if path.startsWith "/" then ["/"] else []) = start
  by_cases hempty : path = ""
  · simp [hempty]
  by_cases hlong : 4096 ≤ path.utf8ByteSize
  · simp [hempty, hlong]
  rw [if_neg hempty, if_neg hlong]
  by_cases hlast : last = "" ∨ last = "." ∨ last = ".."
  · have hmem : last ∈ ["", ".", ".."] := by simpa using hlast
    generalize (if last = "" ∧ access = .write then names.dropLast else names) = entered
    cases entered.foldlM (enter files) start <;> simp [hlast, hmem]
  · have hmem : last ∉ ["", ".", ".."] := by simpa using hlast
    have hfile : ¬ (last = "" ∧ access = .write) := fun h => hlast (.inl h.1)
    rw [if_neg hfile]
    cases hplace : names.foldlM (enter files) start with
    | error e => simp
    | ok place =>
      simp only [if_neg hlast]
      cases hnamed : place.named last with
      | error e => simp [hnamed]
      | ok target =>
        have hfree : (if isDirectory files target = true then Except.error SystemError.isDirectory
            else .ok target) = .ok p ↔ target = p ∧ isDirectory files p = false := by
          split
          case isTrue h =>
            simp only [reduceCtorEq, false_iff, not_and]
            rintro rfl
            simp [h]
          case isFalse h =>
            simp only [Except.ok.injEq, iff_self_and]
            rintro rfl
            exact Bool.not_eq_true _ ▸ h
        simp [hempty, hmem, not_le.mp hlong, hnamed, hfree]

theorem ofPath_read_of_write {path : String} (h : ofPath files .write path = .ok p)
    (hsub : files ⊆ files') (hsub' : files' ⊆ p :: files) :
    ofPath files' .read path = .ok p := by
  rw [ofPath_eq_ok_iff] at h ⊢
  obtain ⟨hempty, hlong, hlast, ⟨place, hplace, hnamed⟩, hdirectory⟩ := h
  exact ⟨hempty, hlong, hlast, ⟨place, foldlM_enter_mono hsub hplace, hnamed⟩,
    isDirectory_cons_self hdirectory hsub'⟩

end Place

namespace Directory

variable {d d' : Directory} {path : String} {bytes : Array UInt8}

theorem write_eq_ok_iff : d.write path bytes = .ok d' ↔
    ∃ place, d.place .write path = .ok place ∧
      d' = { d with files := (place, bytes) :: d.files.filter (·.1 != place) } := by
  unfold write
  cases hplace : d.place .write path with
  | error e => simp [bind, Except.bind]
  | ok place => simp [bind, Except.bind, pure, Except.pure, eq_comm]

theorem write_eq_error_iff {cause : SystemError} :
    d.write path bytes = .error cause ↔ d.place .write path = .error cause := by
  unfold write
  cases d.place .write path with
  | error e => simp [bind, Except.bind]
  | ok place => simp [bind, Except.bind, pure, Except.pure]

/-- Whether a path leads to the place that has just been written there, as long as it may be written. -/
def LeadsBack (d : Directory) (path : String) : Prop :=
  ∀ place, d.place .write path = .ok place →
    d.locate (place :: (d.files.map (·.1)).filter (· != place)) .read path = .ok place

theorem leadsBack_of_ofPath (hlocate : d.locate = Place.ofPath) (path : String) :
    d.LeadsBack path := by
  intro place hplace
  rw [Directory.place, hlocate] at hplace
  rw [hlocate]
  refine Place.ofPath_read_of_write hplace (fun p hp => ?_)
    (List.cons_subset_cons _ (List.filter_subset_self _))
  by_cases hsame : p = place
  · exact hsame ▸ List.mem_cons_self
  · exact List.mem_cons_of_mem _ (List.mem_filter.mpr ⟨hp, by simpa using hsame⟩)

theorem read_of_write (hback : d.LeadsBack path) (h : d.write path bytes = .ok d') :
    d'.read path = .ok bytes := by
  obtain ⟨place, hplace, rfl⟩ := write_eq_ok_iff.mp h
  have hplaces : ((place, bytes) :: d.files.filter (·.1 != place)).map (·.1) =
      place :: (d.files.map (·.1)).filter (· != place) := by
    rw [List.map_cons, List.filter_map]
    rfl
  unfold read
  rw [Directory.place, hplaces, hback place hplace]
  simp [bind, Except.bind, content?]

end Directory

end PackedStream
