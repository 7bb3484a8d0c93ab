import PackedStream.Command.Arguments
import PackedStream.Command.Session
import PackedStream.Proofs.Command.Directory

namespace PackedStream

open Text

section Results

variable {α β ε ε' : Type}

theorem bind_eq_ok_iff {x : Except ε α} {g : α → Except ε β} {b : β} :
    x >>= g = .ok b ↔ ∃ a, x = .ok a ∧ g a = .ok b := by
  cases x with
  | error e => simp [bind, Except.bind]
  | ok a => simp [bind, Except.bind]

theorem bind_eq_error_iff {x : Except ε α} {g : α → Except ε β} {e : ε} :
    x >>= g = .error e ↔ x = .error e ∨ ∃ a, x = .ok a ∧ g a = .error e := by
  cases x with
  | error e => simp [bind, Except.bind]
  | ok a => simp [bind, Except.bind]

theorem mapError_eq_ok_iff {x : Except ε α} {g : ε → ε'} {a : α} :
    x.mapError g = .ok a ↔ x = .ok a := by
  cases x <;> simp [Except.mapError]

theorem mapError_eq_error_iff {x : Except ε α} {g : ε → ε'} {e : ε'} :
    x.mapError g = .error e ↔ ∃ cause, x = .error cause ∧ g cause = e := by
  cases x <;> simp [Except.mapError]

theorem lookup_filter_ne [BEq α] [LawfulBEq α] {k key : α} (h : k ≠ key) (l : List (α × β)) :
    (l.filter (·.1 != key)).lookup k = l.lookup k := by
  induction l with
  | nil => rfl
  | cons entry l ih =>
    by_cases hentry : entry.1 = key
    · rw [List.filter_cons_of_neg (by simpa using hentry), ih, List.lookup_cons, hentry,
        beq_false_of_ne h]
    · rw [List.filter_cons_of_pos (by simpa using hentry), List.lookup_cons, List.lookup_cons, ih]

end Results

def Session.perform (s : Session) : Except CommandError Action → Except CommandError Unit × Session
  | .error e => (.error e, s)
  | .ok (.print text) => (.ok (), { s with shown := s.shown ++ text })
  | .ok (.save path bytes text) =>
    match s.directory.write path bytes with
    | .error cause => (.error (.writeFailed path cause), s)
    | .ok directory => (.ok (), ⟨directory, s.shown ++ text⟩)

namespace Session

variable {s : Session} {result : Except CommandError Action}

theorem perform_eq_self {e : CommandError} (h : (s.perform result).1 = .error e) :
    (s.perform result).2 = s := by
  cases result with
  | error e => rfl
  | ok action =>
    cases action with
    | print text => cases h
    | save path bytes text =>
      rw [perform] at h ⊢
      split at h
      case h_1 => rfl
      case h_2 => cases h

theorem directory_perform
    (h : ∀ path bytes text, result ≠ .ok (.save path bytes text)) :
    (s.perform result).2.directory = s.directory := by
  cases result with
  | error e => rfl
  | ok action =>
    cases action with
    | print text => rfl
    | save path bytes text => exact absurd rfl (h path bytes text)

end Session

namespace Act

variable {s : Session}

theorem run_save_bind (path : String) (bytes : Array UInt8) (next : Unit → Act Unit) :
    (save path bytes >>= next).run.run s =
      match s.directory.write path bytes with
      | .error cause => (.error (.writeFailed path cause), s)
      | .ok directory => (next ()).run.run { s with directory } := by
  change ((do match s.directory.write path bytes with
    | .error cause => throw (.writeFailed path cause)
    | .ok directory => modify fun s => { s with directory } : Act Unit) >>= next).run.run s = _
  cases s.directory.write path bytes <;> rfl

theorem run_bind_eq_perform {α : Type} {result : Except CommandError α} {next : α → Act Unit}
    {rest : α → Except CommandError Action}
    (h : ∀ a, (next a).run.run s = s.perform (rest a)) :
    (ofExcept result >>= next).run.run s = s.perform (result >>= rest) := by
  cases result with
  | error e => rfl
  | ok a => exact h a

end Act

namespace Command

variable {f : FieldFormat} {output : Option String} {strict sequential : Bool} {words : List String}
  {vs : HostValues} {bytes : Array UInt8} {padding : ℕ} {e : CommandError} {s : Session}

section Effects

theorem packAction_eq : packAction f output strict sequential words = (do
    let vs ← readValues words
    refuse f strict vs
    let bytes ← fromStream (f.pack vs.values (if sequential then .sequential else {}))
    let padding := s!"padding: {(f.packedLength vs.values.length).2}\n"
    return match output with
      | some path => .save path bytes padding
      | none => .print (String.ofList (hexChars bytes) ++ "\n" ++ padding)) := by
  rw [packAction]
  congr
  funext vs
  cases strict with
  | false => cases output <;> rfl
  | true =>
    rw [refuse]
    cases firstRefused? f vs with
    | none => cases output <;> rfl
    | some x => rfl

theorem run_deliver : (deliver output bytes padding).run.run s =
    s.perform (.ok (match output with
      | some path => .save path bytes s!"padding: {padding}\n"
      | none => .print (String.ofList (hexChars bytes) ++ "\n" ++ s!"padding: {padding}\n"))) := by
  cases output with
  | none =>
    change (Except.ok (), Session.mk s.directory _) = (Except.ok (), Session.mk s.directory _)
    simp only [String.append_assoc]
    rfl
  | some path =>
    change (Act.save path bytes >>= fun _ => Act.showLine _).run.run s = _
    rw [Act.run_save_bind, Session.perform]
    split
    case h_1 => rfl
    case h_2 directory _ =>
      change (Except.ok (), Session.mk directory _) = (Except.ok (), Session.mk directory _)
      simp only [String.append_assoc]
      rfl

theorem run_actPack : (actPack f output strict sequential words).run.run s =
    s.perform (packAction f output strict sequential words) := by
  rw [actPack, packAction_eq]
  exact Act.run_bind_eq_perform fun vs => Act.run_bind_eq_perform fun _ =>
    Act.run_bind_eq_perform fun bytes => run_deliver

theorem run_actUnpack (source : Source) : (actUnpack f padding source).run.run s =
    s.perform (action s.directory.read (.unpack f padding source)) := by
  have hend (bytes : Array UInt8) :
      (do Act.showLine (← Act.ofExcept (fromStream (f.unpackHost bytes padding))).text :
        Act Unit).run.run s = s.perform (unpackAction f padding bytes) := by
    refine Act.run_bind_eq_perform fun values => ?_
    change (Except.ok (), Session.mk s.directory _) = (Except.ok (), Session.mk s.directory _)
    rw [String.append_assoc]
  cases source with
  | file path => exact Act.run_bind_eq_perform hend
  | hex text => exact Act.run_bind_eq_perform hend

theorem run_actInfo : (actInfo f).run.run s = s.perform (infoAction f) := by
  refine Act.run_bind_eq_perform fun _ => ?_
  cases hfixed : f.isFixed
  all_goals
    change (Except.ok (), Session.mk s.directory _) = (Except.ok (), Session.mk s.directory _)
    simp [← String.toList_inj, toString]

theorem run_act (command : Command) :
    command.act.run.run s = s.perform (command.action s.directory.read) := by
  cases command with
  | pack f output strict sequential words => exact run_actPack
  | unpack f padding source => exact run_actUnpack source
  | info f => exact run_actInfo

end Effects

section Stages

def packed (f : FieldFormat) (strict sequential : Bool) (words : List String) :
    Except CommandError (Array UInt8 × ℕ) := do
  let vs ← readValues words
  refuse f strict vs
  let bytes ← fromStream (f.pack vs.values (if sequential then .sequential else {}))
  return (bytes, (f.packedLength vs.values.length).2)

theorem packAction_eq_bind : packAction f output strict sequential words = (do
    let (bytes, padding) ← packed f strict sequential words
    return match output with
      | some path => .save path bytes s!"padding: {padding}\n"
      | none => .print (String.ofList (hexChars bytes) ++ "\n" ++ s!"padding: {padding}\n")) := by
  rw [packAction_eq, packed]
  simp only [bind_assoc, pure_bind]

theorem refuse_eq_ok_iff {u : Unit} :
    refuse f strict vs = .ok u ↔ (strict = true → firstRefused? f vs = none) := by
  cases strict with
  | false => exact ⟨nofun, fun _ => rfl⟩
  | true =>
    rw [refuse]
    cases firstRefused? f vs with
    | none => exact ⟨fun _ _ => rfl, fun _ => rfl⟩
    | some x => exact ⟨nofun, fun h => nomatch h rfl⟩

theorem refuse_eq_error_iff : refuse f strict vs = .error e ↔
    strict = true ∧ ∃ x, firstRefused? f vs = some x ∧ .notRepresentable x f = e := by
  cases strict with
  | false => exact ⟨nofun, nofun⟩
  | true =>
    rw [refuse]
    cases firstRefused? f vs with
    | none => exact ⟨nofun, nofun⟩
    | some x =>
      constructor
      · intro h
        exact ⟨rfl, x, rfl, Except.error.inj h⟩
      · rintro ⟨-, _, ⟨⟩, rfl⟩
        rfl

theorem packed_eq_ok_iff : packed f strict sequential words = .ok (bytes, padding) ↔
    ∃ vs, readValues words = .ok vs ∧ (strict = true → firstRefused? f vs = none) ∧
      f.pack vs.values (if sequential then .sequential else {}) = .ok bytes ∧
      (f.packedLength vs.values.length).2 = padding := by
  simp only [packed, fromStream, bind_eq_ok_iff, mapError_eq_ok_iff, refuse_eq_ok_iff, pure,
    Except.pure, Except.ok.injEq, Prod.mk.injEq, exists_const]
  constructor
  · rintro ⟨vs, hread, hpasses, _, hpack, rfl, hpadding⟩
    exact ⟨vs, hread, hpasses, hpack, hpadding⟩
  · rintro ⟨vs, hread, hpasses, hpack, hpadding⟩
    exact ⟨vs, hread, hpasses, bytes, hpack, rfl, hpadding⟩

theorem packed_eq_error_iff : packed f strict sequential words = .error e ↔
    readValues words = .error e ∨
    ∃ vs, readValues words = .ok vs ∧
      ((strict = true ∧ ∃ x, firstRefused? f vs = some x ∧ .notRepresentable x f = e) ∨
        (strict = true → firstRefused? f vs = none) ∧
          ∃ cause, f.pack vs.values (if sequential then .sequential else {}) = .error cause ∧
            .stream cause = e) := by
  simp only [packed, fromStream, bind_eq_error_iff, mapError_eq_error_iff, refuse_eq_ok_iff,
    refuse_eq_error_iff, pure, Except.pure, reduceCtorEq, and_false, exists_false, or_false,
    exists_const]

theorem unpackAction_eq_error_iff : unpackAction f padding bytes = .error e ↔
    ∃ cause, f.unpackHost bytes padding = .error cause ∧ .stream cause = e := by
  simp only [unpackAction, fromStream, bind_eq_error_iff, mapError_eq_error_iff, pure, Except.pure,
    reduceCtorEq, and_false, exists_false, or_false]

theorem action_eq_save {read : String → Except SystemError (Array UInt8)} {command : Command}
    {path text : String} (h : command.action read = .ok (.save path bytes text)) :
    ∃ f strict sequential words padding, command = .pack f (some path) strict sequential words ∧
      packed f strict sequential words = .ok (bytes, padding) := by
  cases command with
  | pack f output strict sequential words =>
    rw [action, packAction_eq_bind] at h
    obtain ⟨⟨bytes, padding⟩, hpacked, h⟩ := bind_eq_ok_iff.mp h
    cases output with
    | none => cases h
    | some path =>
      cases h
      exact ⟨f, strict, sequential, words, padding, rfl, hpacked⟩
  | unpack f padding source =>
    cases source with
    | file path | hex text =>
      obtain ⟨bytes, -, h⟩ := bind_eq_ok_iff.mp h
      obtain ⟨values, -, h⟩ := bind_eq_ok_iff.mp h
      cases h
  | info f =>
    obtain ⟨_, -, h⟩ := bind_eq_ok_iff.mp h
    cases h

theorem run_act_of_packed_error (h : packed f strict sequential words = .error e) :
    (pack f output strict sequential words).act.run.run s = (.error e, s) := by
  rw [run_act, action, packAction_eq_bind, h]
  rfl

theorem run_act_save {path : String}
    (h : packed f strict sequential words = .ok (bytes, padding)) :
    (pack f (some path) strict sequential words).act.run.run s =
      s.perform (.ok (.save path bytes s!"padding: {padding}\n")) := by
  rw [run_act, action, packAction_eq_bind, h]
  rfl

end Stages

end Command

namespace Directory

variable {d d' : Directory} {command : Command} {path : String} {bytes : Array UInt8} {place : Place}

theorem content?_of_write (h : d.write path bytes = .ok d') : ∃ place,
    d.place .write path = .ok place ∧
      ∀ p, d'.content? p = ([(place, bytes)].lookup p).or (d.content? p) := by
  obtain ⟨place, hplace, rfl⟩ := write_eq_ok_iff.mp h
  refine ⟨place, hplace, fun p => ?_⟩
  change ((place, bytes) :: d.files.filter (·.1 != place)).lookup p = _
  rw [List.lookup_cons, List.lookup_cons]
  by_cases hp : p = place
  · rw [hp, beq_self_eq_true]
    rfl
  · rw [beq_false_of_ne hp]
    exact lookup_filter_ne hp d.files

inductive Fails (d : Directory) : Command → CommandError → Prop
  | unreadable {f : FieldFormat} {output : Option String} {strict sequential : Bool}
      {words : List String} {e : CommandError} (hread : readValues words = .error e) :
      Fails d (.pack f output strict sequential words) e
  | refused {f : FieldFormat} {output : Option String} {sequential : Bool} {words : List String}
      {vs : HostValues} {x : Word} (hread : readValues words = .ok vs)
      (hrefused : firstRefused? f vs = some x) :
      Fails d (.pack f output true sequential words) (.notRepresentable x f)
  | unpackable {f : FieldFormat} {output : Option String} {strict sequential : Bool}
      {words : List String} {vs : HostValues} {cause : StreamError}
      (hread : readValues words = .ok vs) (hpasses : strict = true → firstRefused? f vs = none)
      (hpack : f.pack vs.values (if sequential then .sequential else {}) = .error cause) :
      Fails d (.pack f output strict sequential words) (.stream cause)
  | unwritten {f : FieldFormat} {path : String} {strict sequential : Bool} {words : List String}
      {vs : HostValues} {bytes : Array UInt8} {cause : SystemError}
      (hread : readValues words = .ok vs) (hpasses : strict = true → firstRefused? f vs = none)
      (hpack : f.pack vs.values (if sequential then .sequential else {}) = .ok bytes)
      (hwrite : d.write path bytes = .error cause) :
      Fails d (.pack f (some path) strict sequential words) (.writeFailed path cause)
  | missing {f : FieldFormat} {padding : ℕ} {path : String} {cause : SystemError}
      (hread : d.read path = .error cause) :
      Fails d (.unpack f padding (.file path)) (.readFailed path cause)
  | malformed {f : FieldFormat} {padding : ℕ} {text : String} {e : CommandError}
      (hhex : Command.hexBytes text = .error e) : Fails d (.unpack f padding (.hex text)) e
  | fileRefused {f : FieldFormat} {padding : ℕ} {path : String} {bytes : Array UInt8}
      {cause : StreamError} (hread : d.read path = .ok bytes)
      (hunpack : f.unpackHost bytes padding = .error cause) :
      Fails d (.unpack f padding (.file path)) (.stream cause)
  | hexRefused {f : FieldFormat} {padding : ℕ} {text : String} {bytes : Array UInt8}
      {cause : StreamError} (hhex : Command.hexBytes text = .ok bytes)
      (hunpack : f.unpackHost bytes padding = .error cause) :
      Fails d (.unpack f padding (.hex text)) (.stream cause)
  | invalid {f : FieldFormat} {cause : StreamError} (hvalid : f.validate = .error cause) :
      Fails d (.info f) (.stream cause)

theorem fails_of_action (h : command.action d.read = .error e) : d.Fails command e := by
  cases command with
  | pack f output strict sequential words =>
    rw [Command.action, Command.packAction_eq_bind] at h
    obtain hpacked | ⟨_, -, h⟩ := bind_eq_error_iff.mp h
    · obtain hread | ⟨vs, hread, ⟨rfl, x, hx, rfl⟩ | ⟨hpasses, cause, hpack, rfl⟩⟩ :=
        Command.packed_eq_error_iff.mp hpacked
      · exact .unreadable hread
      · exact .refused hread hx
      · exact .unpackable hread hpasses hpack
    · cases h
  | unpack f padding source =>
    cases source with
    | file path =>
      obtain hread | ⟨bytes, hread, h⟩ := bind_eq_error_iff.mp h
      · obtain ⟨cause, hmissing, rfl⟩ := mapError_eq_error_iff.mp hread
        exact .missing hmissing
      · obtain ⟨cause, hunpack, rfl⟩ := Command.unpackAction_eq_error_iff.mp h
        exact .fileRefused (mapError_eq_ok_iff.mp hread) hunpack
    | hex text =>
      obtain hhex | ⟨bytes, hhex, h⟩ := bind_eq_error_iff.mp h
      · exact .malformed hhex
      · obtain ⟨cause, hunpack, rfl⟩ := Command.unpackAction_eq_error_iff.mp h
        exact .hexRefused hhex hunpack
  | info f =>
    obtain hvalid | ⟨_, -, h⟩ := bind_eq_error_iff.mp h
    · obtain ⟨cause, hinvalid, rfl⟩ := mapError_eq_error_iff.mp hvalid
      exact .invalid hinvalid
    · cases h

theorem run_act_of_fails {e : CommandError} (h : d.Fails command e) (shown : String) :
    command.act.run.run ⟨d, shown⟩ = (.error e, ⟨d, shown⟩) := by
  cases h with
  | unreadable hread =>
    exact Command.run_act_of_packed_error (Command.packed_eq_error_iff.mpr (.inl hread))
  | refused hread hrefused =>
    exact Command.run_act_of_packed_error (Command.packed_eq_error_iff.mpr
      (.inr ⟨_, hread, .inl ⟨rfl, _, hrefused, rfl⟩⟩))
  | unpackable hread hpasses hcause =>
    exact Command.run_act_of_packed_error (Command.packed_eq_error_iff.mpr
      (.inr ⟨_, hread, .inr ⟨hpasses, _, hcause, rfl⟩⟩))
  | unwritten hread hpasses hbytes hwrite =>
    rw [Command.run_act_save (Command.packed_eq_ok_iff.mpr ⟨_, hread, hpasses, hbytes, rfl⟩),
      Session.perform, hwrite]
  | missing hread =>
    rw [Command.run_act, Command.action, hread]
    rfl
  | malformed hhex =>
    rw [Command.run_act, Command.action, hhex]
    rfl
  | fileRefused hread hunpack =>
    rw [Command.run_act, Command.action, hread]
    change Session.perform ⟨d, shown⟩ (Command.unpackAction _ _ _) = _
    rw [Command.unpackAction_eq_error_iff.mpr ⟨_, hunpack, rfl⟩]
    rfl
  | hexRefused hhex hunpack =>
    rw [Command.run_act, Command.action, hhex]
    change Session.perform ⟨d, shown⟩ (Command.unpackAction _ _ _) = _
    rw [Command.unpackAction_eq_error_iff.mpr ⟨_, hunpack, rfl⟩]
    rfl
  | invalid hvalid =>
    rw [Command.run_act, Command.action, Command.infoAction, hvalid]
    rfl

theorem run_act_eq_error_iff {e : CommandError} {shown : String} :
    (command.act.run.run ⟨d, shown⟩).1 = .error e ↔ d.Fails command e := by
  constructor
  · intro h
    rw [Command.run_act] at h
    cases haction : command.action d.read with
    | error cause =>
      rw [haction] at h
      cases h
      exact fails_of_action haction
    | ok action =>
      rw [haction] at h
      cases action with
      | print text => cases h
      | save path bytes text =>
        obtain ⟨f, strict, sequential, words, padding, rfl, hpacked⟩ :=
          Command.action_eq_save haction
        obtain ⟨vs, hread, hpasses, hpack, -⟩ := Command.packed_eq_ok_iff.mp hpacked
        rw [Session.perform] at h
        split at h
        case h_1 hwrite =>
          cases h
          exact .unwritten hread hpasses hpack hwrite
        case h_2 => cases h
  · intro h
    rw [run_act_of_fails h]

theorem run_eq (command : Command) : d.run command =
    ((command.act.run.run ⟨d, ""⟩).2.directory,
      (command.act.run.run ⟨d, ""⟩).2.outcome (command.act.run.run ⟨d, ""⟩).1) := by
  rw [Command.run_act, run]
  cases command.action d.read with
  | error e => rfl
  | ok action =>
    cases action with
    | print text => simp only [Session.perform, Session.outcome, Outcome.success, String.empty_append]
    | save path bytes text =>
      simp only [Session.perform]
      cases d.write path bytes with
      | error cause => rfl
      | ok directory => simp only [Session.outcome, Outcome.success, String.empty_append]

/--
What a run may leave behind: nothing if it fails, and otherwise no more than the file that packing
has been told to save.
-/
structure Contained (d : Directory) (command : Command) (result : Except CommandError Unit)
    (s : Session) : Prop where
  failed : ∀ e, result = .error e → s.shown = "" ∧ s.directory = d
  kept : (∀ f path strict sequential words, command ≠ .pack f (some path) strict sequential words) →
    s.directory = d
  saved : ∀ f path strict sequential words, command = .pack f (some path) strict sequential words →
    result = .ok () → ∃ place vs bytes, d.place .write path = .ok place ∧
      readValues words = .ok vs ∧
      f.pack vs.values (if sequential then .sequential else {}) = .ok bytes ∧
      s.directory.content? place = some bytes ∧
      ∀ other, other ≠ place → s.directory.content? other = d.content? other

theorem contained_run_act (command : Command) :
    Contained d command (command.act.run.run ⟨d, ""⟩).1 (command.act.run.run ⟨d, ""⟩).2 where
  failed e h := by
    rw [Command.run_act] at h ⊢
    rw [Session.perform_eq_self h]
    exact ⟨rfl, rfl⟩
  kept h := by
    rw [Command.run_act]
    apply Session.directory_perform
    intro path bytes text haction
    obtain ⟨f, strict, sequential, words, -, hcommand, -⟩ := Command.action_eq_save haction
    exact h f path strict sequential words hcommand
  saved := by
    rintro f path strict sequential words rfl hok
    cases hpacked : Command.packed f strict sequential words with
    | error e =>
      rw [Command.run_act_of_packed_error hpacked] at hok
      cases hok
    | ok result =>
      obtain ⟨bytes, padding⟩ := result
      obtain ⟨vs, hread, -, hpack, -⟩ := Command.packed_eq_ok_iff.mp hpacked
      rw [Command.run_act_save hpacked, Session.perform] at hok ⊢
      split at hok
      case h_1 => cases hok
      case h_2 directory hwrite =>
        obtain ⟨place, hplace, hcontent⟩ := content?_of_write hwrite
        refine ⟨place, vs, bytes, hplace, hread, hpack, ?_, fun other hother => ?_⟩
        · rw [hcontent, List.lookup_cons_self]
          rfl
        · rw [hcontent, List.lookup_cons, beq_false_of_ne hother]
          rfl

section Sequences

variable (parse : List String → Option Command)

def saved? (d : Directory) : Command → Option (Place × Array UInt8)
  | .pack f (some path) strict sequential words => do
    let (bytes, _) ← (Command.packed f strict sequential words).toOption
    return (← (d.place .write path).toOption, bytes)
  | _ => none

def saves : Directory → List Invocation → List (Place × Array UInt8)
  | _, [] => []
  | d, i :: rest =>
    saves ((d.during i).runWords parse i.words).1 rest ++
      ((parse i.words).bind (d.during i).saved?).toList

theorem content?_run (command : Command) (p : Place) :
    (d.run command).1.content? p = ((d.saved? command).toList.lookup p).or (d.content? p) := by
  rw [run_eq]
  by_cases hsaves : ∃ f path strict sequential words,
      command = .pack f (some path) strict sequential words
  · obtain ⟨f, path, strict, sequential, words, rfl⟩ := hsaves
    rw [saved?]
    cases hpacked : Command.packed f strict sequential words with
    | error e =>
      rw [Command.run_act_of_packed_error hpacked]
      rfl
    | ok result =>
      obtain ⟨bytes, padding⟩ := result
      rw [Command.run_act_save hpacked, Session.perform]
      cases hwrite : d.write path bytes with
      | error cause =>
        rw [write_eq_error_iff.mp hwrite]
        rfl
      | ok directory =>
        obtain ⟨place, hplace, hcontent⟩ := content?_of_write hwrite
        rw [hplace]
        exact hcontent p
  · have hkept : (command.act.run.run ⟨d, ""⟩).2.directory = d :=
      (contained_run_act command).kept fun f path strict sequential words h =>
        hsaves ⟨f, path, strict, sequential, words, h⟩
    have hnone : d.saved? command = none := by
      rw [saved?]
      rintro f path strict sequential words rfl
      exact hsaves ⟨f, path, strict, sequential, words, rfl⟩
    rw [hkept, hnone]
    rfl

theorem content?_runWords (words : List String) (p : Place) :
    (d.runWords parse words).1.content? p =
      (((parse words).bind d.saved?).toList.lookup p).or (d.content? p) := by
  rw [runWords]
  cases parse words with
  | none => rfl
  | some command => exact content?_run command p

theorem content?_runEach (d : Directory) (invocations : List Invocation) (p : Place) :
    (d.runEach parse invocations).1.content? p =
      ((d.saves parse invocations).lookup p).or (d.content? p) := by
  induction invocations generalizing d with
  | nil => rfl
  | cons i rest ih =>
    rw [runEach, saves, List.lookup_append, Option.or_assoc]
    exact (ih _).trans (congrArg _ (content?_runWords (d := d.during i) parse i.words p))

theorem locate_runWords (words : List String) :
    (d.runWords parse words).1.locate = d.locate := by
  rw [runWords]
  cases parse words with
  | none => rfl
  | some command =>
    simp only [run]
    split
    case h_1 | h_2 => rfl
    case h_3 path bytes _ _ =>
      cases hwrite : d.write path bytes with
      | error cause => rfl
      | ok d' =>
        obtain ⟨place, -, rfl⟩ := write_eq_ok_iff.mp hwrite
        rfl

theorem runAll_eq_runEach (d : Directory) (runs : List (List String)) :
    d.runAll parse runs = d.runEach parse (runs.map fun words => ⟨d.locate, words⟩) := by
  induction runs generalizing d with
  | nil => rfl
  | cons words runs ih =>
    rw [runAll, List.map_cons, runEach]
    simp only [ih, locate_runWords]
    rfl

end Sequences

/--
After any sequence of runs, whatever the system answers and whoever parses the arguments: a run that
fails has shown nothing and leaves the files as they are, and a run that does not fail changes no
more than the file that packing has been told to save, which then has the bytes of the values. A run
fails exactly at the stages named above.
-/
theorem failure_leaves_no_trace (parse : List String → Option Command) (d : Directory)
    (earlier : List Invocation) (i : Invocation) {command : Command}
    (hcommand : parse i.words = some command) :
    let before := (d.runEach parse earlier).1.during i
    (∀ p, before.content? p = ((d.saves parse earlier).lookup p).or (d.content? p)) ∧
      ∃ result s, command.act.run.run ⟨before, ""⟩ = (result, s) ∧
        before.runWords parse i.words = (s.directory, s.outcome result) ∧
        (∀ e, result = .error e ↔ before.Fails command e) ∧
        Contained before command result s := by
  intro before
  refine ⟨content?_runEach parse d earlier, _, _, rfl, ?_, fun e => run_act_eq_error_iff,
    contained_run_act command⟩
  rw [runWords, hcommand]
  exact run_eq command

theorem failure_leaves_no_trace_refused :
    Command.ofArguments? ["unpack", "-d", "UINT8", "-p", "3", "-i", "out"] =
        some (.unpack (.uint 8) 3 (.file "out")) ∧
      ∃ before s, before = ((plain []).runEach Command.ofArguments?
          [⟨fun _ _ path => .ok [path], ["pack", "-d", "UINT8", "-o", "out", "5", "7"]⟩]).1 ∧
        (Command.unpack (.uint 8) 3 (.file "out")).act.run.run ⟨before, ""⟩ =
          (.error (.stream (.bitLengthMismatch 16 3 8)), s) ∧
        s.shown = "" ∧ s.directory.content? ["out"] = some #[5, 7] := by
  have hcommand : Command.ofArguments? ["unpack", "-d", "UINT8", "-p", "3", "-i", "out"] =
      some (.unpack (.uint 8) 3 (.file "out")) := by decide +kernel
  have hread : ((plain []).runEach Command.ofArguments?
      [⟨fun _ _ path => .ok [path], ["pack", "-d", "UINT8", "-o", "out", "5", "7"]⟩]).1.read "out" =
        .ok #[5, 7] := by decide +kernel
  have hsaves : ((plain []).saves Command.ofArguments?
      [⟨fun _ _ path => .ok [path], ["pack", "-d", "UINT8", "-o", "out", "5", "7"]⟩]).lookup ["out"] =
        some #[5, 7] := by decide +kernel
  obtain ⟨hbefore, result, s, hrun, -, hfails, hcontained⟩ := failure_leaves_no_trace
    Command.ofArguments? (plain [])
    [⟨fun _ _ path => .ok [path], ["pack", "-d", "UINT8", "-o", "out", "5", "7"]⟩]
    ⟨fun _ _ path => .ok [path], ["unpack", "-d", "UINT8", "-p", "3", "-i", "out"]⟩ hcommand
  obtain rfl := (hfails (.stream (.bitLengthMismatch 16 3 8))).mpr (.fileRefused hread rfl)
  obtain ⟨hshown, hdirectory⟩ := hcontained.failed _ rfl
  refine ⟨hcommand, _, s, rfl, hrun, hshown, ?_⟩
  rw [hdirectory, hbefore, hsaves]
  rfl

end Directory

end PackedStream
