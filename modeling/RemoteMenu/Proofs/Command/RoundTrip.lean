import RemoteMenu.Command.Text
import RemoteMenu.Proofs.Frame.Codec
import RemoteMenu.Proofs.Menu.RoundTrip

/-!
# Commands survive the wire

A command is read back from its text (`Command.ofJson_text`). The reader first looks for the name among the
members and through all the others (`Command.read_named`), then it reads the others as fields
(`Addition.fills`). Behind a header, the text of a command that fits into a frame comes out of the frame's
bytes again (`Command.toFrame_cases`).
-/

namespace RemoteMenu

open Json

variable {budget : Nat}

/-! ### Looking through values -/

/-- A value of a command: nothing in it nests, and it is sound as it stands. -/
structure Flat (v : Value) : Prop where
  nesting : v.nesting ≤ 1
  sound : ∀ nesting, v.draft.readAny (nesting + 1) = .ok ()

theorem Flat.null : Flat .null := ⟨Nat.zero_le 1, fun _ => rfl⟩

theorem Flat.string (s : String) : Flat (.string s) := ⟨Nat.zero_le 1, fun _ => rfl⟩

theorem Flat.word (w : UInt32) : Flat (.natural w.toNat) := by
  refine ⟨Nat.zero_le 1, fun nesting => ?_⟩
  have draft : (Value.natural w.toNat).draft = .number (.ok (.natural w.toNat)) :=
    congrArg Draft.number (numeral_toNat w)
  rw [draft]
  rfl

theorem Flat.strings (strings : List String) : Flat (.array (strings.map .string)) := by
  refine ⟨?_, fun nesting => ?_⟩
  · rw [Value.nesting, nesting_strings]
  · have each : (itemDrafts (strings.map .string)).forM (Draft.readAny nesting) = .ok () := by
      induction strings with
      | nil => rfl
      | cons s strings ih =>
        have here : (Value.string s).draft.readAny nesting = .ok () := by
          cases nesting <;> rfl
        exact (congrArg (· >>= fun _ => _) here).trans ih
    rw [Value.draft, Draft.readAny, each]
    rfl

/-- An object of such values nests two containers at most. -/
theorem nesting_object_le {ms : List (String × Value)} (flat : ∀ m ∈ ms, Flat m.2) : (Value.object ms).nesting ≤ 2 := by
  rw [Value.nesting, Nat.add_le_add_iff_right]
  induction ms with
  | nil => exact Nat.zero_le 1
  | cons m ms ih =>
    rw [membersNesting, Nat.max_le]
    exact ⟨(flat m (List.mem_cons_self ..)).nesting, ih fun m hm => flat m (List.mem_cons_of_mem _ hm)⟩

theorem mem_written {σ : Type} {fields : List (RecordField σ)} {values : List (Option Value)} {m : String × Value}
    (hm : m ∈ written fields values) : m.1 ∈ fields.map (·.key) ∧ some m.2 ∈ values := by
  rw [written, List.mem_flatMap] at hm
  obtain ⟨⟨field, value⟩, pair, hm⟩ := hm
  obtain ⟨v, some_, rfl⟩ := List.mem_map.mp hm
  obtain ⟨hf, hv⟩ := List.of_mem_zip pair
  exact ⟨List.mem_map_of_mem hf, Option.mem_toList.mp some_ ▸ hv⟩

/-! ### Names -/

theorem readAmong_named {own : List (String × Value)} {nesting : Nat} {name : CommandName}
    (others : ∀ m ∈ own, m.1 ≠ "command" ∧ Flat m.2) :
    CommandName.readAmong (nesting + 1) (some name) (memberDrafts own) = .ok (some name) := by
  induction own with
  | nil => rfl
  | cons m own ih =>
    obtain ⟨key, flat⟩ := others m (List.mem_cons_self ..)
    rw [memberDrafts, CommandName.readAmong]
    simp only [bind, Except.bind, if_neg key, flat.sound]
    exact ih fun m hm => others m (List.mem_cons_of_mem _ hm)

theorem filter_isOwnMember {own : List (String × Value)} (others : ∀ m ∈ own, m.1 ≠ "command") :
    (memberDrafts own).filter isOwnMember = memberDrafts own := by
  induction own with
  | nil => rfl
  | cons m own ih =>
    have key : isOwnMember (.ok m.1, m.2.draft) = true := decide_eq_true (others m (List.mem_cons_self ..))
    rw [memberDrafts, List.filter_cons_of_pos key, ih fun m hm => others m (List.mem_cons_of_mem _ hm)]

/-- A command is read from its name and from what its fields hold. -/
theorem Command.read_named {text : String} {name : CommandName} {own : List (String × Value)} {nesting : Nat}
    {c : Command} (named : CommandName.ofText? text = some name) (others : ∀ m ∈ own, m.1 ≠ "command" ∧ Flat m.2)
    (fields : name.readFields (nesting + 2) (Value.object own).draft = .ok c) :
    Command.read (nesting + 2) (Value.object (("command", .string text) :: own)).draft = .ok c := by
  have split : CommandName.split (nesting + 2) (Value.object (("command", .string text) :: own)).draft =
      .ok (name, (Value.object own).draft) := by
    have first : CommandName.readAmong (nesting + 1) none (memberDrafts (("command", .string text) :: own)) =
        .ok (some name) := by
      have read : CommandName.read (.string (.ok text)) = .ok name := by
        simp only [CommandName.read, Draft.readString, bind, Except.bind, named]
        rfl
      rw [memberDrafts, CommandName.readAmong]
      simp only [bind, Except.bind, if_true, Option.isSome_none, Value.draft, read]
      exact readAmong_named others
    have rest : (memberDrafts (("command", .string text) :: own)).filter isOwnMember = memberDrafts own :=
      filter_isOwnMember fun m hm => (others m hm).1
    change (CommandName.readAmong (nesting + 1) none _ >>= _) = _
    rw [first]
    change Except.ok (name, Draft.object ((memberDrafts _).filter isOwnMember) .closed) = _
    rw [rest]
    rfl
  rw [Command.read, split]
  simp only [bind, Except.bind, fields]
  rfl

/-! ### Fields -/

def Addition.placeValues (a : Addition) : List (Option Value) :=
  [some (.natural a.id.value.toNat),
    some (match a.parent with
      | some id => Value.natural id.value.toNat
      | none => .null),
    some (.natural a.position.toNat), some (.string a.name),
    a.secondaryText.map .string, a.tertiaryText.map .string]

def Addition.iconValues (a : Addition) : List (Option Value) :=
  [a.icon.map .string, a.secondaryIcon.map .string]

def Addition.values (a : Addition) : List (Option Value) :=
  match a.role with
  | .command voiceCommands =>
    a.placeValues ++
      ((if voiceCommands.isEmpty then none else some (.array (voiceCommands.map .string))) :: a.iconValues)
  | .submenu layout => a.placeValues ++ (a.iconValues ++ [some (.string layout.name)])

theorem Addition.keys_nodup (nesting : Nat) (kind : EntryKind) : ((fields nesting kind).map (·.key)).Nodup := by
  cases kind
  · simp [fields, idField, placeFields, voiceField, iconFields]
  · simp [fields, idField, placeFields, layoutField, iconFields]

theorem Flat.text {o : Option String} {v : Value} (hv : some v = o.map .string) : Flat v := by
  obtain ⟨s, -, rfl⟩ := Option.map_eq_some_iff.mp hv.symm
  exact .string s

theorem Addition.flat_placeValues (a : Addition) : ∀ v, some v ∈ a.placeValues → Flat v := by
  have parent : Flat (match a.parent with
      | some id => Value.natural id.value.toNat
      | none => .null) := by
    cases a.parent with
    | none => exact .null
    | some id => exact .word id.value
  intro v hv
  simp only [placeValues, List.mem_cons, List.not_mem_nil, or_false, Option.some.injEq] at hv
  rcases hv with rfl | rfl | rfl | rfl | hv | hv
  · exact .word a.id.value
  · exact parent
  · exact .word a.position
  · exact .string a.name
  · exact .text hv
  · exact .text hv

theorem Addition.flat_iconValues (a : Addition) : ∀ v, some v ∈ a.iconValues → Flat v := by
  intro v hv
  simp only [iconValues, List.mem_cons, List.not_mem_nil, or_false] at hv
  rcases hv with hv | hv
  · exact .text hv
  · exact .text hv

theorem Addition.flat_values (a : Addition) : ∀ v, some v ∈ a.values → Flat v := by
  intro v hv
  rw [values] at hv
  split at hv
  · next voiceCommands _ =>
    rcases List.mem_append.mp hv with hv | hv
    · exact a.flat_placeValues v hv
    rcases List.mem_cons.mp hv with hv | hv
    · split_ifs at hv
      cases hv
      exact .strings voiceCommands
    · exact a.flat_iconValues v hv
  · next layout _ =>
    rcases List.mem_append.mp hv with hv | hv
    · exact a.flat_placeValues v hv
    rcases List.mem_append.mp hv with hv | hv
    · exact a.flat_iconValues v hv
    · cases List.mem_singleton.mp hv
      exact .string _

theorem Addition.members_eq (a : Addition) :
    ∃ text own, CommandName.ofText? text = some ⟨true, a.role.kind⟩ ∧
      a.members = ("command", .string text) :: own ∧
      ∀ nesting, own = written (fields nesting a.role.kind) a.values := by
  obtain ⟨id, parent, position, name, secondaryText, tertiaryText, icon, secondaryIcon, role⟩ := a
  cases role with
  | command voiceCommands =>
    refine ⟨"add_command", _, rfl, rfl, fun nesting => ?_⟩
    simp only [stringsMember?_eq, List.cons_append, List.append_assoc]
    rw [← List.append_nil (member? "secondary_icon" _)]
    rfl
  | submenu layout =>
    refine ⟨"add_sub_menu", _, rfl, rfl, fun nesting => ?_⟩
    simp only [List.cons_append, List.append_assoc]
    rfl

theorem Addition.command_notMem_keys (nesting : Nat) (kind : EntryKind) :
    "command" ∉ (fields nesting kind).map (·.key) := by
  cases kind
  · simp [fields, idField, placeFields, voiceField, iconFields]
  · simp [fields, idField, placeFields, layoutField, iconFields]

theorem Layout.reads_loose (l : Layout) (budget : Nat) :
    Reads (Layout.readLoose budget) budget (.string l.name) l := by
  refine reads_name budget ?_
  rw [ofName?_name]
  rfl

theorem Addition.reads_parent (a : Addition) (parent : Option RemoteId) (budget : Nat) :
    Reads (fun d => do return { a with parent := (← d.readOption Draft.readWord).map RemoteId.mk }) budget
      (match parent with
        | some id => Value.natural id.value.toNat
        | none => .null) { a with parent } := by
  cases parent with
  | none => exact Reads.map (fun o => { a with parent := o.map RemoteId.mk }) (reads_null _ budget)
  | some id =>
    exact Reads.map (fun o => { a with parent := o.map RemoteId.mk }) (.option (reads_word budget id.value) nofun)

theorem Addition.fills_place (a : Addition) (key : String) (role : Role) {more : List (RecordField Addition)}
    {values : List (Option Value)} {final : Addition}
    (rest : Fills budget more values
      { id := a.id, parent := a.parent, position := a.position, name := a.name, secondaryText := a.secondaryText,
        tertiaryText := a.tertiaryText, role } final) :
    Fills budget (idField key :: (placeFields ++ more)) (a.placeValues ++ values)
      { id := .unset, parent := none, position := 0, name := "", role } final := by
  obtain ⟨id, parent, position, name, secondaryText, tertiaryText, _, _, _⟩ := a
  refine .present { id, parent := none, position := 0, name := "", role }
    (Reads.map (fun w => _) (reads_word _ id.value)) ?_
  refine .present { id, parent, position := 0, name := "", role } (reads_parent ..) ?_
  refine .present { id, parent, position, name := "", role } (Reads.map _ (reads_word _ position)) ?_
  refine .present { id, parent, position, name, role } (Reads.map _ (reads_string _ name)) ?_
  refine .option (fun secondaryText => { id, parent, position, name, secondaryText, role }) nofun rfl
    (fun s => Reads.map _ (.option (reads_string _ s) nofun)) ?_
  exact .option (fun tertiaryText => { id, parent, position, name, secondaryText, tertiaryText, role }) nofun rfl
    (fun s => Reads.map _ (.option (reads_string _ s) nofun)) rest

theorem Addition.fills_icons (a : Addition) {more : List (RecordField Addition)} {values : List (Option Value)}
    {final : Addition} (rest : Fills budget more values a final) :
    Fills budget (iconFields ++ more) (a.iconValues ++ values) { a with icon := none, secondaryIcon := none }
      final := by
  refine .option (fun icon => { a with icon, secondaryIcon := none }) nofun rfl
    (fun s => Reads.map _ (.option (reads_string _ s) nofun)) ?_
  exact .option (fun secondaryIcon => { a with secondaryIcon }) nofun rfl
    (fun s => Reads.map _ (.option (reads_string _ s) nofun)) rest

/-- An addition is read back from the fields of its kind. -/
theorem Addition.fills (a : Addition) (budget : Nat) :
    Fills budget (fields budget a.role.kind) a.values (.blank a.role.kind) a := by
  obtain ⟨id, parent, position, name, secondaryText, tertiaryText, icon, secondaryIcon, role⟩ := a
  let a (role : Role) : Addition :=
    { id, parent, position, name, secondaryText, tertiaryText, icon, secondaryIcon, role }
  cases role with
  | command voiceCommands =>
    refine fills_place (a _) _ (.command []) ?_
    refine .unless _ nofun (fun empty => ?_) (Reads.map _ (reads_strings _ voiceCommands)) ?_
    · obtain rfl : voiceCommands = [] := List.isEmpty_iff.mp empty
      rfl
    · exact fills_icons (a _) (.nil _)
  | submenu layout =>
    refine fills_place (a _) _ (.submenu .list) ?_
    refine fills_icons (a (.submenu .list)) ?_
    exact .present _ (Reads.map _ (layout.reads_loose budget)) (.nil _)

/-! ### Commands -/

/-- A command as it is written: its name, and then what its fields hold. -/
theorem Command.toJson_cases (c : Command) : ∃ text name own,
    CommandName.ofText? text = some name ∧ c.toJson = .object (("command", .string text) :: own) ∧
    (∀ m ∈ own, m.1 ≠ "command" ∧ Flat m.2) ∧
    ∀ nesting, name.readFields (nesting + 2) (Value.object own).draft = .ok c := by
  cases c with
  | add a =>
    obtain ⟨text, own, named, members, fields⟩ := a.members_eq
    have others : ∀ m ∈ own, m.1 ≠ "command" ∧ Flat m.2 := by
      intro m hm
      obtain ⟨key, value⟩ := mem_written (fields 0 ▸ hm)
      exact ⟨fun same => Addition.command_notMem_keys 0 a.role.kind (same ▸ key), a.flat_values _ value⟩
    refine ⟨text, _, own, named, congrArg Value.object members, others, fun nesting => ?_⟩
    have small : (Value.object own).nesting ≤ nesting + 2 :=
      Nat.le_trans (nesting_object_le fun m hm => (others m hm).2) (Nat.le_add_left 2 nesting)
    have read := reads_record (nesting + 2) (Addition.keys_nodup ..) (a.fills (nesting + 1))
    rw [← fields] at read
    exact congrArg (Command.add <$> ·) (read.eq_ok small)
  | delete kind id =>
    have fills (budget : Nat) : Fills budget (deletionFields kind) [some (.natural id.value.toNat)] .unset id :=
      .present _ (Reads.map _ (reads_word _ id.value)) (.nil _)
    have read (nesting : Nat) := reads_record (nesting + 2) (by simp [deletionFields]) (fills (nesting + 1))
    have small (nesting : Nat) : 1 ≤ nesting + 2 := Nat.le_add_left 1 (nesting + 1)
    cases kind with
    | command =>
      refine ⟨"delete_command", _, [("cmd_id", .natural id.value.toNat)], rfl, rfl, ?_, fun nesting => ?_⟩
      · simp [Flat.word id.value]
      · exact congrArg (Command.delete .command <$> ·) ((read nesting).eq_ok (small nesting))
    | submenu =>
      refine ⟨"delete_sub_menu", _, [("menu_id", .natural id.value.toNat)], rfl, rfl, ?_, fun nesting => ?_⟩
      · simp [Flat.word id.value]
      · exact congrArg (Command.delete .submenu <$> ·) ((read nesting).eq_ok (small nesting))

theorem Command.nesting_toJson_le (c : Command) : c.toJson.nesting ≤ 2 := by
  obtain ⟨text, _, own, _, written, others, _⟩ := c.toJson_cases
  rw [written]
  refine nesting_object_le ?_
  rintro m (- | ⟨-, hm⟩)
  · exact .string text
  · exact (others m hm).2

theorem Command.reads (c : Command) (nesting : Nat) : Reads (Command.read (nesting + 2)) (nesting + 2) c.toJson c := by
  obtain ⟨text, name, own, named, written, others, fields⟩ := c.toJson_cases
  rw [Reads, if_pos (Nat.le_trans c.nesting_toJson_le (Nat.le_add_left 2 nesting)), written]
  exact read_named named others (fields nesting)

/-- The text of a command gives the command back. -/
theorem Command.ofJson_text (c : Command) : Command.ofJson c.toJson.text.toUTF8.toList = .ok c := by
  have small : c.toJson.nesting ≤ nestingLimit := Nat.le_trans c.nesting_toJson_le (by decide)
  rw [Value.text, toUTF8_ofList]
  exact (decode_text .compact (c.reads 125)).trans (if_pos small)

/-! ### Frames -/

theorem Command.function_cases (c : Command) :
    c.function = .addCommand ∨ c.function = .addSubMenu ∨ c.function = .deleteCommand ∨
      c.function = .deleteSubMenu := by
  cases c with
  | add a =>
    rw [function]
    cases a.role
    · exact .inl rfl
    · exact .inr (.inl rfl)
  | delete kind id =>
    cases kind
    · exact .inr (.inr (.inl rfl))
    · exact .inr (.inr (.inr rfl))

theorem Command.value_function (c : Command) :
    c.function.value = match c with
      | .add a =>
        match a.role with
        | .command _ => 5
        | .submenu _ => 7
      | .delete .command _ => 6
      | .delete .submenu _ => 8 := by
  cases c with
  | add a =>
    dsimp only [function]
    cases a.role <;> rfl
  | delete kind id => cases kind <;> rfl

theorem Command.value_function_le (c : Command) : c.function.value ≤ functionIdLimit := by
  rcases c.function_cases with f | f | f | f <;> rw [f] <;> decide

theorem Command.ofValue_function (c : Command) : HostFunction.ofValue c.function.value = c.function := by
  rcases c.function_cases with f | f | f | f <;> rw [f] <;> rfl

def Command.frame (c : Command) (correlationId : UInt32) : Frame where
  kind := .request
  functionId := c.function.value
  correlationId
  payload := c.toJson.text.toUTF8
  bulk := .empty

theorem Command.toFrame_eq (c : Command) (correlationId : UInt32) :
    c.toFrame correlationId =
      if c.toJson.text.utf8ByteSize ≤ payloadLimit then .ok (c.frame correlationId)
      else .error (.payloadTooLarge c.toJson.text.utf8ByteSize payloadLimit) := by
  have size : c.toJson.text.toUTF8.size = c.toJson.text.utf8ByteSize := rfl
  rw [toFrame, Frame.request]
  simp only [size, checkPayloadSize]
  split_ifs
  · rfl
  · rfl

theorem Command.assemble_frame {c : Command} (fits : c.toJson.text.utf8ByteSize ≤ payloadLimit)
    (correlationId : UInt32) :
    (c.frame correlationId).assemble =
      .ok ((c.frame correlationId).header.encode.toByteArray ++ (c.frame correlationId).payload ++ .empty) :=
  Frame.assemble_eq_ok.mpr ⟨c.value_function_le, fits, rfl⟩

/-- A command whose text is too large for a frame has no frame. Every other has one whose bytes give the frame, its
header and the command back. Its function is 5 or 7 if it adds a command or a submenu, and 6 or 8 if it deletes one. -/
theorem Command.toFrame_cases (c : Command) (correlationId : UInt32) :
    (8 * 1024 * 1024 < c.toJson.text.utf8ByteSize ∧
      c.toFrame correlationId = .error (.payloadTooLarge c.toJson.text.utf8ByteSize (8 * 1024 * 1024))) ∨
    (c.toJson.text.utf8ByteSize ≤ 8 * 1024 * 1024 ∧ ∃ f bytes,
      c.toFrame correlationId = .ok f ∧ f.assemble = .ok bytes ∧ Frame.parse bytes = .ok f ∧
      Header.decode bytes = .ok f.header ∧ f.header.kind = .request ∧ f.header.functionId = c.function.value ∧
      (f.header.functionId = match c with
        | .add a =>
          match a.role with
          | .command _ => 5
          | .submenu _ => 7
        | .delete .command _ => 6
        | .delete .submenu _ => 8) ∧
      f.header.function = c.function ∧ f.header.correlationId = correlationId ∧
      Command.ofJson f.payload.toList = .ok c) := by
  by_cases fits : c.toJson.text.utf8ByteSize ≤ payloadLimit
  · let f := c.frame correlationId
    have assembled := Command.assemble_frame fits correlationId
    have header : Header.decode (f.header.encode.toByteArray ++ f.payload ++ f.bulk) = .ok f.header := by
      rw [ByteArray.append_assoc]
      exact Header.decode_encode c.value_function_le _
    exact .inr ⟨fits, f, _, (c.toFrame_eq correlationId).trans (if_pos fits), assembled,
      Frame.parse_of_assemble assembled, header, rfl, rfl, c.value_function, c.ofValue_function, rfl, c.ofJson_text⟩
  · exact .inl ⟨Nat.lt_of_not_le fits, (c.toFrame_eq correlationId).trans (if_neg fits)⟩

end RemoteMenu
