import RemoteMenu.Menu.Text
import RemoteMenu.Proofs.Json.Reading

/-!
# Menus survive their text

Both texts of a menu are read back as the same menu, unless they nest more containers than a text may
(`Menu.ofJson_texts`). What is left out of a text because it is empty is what the reader starts from
(`Node.fills`), and `Menu.nesting` counts the containers without writing them.
-/

namespace RemoteMenu

open Json

/-! ### Parts of a node -/

theorem Layout.ofName?_name (l : Layout) : ofName? l.name = some l := by
  cases l
  · rfl
  · rfl

theorem Layout.reads (l : Layout) (budget : Nat) : Reads (Layout.read budget) budget (.string l.name) l := by
  refine reads_name budget ?_
  rw [ofName?_name]
  rfl

theorem ArtworkSource.reads (s : ArtworkSource) (budget : Nat) :
    Reads (ArtworkSource.read budget) budget s.toJson s := by
  cases s
  · exact reads_variant rfl
  · exact reads_variant rfl

def Artwork.values (a : Artwork) : List (Option Value) :=
  [some (.string a.name), some a.source.toJson, some (.bool a.isTemplate)]

theorem Artwork.keys_nodup (nesting : Nat) : ((fields nesting).map (·.key)).Nodup := by simp [fields]

theorem Artwork.reads (a : Artwork) (budget : Nat) : Reads (Artwork.read budget) budget a.toJson a := by
  have fills : Fills (budget - 1) (Artwork.fields (budget - 1)) a.values (.ofIcon "") a :=
    .present { name := a.name, source := .static "" } (Reads.map _ (reads_string _ a.name)) <|
    .present { name := a.name, source := a.source } (Reads.map _ (a.source.reads _)) <|
    .present a (Reads.map _ (reads_bool _ a.isTemplate)) <| .nil a
  exact reads_record budget (keys_nodup _) fills

theorem reads_strings (budget : Nat) (strings : List String) :
    Reads (Draft.readList Draft.readString budget) budget (.array (strings.map .string)) strings := by
  refine reads_list ?_
  induction strings with
  | nil => exact .nil
  | cons s strings ih => exact .cons (reads_string _ s) ih

/-! ### Nodes -/

def Node.values : Node → List (Option Value)
  | ⟨entry, children, emptySubmenu, disambiguator, remoteId⟩ =>
    [some (.string entry.title), entry.secondaryText.map .string, entry.tertiaryText.map .string,
      if entry.voiceCommands.isEmpty then none else some (.array (entry.voiceCommands.map .string)),
      entry.icon.map Artwork.toJson, entry.secondaryIcon.map Artwork.toJson,
      entry.layout.map fun l => .string l.name,
      if children.isEmpty then none else some (.array (Menu.itemsToJson children)),
      if emptySubmenu then some (.bool true) else none,
      some (.natural disambiguator.toNat), some (.natural remoteId.value.toNat)]

theorem Node.keys_nodup (readChildren : Draft → Except Failure Menu) (nesting : Nat) :
    ((fields readChildren nesting).map (·.key)).Nodup := by simp [fields]

theorem stringsMember?_eq (key : String) (strings : List String) :
    stringsMember? key strings =
      member? key (if strings.isEmpty then none else some (.array (strings.map .string))) := by
  rw [stringsMember?]
  split_ifs
  · rfl
  · rfl

theorem Node.toJson_eq (readChildren : Draft → Except Failure Menu) (nesting : Nat) (n : Node) :
    n.toJson = .object (written (fields readChildren nesting) n.values) := by
  obtain ⟨entry, children, emptySubmenu, disambiguator, remoteId⟩ := n
  have list : (if children.isEmpty then [] else [("children", Value.array (Menu.itemsToJson children))]) =
      member? "children" (if children.isEmpty then none else some (.array (Menu.itemsToJson children))) := by
    split_ifs
    · rfl
    · rfl
  have mark : (if emptySubmenu then [("empty_submenu", Value.bool true)] else []) =
      member? "empty_submenu" (if emptySubmenu then some (.bool true) else none) := by
    split_ifs
    · rfl
    · rfl
  rw [toJson, Entry.members, stringsMember?_eq, list, mark]
  simp only [List.cons_append, List.append_assoc]
  rfl

/-- A node is read back if its children are. -/
theorem Node.fills {readChildren : Draft → Except Failure Menu} {budget : Nat} (n : Node)
    (children : Reads readChildren budget (.array (Menu.itemsToJson n.children)) n.children) :
    Fills budget (fields readChildren budget) n.values { entry := { title := "" } } n := by
  obtain ⟨⟨title, secondaryText, tertiaryText, voiceCommands, icon, secondaryIcon, layout⟩, children', emptySubmenu,
    disambiguator, remoteId⟩ := n
  refine .present { entry := { title } } (Reads.map _ (reads_string _ title)) ?_
  refine .option (fun secondaryText => { entry := { title, secondaryText } }) nofun rfl
    (fun s => Reads.map _ (.option (reads_string _ s) nofun)) ?_
  refine .option (fun tertiaryText => { entry := { title, secondaryText, tertiaryText } }) nofun rfl
    (fun s => Reads.map _ (.option (reads_string _ s) nofun)) ?_
  refine .unless { entry := { title, secondaryText, tertiaryText, voiceCommands } } nofun
    (fun empty => by
      obtain rfl : voiceCommands = [] := List.isEmpty_iff.mp empty
      rfl)
    (Reads.map _ (reads_strings _ voiceCommands)) ?_
  refine .option (fun icon => { entry := { title, secondaryText, tertiaryText, voiceCommands, icon } }) nofun rfl
    (fun a => Reads.map _ (.option (a.reads _) nofun)) ?_
  refine .option
    (fun secondaryIcon => { entry := { title, secondaryText, tertiaryText, voiceCommands, icon, secondaryIcon } })
    nofun rfl (fun a => Reads.map _ (.option (a.reads _) nofun)) ?_
  refine .option
    (fun layout => { entry := { title, secondaryText, tertiaryText, voiceCommands, icon, secondaryIcon, layout } })
    nofun rfl (fun l => Reads.map _ (.option (l.reads _) nofun)) ?_
  set entry : Entry := { title, secondaryText, tertiaryText, voiceCommands, icon, secondaryIcon, layout }
  refine .unless { entry, children := children' } nofun
    (fun empty => by
      obtain rfl : children' = [] := List.isEmpty_iff.mp empty
      rfl)
    (Reads.map _ children) ?_
  refine .mark (fun emptySubmenu => ({ entry, children := children', emptySubmenu } : Node)) nofun
    (Reads.map _ (reads_bool _ true)) ?_
  refine .present { entry, children := children', emptySubmenu, disambiguator }
    (Reads.map _ (reads_word _ disambiguator)) ?_
  exact .present _ (Reads.map _ (reads_word _ remoteId.value)) (.nil _)

/-! ### Menus -/

theorem Node.reads_of_children {readChildren : Draft → Except Failure Menu} {nesting : Nat} {n : Node}
    (children : Reads readChildren (nesting - 1) (.array (Menu.itemsToJson n.children)) n.children) :
    Reads (Draft.readRecord (fields readChildren (nesting - 1)) { entry := { title := "" } } nesting) nesting n.toJson
      n := by
  rw [toJson_eq readChildren (nesting - 1)]
  exact reads_record nesting (keys_nodup ..) (fills n children)

mutual

theorem Node.reads : ∀ (n : Node) (nesting : Nat), Reads (Node.read nesting) nesting n.toJson n
  | ⟨entry, children, emptySubmenu, disambiguator, remoteId⟩, nesting => by
    match nesting with
    | 0 => rfl
    | 1 => exact Node.reads_of_children (reads_list_zero _ _ _)
    | nesting + 2 => exact Node.reads_of_children (reads_list (Menu.reads_items children nesting))

theorem Menu.reads_items : ∀ (menu : Menu) (nesting : Nat),
    List.Forall₂ (Reads (Node.read nesting) nesting) (Menu.itemsToJson menu) menu
  | [], _ => .nil
  | n :: ns, nesting => .cons (n.reads nesting) (Menu.reads_items ns nesting)

end

theorem Menu.reads (menu : Menu) (nesting : Nat) : Reads (Menu.read nesting) nesting menu.toJson menu :=
  reads_list (reads_items menu (nesting - 1))

/-! ### Nesting -/

/-- How many containers the parts of an entry nest: two for an artwork with its source, one for phrases. -/
def Entry.nesting (e : Entry) : Nat :=
  if e.icon.isSome || e.secondaryIcon.isSome then 2 else if e.voiceCommands.isEmpty then 0 else 1

mutual

/-- How many containers a node nests: its own, and what its entry or the list of its children takes. -/
def Node.nesting : Node → Nat
  | ⟨entry, children, _, _, _⟩ =>
    max entry.nesting (if children.isEmpty then 0 else Menu.itemsNesting children + 1) + 1

def Menu.itemsNesting : Menu → Nat
  | [] => 0
  | n :: ns => max n.nesting (Menu.itemsNesting ns)

end

/-- How many containers a menu nests: two for each level, and what its entries take. -/
def Menu.nesting (menu : Menu) : Nat := menu.itemsNesting + 1

theorem membersNesting_append (ms ns : List (String × Value)) :
    membersNesting (ms ++ ns) = max (membersNesting ms) (membersNesting ns) := by
  induction ms with
  | nil => exact (Nat.zero_max _).symm
  | cons m ms ih => rw [List.cons_append, membersNesting, ih, membersNesting, Nat.max_assoc]

theorem nesting_member? (key : String) {β : Type} (write : β → Value) (depth : Nat)
    (each : ∀ b, (write b).nesting = depth) (o : Option β) :
    membersNesting (member? key (o.map write)) = if o.isSome then depth else 0 := by
  cases o with
  | none => rfl
  | some b => exact (Nat.max_zero _).trans (each b)

theorem nesting_strings (strings : List String) : Json.itemsNesting (strings.map .string) = 0 := by
  induction strings with
  | nil => rfl
  | cons s strings ih => rw [List.map_cons, Json.itemsNesting, ih]; rfl

theorem nesting_stringsMember? (key : String) (strings : List String) :
    membersNesting (stringsMember? key strings) = if strings.isEmpty then 0 else 1 := by
  rw [stringsMember?]
  split_ifs
  · rfl
  · rw [membersNesting, membersNesting, Value.nesting, nesting_strings]
    rfl

theorem Artwork.nesting_toJson (a : Artwork) : a.toJson.nesting = 2 := by
  obtain ⟨name, source, isTemplate⟩ := a
  cases source
  · rfl
  · rfl

theorem Entry.nesting_members (e : Entry) : membersNesting e.members = e.nesting := by
  simp only [members, membersNesting, membersNesting_append, nesting_stringsMember?,
    nesting_member? _ Value.string 0 fun _ => rfl, nesting_member? _ _ _ Artwork.nesting_toJson,
    nesting_member? _ (fun l => .string (Layout.name l)) 0 fun _ => rfl]
  rw [nesting]
  cases e.icon.isSome <;> cases e.secondaryIcon.isSome <;> cases e.voiceCommands.isEmpty <;> simp [Value.nesting]

mutual

theorem Node.nesting_toJson : ∀ n : Node, n.toJson.nesting = n.nesting
  | ⟨entry, children, emptySubmenu, disambiguator, remoteId⟩ => by
    have list : membersNesting (if children.isEmpty then [] else [("children", .array (Menu.itemsToJson children))]) =
        if children.isEmpty then 0 else Menu.itemsNesting children + 1 := by
      split_ifs
      · rfl
      · rw [membersNesting, membersNesting, Nat.max_zero, Value.nesting, Menu.nesting_items children]
    have mark : membersNesting (if emptySubmenu then [("empty_submenu", .bool true)] else []) = 0 := by
      cases emptySubmenu <;> rfl
    rw [Node.toJson, Value.nesting, membersNesting_append, membersNesting_append, membersNesting_append,
      entry.nesting_members, list, mark, Node.nesting]
    simp [membersNesting, Value.nesting, Value.natural]

theorem Menu.nesting_items : ∀ menu : Menu, Json.itemsNesting (Menu.itemsToJson menu) = menu.itemsNesting
  | [] => rfl
  | n :: ns => by
    rw [Menu.itemsToJson, Json.itemsNesting, Menu.itemsNesting, Node.nesting_toJson n, Menu.nesting_items ns]

end

theorem Menu.nesting_toJson (menu : Menu) : menu.toJson.nesting = menu.nesting :=
  congrArg (· + 1) (Menu.nesting_items menu)

/-! ### Whole menus -/

theorem Menu.ofJson_write (style : Style) (menu : Menu) :
    Menu.ofJson (utf8 (menu.toJson.write style 0)) =
      if menu.toJson.nesting ≤ nestingLimit then .ok menu else .error .malformed :=
  decode_text style (menu.reads nestingLimit)

/-- Either text of a menu gives the menu back if it nests no more containers than a text may, and is malformed
if it nests more. -/
theorem Menu.ofJson_texts (menu : Menu) :
    menu.toJson.nesting = menu.nesting ∧
    ∀ text ∈ [menu.toJson.text, menu.toJson.prettyText],
      Menu.ofJson text.toUTF8.toList = if menu.toJson.nesting ≤ 127 then .ok menu else .error .malformed := by
  refine ⟨menu.nesting_toJson, fun text either => ?_⟩
  rcases List.mem_pair.mp either with rfl | rfl
  · rw [Value.text, toUTF8_ofList]
    exact menu.ofJson_write .compact
  · rw [Value.prettyText, toUTF8_ofList]
    exact menu.ofJson_write .pretty

end RemoteMenu
