import RemoteMenu.Command.Basic
import RemoteMenu.Proofs.Menu.Context
import RemoteMenu.Proofs.Menu.FreshIds

/-!
# Menus laid out flat

`Menu.places` lists the nodes of a menu, parents first, each with the id of the node above it. A level
in its context takes part in this list as a block of its own (`places_plug`).
-/

namespace RemoteMenu

/-- A node's place in a menu: its id, the id of the node above it, and what it looks like. -/
structure Place where
  id : RemoteId
  parent : Option RemoteId
  face : Face
  deriving Repr, DecidableEq

mutual

/-- The places of a node and of all that is below it, parents first. -/
def Node.places (parent : Option RemoteId) : Node → List Place
  | ⟨entry, children, emptySubmenu, disambiguator, remoteId⟩ =>
    ⟨remoteId, parent, Node.face ⟨entry, children, emptySubmenu, disambiguator, remoteId⟩⟩ ::
      Menu.places (some remoteId) children

def Menu.places (parent : Option RemoteId) : Menu → List Place
  | [] => []
  | n :: ns => n.places parent ++ Menu.places parent ns

end

def Node.place (parent : Option RemoteId) (n : Node) : Place := ⟨n.remoteId, parent, n.face⟩

theorem Node.places_eq (parent : Option RemoteId) (n : Node) :
    n.places parent = n.place parent :: Menu.places (some n.remoteId) n.children := by
  cases n; rw [Node.places]; rfl

namespace Menu

@[simp] theorem places_nil (parent : Option RemoteId) : Menu.places parent [] = [] := by
  rw [Menu.places]

@[simp] theorem places_cons (parent : Option RemoteId) (n : Node) (ns : Menu) :
    Menu.places parent (n :: ns) = n.places parent ++ Menu.places parent ns := by
  rw [Menu.places]

theorem places_eq_flatMap (parent : Option RemoteId) (menu : Menu) :
    menu.places parent = menu.flatMap (Node.places parent) := by
  induction menu with
  | nil => simp
  | cons n ns ih => rw [places_cons, ih, List.flatMap_cons]

@[simp] theorem places_append (parent : Option RemoteId) (a b : Menu) :
    Menu.places parent (a ++ b) = Menu.places parent a ++ Menu.places parent b := by
  simp [places_eq_flatMap]

theorem places_perm (parent : Option RemoteId) {a b : Menu} (h : a.Perm b) :
    (Menu.places parent a).Perm (Menu.places parent b) := by
  rw [places_eq_flatMap, places_eq_flatMap]
  exact h.flatMap_right _

end Menu

mutual

theorem Node.places_spec (parent : Option RemoteId) : (n : Node) →
    (n.places parent).map (·.id) = n.ids ∧ (n.places parent).map (·.face) = n.walk.map Node.face
  | ⟨entry, children, emptySubmenu, disambiguator, remoteId⟩ => by
    obtain ⟨ids, faces⟩ := Menu.places_spec (some remoteId) children
    rw [Node.places_eq, Node.ids_eq, Node.walk_eq]
    exact ⟨congrArg _ ids, congrArg _ faces⟩

theorem Menu.places_spec (parent : Option RemoteId) : (menu : Menu) →
    (menu.places parent).map (·.id) = menu.ids ∧ (menu.places parent).map (·.face) = menu.faces
  | [] => by simp [Menu.faces, Menu.walk]
  | n :: ns => by
    obtain ⟨ids, faces⟩ := Node.places_spec parent n
    obtain ⟨ids', faces'⟩ := Menu.places_spec parent ns
    simp [Menu.faces, Menu.walk, ids, ids', faces, faces'] at *

end

theorem Node.map_id_places (parent : Option RemoteId) (n : Node) :
    (n.places parent).map (·.id) = n.ids := (n.places_spec parent).1

theorem Menu.map_id_places (parent : Option RemoteId) (menu : Menu) :
    (menu.places parent).map (·.id) = menu.ids := (menu.places_spec parent).1

theorem Menu.map_face_places (parent : Option RemoteId) (menu : Menu) :
    (menu.places parent).map (·.face) = menu.faces := (menu.places_spec parent).2

mutual

theorem Node.exists_place (top : Option RemoteId) : (n : Node) → ∀ x ∈ n.walk, ∃ parent, x.place parent ∈ n.places top
  | ⟨entry, children, emptySubmenu, disambiguator, remoteId⟩, x, member => by
    rw [Node.walk_eq] at member
    rw [Node.places_eq]
    rcases List.mem_cons.mp member with rfl | below
    · exact ⟨top, List.mem_cons_self ..⟩
    · obtain ⟨parent, there⟩ := Menu.exists_place (some remoteId) children x below
      exact ⟨parent, List.mem_cons_of_mem _ there⟩

theorem Menu.exists_place (top : Option RemoteId) : (menu : Menu) → ∀ x ∈ menu.walk, ∃ parent, x.place parent ∈ menu.places top
  | [], x, member => by
    rw [Menu.walk] at member
    cases member
  | n :: ns, x, member => by
    rw [Menu.walk] at member
    rw [Menu.places_cons]
    rcases List.mem_append.mp member with first | later
    · obtain ⟨parent, there⟩ := Node.exists_place top n x first
      exact ⟨parent, List.mem_append_left _ there⟩
    · obtain ⟨parent, there⟩ := Menu.exists_place top ns x later
      exact ⟨parent, List.mem_append_right _ there⟩

end

/-! ### Parents come first -/

/-- Each place is below one that is in `above`, or below a submenu earlier in the list. -/
def Chained (above : List (Option RemoteId)) : List Place → Prop
  | [] => True
  | x :: xs =>
    x.parent ∈ above ∧ Chained (if x.face.isSubmenu then some x.id :: above else above) xs

theorem Chained.mono {above more : List (Option RemoteId)} {xs : List Place} (h : Chained above xs)
    (le : above ⊆ more) : Chained more xs := by
  induction xs generalizing above more with
  | nil => trivial
  | cons x xs ih =>
    refine ⟨le h.1, ih h.2 ?_⟩
    split
    · exact List.cons_subset_cons _ le
    · exact le

theorem Chained.append {above : List (Option RemoteId)} {xs ys : List Place} (hx : Chained above xs)
    (hy : Chained above ys) : Chained above (xs ++ ys) := by
  induction xs generalizing above with
  | nil => exact hy
  | cons x xs ih =>
    refine ⟨hx.1, ih hx.2 (hy.mono ?_)⟩
    split
    · exact List.subset_cons_self _ _
    · exact List.Subset.refl _

theorem Chained.parent_mem {above : List (Option RemoteId)} {xs : List Place} (h : Chained above xs) :
    ∀ x ∈ xs, x.parent ∈ above ∨ ∃ y ∈ xs, y.face.isSubmenu = true ∧ x.parent = some y.id := by
  induction xs generalizing above with
  | nil => simp
  | cons x xs ih =>
    intro z member
    rcases List.mem_cons.mp member with rfl | later
    · exact .inl h.1
    · rcases ih h.2 z later with known | ⟨y, hy, submenu, parent⟩
      · split at known
        · next submenu =>
          rcases List.mem_cons.mp known with parent | known
          · exact .inr ⟨x, List.mem_cons_self .., submenu, parent⟩
          · exact .inl known
        · exact .inl known
      · exact .inr ⟨y, List.mem_cons_of_mem _ hy, submenu, parent⟩

mutual

theorem Node.chained_places {above : List (Option RemoteId)} {parent : Option RemoteId}
    (known : parent ∈ above) : (n : Node) → Chained above (n.places parent)
  | ⟨entry, children, emptySubmenu, disambiguator, remoteId⟩ => by
    rw [Node.places_eq]
    refine ⟨known, ?_⟩
    cases children with
    | nil => simp [Chained]
    | cons c cs =>
      -- A node with children is a submenu.
      simp only [Node.place, Node.face, Node.isSubmenu, List.isEmpty_cons, Bool.not_false,
        Bool.or_true, if_true]
      exact Menu.chained_places (List.mem_cons_self ..) (c :: cs)

theorem Menu.chained_places {above : List (Option RemoteId)} {parent : Option RemoteId}
    (known : parent ∈ above) : (menu : Menu) → Chained above (menu.places parent)
  | [] => by simp [Chained]
  | n :: ns => by
    rw [Menu.places_cons]
    exact (Node.chained_places known n).append (Menu.chained_places known ns)

end

/-- The nodes of a level come first, and then what is below each of them. -/
theorem Menu.places_perm_rows (parent : Option RemoteId) (nodes : Menu) :
    (Menu.places parent nodes).Perm (nodes.map (Node.place parent) ++
      nodes.flatMap fun n => Menu.places (some n.remoteId) n.children) := by
  induction nodes with
  | nil => simp
  | cons n nodes ih =>
    rw [Menu.places_cons, Node.places_eq, List.map_cons, List.flatMap_cons, List.cons_append,
      List.cons_append]
    refine List.Perm.cons _ ((ih.append_left _).trans ?_)
    rw [← List.append_assoc, ← List.append_assoc]
    exact List.perm_append_comm.append_right _

theorem chained_map_place {above : List (Option RemoteId)} {parent : Option RemoteId}
    (known : parent ∈ above) (nodes : List Node) : Chained above (nodes.map (Node.place parent)) := by
  induction nodes generalizing above with
  | nil => trivial
  | cons n nodes ih =>
    refine ⟨known, ih ?_⟩
    split
    · exact List.mem_cons_of_mem _ known
    · exact known

/-- What is below some nodes is chained below those of them that are submenus. -/
theorem chained_below {above : List (Option RemoteId)} {nodes : List Node}
    (known : ∀ n ∈ nodes, n.isSubmenu = true → some n.remoteId ∈ above) :
    Chained above (nodes.flatMap fun n => Menu.places (some n.remoteId) n.children) := by
  induction nodes with
  | nil => trivial
  | cons n nodes ih =>
    rw [List.flatMap_cons]
    refine Chained.append ?_ (ih fun m hm => known m (List.mem_cons_of_mem _ hm))
    by_cases empty : n.children = []
    · rw [empty, Menu.places_nil]
      trivial
    · refine Menu.chained_places (known n (List.mem_cons_self ..) ?_) _
      simp [Node.isSubmenu, empty]

/-- No place is below one that is not in the list. -/
def Grounded (xs : List Place) : Prop :=
  ∀ x ∈ xs, ∀ p, x.parent = some p → ∃ y ∈ xs, y.face.isSubmenu = true ∧ y.id = p

theorem Grounded.perm {xs ys : List Place} (h : Grounded xs) (perm : xs.Perm ys) : Grounded ys := by
  intro x hx p parent
  obtain ⟨y, hy, kind, own⟩ := h x (perm.mem_iff.mpr hx) p parent
  exact ⟨y, perm.mem_iff.mp hy, kind, own⟩

theorem Menu.grounded_places (menu : Menu) : Grounded (menu.places none) := by
  intro x hx p parent
  have chained : Chained [none] (menu.places none) := Menu.chained_places (List.mem_singleton_self _) menu
  rcases chained.parent_mem x hx with top | ⟨y, hy, kind, own⟩
  · rw [List.mem_singleton.mp top] at parent
    cases parent
  · rw [own] at parent
    exact ⟨y, hy, kind, Option.some.inj parent⟩

/-! ### Levels in their context -/

theorem Node.face_setChildren {n : Node} (h : n.isSubmenu = true) (level : Menu) :
    (n.setChildren level).face = n.face := by
  rw [Node.face, Node.isSubmenu_setChildren _ _ (.inl h)]; rfl

namespace Context

def parent (top : Option RemoteId) : Context → Option RemoteId
  | [] => top
  | f :: fs => parent (some f.node.remoteId) fs

def outer (top : Option RemoteId) : Context → List Place
  | [] => []
  | f :: fs =>
    f.before.places top ++ f.node.place top :: f.after.places top ++
      outer (some f.node.remoteId) fs

theorem parent_snoc (top : Option RemoteId) (fs : Context) (f : Branch) :
    parent top (fs ++ [f]) = some f.node.remoteId := by
  induction fs generalizing top with
  | nil => rfl
  | cons g fs ih => exact ih _

theorem getLast?_path (fs : Context) : fs.path.getLast? = parent none fs := by
  rcases List.eq_nil_or_concat fs with rfl | ⟨gs, f, rfl⟩
  · rfl
  · rw [List.concat_eq_append, path_snoc, parent_snoc, List.getLast?_concat]

theorem places_fill {f : Branch} (h : f.node.isSubmenu = true) (top : Option RemoteId) (level : Menu) :
    (Menu.places top (f.fill level)).Perm
      (f.before.places top ++ f.node.place top :: f.after.places top ++
        Menu.places (some f.node.remoteId) level) := by
  have node : (f.node.setChildren level).places top =
      f.node.place top :: Menu.places (some f.node.remoteId) level := by
    rw [Node.places_eq, Node.place, Node.face_setChildren h]; rfl
  rw [Branch.fill, Menu.places_append, Menu.places_cons, node, List.append_assoc]
  refine List.Perm.append_left _ ?_
  rw [List.cons_append, List.cons_append]
  exact List.perm_append_comm.cons _

/-- The places of a menu that has a level in this context, those of the level last. -/
def places (fs : Context) (level : Menu) : List Place :=
  outer none fs ++ Menu.places (parent none fs) level

theorem places_plug_perm {fs : Context} (h : fs.Sound) (top : Option RemoteId) (level : Menu) :
    (Menu.places top (fs.plug level)).Perm (outer top fs ++ Menu.places (parent top fs) level) := by
  induction fs generalizing top with
  | nil => exact List.Perm.refl _
  | cons f fs ih =>
    have rest := ih (fun g member => h g (List.mem_cons_of_mem _ member)) (some f.node.remoteId)
    have filled := places_fill (h f (List.mem_cons_self ..)).1 top (plug fs level)
    refine filled.trans ?_
    rw [outer, parent, List.append_assoc _ (outer ..)]
    exact rest.append_left _

theorem places_plug {fs : Context} (h : fs.Sound) (level : Menu) :
    (Menu.places none (fs.plug level)).Perm (fs.places level) := places_plug_perm h none level

theorem places_append (fs : Context) (a b : Menu) :
    fs.places (a ++ b) = fs.places a ++ Menu.places (parent none fs) b := by
  rw [places, places, Menu.places_append, List.append_assoc]

theorem places_perm (fs : Context) {a b : Menu} (h : a.Perm b) : (fs.places a).Perm (fs.places b) :=
  (Menu.places_perm _ h).append_left _

theorem parent_mem_outer {fs : Context} (h : fs.Sound) (top : Option RemoteId) :
    parent top fs = top ∨
      ∃ x ∈ outer top fs, x.face.isSubmenu = true ∧ parent top fs = some x.id := by
  induction fs generalizing top with
  | nil => exact .inl rfl
  | cons f fs ih =>
    have submenu := (h f (List.mem_cons_self ..)).1
    rcases ih (fun g member => h g (List.mem_cons_of_mem _ member)) (some f.node.remoteId) with
      here | ⟨x, hx, kind, parent⟩
    · exact .inr ⟨f.node.place top, by simp [outer], submenu, here⟩
    · exact .inr ⟨x, by simp [outer, hx], kind, parent⟩

theorem grounded {fs : Context} (h : fs.Sound) (level : Menu) : Grounded (fs.places level) :=
  (Menu.grounded_places _).perm (places_plug h level)

end Context

end RemoteMenu
