import Mathlib.Data.List.Basic
import RemoteMenu.Menu.Tree

/-!
# Levels in their context

A `Context` is all of a menu but one level: the nodes above that level, outermost first, each with its
siblings. Where every node of the path is the first sibling with its id, reading the level at the path
gives what was plugged in (`level?_plug`), and putting another level there is plugging that one in
(`replaceLevel_plug`).
-/

namespace RemoteMenu

/-! ### Children of a node -/

theorem Node.children_eq_nil {n : Node} (h : n.isSubmenu = false) : n.children = [] := by
  rw [isSubmenu] at h
  cases children : n.children with
  | nil => rfl
  | cons => simp [children] at h

theorem Node.isSubmenu_setChildren_eq (n : Node) (children : Menu) :
    (n.setChildren children).isSubmenu = (n.isSubmenu || !children.isEmpty) := by
  cases children <;> simp [setChildren, isSubmenu]

/-- With something below it before or after, a node is a submenu. -/
theorem Node.isSubmenu_setChildren_of_below {n : Node} {children : Menu}
    (h : ¬ (children.isEmpty && n.children.isEmpty) = true) : (n.setChildren children).isSubmenu = true := by
  rw [isSubmenu_setChildren_eq, isSubmenu]
  revert h
  cases children <;> cases n.children <;> simp

theorem Node.setChildren_setChildren {n : Node} {a : Menu} (b : Menu)
    (h : n.isSubmenu = true ∨ a = []) : (n.setChildren a).setChildren b = n.setChildren b := by
  have kind := n.isSubmenu_setChildren a h
  unfold setChildren at kind ⊢
  rw [kind]

@[simp] theorem Node.setChildren_again (n : Node) (a : Menu) :
    (n.setChildren a).setChildren a = n.setChildren a := by
  have kind := n.isSubmenu_setChildren_eq a
  unfold setChildren at kind ⊢
  rw [kind]
  cases a <;> simp

theorem Node.setChildren_of_cons (n : Node) {a b : Menu} (ha : a ≠ []) (hb : b ≠ []) :
    { n.setChildren a with children := b } = n.setChildren b := by
  cases a <;> cases b <;> simp_all [setChildren]

/-- A node that a level is below, with its siblings. -/
structure Branch where
  before : Menu
  node : Node
  after : Menu

def Branch.fill (f : Branch) (level : Menu) : Menu :=
  f.before ++ f.node.setChildren level :: f.after

abbrev Context := List Branch

namespace Context

def plug (fs : Context) (level : Menu) : Menu := fs.foldr Branch.fill level

def path (fs : Context) : Path := fs.map (·.node.remoteId)

/-- Each node above the level is a submenu, and the first of its siblings with its id. -/
def Sound (fs : Context) : Prop :=
  ∀ f ∈ fs, f.node.isSubmenu = true ∧ ∀ n ∈ f.before, n.remoteId ≠ f.node.remoteId

@[simp] theorem plug_nil (level : Menu) : plug [] level = level := rfl

@[simp] theorem plug_cons (f : Branch) (fs : Context) (level : Menu) :
    plug (f :: fs) level = f.fill (plug fs level) := rfl

theorem plug_snoc (fs : Context) (f : Branch) (level : Menu) :
    plug (fs ++ [f]) level = plug fs (f.fill level) := by
  simp [plug]

theorem path_snoc (fs : Context) (f : Branch) : path (fs ++ [f]) = path fs ++ [f.node.remoteId] := by
  simp [path]

theorem sound_snoc {fs : Context} {f : Branch} (h : fs.Sound) (submenu : f.node.isSubmenu = true)
    (first : ∀ n ∈ f.before, n.remoteId ≠ f.node.remoteId) : Sound (fs ++ [f]) := by
  intro g member
  rcases List.mem_append.mp member with old | new
  · exact h g old
  · obtain rfl := List.mem_singleton.mp new
    exact ⟨submenu, first⟩

theorem fill_ne_nil (f : Branch) (level : Menu) : f.fill level ≠ [] := by simp [Branch.fill]

theorem plug_cons_ne_nil (f : Branch) (fs : Context) (level : Menu) : plug (f :: fs) level ≠ [] :=
  fill_ne_nil f _

/-! ### Paths into a context -/

theorem find?_fill {f : Branch} {level : Menu}
    (first : ∀ n ∈ f.before, n.remoteId ≠ f.node.remoteId) :
    List.find? (·.remoteId = f.node.remoteId) (f.fill level) = some (f.node.setChildren level) := by
  have skipped : List.find? (fun n : Node => decide (n.remoteId = f.node.remoteId)) f.before = none := by
    rw [List.find?_eq_none]
    intro n member
    simpa using first n member
  rw [Branch.fill, List.find?_append, skipped]
  simp

/-- A node with another id is the same, whatever level is below the branch. -/
theorem find?_fill_of_ne {f : Branch} {id : RemoteId} (other : id ≠ f.node.remoteId) (level level' : Menu) :
    List.find? (·.remoteId = id) (f.fill level) = List.find? (·.remoteId = id) (f.fill level') := by
  have skipped (level : Menu) :
      List.find? (·.remoteId = id) (f.fill level) = List.find? (·.remoteId = id) (f.before ++ f.after) := by
    rw [Branch.fill, List.find?_append, List.find?_append, List.find?_cons_of_neg]
    exact fun same => other (of_decide_eq_true same).symm
  rw [skipped, skipped]

theorem updateNode_fill {f : Branch} {level : Menu} (change : Node → Option Node)
    (first : ∀ n ∈ f.before, n.remoteId ≠ f.node.remoteId) :
    Menu.updateNode f.node.remoteId change (f.fill level) =
      (change (f.node.setChildren level)).map fun n => f.before ++ n :: f.after := by
  obtain ⟨before, node, after⟩ := f
  unfold Branch.fill
  induction before with
  | nil => simp [Menu.updateNode]
  | cons n ns ih =>
    have other : n.remoteId ≠ node.remoteId := first n (List.mem_cons_self ..)
    have rest := ih fun m member => first m (List.mem_cons_of_mem _ member)
    simp only [List.cons_append, Menu.updateNode, if_neg other]
    rw [rest, Option.map_map]
    rfl

theorem level?_plug_append {fs : Context} (h : fs.Sound) (level : Menu) (rest : Path) :
    (fs.plug level).level? (fs.path ++ rest) = level.level? rest := by
  induction fs with
  | nil => rfl
  | cons f fs ih =>
    have first := (h f (List.mem_cons_self ..)).2
    rw [plug_cons, path, List.map_cons, List.cons_append, Menu.level?, find?_fill first]
    exact ih fun g member => h g (List.mem_cons_of_mem _ member)

theorem level?_plug {fs : Context} (h : fs.Sound) (level : Menu) :
    (fs.plug level).level? fs.path = some level := by
  have here := level?_plug_append h level []
  rwa [List.append_nil] at here

/-- A path that leads neither to the level nor past it leads to the same level whatever is plugged in. -/
theorem level?_plug_of_apart {fs : Context} (h : fs.Sound) {p : Path} (above : ¬ p <+: fs.path)
    (below : ¬ fs.path <+: p) (level level' : Menu) :
    (fs.plug level).level? p = (fs.plug level').level? p := by
  induction fs generalizing p with
  | nil => exact absurd List.nil_prefix below
  | cons f fs ih =>
    cases p with
    | nil => exact absurd List.nil_prefix above
    | cons id p =>
      have first := (h f (List.mem_cons_self ..)).2
      rw [plug_cons, plug_cons, Menu.level?, Menu.level?]
      by_cases same : id = f.node.remoteId
      · subst same
        rw [find?_fill first, find?_fill first]
        refine ih (fun g member => h g (List.mem_cons_of_mem _ member)) ?_ ?_
        · exact fun front => above (List.cons_prefix_cons.mpr ⟨rfl, front⟩)
        · exact fun front => below (List.cons_prefix_cons.mpr ⟨rfl, front⟩)
      · rw [find?_fill_of_ne same _ (plug fs level')]

theorem replaceLevel_plug {fs : Context} (h : fs.Sound) (old new : Menu) :
    Menu.replaceLevel new fs.path (fs.plug old) = some (fs.plug new) := by
  induction fs with
  | nil => rfl
  | cons f fs ih =>
    obtain ⟨submenu, first⟩ := h f (List.mem_cons_self ..)
    have rest := ih fun g member => h g (List.mem_cons_of_mem _ member)
    cases fs with
    | nil =>
      rw [plug_cons, path, List.map_cons, List.map_nil, Menu.replaceLevel, updateNode_fill _ first,
        Node.setChildren_setChildren _ (.inl submenu)]
      rfl
    | cons g fs =>
      -- The innermost of the branches sets the children, the others only carry the change up.
      rw [plug_cons, path, List.map_cons, List.map_cons, Menu.replaceLevel, updateNode_fill _ first]
      · rw [Node.children_setChildren]
        simp only [path, List.map_cons] at rest
        rw [rest]
        simp only [Option.map_some]
        rw [Node.setChildren_of_cons _ (plug_cons_ne_nil g fs old) (plug_cons_ne_nil g fs new)]
        rfl
      · simp

end Context

end RemoteMenu
