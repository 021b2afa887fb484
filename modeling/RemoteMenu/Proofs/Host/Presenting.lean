import RemoteMenu.Proofs.Host.Mirror
import RemoteMenu.Proofs.Menu.Bare
import RemoteMenu.Proofs.Menu.Fingerprint

/-!
# What the host tells of a menu

The entries that mirror a menu tell all that its nodes say (`Menu.tells`), whatever nodes they were added
for: those looked alike, and what is compared covers all that is told.
-/

namespace RemoteMenu

open HostTree

/-! ### What entries tell -/

/-- Whether an entry of the host was told all that a node says, but for where it stands. -/
structure Addition.Carries (layout : Layout) (a : Addition) (n : Node) : Prop where
  /-- The title, with a number behind it or without. -/
  name : a.name = n.entry.title ∨ ∃ number : Nat, a.name = s!"{n.entry.title} ({number})"
  secondaryText : a.secondaryText = n.entry.secondaryText
  tertiaryText : a.tertiaryText = n.entry.tertiaryText
  icon : a.icon = n.entry.icon.map Artwork.name
  secondaryIcon : a.secondaryIcon = n.entry.secondaryIcon.map Artwork.name
  role : a.role = if n.isSubmenu then .submenu (n.entry.layout.getD layout) else .command n.entry.voiceCommands

/-- Whether entries carry the nodes of a menu and all that is below them, one for each and parents first,
below an entry with an id or at the top. -/
inductive Tells (layout : Layout) : Option RemoteId → HostTree → Menu → Prop
  | nothing (parent : Option RemoteId) : Tells layout parent [] []
  | node {parent : Option RemoteId} {a : Addition} {below behind : HostTree} {n : Node} {ns : Menu}
      (own : a.Carries layout n) (place : a.parent = parent) (inner : Tells layout (some a.id) below n.children)
      (rest : Tells layout parent behind ns) : Tells layout parent (a :: (below ++ behind)) (n :: ns)

/-- Whether the entries of a host are those of a menu, each below its own parent. The order of siblings
does not matter. -/
def HostTree.Presents (layout : Layout) (host : HostTree) (menu : Menu) : Prop :=
  (host.map (·.id)).Nodup ∧ ∃ order : HostTree, order.Perm host ∧ Tells layout none order menu

theorem Addition.Carries.congr {layout : Layout} {a : Addition} {k n : Node} (h : a.Carries layout k)
    (entry : k.entry = n.entry) (kind : k.isSubmenu = n.isSubmenu) : a.Carries layout n := by
  obtain ⟨name, secondaryText, tertiaryText, icon, secondaryIcon, role⟩ := h
  rw [entry] at name secondaryText tertiaryText icon secondaryIcon role
  rw [kind] at role
  exact ⟨name, secondaryText, tertiaryText, icon, secondaryIcon, role⟩

namespace Tells

variable {layout : Layout} {parent : Option RemoteId} {order : HostTree} {shown menu : Menu}

theorem congr (h : Tells layout parent order shown) (same : shown.bare = menu.bare) :
    Tells layout parent order menu := by
  induction h generalizing menu with
  | nothing parent =>
    cases menu with
    | nil => exact .nothing parent
    | cons => simp at same
  | @node parent a below behind k ks own place inner rest ihInner ihRest =>
    cases menu with
    | nil => simp at same
    | cons n ns =>
      rw [Menu.bare_cons, Menu.bare_cons] at same
      obtain ⟨first, further⟩ := List.cons.inj same
      have renders := Node.renders_of_bare_eq first
      have children := congrArg Node.children first
      rw [Node.bare_eq, Node.bare_eq n] at children
      exact .node (own.congr renders.entry renders.isSubmenu) place (ihInner children) (ihRest further)

theorem of_disambiguateAfter (h : Tells layout parent order shown) {earlier : List String}
    (same : shown = Menu.disambiguateAfter earlier menu) : Tells layout parent order menu := by
  induction h generalizing menu earlier with
  | nothing parent =>
    cases menu with
    | nil => exact .nothing parent
    | cons => rw [Menu.disambiguateAfter] at same; cases same
  | @node parent a below behind k ks own place inner rest ihInner ihRest =>
    cases menu with
    | nil => rw [Menu.disambiguateAfter] at same; cases same
    | cons n ns =>
      rw [Menu.disambiguateAfter] at same
      obtain ⟨rfl, further⟩ := List.cons.inj same
      obtain ⟨entry, children, emptySubmenu, disambiguator, remoteId⟩ := n
      rw [Node.disambiguate] at own inner ihInner
      refine .node (own.congr rfl ?_) place (ihInner rfl) (ihRest further)
      have empty := (Menu.faces_disambiguateAfter [] children).2
      rw [Node.isSubmenu, Node.isSubmenu]
      exact congrArg (emptySubmenu || !·) empty

end Tells

/-! ### What the host shows -/

theorem Shows.carries {layout : Layout} {faces : Set Face} {a : Addition} {parent : Option RemoteId} {n : Node}
    (h : Shows layout faces a (n.place parent)) (short : ∀ f ∈ faces, f.entry.Short) (known : n.face ∈ faces) :
    a.Carries layout n := by
  obtain ⟨k, position, face, print, -, rfl⟩ := h
  obtain ⟨alike, kind⟩ := Face.alike_of_print_eq (short _ face) (short _ known) print
  have kind : k.isSubmenu = n.isSubmenu := kind
  refine ⟨?_, alike.secondaryText, alike.tertiaryText, alike.icon, alike.secondaryIcon, ?_⟩
  · have title : k.entry.title = n.entry.title := alike.title
    rw [← title]
    unfold Node.addition Node.displayTitle
    dsimp only
    split
    · exact .inl rfl
    · exact .inr ⟨k.disambiguator.toNat, rfl⟩
  · have layout : k.entry.layout = n.entry.layout := alike.layout
    have voiceCommands : k.entry.voiceCommands = n.entry.voiceCommands := alike.voiceCommands
    rw [← kind, ← layout, ← voiceCommands]
    rfl

section

variable {layout : Layout} {faces : Set Face}

mutual

theorem Node.tells (short : ∀ f ∈ faces, f.entry.Short) (parent : Option RemoteId) : (n : Node) →
    {order : HostTree} → List.Forall₂ (Shows layout faces) order (n.places parent) →
    (∀ x ∈ n.places parent, x.face ∈ faces) → ∃ a below, order = a :: below ∧ a.Carries layout n ∧
      a.parent = parent ∧ Tells layout (some a.id) below n.children
  | ⟨entry, children, emptySubmenu, disambiguator, remoteId⟩, order, shows, known => by
    rw [Node.places_eq] at shows known
    obtain ⟨own, inner⟩ := List.forall_mem_cons.mp known
    cases shows with
    | cons first rest =>
      refine ⟨_, _, rfl, first.carries short own, first.parent, ?_⟩
      rw [first.id]
      exact Menu.tells short (some remoteId) children rest inner

theorem Menu.tells (short : ∀ f ∈ faces, f.entry.Short) (parent : Option RemoteId) : (menu : Menu) →
    {order : HostTree} → List.Forall₂ (Shows layout faces) order (menu.places parent) →
    (∀ x ∈ menu.places parent, x.face ∈ faces) → Tells layout parent order menu
  | [], order, shows, _ => by
    rw [Menu.places_nil] at shows
    cases shows
    exact .nothing parent
  | n :: ns, order, shows, known => by
    rw [Menu.places_cons] at shows known
    obtain ⟨own, others⟩ := List.forall_mem_append.mp known
    have first := List.forall₂_take_append _ _ _ shows
    have rest := List.forall₂_drop_append _ _ _ shows
    obtain ⟨a, below, taken, carries, place, inner⟩ := n.tells short parent first own
    rw [← List.take_append_drop (n.places parent).length order, taken]
    exact .node carries place inner (Menu.tells short parent ns rest others)

end

end

end RemoteMenu
