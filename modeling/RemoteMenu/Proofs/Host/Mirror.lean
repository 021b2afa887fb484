import Mathlib.Data.List.Perm.Basic
import RemoteMenu.Command.Plan
import RemoteMenu.Proofs.Host.Tree
import RemoteMenu.Proofs.Menu.Places

/-!
# What the host shows of a menu

The host mirrors a list of places if each of its entries was added for a node that looks like the one
at a place, one entry for each place. The additions for places that are chained are in order and put
them on the host (`Mirrors.adds`); the deletion of a node is in order and takes its places off
(`Mirrors.delete`).
-/

namespace RemoteMenu

open HostTree

def Face.kind (f : Face) : EntryKind := if f.isSubmenu then .submenu else .command

/-- Whether an entry is what some node adds that looks like the one at a place, with the looks of the
node among `faces`. -/
def Shows (layout : Layout) (faces : Set Face) (a : Addition) (x : Place) : Prop :=
  ∃ (n : Node) (position : Nat), n.face ∈ faces ∧ n.face.print = x.face.print ∧ n.remoteId = x.id ∧
    a = n.addition x.parent position layout

/-- Whether the host shows what is at some places and nothing else, in any order. -/
def HostTree.Mirrors (layout : Layout) (faces : Set Face) (host : HostTree) (xs : List Place) : Prop :=
  ∃ order : HostTree, order.Perm host ∧ List.Forall₂ (Shows layout faces) order xs

/-- Whether two places differ in nothing that nodes are compared by. -/
structure Place.Alike (x y : Place) : Prop where
  id : x.id = y.id
  parent : x.parent = y.parent
  print : x.face.print = y.face.print

theorem map_id_of_alike {xs ys : List Place} (h : List.Forall₂ Place.Alike xs ys) :
    xs.map (·.id) = ys.map (·.id) := by
  induction h with
  | nil => rfl
  | cons head _ ih => rw [List.map_cons, List.map_cons, head.id, ih]

section
variable {layout : Layout} {faces : Set Face} {host : HostTree} {a : Addition} {x y : Place}
  {xs ys : List Place}

namespace Shows

theorem id (h : Shows layout faces a x) : a.id = x.id := by
  obtain ⟨n, position, -, -, own, rfl⟩ := h
  exact own

theorem parent (h : Shows layout faces a x) : a.parent = x.parent := by
  obtain ⟨n, position, -, -, -, rfl⟩ := h
  rfl

theorem kind (h : Shows layout faces a x) : a.role.kind = x.face.kind := by
  obtain ⟨n, position, -, print, -, rfl⟩ := h
  have same : n.isSubmenu = x.face.isSubmenu := Face.isSubmenu_eq_of_print_eq print
  unfold Node.addition Face.kind
  rw [← same]
  cases n.isSubmenu <;> rfl

theorem alike (h : Shows layout faces a x) (alike : x.Alike y) : Shows layout faces a y := by
  obtain ⟨n, position, known, print, own, rfl⟩ := h
  refine ⟨n, position, known, print.trans alike.print, own.trans alike.id, ?_⟩
  rw [alike.parent]

end Shows

namespace HostTree.Mirrors

theorem nil : Mirrors layout faces [] [] := ⟨[], List.Perm.refl _, .nil⟩

theorem perm (h : Mirrors layout faces host xs) (perm : xs.Perm ys) : Mirrors layout faces host ys := by
  obtain ⟨order, orders, shows⟩ := h
  obtain ⟨order', shows', orders'⟩ := List.perm_comp_forall₂ (r := flip (Shows layout faces)) perm.symm
    shows.flip
  exact ⟨order', orders'.trans orders, shows'.flip⟩

theorem congr (h : Mirrors layout faces host xs) (alike : List.Forall₂ Place.Alike xs ys) :
    Mirrors layout faces host ys := by
  obtain ⟨order, orders, shows⟩ := h
  refine ⟨order, orders, ?_⟩
  clear orders
  induction shows generalizing ys with
  | nil =>
    cases alike
    exact .nil
  | cons head _ ih =>
    cases alike with
    | cons same rest => exact .cons (head.alike same) (ih rest)

theorem exists_place (h : Mirrors layout faces host xs) (member : a ∈ host) :
    ∃ x ∈ xs, Shows layout faces a x := by
  obtain ⟨order, orders, shows⟩ := h
  replace member := orders.mem_iff.mpr member
  clear orders
  induction shows with
  | nil => simp at member
  | cons head _ ih =>
    rcases List.mem_cons.mp member with rfl | later
    · exact ⟨_, List.mem_cons_self .., head⟩
    · obtain ⟨x, hx, shows⟩ := ih later
      exact ⟨x, List.mem_cons_of_mem _ hx, shows⟩

theorem exists_entry (h : Mirrors layout faces host xs) (member : x ∈ xs) :
    ∃ a ∈ host, Shows layout faces a x := by
  obtain ⟨order, orders, shows⟩ := h
  suffices ∃ a ∈ order, Shows layout faces a x by
    obtain ⟨a, ha, shows⟩ := this
    exact ⟨a, orders.mem_iff.mp ha, shows⟩
  clear orders
  induction shows with
  | nil => simp at member
  | cons head _ ih =>
    rcases List.mem_cons.mp member with rfl | later
    · exact ⟨_, List.mem_cons_self .., head⟩
    · obtain ⟨a, ha, shows⟩ := ih later
      exact ⟨a, List.mem_cons_of_mem _ ha, shows⟩

/-! ### Additions -/

theorem append (h : Mirrors layout faces host xs) (shows : Shows layout faces a x) :
    Mirrors layout faces (host ++ [a]) (xs ++ [x]) := by
  obtain ⟨order, orders, all⟩ := h
  exact ⟨order ++ [a], orders.append_right _, List.rel_append all (.cons shows .nil)⟩

end HostTree.Mirrors

def Adds (layout : Layout) (faces : Set Face) (c : Command) (x : Place) : Prop :=
  ∃ a, c = .add a ∧ Shows layout faces a x

/-- Additions are in order for new places that are chained below what the host shows. -/
theorem HostTree.Mirrors.adds {batch : List Command} {above : List (Option RemoteId)}
    (h : Mirrors layout faces host xs) (batches : List.Forall₂ (Adds layout faces) batch ys)
    (chained : Chained above ys)
    (known : ∀ p, some p ∈ above → ∃ x ∈ xs, x.face.isSubmenu = true ∧ x.id = p)
    (distinct : ((xs ++ ys).map (·.id)).Nodup) (set : ∀ y ∈ ys, y.id.isSet = true) :
    host.AdmitsAll batch ∧ Mirrors layout faces (host.applyAll batch) (xs ++ ys) := by
  induction batches generalizing host xs above with
  | nil => exact ⟨trivial, by simpa using h⟩
  | @cons c y batch ys first batches ih =>
    obtain ⟨a, rfl, shows⟩ := first
    have next := h.append shows
    rw [List.append_cons] at distinct ⊢
    have admitted : host.Admits (.add a) := by
      refine ⟨by rw [shows.id]; exact set y (List.mem_cons_self ..), ?_, ?_⟩
      · intro b hb same
        obtain ⟨x, hx, shows'⟩ := h.exists_place hb
        rw [List.map_append, List.map_append, List.append_assoc] at distinct
        refine (List.nodup_append.mp distinct).2.2 x.id (List.mem_map_of_mem hx) y.id (by simp) ?_
        rw [← shows'.id, same, shows.id]
      · intro p parent
        rw [shows.parent] at parent
        obtain ⟨x, hx, kind, own⟩ := known p (parent ▸ chained.1)
        obtain ⟨b, hb, shows'⟩ := h.exists_entry hx
        refine ⟨b, hb, shows'.id.trans own, ?_⟩
        rw [shows'.kind, Face.kind, kind, if_pos rfl]
    have known' : ∀ p, some p ∈ (if y.face.isSubmenu then some y.id :: above else above) →
        ∃ x ∈ xs ++ [y], x.face.isSubmenu = true ∧ x.id = p := by
      intro p member
      have old (member : some p ∈ above) : ∃ x ∈ xs ++ [y], x.face.isSubmenu = true ∧ x.id = p := by
        obtain ⟨x, hx, here⟩ := known p member
        exact ⟨x, List.mem_append_left _ hx, here⟩
      by_cases kind : y.face.isSubmenu = true
      · rw [if_pos kind] at member
        rcases List.mem_cons.mp member with own | member
        · exact ⟨y, by simp, kind, (Option.some.inj own).symm⟩
        · exact old member
      · rw [if_neg kind] at member
        exact old member
    have rest := ih next chained.2 known' distinct fun z hz => set z (List.mem_cons_of_mem _ hz)
    exact ⟨⟨admitted, rest.1⟩, rest.2⟩

/-! ### The additions of a level -/

theorem adds_place {n : Node} {parent : Option RemoteId} (position : Nat) (known : n.face ∈ faces) :
    Adds layout faces (.add (n.addition parent position layout)) (n.place parent) :=
  ⟨_, rfl, n, position, known, rfl, rfl, rfl⟩

mutual

theorem Node.adds_addsBelow : (n : Node) → (∀ m ∈ Menu.walk n.children, m.face ∈ faces) →
    List.Forall₂ (Adds layout faces) (n.addsBelow layout) (Menu.places (some n.remoteId) n.children)
  | ⟨_, children, _, _, remoteId⟩, known => by
    rw [Node.addsBelow]
    exact Menu.adds_addsFrom remoteId 0 children known

theorem Menu.adds_addsFrom (parent : RemoteId) (position : Nat) : (menu : Menu) →
    (∀ m ∈ menu.walk, m.face ∈ faces) →
    List.Forall₂ (Adds layout faces) (menu.addsFrom layout parent position) (menu.places (some parent))
  | [], _ => by
    rw [Menu.addsFrom, Menu.places_nil]
    exact .nil
  | n :: ns, known => by
    have own : ∀ m ∈ n :: Menu.walk n.children, m.face ∈ faces := by
      intro m hm
      refine known m ?_
      rw [Menu.walk, Node.walk_eq]
      exact List.mem_append_left _ hm
    have rest := Menu.adds_addsFrom parent (position + 1) ns fun m hm => known m (by
      rw [Menu.walk]
      exact List.mem_append_right _ hm)
    rw [Menu.addsFrom, Menu.places_cons, Node.places_eq, List.cons_append]
    refine .cons (adds_place position (own n (List.mem_cons_self ..))) ?_
    exact List.rel_append (Node.adds_addsBelow n fun m hm => own m (List.mem_cons_of_mem _ hm)) rest

end

theorem adds_adds {level : Menu} {parent : Option RemoteId} {added : List Nat}
    (known : ∀ n ∈ added.filterMap (level[·]?), n.face ∈ faces) :
    List.Forall₂ (Adds layout faces) (Command.adds layout parent level added)
      ((added.filterMap (level[·]?)).map (Node.place parent)) := by
  induction added with
  | nil => exact .nil
  | cons j added ih =>
    rw [Command.adds] at ih ⊢
    cases h : level[j]? with
    | none =>
      rw [List.filterMap_cons_none h] at known ⊢
      rw [List.filterMap_cons_none (by rw [h]; rfl)]
      exact ih known
    | some n =>
      rw [List.filterMap_cons_some h] at known ⊢
      rw [List.filterMap_cons_some (by rw [h]; rfl)]
      refine .cons (adds_place j (known n (List.mem_cons_self ..))) ?_
      exact ih fun m hm => known m (List.mem_cons_of_mem _ hm)

theorem adds_nestedAdds {level : Menu} {added : List Nat}
    (known : ∀ n ∈ added.filterMap (level[·]?), ∀ m ∈ Menu.walk n.children, m.face ∈ faces) :
    List.Forall₂ (Adds layout faces) (Command.nestedAdds layout level added)
      ((added.filterMap (level[·]?)).flatMap fun n => Menu.places (some n.remoteId) n.children) := by
  induction added with
  | nil => exact .nil
  | cons j added ih =>
    rw [Command.nestedAdds] at ih ⊢
    rw [List.flatMap_cons]
    cases h : level[j]? with
    | none =>
      rw [List.filterMap_cons_none h] at known ⊢
      exact ih known
    | some n =>
      rw [List.filterMap_cons_some h] at known ⊢
      rw [List.flatMap_cons]
      refine List.rel_append (n.adds_addsBelow (known n (List.mem_cons_self ..))) ?_
      exact ih fun m hm => known m (List.mem_cons_of_mem _ hm)

/-! ### Outlines -/

/-- What tells an entry of the host apart: its id, the entry above it and its kind. -/
def Addition.outline (a : Addition) : RemoteId × Option RemoteId × EntryKind :=
  (a.id, a.parent, a.role.kind)

def Place.outline (x : Place) : RemoteId × Option RemoteId × EntryKind := (x.id, x.parent, x.face.kind)

def Menu.outline (menu : Menu) : List (RemoteId × Option RemoteId × EntryKind) :=
  (menu.places none).map Place.outline

/-- Whether the host shows entries with the outlines of some places and nothing else, in any order. -/
def HostTree.Outlined (host : HostTree) (xs : List Place) : Prop :=
  (host.map Addition.outline).Perm (xs.map Place.outline)

instance : Decidable (host.Outlined xs) := inferInstanceAs (Decidable (List.Perm _ _))

theorem Shows.outline (h : Shows layout faces a x) : a.outline = x.outline := by
  rw [Addition.outline, Place.outline, h.id, h.parent, h.kind]

theorem Place.Alike.outline (h : x.Alike y) : x.outline = y.outline := by
  rw [Place.outline, Place.outline, h.id, h.parent, Face.kind, Face.kind, Face.isSubmenu_eq_of_print_eq h.print]

theorem HostTree.Mirrors.outline_perm (h : Mirrors layout faces host xs) :
    (host.map Addition.outline).Perm (xs.map Place.outline) := by
  obtain ⟨order, orders, shows⟩ := h
  refine (orders.map _).symm.trans (List.Perm.of_eq ?_)
  clear orders
  induction shows with
  | nil => rfl
  | cons head _ ih => rw [List.map_cons, List.map_cons, ih, head.outline]

namespace HostTree.Outlined

theorem perm (h : host.Outlined xs) (perm : xs.Perm ys) : host.Outlined ys := h.trans (perm.map _)

theorem congr (h : host.Outlined xs) (alike : List.Forall₂ Place.Alike xs ys) : host.Outlined ys := by
  refine h.trans (List.Perm.of_eq ?_)
  clear h
  induction alike with
  | nil => rfl
  | cons head _ ih => rw [List.map_cons, List.map_cons, ih, head.outline]

theorem length_eq (h : host.Outlined xs) : host.length = xs.length := by
  have same := List.Perm.length_eq h
  rwa [List.length_map, List.length_map] at same

theorem exists_place (h : host.Outlined xs) (member : a ∈ host) : ∃ x ∈ xs, x.outline = a.outline :=
  List.mem_map.mp (h.mem_iff.mp (List.mem_map_of_mem member))

theorem exists_entry (h : host.Outlined xs) (member : x ∈ xs) : ∃ a ∈ host, a.outline = x.outline :=
  List.mem_map.mp (h.mem_iff.mpr (List.mem_map_of_mem member))

theorem adds {batch : List Command} (h : host.Outlined xs)
    (batches : List.Forall₂ (Adds layout faces) batch ys) : (host.applyAll batch).Outlined (xs ++ ys) := by
  induction batches generalizing host xs with
  | nil => rwa [List.append_nil]
  | @cons c y batch ys first batches ih =>
    obtain ⟨a, rfl, shows⟩ := first
    have next : (host.apply (.add a)).Outlined (xs ++ [y]) := by
      rw [Outlined, apply, List.map_append, List.map_append, List.map_singleton, List.map_singleton, shows.outline]
      exact h.append_right _
    rw [List.append_cons]
    exact ih next

end HostTree.Outlined

/-! ### Deletions -/

/-- From a place in a list that is closed upwards, no way up leaves the list. -/
theorem HostTree.Outlined.not_leadsTo {top : RemoteId} (h : host.Outlined (xs ++ ys)) (grounded : Grounded xs)
    (apart : ∀ x ∈ xs, ∀ y ∈ ys, x.id ≠ y.id) (off : ∀ x ∈ xs, x.id ≠ top) (steps : Nat) :
    ∀ x ∈ xs, host.leadsTo top steps x.id = false := by
  induction steps with
  | zero =>
    intro x hx
    exact decide_eq_false (off x hx)
  | succ steps ih =>
    intro x hx
    rw [leadsTo, decide_eq_false (off x hx), Bool.false_or, List.any_eq_false]
    intro a ha leads
    obtain ⟨own, up⟩ := Bool.and_eq_true_iff.mp leads
    obtain ⟨p, parent, further⟩ := (Option.any_eq_true _ _).mp up
    obtain ⟨z, hz, outline⟩ := h.exists_place ha
    have same : z.id = x.id := (congrArg Prod.fst outline).trans (of_decide_eq_true own)
    have hz : z ∈ xs := (List.mem_append.mp hz).resolve_right fun below => apart x hx z below same.symm
    have parent : z.parent = some p := (congrArg (·.2.1) outline).trans parent
    obtain ⟨y, hy, -, hp⟩ := grounded z hz p parent
    have none := ih y hy
    rw [hp, further] at none
    cases none

/-- From a place in a list that is chained below `top`, the way up comes to it. -/
theorem HostTree.Outlined.leadsTo {above : List (Option RemoteId)} (h : host.Outlined xs)
    (top : RemoteId) (steps : Nat) (sub : ys ⊆ xs) (chained : Chained above ys)
    (up : ∀ p ∈ above, ∃ q, p = some q ∧ host.leadsTo top steps q = true) :
    ∀ y ∈ ys, host.leadsTo top (steps + ys.length) y.id = true := by
  induction ys generalizing above steps with
  | nil => simp
  | cons y ys ih =>
    have first : host.leadsTo top (steps + 1) y.id = true := by
      obtain ⟨a, ha, outline⟩ := h.exists_entry (sub (List.mem_cons_self ..))
      obtain ⟨q, parent, leads⟩ := up _ chained.1
      have same : a.id = y.id := congrArg Prod.fst outline
      rw [← same]
      exact leadsTo_of_parent ha ((congrArg (·.2.1) outline).trans parent) leads
    have up' : ∀ p ∈ (if y.face.isSubmenu then some y.id :: above else above),
        ∃ q, p = some q ∧ host.leadsTo top (steps + 1) q = true := by
      intro p member
      have old (member : p ∈ above) : ∃ q, p = some q ∧ host.leadsTo top (steps + 1) q = true := by
        obtain ⟨q, own, leads⟩ := up p member
        exact ⟨q, own, leadsTo_succ leads⟩
      split at member
      · rcases List.mem_cons.mp member with own | member
        · exact ⟨y.id, own, first⟩
        · exact old member
      · exact old member
    have rest := ih (steps + 1) (fun z hz => sub (List.mem_cons_of_mem _ hz)) chained.2 up'
    intro z hz
    rw [List.length_cons]
    rcases List.mem_cons.mp hz with rfl | later
    · exact leadsTo_mono (by omega) first
    · exact leadsTo_mono (by omega) (rest z later)

/-- Just the places of a node itself and of what is below it lead up to it. -/
theorem HostTree.Outlined.filter_leadsTo {n : Node} {parent : Option RemoteId}
    (h : host.Outlined (xs ++ n.places parent)) (grounded : Grounded xs)
    (apart : ∀ x ∈ xs, ∀ y ∈ n.places parent, x.id ≠ y.id) :
    (xs ++ n.places parent).filter (fun x => !host.leadsTo n.remoteId host.length x.id) = xs := by
  rw [Node.places_eq] at h apart ⊢
  have stays : ∀ x ∈ xs, host.leadsTo n.remoteId host.length x.id = false :=
    h.not_leadsTo grounded apart (fun x hx => apart x hx _ (List.mem_cons_self ..)) host.length
  have goes : ∀ y ∈ n.place parent :: Menu.places (some n.remoteId) n.children,
      host.leadsTo n.remoteId host.length y.id = true := by
    intro y hy
    rcases List.mem_cons.mp hy with rfl | below
    · exact leadsTo_self _
    · have chained : Chained [some n.remoteId] (Menu.places (some n.remoteId) n.children) :=
        Menu.chained_places (List.mem_singleton_self _) _
      have leads := h.leadsTo n.remoteId 0 (by intro z hz; simp [hz]) chained
        (by simp [leadsTo_self]) y below
      refine leadsTo_mono ?_ leads
      rw [h.length_eq]
      simp
      omega
  rw [List.filter_append, List.filter_eq_self.mpr, List.filter_eq_nil_iff.mpr, List.append_nil]
  · intro y hy
    simp [goes y hy]
  · intro x hx
    simp [stays x hx]

theorem HostTree.Outlined.delete {n : Node} {parent : Option RemoteId} (kind : EntryKind)
    (h : host.Outlined (xs ++ n.places parent)) (grounded : Grounded xs)
    (apart : ∀ x ∈ xs, ∀ y ∈ n.places parent, x.id ≠ y.id) :
    (host.apply (.delete kind n.remoteId)).Outlined xs := by
  let stands (outline : RemoteId × Option RemoteId × EntryKind) : Bool :=
    !host.leadsTo n.remoteId host.length outline.1
  have filtered := h.filter stands
  rw [List.filter_map, List.filter_map] at filtered
  have left : List.filter (stands ∘ Place.outline) (xs ++ n.places parent) = xs :=
    h.filter_leadsTo grounded apart
  rwa [left] at filtered

/-- The deletions of the last nodes of a menu, with ids of their own, take them off with all that is below. -/
theorem HostTree.Outlined.deletes {nodes : List Node} {parent : Option RemoteId}
    (h : host.Outlined (xs ++ Menu.places parent nodes))
    (grounded : ∀ left, left <:+ nodes → Grounded (xs ++ Menu.places parent left))
    (distinct : (Menu.ids nodes).Nodup) (apart : ∀ x ∈ xs, x.id ∉ Menu.ids nodes) :
    (host.applyAll (Command.deletes nodes)).Outlined xs := by
  induction nodes generalizing host with
  | nil => simpa [Command.deletes] using h
  | cons n nodes ih =>
    rw [Menu.ids_cons] at distinct apart
    have swap : (xs ++ Menu.places parent (n :: nodes)).Perm
        ((xs ++ Menu.places parent nodes) ++ n.places parent) := by
      rw [Menu.places_cons, List.append_assoc]
      exact List.perm_append_comm.append_left _
    have own {y : Place} (hy : y ∈ n.places parent) : y.id ∈ n.ids := by
      rw [← Node.map_id_places parent]
      exact List.mem_map_of_mem hy
    have next := (h.perm swap).delete n.kind (grounded nodes (List.suffix_cons ..)) fun x hx y hy same => by
      rcases List.mem_append.mp hx with around | beside
      · exact apart x around (List.mem_append_left _ (same ▸ own hy))
      · refine (List.nodup_append.mp distinct).2.2 _ (own hy) x.id ?_ same.symm
        rw [← Menu.map_id_places parent]
        exact List.mem_map_of_mem beside
    exact ih next (fun left suffix => grounded left (suffix.trans (List.suffix_cons ..)))
      (List.nodup_append.mp distinct).2.1 fun x hx gone => apart x hx (List.mem_append_right _ gone)

/-- The deletion of a node is in order and takes off the node and what is below it. -/
theorem HostTree.Mirrors.delete {n : Node} {parent : Option RemoteId}
    (h : Mirrors layout faces host (xs ++ n.places parent)) (grounded : Grounded xs)
    (distinct : ((xs ++ n.places parent).map (·.id)).Nodup) :
    host.Admits (.delete n.kind n.remoteId) ∧
      Mirrors layout faces (host.apply (.delete n.kind n.remoteId)) xs := by
  constructor
  · rw [Node.places_eq] at h
    obtain ⟨b, hb, shows⟩ := h.exists_entry (x := n.place parent) (by simp)
    exact ⟨b, hb, shows.id, shows.kind⟩
  · rw [List.map_append] at distinct
    have outlined : host.Outlined (xs ++ n.places parent) := h.outline_perm
    have left := outlined.filter_leadsTo grounded fun x hx y hy =>
      (List.nodup_append.mp distinct).2.2 _ (List.mem_map_of_mem hx) _ (List.mem_map_of_mem hy)
    obtain ⟨order, orders, shows⟩ := h
    let stands (id : RemoteId) : Bool := !host.leadsTo n.remoteId host.length id
    have filtered := List.rel_filter (R := Shows layout faces) (p := fun a => stands a.id)
      (q := fun x => stands x.id) (fun a x shows => iff_of_eq (by simp only [shows.id])) shows
    rw [left] at filtered
    exact ⟨order.filter fun a => stands a.id, orders.filter _, filtered⟩

/-- The deletions of the last nodes of a menu are in order, one after another, where what else there
is makes a menu with any of them. -/
theorem HostTree.Mirrors.deletes {nodes : List Node} {parent : Option RemoteId}
    (h : Mirrors layout faces host (xs ++ Menu.places parent nodes))
    (grounded : ∀ left, left <:+ nodes → Grounded (xs ++ Menu.places parent left))
    (distinct : ((xs ++ Menu.places parent nodes).map (·.id)).Nodup) :
    host.AdmitsAll (Command.deletes nodes) ∧
      Mirrors layout faces (host.applyAll (Command.deletes nodes)) xs := by
  induction nodes generalizing host with
  | nil => exact ⟨trivial, by simpa [Command.deletes] using h⟩
  | cons n nodes ih =>
    have swap : (xs ++ Menu.places parent (n :: nodes)).Perm
        ((xs ++ Menu.places parent nodes) ++ n.places parent) := by
      rw [Menu.places_cons, List.append_assoc]
      exact List.perm_append_comm.append_left _
    have distinct' := (swap.map (·.id)).nodup_iff.mp distinct
    have ⟨admitted, next⟩ := (h.perm swap).delete (grounded nodes (List.suffix_cons ..)) distinct'
    rw [List.map_append] at distinct'
    have rest := ih next (fun left suffix => grounded left (suffix.trans (List.suffix_cons ..)))
      (List.nodup_append.mp distinct').1
    exact ⟨⟨admitted, rest.1⟩, rest.2⟩

end

end RemoteMenu
