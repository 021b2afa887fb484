import RemoteMenu.Proofs.Host.Presenting
import RemoteMenu.Proofs.Host.Row

/-!
# Subtrees on the host

The nodes at some indices of a level are added in one batch, and all that is below them in another, parents
first. All that an addition says of its place is the id above it and an index. A host that puts every entry below
one that it has already, at its index, or else at the level, refuses none of these additions and comes to have the
subtrees of these nodes (`HostForest.run?_subtrees`).
-/

namespace RemoteMenu

/-- An entry of the host, with the row of entries below it. -/
structure HostEntry where
  addition : Addition
  row : List HostEntry := []
  deriving Repr

abbrev HostForest := List HostEntry

mutual

/-- Adds an entry at its place below one of the host, if the place is there: the submenu that has its parent's id, and
all that is to be in front of it. -/
def HostEntry.grow? (a : Addition) : HostEntry → Option HostEntry
  | ⟨own, row⟩ =>
    if a.parent = some own.id ∧ own.role.kind = .submenu ∧ a.position.toNat ≤ row.length then
      some ⟨own, row.insertIdx a.position.toNat ⟨a, []⟩⟩
    else (HostForest.grow? a row).map (⟨own, ·⟩)

def HostForest.grow? (a : Addition) : HostForest → Option HostForest
  | [] => none
  | e :: es =>
    match e.grow? a with
    | some e => some (e :: es)
    | none => (HostForest.grow? a es).map (e :: ·)

end

mutual

def HostEntry.ids : HostEntry → List RemoteId
  | ⟨own, row⟩ => own.id :: HostForest.ids row

def HostForest.ids : HostForest → List RemoteId
  | [] => []
  | e :: es => e.ids ++ HostForest.ids es

end

namespace HostForest

/-- What has been added at a level, and below what has been added, after one more command. The host puts an entry below
one that was added earlier, or else at the level if it is to be there, and refuses anything else. -/
def step? (parent : Option RemoteId) (forest : HostForest) : Command → Option HostForest
  | .add a =>
    match forest.grow? a with
    | some forest => some forest
    | none => if a.parent = parent then some (forest ++ [⟨a, []⟩]) else none
  | .delete .. => none

def run? (parent : Option RemoteId) (forest : HostForest) : List Command → Option HostForest
  | [] => some forest
  | c :: batch => (forest.step? parent c).bind (run? parent · batch)

end HostForest

/-- Whether an entry of the host shows just what a node says, under its id and its display title. -/
structure Addition.Depicts (layout : Layout) (a : Addition) (n : Node) : Prop extends a.Carries layout n where
  id : a.id = n.remoteId
  title : a.name = n.displayTitle

/-- Whether the rows of a host are the levels of a menu: the entries in the order of the nodes, and below each entry
what is below its node. -/
inductive HostForest.Depicts (layout : Layout) : HostForest → Menu → Prop
  | nothing : Depicts layout [] []
  | entry {own : Addition} {below behind : HostForest} {n : Node} {ns : Menu} (depicts : own.Depicts layout n)
      (inner : Depicts layout below n.children) (rest : Depicts layout behind ns) :
      Depicts layout (⟨own, below⟩ :: behind) (n :: ns)

/-- Whether the indices of all siblings fit into the position of an addition. -/
structure Menu.Narrow (menu : Menu) : Prop where
  top : menu.length < UInt32.size
  below : ∀ n ∈ menu.walk, n.children.length < UInt32.size

theorem Node.depicts_addition (n : Node) (parent : Option RemoteId) (position : Nat) (layout : Layout) :
    (n.addition parent position layout).Depicts layout n where
  id := rfl
  title := rfl
  name := by
    show n.displayTitle = _ ∨ ∃ number : Nat, n.displayTitle = _
    unfold displayTitle
    split
    · exact .inl rfl
    · exact .inr ⟨n.disambiguator.toNat, rfl⟩
  secondaryText := rfl
  tertiaryText := rfl
  icon := rfl
  secondaryIcon := rfl
  role := rfl

theorem Node.kind_addition (n : Node) (parent : Option RemoteId) (position : Nat) (layout : Layout)
    (some : n.children ≠ []) : (n.addition parent position layout).role.kind = .submenu := by
  have kind : n.isSubmenu = true := by
    simp [isSubmenu, some]
  simp [addition, kind, Role.kind]

/-! ### One addition -/

namespace HostForest

theorem ids_eq_flatMap (forest : HostForest) : forest.ids = forest.flatMap HostEntry.ids := by
  induction forest with
  | nil => rw [ids, List.flatMap_nil]
  | cons e es ih => rw [ids, ih, List.flatMap_cons]

theorem ids_append (a b : HostForest) : ids (a ++ b) = a.ids ++ b.ids := by
  rw [ids_eq_flatMap, ids_eq_flatMap, ids_eq_flatMap, List.flatMap_append]

theorem ids_singleton (e : HostEntry) : ids [e] = e.ids := by
  rw [ids, ids, List.append_nil]

theorem ids_insertIdx (forest : HostForest) {i : Nat} (inside : i ≤ forest.length) (a : Addition) :
    (ids (forest.insertIdx i ⟨a, []⟩)).Perm (a.id :: forest.ids) := by
  have perm := (List.perm_insertIdx (⟨a, []⟩ : HostEntry) forest inside).flatMap_right HostEntry.ids
  rwa [← ids_eq_flatMap, ← ids_eq_flatMap, ids, HostEntry.ids, ids] at perm

end HostForest

mutual

/-- An entry that is added goes below one with its parent's id, and its own id is all that is new. -/
theorem HostEntry.grow?_spec {a : Addition} : (e : HostEntry) → {e' : HostEntry} → e.grow? a = some e' →
    (∃ p ∈ e.ids, a.parent = some p) ∧ e'.ids.Perm (a.id :: e.ids)
  | ⟨own, below⟩, e', grown => by
    rw [HostEntry.grow?] at grown
    split at grown
    · next place =>
      obtain ⟨parent, -, inside⟩ := place
      obtain rfl := Option.some.inj grown
      rw [HostEntry.ids, HostEntry.ids]
      refine ⟨⟨own.id, List.mem_cons_self .., parent⟩, ?_⟩
      exact ((HostForest.ids_insertIdx below inside a).cons _).trans (.swap ..)
    · obtain ⟨below', inner, rfl⟩ := Option.map_eq_some_iff.mp grown
      obtain ⟨⟨p, member, parent⟩, perm⟩ := HostForest.grow?_spec below inner
      rw [HostEntry.ids, HostEntry.ids]
      exact ⟨⟨p, List.mem_cons_of_mem _ member, parent⟩, (perm.cons _).trans (.swap ..)⟩

theorem HostForest.grow?_spec {a : Addition} : (forest : HostForest) → {forest' : HostForest} →
    forest.grow? a = some forest' →
    (∃ p ∈ forest.ids, a.parent = some p) ∧ forest'.ids.Perm (a.id :: forest.ids)
  | [], _, grown => by simp [HostForest.grow?] at grown
  | e :: es, _, grown => by
    rw [HostForest.grow?] at grown
    rw [HostForest.ids]
    cases own : e.grow? a with
    | some e' =>
      rw [own] at grown
      obtain rfl := Option.some.inj grown
      obtain ⟨⟨p, member, parent⟩, perm⟩ := HostEntry.grow?_spec e own
      rw [HostForest.ids]
      exact ⟨⟨p, List.mem_append_left _ member, parent⟩, perm.append_right _⟩
    | none =>
      rw [own] at grown
      obtain ⟨es', behind, rfl⟩ := Option.map_eq_some_iff.mp grown
      obtain ⟨⟨p, member, parent⟩, perm⟩ := HostForest.grow?_spec es behind
      rw [HostForest.ids]
      exact ⟨⟨p, List.mem_append_right _ member, parent⟩, (perm.append_left _).trans List.perm_middle⟩

end

section
variable {e e' e'' : HostEntry} {front : HostForest} {a : Addition} {batch : List Command}

theorem HostEntry.grow?_eq_none {p : RemoteId} (parent : a.parent = some p) (apart : p ∉ e.ids) :
    e.grow? a = none := by
  rw [Option.eq_none_iff_forall_ne_some]
  intro e' grown
  obtain ⟨⟨p', member, parent'⟩, -⟩ := HostEntry.grow?_spec e grown
  obtain rfl := Option.some.inj (parent.symm.trans parent')
  exact apart member

/-- An entry that goes below one of a row does not go below those in front of that one. -/
theorem HostForest.grow?_between (grown : e.grow? a = some e') (apart : ∀ id ∈ e.ids, id ∉ front.ids)
    (back : HostForest) : grow? a (front ++ e :: back) = some (front ++ e' :: back) := by
  induction front with
  | nil =>
    rw [List.nil_append, grow?, grown]
    rfl
  | cons x front ih =>
    obtain ⟨⟨p, member, parent⟩, -⟩ := HostEntry.grow?_spec e grown
    simp only [ids, List.mem_append, not_or] at apart
    have here : x.grow? a = none := HostEntry.grow?_eq_none parent (apart p member).1
    have there := ih fun id hid => (apart id hid).2
    rw [List.cons_append, grow?, here, there]
    rfl

/-! ### Additions below an entry -/

/-- Whether the additions of a batch all go below an entry, and what they make of it. -/
inductive HostEntry.Grows : HostEntry → List Command → HostEntry → Prop
  | nothing (e : HostEntry) : Grows e [] e
  | addition {e e' e'' : HostEntry} {a : Addition} {batch : List Command} (grown : e.grow? a = some e')
      (later : Grows e' batch e'') : Grows e (.add a :: batch) e''

namespace HostEntry.Grows

theorem trans {batch' : List Command} (h : Grows e batch e') (later : Grows e' batch' e'') :
    Grows e (batch ++ batch') e'' := by
  induction h with
  | nothing => exact later
  | addition grown _ ih => exact .addition grown (ih later)

theorem ids_subset (h : Grows e batch e') : e.ids ⊆ e'.ids := by
  induction h with
  | nothing => exact List.Subset.refl _
  | addition grown _ ih =>
    obtain ⟨-, perm⟩ := grow?_spec _ grown
    intro id member
    exact ih (perm.mem_iff.mpr (List.mem_cons_of_mem _ member))

/-- What goes below one entry of a row goes below the one above the row as well. -/
theorem under (h : Grows e batch e') (own : Addition) (front back : HostForest)
    (apart : ∀ id ∈ e'.ids, id ≠ own.id ∧ id ∉ front.ids) :
    Grows ⟨own, front ++ e :: back⟩ batch ⟨own, front ++ e' :: back⟩ := by
  induction h with
  | nothing => exact .nothing _
  | @addition e e₁ e' a batch grown later ih =>
    have inside : e.ids ⊆ e'.ids := (addition grown later).ids_subset
    obtain ⟨⟨p, member, parent⟩, -⟩ := grow?_spec e grown
    refine .addition ?_ (ih apart)
    have elsewhere : ¬ a.parent = some own.id := by
      rw [parent, Option.some.injEq]
      exact (apart p (inside member)).1
    have below := HostForest.grow?_between grown (fun id hid => (apart id (inside hid)).2) back
    rw [grow?, if_neg (fun place => elsewhere place.1), below]
    rfl

/-- What goes below one entry of a row is not refused at the level. -/
theorem run? (h : Grows e batch e') (parent : Option RemoteId) (front back : HostForest)
    (apart : ∀ id ∈ e'.ids, id ∉ front.ids) :
    HostForest.run? parent (front ++ e :: back) batch = some (front ++ e' :: back) := by
  induction h with
  | nothing => rfl
  | addition grown later ih =>
    have inside := (addition grown later).ids_subset
    have placed := HostForest.grow?_between grown (fun id hid => apart id (inside hid)) back
    rw [HostForest.run?, HostForest.step?, placed]
    exact ih apart

end HostEntry.Grows

end

/-! ### The subtree of a node -/

theorem HostForest.Depicts.ids_eq {layout : Layout} {forest : HostForest} {menu : Menu}
    (h : Depicts layout forest menu) : forest.ids = menu.ids := by
  induction h with
  | nothing => rw [HostForest.ids, Menu.ids_nil]
  | entry depicts _ _ ihInner ihRest =>
    rw [HostForest.ids, HostEntry.ids, ihInner, ihRest, Menu.ids_cons, Node.ids_eq, depicts.id]

theorem HostForest.Depicts.ids_below {layout : Layout} {row : HostForest} {n : Node}
    (h : Depicts layout row n.children) {own : Addition} (id : own.id = n.remoteId) :
    HostEntry.ids ⟨own, row⟩ = n.ids := by
  rw [HostEntry.ids, h.ids_eq, Node.ids_eq, id]

/-- The addition for the next node of a row goes to the end of what is there of the row. -/
theorem Node.grow?_last (n : Node) (layout : Layout) {own : Addition} {front : HostForest}
    (kind : own.role.kind = .submenu) (small : front.length < UInt32.size) :
    let a := n.addition (some own.id) front.length layout
    HostEntry.grow? a ⟨own, front⟩ = some ⟨own, front ++ [⟨a, []⟩]⟩ := by
  intro a
  have place : a.position.toNat = front.length := UInt32.toNat_ofNat_of_lt' small
  have fits : a.parent = some own.id ∧ own.role.kind = .submenu ∧ a.position.toNat ≤ front.length :=
    ⟨rfl, kind, place.le⟩
  have last := HostRow.insertIdx_length_append front [] (⟨a, []⟩ : HostEntry)
  rw [List.append_nil] at last
  rw [HostEntry.grow?, if_pos fits, place, last]

mutual

/-- The additions for what is below a node go below its entry and make its subtree. -/
theorem Node.grows_below (layout : Layout) : (n : Node) → (own : Addition) → (id : own.id = n.remoteId) →
    (kind : n.children ≠ [] → own.role.kind = .submenu) →
    (narrow : ∀ k ∈ n.walk, k.children.length < UInt32.size) → (distinct : n.ids.Nodup) →
    ∃ row, HostForest.Depicts layout row n.children ∧ HostEntry.Grows ⟨own, []⟩ (n.addsBelow layout) ⟨own, row⟩
  | ⟨entry, children, emptySubmenu, disambiguator, remoteId⟩, own, id, kind, narrow, distinct => by
    rw [Node.walk_eq] at narrow
    rw [Node.ids_eq, ← id] at distinct
    obtain ⟨small, narrow⟩ := List.forall_mem_cons.mp narrow
    rw [Node.addsBelow]
    obtain rfl : own.id = remoteId := id
    exact Menu.grows_row layout children own [] kind (by simpa using small) narrow
      (by simpa [HostForest.ids] using distinct)

/-- Where the row below an entry is finished up to some point, the additions from there on finish it. -/
theorem Menu.grows_row (layout : Layout) : (ns : Menu) → (own : Addition) → (front : HostForest) →
    (kind : ns ≠ [] → own.role.kind = .submenu) → (small : front.length + ns.length < UInt32.size) →
    (narrow : ∀ k ∈ Menu.walk ns, k.children.length < UInt32.size) →
    (distinct : (own.id :: (front.ids ++ Menu.ids ns)).Nodup) →
    ∃ row, HostForest.Depicts layout row ns ∧
      HostEntry.Grows ⟨own, front⟩ (Menu.addsFrom layout own.id front.length ns) ⟨own, front ++ row⟩
  | [], _, _, _, _, _, _ => by
    refine ⟨[], .nothing, ?_⟩
    rw [Menu.addsFrom, List.append_nil]
    exact .nothing _
  | n :: ns, own, front, kind, small, narrow, distinct => by
    have kind : own.role.kind = .submenu := kind (by simp)
    rw [List.length_cons] at small
    rw [Menu.walk] at narrow
    rw [Menu.ids_cons] at distinct
    obtain ⟨narrow, narrowBehind⟩ := List.forall_mem_append.mp narrow
    have first := n.grow?_last layout kind (show front.length < UInt32.size by omega)
    set a := n.addition (some own.id) front.length layout
    have here : n.ids.Nodup := by
      refine List.Sublist.nodup ?_ distinct
      exact .cons _ (.trans (List.sublist_append_left ..) (List.sublist_append_right ..))
    obtain ⟨below, inner, grows⟩ := Node.grows_below layout n a rfl (n.kind_addition _ _ _) narrow here
    have ids : HostEntry.ids ⟨a, below⟩ = n.ids := inner.ids_below rfl
    obtain ⟨behind, rest, later⟩ := Menu.grows_row layout ns own (front ++ [⟨a, below⟩]) (fun _ => kind)
      (by rw [List.length_append, List.length_singleton]; omega) narrowBehind
      (by rwa [HostForest.ids_append, HostForest.ids_singleton, ids, List.append_assoc])
    refine ⟨⟨a, below⟩ :: behind, .entry (n.depicts_addition ..) inner rest, ?_⟩
    rw [Menu.addsFrom]
    refine .addition first (.trans (grows.under own front [] ?_) ?_)
    · rw [ids]
      intro id member
      obtain ⟨other, distinct⟩ := List.nodup_cons.mp distinct
      have apart := (List.nodup_append.mp distinct).2.2
      constructor
      · rintro rfl
        exact other (List.mem_append_right _ (List.mem_append_left _ member))
      · intro earlier
        exact apart id earlier id (List.mem_append_left _ member) rfl
    · rw [List.length_append, List.length_singleton, ← List.append_cons] at later
      exact later

end

/-! ### Nodes of a level -/

/-- Increasing indices choose members of a list in their order, each once. -/
theorem filterMap_getElem?_sublist {α : Type} {indices : List Nat} (rising : indices.Pairwise (· < ·)) (xs : List α) :
    (indices.filterMap (xs[·]?)).Sublist xs := by
  have inside : (indices.filter (· < xs.length)).Sublist (List.range xs.length) := by
    apply List.sublist_of_subperm_of_pairwise (r := (· < ·))
    · apply List.subperm_of_subset (rising.nodup.filter _)
      intro i hi
      simpa using (List.mem_filter.mp hi).2
    · exact rising.filter _
    · exact List.pairwise_lt_range
  have chosen := inside.filterMap (xs[·]?)
  have beyond (i : Nat) (_ : i ∈ indices) : (if decide (i < xs.length) = true then xs[i]? else none) = xs[i]? := by
    by_cases h : i < xs.length
    · simp [h]
    · simp [h]
  rwa [filterMap_range_getElem?, List.filterMap_filter, List.filterMap_congr beyond] at chosen

def Menu.chosen (level : Menu) (added : List Nat) : List (Node × Nat) :=
  added.filterMap (level.zipIdx[·]?)

section
variable {level : Menu} {added : List Nat} {layout : Layout} {parent : Option RemoteId}

theorem Menu.map_fst_chosen : (level.chosen added).map Prod.fst = added.filterMap (level[·]?) := by
  rw [chosen, List.map_filterMap]
  simp [Function.comp_def]

theorem Command.adds_eq_map : Command.adds layout parent level added =
    ((level.chosen added).map fun p => p.1.addition parent p.2 layout).map .add := by
  rw [adds, Menu.chosen, List.map_filterMap, List.map_filterMap]
  simp [Function.comp_def]

theorem Command.nestedAdds_eq_flatMap : Command.nestedAdds layout level added =
    (level.chosen added).flatMap fun p => p.1.addsBelow layout := by
  unfold nestedAdds Menu.chosen
  induction added with
  | nil => rfl
  | cons i added ih =>
    rw [List.flatMap_cons, ih, List.filterMap_cons, List.getElem?_zipIdx]
    cases level[i]? <;> simp

/-- Additions at increasing indices have increasing positions, if the indices fit. -/
theorem Menu.positions_rising (small : level.length < UInt32.size) (rising : added.Pairwise (· < ·)) :
    ((level.chosen added).map fun p => p.1.addition parent p.2 layout).Pairwise (·.position < ·.position) := by
  have chosen : (level.chosen added).Sublist level.zipIdx := filterMap_getElem?_sublist rising _
  have indices : (level.zipIdx.map Prod.snd).Pairwise (· < ·) := by
    rw [List.zipIdx_map_snd]
    exact List.pairwise_lt_range'
  have fits {n : Node} {i : Nat} (member : (n, i) ∈ level.chosen added) : (UInt32.ofNat i).toNat = i := by
    have inside := (List.getElem?_eq_some_iff.mp (List.mk_mem_zipIdx_iff_getElem?.mp (chosen.subset member))).1
    exact UInt32.toNat_ofNat_of_lt' (inside.trans small)
  rw [List.pairwise_map]
  apply ((List.pairwise_map.mp indices).sublist chosen).imp_of_mem
  rintro ⟨n, i⟩ ⟨n', i'⟩ here there before
  show UInt32.ofNat i < UInt32.ofNat i'
  rwa [UInt32.lt_iff_toNat_lt, fits here, fits there]

end

namespace HostForest

variable {parent : Option RemoteId}

/-- Entries without anything below them have no place for one that is to have others in front of it. -/
theorem grow?_leaves (front : List Addition) {a : Addition} (later : 0 < a.position.toNat) :
    grow? a (front.map (⟨·, []⟩)) = none := by
  induction front with
  | nil => rw [List.map_nil, grow?]
  | cons b front ih =>
    have full : ¬ (a.parent = some b.id ∧ b.role.kind = .submenu ∧ a.position.toNat ≤ 0) := by omega
    rw [List.map_cons, grow?, HostEntry.grow?, List.length_nil, if_neg full, grow?, ih]
    rfl

/-- Entries that go to the level follow each other there. -/
theorem run?_leaves {front as : List Addition} (own : ∀ a ∈ as, a.parent = parent)
    (rising : (front ++ as).Pairwise (·.position < ·.position)) :
    run? parent (front.map (⟨·, []⟩)) (as.map .add) = some ((front ++ as).map (⟨·, []⟩)) := by
  induction as generalizing front with
  | nil => simp [run?]
  | cons a as ih =>
    have nowhere : grow? a (front.map (⟨·, []⟩)) = none := by
      cases front with
      | nil => rw [List.map_nil, grow?]
      | cons b front =>
        have later : b.position < a.position := by
          apply (List.pairwise_append.mp rising).2.2
          · exact List.mem_cons_self ..
          · exact List.mem_cons_self ..
        exact grow?_leaves _ (Nat.zero_lt_of_lt (UInt32.lt_iff_toNat_lt.mp later))
    have placed : step? parent (front.map (⟨·, []⟩)) (.add a) = some ((front ++ [a]).map (⟨·, []⟩)) := by
      rw [step?, nowhere, if_pos (own a (List.mem_cons_self ..)), List.map_append]
      rfl
    rw [List.append_cons] at rising ⊢
    rw [List.map_cons, run?, placed]
    exact ih (fun a ha => own a (List.mem_cons_of_mem _ ha)) rising

theorem run?_append (forest : HostForest) (a b : List Command) :
    forest.run? parent (a ++ b) = (forest.run? parent a).bind (run? parent · b) := by
  induction a generalizing forest with
  | nil => rfl
  | cons c a ih =>
    rw [List.cons_append, run?, run?, Option.bind_assoc]
    exact Option.bind_congr fun forest _ => ih forest

/-- Once the subtrees of some nodes of a level are there, and the entries of others with nothing below them, the
additions for what is below those go into their places. -/
theorem run?_nested (layout : Layout) {chosen : List (Node × Nat)} {front : HostForest}
    (distinct : (front.ids ++ Menu.ids (chosen.map Prod.fst)).Nodup)
    (narrow : ∀ k ∈ Menu.walk (chosen.map Prod.fst), k.children.length < UInt32.size) :
    ∃ row, Depicts layout row (chosen.map Prod.fst) ∧
      run? parent (front ++ (chosen.map fun p => p.1.addition parent p.2 layout).map (⟨·, []⟩))
        (chosen.flatMap fun p => p.1.addsBelow layout) = some (front ++ row) := by
  induction chosen generalizing front with
  | nil => exact ⟨[], .nothing, rfl⟩
  | cons p chosen ih =>
    let a := p.1.addition parent p.2 layout
    rw [List.map_cons] at distinct narrow ⊢
    rw [Menu.ids_cons] at distinct
    rw [Menu.walk] at narrow
    obtain ⟨narrow, narrowBehind⟩ := List.forall_mem_append.mp narrow
    obtain ⟨-, others, apart⟩ := List.nodup_append.mp distinct
    obtain ⟨below, inner, grows⟩ := Node.grows_below layout p.1 a rfl (p.1.kind_addition _ _ _) narrow
      (List.nodup_append.mp others).1
    have ids : HostEntry.ids ⟨a, below⟩ = p.1.ids := inner.ids_below rfl
    obtain ⟨behind, rest, later⟩ := @ih (front ++ [⟨a, below⟩])
      (by rwa [ids_append, ids_singleton, ids, List.append_assoc]) narrowBehind
    refine ⟨⟨a, below⟩ :: behind, .entry (p.1.depicts_addition ..) inner rest, ?_⟩
    rw [List.flatMap_cons, run?_append, List.map_cons, List.map_cons, grows.run?]
    · rw [← List.append_cons, ← List.append_cons] at later
      exact later
    · rw [ids]
      intro id member earlier
      exact apart id earlier id (List.mem_append_left _ member) rfl

/-! ### What is created -/

theorem step?_ids {forest forest' : HostForest} {c : Command} (h : forest.step? parent c = some forest') :
    forest'.ids.Perm (c.target :: forest.ids) := by
  cases c with
  | delete => cases h
  | add a =>
    rw [step?] at h
    cases grown : forest.grow? a with
    | some below =>
      rw [grown] at h
      obtain rfl := Option.some.inj h
      exact (grow?_spec forest grown).2
    | none =>
      rw [grown] at h
      obtain ⟨-, created⟩ := Option.ite_none_right_eq_some.mp h
      obtain rfl := Option.some.inj created
      rw [ids_append, ids_singleton, HostEntry.ids, ids]
      exact List.perm_append_comm

/-- A batch that is not refused creates what it names and nothing else. -/
theorem run?_ids {forest forest' : HostForest} {batch : List Command} (h : forest.run? parent batch = some forest') :
    forest'.ids.Perm (batch.map Command.target ++ forest.ids) := by
  induction batch generalizing forest with
  | nil =>
    obtain rfl := Option.some.inj h
    exact .refl _
  | cons c batch ih =>
    rw [run?] at h
    obtain ⟨between, first, later⟩ := Option.bind_eq_some_iff.mp h
    refine (ih later).trans ?_
    rw [List.map_cons, List.cons_append]
    exact ((step?_ids first).append_left _).trans List.perm_middle

/-- The additions for some nodes of a level, in its order, and for what is below them: none is refused, each creates
one of these nodes or of those below them, every one of these is created once, and what there is in the end depicts
them. -/
theorem run?_subtrees {level : Menu} {added : List Nat} (distinct : level.ids.Nodup) (narrow : level.Narrow)
    (rising : added.Pairwise (· < ·)) (parent : Option RemoteId) (layout : Layout) :
    let nodes := added.filterMap (level[·]?)
    let batch := Command.adds layout parent level added ++ Command.nestedAdds layout level added
    (Menu.ids nodes).Nodup ∧ (batch.map Command.target).Perm (Menu.ids nodes) ∧
    ∃ forest, run? parent [] batch = some forest ∧ Depicts layout forest nodes := by
  intro nodes batch
  have within : nodes.Sublist level := filterMap_getElem?_sublist rising level
  have once : (Menu.ids nodes).Nodup := (Menu.ids_sublist_of_sublist within).nodup distinct
  have small : ∀ k ∈ Menu.walk nodes, k.children.length < UInt32.size :=
    fun k hk => narrow.below k (Menu.mem_walk_of_subset within.subset hk)
  have chosen : (level.chosen added).map Prod.fst = nodes := Menu.map_fst_chosen
  have own : ∀ a ∈ (level.chosen added).map fun p => p.1.addition parent p.2 layout, a.parent = parent := by
    intro a member
    obtain ⟨p, -, rfl⟩ := List.mem_map.mp member
    rfl
  have leaves := @run?_leaves parent [] _ own (Menu.positions_rising narrow.top rising)
  obtain ⟨forest, depicts, nested⟩ := @run?_nested parent layout (level.chosen added) []
    (by rwa [ids, List.nil_append, chosen]) (by rwa [chosen])
  rw [chosen] at depicts
  have whole : run? parent [] batch = some forest := by
    rw [run?_append, Command.adds_eq_map, Command.nestedAdds_eq_flatMap]
    rw [List.map_nil, List.nil_append] at leaves
    rw [leaves]
    exact nested
  have created := run?_ids whole
  rw [ids, List.append_nil, depicts.ids_eq] at created
  exact ⟨once, created.symm, forest, whole, depicts⟩

def media : Menu := [
  { entry := { title := "Home" }, remoteId := ⟨1⟩ },
  { entry := { title := "Media", icon := some (.ofIcon "music") }, remoteId := ⟨2⟩, children := [
    { entry := { title := "Radio", voiceCommands := ["radio"] }, remoteId := ⟨3⟩ },
    { entry := { title := "Podcasts", layout := some .tiles }, remoteId := ⟨4⟩, children := [
      { entry := { title := "Latest" }, remoteId := ⟨5⟩ }] },
    { entry := { title := "Radio" }, disambiguator := 2, remoteId := ⟨6⟩ }] },
  { entry := { title := "Nearby" }, emptySubmenu := true, remoteId := ⟨7⟩ }]

/-- Below the level of `media` there are two more, and the ids of the second batch show in which order they come. -/
theorem run?_subtrees_media :
    let nodes := [1, 2].filterMap (media[·]?)
    let batch := Command.adds .list (some ⟨9⟩) media [1, 2] ++ Command.nestedAdds .list media [1, 2]
    media.ids.Nodup ∧ media.Narrow ∧ [1, 2].Pairwise (· < ·) ∧
    batch.map Command.target = [⟨2⟩, ⟨7⟩, ⟨3⟩, ⟨4⟩, ⟨5⟩, ⟨6⟩] ∧
    ∃ forest, run? (some ⟨9⟩) [] batch = some forest ∧ Depicts .list forest nodes := by
  intro nodes batch
  have distinct : media.ids.Nodup := by decide +kernel
  have narrow : media.Narrow := ⟨by decide, by decide +kernel⟩
  have rising : [1, 2].Pairwise (· < ·) := by decide
  obtain ⟨-, -, whole⟩ := run?_subtrees distinct narrow rising (some ⟨9⟩) .list
  exact ⟨distinct, narrow, rising, by decide +kernel, whole⟩

end HostForest

end RemoteMenu
