import Mathlib.Data.List.Nodup
import RemoteMenu.Menu.IdSupply
import RemoteMenu.Menu.ContentKey

/-!
# The ids of a menu and the ids handed out

`IdSupply.nth` numbers the ids that a supply will hand out. A supply goes through all legal ids before
it comes back to one (`nth_inj`, `skip_legalIds`), and fresh ids reach a subtree in the order in which it
is walked (`Menu.withFreshIds_spec`).
-/

namespace RemoteMenu

/-- How many ids there are to hand out. -/
def legalIds : Nat := 1999999999

namespace IdSupply

def nth (ids : IdSupply) (k : Nat) : RemoteId := (ids.skip k).draw.1

theorem skip_succ (ids : IdSupply) (k : Nat) : ids.skip (k + 1) = (ids.skip k).draw.2 := by
  induction k generalizing ids with
  | zero => rfl
  | succ k ih => rw [skip, ih, skip]

theorem skip_add (ids : IdSupply) (a b : Nat) : ids.skip (a + b) = (ids.skip a).skip b := by
  induction b with
  | zero => rfl
  | succ b ih => rw [← Nat.add_assoc, skip_succ, skip_succ, ih]

@[simp] theorem nth_skip (ids : IdSupply) (a k : Nat) : (ids.skip a).nth k = ids.nth (a + k) := by
  rw [nth, nth, skip_add]

theorem toNat_next_bounds (ids : IdSupply) : 1 ≤ ids.next.toNat ∧ ids.next.toNat ≤ legalIds := by
  have low : 0 < ids.next.toNat := by simpa using UInt32.lt_iff_toNat_lt.mp ids.pos
  have high := UInt32.lt_iff_toNat_lt.mp ids.lt_unset
  have unset : RemoteId.unset.value.toNat = 2000000000 := rfl
  exact ⟨low, by simp only [legalIds]; omega⟩

/-- The step to the next id never leaves the range of a word. -/
theorem toNat_next_add_one (ids : IdSupply) : (ids.next + 1).toNat = ids.next.toNat + 1 := by
  have high := ids.toNat_next_bounds.2
  rw [UInt32.toNat_add]
  simp only [legalIds] at high
  exact Nat.mod_eq_of_lt (by simp; omega)

theorem toNat_next_startingAt (first : UInt32) :
    (startingAt first).next.toNat =
      if 0 < first.toNat ∧ first.toNat < 2000000000 then first.toNat else 1 := by
  have pos : 0 < first ↔ 0 < first.toNat := UInt32.lt_iff_toNat_lt
  have low : first < RemoteId.unset.value ↔ first.toNat < 2000000000 := UInt32.lt_iff_toNat_lt
  unfold startingAt
  simp only [pos, low]
  split
  · rfl
  · rfl

theorem toNat_next_skip (ids : IdSupply) (k : Nat) :
    (ids.skip k).next.toNat = (ids.next.toNat - 1 + k) % legalIds + 1 := by
  have ⟨low, high⟩ := ids.toNat_next_bounds
  induction k with
  | zero =>
    rw [Nat.add_zero, Nat.mod_eq_of_lt (by omega)]
    simp only [skip]
    omega
  | succ k ih =>
    rw [skip_succ, draw, toNat_next_startingAt, toNat_next_add_one, ih]
    have below := Nat.mod_lt (ids.next.toNat - 1 + k) (show 0 < legalIds by decide)
    by_cases last : (ids.next.toNat - 1 + k) % legalIds + 1 + 1 < 2000000000
    · rw [if_pos ⟨Nat.succ_pos _, last⟩]
      simp only [legalIds] at *
      omega
    · rw [if_neg fun inside => last inside.2]
      simp only [legalIds] at *
      omega

/-- Behind the last legal id, a supply is where it was. -/
theorem skip_legalIds (ids : IdSupply) : ids.skip legalIds = ids := by
  have round := ids.toNat_next_skip legalIds
  have ⟨low, high⟩ := ids.toNat_next_bounds
  generalize ids.skip legalIds = after at round
  rw [Nat.add_mod_right, Nat.mod_eq_of_lt (by omega), Nat.sub_add_cancel low] at round
  obtain ⟨next, _, _⟩ := ids
  obtain ⟨next', _, _⟩ := after
  obtain rfl : next' = next := UInt32.toNat_inj.mp round
  rfl

/-- The ids handed out do not repeat before all legal ones were. -/
theorem nth_inj {ids : IdSupply} {j k : Nat} (hj : j < legalIds) (hk : k < legalIds)
    (h : ids.nth j = ids.nth k) : j = k := by
  have same : (ids.skip j).next.toNat = (ids.skip k).next.toNat := by
    simp only [nth, draw, RemoteId.mk.injEq] at h
    rw [h]
  rw [toNat_next_skip, toNat_next_skip] at same
  have ⟨low, high⟩ := ids.toNat_next_bounds
  simp only [legalIds] at *
  omega

theorem isSet_nth (ids : IdSupply) (k : Nat) : (ids.nth k).isSet = true := by
  refine decide_eq_true fun unset => ?_
  have below := (ids.skip k).lt_unset
  rw [← unset] at below
  exact UInt32.lt_irrefl _ below

end IdSupply

/-! ### Walking -/

theorem Menu.walk_append (a b : Menu) : Menu.walk (a ++ b) = a.walk ++ b.walk := by
  induction a with
  | nil => rw [Menu.walk, List.nil_append, List.nil_append]
  | cons n ns ih => rw [List.cons_append, Menu.walk, Menu.walk, ih, List.append_assoc]

theorem Menu.walk_singleton (n : Node) : Menu.walk [n] = n.walk := by
  rw [Menu.walk, Menu.walk, List.append_nil]

theorem Menu.walk_eq_flatMap (menu : Menu) : menu.walk = menu.flatMap Node.walk := by
  induction menu with
  | nil => rw [Menu.walk, List.flatMap_nil]
  | cons n ns ih => rw [Menu.walk, ih, List.flatMap_cons]

theorem Node.mem_walk_self (n : Node) : n ∈ n.walk := by
  rw [Node.walk_eq]
  exact List.mem_cons_self ..

theorem mem_walk_of_mem {n m : Node} {menu : Menu} (hn : n ∈ menu) (hm : m ∈ n.walk) : m ∈ menu.walk := by
  induction menu with
  | nil => simp at hn
  | cons k ns ih =>
    rw [Menu.walk, List.mem_append]
    rcases List.mem_cons.mp hn with rfl | later
    · exact .inl hm
    · exact .inr (ih later)

theorem Menu.mem_walk_of_subset {a b : Menu} (sub : a ⊆ b) {x : Node} (member : x ∈ a.walk) : x ∈ b.walk := by
  rw [Menu.walk_eq_flatMap] at member
  obtain ⟨n, hn, hx⟩ := List.mem_flatMap.mp member
  exact mem_walk_of_mem (sub hn) hx

/-! ### The ids of a menu -/

def Node.ids (n : Node) : List RemoteId := n.walk.map (·.remoteId)

def Menu.ids (menu : Menu) : List RemoteId := menu.walk.map (·.remoteId)

theorem Node.ids_eq (n : Node) : n.ids = n.remoteId :: Menu.ids n.children := by
  rw [Node.ids, Node.walk_eq, List.map_cons, Menu.ids]

theorem Node.remoteId_mem_ids (n : Node) : n.remoteId ∈ n.ids := by
  rw [Node.ids_eq]
  exact List.mem_cons_self ..

theorem Node.ids_children_subset (n : Node) : Menu.ids n.children ⊆ n.ids := by
  rw [Node.ids_eq]
  exact List.subset_cons_self ..

@[simp] theorem Menu.ids_nil : Menu.ids [] = [] := by simp [Menu.ids, Menu.walk]

@[simp] theorem Menu.ids_cons (n : Node) (ns : Menu) : Menu.ids (n :: ns) = n.ids ++ Menu.ids ns := by
  simp [Menu.ids, Menu.walk, Node.ids]

theorem Menu.ids_append (a b : Menu) : Menu.ids (a ++ b) = a.ids ++ b.ids := by
  rw [Menu.ids, Menu.walk_append, List.map_append]
  rfl

theorem Menu.ids_sublist_of_sublist {a b : Menu} (h : a.Sublist b) : a.ids.Sublist b.ids := by
  induction h with
  | slnil => exact List.Sublist.refl _
  | cons n _ ih =>
    rw [Menu.ids_cons]
    exact ih.trans (List.sublist_append_right ..)
  | cons_cons n _ ih =>
    rw [Menu.ids_cons, Menu.ids_cons]
    exact ih.append_left _

theorem Menu.ids_sublist {n : Node} {menu : Menu} (h : n ∈ menu) : n.ids.Sublist menu.ids := by
  induction menu with
  | nil => simp at h
  | cons k ns ih =>
    rw [Menu.ids_cons]
    rcases List.mem_cons.mp h with rfl | later
    · exact List.sublist_append_left ..
    · exact (ih later).trans (List.sublist_append_right ..)

theorem Menu.ids_children_sublist {n : Node} {menu : Menu} (h : n ∈ menu) :
    (Menu.ids n.children).Sublist menu.ids := by
  have all := Menu.ids_sublist h
  rw [Node.ids_eq] at all
  exact (List.sublist_cons_self ..).trans all

theorem Menu.row_sublist (menu : Menu) : (menu.map (·.remoteId)).Sublist menu.ids := by
  induction menu with
  | nil => simp
  | cons n ns ih =>
    rw [Menu.ids_cons, Node.ids_eq, List.map_cons]
    exact (ih.trans (List.sublist_append_right ..)).cons_cons _

/-! ### What a node looks like -/

/-- What the host makes of a node apart from its place: the entry and its kind. -/
structure Face where
  entry : Entry
  isSubmenu : Bool
  deriving Repr, DecidableEq

def Face.print (f : Face) : List UInt8 := f.entry.fingerprint ++ [f.isSubmenu.toUInt8]

def Node.face (n : Node) : Face := ⟨n.entry, n.isSubmenu⟩

def Menu.faces (menu : Menu) : List Face := menu.walk.map Node.face

theorem Face.isSubmenu_eq_of_print_eq {f g : Face} (h : f.print = g.print) :
    f.isSubmenu = g.isSubmenu := by
  have last := (List.append_inj' h rfl).2
  cases hf : f.isSubmenu <;> cases hg : g.isSubmenu <;> simp [hf, hg, Bool.toUInt8] at last ⊢

mutual

theorem Node.faces_disambiguate : (n : Node) → n.disambiguate.walk.map Node.face = n.walk.map Node.face
  | ⟨entry, children, emptySubmenu, disambiguator, remoteId⟩ => by
    obtain ⟨faces, empty⟩ := Menu.faces_disambiguateAfter [] children
    rw [Node.disambiguate, Node.walk_eq, Node.walk_eq, List.map_cons, List.map_cons, faces]
    simp [Node.face, Node.isSubmenu, empty]

theorem Menu.faces_disambiguateAfter (earlier : List String) : (menu : Menu) →
    (Menu.disambiguateAfter earlier menu).walk.map Node.face = menu.walk.map Node.face ∧
    (Menu.disambiguateAfter earlier menu).isEmpty = menu.isEmpty
  | [] => by simp [Menu.disambiguateAfter]
  | n :: ns => by
    have own := Node.faces_disambiguate n
    obtain ⟨rest, -⟩ := Menu.faces_disambiguateAfter (n.entry.title :: earlier) ns
    rw [Node.walk_eq] at own
    rw [Menu.disambiguateAfter, Menu.walk, Menu.walk, List.map_append, List.map_append, rest,
      Node.walk_eq, ← own]
    exact ⟨rfl, rfl⟩

end

theorem Menu.faces_disambiguate (menu : Menu) : menu.disambiguate.faces = menu.faces :=
  (Menu.faces_disambiguateAfter [] menu).1

/-! ### Fresh ids in a subtree -/

mutual

/-- Fresh ids change nothing that a node looks like, and are drawn in the order of the walk. -/
theorem Node.withFreshIds_spec (ids : IdSupply) : (n : Node) →
    (n.withFreshIds ids).2 = ids.skip n.walk.length ∧
    (n.withFreshIds ids).1.ids = (List.range n.walk.length).map ids.nth ∧
    (n.withFreshIds ids).1.walk.map Node.face = n.walk.map Node.face ∧
    (n.withFreshIds ids).1.children.isEmpty = n.children.isEmpty
  | ⟨entry, children, emptySubmenu, disambiguator, remoteId⟩ => by
    obtain ⟨supply, drawn, faces, empty⟩ := Menu.withFreshIds_spec ids.draw.2 children
    have shift : ids.draw.2 = ids.skip 1 := rfl
    refine ⟨?_, ?_, ?_, ?_⟩
    · rw [Node.withFreshIds, Node.walk_eq]
      simp only [supply, List.length_cons]
      rw [shift, ← IdSupply.skip_add, Nat.add_comm]
    · rw [Node.withFreshIds, Node.ids_eq, Node.walk_eq]
      simp only [drawn, List.length_cons, List.range_succ_eq_map, List.map_cons, List.map_map]
      refine congrArg₂ _ rfl (List.map_congr_left fun k _ => ?_)
      rw [shift, IdSupply.nth_skip, Function.comp_apply, Nat.add_comm]
    · rw [Node.withFreshIds, Node.walk_eq, Node.walk_eq]
      simp only [List.map_cons, faces, List.cons.injEq, and_true]
      simp [Node.face, Node.isSubmenu, empty]
    · rw [Node.withFreshIds]
      exact empty

theorem Menu.withFreshIds_spec (ids : IdSupply) : (menu : Menu) →
    (menu.withFreshIds ids).2 = ids.skip menu.walk.length ∧
    (menu.withFreshIds ids).1.ids = (List.range menu.walk.length).map ids.nth ∧
    (menu.withFreshIds ids).1.walk.map Node.face = menu.walk.map Node.face ∧
    (menu.withFreshIds ids).1.isEmpty = menu.isEmpty
  | [] => by simp [Menu.withFreshIds, Menu.walk, Menu.ids, IdSupply.skip]
  | n :: ns => by
    obtain ⟨supply, drawn, faces, _⟩ := Node.withFreshIds_spec ids n
    obtain ⟨supply', drawn', faces', _⟩ := Menu.withFreshIds_spec (n.withFreshIds ids).2 ns
    rw [supply] at supply' drawn' faces'
    refine ⟨?_, ?_, ?_, ?_⟩
    · simp only [Menu.withFreshIds, Menu.walk, supply, supply', List.length_append,
        IdSupply.skip_add]
    · simp only [Menu.withFreshIds, Menu.walk, Menu.ids_cons, supply, drawn, drawn',
        List.length_append, List.range_add, List.map_append, List.map_map]
      refine congrArg₂ _ rfl (List.map_congr_left fun k _ => ?_)
      rw [IdSupply.nth_skip, Function.comp_apply]
    · simp only [Menu.withFreshIds, Menu.walk, supply, List.map_append, faces, faces']
    · simp [Menu.withFreshIds]

end

end RemoteMenu
