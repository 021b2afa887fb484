import RemoteMenu.Proofs.Manager.History
import RemoteMenu.Proofs.Update.Agreement

/-!
# The ids of a target

The nodes of a target hold ids that nobody looks at: a kept node takes over that of its partner, what is
new draws fresh ones all the way down, and what is below a kept node is not looked at before its own
level is settled. So the update to a target is the update to the same menu without ids
(`Menu.reconcile_unsetIds`), and of targets that differ in nothing but ids nobody can tell which one an
operation has (`Watch.run_of_unsetIds_eq`).
-/

namespace RemoteMenu

/-! ### Menus without ids -/

mutual

def Node.unsetIds : Node → Node
  | ⟨entry, children, emptySubmenu, disambiguator, _⟩ =>
    ⟨entry, Menu.unsetIds children, emptySubmenu, disambiguator, .unset⟩

def Menu.unsetIds : Menu → Menu
  | [] => []
  | n :: ns => n.unsetIds :: Menu.unsetIds ns

end

@[simp] theorem Menu.unsetIds_nil : Menu.unsetIds [] = [] := by rw [Menu.unsetIds]

@[simp] theorem Menu.unsetIds_cons (n : Node) (ns : Menu) :
    Menu.unsetIds (n :: ns) = n.unsetIds :: Menu.unsetIds ns := by
  rw [Menu.unsetIds]

theorem Menu.unsetIds_eq_map (menu : Menu) : menu.unsetIds = menu.map Node.unsetIds := by
  induction menu with
  | nil => simp
  | cons n ns ih => rw [Menu.unsetIds_cons, ih, List.map_cons]

@[simp] theorem Menu.isEmpty_unsetIds (menu : Menu) : menu.unsetIds.isEmpty = menu.isEmpty := by
  cases menu <;> simp

theorem Node.unsetIds_eq (n : Node) :
    n.unsetIds = { n with children := Menu.unsetIds n.children, remoteId := .unset } := by
  cases n
  rw [Node.unsetIds]

@[simp] theorem Node.entry_unsetIds (n : Node) : n.unsetIds.entry = n.entry := by rw [unsetIds_eq]

@[simp] theorem Node.children_unsetIds (n : Node) : n.unsetIds.children = Menu.unsetIds n.children := by
  rw [unsetIds_eq]

@[simp] theorem Node.isSubmenu_unsetIds (n : Node) : n.unsetIds.isSubmenu = n.isSubmenu := by
  rw [unsetIds_eq, Node.isSubmenu, Node.isSubmenu, Menu.isEmpty_unsetIds]

@[simp] theorem Node.contentKey_unsetIds (n : Node) : n.unsetIds.contentKey = n.contentKey := by
  simp only [Node.contentKey, Node.fingerprint, Node.entry_unsetIds, Node.isSubmenu_unsetIds]

theorem Menu.keys_unsetIds (menu : Menu) :
    menu.unsetIds.map Node.contentKey = menu.map Node.contentKey := by
  rw [Menu.unsetIds_eq_map, List.map_map]
  exact List.map_congr_left fun n _ => n.contentKey_unsetIds

mutual

theorem Node.walk_unsetIds : (n : Node) → n.unsetIds.walk = n.walk.map Node.unsetIds
  | ⟨entry, children, emptySubmenu, disambiguator, remoteId⟩ => by
    rw [Node.walk_eq, Node.walk_eq, List.map_cons, Node.children_unsetIds, Menu.walk_unsetIds children]

theorem Menu.walk_unsetIds : (menu : Menu) → menu.unsetIds.walk = menu.walk.map Node.unsetIds
  | [] => by simp [Menu.walk]
  | n :: ns => by
    rw [Menu.unsetIds_cons, Menu.walk, Menu.walk, List.map_append, n.walk_unsetIds, Menu.walk_unsetIds ns]

end

theorem Menu.artworks_unsetIds (menu : Menu) :
    menu.unsetIds.walk.flatMap Node.artworks = menu.walk.flatMap Node.artworks := by
  rw [Menu.walk_unsetIds, List.flatMap_map]
  refine List.flatMap_congr fun n _ => ?_
  rw [Node.artworks, Node.artworks, Node.entry_unsetIds]

mutual

/-- Fresh ids do not depend on those that they replace. -/
theorem Node.withFreshIds_unsetIds (ids : IdSupply) : (n : Node) →
    n.unsetIds.withFreshIds ids = n.withFreshIds ids
  | ⟨entry, children, emptySubmenu, disambiguator, remoteId⟩ => by
    simp only [Node.unsetIds, Node.withFreshIds, Menu.withFreshIds_unsetIds _ children]

theorem Menu.withFreshIds_unsetIds (ids : IdSupply) : (menu : Menu) →
    menu.unsetIds.withFreshIds ids = menu.withFreshIds ids
  | [] => by rw [Menu.unsetIds]
  | n :: ns => by
    simp only [Menu.unsetIds, Menu.withFreshIds, n.withFreshIds_unsetIds ids,
      Menu.withFreshIds_unsetIds _ ns]

end

theorem Menu.freshCount_unsetIds (states : List MatchState) (menu : Menu) :
    Menu.freshCount states menu.unsetIds = Menu.freshCount states menu := by
  induction menu generalizing states with
  | nil => rw [Menu.unsetIds_nil]
  | cons n ns ih =>
    rw [Menu.unsetIds_cons]
    cases states with
    | nil => rfl
    | cons s states =>
      cases s <;> simp [Menu.freshCount, ih, Node.walk_unsetIds]

mutual

theorem Node.unsetIds_disambiguate : (n : Node) → n.disambiguate.unsetIds = n.unsetIds.disambiguate
  | ⟨entry, children, emptySubmenu, disambiguator, remoteId⟩ => by
    rw [Node.disambiguate, Node.unsetIds, Node.unsetIds, Node.disambiguate,
      Menu.unsetIds_disambiguateAfter [] children]

theorem Menu.unsetIds_disambiguateAfter (earlier : List String) : (menu : Menu) →
    (Menu.disambiguateAfter earlier menu).unsetIds = Menu.disambiguateAfter earlier menu.unsetIds
  | [] => by rw [Menu.unsetIds_nil, Menu.disambiguateAfter, Menu.unsetIds_nil]
  | n :: ns => by
    rw [Menu.disambiguateAfter, Menu.unsetIds_cons, Menu.unsetIds_cons, Menu.disambiguateAfter,
      Menu.unsetIds_disambiguateAfter (n.entry.title :: earlier) ns, Node.entry_unsetIds,
      ← n.unsetIds_disambiguate, Node.unsetIds_eq, Node.unsetIds_eq n.disambiguate]

end

/-- Numbering the titles of a target has nothing to do with its ids. -/
theorem Settings.unsetIds_named (settings : Settings) (target : Menu) :
    (settings.named target).unsetIds = settings.named target.unsetIds := by
  unfold Settings.named
  split
  · exact target.unsetIds_disambiguateAfter []
  · rfl

/-! ### The plan of a level -/

/-- A seat whose node holds no ids below it, unless they are fresh. -/
def Seat.unsetBelow (s : Seat) : Seat :=
  match s.partner with
  | some _ => { s with node.children := Menu.unsetIds s.node.children }
  | none => s

theorem Menu.seats_unsetIds (ids : IdSupply) (partners : List (Option Node)) (new : Menu) :
    Menu.seats ids partners new.unsetIds =
      ((Menu.seats ids partners new).1.map Seat.unsetBelow, (Menu.seats ids partners new).2) := by
  induction new generalizing ids partners with
  | nil => cases partners with
    | nil => simp [Menu.seats]
    | cons p ps => cases p <;> simp [Menu.seats]
  | cons n ns ih =>
    cases partners with
    | nil => simp [Menu.seats]
    | cons p ps =>
      cases p with
      | none =>
        simp only [Menu.unsetIds_cons, Menu.seats, Node.withFreshIds_unsetIds, ih]
        rfl
      | some old =>
        simp only [Menu.unsetIds_cons, Menu.seats, ih, Node.unsetIds_eq]
        rfl

theorem Seat.artworks_unsetBelow (s : Seat) :
    s.unsetBelow.node.walk.flatMap Node.artworks = s.node.walk.flatMap Node.artworks := by
  obtain ⟨partner, node⟩ := s
  cases partner with
  | none => rfl
  | some old =>
    rw [Node.walk_eq, Node.walk_eq node, List.flatMap_cons, List.flatMap_cons]
    exact congrArg₂ _ rfl (Menu.artworks_unsetIds node.children)

/-- What the nodes of a seat with or without ids below them show the host is the same. -/
theorem Seat.shown_unsetBelow (adds : AddOutcome) (s : Seat) :
    s.unsetBelow.shown adds = s.shown adds := by
  obtain ⟨partner, node⟩ := s
  cases partner with
  | none => rfl
  | some old =>
    simp [Seat.shown, Seat.unsetBelow, Node.setChildren, Node.isSubmenu]

/-- Plans of which nothing that differs is ever looked at. -/
structure LevelPlan.Alike (p q : LevelPlan) : Prop where
  old : p.old = q.old
  matching : p.matching = q.matching
  pairs : p.pairs = q.pairs
  artworks : p.new.fileArtworks = q.new.fileArtworks
  /-- The nodes to add are the same. -/
  fresh : ∀ j ∈ q.added, p.new[j]? = q.new[j]?
  committed : ∀ removedOk adds, p.committed removedOk adds = q.committed removedOk adds
  /-- The ways into the kept nodes are the same. -/
  into : ∀ j : Nat, p.new[j]?.map (fun n : Node => (n.remoteId, n.children.isEmpty)) =
    q.new[j]?.map fun n : Node => (n.remoteId, n.children.isEmpty)

namespace LevelPlan.Alike

variable {p q : LevelPlan}

theorem removed (h : p.Alike q) : p.removed = q.removed := by
  rw [LevelPlan.removed, LevelPlan.removed, h.old, h.matching]

theorem added (h : p.Alike q) : p.added = q.added := by
  rw [LevelPlan.added, LevelPlan.added, h.matching]

theorem adds (h : p.Alike q) (layout : Layout) (parent : Option RemoteId) :
    Command.adds layout parent p.new q.added = Command.adds layout parent q.new q.added := by
  refine List.filterMap_congr fun j hj => ?_
  rw [h.fresh j hj]

theorem nestedAdds (h : p.Alike q) (layout : Layout) :
    Command.nestedAdds layout p.new q.added = Command.nestedAdds layout q.new q.added := by
  refine List.flatMap_congr fun j hj => ?_
  rw [h.fresh j hj]

/-- The batches of alike plans and their records are the same. -/
theorem applyPlan_eq (h : p.Alike q) (setup : Setup) (path : Path) :
    applyPlan setup path p = applyPlan setup path q := by
  have sent (parent : Option RemoteId) :
      Engine.sendAdds setup.settings.defaultLayout parent p =
        Engine.sendAdds setup.settings.defaultLayout parent q := by
    simp only [Engine.sendAdds, h.added, h.adds, h.nestedAdds]
  have fetched : Engine.prefetch p.new = Engine.prefetch q.new := by
    rw [Engine.prefetch, Engine.prefetch, h.artworks]
  simp only [applyPlan, h.pairs, h.removed, h.added, fetched, sent, h.committed]

/-- The ways on from alike plans are the same. -/
theorem descend_eq (h : p.Alike q) (descents : List Descent) (path : Path) (pairs : List (Nat × Nat)) :
    descend p descents path pairs = descend q descents path pairs := by
  induction pairs with
  | nil => rfl
  | cons pair pairs ih =>
    obtain ⟨i, j⟩ := pair
    have into := h.into j
    rw [descend, descend, ih, h.old]
    refine bind_congr fun _ => ?_
    cases here : p.new[j]? with
    | none =>
      rw [here, Option.map_none, eq_comm, Option.map_eq_none_iff] at into
      rw [into]
    | some n =>
      rw [here, Option.map_some, eq_comm, Option.map_eq_some_iff] at into
      obtain ⟨k, there, same⟩ := into
      obtain ⟨id, empty⟩ := Prod.mk.inj same
      rw [there]
      cases q.old[i]? <;> cases descents[j]? <;> simp only [id, empty]

end LevelPlan.Alike

namespace Matching

variable {m : Matching} {old new : Menu}

theorem Fits.unsetIds (fits : m.Fits (old.map Node.contentKey) (new.map Node.contentKey)) :
    m.Fits (old.map Node.contentKey) (new.unsetIds.map Node.contentKey) := by
  rwa [Menu.keys_unsetIds]

theorem Fits.partner_eq_none (fits : m.Fits (old.map Node.contentKey) (new.map Node.contentKey)) {ids : IdSupply}
    {j : Nat} {s : Seat} (here : (m.seats ids old new)[j]? = some s) (added : j ∈ m.added) : s.partner = none := by
  have state := (fits.partner_seat here).2
  rw [Matching.added, MatchState.indices_eq_filter, List.mem_filter] at added
  have fresh : m.newStates[j]? = some .added := of_decide_eq_true added.2
  cases partner : s.partner with
  | none => rfl
  | some k =>
    rw [fresh, partner] at state
    cases state

/-- Targets with and without ids have alike plans. -/
theorem Fits.alike_unsetIds (fits : m.Fits (old.map Node.contentKey) (new.map Node.contentKey))
    (ids : IdSupply) : (m.plan ids old new.unsetIds).Alike (m.plan ids old new) := by
  have seats : m.seats ids old new.unsetIds = (m.seats ids old new).map Seat.unsetBelow := by
    rw [Matching.seats, Menu.seats_unsetIds]
    rfl
  have nodes : (m.plan ids old new.unsetIds).new =
      (m.seats ids old new).map fun s => s.unsetBelow.node := by
    rw [Matching.plan, seats, List.map_map]
    rfl
  refine ⟨rfl, rfl, rfl, ?_, ?_, ?_, ?_⟩
  · rw [Menu.fileArtworks, Menu.fileArtworks]
    refine congrArg (fun as : List Artwork => firstOfName [] (as.filter (!·.isStatic))) ?_
    rw [nodes, Matching.plan, Menu.walk_eq_flatMap, Menu.walk_eq_flatMap, List.flatMap_map,
      List.flatMap_map, List.flatMap_assoc, List.flatMap_assoc]
    exact List.flatMap_congr fun s _ => s.artworks_unsetBelow
  · intro j added
    have bound : j < (m.seats ids old new).length := by
      rw [fits.length_seats]
      have inside := fits.new_perm.mem_iff.mp (List.mem_append_right _ added)
      simpa using inside
    have here := List.getElem?_eq_getElem bound
    have alone := fits.partner_eq_none here added
    rw [nodes, List.getElem?_map, m.getElem?_plan here, here, Option.map_some, Seat.unsetBelow, alone]
  · intro removedOk adds
    rw [fits.unsetIds.committed_eq, fits.committed_eq, seats, List.filterMap_map]
    refine congrArg (· ++ _) (List.filterMap_congr fun s _ => ?_)
    exact s.shown_unsetBelow adds
  · intro j
    rw [nodes, Matching.plan, List.getElem?_map, List.getElem?_map, Option.map_map, Option.map_map]
    refine congrArg (Option.map · _) (funext fun s => ?_)
    obtain ⟨partner, node⟩ := s
    cases partner <;> simp [Seat.unsetBelow]

end Matching

/-! ### Whole updates -/

theorem reconcileWith_unsetIds (setup : Setup) (descents : List Descent) (new : Menu) :
    reconcileWith setup descents new.unsetIds = reconcileWith setup descents new := by
  funext old path
  simp only [reconcileWith, Matching.ofMenus, Menu.keys_unsetIds]
  cases matched : Matching.ofKeys (old.map Node.contentKey) (new.map Node.contentKey) with
  | none => rfl
  | some m =>
    have fits := Matching.fits_of_ofKeys matched
    -- The supply is asked for as many ids, so what is left to compare is the plan that it gives.
    have settled (use : LevelPlan → Engine Bool)
        (same : ∀ ids, use (m.plan ids old new.unsetIds) = use (m.plan ids old new)) :
        (Engine.settleIds old new.unsetIds m >>= use) = Engine.settleIds old new m >>= use := by
      rw [fits.unsetIds.settleIds_eq, fits.settleIds_eq, Menu.freshCount_unsetIds]
      exact congrArg (Engine.ask _ >>= ·) (funext fun ids => same ids)
    simp only
    rw [settled]
    intro ids
    have alike := fits.alike_unsetIds ids
    rw [alike.applyPlan_eq]
    simp only [alike.descend_eq, alike.pairs]

mutual

theorem Node.descent_unsetIds (setup : Setup) : (n : Node) → n.unsetIds.descent setup = n.descent setup
  | ⟨entry, children, emptySubmenu, disambiguator, remoteId⟩ => by
    rw [Node.unsetIds, Node.descent, Node.descent, Menu.descents_unsetIds setup children,
      reconcileWith_unsetIds]

theorem Menu.descents_unsetIds (setup : Setup) : (menu : Menu) →
    Menu.descents setup menu.unsetIds = Menu.descents setup menu
  | [] => by rw [Menu.unsetIds_nil]
  | n :: ns => by
    rw [Menu.unsetIds_cons, Menu.descents, Menu.descents, n.descent_unsetIds setup,
      Menu.descents_unsetIds setup ns]

end

theorem Menu.reconcile_unsetIds (setup : Setup) (target : Menu) :
    Menu.reconcile setup target.unsetIds = Menu.reconcile setup target := by
  rw [Menu.reconcile, Menu.reconcile, Menu.descents_unsetIds, reconcileWith_unsetIds]

theorem Job.run_unsetIds (job : Job) (target : Menu) :
    ({ job with target := target.unsetIds } : Job).run = ({ job with target } : Job).run := by
  simp only [Job.run, Menu.reconcile_unsetIds]

theorem Operation.schedule_of_unsetIds_eq {target target' : Menu} (same : target.unsetIds = target'.unsetIds)
    (job : Job) (current : Menu) (ids : IdSupply) :
    schedule { job with target } current ids = schedule { job with target := target' } current ids := by
  rw [schedule, schedule, ← job.run_unsetIds target, ← job.run_unsetIds target', same]

namespace Watch

/-- The ids of a target do not matter. Two operations whose targets differ in nothing else go through the
same states, ask for the same with every single inquiry, tell those who stop them the same and end the same,
with the same menu, the same counts and the same supply, however they are answered and whenever they are
asked to stop. Also a manager that is given either target schedules the same operation. -/
theorem run_of_unsetIds_eq {target target' : Menu} (same : target.unsetIds = target'.unsetIds) :
    (∀ (job : Job) (current : Menu) (ids : IdSupply) (acts : List Operation.Act),
      (start { job with target } current ids).run acts =
        (start { job with target := target' } current ids).run acts) ∧
    ∀ (m : Manager) (notifies : Bool),
      m.schedule (m.settings.named target) notifies = m.schedule (m.settings.named target') notifies := by
  constructor
  · intro job current ids acts
    rw [start, start, Operation.schedule_of_unsetIds_eq same]
  · intro m notifies
    have named : (m.settings.named target).unsetIds = (m.settings.named target').unsetIds := by
      rw [Settings.unsetIds_named, Settings.unsetIds_named, same]
    let job : Job := {
      id := m.past.length + 1
      setup := { settings := m.settings, uploads := m.uploads }
      target := []
      notifies }
    have scheduled := Operation.schedule_of_unsetIds_eq named job m.current m.ids
    rw [Manager.schedule, Manager.schedule]
    exact congrArg (fun op => ({ m with inFlight := some op }, CallResult.scheduled m.past.length)) scheduled

/-- A target without ids, and one with ids of the nodes that are there. -/
theorem run_of_unsetIds_eq_shelf :
    (shelf "Stop").unsetIds = ((shelf "Stop").withFreshIds (.startingAt 7)).1.unsetIds ∧
    ∀ acts, (start shelfJob oldShelf default).run acts =
      (start { shelfJob with target := ((shelf "Stop").withFreshIds (.startingAt 7)).1 } oldShelf default).run
        acts := by
  have same : (shelf "Stop").unsetIds = ((shelf "Stop").withFreshIds (.startingAt 7)).1.unsetIds := rfl
  exact ⟨same, (run_of_unsetIds_eq same).1 shelfJob oldShelf default⟩

end Watch

end RemoteMenu
