import RemoteMenu.Proofs.Update.Comparisons
import RemoteMenu.Proofs.Update.Ids

/-!
# What the levels of an update send

The loads of an update have one deletion for each node that has to go, and one addition for each node of the subtrees
that come; these carry the ids that the supply hands out next (`Menu.serves_agenda`). What is sent is made of these
loads, and only additions below rejected ones are left out of it (`Answered`).
-/

namespace RemoteMenu

open Engine

/-! ### Nodes with fresh ids -/

theorem Menu.length_walk (menu : Menu) : menu.walk.length = (menu.map (·.walk.length)).sum := by
  rw [Menu.walk_eq_flatMap, List.length_flatMap]

theorem Menu.length_ids (menu : Menu) : menu.ids.length = menu.walk.length := by rw [Menu.ids, List.length_map]

namespace Matching.Fits

variable {old new : Menu} {m : Matching}

/-- Settling ids leaves the subtrees as large as they are. -/
theorem length_walk_plan (fits : m.Fits (old.map Node.contentKey) (new.map Node.contentKey)) (ids : IdSupply)
    (j : Nat) : ((m.plan ids old new).new[j]?).map (·.walk.length) = (new[j]?).map (·.walk.length) := by
  have length : (m.plan ids old new).new.length = new.length := by
    rw [Matching.plan, List.length_map, fits.length_seats]
  cases hn : new[j]? with
  | none =>
    rw [List.getElem?_eq_none_iff] at hn
    rw [List.getElem?_eq_none (length.trans_le hn)]
  | some n =>
    rcases fits.seat_at ids hn with ⟨i, o, -, -, -, seat⟩ | ⟨-, k, seat⟩
    · rw [Matching.getElem?_plan seat]
      simp [Node.walk_eq]
    · obtain ⟨-, -, faces, -⟩ := n.withFreshIds_spec (ids.skip k)
      have same := congrArg List.length faces
      rw [List.length_map, List.length_map] at same
      rw [Matching.getElem?_plan seat, Option.map_some, Option.map_some, same]

/-- The nodes that come are those that ids are drawn for. -/
theorem length_fresh (fits : m.Fits (old.map Node.contentKey) (new.map Node.contentKey)) (ids : IdSupply) :
    (freshNodes (m.seats ids old new)).length = (m.added.filterMap (new[·]?)).length ∧
    Menu.freshCount m.newStates new = (Menu.walk (m.added.filterMap (new[·]?))).length := by
  have sizes : (freshNodes (m.seats ids old new)).map (·.walk.length) =
      (m.added.filterMap (new[·]?)).map (·.walk.length) := by
    rw [← fits.fresh_eq ids, List.map_filterMap, List.map_filterMap]
    exact List.filterMap_congr fun j _ => fits.length_walk_plan ids j
  constructor
  · have same := congrArg List.length sizes
    rwa [List.length_map, List.length_map] at same
  · have drawn := congrArg List.length (fits.ids_freshNodes ids)
    rw [Menu.length_ids, List.length_map, List.length_range, Menu.length_walk, sizes, ← Menu.length_walk] at drawn
    exact drawn.symm

end Matching.Fits

/-! ### Loads and comparisons -/

/-- How many nodes there are in the subtrees that come. -/
def Comparison.incoming (cs : List Comparison) : Nat := (cs.map (·.added.walk.length)).sum

theorem Comparison.incoming_append (cs cs' : List Comparison) : incoming (cs ++ cs') = incoming cs + incoming cs' := by
  rw [incoming, List.map_append, List.sum_append]
  rfl

def Load.addedIds (l : Load) : List RemoteId := Command.addedIds (l.main ++ l.nested)

/-- What the agenda of some comparisons has, where the supply of ids stands somewhere. -/
structure Served (cs : List Comparison) (start : IdSupply) (agenda : List Load × IdSupply) : Prop where
  deletes : (agenda.1.map (·.deletes.length)).sum = (cs.map (·.removed.length)).sum
  main : (agenda.1.map (·.main.length)).sum = (cs.map (·.added.length)).sum
  kinds : ∀ l ∈ agenda.1, (∀ c ∈ l.deletes, c.isAdd = false) ∧ ∀ c ∈ l.main ++ l.nested, c.isAdd = true
  ids : (agenda.1.flatMap Load.addedIds).Perm ((List.range (Comparison.incoming cs)).map start.nth)
  supply : agenda.2 = start.skip (Comparison.incoming cs)

namespace Served

variable {cs cs' : List Comparison} {ids ids' ids'' : IdSupply} {loads loads' : List Load}

theorem nil (ids : IdSupply) : Served [] ids ([], ids) := ⟨rfl, rfl, nofun, List.Perm.refl _, rfl⟩

/-- Where there is nothing on either side, nothing is to be done. -/
theorem empty_iff : Served (Comparison.walk ⟨[], []⟩) ids (loads, ids') ↔ Served [] ids (loads, ids') := by
  have none : Comparison.walk ⟨[], []⟩ = [⟨[], []⟩] := by
    rw [Comparison.walk_eq]
    rfl
  rw [none]
  constructor
  · rintro ⟨deletes, main, kinds, perm, supply⟩
    exact ⟨deletes, main, kinds, perm, supply⟩
  · rintro ⟨deletes, main, kinds, perm, supply⟩
    exact ⟨deletes, main, kinds, perm, supply⟩

theorem append (h : Served cs ids (loads, ids')) (h' : Served cs' ids' (loads', ids'')) :
    Served (cs ++ cs') ids (loads ++ loads', ids'') := by
  have next : ids' = ids.skip (Comparison.incoming cs) := h.supply
  refine ⟨?_, ?_, List.forall_mem_append.mpr ⟨h.kinds, h'.kinds⟩, ?_, ?_⟩
  · simp only [List.map_append, List.sum_append]
    exact congrArg₂ _ h.deletes h'.deletes
  · simp only [List.map_append, List.sum_append]
    exact congrArg₂ _ h.main h'.main
  · have later := h'.ids
    rw [next] at later
    simp only [List.flatMap_append]
    rw [Comparison.incoming_append, List.range_add, List.map_append, List.map_map]
    refine h.ids.append (later.trans (List.Perm.of_eq (List.map_congr_left fun k _ => ?_)))
    rw [IdSupply.nth_skip, Function.comp_apply]
  · rw [h'.supply, next, Comparison.incoming_append, IdSupply.skip_add]

end Served

/-- Whether an agenda serves the comparisons of a level that is to become `new`. -/
def Agenda.Serves (new : Menu) (agenda : Agenda) : Prop :=
  ∀ old parent ids, Served (Comparison.walk ⟨old, new⟩) ids (agenda old parent ids)

section
variable {layout : Layout} {old new : Menu} {m : Matching} {agendas : List Agenda}

theorem all_isAdd_of_adds {layout : Layout} {faces : Set Face} {batch : List Command} {xs : List Place}
    (h : List.Forall₂ (Adds layout faces) batch xs) : ∀ c ∈ batch, c.isAdd = true := by
  induction h with
  | nil => simp
  | cons first _ ih =>
    obtain ⟨a, rfl, -⟩ := first
    exact List.forall_mem_cons.mpr ⟨rfl, ih⟩

/-- The additions of a level carry the ids of its fresh nodes. -/
theorem Matching.Fits.addedIds_load (fits : m.Fits (old.map Node.contentKey) (new.map Node.contentKey)) (ids : IdSupply)
    (layout : Layout) (parent : Option RemoteId) :
    (Load.addedIds ((m.plan ids old new).load layout parent)).Perm (Menu.ids (freshNodes (m.seats ids old new))) := by
  obtain ⟨main, nested⟩ := fits.adds_fresh ids layout parent
  have rows := ids_rows parent (m.seats ids old new)
  rw [List.map_append, ← addedIds_of_adds main, ← addedIds_of_adds nested] at rows
  rw [Load.addedIds, Command.addedIds, List.filter_append, List.map_append]
  exact rows

/-- The load of a level serves its comparison. -/
theorem served_load (found : Matching.ofMenus old new = some m) (parent : Option RemoteId) (ids : IdSupply) :
    Served [⟨old, new⟩] ids
      ([(m.plan ids old new).load layout parent], ids.skip (Menu.freshCount m.newStates new)) := by
  have fits := Matching.fits_of_ofKeys found
  have matching : Comparison.matching ⟨old, new⟩ = m := Comparison.matching_of_found found
  have gone : (m.plan ids old new).removed = Comparison.removed ⟨old, new⟩ := by
    rw [Comparison.removed, matching]
    rfl
  have come : m.added.filterMap (new[·]?) = Comparison.added ⟨old, new⟩ := by
    rw [Comparison.added, matching]
  obtain ⟨count, drawn⟩ := fits.length_fresh ids
  rw [come] at count drawn
  obtain ⟨main, nested⟩ := fits.adds_fresh ids layout parent
  refine ⟨?_, ?_, ?_, ?_, ?_⟩
  · simp only [LevelPlan.load, Command.deletes, gone, List.map_cons, List.map_nil, List.length_map]
  · have length := main.length_eq
    rw [List.length_map, count] at length
    exact congrArg (· + 0) length
  · refine List.forall_mem_singleton.mpr ⟨?_, ?_⟩
    · intro c hc
      obtain ⟨n, -, rfl⟩ := List.mem_map.mp hc
      rfl
    · exact List.forall_mem_append.mpr ⟨all_isAdd_of_adds main, all_isAdd_of_adds nested⟩
  · have rows := fits.addedIds_load ids layout parent
    rw [fits.ids_freshNodes, drawn] at rows
    rw [List.flatMap_cons, List.flatMap_nil, List.append_nil]
    exact rows
  · rw [drawn]
    rfl

theorem serves_agendaBelow (found : Matching.ofMenus old new = some m) (below : ∀ (j : Nat) (n : Node),
    new[j]? = some n → ∃ agenda, agendas[j]? = some agenda ∧ Agenda.Serves n.children agenda)
    {pairs : List (Nat × Nat)} (sub : pairs ⊆ m.pairs) (ids : IdSupply) :
    Served ((Comparison.belowPairs ⟨old, new⟩ pairs).flatMap Comparison.walk) ids
      (agendaBelow agendas old pairs ids) := by
  induction pairs generalizing ids with
  | nil => exact .nil ids
  | cons p pairs ih =>
    obtain ⟨i, j⟩ := p
    obtain ⟨o, n, ho, hn, -⟩ := (Matching.fits_of_ofKeys found).inside (sub (List.mem_cons_self ..))
    obtain ⟨agenda, there, serves⟩ := below j n hn
    have others := ih (fun p hp => sub (List.mem_cons_of_mem _ hp)) (agenda o.children (some o.remoteId) ids).2
    have here := serves o.children (some o.remoteId) ids
    rw [Comparison.belowPairs_cons pairs ho hn, List.flatMap_append, agendaBelow_cons pairs ho there]
    refine Served.append ?_ others
    by_cases some : Comparison.HasBelow (o, n) = true
    · rw [if_pos some, List.flatMap_cons, List.flatMap_nil, List.append_nil]
      exact here
    · rw [if_neg some]
      obtain ⟨noOld, noNew⟩ : o.children = [] ∧ n.children = [] := by
        simpa [Comparison.hasBelow_iff] using some
      rw [noOld, noNew] at here
      rw [noOld]
      exact Served.empty_iff.mp here

theorem serves_agendaWith (below : ∀ (j : Nat) (n : Node), new[j]? = some n →
    ∃ agenda, agendas[j]? = some agenda ∧ Agenda.Serves n.children agenda) :
    Agenda.Serves new (agendaWith layout agendas new) := by
  intro old parent ids
  rw [agendaWith]
  cases found : Matching.ofMenus old new with
  | none =>
    obtain ⟨noOld, noNew⟩ := Matching.ofKeys_eq_none found
    rw [List.map_eq_nil_iff.mp noOld, List.map_eq_nil_iff.mp noNew]
    exact Served.empty_iff.mpr (.nil ids)
  | some m =>
    have inner := serves_agendaBelow found below (List.Subset.refl _) (ids.skip (Menu.freshCount m.newStates new))
    rw [Comparison.walk_eq, Comparison.below, Comparison.matching_of_found found]
    exact (served_load found parent ids).append inner

end

/-- The agenda of an update has a command for each node that goes or comes, and draws the ids for these in their
order. -/
theorem Menu.serves_agenda (layout : Layout) (new : Menu) : Agenda.Serves new (new.agenda layout) :=
  Menu.agenda_induction (fun _ _ below => serves_agendaWith below) new

theorem Job.served (job : Job) (current : Menu) (ids : IdSupply) :
    Served (Comparison.walk ⟨current, job.target⟩) ids (job.agenda current ids) :=
  Menu.serves_agenda _ job.target current none ids

/-! ### What is sent -/

namespace Load

theorem mem_sent {batch : List Command} {accepted : Bool} {b : List Command × Bool} (h : b ∈ sent batch accepted) :
    b = (batch, accepted) ∧ batch ≠ [] := by
  unfold sent at h
  split at h
  · cases h
  · next some => exact ⟨List.mem_singleton.mp h, some⟩

theorem sum_sent {f : List Command → Nat} (none : f [] = 0) (batch : List Command) (accepted : Bool) :
    ((sent batch accepted).map fun b => f b.1).sum = f batch := by
  unfold sent
  split
  · next empty => rw [empty, none, List.map_nil, List.sum_nil]
  · rw [List.map_cons, List.map_nil, List.sum_cons, List.sum_nil, Nat.add_zero]

theorem sum_log {f : List Command → Nat} (none : f [] = 0) (l : Load) (deleted created nested : Bool) :
    ((l.log deleted created nested).map fun b => f b.1).sum =
      f l.deletes + f l.main + if l.main ≠ [] ∧ created = false then 0 else f l.nested := by
  rw [log, List.map_append, List.map_append, List.sum_append, List.sum_append, sum_sent none, sum_sent none]
  split
  · rw [List.map_nil, List.sum_nil]
  · rw [sum_sent none]

/-- Additions of new nodes go out whatever becomes of the rest. -/
theorem main_sublist_log (l : Load) (deleted created nested : Bool) :
    ([l.main].filter (!·.isEmpty)).Sublist ((l.log deleted created nested).map Prod.fst) := by
  rw [log, List.map_append, List.map_append, map_fst_sent, map_fst_sent]
  exact (List.sublist_append_right _ _).trans (List.sublist_append_left _ _)

end Load

namespace Answered

variable {loads : List Load} {log : List (List Command × Bool)}

/-- Each batch that is sent is a part of a load, and has something in it. -/
theorem exists_load (h : Answered loads log) {b : List Command × Bool} (member : b ∈ log) :
    b.1 ≠ [] ∧ ∃ l ∈ loads, b.1 = l.deletes ∨ b.1 = l.main ∨ b.1 = l.nested := by
  induction h with
  | done => cases member
  | level l deleted created nested _ ih =>
    rcases List.mem_append.mp member with here | later
    · have parts : b ∈ Load.sent l.deletes deleted ∨ b ∈ Load.sent l.main created ∨ b ∈ Load.sent l.nested nested := by
        unfold Load.log at here
        split at here <;> simp only [List.mem_append, List.not_mem_nil, or_false] at here <;> tauto
      rcases parts with part | part | part
      · obtain ⟨rfl, some⟩ := Load.mem_sent part
        exact ⟨some, l, List.mem_cons_self .., .inl rfl⟩
      · obtain ⟨rfl, some⟩ := Load.mem_sent part
        exact ⟨some, l, List.mem_cons_self .., .inr (.inl rfl)⟩
      · obtain ⟨rfl, some⟩ := Load.mem_sent part
        exact ⟨some, l, List.mem_cons_self .., .inr (.inr rfl)⟩
    · obtain ⟨some, l', among, same⟩ := ih later
      exact ⟨some, l', List.mem_cons_of_mem _ among, same⟩

theorem mains_sublist (h : Answered loads log) :
    ((loads.map Load.main).filter (!·.isEmpty)).Sublist (log.map Prod.fst) := by
  induction h with
  | done => exact List.Sublist.refl _
  | level l deleted created nested _ ih =>
    rw [List.map_cons, List.map_append, ← List.singleton_append, List.filter_append]
    exact (l.main_sublist_log deleted created nested).append ih

/-- All deletions are sent. -/
theorem deletions (h : Answered loads log)
    (kinds : ∀ l ∈ loads, (∀ c ∈ l.deletes, c.isAdd = false) ∧ ∀ c ∈ l.main ++ l.nested, c.isAdd = true) :
    (log.map fun b => b.1.countP (!·.isAdd)).sum = (loads.map (·.deletes.length)).sum := by
  induction h with
  | done => rfl
  | level l deleted created nested _ ih =>
    obtain ⟨own, others⟩ := List.forall_mem_cons.mp kinds
    obtain ⟨main, below⟩ := List.forall_mem_append.mp own.2
    have all : l.deletes.countP (!·.isAdd) = l.deletes.length := by
      rw [List.countP_eq_length]
      simpa using own.1
    have none {batch : List Command} (adds : ∀ c ∈ batch, c.isAdd = true) : batch.countP (!·.isAdd) = 0 := by
      rw [List.countP_eq_zero]
      simpa using adds
    rw [List.map_append, List.sum_append, Load.sum_log rfl, ih others, all, none main, none below, ite_self,
      List.map_cons, List.sum_cons]
    rfl

/-- All commands are sent where every batch is accepted. -/
theorem commands (h : Answered loads log) (accepted : ∀ b ∈ log, b.2 = true)
    (kinds : ∀ l ∈ loads, (∀ c ∈ l.deletes, c.isAdd = false) ∧ ∀ c ∈ l.main ++ l.nested, c.isAdd = true) :
    (log.map fun b => b.1.length).sum =
      (loads.map (·.deletes.length)).sum + (loads.flatMap Load.addedIds).length := by
  induction h with
  | done => rfl
  | level l deleted created nested _ ih =>
    obtain ⟨here, later⟩ := List.forall_mem_append.mp accepted
    obtain ⟨own, others⟩ := List.forall_mem_cons.mp kinds
    have whole : ¬ (l.main ≠ [] ∧ created = false) := by
      rintro ⟨some, rfl⟩
      have rejected : (l.main, false) ∈ l.log deleted false nested := by simp [Load.log, Load.sent, some]
      exact Bool.false_ne_true (here _ rejected)
    have adds : l.addedIds.length = l.main.length + l.nested.length := by
      rw [Load.addedIds, Command.addedIds, List.filter_eq_self.mpr own.2, List.length_map, List.length_append]
    rw [List.map_append, List.sum_append, Load.sum_log rfl, if_neg whole, ih later others, List.map_cons, List.sum_cons,
      List.flatMap_cons, List.length_append, adds]
    omega

end Answered

namespace Served

variable {cs : List Comparison} {start : IdSupply} {agenda : List Load × IdSupply} {log : List (List Command × Bool)}

/-- What is sent of a batch is all of one kind. -/
theorem uniform (h : Served cs start agenda) (answered : Answered agenda.1 log) {b : List Command × Bool}
    (member : b ∈ log) : b.1 ≠ [] ∧ ((∀ c ∈ b.1, c.isAdd = false) ∨ ∀ c ∈ b.1, c.isAdd = true) := by
  obtain ⟨some, l, among, part⟩ := answered.exists_load member
  obtain ⟨deletes, adds⟩ := h.kinds l among
  obtain ⟨main, nested⟩ := List.forall_mem_append.mp adds
  refine ⟨some, ?_⟩
  rcases part with part | part | part
  · exact .inl (part ▸ deletes)
  · exact .inr (part ▸ main)
  · exact .inr (part ▸ nested)

/-- All deletions are sent, whatever is rejected. -/
theorem deletions (h : Served cs start agenda) (answered : Answered agenda.1 log) :
    (log.map fun b => b.1.countP (!·.isAdd)).sum = (cs.map (·.removed.length)).sum :=
  (answered.deletions h.kinds).trans h.deletes

/-- Where nothing is rejected, there is a command for each node that goes or comes. -/
theorem commands (h : Served cs start agenda) (answered : Answered agenda.1 log) (accepted : ∀ b ∈ log, b.2 = true) :
    (log.map fun b => b.1.length).sum = (cs.map (·.removed.length)).sum + Comparison.incoming cs := by
  have drawn := h.ids.length_eq
  rw [List.length_map, List.length_range] at drawn
  rw [answered.commands accepted h.kinds, h.deletes, drawn]

/-- What is added has ids that were drawn. -/
theorem drawn (h : Served cs start agenda) (answered : Answered agenda.1 log) {b : List Command × Bool}
    (member : b ∈ log) {c : Command} (inside : c ∈ b.1) (adds : c.isAdd = true) :
    ∃ k < Comparison.incoming cs, start.nth k = c.target := by
  obtain ⟨-, l, among, part⟩ := answered.exists_load member
  have own : c ∈ l.main ++ l.nested := by
    rcases part with part | part | part
    · rw [part] at inside
      rw [(h.kinds l among).1 c inside] at adds
      cases adds
    · exact List.mem_append_left _ (part ▸ inside)
    · exact List.mem_append_right _ (part ▸ inside)
  have among : c.target ∈ agenda.1.flatMap Load.addedIds :=
    List.mem_flatMap.mpr ⟨l, among, List.mem_map.mpr ⟨c, List.mem_filter.mpr ⟨own, adds⟩, rfl⟩⟩
  obtain ⟨k, less, same⟩ := List.mem_map.mp (h.ids.mem_iff.mp among)
  exact ⟨k, List.mem_range.mp less, same⟩

end Served

end RemoteMenu
