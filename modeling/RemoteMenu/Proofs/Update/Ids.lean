import RemoteMenu.Proofs.Update.Currency

/-!
# Ids on their way through an update

Ids come into the committed menu from three sides: they are handed on to kept nodes, they stay with nodes that
could not be deleted, and they are drawn for added ones and all that is below these. Wherever an update stands,
no id of the old menu is there twice, and neither is any other one as long as the supply has not come back to
its start; the host is never told twice to add an entry with the same id (`Operation.Moves.identities`).
-/

namespace RemoteMenu

open HostTree Engine

/-! ### The ids of additions -/

def Command.addedIds (batch : List Command) : List RemoteId := (batch.filter Command.isAdd).map Command.target

/-- The ids that entries were to be added with, whatever became of them. -/
def Trace.addedIds (t : Trace) : List RemoteId := t.batches.flatMap fun b => Command.addedIds b.1

@[simp] theorem Command.addedIds_deletes (gone : List Node) : Command.addedIds (Command.deletes gone) = [] := by
  rw [Command.addedIds, Command.deletes, List.filter_map, List.map_map, List.map_eq_nil_iff, List.filter_eq_nil_iff]
  exact fun _ _ => Bool.false_ne_true

theorem addedIds_of_adds {layout : Layout} {faces : Set Face} {batch : List Command} {xs : List Place}
    (h : List.Forall₂ (Adds layout faces) batch xs) : Command.addedIds batch = xs.map (·.id) := by
  induction h with
  | nil => rfl
  | @cons c x batch xs first others ih =>
    obtain ⟨a, rfl, shows⟩ := first
    have own : Command.addedIds (.add a :: batch) = a.id :: Command.addedIds batch := rfl
    rw [own, ih, shows.id, List.map_cons]

theorem target_mem_addedIds {layout : Layout} {faces : Set Face} {batch : List Command} {xs : List Place}
    (h : List.Forall₂ (Adds layout faces) batch xs) {c : Command} (member : c ∈ batch) :
    c.target ∈ Command.addedIds batch := by
  induction h with
  | nil => cases member
  | cons first _ ih =>
    obtain ⟨a, rfl, -⟩ := first
    rcases List.mem_cons.mp member with rfl | later
    · exact List.mem_cons_self ..
    · exact List.mem_cons_of_mem _ (ih later)

theorem any_isAdd_of_adds {layout : Layout} {faces : Set Face} {batch : List Command} {xs : List Place}
    (h : List.Forall₂ (Adds layout faces) batch xs) (some : batch ≠ []) : batch.any Command.isAdd = true := by
  cases h with
  | nil => exact absurd rfl some
  | cons first =>
    obtain ⟨a, rfl, -⟩ := first
    rfl

namespace Trace

@[simp] theorem addedIds_append (s t : Trace) : addedIds (s ++ t) = addedIds s ++ addedIds t := by
  rw [addedIds, batches_append, List.flatMap_append]
  rfl

theorem addedIds_send (t : Trace) (batch : List Command) (accepted : Bool) :
    addedIds (t ++ [⟨.world (.send batch), accepted⟩]) = addedIds t ++ Command.addedIds batch := by
  rw [addedIds_append]
  exact congrArg (addedIds t ++ ·) (List.append_nil _)

/-- How many of the ids that were drawn may have been sent to the host. -/
def spent (t : Trace) : Nat := t.drawn - t.unsent

theorem idle_spec (t : Trace) {e : Exchange} (idle : e.inquiry.Idle) : addedIds (t ++ [e]) = addedIds t ∧
    drawn (t ++ [e]) = drawn t ∧ spent (t ++ [e]) = spent t := by
  have none : addedIds (t ++ [e]) = addedIds t := by rw [addedIds, batches_idle idle, addedIds]
  have same : e.drawn = 0 ∧ e.unsent t.unsent = t.unsent := by
    obtain ⟨inquiry, reply⟩ := e
    cases inquiry with
    | reserve => cases idle
    | world q =>
      cases q with
      | send => cases idle
      | _ => exact ⟨rfl, rfl⟩
    | _ => exact ⟨rfl, rfl⟩
  have drawn : drawn (t ++ [e]) = drawn t := by
    rw [drawn_append]
    exact congrArg (t.drawn + ·) (congrArg (· + 0) same.1)
  refine ⟨none, drawn, ?_⟩
  rw [spent, spent, drawn, unsent_snoc, same.2]

theorem spent_send (t : Trace) (batch : List Command) (accepted : Bool) :
    spent (t ++ [⟨.world (.send batch), accepted⟩]) = if batch.any Command.isAdd then t.drawn else t.spent := by
  rw [spent, drawn_send, unsent_snoc, Exchange.unsent]
  split <;> rfl

theorem spent_reserve (t : Trace) (count : Nat) (ids : IdSupply) : spent (t ++ [⟨.reserve count, ids⟩]) = t.drawn := by
  rw [spent, drawn_reserve, unsent_snoc]
  exact Nat.add_sub_cancel ..

end Trace

/-! ### The ids of a level -/

theorem Menu.ids_perm {a b : Menu} (h : a.Perm b) : a.ids.Perm b.ids := by
  rw [← Menu.map_id_places none, ← Menu.map_id_places none]
  exact (Menu.places_perm none h).map _

theorem Context.ids_plug {fs : Context} (sound : fs.Sound) (level : Menu) :
    (fs.plug level).ids.Perm ((fs.outer none).map (·.id) ++ level.ids) := by
  have places := (Context.places_plug sound level).map (·.id)
  rwa [Menu.map_id_places, Context.places, List.map_append, Menu.map_id_places] at places

theorem Context.subperm_ids_plug {fs : Context} (sound : fs.Sound) {a b : Menu} (h : a.ids.Subperm b.ids) :
    (fs.plug a).ids.Subperm (fs.plug b).ids :=
  (Context.ids_plug sound a).subperm.trans
    (((List.subperm_append_left _).mpr h).trans (Context.ids_plug sound b).symm.subperm)

theorem Context.perm_ids_plug {fs : Context} (sound : fs.Sound) {a b : Menu} {more : List RemoteId}
    (h : a.ids.Perm (b.ids ++ more)) : (fs.plug a).ids.Perm ((fs.plug b).ids ++ more) := by
  refine (Context.ids_plug sound a).trans ((h.append_left _).trans ?_)
  rw [← List.append_assoc]
  exact (Context.ids_plug sound b).symm.append_right _

section
variable {old new : Menu} {m : Matching} {ids : IdSupply}

/-- Kept nodes have the ids of their partners, and so has all that is below them by then. -/
theorem Matching.Fits.ids_keptNodes (fits : m.Fits (old.map Node.contentKey) (new.map Node.contentKey)) (ids : IdSupply) :
    Menu.ids (keptNodes (m.seats ids old new)) = Menu.ids ((m.seats ids old new).filterMap Seat.partner) := by
  have own : ∀ s ∈ m.seats ids old new, ∀ o, s.partner = some o → s.node.remoteId = o.remoteId := by
    intro s hs o partner
    obtain ⟨n, -, ⟨o', -, -, rfl⟩ | ⟨k, rfl⟩⟩ := fits.seat_cases hs
    · obtain rfl := Option.some.inj partner
      rfl
    · cases partner
  rw [keptNodes]
  generalize m.seats ids old new = seats at own
  induction seats with
  | nil => rfl
  | cons s seats ih =>
    have rest := ih fun s' hs' => own s' (List.mem_cons_of_mem _ hs')
    cases partner : s.partner with
    | none =>
      rw [List.filterMap_cons_none partner, List.filterMap_cons_none (by rw [partner]; rfl)]
      exact rest
    | some o =>
      rw [List.filterMap_cons_some partner, List.filterMap_cons_some (by rw [partner]; rfl), Menu.ids_cons,
        Menu.ids_cons, Node.ids_eq, Node.ids_eq, Node.remoteId_setChildren, Node.children_setChildren, rest,
        own s (List.mem_cons_self ..) o partner]

/-- What is recorded of a level has the ids that were there, and those of the fresh nodes that were added. -/
theorem Matching.Fits.ids_committed (fits : m.Fits (old.map Node.contentKey) (new.map Node.contentKey)) (ids : IdSupply)
    {level left : Menu} (parts : level.Perm ((m.seats ids old new).filterMap Seat.partner ++ left)) (adds : AddOutcome) :
    (Menu.ids ((m.seats ids old new).filterMap (Seat.shown adds) ++ left)).Perm
      (level.ids ++ Menu.ids (shownFresh adds (m.seats ids old new))) := by
  have shown := Menu.ids_perm (shown_perm adds (m.seats ids old new))
  have before := Menu.ids_perm parts
  rw [Menu.ids_append, fits.ids_keptNodes] at shown
  rw [Menu.ids_append] at before ⊢
  calc (Menu.ids _ ++ Menu.ids left).Perm ((Menu.ids _ ++ Menu.ids _) ++ Menu.ids left) := shown.append_right _
    _ = Menu.ids _ ++ (Menu.ids _ ++ Menu.ids left) := List.append_assoc ..
    List.Perm _ (Menu.ids _ ++ (Menu.ids left ++ Menu.ids _)) := List.perm_append_comm.append_left _
    _ = (Menu.ids _ ++ Menu.ids left) ++ Menu.ids _ := (List.append_assoc ..).symm
    List.Perm _ (level.ids ++ Menu.ids _) := before.symm.append_right _

/-- The fresh nodes that are shown are some of them, in part perhaps. -/
theorem ids_shownFresh (adds : AddOutcome) (seats : List Seat) :
    ∃ rest, (Menu.ids (shownFresh adds seats) ++ rest).Perm (Menu.ids (freshNodes seats)) := by
  have rows := ids_rows none seats
  have places := (places_shownFresh none adds seats).map (·.id)
  rw [Menu.map_id_places] at places
  rw [List.map_append] at rows
  obtain ⟨created, nested⟩ := adds
  cases created with
  | false => exact ⟨Menu.ids (freshNodes seats), places.append_right _⟩
  | true =>
    cases nested with
    | true =>
      refine ⟨[], ?_⟩
      rw [List.append_nil]
      refine places.trans ?_
      rw [freshPlaces, if_pos rfl, if_pos rfl, List.map_append]
      exact rows
    | false =>
      refine ⟨(belowFresh seats).map (·.id), (places.append_right _).trans ?_⟩
      rw [freshPlaces, if_pos rfl, if_neg Bool.false_ne_true, List.append_nil]
      exact rows

end

/-! ### Fresh ids -/

namespace Round

variable {r : Round} {fs : Context} {new old : Menu} {m : Matching} {ids : IdSupply} {before : List Path} {t : Trace}

/-- The ids of the fresh nodes of a level were the last to be drawn, and none was sent yet. -/
theorem Site.ids_fresh (site : r.Site fs new old m ids before)
    (reserved : r.Reserved t ids (Menu.freshCount m.newStates new)) :
    t.spent + Menu.freshCount m.newStates new = t.drawn ∧ Menu.ids (freshNodes (m.seats ids old new)) =
      (List.range (Menu.freshCount m.newStates new)).map fun j => r.start.nth (t.spent + j) := by
  obtain ⟨k, rfl, total, left⟩ := reserved
  have spent : t.spent = k := by
    rw [Trace.spent, total, left]
    exact Nat.add_sub_cancel ..
  rw [spent]
  refine ⟨total.symm, ?_⟩
  rw [site.fits.ids_freshNodes]
  exact List.map_congr_left fun j _ => IdSupply.nth_skip ..

/-- Whether ids are new to an update after a trace: they were drawn, but are neither in use nor sent yet. -/
def Fresh (r : Round) (t : Trace) (fresh : List RemoteId) : Prop :=
  ∀ id ∈ fresh, id ∉ r.current.ids ∧ ∃ k, t.spent ≤ k ∧ k < t.drawn ∧ id = r.start.nth k

theorem Site.fresh (site : r.Site fs new old m ids before)
    (reserved : r.Reserved t ids (Menu.freshCount m.newStates new)) :
    r.Fresh t (Menu.ids (freshNodes (m.seats ids old new))) := by
  obtain ⟨total, own⟩ := site.ids_fresh reserved
  intro id member
  refine ⟨site.free id member, ?_⟩
  rw [own] at member
  obtain ⟨j, hj, rfl⟩ := List.mem_map.mp member
  have inside := List.mem_range.mp hj
  exact ⟨t.spent + j, Nat.le_add_right .., by omega, rfl⟩

theorem Site.nodup_fresh (site : r.Site fs new old m ids before)
    (reserved : r.Reserved t ids (Menu.freshCount m.newStates new)) (bound : t.drawn ≤ legalIds) :
    (Menu.ids (freshNodes (m.seats ids old new))).Nodup := by
  obtain ⟨total, own⟩ := site.ids_fresh reserved
  rw [own]
  refine List.Nodup.map_on ?_ List.nodup_range
  intro i hi j hj same
  have hi := List.mem_range.mp hi
  have hj := List.mem_range.mp hj
  have sum := IdSupply.nth_inj (by omega) (by omega) same
  omega

/-- The ids of the two batches of additions of a level are those of its fresh nodes. -/
theorem Site.sent_rows (site : r.Site fs new old m ids before) (layout : Layout) (top : Option RemoteId) :
    let plan := m.plan ids old new
    (Command.addedIds (Command.adds layout top plan.new plan.added) ++
      Command.addedIds (Command.nestedAdds layout plan.new plan.added)).Perm
        (Menu.ids (freshNodes (m.seats ids old new))) := by
  intro plan
  obtain ⟨main, nested⟩ := site.fits.adds_fresh ids layout top
  rw [addedIds_of_adds main, addedIds_of_adds nested, ← List.map_append]
  exact ids_rows top _

theorem Site.spent_nothing (site : r.Site fs new old m ids before)
    (reserved : r.Reserved t ids (Menu.freshCount m.newStates new)) (none : (m.plan ids old new).added = []) :
    t.spent = t.drawn := by
  obtain ⟨total, -⟩ := site.ids_fresh reserved
  rwa [site.fits.freshCount_eq_zero none] at total

theorem Site.spent_main (site : r.Site fs new old m ids before)
    (reserved : r.Reserved t ids (Menu.freshCount m.newStates new)) (layout : Layout) (top : Option RemoteId)
    (accepted : Bool) : Trace.spent (t ++ [⟨.world (.send
      (Command.adds layout top (m.plan ids old new).new (m.plan ids old new).added)), accepted⟩]) = t.drawn := by
  rw [Trace.spent_send]
  by_cases none : (m.plan ids old new).added = []
  · rw [site.spent_nothing reserved none, ite_self]
  · exact if_pos (any_isAdd_of_adds (site.fits.adds_fresh ids layout _).1 (site.plans.adds_ne_nil none _))

/-- What was sent of the additions of a level carries ids of its fresh nodes, each one at most once. -/
theorem Site.sent_added (site : r.Site fs new old m ids before)
    (reserved : r.Reserved t ids (Menu.freshCount m.newStates new)) {layout : Layout} {extra : Trace}
    {outcome : AddOutcome} (added : Added layout (fs.parent none) (m.plan ids old new) extra outcome) :
    Trace.drawn (t ++ extra) = t.drawn ∧ Trace.spent (t ++ extra) = t.drawn ∧
    ∃ sent rest, Trace.addedIds (t ++ extra) = t.addedIds ++ sent ∧
      (sent ++ rest).Perm (Menu.ids (freshNodes (m.seats ids old new))) := by
  have rows := site.sent_rows layout (fs.parent none)
  have main (accepted : Bool) := site.spent_main reserved layout (fs.parent none) accepted
  cases added with
  | nothing none =>
    rw [List.append_nil]
    exact ⟨rfl, site.spent_nothing reserved none, [], _, (List.append_nil _).symm, List.Perm.refl _⟩
  | rejected => exact ⟨Trace.drawn_send .., main false, _, _, Trace.addedIds_send .., rows⟩
  | alone => exact ⟨Trace.drawn_send .., main true, _, _, Trace.addedIds_send .., rows⟩
  | both some below accepted =>
    rw [List.append_cons]
    refine ⟨?_, ?_, _, [], ?_, (List.Perm.of_eq (List.append_nil _)).trans rows⟩
    · rw [Trace.drawn_send, Trace.drawn_send]
    · rw [Trace.spent_send, Trace.drawn_send, main true, ite_self]
    · rw [Trace.addedIds_send, Trace.addedIds_send, List.append_assoc]

end Round

/-! ### What an update keeps of the ids -/

/-- What is known of ids as long as the supply does not come back to its start: the menu has each one once, and
had it in the beginning or drew it; no two additions had the same one, which had been drawn. -/
structure Owned (r : Round) (t : Trace) (menu : Menu) : Prop where
  distinct : menu.ids.Nodup
  own : ∀ id ∈ menu.ids, id ∈ r.current.ids ∨ ∃ k < t.spent, id = r.start.nth k
  once : t.addedIds.Nodup
  drawn : ∀ id ∈ t.addedIds, ∃ k < t.spent, id = r.start.nth k

namespace Owned

variable {r : Round} {t t' : Trace} {menu menu' : Menu}

theorem later (h : Owned r t menu) (sub : menu'.ids.Subperm menu.ids) (same : t'.addedIds = t.addedIds)
    (le : t.spent ≤ t'.spent) : Owned r t' menu' where
  distinct := by
    obtain ⟨_, perm, sub⟩ := sub
    exact perm.nodup_iff.mp (sub.nodup h.distinct)
  own id member := by
    refine (h.own id (sub.subset member)).imp_right fun ⟨k, lt, drawn⟩ => ⟨k, Nat.lt_of_lt_of_le lt le, drawn⟩
  once := same ▸ h.once
  drawn id member := by
    obtain ⟨k, lt, drawn⟩ := h.drawn id (same ▸ member)
    exact ⟨k, Nat.lt_of_lt_of_le lt le, drawn⟩

theorem apart_of_spent {fresh : List RemoteId} (bound : t.drawn ≤ legalIds) (new : r.Fresh t fresh) {id : RemoteId}
    (old : ∃ k < t.spent, id = r.start.nth k) : id ∉ fresh := by
  intro member
  obtain ⟨-, k, le, lt, own⟩ := new id member
  obtain ⟨j, less, same⟩ := old
  have equal := IdSupply.nth_inj (by omega) (by omega) (same.symm.trans own)
  omega

theorem once_sent (h : Owned r t menu) (bound : t.drawn ≤ legalIds) {fresh sent rest : List RemoteId}
    (distinct : fresh.Nodup) (new : r.Fresh t fresh) (told : (sent ++ rest).Perm fresh) :
    (t.addedIds ++ sent).Nodup := by
  refine List.nodup_append.mpr ⟨h.once, (List.nodup_append.mp (told.nodup_iff.mpr distinct)).1, ?_⟩
  rintro id member _ member' rfl
  exact apart_of_spent bound new (h.drawn id member) (told.mem_iff.mp (List.mem_append_left _ member'))

theorem add (h : Owned r t menu) (bound : t.drawn ≤ legalIds) {fresh more sent others rest : List RemoteId}
    (distinct : fresh.Nodup) (new : r.Fresh t fresh) (shown : (more ++ others).Perm fresh)
    (told : (sent ++ rest).Perm fresh) (ids : menu'.ids.Perm (menu.ids ++ more))
    (added : t'.addedIds = t.addedIds ++ sent) (spent : t'.spent = t.drawn) : Owned r t' menu' := by
  have le : t.spent ≤ t'.spent := by
    rw [spent]
    exact Nat.sub_le ..
  have earlier {id : RemoteId} : (∃ k < t.spent, id = r.start.nth k) → ∃ k < t'.spent, id = r.start.nth k :=
    fun ⟨k, lt, own⟩ => ⟨k, Nat.lt_of_lt_of_le lt le, own⟩
  have now {id : RemoteId} (member : id ∈ fresh) : ∃ k < t'.spent, id = r.start.nth k := by
    obtain ⟨-, k, -, lt, own⟩ := new id member
    exact ⟨k, spent ▸ lt, own⟩
  have ofMore {id : RemoteId} (member : id ∈ more) : id ∈ fresh := shown.mem_iff.mp (List.mem_append_left _ member)
  have ofSent {id : RemoteId} (member : id ∈ sent) : id ∈ fresh := told.mem_iff.mp (List.mem_append_left _ member)
  refine ⟨?_, fun id member => ?_, ?_, fun id member => ?_⟩
  · refine ids.nodup_iff.mpr (List.nodup_append.mpr ⟨h.distinct, ?_, ?_⟩)
    · exact (List.nodup_append.mp (shown.nodup_iff.mpr distinct)).1
    · rintro id member _ member' rfl
      rcases h.own id member with old | drawn
      · exact (new id (ofMore member')).1 old
      · exact apart_of_spent bound new drawn (ofMore member')
  · rcases List.mem_append.mp (ids.mem_iff.mp member) with old | member
    · exact (h.own id old).imp_right earlier
    · exact .inr (now (ofMore member))
  · rw [added]
    exact h.once_sent bound distinct new told
  · rw [added] at member
    rcases List.mem_append.mp member with old | member
    · exact earlier (h.drawn id old)
    · exact now (ofSent member)

end Owned

/-- What an update keeps of the ids of its menu and of those that it has sent: ids of the old menu are never
there twice, and the others are as `Owned` says as long as the supply has not come back to its start. -/
structure Identities (r : Round) (t : Trace) (menu : Menu) : Prop where
  stable : (menu.ids.filter (· ∈ r.current.ids)).Nodup
  owned : t.drawn ≤ legalIds → Owned r t menu

/-- What is known of the ids in a batch after a trace: those of the old menu are ids of nodes that have to go, and
those of additions are new. -/
structure Sends (r : Round) (t : Trace) (batch : List Command) : Prop where
  targets : ∀ c ∈ batch, c.target ∈ r.current.ids →
    ∃ path plan, Plans r.target r.current path plan ∧ ∃ n ∈ plan.removed, n.remoteId = c.target
  once : t.drawn ≤ legalIds → (t.addedIds ++ Command.addedIds batch).Nodup
  drawn : t.drawn ≤ legalIds → ∀ id ∈ Command.addedIds batch, ∃ k < t.drawn, id = r.start.nth k

/-- Whatever is asked, the ids of the committed menu and of a batch are as they should be. -/
def identity (r : Round) : Contract where
  fair := r.fair
  asks t now i := Identities r t now.committed ∧ ∀ batch, i = .world (.send batch) → Sends r t batch

namespace Identities

variable {r : Round} {t t' : Trace} {menu menu' : Menu}

theorem later (h : Identities r t menu) (sub : menu'.ids.Subperm menu.ids) (same : t'.addedIds = t.addedIds)
    (drawn : t.drawn ≤ t'.drawn) (le : t.spent ≤ t'.spent) : Identities r t' menu' where
  stable := by
    obtain ⟨_, perm, sub⟩ := sub.filter (· ∈ r.current.ids)
    exact perm.nodup_iff.mp (sub.nodup h.stable)
  owned bound := (h.owned (Nat.le_trans drawn bound)).later sub same le

theorem stay (h : Identities r t menu) {e : Exchange} (idle : e.inquiry.Idle) : Identities r (t ++ [e]) menu := by
  obtain ⟨same, drawn, spent⟩ := t.idle_spec idle
  exact h.later (List.Subperm.refl _) same (Nat.le_of_eq drawn.symm) (Nat.le_of_eq spent.symm)

theorem reserve (h : Identities r t menu) (count : Nat) (ids : IdSupply) :
    Identities r (t ++ [⟨.reserve count, ids⟩]) menu := by
  refine h.later (List.Subperm.refl _) ?_ ?_ ?_
  · rw [Trace.addedIds, Trace.batches_reserve, Trace.addedIds]
  · rw [Trace.drawn_reserve]
    exact Nat.le_add_right ..
  · rw [Trace.spent_reserve]
    exact Nat.sub_le ..

theorem deletes (h : Identities r t menu) (gone : List Node) (accepted : Bool) (sub : menu'.ids.Subperm menu.ids) :
    Identities r (t ++ [⟨.world (.send (Command.deletes gone)), accepted⟩]) menu' := by
  refine h.later sub ?_ (Nat.le_of_eq (Trace.drawn_send ..).symm) ?_
  · rw [Trace.addedIds_send, Command.addedIds_deletes, List.append_nil]
  · rw [Trace.spent_send]
    split
    · exact Nat.sub_le ..
    · exact Nat.le_refl _

theorem add (h : Identities r t menu) {fresh more sent others rest : List RemoteId} (drawn : t'.drawn = t.drawn)
    (distinct : t.drawn ≤ legalIds → fresh.Nodup) (new : r.Fresh t fresh) (shown : (more ++ others).Perm fresh)
    (told : (sent ++ rest).Perm fresh) (ids : menu'.ids.Perm (menu.ids ++ more))
    (added : t'.addedIds = t.addedIds ++ sent) (spent : t'.spent = t.drawn) : Identities r t' menu' where
  stable := by
    have none : more.filter (· ∈ r.current.ids) = [] := by
      refine List.filter_eq_nil_iff.mpr fun id member => ?_
      have free := (new id (shown.mem_iff.mp (List.mem_append_left _ member))).1
      simpa using free
    have perm := ids.filter (· ∈ r.current.ids)
    rw [List.filter_append, none, List.append_nil] at perm
    exact perm.nodup_iff.mpr h.stable
  owned bound := by
    rw [drawn] at bound
    exact (h.owned bound).add bound (distinct bound) new shown told ids added spent

/-- Additions with new ids, sent after others of them. -/
theorem sends_of_fresh {menu : Menu} (h : Identities r t menu) {fresh sent rest : List RemoteId}
    (distinct : t.drawn ≤ legalIds → fresh.Nodup) (new : r.Fresh t fresh) (told : (sent ++ rest).Perm fresh)
    {layout : Layout} {faces : Set Face} {batch : List Command} {xs : List Place}
    (adds : List.Forall₂ (Adds layout faces) batch xs) {t' : Trace} (drawn : t'.drawn = t.drawn)
    (added : t'.addedIds ++ Command.addedIds batch = t.addedIds ++ sent)
    (own : Command.addedIds batch ⊆ sent) : Sends r t' batch where
  targets c member old := by
    have among := told.mem_iff.mp (List.mem_append_left _ (own (target_mem_addedIds adds member)))
    exact absurd old (new _ among).1
  once bound := by
    rw [drawn] at bound
    rw [added]
    exact (h.owned bound).once_sent bound (distinct bound) new told
  drawn _ id member := by
    obtain ⟨-, k, -, lt, same⟩ := new id (told.mem_iff.mp (List.mem_append_left _ (own member)))
    exact ⟨k, drawn ▸ lt, same⟩

end Identities

/-! ### What a level keeps -/

namespace Round

variable {r : Round} {fs : Context} {new old level : Menu} {m : Matching} {ids : IdSupply} {before : List Path}
  {t : Trace}

theorem Site.sends_deletes (site : r.Site fs new old m ids before) (h : Identities r t (fs.plug old)) :
    Sends r t (Command.deletes (m.plan ids old new).removed) where
  targets c member _ := by
    obtain ⟨n, hn, rfl⟩ := List.mem_map.mp member
    exact ⟨_, _, site.plans, n, hn, rfl⟩
  once bound := by
    rw [Command.addedIds_deletes, List.append_nil]
    exact (h.owned bound).once
  drawn _ := by
    rw [Command.addedIds_deletes]
    nofun

end Round

theorem upkeep_identity (r : Round) (layout : Layout) :
    Upkeep r layout (identity r) fun _ t menu => Identities r t menu where
  fresh := rfl
  asks _ h i other := ⟨h, fun batch same => absurd same (other batch)⟩
  stay e h idle := h.stay idle
  reserve _ count ids h := h.reserve count ids
  deletes {fs new old m ids before t} site _ _ h some := by
    intro gone
    refine ⟨fun now at_ => ⟨at_ ▸ h, ?_⟩, h.deletes gone false (List.Subperm.refl _), h.deletes gone true ?_⟩
    · rintro batch same
      obtain rfl : Command.deletes gone = batch := by cases same; rfl
      exact site.sends_deletes h
    · exact Context.subperm_ids_plug site.sound (Menu.ids_sublist_of_sublist List.filter_sublist).subperm
  adds {fs new old m ids before t level removedOk} site _ reserved parts h := by
    intro plan main nested
    have distinct := site.nodup_fresh reserved
    have fresh := site.fresh reserved
    have rows := site.sent_rows layout (fs.parent none)
    obtain ⟨mains, nesteds⟩ := site.fits.adds_fresh ids layout (fs.parent none)
    have added := Trace.addedIds_send t main true
    have drawn := Trace.drawn_send t main true
    refine ⟨fun now at_ => ⟨⟨at_ ▸ h, ?_⟩, at_ ▸ ?_, ?_⟩, fun extra outcome added => ?_⟩
    · intro batch same
      obtain rfl : main = batch := by cases same; rfl
      exact h.sends_of_fresh distinct fresh rows mains rfl rfl (List.Subset.refl _)
    · -- Nothing was recorded yet of what the host has taken.
      have none : ([] ++ Menu.ids (freshNodes (m.seats ids old new))).Perm (Menu.ids (freshNodes (m.seats ids old new))) :=
        List.Perm.refl _
      refine h.add drawn distinct fresh none rows ?_ added (site.spent_main reserved layout _ true)
      rw [List.append_nil]
    · intro batch same
      obtain rfl : nested = batch := by cases same; rfl
      refine h.sends_of_fresh distinct fresh ((List.Perm.of_eq (List.append_nil _)).trans rows) nesteds drawn ?_
        (List.subset_append_right _ _)
      rw [added, List.append_assoc]
    · obtain ⟨drawn, spent, sent, rest, told, among⟩ := site.sent_added reserved added
      obtain ⟨others, shown⟩ := ids_shownFresh outcome (m.seats ids old new)
      rw [site.fits.committed_eq]
      exact h.add drawn distinct fresh shown among
        (Context.perm_ids_plug site.sound (site.fits.ids_committed ids parts outcome)) told spent

/-! ### Whole updates -/

theorem Round.keeps_identity (r : Round) {job : Job} (target : job.target = r.target) :
    (job.run { committed := r.current }).Keeps (identity r) (fun t now _ => Identities r t now.committed) [] := by
  have start : Identities r [] r.current := by
    refine ⟨r.distinct.filter _, fun _ => ⟨r.distinct, fun id member => .inl member, List.nodup_nil, nofun⟩⟩
  refine ((upkeep_identity r _).keeps_run target rfl start).mono fun t now _ kept => ?_
  obtain ⟨-, -, identities⟩ := kept
  exact identities

theorem Trace.exists_send {t : Trace} {batch : List Command} {accepted : Bool} (member : (batch, accepted) ∈ t.batches) :
    ∃ u v : Trace, t = u ++ ⟨.world (.send batch), accepted⟩ :: v := by
  obtain ⟨e, he, sent⟩ := List.mem_filterMap.mp member
  obtain ⟨u, v, split⟩ := List.append_of_mem he
  obtain ⟨inquiry, reply⟩ := e
  cases inquiry with
  | world q =>
    cases q with
    | send =>
      obtain ⟨rfl, rfl⟩ := Prod.mk.inj (Option.some.inj sent)
      exact ⟨u, v, split⟩
    | _ => cases sent
  | _ => cases sent

/-- Wherever an operation stands, the ids of its committed menu, of the batch that it waits with and of those that
it has sent are as they should be. -/
theorem Operation.Moves.identities {job : Job} {current : Menu} {ids : IdSupply} {t : Trace} {op : Operation}
    (way : (schedule job current ids).Moves t op) (distinct : current.ids.Nodup)
    (apart : ∀ k < t.drawn, ids.nth k ∉ current.ids) :
    let r : Round := ⟨ids, job.target, current, distinct⟩
    Identities r t op.committed ∧ (∀ batch, op.pending? = some (.send batch) → Sends r t batch) ∧
      ∀ b ∈ t.batches, ∃ u, Sends r u b.1 := by
  intro r
  have started : (schedule job current ids).task = .live (job.run { committed := current }) := rfl
  obtain ⟨d, live, runs⟩ := way.runs started
  have fair : (identity r).Fair [] t := Round.fair_of_draws rfl way.draws_schedule (by rwa [List.nil_append])
  have whole : (job.run { committed := current }).Keeps (identity r) _ [] := r.keeps_identity rfl
  have keeps := whole.along runs fair
  rw [List.nil_append] at keeps
  refine ⟨?_, fun batch pending => ?_, fun b member => ?_⟩
  · rw [committed, progress, live]
    cases d with
    | done => exact keeps
    | ask => exact keeps.1.1
  · obtain ⟨now, next, rfl⟩ := Dialogue.eq_of_sends ((pending?_eq_send live batch).mp pending)
    exact keeps.1.2 batch rfl
  · obtain ⟨u, v, split⟩ := Trace.exists_send member
    obtain ⟨now, -, sends⟩ := whole.asked runs fair split
    exact ⟨_, sends b.1 rfl⟩

end RemoteMenu
