import RemoteMenu.Proofs.Menu.Fingerprint
import RemoteMenu.Proofs.Update.Ids

/-!
# Labels on their way through an update

An entry has the label that it was added with, and no command gives it another one. Wherever an update stands,
the nodes of the committed menu that it has added were sent under the titles that they are displayed with, and
the others have ids of the old menu (`Operation.Moves.labelled`). Of these others nothing is said: a kept node
takes over the number that the target gives it, and nothing is sent for that.
-/

namespace RemoteMenu

open Engine

/-! ### Labels -/

def Node.label (n : Node) : RemoteId × String := (n.remoteId, n.displayTitle)

def Command.label? : Command → Option (RemoteId × String)
  | .add a => some (a.id, a.name)
  | .delete .. => none

def Command.labels (batch : List Command) : List (RemoteId × String) := batch.filterMap Command.label?

namespace Trace

def labels (t : Trace) : List (RemoteId × String) := t.batches.flatMap fun b => Command.labels b.1

/-- The label that was sent last for an id. -/
def label? (t : Trace) (id : RemoteId) : Option String := t.labels.reverse.lookup id

@[simp] theorem labels_append (s t : Trace) : labels (s ++ t) = labels s ++ labels t := by
  rw [labels, batches_append, List.flatMap_append]
  rfl

theorem mem_labels {t : Trace} {a : Addition} {b : List Command × Bool} (sent : b ∈ t.batches)
    (member : Command.add a ∈ b.1) : (a.id, a.name) ∈ t.labels :=
  List.mem_flatMap.mpr ⟨b, sent, List.mem_filterMap.mpr ⟨_, member, rfl⟩⟩

/-- An id that only one entry was sent with has the label of that entry. -/
theorem label?_of_mem {t : Trace} (once : (t.labels.map Prod.fst).Nodup) {id : RemoteId} {name : String}
    (member : (id, name) ∈ t.labels) : t.label? id = some name := by
  -- Nothing that was sent later has the id again.
  obtain ⟨earlier, later, split⟩ := List.append_of_mem member
  rw [label?, List.lookup_eq_some_iff]
  refine ⟨later.reverse, earlier.reverse, by simp [split], fun p hp => ?_⟩
  rw [split, List.map_append, List.map_cons, List.nodup_append, List.nodup_cons] at once
  have apart : id ∉ later.map Prod.fst := once.2.1.1
  have other : id ≠ p.1 := fun same => apart (same ▸ List.mem_map_of_mem (List.mem_reverse.mp hp))
  simpa using other

end Trace

theorem Command.map_fst_labels (batch : List Command) : (labels batch).map Prod.fst = addedIds batch := by
  induction batch with
  | nil => rfl
  | cons c batch ih =>
    cases c with
    | add a => exact congrArg (a.id :: ·) ih
    | delete => exact ih

theorem Trace.map_fst_labels (t : Trace) : t.labels.map Prod.fst = t.addedIds := by
  rw [labels, addedIds, List.map_flatMap]
  exact List.flatMap_congr fun b _ => Command.map_fst_labels b.1

/-! ### The labels of a level -/

section
variable (layout : Layout)

theorem labels_adds (parent : Option RemoteId) (level : Menu) (added : List Nat) :
    Command.labels (Command.adds layout parent level added) = (added.filterMap (level[·]?)).map Node.label := by
  rw [Command.labels, Command.adds, List.filterMap_filterMap, List.map_filterMap]
  refine List.filterMap_congr fun j _ => ?_
  cases level[j]? <;> rfl

mutual

theorem Node.labels_addsBelow : (n : Node) →
    Command.labels (n.addsBelow layout) = (Menu.walk n.children).map Node.label
  | ⟨_, children, _, _, remoteId⟩ => by
    rw [Node.addsBelow]
    exact Menu.labels_addsFrom remoteId 0 children

theorem Menu.labels_addsFrom (parent : RemoteId) (position : Nat) : (menu : Menu) →
    Command.labels (menu.addsFrom layout parent position) = menu.walk.map Node.label
  | [] => by
    rw [Menu.addsFrom, Menu.walk]
    rfl
  | n :: ns => by
    have own := Node.labels_addsBelow n
    have rest := Menu.labels_addsFrom parent (position + 1) ns
    have first : Command.label? (.add (n.addition (some parent) position layout)) = some n.label := rfl
    rw [Command.labels] at own rest ⊢
    rw [Menu.addsFrom, Menu.walk, Node.walk_eq, List.filterMap_cons_some first, List.filterMap_append, own, rest,
      ← List.map_append]
    rfl

end

theorem labels_nestedAdds (level : Menu) (added : List Nat) : Command.labels (Command.nestedAdds layout level added) =
    (added.filterMap (level[·]?)).flatMap fun n => (Menu.walk n.children).map Node.label := by
  rw [Command.labels, Command.nestedAdds, List.filterMap_flatMap, List.filterMap_eq_flatMap_toList, List.flatMap_assoc]
  refine List.flatMap_congr fun j _ => ?_
  cases level[j]? with
  | none => rfl
  | some n => exact (n.labels_addsBelow layout).trans (List.append_nil _).symm

end

/-- Of the fresh nodes that the host shows, each one was sent, and so was what is shown below it. -/
theorem label_shownFresh {adds : AddOutcome} {seats : List Seat} {x : Node}
    (member : x ∈ Menu.walk (shownFresh adds seats)) : adds.created = true ∧ ∃ n ∈ freshNodes seats,
      x.label = n.label ∨ adds.nested = true ∧ x ∈ Menu.walk n.children := by
  rw [Menu.walk_eq_flatMap] at member
  obtain ⟨k, hk, member⟩ := List.mem_flatMap.mp member
  unfold shownFresh at hk
  split at hk
  · next created =>
    obtain ⟨n, hn, rfl⟩ := List.mem_map.mp hk
    refine ⟨created, n, hn, ?_⟩
    rw [Node.walk_eq] at member
    split at member
    · next nested => exact (List.mem_cons.mp member).imp (congrArg Node.label) (⟨nested, ·⟩)
    · rcases List.mem_cons.mp member with rfl | below
      · exact .inl rfl
      · cases below
  · cases hk

namespace Round

variable {r : Round} {fs : Context} {new old : Menu} {m : Matching} {ids : IdSupply} {before : List Path}

theorem Site.labels_added (site : r.Site fs new old m ids before) {layout : Layout} {extra : Trace}
    {outcome : AddOutcome} (added : Added layout (fs.parent none) (m.plan ids old new) extra outcome) {x : Node}
    (member : x ∈ Menu.walk (shownFresh outcome (m.seats ids old new))) : x.label ∈ extra.labels := by
  obtain ⟨created, n, hn, own⟩ := label_shownFresh member
  let plan := m.plan ids old new
  have fresh : plan.added.filterMap (plan.new[·]?) = freshNodes (m.seats ids old new) := site.fits.fresh_eq ids
  have main (row : x.label = n.label) :
      x.label ∈ Command.labels (Command.adds layout (fs.parent none) plan.new plan.added) := by
    rw [labels_adds, fresh, row]
    exact List.mem_map_of_mem hn
  have nested (below : x ∈ Menu.walk n.children) :
      x.label ∈ Command.labels (Command.nestedAdds layout plan.new plan.added) := by
    rw [labels_nestedAdds, fresh]
    exact List.mem_flatMap.mpr ⟨n, hn, List.mem_map_of_mem below⟩
  cases added with
  | nothing none =>
    have nobody : plan.added = [] := none
    rw [← fresh, nobody] at hn
    cases hn
  | rejected => cases created
  | alone _ leaf =>
    rcases own with row | ⟨-, below⟩
    · exact List.mem_append_left _ (main row)
    · have sent := nested below
      have nothing : Command.nestedAdds layout plan.new plan.added = [] := leaf
      rw [nothing] at sent
      cases sent
  | both _ _ accepted =>
    rcases own with row | ⟨-, below⟩
    · exact List.mem_append_left _ (main row)
    · exact List.mem_append_right _ (List.mem_append_left _ (nested below))

end Round

/-! ### What an update keeps -/

/-- Whether a node has an id of the old menu, or was sent under the title that it is displayed with. -/
def Round.Known (r : Round) (t : Trace) (n : Node) : Prop := n.remoteId ∈ r.current.ids ∨ n.label ∈ t.labels

def Labelled (r : Round) (t : Trace) (menu : Menu) : Prop := ∀ n ∈ menu.walk, r.Known t n

/-- Whatever is asked, the nodes of the committed menu are known. -/
def labelling (r : Round) : Contract where
  fair := r.fair
  asks t now _ := Labelled r t now.committed

theorem Context.mem_walk_plug (fs : Context) {level : Menu} {x : Node} (member : x ∈ level.walk) :
    x ∈ (fs.plug level).walk := by
  induction fs with
  | nil => exact member
  | cons f fs ih =>
    refine mem_walk_of_mem (n := f.node.setChildren (Context.plug fs level)) (List.mem_append_right _ (List.mem_cons_self ..)) ?_
    rw [Node.walk_eq]
    exact List.mem_cons_of_mem _ ih

/-- Whatever level is in a context, the nodes around it have their labels. -/
theorem Context.label_of_mem_plug {fs : Context} (level : Menu) {level' : Menu} {x : Node}
    (member : x ∈ (fs.plug level').walk) : x ∈ level'.walk ∨ ∃ y ∈ (fs.plug level).walk, y.label = x.label := by
  induction fs with
  | nil => exact .inl member
  | cons f fs ih =>
    have around {k : Node} (hk : k ∈ f.fill (plug fs level)) (hx : x ∈ k.walk) :
        ∃ y ∈ (Context.plug (f :: fs) level).walk, y.label = x.label := ⟨x, mem_walk_of_mem hk hx, rfl⟩
    have node : f.node.setChildren (plug fs level) ∈ f.fill (plug fs level) :=
      List.mem_append_right _ (List.mem_cons_self ..)
    rw [plug_cons, Menu.walk_eq_flatMap] at member
    obtain ⟨k, hk, hx⟩ := List.mem_flatMap.mp member
    rcases List.mem_append.mp hk with front | hk
    · exact .inr (around (List.mem_append_left _ front) hx)
    rcases List.mem_cons.mp hk with rfl | back
    · -- The node of the frame is another one with each level, but its id and its title are the same.
      rw [Node.walk_eq] at hx
      rcases List.mem_cons.mp hx with rfl | inside
      · exact .inr ⟨_, mem_walk_of_mem node (Node.mem_walk_self _), rfl⟩
      · refine (ih inside).imp id fun ⟨y, hy, same⟩ => ⟨y, mem_walk_of_mem node ?_, same⟩
        rw [Node.walk_eq]
        exact List.mem_cons_of_mem _ hy
    · exact .inr (around (List.mem_append_right _ (List.mem_cons_of_mem _ back)) hx)

namespace Labelled

variable {r : Round} {t : Trace} {menu : Menu} {fs : Context} {level level' : Menu}

theorem append (h : Labelled r t menu) (extra : Trace) : Labelled r (t ++ extra) menu := by
  intro n hn
  rw [Round.Known, Trace.labels_append]
  exact (h n hn).imp id (List.mem_append_left _)

/-- Another level in the same context may have new nodes, if these are known. -/
theorem plug (h : Labelled r t (fs.plug level)) (inner : ∀ x ∈ level'.walk, x ∈ level.walk ∨ r.Known t x) :
    Labelled r t (fs.plug level') := by
  intro x hx
  rcases Context.label_of_mem_plug level hx with inside | ⟨y, hy, same⟩
  · exact (inner x inside).elim (fun old => h x (fs.mem_walk_plug old)) id
  · have known := h y hy
    have own : y.remoteId = x.remoteId := congrArg Prod.fst same
    rwa [Round.Known, own, same] at known

end Labelled

/-- What is recorded of a level was there before, but for fresh nodes and for kept ones, which have the ids of
their partners. -/
theorem Round.Site.committed_cases {r : Round} {fs : Context} {new old level left : Menu} {m : Matching}
    {ids : IdSupply} {before : List Path} (site : r.Site fs new old m ids before)
    (parts : level.Perm ((m.seats ids old new).filterMap Seat.partner ++ left)) {adds : AddOutcome} {x : Node}
    (member : x ∈ Menu.walk ((m.seats ids old new).filterMap (Seat.shown adds) ++ left)) :
    x ∈ level.walk ∨ x.remoteId ∈ r.current.ids ∨ x ∈ Menu.walk (shownFresh adds (m.seats ids old new)) := by
  rw [Menu.walk_append] at member
  rcases List.mem_append.mp member with member | rest
  · have shown := Menu.mem_walk_of_subset (shown_perm adds (m.seats ids old new)).subset member
    rw [Menu.walk_append] at shown
    rcases List.mem_append.mp shown with kept | fresh
    · rw [Menu.walk_eq_flatMap] at kept
      obtain ⟨k, hk, hx⟩ := List.mem_flatMap.mp kept
      obtain ⟨s, hs, own⟩ := List.mem_filterMap.mp hk
      obtain ⟨o, partner, rfl⟩ := Option.map_eq_some_iff.mp own
      rw [Node.walk_eq] at hx
      rcases List.mem_cons.mp hx with rfl | below
      · -- The kept node itself has the number of the target by now: only its id is an old one.
        obtain ⟨n, -, ⟨o', ho, -, rfl⟩ | ⟨k, rfl⟩⟩ := site.fits.seat_cases hs
        · exact .inr (.inl (site.sublist.subset ((Menu.ids_sublist ho).subset o'.remoteId_mem_ids)))
        · cases partner
      · refine .inl (Menu.mem_walk_of_subset parts.symm.subset (mem_walk_of_mem (n := o) ?_ ?_))
        · exact List.mem_append_left _ (List.mem_filterMap.mpr ⟨s, hs, partner⟩)
        · rw [Node.walk_eq]
          exact List.mem_cons_of_mem _ below
    · exact .inr (.inr fresh)
  · exact .inl (Menu.mem_walk_of_subset (fun n hn => parts.symm.subset (List.mem_append_right _ hn)) rest)

theorem upkeep_labelling (r : Round) (layout : Layout) :
    Upkeep r layout (labelling r) fun _ t menu => Labelled r t menu where
  fresh := rfl
  asks _ h _ _ := h
  stay e h _ := h.append [e]
  reserve _ _ _ h := h.append _
  deletes {fs new old m ids before t} _ _ _ h _ := by
    intro gone
    refine ⟨fun now at_ => (at_ ▸ h : Labelled r t now.committed), h.append _, (h.append _).plug fun x hx => .inl ?_⟩
    exact Menu.mem_walk_of_subset (List.filter_subset_self _) hx
  adds {fs new old m ids before t level removedOk} site _ _ parts h := by
    intro plan main nested
    have here {now : Progress} (at_ : now.committed = fs.plug level) : Labelled r t now.committed := at_ ▸ h
    refine ⟨fun now at_ => ⟨here at_, (here at_).append _⟩, fun extra outcome added => ?_⟩
    rw [site.fits.committed_eq]
    refine (h.append extra).plug fun x hx => ?_
    rcases site.committed_cases parts hx with old | kept | fresh
    · exact .inl old
    · exact .inr (.inl kept)
    · refine .inr (.inr ?_)
      rw [Trace.labels_append]
      exact List.mem_append_right _ (site.labels_added added fresh)

/-! ### Labels of what is shown -/

/-- The entry of a host for a node was sent under the title of this node, with some number. -/
theorem Mirrored.exists_label {w : Scope} {t : Trace} {menu : Menu} (h : Mirrored w t (menu.places none))
    (short : ∀ f ∈ w.faces, f.entry.Short) {n : Node} (hn : n ∈ menu.walk) :
    ∃ number, (n.remoteId, Node.displayTitle { n with disambiguator := number }) ∈ t.labels := by
  obtain ⟨parent, place⟩ := menu.exists_place none n hn
  -- The entry was added for a node `k` that looks alike, but may have another number.
  obtain ⟨a, member, k, position, known, print, own, rfl⟩ := h.host.exists_entry place
  obtain ⟨alike, -⟩ := Face.alike_of_print_eq (short _ known) (short _ (h.known _ place)) print
  obtain ⟨b, sent, added⟩ := (HostTree.mem_after member).resolve_left List.not_mem_nil
  have title : k.entry.title = n.entry.title := alike.title
  have label := Trace.mem_labels sent added
  have name : k.displayTitle = Node.displayTitle { n with disambiguator := k.disambiguator } := by
    unfold Node.displayTitle
    rw [title]
  refine ⟨k.disambiguator, ?_⟩
  rw [← name]
  have same : k.remoteId = n.remoteId := own
  exact same ▸ label

/-! ### Whole updates -/

/-- Wherever an operation stands, each node of its committed menu has an id of the menu that it was scheduled with,
or was sent under the title that it is displayed with. -/
theorem Operation.Moves.labelled {job : Job} {current : Menu} {ids : IdSupply} {t : Trace} {op : Operation}
    (way : (schedule job current ids).Moves t op) (distinct : current.ids.Nodup)
    (apart : ∀ k < t.drawn, ids.nth k ∉ current.ids) :
    ∀ n ∈ op.committed.walk, n.remoteId ∈ current.ids ∨ n.label ∈ t.labels := by
  let r : Round := ⟨ids, job.target, current, distinct⟩
  have started : (schedule job current ids).task = .live (job.run { committed := current }) := rfl
  obtain ⟨d, live, runs⟩ := way.runs started
  have fair : (labelling r).Fair [] t := Round.fair_of_draws rfl way.draws_schedule (by rwa [List.nil_append])
  have start : Labelled r [] r.current := fun n hn => .inl (List.mem_map_of_mem hn)
  have keeps := ((upkeep_labelling r _).keeps_run rfl rfl start).along runs fair
  rw [List.nil_append] at keeps
  rw [committed, progress, live]
  cases d with
  | done =>
    obtain ⟨-, -, labelled⟩ := keeps
    exact labelled
  | ask => exact keeps.1

end RemoteMenu
