import RemoteMenu.Proofs.Update.Flow
import RemoteMenu.Proofs.Update.Moves

/-!
# An update on its way through the levels

An update goes through the levels of kept nodes in a fixed order, the `tour`. What it keeps on its way is
found by looking at what a single level may do to the committed menu and to the trace (`Upkeep`): whatever
the batches of each level keep, where this level is one in its context, the whole update keeps
(`Upkeep.keeps_run`).
-/

namespace RemoteMenu

open Engine

/-! ### Tours -/

/-- The paths to the levels that are gone into, in this order, by the old level that is at the top. -/
abbrev Tour := Menu → List Path

def tourBelow (tours : List Tour) (old : Menu) : List (Nat × Nat) → List Path
  | [] => []
  | (i, j) :: pairs =>
    match old[i]?, tours[j]? with
    | some o, some tour => (tour o.children).map (o.remoteId :: ·) ++ tourBelow tours old pairs
    | _, _ => tourBelow tours old pairs

/-- A level, if there is anything to match, and then those below it. -/
def tourWith (tours : List Tour) (new : Menu) : Tour := fun old =>
  match Matching.ofMenus old new with
  | none => []
  | some m => [] :: tourBelow tours old m.pairs

mutual

def Node.tour : Node → Tour
  | ⟨_, children, _, _, _⟩ => tourWith (Menu.tours children) children

def Menu.tours : Menu → List Tour
  | [] => []
  | n :: ns => n.tour :: Menu.tours ns

end

def Menu.tour (new : Menu) : Tour := tourWith new.tours new

/-! ### Paths through kept nodes -/

theorem find?_of_only {level : Menu} {k : Node} (member : k ∈ level)
    (only : ∀ x ∈ level, x.remoteId = k.remoteId → x = k) :
    List.find? (·.remoteId = k.remoteId) level = some k := by
  cases found : List.find? (·.remoteId = k.remoteId) level with
  | none =>
    have other := List.find?_eq_none.mp found k member
    simp at other
  | some x =>
    have same : x.remoteId = k.remoteId := by simpa using List.find?_some found
    rw [only x (List.mem_of_find?_eq_some found) same]

theorem find?_of_mem {level : Menu} {k : Node} (member : k ∈ level) (distinct : (level.map (·.remoteId)).Nodup) :
    List.find? (·.remoteId = k.remoteId) level = some k :=
  find?_of_only member fun _ hx same => List.inj_on_of_nodup_map distinct hx member same

theorem KeptAt.level? {new old n o : Menu} {path : Path} (h : KeptAt new old path n o)
    (distinct : old.ids.Nodup) : old.level? path = some o ∧ o.ids.Sublist old.ids := by
  induction h with
  | top => exact ⟨rfl, List.Sublist.refl _⟩
  | @into new old _ _ m i j n o path found pair ho hn further ih =>
    have member := List.mem_of_getElem? ho
    have below := Menu.ids_children_sublist member
    obtain ⟨there, sub⟩ := ih (below.nodup distinct)
    refine ⟨?_, sub.trans below⟩
    rw [Menu.level?, find?_of_mem member ((Menu.row_sublist old).nodup distinct)]
    exact there

/-! ### Rounds -/

/-- Whether an inquiry is neither about the tree on the host nor about ids. -/
def Inquiry.Idle : Inquiry → Prop
  | .reserve _ | .world (.send _) => False
  | _ => True

theorem Inquiry.OfArtworks.idle {i : Inquiry} (h : i.OfArtworks) : i.Idle := by
  cases i with
  | world r => cases r <;> trivial
  | _ => cases h

theorem Inquiry.OfLife.idle {i : Inquiry} (h : i.OfLife) : i.Idle := by
  cases i with
  | world r => cases r <;> trivial
  | enter => trivial
  | _ => cases h

structure Round where
  start : IdSupply
  target : Menu
  current : Menu
  distinct : current.ids.Nodup

def Round.tour (r : Round) : List Path := r.target.tour r.current

/-- Whether no id that was drawn so far is one of the old menu. -/
def Round.Apart (r : Round) (drawn : Nat) : Prop := ∀ k < drawn, r.start.nth k ∉ r.current.ids

/-- Ids are drawn one after another, and none of them is in use. -/
def Round.fair (r : Round) (t : Trace) : Exchange → Prop
  | ⟨.reserve count, ids⟩ => ids = r.start.skip t.drawn ∧ r.Apart (t.drawn + count)
  | _ => True

theorem Round.fair_of_draws {r : Round} {c : Contract} (same : c.fair = r.fair) {t seg : Trace}
    (draws : Operation.Draws r.start t.drawn seg) (apart : r.Apart (Trace.drawn (t ++ seg))) : c.Fair t seg := by
  refine draws.fair r.Apart apart (fun a b le all k lt => all k (Nat.lt_of_lt_of_le lt le))
    (fun t count all => ?_) fun t i reply other => ?_
  · rw [same]
    exact ⟨rfl, all⟩
  · rw [same]
    cases i with
    | reserve count => exact absurd rfl (other count)
    | _ => trivial

/-- How many of the ids that were drawn last have not been sent to the host yet, if so many were left before an
exchange. -/
def Exchange.unsent (left : Nat) : Exchange → Nat
  | ⟨.reserve count, _⟩ => count
  | ⟨.world (.send batch), _⟩ => if batch.any Command.isAdd then 0 else left
  | _ => left

def Trace.unsent (t : Trace) : Nat := t.foldl Exchange.unsent 0

theorem Trace.unsent_snoc (t : Trace) (e : Exchange) : unsent (t ++ [e]) = e.unsent t.unsent := by
  rw [unsent, List.foldl_append]
  rfl

/-- Whether ids from some supply on were the last to be drawn, so many of them, and none was sent yet. -/
def Round.Reserved (r : Round) (t : Trace) (ids : IdSupply) (count : Nat) : Prop :=
  ∃ k, ids = r.start.skip k ∧ t.drawn = k + count ∧ t.unsent = count

namespace Round.Reserved

variable {r : Round} {t : Trace} {ids : IdSupply} {count : Nat}

theorem draw (r : Round) (t : Trace) (count : Nat) :
    r.Reserved (t ++ [⟨.reserve count, r.start.skip t.drawn⟩]) (r.start.skip t.drawn) count :=
  ⟨t.drawn, rfl, Trace.drawn_reserve .., Trace.unsent_snoc ..⟩

theorem later (h : r.Reserved t ids count) {e : Exchange} (drawn : e.drawn = 0)
    (unsent : e.unsent t.unsent = t.unsent) : r.Reserved (t ++ [e]) ids count := by
  obtain ⟨k, own, total, left⟩ := h
  refine ⟨k, own, ?_, ?_⟩
  · rw [Trace.drawn_append, total]
    exact congrArg (k + count + ·) (congrArg (· + 0) drawn)
  · rw [Trace.unsent_snoc, unsent, left]

theorem idle (h : r.Reserved t ids count) {e : Exchange} (idle : e.inquiry.Idle) : r.Reserved (t ++ [e]) ids count := by
  obtain ⟨inquiry, reply⟩ := e
  cases inquiry with
  | reserve => cases idle
  | world q =>
    cases q with
    | send => cases idle
    | _ => exact h.later rfl rfl
  | _ => exact h.later rfl rfl

theorem idles (h : r.Reserved t ids count) {extra : Trace} (idle : ∀ e ∈ extra, e.inquiry.Idle) :
    r.Reserved (t ++ extra) ids count := by
  induction extra generalizing t with
  | nil => rwa [List.append_nil]
  | cons e extra ih =>
    rw [List.append_cons]
    exact ih (h.idle (idle e (List.mem_cons_self ..))) fun e he => idle e (List.mem_cons_of_mem _ he)

theorem deletes (h : r.Reserved t ids count) (gone : List Node) (accepted : Bool) :
    r.Reserved (t ++ [⟨.world (.send (Command.deletes gone)), accepted⟩]) ids count := by
  have none : (Command.deletes gone).any Command.isAdd = false := by
    rw [List.any_eq_false]
    intro c member
    obtain ⟨n, -, rfl⟩ := List.mem_map.mp member
    exact Bool.false_ne_true
  refine h.later rfl ?_
  rw [Exchange.unsent, none]
  rfl

end Round.Reserved

/-- A level that an update has gone into, last of some levels, as it is matched. -/
structure Round.Site (r : Round) (fs : Context) (new old : Menu) (m : Matching) (ids : IdSupply)
    (before : List Path) : Prop where
  sound : fs.Sound
  kept : KeptAt r.target r.current fs.path new old
  found : Matching.ofMenus old new = some m
  free : ∀ id ∈ Menu.ids (freshNodes (m.seats ids old new)), id ∉ r.current.ids
  visited : ∀ path, path <+: fs.path → path ∈ before
  way : before <+: r.tour

namespace Round.Site

variable {r : Round} {fs : Context} {new old : Menu} {m : Matching} {ids : IdSupply} {before : List Path}

theorem fits (site : r.Site fs new old m ids before) :
    m.Fits (old.map Node.contentKey) (new.map Node.contentKey) := Matching.fits_of_ofKeys site.found

theorem sublist (site : r.Site fs new old m ids before) : old.ids.Sublist r.current.ids :=
  (site.kept.level? r.distinct).2

theorem distinct (site : r.Site fs new old m ids before) : old.ids.Nodup := site.sublist.nodup r.distinct

end Round.Site

/-- What was answered to the additions of a level, and what it comes to. -/
inductive Added (layout : Layout) (parent : Option RemoteId) (plan : LevelPlan) : Trace → AddOutcome → Prop
  | nothing (none : plan.added = []) : Added layout parent plan [] ⟨true, true⟩
  | rejected (some : plan.added ≠ []) :
      Added layout parent plan [⟨.world (.send (Command.adds layout parent plan.new plan.added)), false⟩]
        ⟨false, false⟩
  | alone (some : plan.added ≠ []) (leaf : Command.nestedAdds layout plan.new plan.added = []) :
      Added layout parent plan [⟨.world (.send (Command.adds layout parent plan.new plan.added)), true⟩]
        ⟨true, true⟩
  | both (some : plan.added ≠ []) (below : Command.nestedAdds layout plan.new plan.added ≠ []) (nested : Bool) :
      Added layout parent plan [⟨.world (.send (Command.adds layout parent plan.new plan.added)), true⟩,
        ⟨.world (.send (Command.nestedAdds layout plan.new plan.added)), nested⟩] ⟨true, nested⟩

/-- What a contract has to allow an update on its way, and what it keeps of the levels that it has gone
into, the trace and the committed menu: what a single level does, wherever it is, is all there is to look at. -/
structure Upkeep (r : Round) (layout : Layout) (c : Contract) (keeps : List Path → Trace → Menu → Prop) :
    Prop where
  fresh : c.fair = r.fair
  asks : ∀ {before t} {now : Progress}, before <+: r.tour → keeps before t now.committed →
    ∀ i : Inquiry, (∀ batch, i ≠ .world (.send batch)) → c.asks t now i
  stay : ∀ {before t menu} (e : Exchange), keeps before t menu → e.inquiry.Idle → keeps before (t ++ [e]) menu
  reserve : ∀ {before t menu} (path : Path) (count : Nat) (ids : IdSupply), keeps before t menu →
    keeps (before ++ [path]) (t ++ [⟨.reserve count, ids⟩]) menu
  deletes : ∀ {fs new old m ids before t}, r.Site fs new old m ids before → t.Told →
    r.Reserved t ids (Menu.freshCount m.newStates new) → keeps before t (fs.plug old) → (m.plan ids old new).removed ≠ [] →
    let gone := (m.plan ids old new).removed
    (∀ now : Progress, now.committed = fs.plug old → c.asks t now (.world (.send (Command.deletes gone)))) ∧
    keeps before (t ++ [⟨.world (.send (Command.deletes gone)), false⟩]) (fs.plug old) ∧
    keeps before (t ++ [⟨.world (.send (Command.deletes gone)), true⟩])
      (fs.plug (old.filter fun n => !(gone.any fun gone => gone.remoteId = n.remoteId)))
  adds : ∀ {fs new old m ids before t level} {removedOk : Bool}, r.Site fs new old m ids before → t.Told →
    r.Reserved t ids (Menu.freshCount m.newStates new) → level.Perm ((m.seats ids old new).filterMap Seat.partner ++
      if removedOk then [] else (m.plan ids old new).removed) → keeps before t (fs.plug level) →
    let plan := m.plan ids old new
    let main := Command.adds layout (fs.parent none) plan.new plan.added
    let nested := Command.nestedAdds layout plan.new plan.added
    (∀ now : Progress, now.committed = fs.plug level → c.asks t now (.world (.send main)) ∧
      c.asks (t ++ [⟨.world (.send main), true⟩]) now (.world (.send nested))) ∧
    ∀ extra outcome, Added layout (fs.parent none) plan extra outcome →
      keeps before (t ++ extra) (fs.plug (plan.committed removedOk outcome))

/-! ### The batches of a level -/

section
variable {old new : Menu} {m : Matching} {ids : IdSupply}

theorem Seat.remoteId_shown {s : Seat} {adds : AddOutcome} {x : Node} (h : s.shown adds = some x) :
    x.remoteId = s.node.remoteId := by
  obtain ⟨partner, node⟩ := s
  cases partner with
  | some =>
    obtain rfl := Option.some.inj h
    rfl
  | none =>
    unfold Seat.shown at h
    split at h
    · contradiction
    · split at h
      · split at h <;> obtain rfl := Option.some.inj h <;> rfl
      · cases h

/-- Whether the kept nodes of pairs are found in a level as they are before they are gone into. -/
def Ready (pairs : List (Nat × Nat)) (old new level : Menu) : Prop :=
  ∀ i j o n, (i, j) ∈ pairs → old[i]? = some o → new[j]? = some n →
    List.find? (·.remoteId = o.remoteId) level =
      some (Node.setChildren { n with remoteId := o.remoteId } o.children)

theorem Ready.fill {pairs : List (Nat × Nat)} {f : Branch} {level : Menu} (h : Ready pairs old new (f.fill level))
    (apart : ∀ p ∈ pairs, ∀ o, old[p.1]? = some o → o.remoteId ≠ f.node.remoteId) (level' : Menu) :
    Ready pairs old new (f.fill level') := by
  intro i j o n pair ho hn
  rw [Context.find?_fill_of_ne (apart _ pair o ho) level' level]
  exact h i j o n pair ho hn

theorem Matching.Fits.ready_committed (fits : m.Fits (old.map Node.contentKey) (new.map Node.contentKey))
    (distinct : old.ids.Nodup) {taken : List RemoteId} (known : ∀ id ∈ old.ids, id ∈ taken)
    (free : ∀ id ∈ Menu.ids (freshNodes (m.seats ids old new)), id ∉ taken) (removedOk : Bool)
    (adds : AddOutcome) : Ready m.pairs old new ((m.plan ids old new).committed removedOk adds) := by
  intro i j o n pair ho hn
  obtain ⟨o', n', ho', hn', -, seat⟩ := fits.seat_of_pair ids pair
  obtain rfl := Option.some.inj (ho.symm.trans ho')
  obtain rfl := Option.some.inj (hn.symm.trans hn')
  rw [fits.committed_eq]
  have shown : Node.setChildren { n with remoteId := o.remoteId } o.children ∈
      (m.seats ids old new).filterMap (Seat.shown adds) :=
    List.mem_filterMap.mpr ⟨_, List.mem_of_getElem? seat, rfl⟩
  refine find?_of_only (List.mem_append_left _ shown) fun x hx same => ?_
  rcases List.mem_append.mp hx with hx | left
  · obtain ⟨s, hs, shown⟩ := List.mem_filterMap.mp hx
    obtain ⟨k, hk⟩ := List.getElem?_of_mem hs
    by_cases here : k = j
    · subst here
      obtain rfl := Option.some.inj (hk.symm.trans seat)
      exact (Option.some.inj shown).symm
    · have other := fits.first_seat distinct known free pair ho here hk
      exact absurd ((Seat.remoteId_shown shown).symm.trans same) other
  · have gone : x ∈ (m.plan ids old new).removed := by
      cases removedOk with
      | true => cases left
      | false => exact left
    have other := fits.remoteId_ne_removed distinct pair ho gone
    exact absurd same.symm other

end

namespace Upkeep

variable {r : Round} {layout : Layout} {c : Contract} {keeps : List Path → Trace → Menu → Prop} {t : Trace}
  {now : Progress} {fs : Context} {new old level : Menu} {m : Matching} {ids : IdSupply} {before : List Path}

theorem stays (u : Upkeep r layout c keeps) {menu : Menu} (h : keeps before t menu) {extra : Trace}
    (idle : ∀ e ∈ extra, e.inquiry.Idle) : keeps before (t ++ extra) menu := by
  induction extra generalizing t with
  | nil => rwa [List.append_nil]
  | cons e extra ih =>
    rw [List.append_cons]
    exact ih (u.stay e h (idle e (List.mem_cons_self ..))) fun e he => idle e (List.mem_cons_of_mem _ he)

/-- What a part of a level leaves: the level as it should be, and some levels gone into. If it was stopped,
something is kept all the same. -/
def Leaves {α : Type} (r : Round) (keeps : List Path → Trace → Menu → Prop) (fs : Context)
    (after : List Path) (should : Menu → Prop) (t : Trace) (now : Progress) : Except Halt α → Prop
  | .ok _ => ∃ level, now.committed = fs.plug level ∧ should level ∧ keeps after t (fs.plug level)
  | .error _ => ∃ before, before <+: r.tour ∧ keeps before t now.committed

theorem meets_stop (u : Upkeep r layout c keeps) (way : before <+: r.tour) (at_ : now.committed = fs.plug level)
    (h : keeps before t (fs.plug level)) {α : Type} {f : Unit → Engine α} {after : List Path}
    {should : Menu → Prop} (onward : ∀ u : Trace, u = t ++ [⟨.poll, false⟩] → keeps before u (fs.plug level) →
      (f ()).Meets c u now (Leaves r keeps fs after should)) :
    (checkpoint >>= f).Meets c t now (Leaves r keeps fs after should) := by
  rw [← at_] at h
  refine Engine.meets_stop (u.asks way h _ fun batch send => by cases send) (fun _ => ⟨before, way, u.stay _ h trivial⟩) fun _ => ?_
  exact onward _ rfl (at_ ▸ u.stay ⟨.poll, false⟩ h trivial)

theorem meets_addStage (u : Upkeep r layout c keeps) {setup : Setup} (hint : setup.settings.defaultLayout = layout)
    (site : r.Site fs new old m ids before) (told : t.Told)
    (reserved : r.Reserved t ids (Menu.freshCount m.newStates new)) (at_ : now.committed = fs.plug level)
    (h : keeps before t (fs.plug level)) {removedOk : Bool}
    (parts : level.Perm ((m.seats ids old new).filterMap Seat.partner ++
      if removedOk then [] else (m.plan ids old new).removed)) :
    (addStage setup fs.path (m.plan ids old new) removedOk).Meets c t now
      (Leaves r keeps fs before (Ready m.pairs old new)) := by
  obtain ⟨asks, added⟩ := u.adds site told reserved parts h
  have record {extra : Trace} {outcome : AddOutcome}
      (here : Added layout (fs.parent none) (m.plan ids old new) extra outcome) {now' : Progress}
      (committed : now'.committed = fs.plug ((m.plan ids old new).committed removedOk outcome)) (ok : Bool) :
      Leaves r keeps fs before (Ready m.pairs old new) (t ++ extra) now' (.ok ok) :=
    ⟨_, committed, site.fits.ready_committed site.distinct (fun _ h => site.sublist.subset h) site.free _ _,
      added _ _ here⟩
  subst hint
  refine Engine.meets_addStage site.sound at_ rfl rfl ?_ ?_ ?_ ?_ ?_ ?_
  · intro none now' committed
    have kept := record (.nothing none) committed removedOk
    rwa [List.append_nil] at kept
  · exact fun _ => (asks (now.sending _) at_).1
  · exact fun some _ now' committed => record (.rejected some) committed _
  · exact fun some _ leaf now' committed => record (.alone some leaf) committed _
  · exact fun _ _ _ now' committed => (asks now' committed).2
  · intro some _ below accepted _ now' committed
    have kept := record (.both some below accepted) committed (removedOk && accepted)
    rwa [List.append_cons] at kept

theorem meets_batches (u : Upkeep r layout c keeps) {setup : Setup} (hint : setup.settings.defaultLayout = layout)
    (site : r.Site fs new old m ids before) (reserved : r.Reserved t ids (Menu.freshCount m.newStates new))
    (at_ : now.committed = fs.plug old) (h : keeps before t (fs.plug old)) :
    (batches setup fs.path (m.plan ids old new)).Meets c t now
      (Leaves r keeps fs before (Ready m.pairs old new)) := by
  have olds := site.fits.old_perm_seats ids
  have told {t : Trace} (h : r.Reserved t ids (Menu.freshCount m.newStates new)) :
      r.Reserved (t ++ [⟨.poll, false⟩]) ids (Menu.freshCount m.newStates new) := h.idle trivial
  rw [batches]
  refine u.meets_stop site.way at_ h fun t same h => ?_
  subst same
  have reserved := told reserved
  rw [meets_bind]
  refine meets_deleteStage site.sound at_ ?_ ?_ ?_ ?_
  · intro none
    refine u.meets_stop site.way at_ h fun t same h => ?_
    subst same
    refine u.meets_addStage hint site ⟨_, rfl⟩ (told reserved) at_ h ?_
    rwa [none] at olds
  · exact fun some => (u.deletes site ⟨_, rfl⟩ reserved h some).1 _ at_
  · intro some _ now' at'
    have stay := site.fits.stay_perm_seats ids ((Menu.row_sublist old).nodup site.distinct)
    refine u.meets_stop site.way at' (u.deletes site ⟨_, rfl⟩ reserved h some).2.2 fun t same h => ?_
    subst same
    exact u.meets_addStage hint site ⟨_, rfl⟩ (told (reserved.deletes _ true)) at' h (by simpa using stay)
  · intro some _ now' at'
    refine u.meets_stop site.way at' (u.deletes site ⟨_, rfl⟩ reserved h some).2.1 fun t same h => ?_
    subst same
    exact u.meets_addStage hint site ⟨_, rfl⟩ (told (reserved.deletes _ false)) at' h olds

/-! ### Going into the kept nodes -/

/-- A level with a node that is gone into, as what is below this node with a branch around it. -/
theorem exists_branch {o k : Node} (sound : fs.Sound)
    (first : List.find? (·.remoteId = o.remoteId) level =
      some (Node.setChildren { k with remoteId := o.remoteId } o.children))
    (inner : ¬ (o.children.isEmpty && k.children.isEmpty) = true) :
    ∃ f : Branch, f.fill o.children = level ∧ f.node.remoteId = o.remoteId ∧ Context.Sound (fs ++ [f]) := by
  obtain ⟨-, front, back, around, free⟩ := List.find?_eq_some_iff_append.mp first
  let node := Node.setChildren { k with remoteId := o.remoteId } o.children
  refine ⟨⟨front, node, back⟩, ?_, rfl, Context.sound_snoc sound (Node.isSubmenu_setChildren_of_below inner) ?_⟩
  · rw [around, Branch.fill, Node.setChildren_again]
  · intro x hx
    have other : x.remoteId ≠ o.remoteId := by simpa using free x hx
    exact other

/-- Whether a way into nodes that are to become `new` goes through the levels of a tour. -/
def Follows (r : Round) (c : Contract) (keeps : List Path → Trace → Menu → Prop) (new : Menu) (tour : Tour)
    (d : Descent) : Prop :=
  ∀ (fs : Context) (old : Menu) (before : List Path) (t : Trace) (now : Progress), fs.Sound →
    KeptAt r.target r.current fs.path new old → (∀ path, path <+: fs.path → path ≠ fs.path → path ∈ before) →
    before ++ (tour old).map (fs.path ++ ·) <+: r.tour →
    now.committed = fs.plug old → keeps before t (fs.plug old) →
    (d old fs.path).Meets c t now
      (Leaves r keeps fs (before ++ (tour old).map (fs.path ++ ·)) fun _ => True)

/-- Whether the ways into new nodes go through the levels of their tours. With nothing on either side,
there is none. -/
def FollowsBelow (r : Round) (c : Contract) (keeps : List Path → Trace → Menu → Prop) (new : Menu)
    (tours : List Tour) (descents : List Descent) : Prop :=
  ∀ (j : Nat) (n : Node), new[j]? = some n → ∃ tour d, tours[j]? = some tour ∧ descents[j]? = some d ∧
    Follows r c keeps n.children tour d ∧ (n.children = [] → tour [] = [])

theorem map_tourBelow_cons {tours : List Tour} {tour : Tour} {i j : Nat} {o : Node} (pairs : List (Nat × Nat))
    (ho : old[i]? = some o) (htour : tours[j]? = some tour) (path : Path) :
    (tourBelow tours old ((i, j) :: pairs)).map (path ++ ·) =
      (tour o.children).map ((path ++ [o.remoteId]) ++ ·) ++ (tourBelow tours old pairs).map (path ++ ·) := by
  rw [tourBelow, ho, htour, List.map_append, List.map_map]
  refine congrArg (· ++ _) (List.map_congr_left fun rest _ => ?_)
  rw [List.append_assoc]
  rfl

/-- Going into the node of a first pair leaves those of the others as they are. -/
theorem Follows.inside {tour : Tour} {d : Descent} {pairs : List (Nat × Nat)} {i j : Nat} {o n : Node}
    (follows : Follows r c keeps n.children tour d) (sound : fs.Sound)
    (kept : KeptAt r.target r.current fs.path new old) (found : Matching.ofMenus old new = some m)
    (visited : ∀ path, path <+: fs.path → path ∈ before) (pair : (i, j) ∈ m.pairs) (ho : old[i]? = some o)
    (hn : new[j]? = some n) (apart : Apart old ((i, j) :: pairs))
    (way : before ++ (tour o.children).map ((fs.path ++ [o.remoteId]) ++ ·) <+: r.tour)
    (at_ : now.committed = fs.plug level) (h : keeps before t (fs.plug level))
    (ready : Ready ((i, j) :: pairs) old new level)
    (inner : ¬ (o.children.isEmpty && n.children.isEmpty) = true) :
    (d o.children (fs.path ++ [o.remoteId])).Meets c t now (Leaves r keeps fs
      (before ++ (tour o.children).map ((fs.path ++ [o.remoteId]) ++ ·)) (Ready pairs old new)) := by
  have first := ready i j o n (List.mem_cons_self ..) ho hn
  obtain ⟨f, fill, own, soundf⟩ := exists_branch sound first inner
  have pathf : Context.path (fs ++ [f]) = fs.path ++ [o.remoteId] := by rw [Context.path_snoc, own]
  have keptf := kept.snoc found pair ho hn
  rw [← pathf] at keptf way ⊢
  rw [← fill, ← Context.plug_snoc] at at_ h
  refine (follows (fs ++ [f]) o.children before t now soundf keptf ?_ way at_ h).mono fun t' now' res leaves => ?_
  · intro path front other
    rw [pathf] at front other
    exact visited path ((List.prefix_concat_iff.mp front).resolve_left other)
  · cases res with
    | error => exact leaves
    | ok =>
      obtain ⟨level', at', -, h'⟩ := leaves
      rw [Context.plug_snoc] at at' h'
      refine ⟨f.fill level', at', ?_, h'⟩
      have later : Ready pairs old new (f.fill o.children) := by
        rw [fill]
        exact fun i j o n hp => ready i j o n (List.mem_cons_of_mem _ hp)
      refine later.fill (fun p hp o' ho' same => ?_) level'
      exact (List.pairwise_cons.mp apart).1 p hp o o' ho ho' (same.trans own).symm

theorem meets_descend (u : Upkeep r layout c keeps) {tours : List Tour} {descents : List Descent}
    (sound : fs.Sound) (kept : KeptAt r.target r.current fs.path new old)
    (found : Matching.ofMenus old new = some m) (visited : ∀ path, path <+: fs.path → path ∈ before)
    (below : FollowsBelow r c keeps new tours descents) {pairs : List (Nat × Nat)} (sub : pairs ⊆ m.pairs)
    (apart : Apart old pairs) (way : before ++ (tourBelow tours old pairs).map (fs.path ++ ·) <+: r.tour)
    (at_ : now.committed = fs.plug level) (h : keeps before t (fs.plug level))
    (ready : Ready pairs old new level) :
    (descend (m.plan ids old new) descents fs.path pairs).Meets c t now
      (Leaves r keeps fs (before ++ (tourBelow tours old pairs).map (fs.path ++ ·)) fun _ => True) := by
  -- What is left of the tour begins with the levels below the node of the first pair.
  induction pairs generalizing before t now level with
  | nil =>
    refine ⟨level, at_, trivial, ?_⟩
    rwa [tourBelow, List.map_nil, List.append_nil]
  | cons p pairs ih =>
    obtain ⟨i, j⟩ := p
    have fits := Matching.fits_of_ofKeys found
    have pair := sub (List.mem_cons_self ..)
    obtain ⟨o, n, ho, hn, -, seat⟩ := fits.seat_of_pair ids pair
    obtain ⟨tour, d, htour, hd, follows, idle⟩ := below j n hn
    have hnew := Matching.getElem?_plan seat
    have hold : (m.plan ids old new).old[i]? = some o := ho
    have others (before : List Path) (visited : ∀ path, path <+: fs.path → path ∈ before) {t : Trace}
        {now : Progress} {level : Menu} :=
      @ih t now level before visited (fun p hp => sub (List.mem_cons_of_mem _ hp)) (List.pairwise_cons.mp apart).2
    rw [map_tourBelow_cons pairs ho htour, ← List.append_assoc] at way ⊢
    have here := (List.prefix_append ..).trans way
    rw [descend]
    refine u.meets_stop ((List.prefix_append ..).trans here) at_ h fun t _ h => ?_
    rw [hold, hnew, hd]
    dsimp only
    split
    · next empty =>
      obtain ⟨noOld, noNew⟩ := Bool.and_eq_true_iff.mp empty
      rw [List.isEmpty_iff.mp noOld, idle (List.isEmpty_iff.mp noNew), List.map_nil, List.append_nil] at way ⊢
      exact others before visited way at_ h fun i j o n hp => ready i j o n (List.mem_cons_of_mem _ hp)
    · next inner =>
      have inside := follows.inside sound kept found visited pair ho hn apart here at_ h ready inner
      rw [meets_bind]
      refine inside.mono fun t' now' res leaves => ?_
      cases res with
      | error => exact leaves
      | ok ok =>
        obtain ⟨level', at', ready', h'⟩ := leaves
        rw [onward_ok, meets_bind]
        refine (others _ (fun path front => List.mem_append_left _ (visited path front)) way at' h' ready').mono
          fun t'' now'' res leaves => ?_
        cases res <;> exact leaves

/-! ### Whole levels -/

theorem follows_reconcileWith (u : Upkeep r layout c keeps) {setup : Setup}
    (hint : setup.settings.defaultLayout = layout) {tours : List Tour} {descents : List Descent}
    (below : FollowsBelow r c keeps new tours descents) :
    Follows r c keeps new (tourWith tours new) (reconcileWith setup descents new) := by
  intro fs old before t now sound kept above way at_ h
  rw [reconcileWith]
  refine u.meets_stop ((List.prefix_append ..).trans way) at_ h fun t _ h => ?_
  rw [meets_bind, meets_count, onward_ok]
  cases found : Matching.ofMenus old new with
  | none =>
    have none : tourWith tours new old = [] := by rw [tourWith, found]
    rw [none, List.map_nil, List.append_nil]
    exact ⟨old, at_, trivial, h⟩
  | some m =>
    have fits := Matching.fits_of_ofKeys found
    have first : tourWith tours new old = [] :: tourBelow tours old m.pairs := by rw [tourWith, found]
    rw [first, List.map_cons, List.append_nil, List.append_cons] at way ⊢
    -- From here on, the level itself counts as gone into.
    have entered : before ++ [fs.path] <+: r.tour := (List.prefix_append ..).trans way
    have visited (path : Path) (front : path <+: fs.path) : path ∈ before ++ [fs.path] := by
      by_cases here : path = fs.path
      · exact here ▸ List.mem_append_right _ (List.mem_singleton_self _)
      · exact List.mem_append_left _ (above path front here)
    dsimp only
    rw [meets_bind]
    refine fits.meets_settleIds.mpr ⟨?_, fun ids fair => ?_⟩
    · exact u.asks ((List.prefix_append ..).trans entered) (at_ ▸ h) _ fun batch send => by cases send
    · rw [u.fresh] at fair
      obtain ⟨rfl, apart⟩ := fair
      have site : r.Site fs new old m (r.start.skip t.drawn) (before ++ [fs.path]) :=
        ⟨sound, kept, found, fits.free apart, visited, entered⟩
      have h := u.reserve fs.path (Menu.freshCount m.newStates new) (r.start.skip t.drawn) h
      have reserved := Round.Reserved.draw r t (Menu.freshCount m.newStates new)
      rw [onward_ok, meets_bind]
      refine meets_applyPlan (fun extra artworks now' same i about => ?_) fun extra now' artworks same _ => ?_
      · have idle (e : Exchange) (he : e ∈ extra) := (artworks e he).idle
        have kept := u.stays h idle
        rw [← at_, ← same] at kept
        exact u.asks entered kept i fun batch send => by cases send ▸ about
      · have idle (e : Exchange) (he : e ∈ extra) := (artworks e he).idle
        refine (u.meets_batches hint site (reserved.idles idle) (same.trans at_) (u.stays h idle)).mono fun t now res leaves => ?_
        cases res with
        | error => exact leaves
        | ok ok =>
          obtain ⟨level, at', ready, h'⟩ := leaves
          rw [onward_ok, meets_bind]
          have row := (Menu.row_sublist old).nodup site.distinct
          refine (u.meets_descend sound kept found visited below (List.Subset.refl _) (fits.apart row) way at' h'
            ready).mono fun t now res leaves => ?_
          cases res <;> exact leaves

mutual

theorem follows_descent (u : Upkeep r layout c keeps) {setup : Setup}
    (hint : setup.settings.defaultLayout = layout) : (n : Node) →
    Follows r c keeps n.children n.tour (n.descent setup) ∧ (n.children = [] → n.tour [] = [])
  | ⟨_, children, _, _, _⟩ => by
    rw [Node.descent, Node.tour]
    refine ⟨u.follows_reconcileWith hint (u.follows_descents hint children), ?_⟩
    rintro rfl
    rfl

theorem follows_descents (u : Upkeep r layout c keeps) {setup : Setup}
    (hint : setup.settings.defaultLayout = layout) : (menu : Menu) →
    FollowsBelow r c keeps menu menu.tours (Menu.descents setup menu)
  | [], j, n, h => by simp at h
  | n :: ns, 0, n', h => by
    obtain rfl : n = n' := by simpa using h
    rw [Menu.tours, Menu.descents]
    exact ⟨_, _, rfl, rfl, u.follows_descent hint n⟩
  | n :: ns, j + 1, n', h => by
    rw [Menu.tours, Menu.descents]
    exact u.follows_descents hint ns j n' (by simpa using h)

end

/-! ### Whole updates -/

/-- Whatever the levels of an update keep, it keeps itself, having gone into some of them. -/
theorem keeps_run (u : Upkeep r layout c keeps) {job : Job} (target : job.target = r.target)
    (hint : job.setup.settings.defaultLayout = layout) (h : keeps [] [] r.current) :
    (job.run { committed := r.current }).Keeps c
      (fun t now _ => ∃ before, before <+: r.tour ∧ keeps before t now.committed) [] := by
  refine Job.meets_run (fun t now => ∃ before, before <+: r.tour ∧ keeps before t now.committed)
    ⟨[], List.nil_prefix, h⟩ ?_ ?_ ?_
  · rintro t now i ⟨before, way, h⟩ life
    exact u.asks way h i fun batch send => by cases send ▸ life
  · rintro t now e ⟨before, way, h⟩ life
    exact ⟨before, way, u.stay e h life.idle⟩
  · intro extra life _
    have follows : Follows r c keeps r.target r.target.tour (Menu.reconcile job.setup r.target) :=
      u.follows_reconcileWith hint (u.follows_descents hint r.target)
    have whole : ([] : List Path) ++ (r.target.tour r.current).map (Context.path [] ++ ·) = r.tour := by
      rw [List.nil_append]
      exact List.map_id' _
    rw [target]
    refine (follows [] r.current [] _ _ (by simp [Context.Sound]) (.top _ _) ?_ (whole ▸ List.prefix_refl _) rfl
      (u.stays h fun e he => (life e he).idle)).mono fun t now res leaves => ?_
    · intro path front other
      exact absurd (List.prefix_nil.mp front) other
    · cases res with
      | error => exact leaves
      | ok =>
        obtain ⟨level, at_, -, h⟩ := leaves
        exact ⟨_, whole ▸ List.prefix_refl _, at_ ▸ h⟩

end Upkeep

end RemoteMenu
