import RemoteMenu.Proofs.Update.Account

/-!
# What is committed is what the update comes to

An update that is never asked to stop edits one menu, level by level through the paths to them, and what
it leaves there is what it comes to by the recursion of `Menu.account`. The contract `exactly` says what
answers such an update gets. That the edits of one level leave all others alone comes from the ids: those
of the old menu are distinct, and none of them is handed out again.
-/

namespace RemoteMenu

open Engine

/-- What an update is looked at under: the supply that its ids are drawn from, what the host makes of its
batches, and ids that are not to be drawn. -/
structure Course where
  start : IdSupply
  verdict : Verdict
  taken : List RemoteId

namespace Trace

def standing (start : IdSupply) (t : Trace) : Standing := ⟨start.skip t.drawn, t.batches⟩

def state (t : Trace) : OperationState := t.entered.getLast?.getD .queued

end Trace

/-- The update is not asked to stop. Ids come from the supply one after another. -/
def exactly (w : Course) : Contract where
  fair t
    | ⟨.poll, canceled⟩ => canceled = false
    | ⟨.enter _, passage⟩ => passage = .entered
    | ⟨.reserve count, ids⟩ => ids = w.start.skip t.drawn ∧ ∀ k < t.drawn + count, w.start.nth k ∉ w.taken
    | ⟨.world (.send _), accepted⟩ => accepted = w.verdict t.batches.length
    | _ => True
  asks t _
    | .enter state => t.state.canMove state = true
    | _ => True

theorem lenient_exactly (w : Course) : (exactly w).Lenient := by
  intro t now i aside
  cases i with
  | enter => cases aside
  | _ => trivial

/-- What a part of a level leaves behind: the menu with some level, a standing of the update, and whether
every batch since some trace was accepted. -/
structure Comes (w : Course) (fs : Context) (level : Menu) (s : Standing) (t t' : Trace) (now : Progress)
    (r : Except Halt Bool) : Prop where
  committed : now.committed = fs.plug level
  standing : t'.standing w.start = s
  entered : t'.entered = t.entered
  result : ∃ more, t'.batches = t.batches ++ more ∧ r = .ok (more.all (·.2))

section
variable {w : Course} {fs : Context} {t : Trace} {now : Progress} {old : Menu}

theorem Trace.standing_aside {extra : Trace} (aside : ∀ e ∈ extra, e.inquiry.Aside) :
    standing w.start (t ++ extra) = standing w.start t := by
  rw [standing, standing, Trace.drawn_aside aside, Trace.batches_aside aside]

theorem Trace.standing_send (batch : List Command) (accepted : Bool) :
    standing w.start (t ++ [⟨.world (.send batch), accepted⟩]) =
      ⟨(standing w.start t).ids, (standing w.start t).log ++ [(batch, accepted)]⟩ := by
  rw [standing, standing, Trace.drawn_send, Trace.batches_send]

theorem Trace.standing_poll : standing w.start (t ++ [⟨.poll, false⟩]) = standing w.start t :=
  standing_aside (by simp [Inquiry.Aside])

omit w in
theorem Trace.entered_poll : entered (t ++ [⟨.poll, false⟩]) = entered t :=
  entered_aside (by simp [Inquiry.Aside])

omit w in
theorem Trace.batches_poll : batches (t ++ [⟨.poll, false⟩]) = batches t :=
  batches_aside (by simp [Inquiry.Aside])

omit t old in
theorem Comes.of_poll {level : Menu} {s : Standing} {t t' : Trace} {r : Except Halt Bool}
    (h : Comes w fs level s (t ++ [⟨.poll, false⟩]) t' now r) : Comes w fs level s t t' now r := by
  obtain ⟨more, log, all⟩ := h.result
  rw [Trace.batches_poll] at log
  exact ⟨h.committed, h.standing, h.entered.trans Trace.entered_poll, more, log, all⟩

omit t old in
/-- What comes behind something that was done before. -/
theorem Comes.behind {level : Menu} {s : Standing} {t t' t'' : Trace} {ok : Bool}
    {more : List (List Command × Bool)} (h : Comes w fs level s t' t'' now (.ok ok))
    (entered : t'.entered = t.entered) (log : t'.batches = t.batches ++ more) :
    Comes w fs level s t t'' now (.ok (more.all (·.2) && ok)) := by
  obtain ⟨more', log', all⟩ := h.result
  obtain rfl := Except.ok.inj all
  refine ⟨h.committed, h.standing, h.entered.trans entered, more ++ more', ?_, ?_⟩
  · rw [log', log, List.append_assoc]
  · rw [List.all_append]

/-! ### The batches of a level -/

theorem exactly_deleteStage (sound : fs.Sound) (at_ : now.committed = fs.plug old) (plan : LevelPlan) :
    (deleteStage fs.path plan).Meets (exactly w) t now fun t' now' r =>
      (∃ level, now'.committed = fs.plug level) ∧ t'.entered = t.entered ∧
      t'.standing w.start = ((t.standing w.start).delete w.verdict plan.removed).2 ∧
      r = .ok ((t.standing w.start).delete w.verdict plan.removed).1 := by
  have sent (some : plan.removed ≠ []) {accepted : Bool} (fair : accepted = w.verdict t.batches.length) :
      (t.standing w.start).delete w.verdict plan.removed =
        (accepted, Trace.standing w.start
          (t ++ [⟨.world (.send (Command.deletes plan.removed)), accepted⟩])) := by
    rw [Standing.delete, if_neg some, Trace.standing_send, fair]
    rfl
  refine meets_deleteStage sound at_ ?_ (fun _ => trivial) ?_ ?_
  · intro none
    rw [Standing.delete, if_pos none]
    exact ⟨⟨old, at_⟩, rfl, rfl, rfl⟩
  · intro some fair now' committed
    rw [sent some fair]
    exact ⟨⟨_, committed⟩, Trace.entered_send .., rfl, rfl⟩
  · intro some fair now' committed
    rw [sent some fair]
    exact ⟨⟨_, committed⟩, Trace.entered_send .., rfl, rfl⟩

theorem exactly_addStage (sound : fs.Sound) (at_ : now.committed = fs.plug old) (setup : Setup)
    (plan : LevelPlan) (removedOk : Bool) :
    (addStage setup fs.path plan removedOk).Meets (exactly w) t now fun t' now' r =>
      let adds := (t.standing w.start).add w.verdict setup.settings.defaultLayout (fs.parent none)
        plan.new plan.added
      now'.committed = fs.plug (plan.committed removedOk adds.1) ∧ t'.entered = t.entered ∧
      t'.standing w.start = adds.2 ∧ r = .ok (removedOk && adds.1.succeeded) := by
  extract_lets adds
  let main := Command.adds setup.settings.defaultLayout (fs.parent none) plan.new plan.added
  let nested := Command.nestedAdds setup.settings.defaultLayout plan.new plan.added
  have first : adds = (t.standing w.start).add w.verdict setup.settings.defaultLayout (fs.parent none)
    plan.new plan.added := rfl
  unfold Standing.add at first
  -- The host's answer to the first batch, and to the second one, as the account has them.
  have sent {t : Trace} {batch : List Command} {accepted : Bool}
      (fair : accepted = w.verdict t.batches.length) : (t.standing w.start).send w.verdict batch =
        (accepted, Trace.standing w.start (t ++ [⟨.world (.send batch), accepted⟩])) := by
    rw [Trace.standing_send, fair]
    rfl
  refine meets_addStage sound at_ (rfl : _ = main) (rfl : _ = nested) ?_ (fun _ => trivial) ?_ ?_
    (fun _ _ _ _ _ => trivial) ?_
  · intro none now' committed
    rw [if_pos none] at first
    rw [first]
    exact ⟨committed, rfl, rfl, by simp [AddOutcome.succeeded]⟩
  · intro some fair now' committed
    rw [if_neg some, sent fair] at first
    rw [first]
    exact ⟨committed, Trace.entered_send .., rfl, by simp [AddOutcome.succeeded]⟩
  · intro some fair leaf now' committed
    rw [if_neg some, sent fair] at first
    dsimp only at first
    rw [if_neg (by simp), if_pos leaf] at first
    rw [first]
    exact ⟨committed, Trace.entered_send .., rfl, by simp [AddOutcome.succeeded]⟩
  · intro some fair below accepted fair' now' committed
    rw [if_neg some, sent fair] at first
    dsimp only at first
    rw [if_neg (by simp), if_neg below, sent fair'] at first
    rw [first]
    refine ⟨committed, ?_, rfl, by simp [AddOutcome.succeeded]⟩
    rw [Trace.entered_send, Trace.entered_send]

/-- The batches of a level leave what the account says before it goes into the kept nodes. -/
theorem exactly_batches (sound : fs.Sound) (at_ : now.committed = fs.plug old) (setup : Setup)
    (plan : LevelPlan) :
    let deletes := (t.standing w.start).delete w.verdict plan.removed
    let adds := deletes.2.add w.verdict setup.settings.defaultLayout (fs.parent none) plan.new plan.added
    (batches setup fs.path plan).Meets (exactly w) t now fun t' now' r =>
      Comes w fs (plan.committed deletes.1 adds.1) adds.2 t t' now' r := by
  extract_lets deletes adds
  obtain ⟨more, log, deleted⟩ := (t.standing w.start).delete_spec w.verdict plan.removed
  obtain ⟨more', log', added⟩ := deletes.2.add_spec w.verdict setup.settings.defaultLayout
    (fs.parent none) plan.new plan.added
  refine meets_stop ((lenient_exactly w).polls _ _) (fun stopped => by cases stopped) fun _ => ?_
  rw [meets_bind]
  refine (exactly_deleteStage sound at_ plan).mono ?_
  rintro t' now' r ⟨⟨level, at'⟩, entered, standing, rfl⟩
  rw [Trace.standing_poll] at standing ⊢
  rw [onward_ok]
  refine meets_stop ((lenient_exactly w).polls _ _) (fun stopped => by cases stopped) fun _ => ?_
  refine (exactly_addStage sound at' setup plan _).mono ?_
  rintro t'' now'' r ⟨committed, entered', standing', rfl⟩
  rw [Trace.standing_poll, standing] at committed standing'
  rw [Trace.standing_poll, standing]
  refine ⟨committed, standing', ?_, more ++ more', ?_, ?_⟩
  · rw [entered', Trace.entered_poll, entered, Trace.entered_poll]
  · have all := congrArg Standing.log standing'
    rw [log', log, List.append_assoc] at all
    exact all
  · rw [List.all_append, ← deleted, ← added]

/-! ### Going into the kept nodes -/

theorem Seat.remoteId_reached {s : Seat} {adds : AddOutcome} {below : Reached} {n x : Node}
    (h : x ∈ (s.reached adds below n).menu) : x.remoteId = s.node.remoteId := by
  unfold Seat.reached at h
  split at h
  · obtain rfl := List.mem_singleton.mp h
    rfl
  · split at h
    · split at h <;> obtain rfl := List.mem_singleton.mp h <;> rfl
    · cases h

/-- Of what is below, only the children of kept nodes are looked at. -/
theorem gather_congr {adds : AddOutcome} {below below' : Nat → Reached} {j : Nat} {new : Menu}
    {seats : List Seat} (h : ∀ k s, seats[k]? = some s → s.partner.isSome = true →
      (below (j + k)).menu = (below' (j + k)).menu) :
    (gather adds below j new seats).menu = (gather adds below' j new seats).menu := by
  induction new generalizing seats j with
  | nil => cases seats <;> rfl
  | cons n ns ih =>
    cases seats with
    | nil => rfl
    | cons s seats =>
      have rest : (gather adds below (j + 1) ns seats).menu = (gather adds below' (j + 1) ns seats).menu := by
        refine ih fun k s' hs' kept => ?_
        have there := h (k + 1) s' (by simpa using hs') kept
        rwa [← Nat.add_assoc, Nat.add_right_comm] at there
      have here : (s.reached adds (below j) n).menu = (s.reached adds (below' j) n).menu := by
        unfold Seat.reached
        cases partner : s.partner with
        | none => rfl
        | some o =>
          have own := h 0 s rfl (by rw [partner]; rfl)
          rw [Nat.add_zero] at own
          dsimp only
          rw [own]
      rw [gather, gather, Reached.menu_append, Reached.menu_append, here, rest]

theorem gather_shown {adds : AddOutcome} {below : Nat → Reached} {j : Nat} {new : Menu} {seats : List Seat}
    (length : seats.length = new.length) (h : ∀ k s o, seats[k]? = some s → s.partner = some o →
      (below (j + k)).menu = o.children) :
    (gather adds below j new seats).menu = seats.filterMap (Seat.shown adds) := by
  induction seats generalizing new j with
  | nil => cases new <;> rfl
  | cons s seats ih =>
    cases new with
    | nil => cases length
    | cons n ns =>
      have rest := ih (j := j + 1) (Nat.succ.inj length) fun k s' o hs' partner => by
        have there := h (k + 1) s' o (by simpa using hs') partner
        rwa [← Nat.add_assoc, Nat.add_right_comm] at there
      have here : (s.reached adds (below j) n).menu = (s.shown adds).toList := by
        unfold Seat.reached Seat.shown
        cases partner : s.partner with
        | none => cases adds.created <;> cases adds.nested <;> rfl
        | some o =>
          have own := h 0 s o rfl partner
          rw [Nat.add_zero] at own
          dsimp only
          rw [own, Node.setChildren_again]
          rfl
      rw [gather, Reached.menu_append, here, rest]
      cases shown : s.shown adds with
      | none => rw [List.filterMap_cons_none shown]; rfl
      | some k => rw [List.filterMap_cons_some shown]; rfl

/-- What kept nodes have before they are gone into: their old children. -/
def untouched (seats : List Seat) (j : Nat) : Reached :=
  { menu := ((seats[j]?.bind Seat.partner).map Node.children).getD [] }

theorem untouched_of_partner {seats : List Seat} {j : Nat} {s : Seat} {o : Node}
    (hs : seats[j]? = some s) (partner : s.partner = some o) : (untouched seats j).menu = o.children := by
  simp only [untouched, hs, Option.bind_some, partner, Option.map_some, Option.getD_some]

theorem Matching.Fits.committed_eq_gather {new : Menu} {m : Matching} {ids : IdSupply}
    (fits : m.Fits (old.map Node.contentKey) (new.map Node.contentKey)) (removedOk : Bool)
    (adds : AddOutcome) :
    (m.plan ids old new).committed removedOk adds =
      (gather adds (untouched (m.seats ids old new)) 0 new (m.seats ids old new)).menu ++
        if removedOk then [] else (m.plan ids old new).removed := by
  rw [fits.committed_eq, gather_shown (fits.length_seats ids)]
  intro k s o hs partner
  rw [Nat.zero_add]
  exact untouched_of_partner hs partner

/-- The siblings of a kept node do not depend on what its children come to. -/
theorem gather_split (adds : AddOutcome) (below : Nat → Reached) {new : Menu} {seats : List Seat}
    {i j : Nat} {n o : Node} {s : Seat} (hn : new[j]? = some n) (hs : seats[j]? = some s)
    (partner : s.partner = some o) :
    ∃ before after, (∀ r, (gather adds (Function.update below (i + j) r) i new seats).menu =
        before ++ (s.node.setChildren o.children).setChildren r.menu :: after) ∧
      ∀ x ∈ before, ∃ k s', k < j ∧ seats[k]? = some s' ∧ x.remoteId = s'.node.remoteId := by
  induction j generalizing new seats i with
  | zero =>
    cases new with
    | nil => cases hn
    | cons n' ns =>
      cases seats with
      | nil => cases hs
      | cons s' seats =>
        obtain rfl : s' = s := Option.some.inj hs
        refine ⟨[], (gather adds below (i + 1) ns seats).menu, fun r => ?_, by simp⟩
        have rest : (gather adds (Function.update below (i + 0) r) (i + 1) ns seats).menu =
            (gather adds below (i + 1) ns seats).menu := by
          refine gather_congr fun k _ _ _ => congrArg Reached.menu (Function.update_of_ne ?_ _ _)
          omega
        rw [gather, Reached.menu_append, rest, Nat.add_zero, Function.update_self]
        simp only [Seat.reached, partner]
        rfl
  | succ j ih =>
    cases new with
    | nil => cases hn
    | cons n' ns =>
      cases seats with
      | nil => cases hs
      | cons s' seats =>
        obtain ⟨before, after, split, ids⟩ := ih (i := i + 1) (by simpa using hn) (by simpa using hs)
        refine ⟨(s'.reached adds (below i) n').menu ++ before, after, fun r => ?_, ?_⟩
        · have index : i + (j + 1) = i + 1 + j := by omega
          have other : i ≠ i + 1 + j := by omega
          rw [gather, Reached.menu_append, index, split, Function.update_of_ne other, List.append_assoc]
        · intro x hx
          rcases List.mem_append.mp hx with own | later
          · exact ⟨0, s', Nat.succ_pos j, rfl, Seat.remoteId_reached own⟩
          · obtain ⟨k, s'', bound, there, same⟩ := ids x later
            exact ⟨k + 1, s'', by omega, by simpa using there, same⟩

/-- Whether a way into a node leaves what an account says below any context. -/
def Exact (w : Course) (d : Descent) (account : Account) : Prop :=
  ∀ (fs : Context) (old : Menu) (t : Trace) (now : Progress), fs.Sound → now.committed = fs.plug old →
    old.ids.Nodup → (∀ id ∈ old.ids, id ∈ w.taken) →
    (d old fs.path).Meets (exactly w) t now fun t' now' r =>
      Comes w fs (account old (fs.parent none) (t.standing w.start)).1.menu
        (account old (fs.parent none) (t.standing w.start)).2 t t' now' r

/-- Whether the ways into new nodes leave what the accounts say. With nothing on either side, there is
nothing to do. -/
def ExactBelow (w : Course) (descents : List Descent) (accounts : List Account) (new : Menu) : Prop :=
  ∀ (j : Nat) (n : Node), new[j]? = some n → ∃ d account, descents[j]? = some d ∧
    accounts[j]? = some account ∧ Exact w d account ∧
    (n.children = [] → ∀ parent s, account [] parent s = ({}, s))

variable {new : Menu} {m : Matching} {ids : IdSupply}

/-- A kept node with something below it on either side, as the level that is gone into stands in it. -/
theorem Matching.Fits.exists_branch (fits : m.Fits (old.map Node.contentKey) (new.map Node.contentKey))
    (sound : fs.Sound) (distinct : old.ids.Nodup) (taken : ∀ id ∈ old.ids, id ∈ w.taken)
    (free : ∀ id ∈ Menu.ids (freshNodes (m.seats ids old new)), id ∉ w.taken) (adds : AddOutcome)
    (left : Menu) (so : Nat → Reached) {i j : Nat} {o n : Node} (pair : (i, j) ∈ m.pairs)
    (ho : old[i]? = some o) (hn : new[j]? = some n)
    (seat : (m.seats ids old new)[j]? = some ⟨some o, { n with remoteId := o.remoteId }⟩)
    (inner : ¬ (o.children.isEmpty && n.children.isEmpty) = true) :
    ∃ f : Branch, f.node.remoteId = o.remoteId ∧ Context.Sound (fs ++ [f]) ∧
      ∀ r, fs.plug ((gather adds (Function.update so j r) 0 new (m.seats ids old new)).menu ++ left) =
        Context.plug (fs ++ [f]) r.menu := by
  obtain ⟨before, rest, split, earlier⟩ := gather_split adds so (i := 0) hn seat rfl
  rw [Nat.zero_add] at split
  let node : Node := Node.setChildren { n with remoteId := o.remoteId } o.children
  refine ⟨⟨before, node, rest ++ left⟩, rfl, Context.sound_snoc sound ?_ fun x hx => ?_, fun r => ?_⟩
  · exact Node.isSubmenu_setChildren_of_below inner
  · obtain ⟨k, s, before, hs, same⟩ := earlier x hx
    rw [same]
    have first := fits.first_seat distinct taken free pair ho (Nat.ne_of_lt before) hs
    exact first
  · rw [Context.plug_snoc, split, List.append_assoc, List.cons_append]
    rfl

theorem ite_mem_update {js : List Nat} {j : Nat} (newcomer : j ∉ js) (so below : Nat → Reached) (r : Reached) :
    (fun k => if k ∈ js then below k else Function.update so j r k) =
      fun k => if k ∈ j :: js then Function.update below j r k else so k := by
  funext k
  by_cases same : k = j
  · subst same
    rw [if_neg newcomer, if_pos (List.mem_cons_self ..), Function.update_self, Function.update_self]
  · rw [Function.update_of_ne same, Function.update_of_ne same]
    simp only [List.mem_cons, same, false_or]

theorem Matching.Fits.exactly_descend {descents : List Descent} {accounts : List Account}
    (fits : m.Fits (old.map Node.contentKey) (new.map Node.contentKey))
    (exact : ExactBelow w descents accounts new) (sound : fs.Sound) (distinct : old.ids.Nodup)
    (taken : ∀ id ∈ old.ids, id ∈ w.taken)
    (free : ∀ id ∈ Menu.ids (freshNodes (m.seats ids old new)), id ∉ w.taken) {adds : AddOutcome}
    {left : Menu} {so : Nat → Reached} {pairs : List (Nat × Nat)} (sub : pairs ⊆ m.pairs)
    (once : (pairs.map Prod.snd).Nodup)
    (at_ : now.committed = fs.plug ((gather adds so 0 new (m.seats ids old new)).menu ++ left))
    (untouched : ∀ p ∈ pairs, ∀ o, old[p.1]? = some o → (so p.2).menu = o.children) :
    (descend (m.plan ids old new) descents fs.path pairs).Meets (exactly w) t now fun t' now' r =>
      let below := enter accounts old (m.plan ids old new).new pairs (t.standing w.start)
      Comes w fs ((gather adds (fun k => if k ∈ pairs.map Prod.snd then below.1 k else so k) 0 new
        (m.seats ids old new)).menu ++ left) below.2 t t' now' r := by
  -- Each step goes into one kept node, from what the nodes before it have come to.
  induction pairs generalizing t now so with
  | nil => exact ⟨by simpa [enter] using at_, rfl, rfl, [], by simp, rfl⟩
  | cons p pairs ih =>
    obtain ⟨i, j⟩ := p
    have pair := sub (List.mem_cons_self ..)
    obtain ⟨o, n, ho, hn, -, seat⟩ := fits.seat_of_pair ids pair
    obtain ⟨d, account, hd, hacc, step, idle⟩ := exact j n hn
    have hnew := Matching.getElem?_plan seat
    have hold : (m.plan ids old new).old[i]? = some o := ho
    obtain ⟨newcomer, once⟩ := List.nodup_cons.mp once
    have others (so : Nat → Reached) {t : Trace} {now : Progress} :=
      @ih t now so (fun p hp => sub (List.mem_cons_of_mem _ hp)) once
    have here : (so j).menu = o.children := untouched (i, j) (List.mem_cons_self ..) o ho
    rw [descend]
    refine meets_stop ((lenient_exactly w).polls _ _) (fun stopped => by cases stopped) fun _ => ?_
    rw [hold, hnew, hd]
    simp only [enter, ho, hnew, hacc]
    have untouched' (r : Reached) : ∀ p ∈ pairs, ∀ o, old[p.1]? = some o →
        (Function.update so j r p.2).menu = o.children := by
      intro p hp o' ho'
      have other : p.2 ≠ j := fun same => newcomer (List.mem_map.mpr ⟨p, hp, same⟩)
      rw [Function.update_of_ne other]
      exact untouched p (List.mem_cons_of_mem _ hp) o' ho'
    split
    · next inner =>
      obtain ⟨noOld, noNew⟩ := Bool.and_eq_true_iff.mp inner
      have noOld := List.isEmpty_iff.mp noOld
      rw [noOld, idle (List.isEmpty_iff.mp noNew)]
      refine (others (Function.update so j {}) ?_ (untouched' _)).mono fun t' now' r comes => ?_
      · rw [at_]
        refine congrArg (fun level => fs.plug (level ++ left)) (gather_congr fun k _ _ _ => ?_)
        rw [Nat.zero_add]
        by_cases same : k = j
        · rw [same, Function.update_self, here, noOld]
        · rw [Function.update_of_ne same]
      · dsimp only at comes
        rw [ite_mem_update newcomer, Trace.standing_poll] at comes
        exact comes.of_poll
    · next inner =>
      obtain ⟨f, own, soundf, fill⟩ := fits.exists_branch sound distinct taken free adds left so pair ho hn seat inner
      have at' : now.committed = Context.plug (fs ++ [f]) o.children := by
        have whole := fill (so j)
        rw [Function.update_eq_self, here] at whole
        exact at_.trans whole
      have under := Menu.ids_children_sublist (List.mem_of_getElem? ho)
      have inside := step (fs ++ [f]) o.children (t ++ [⟨.poll, false⟩]) now soundf at' (under.nodup distinct)
        fun id hid => taken id (under.subset hid)
      rw [Context.path_snoc, Context.parent_snoc, own, Trace.standing_poll] at inside
      rw [meets_bind]
      refine inside.mono fun t' now' r comes => ?_
      obtain ⟨more, log, rfl⟩ := comes.result
      rw [onward_ok, meets_bind]
      have out := comes.committed
      rw [← fill] at out
      refine (others _ out (untouched' _)).mono fun t'' now'' r comes' => ?_
      dsimp only at comes'
      rw [ite_mem_update newcomer, comes.standing] at comes'
      obtain ⟨more', -, rfl⟩ := comes'.result
      rw [onward_ok]
      exact (comes'.behind comes.entered log).of_poll

/-! ### Whole levels -/

theorem exact_reconcileWith {setup : Setup} {layout : Layout} {descents : List Descent}
    {accounts : List Account} (hint : setup.settings.defaultLayout = layout)
    (below : ExactBelow w descents accounts new) :
    Exact w (reconcileWith setup descents new) (accountWith layout w.verdict accounts new) := by
  intro fs old t now sound at_ distinct taken
  rw [reconcileWith]
  refine meets_stop ((lenient_exactly w).polls _ _) (fun stopped => by cases stopped) fun _ => ?_
  refine Engine.Meets.mono ?_ fun t' now' r comes => Comes.of_poll comes
  rw [← Trace.standing_poll]
  generalize (t ++ [⟨.poll, false⟩] : Trace) = t
  rw [meets_bind, meets_count, onward_ok]
  cases found : Matching.ofMenus old new with
  | none =>
    have empty := Matching.ofKeys_eq_none found
    rw [List.map_eq_nil_iff, List.map_eq_nil_iff] at empty
    rw [accountWith, found]
    refine ⟨?_, rfl, rfl, [], by simp, rfl⟩
    rw [← empty.1]
    exact at_
  | some m =>
    have fits := Matching.fits_of_ofKeys found
    dsimp only
    rw [meets_bind]
    refine fits.meets_settleIds.mpr ⟨trivial, fun ids fair => ?_⟩
    obtain ⟨rfl, apart⟩ := fair
    have free := fits.free apart
    obtain ⟨supply, -⟩ := seats_fresh (w.start.skip t.drawn) fits.length_partners
    rw [← fits.states_eq, ← IdSupply.skip_add] at supply
    let drawn : Trace := t ++ [⟨.reserve (Menu.freshCount m.newStates new), w.start.skip t.drawn⟩]
    have reserved : Trace.standing w.start drawn =
        ⟨(Menu.seats (w.start.skip t.drawn) (m.partners old) new).2, t.batches⟩ := by
      rw [Trace.standing, Trace.drawn_reserve, Trace.batches_reserve, supply]
    rw [accountWith_eq found, onward_ok, meets_bind]
    change Engine.Meets _ _ drawn _ _
    refine meets_applyPlan ((lenient_exactly w).questions _ _) fun extra now' artworks same _ => ?_
    have aside : ∀ e ∈ extra, e.inquiry.Aside := fun e he => (artworks e he).aside
    have level := exactly_batches (w := w) (t := drawn ++ extra) sound (same.trans at_) setup
      (m.plan (w.start.skip t.drawn) old new)
    rw [Trace.standing_aside aside, reserved, hint] at level
    refine level.mono fun t' now'' r comes => ?_
    obtain ⟨more, log, rfl⟩ := comes.result
    rw [onward_ok, meets_bind]
    have committed := comes.committed
    rw [fits.committed_eq_gather] at committed
    refine (fits.exactly_descend below sound distinct taken free (List.Subset.refl _) fits.once committed
      fun p hp o ho => ?_).mono fun t'' now r comes' => ?_
    · obtain ⟨o', n, ho', -, -, seat⟩ := fits.seat_of_pair (w.start.skip t.drawn) hp
      obtain rfl := Option.some.inj (ho.symm.trans ho')
      exact untouched_of_partner seat rfl
    · obtain ⟨more', -, rfl⟩ := comes'.result
      have entered : t'.entered = t.entered := by
        rw [comes.entered, Trace.entered_aside aside, Trace.entered_reserve]
      rw [Trace.batches_aside aside, Trace.batches_reserve] at log
      have whole := comes'.behind entered log
      have committed := whole.committed
      have standing := whole.standing
      rw [comes.standing] at committed standing
      rw [onward_ok]
      refine ⟨committed.trans ?_, standing, whole.entered, whole.result⟩
      refine congrArg (fun level => fs.plug (level ++ _)) (gather_congr fun k s hs kept => ?_)
      rw [Nat.zero_add, if_pos (fits.kept_index hs kept)]
      rfl

theorem accountWith_nil {layout : Layout} {verdict : Verdict} (accounts : List Account)
    (parent : Option RemoteId) (s : Standing) : accountWith layout verdict accounts [] [] parent s = ({}, s) :=
  rfl

end

mutual

theorem Node.exact_descent {w : Course} {setup : Setup} {layout : Layout}
    (hint : setup.settings.defaultLayout = layout) :
    (n : Node) → Exact w (n.descent setup) (n.account layout w.verdict) ∧
      (n.children = [] → ∀ parent s, n.account layout w.verdict [] parent s = ({}, s))
  | ⟨_, children, _, _, _⟩ => by
    rw [Node.descent, Node.account]
    refine ⟨exact_reconcileWith hint (Menu.exact_descents hint children), ?_⟩
    rintro rfl
    exact accountWith_nil _

theorem Menu.exact_descents {w : Course} {setup : Setup} {layout : Layout}
    (hint : setup.settings.defaultLayout = layout) :
    (menu : Menu) → ExactBelow w (Menu.descents setup menu) (Menu.accounts layout w.verdict menu) menu
  | [], j, n, h => by simp at h
  | n :: ns, 0, n', h => by
    obtain rfl : n = n' := by simpa using h
    rw [Menu.descents, Menu.accounts]
    exact ⟨_, _, rfl, rfl, n.exact_descent hint⟩
  | n :: ns, j + 1, n', h => by
    rw [Menu.descents, Menu.accounts]
    exact Menu.exact_descents hint ns j n' (by simpa using h)

end

/-- Bringing a menu in line leaves what the update comes to. -/
theorem Menu.exact_reconcile {w : Course} {setup : Setup} {layout : Layout}
    (hint : setup.settings.defaultLayout = layout) (new : Menu) :
    Exact w (new.reconcile setup) (new.account layout w.verdict) :=
  exact_reconcileWith hint (Menu.exact_descents hint new)

end RemoteMenu
