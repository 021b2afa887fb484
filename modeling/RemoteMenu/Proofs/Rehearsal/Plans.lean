import RemoteMenu.Proofs.Rehearsal.Frames
import RemoteMenu.Rehearsal.DryRun

/-!
# Plans and dry runs

The entries of a plan come from a matching of the top levels, its batches from a rehearsal, which matches the levels
again and settles ids besides. The top level heads the agenda of an update, so its load is what the batches begin with,
and no level below it adds to the top. What the entries tell is then what this load does (`Plan.Agrees`).
-/

namespace RemoteMenu

/-! ### Additions to the top level -/

def Command.topAddition? : Command → Option Addition
  | .add a => if a.parent = none then some a else none
  | .delete .. => none

section
variable {layout : Layout}

mutual

theorem Node.topAddition?_addsBelow : (n : Node) → ∀ c ∈ n.addsBelow layout, c.topAddition? = none
  | ⟨_, children, _, _, remoteId⟩ => by
    rw [Node.addsBelow]
    exact Menu.topAddition?_addsFrom remoteId 0 children

theorem Menu.topAddition?_addsFrom (parent : RemoteId) (position : Nat) :
    (menu : Menu) → ∀ c ∈ menu.addsFrom layout parent position, c.topAddition? = none
  | [] => by
    rw [Menu.addsFrom]
    exact nofun
  | n :: ns => by
    rw [Menu.addsFrom, List.forall_mem_cons, List.forall_mem_append]
    exact ⟨rfl, Node.topAddition?_addsBelow n, Menu.topAddition?_addsFrom parent (position + 1) ns⟩

end

variable {level : Menu} {added : List Nat} {c : Command}

theorem Command.topAddition?_nestedAdds (member : c ∈ nestedAdds layout level added) : c.topAddition? = none := by
  obtain ⟨i, -, below⟩ := List.mem_flatMap.mp member
  split at below
  · next n _ => exact n.topAddition?_addsBelow c below
  · cases below

theorem Command.topAddition?_adds {parent : RemoteId} (member : c ∈ adds layout (some parent) level added) :
    c.topAddition? = none := by
  obtain ⟨i, -, here⟩ := List.mem_filterMap.mp member
  obtain ⟨n, -, rfl⟩ := Option.map_eq_some_iff.mp here
  rfl

theorem Command.topAddition?_deletes {nodes : List Node} (member : c ∈ deletes nodes) : c.topAddition? = none := by
  obtain ⟨n, -, rfl⟩ := List.mem_map.mp member
  rfl

/-- The additions of the top level itself name the nodes, and their indices for positions. -/
theorem Command.topAdditions_adds :
    ((adds layout none level added).filterMap topAddition?).map (fun a => (a.name, a.position)) =
      added.filterMap fun i => (level[i]?.map Node.displayTitle).map fun title => (title, UInt32.ofNat i) := by
  rw [adds, List.filterMap_filterMap, List.map_filterMap]
  refine List.filterMap_congr fun i _ => ?_
  cases level[i]? <;> rfl

end

/-! ### The commands of an update -/

namespace Load

def commands (l : Load) : List Command := l.deletes ++ l.main ++ l.nested

theorem flatten_batches (l : Load) : l.batches.flatten = l.commands := by
  obtain ⟨deletes, main, nested⟩ := l
  simp only [batches, commands, List.flatten_filter_not_isEmpty]
  simp

theorem flatten_flatMap_batches (loads : List Load) :
    (loads.flatMap batches).flatten = loads.flatMap commands := by
  rw [← List.flatMap_id, List.flatMap_assoc]
  exact List.flatMap_congr fun l _ => List.flatMap_id.trans l.flatten_batches

theorem head?_batches {l : Load} (gone : l.deletes ≠ []) : l.batches.head? = some l.deletes := by
  rw [batches, List.filter_cons_of_pos (by simpa using gone), List.head?_cons]

end Load

/-- The commands of an update, first to last, if the host accepts everything. -/
def Job.commands (job : Job) (current : Menu) (ids : IdSupply) : List Command :=
  (job.agenda current ids).1.flatMap Load.commands

section
variable {layout : Layout} {old new : Menu} {m : Matching} {agendas : List Agenda}

theorem forall_mem_agendaBelow {P : Load → Prop} {pairs : List (Nat × Nat)} (below : ∀ p ∈ pairs,
    ∀ (o : Node) (agenda : Agenda) ids, agendas[p.2]? = some agenda →
      ∀ l ∈ (agenda o.children (some o.remoteId) ids).1, P l) (ids : IdSupply) :
    ∀ l ∈ (agendaBelow agendas old pairs ids).1, P l := by
  induction pairs generalizing ids with
  | nil => exact nofun
  | cons p pairs ih =>
    obtain ⟨first, others⟩ := List.forall_mem_cons.mp below
    rw [agendaBelow]
    split
    · next o agenda _ there => exact List.forall_mem_append.mpr ⟨first o agenda ids there, ih others _⟩
    · exact ih others ids

/-- Whether no level with an entry above it adds to the top. -/
def Agenda.Lower (agenda : Agenda) : Prop :=
  ∀ old parent ids, ∀ l ∈ (agenda old (some parent) ids).1, ∀ c ∈ l.commands, c.topAddition? = none

theorem lower_load {plan : LevelPlan} {parent : RemoteId} :
    ∀ c ∈ (plan.load layout (some parent)).commands, c.topAddition? = none :=
  List.forall_mem_append.mpr ⟨List.forall_mem_append.mpr
    ⟨fun _ => Command.topAddition?_deletes, fun _ => Command.topAddition?_adds⟩,
    fun _ => Command.topAddition?_nestedAdds⟩

theorem lower_agendaBelow (found : Matching.ofMenus old new = some m) (below : ∀ (j : Nat) (n : Node),
    new[j]? = some n → ∃ agenda, agendas[j]? = some agenda ∧ Agenda.Lower agenda) (ids : IdSupply) :
    ∀ l ∈ (agendaBelow agendas old m.pairs ids).1, ∀ c ∈ l.commands, c.topAddition? = none := by
  refine forall_mem_agendaBelow (fun p pair o agenda ids there => ?_) ids
  obtain ⟨-, n, -, hn, -⟩ := (Matching.fits_of_ofKeys found).inside pair
  obtain ⟨agenda', there', lower⟩ := below p.2 n hn
  obtain rfl := Option.some.inj (there.symm.trans there')
  exact lower _ _ _

theorem lower_agendaWith (below : ∀ (j : Nat) (n : Node), new[j]? = some n →
    ∃ agenda, agendas[j]? = some agenda ∧ Agenda.Lower agenda) : Agenda.Lower (agendaWith layout agendas new) := by
  intro old parent ids
  rw [agendaWith]
  cases found : Matching.ofMenus old new with
  | none => exact List.forall_mem_nil _
  | some m => exact List.forall_mem_cons.mpr ⟨lower_load, lower_agendaBelow found below _⟩

theorem Menu.lower_agendas (layout : Layout) (new : Menu) : ∀ (j : Nat) (n : Node), new[j]? = some n →
    ∃ agenda, (new.agendas layout)[j]? = some agenda ∧ Agenda.Lower agenda :=
  Menu.agendas_induction (P := fun _ => Agenda.Lower) (fun _ _ below => lower_agendaWith below) new

/-- The loads of an update begin with that of its top level, which has all that is added there. -/
theorem Menu.exists_agenda (found : Matching.ofMenus old new = some m) (layout : Layout) (ids : IdSupply) :
    let load := (m.plan ids old new).load layout none
    ∃ below, (new.agenda layout old none ids).1 = load :: below ∧
      ((load :: below).flatMap Load.commands).filterMap Command.topAddition? =
        load.main.filterMap Command.topAddition? := by
  intro load
  rw [Menu.agenda, agendaWith, found]
  refine ⟨_, rfl, ?_⟩
  have lower := lower_agendaBelow found (new.lower_agendas layout) (ids.skip (Menu.freshCount m.newStates new))
  have deletes : load.deletes.filterMap Command.topAddition? = [] :=
    List.filterMap_eq_nil_iff.mpr fun _ => Command.topAddition?_deletes
  have nested : load.nested.filterMap Command.topAddition? = [] :=
    List.filterMap_eq_nil_iff.mpr fun _ => Command.topAddition?_nestedAdds
  have others : ((agendaBelow (new.agendas layout) old m.pairs
      (ids.skip (Menu.freshCount m.newStates new))).1.flatMap Load.commands).filterMap Command.topAddition? = [] := by
    rw [List.filterMap_eq_nil_iff]
    intro c member
    obtain ⟨l, among, inside⟩ := List.mem_flatMap.mp member
    exact lower l among c inside
  rw [List.flatMap_cons, List.filterMap_append, others, Load.commands, List.filterMap_append, List.filterMap_append,
    deletes, nested, List.nil_append, List.append_nil, List.append_nil]

end

/-! ### Settled ids and titles -/

/-- Settling ids changes no titles. -/
theorem Matching.Fits.displayTitle_plan {old new : Menu} {m : Matching}
    (fits : m.Fits (old.map Node.contentKey) (new.map Node.contentKey)) (ids : IdSupply) (i : Nat) :
    (m.plan ids old new).new[i]?.map Node.displayTitle = new[i]?.map Node.displayTitle := by
  have same := congrArg (fun bare : Menu => bare[i]?.map Node.displayTitle) (fits.bare_plan ids)
  simpa [Menu.bare_eq_map, Function.comp_def] using same

namespace Rehearsal

open Std.Do

/-! ### Rehearsals without rejections -/

section
variable {m : Type → Type} {ps : PostShape.{0}} [Monad m] [WPMonad m ps] {clock : m Timestamp}

/-- Where all commands fit into frames, and nothing is to be rejected, the host takes in the whole agenda. -/
theorem triple_rehearse_whole (tells : ⦃⌜True⌝⦄ clock ⦃⇓ _ => ⌜True⌝⦄) {settings : Settings} {current target : Menu}
    (fits : ∀ c ∈ (job settings target).commands current (.following current), c.Fits) :
    ⦃⌜True⌝⦄ (rehearse clock settings current target).run {}
    ⦃⇓ p => ⌜(∃ report, p.1 = .ok report) ∧
      p.2.batches = ((job settings target).agenda current (.following current)).1.flatMap Load.batches ∧
      List.Forall₂ (fun sent p => sent.Records p.1 p.2) p.2.frames p.2.batches.flatten.zipIdx⌝⦄ := by
  refine triple_mono (triple_rehearse tells settings current target {}) fun p ended => ?_
  obtain ⟨report, op, t, told, finished, way, received⟩ := ended
  have answered := way.answered finished
  have sent : ∀ b ∈ t.batches, ∀ c ∈ b.1, c.Fits := by
    intro b member c inside
    obtain ⟨-, l, among, part⟩ := answered.exists_load member
    refine fits c (List.mem_flatMap.mpr ⟨l, among, ?_⟩)
    rcases part with part | part | part <;> rw [part] at inside <;> simp [Load.commands, inside]
  obtain ⟨accepted, batches, frames, taken, record⟩ := received.whole rfl sent (i := 0) rfl
  rw [List.nil_append] at batches taken
  refine ⟨⟨report, told⟩, batches.trans (answered.map_fst accepted), ?_⟩
  rwa [batches, taken]

end

/-! ### What a plan tells -/

namespace Plan

def additions (plan : Plan) : List (String × UInt32) :=
  plan.wanted.zipIdx.filterMap fun (e, i) => if e.state = .added then some (e.title, .ofNat i) else none

def topAdditions (plan : Plan) : List (String × UInt32) :=
  (plan.batches.flatten.filterMap Command.topAddition?).map fun a => (a.name, a.position)

/-- Whether the entries of a plan tell what its batches do to the top level. -/
structure Agrees (plan : Plan) (current target : Menu) : Prop where
  removed : plan.removed = (Comparison.removed ⟨current, target⟩).map fun n => ⟨n.displayTitle, .removed⟩
  /-- The deletions go first. -/
  first : plan.removed ≠ [] → plan.batches.head? = some (Command.deletes (Comparison.removed ⟨current, target⟩))
  wanted : plan.wanted.map PlanEntry.title = target.map Node.displayTitle
  states : ∀ e ∈ plan.wanted, e.state = .kept ∨ e.state = .added
  added : plan.topAdditions = plan.additions

section
variable {settings : Settings} {current target : Menu} {m : Matching} {plan : Plan}

theorem make_eq (fits : ∀ c ∈ (job settings target).commands current (.following current), c.Fits) :
    make settings current target = .ok {
      removed := removedEntries (Comparison.matching ⟨current, target⟩) current
      wanted := wantedEntries (Comparison.matching ⟨current, target⟩) target
      batches := ((job settings target).agenda current (.following current)).1.flatMap Load.batches } := by
  have tells : ⦃⌜True⌝⦄ (pure 0 : Id Timestamp) ⦃⇓ _ => ⌜True⌝⦄ := triple_pure trivial
  have whole := of_triple_id (triple_rehearse_whole tells fits)
  generalize ran : ((rehearse (pure 0 : Id Timestamp) settings current target).run {}).run = p at whole
  obtain ⟨result, host⟩ := p
  obtain ⟨⟨report, rfl⟩, batches, -⟩ := whole
  rw [make, ran, ← batches]
  -- Where there is nothing to match, no entries are read off an empty matching either.
  rcases Comparison.matching_cases ⟨current, target⟩ with ⟨empty, -⟩ | ⟨found, -⟩
  · obtain ⟨rfl, rfl⟩ := Comparison.mk.inj empty
    rfl
  · rw [found]
    rfl

theorem titles_wantedEntries (length : m.newStates.length = target.length) :
    (wantedEntries m target).map PlanEntry.title = target.map Node.displayTitle := by
  have nodes : (target.zip m.newStates).map Prod.fst = target := List.map_fst_zip length.ge
  conv_rhs => rw [← nodes, List.map_map]
  rw [wantedEntries, List.map_map]
  rfl

theorem states_wantedEntries (fits : m.Fits (current.map Node.contentKey) (target.map Node.contentKey)) :
    ∀ e ∈ wantedEntries m target, e.state = .kept ∨ e.state = .added := by
  intro e member
  obtain ⟨⟨n, state⟩, inside, rfl⟩ := List.mem_map.mp member
  obtain ⟨j, bound, here⟩ := List.getElem_of_mem (List.of_mem_zip inside).2
  have own := fits.newState j (fits.new_length ▸ bound)
  rw [List.getElem?_eq_getElem bound, here] at own
  obtain rfl := Option.some.inj own
  dsimp only
  split
  · exact .inl rfl
  · exact .inr rfl

/-- The entries that are to be added are those of the nodes that the matching adds. -/
theorem additions_eq (wanted : plan.wanted = wantedEntries m target) (length : m.newStates.length = target.length) :
    plan.additions =
      m.added.filterMap fun i => (target[i]?.map Node.displayTitle).map fun title => (title, UInt32.ofNat i) := by
  have count : plan.wanted.length = m.newStates.length := by
    rw [wanted, wantedEntries, List.length_map, List.length_zip, length, Nat.min_self]
  rw [additions, filterMap_zipIdx, count, Matching.added, MatchState.indices_eq_filter, List.filterMap_filter]
  refine List.filterMap_congr fun i member => ?_
  have inside := List.mem_range.mp member
  obtain ⟨state, hs⟩ : ∃ state, m.newStates[i]? = some state := ⟨_, List.getElem?_eq_getElem inside⟩
  obtain ⟨n, hn⟩ : ∃ n, target[i]? = some n := ⟨_, List.getElem?_eq_getElem (length ▸ inside)⟩
  have entry : plan.wanted[i]? = some ⟨n.displayTitle, state⟩ := by
    have here : (target.zip m.newStates)[i]? = some (n, state) := List.getElem?_zip_eq_some.mpr ⟨hn, hs⟩
    rw [wanted, wantedEntries, List.getElem?_map, here]
    rfl
  rw [entry, hs, hn]
  by_cases added : state = .added <;> simp [added]

theorem agrees_of_agenda {layout : Layout} {ids : IdSupply}
    (removed : plan.removed = removedEntries (Comparison.matching ⟨current, target⟩) current)
    (wanted : plan.wanted = wantedEntries (Comparison.matching ⟨current, target⟩) target)
    (batches : plan.batches = (target.agenda layout current none ids).1.flatMap Load.batches) :
    plan.Agrees current target := by
  have gone : plan.removed = (Comparison.removed ⟨current, target⟩).map fun n => ⟨n.displayTitle, .removed⟩ := by
    rw [removed, removedEntries, Comparison.removed, List.map_filterMap]
  rcases Comparison.matching_cases ⟨current, target⟩ with ⟨empty, -⟩ | ⟨found, fits⟩
  · obtain ⟨rfl, rfl⟩ := Comparison.mk.inj empty
    refine ⟨gone, fun some => absurd removed some, by rw [wanted]; rfl, by rw [wanted]; exact List.forall_mem_nil _, ?_⟩
    rw [topAdditions, additions, batches, wanted]
    rfl
  · have length : (Comparison.matching ⟨current, target⟩).newStates.length = target.length := by
      rw [fits.new_length, List.length_map]
    obtain ⟨below, loads, top⟩ := Menu.exists_agenda found layout ids
    have commands : plan.batches.flatten = (target.agenda layout current none ids).1.flatMap Load.commands := by
      rw [batches, Load.flatten_flatMap_batches]
    refine ⟨gone, fun some => ?_, ?_, ?_, ?_⟩
    · have deletes : Command.deletes (Comparison.removed ⟨current, target⟩) ≠ [] := by
        rw [gone] at some
        simpa [Command.deletes] using some
      rw [batches, loads, List.flatMap_cons, List.head?_append, Load.head?_batches deletes]
      rfl
    · rw [wanted, titles_wantedEntries length]
    · rw [wanted]
      exact states_wantedEntries fits
    · rw [topAdditions, commands, loads, top, additions_eq wanted length]
      refine Command.topAdditions_adds.trans (List.filterMap_congr fun i _ => ?_)
      rw [fits.displayTitle_plan ids i]

end

/-- What a plan tells and what it sends come to the same, and a dry run of the same update sends just that: one frame
for each command, in their order. -/
theorem make_agrees (settings : Settings) (current target : Menu)
    (fits : ∀ c ∈ (job settings target).commands current (.following current), c.Fits) :
    ∃ plan, make settings current target = .ok plan ∧ plan.Agrees current target ∧
      plan.batches.flatten = (job settings target).commands current (.following current) ∧
      ∀ {m : Type → Type} {ps : PostShape.{0}} [Monad m] [WPMonad m ps] {clock : m Timestamp},
        ⦃⌜True⌝⦄ clock ⦃⇓ _ => ⌜True⌝⦄ →
        ⦃⌜True⌝⦄ (rehearse clock settings current target).run {} ⦃⇓ p => ⌜p.2.batches = plan.batches⌝⦄ ∧
        ⦃⌜True⌝⦄ DryRun.make clock false settings current target
        ⦃⇓ r => ⌜∃ run, r = .ok run ∧
          List.Forall₂ (fun sent p => sent.Records p.1 p.2) run.frames plan.batches.flatten.zipIdx⌝⦄ := by
  refine ⟨_, make_eq fits, agrees_of_agenda rfl rfl rfl, ?_, fun tells => ⟨?_, ?_⟩⟩
  · exact Load.flatten_flatMap_batches _
  · exact triple_mono (triple_rehearse_whole tells fits) fun p whole => whole.2.1
  · rw [DryRun.make]
    refine triple_bind (triple_rehearse_whole tells fits) fun p whole => triple_pure ?_
    obtain ⟨⟨report, told⟩, batches, record⟩ := whole
    rw [told]
    exact ⟨_, rfl, batches ▸ record⟩

end Plan

/-- One entry goes, and another one comes with something below it. -/
theorem Plan.make_agrees_news :
    let current : Menu := [{ entry := { title := "Home" }, remoteId := ⟨1⟩ },
      { entry := { title := "Radio" }, remoteId := ⟨2⟩ }]
    let target : Menu := [{ entry := { title := "Home" } },
      { entry := { title := "News" }, children := [{ entry := { title := "Local" } }] }]
    (∀ c ∈ (job {} target).commands current (.following current), c.Fits) ∧
      ∃ plan, make {} current target = .ok plan ∧ plan.Agrees current target ∧
        plan.removed = [⟨"Radio", .removed⟩] ∧
        ⦃⌜True⌝⦄ DryRun.make (pure 0 : Id Timestamp) false {} current target
        ⦃⇓ r => ⌜∃ run, r = .ok run ∧
          List.Forall₂ (fun sent p => sent.Records p.1 p.2) run.frames plan.batches.flatten.zipIdx⌝⦄ := by
  intro current target
  have fits : ∀ c ∈ (job {} target).commands current (.following current), c.Fits := by
    decide +kernel
  have gone : (Comparison.removed ⟨current, target⟩).map (fun n => PlanEntry.mk n.displayTitle .removed) =
      [⟨"Radio", .removed⟩] := by
    decide +kernel
  obtain ⟨plan, made, agrees, -, sends⟩ := Plan.make_agrees {} current target fits
  exact ⟨fits, plan, made, agrees, agrees.removed.trans gone, (sends (triple_pure trivial)).2⟩

end Rehearsal

end RemoteMenu
