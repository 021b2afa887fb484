import RemoteMenu.Proofs.Update.Round

/-!
# Levels that were not gone into

An update draws ids once for each level that it goes into. Whatever it has drawn ids for so far, all other
kept nodes still have their old children in the committed menu (`Round.keeps_resting`): the batches of a
level leave the kept nodes below it where they are.
-/

namespace RemoteMenu

open Engine

def Exchange.reserves : Exchange → Bool
  | ⟨.reserve _, _⟩ => true
  | _ => false

theorem Exchange.reserves_of_idle {e : Exchange} (h : e.inquiry.Idle) : e.reserves = false := by
  obtain ⟨inquiry, reply⟩ := e
  cases inquiry with
  | reserve => cases h
  | _ => rfl

/-- How many levels were gone into: ids are drawn once for each. -/
def Trace.levels (t : Trace) : Nat := t.countP Exchange.reserves

theorem Trace.levels_snoc (t : Trace) (e : Exchange) : levels (t ++ [e]) = levels t + if e.reserves then 1 else 0 := by
  rw [levels, levels, List.countP_append, List.countP_singleton]

theorem Trace.levels_quiet {t extra : Trace} (h : ∀ e ∈ extra, e.reserves = false) :
    levels (t ++ extra) = levels t := by
  have none : extra.countP Exchange.reserves = 0 :=
    List.countP_eq_zero.mpr fun e he => Bool.eq_false_iff.mp (h e he)
  rw [levels, List.countP_append, none]
  rfl

theorem Added.quiet {layout : Layout} {parent : Option RemoteId} {plan : LevelPlan} {extra : Trace}
    {outcome : AddOutcome} (h : Added layout parent plan extra outcome) : ∀ e ∈ extra, e.reserves = false := by
  cases h <;> simp [Exchange.reserves]

/-! ### Levels below a kept node -/

theorem KeptAt.beyond {target current new old n o : Menu} {path rest : Path}
    (h : KeptAt target current path new old) (distinct : current.ids.Nodup)
    (further : KeptAt target current (path ++ rest) n o) : KeptAt new old rest n o := by
  induction h with
  | top => exact further
  | @into new old _ _ m i j k p path found pair ho hn inner ih =>
    have below := Menu.ids_children_sublist (List.mem_of_getElem? ho)
    have row := (Menu.row_sublist old).nodup distinct
    generalize same : p.remoteId :: path ++ rest = whole at further
    cases further with
    | top => cases same
    | @into _ _ _ _ m' i' j' k' p' path' found' pair' ho' hn' further =>
      obtain rfl := Option.some.inj (found.symm.trans found')
      rw [List.cons_append] at same
      obtain ⟨own, rfl⟩ := List.cons.inj same
      have pairs := (Matching.fits_of_ofKeys found).pair_eq row pair pair' ho ho' own
      obtain ⟨rfl, rfl⟩ := Prod.mk.inj pairs
      obtain rfl := Option.some.inj (ho.symm.trans ho')
      obtain rfl := Option.some.inj (hn.symm.trans hn')
      exact ih (below.nodup distinct) further

section
variable {old new : Menu} {m : Matching} {ids : IdSupply}

theorem Matching.Fits.found_stay (fits : m.Fits (old.map Node.contentKey) (new.map Node.contentKey))
    (distinct : old.ids.Nodup) {i j : Nat} {o : Node} (pair : (i, j) ∈ m.pairs) (ho : old[i]? = some o) :
    List.find? (·.remoteId = o.remoteId) (old.filter fun n =>
      !((m.plan ids old new).removed.any fun gone => gone.remoteId = n.remoteId)) = some o := by
  have row := (Menu.row_sublist old).nodup distinct
  refine find?_of_mem ?_ ((List.filter_sublist.map _).nodup row)
  refine (fits.stay_perm_seats ids row).mem_iff.mpr (List.mem_filterMap.mpr ?_)
  obtain ⟨o', n, ho', -, -, seat⟩ := fits.seat_of_pair ids pair
  obtain rfl := Option.some.inj (ho.symm.trans ho')
  exact ⟨_, List.mem_of_getElem? seat, rfl⟩

/-- In a level in which the kept nodes are found with their old children, so are those below them. -/
theorem level?_of_found (found : Matching.ofMenus old new = some m) (distinct : old.ids.Nodup) {level : Menu}
    (shown : ∀ i j o, (i, j) ∈ m.pairs → old[i]? = some o →
      ∃ k, List.find? (·.remoteId = o.remoteId) level = some k ∧ k.children = o.children) :
    ∀ path n o, path ≠ [] → KeptAt new old path n o → level.level? path = some o := by
  intro path n o some kept
  cases kept with
  | top => exact absurd rfl some
  | @into _ _ _ _ m' i j n' o' path found' pair ho hn further =>
    obtain rfl := Option.some.inj (found.symm.trans found')
    obtain ⟨k, first, same⟩ := shown i j o' pair ho
    have below := Menu.ids_children_sublist (List.mem_of_getElem? ho)
    rw [Menu.level?, first]
    dsimp only
    rw [same]
    exact (further.level? (below.nodup distinct)).1

end

/-! ### Resting levels -/

namespace Round

def visited (r : Round) (t : Trace) : List Path := r.tour.take t.levels

/-- Whether all kept nodes but those at some paths have their old children in a menu. -/
def Rests (r : Round) (before : List Path) (menu : Menu) : Prop :=
  ∀ path new old, KeptAt r.target r.current path new old → path ∉ before → menu.level? path = some old

/-- Whenever something is asked, the levels that were not gone into are as they were. -/
def resting (r : Round) : Contract where
  fair := r.fair
  asks t now _ := r.Rests (r.visited t) now.committed

variable {r : Round}

/-- A level that was gone into may become what leaves the kept nodes below it with their old children. -/
theorem Site.rests {fs : Context} {new old level level' : Menu} {m : Matching} {ids : IdSupply}
    {before : List Path} (site : r.Site fs new old m ids before) (rests : r.Rests before (fs.plug level))
    (shown : ∀ i j o, (i, j) ∈ m.pairs → old[i]? = some o →
      ∃ k, List.find? (·.remoteId = o.remoteId) level' = some k ∧ k.children = o.children) :
    r.Rests before (fs.plug level') := by
  intro path n o kept unvisited
  by_cases inner : fs.path <+: path
  · obtain ⟨rest, rfl⟩ := inner
    rw [Context.level?_plug_append site.sound]
    refine level?_of_found site.found site.distinct shown rest n o ?_ (site.kept.beyond r.distinct kept)
    rintro rfl
    rw [List.append_nil] at unvisited
    exact unvisited (site.visited _ (List.prefix_refl _))
  · -- A path that neither leads to the level nor through it does not see what becomes of it.
    have outer : ¬ path <+: fs.path := fun front => unvisited (site.visited path front)
    rw [Context.level?_plug_of_apart site.sound outer inner level' level]
    exact rests path n o kept unvisited

theorem visited_eq {before : List Path} (way : before <+: r.tour) {t : Trace} (levels : before.length = t.levels) :
    r.visited t = before := by
  rw [visited, ← levels]
  exact (List.prefix_iff_eq_take.mp way).symm

theorem upkeep_resting (r : Round) (layout : Layout) :
    Upkeep r layout r.resting fun before t menu => before.length = t.levels ∧ r.Rests before menu where
  fresh := rfl
  asks way h i _ := by
    change r.Rests (r.visited _) _
    rw [visited_eq way h.1]
    exact h.2
  stay e h idle := by
    refine ⟨h.1.trans ?_, h.2⟩
    rw [Trace.levels_snoc, Exchange.reserves_of_idle idle]
    rfl
  reserve path _ _ h := by
    refine ⟨?_, fun _ new old kept unvisited => h.2 _ new old kept fun before => unvisited ?_⟩
    · rw [Trace.levels_snoc, List.length_append, h.1]
      rfl
    · exact List.mem_append_left _ before
  deletes {fs new old m ids before t} site _ _ h some := by
    intro gone
    have levels (accepted : Bool) : before.length =
        Trace.levels (t ++ [⟨.world (.send (Command.deletes gone)), accepted⟩]) := by
      rw [Trace.levels_snoc]
      exact h.1
    refine ⟨fun now at_ => ?_, ⟨levels _, h.2⟩, levels _, site.rests h.2 fun i j o pair ho => ?_⟩
    · change r.Rests (r.visited t) _
      rw [visited_eq site.way h.1, at_]
      exact h.2
    · exact ⟨o, site.fits.found_stay site.distinct pair ho, rfl⟩
  adds {fs new old m ids before t level removedOk} site _ _ _ h := by
    intro plan main nested
    have asks (t' : Trace) (levels : t'.levels = t.levels) (now : Progress) (at_ : now.committed = fs.plug level) :
        r.Rests (r.visited t') now.committed := by
      rw [visited_eq site.way (h.1.trans levels.symm), at_]
      exact h.2
    have sent (accepted : Bool) := Trace.levels_snoc t ⟨.world (.send main), accepted⟩
    refine ⟨fun now at_ => ⟨asks t rfl now at_, asks _ (sent true) now at_⟩, fun extra outcome added => ?_⟩
    refine ⟨h.1.trans (Trace.levels_quiet added.quiet).symm, site.rests h.2 fun i j o pair ho => ?_⟩
    have ready := site.fits.ready_committed site.distinct (fun _ h => site.sublist.subset h) site.free removedOk outcome
    obtain ⟨o', n, ho', hn, -⟩ := site.fits.inside pair
    exact ⟨_, ready i j o n pair ho hn, rfl⟩

/-- Whenever an update asks for something, and in the end, the levels that it has not gone into are as they
were. -/
theorem keeps_resting (r : Round) (job : Job) (target : job.target = r.target) :
    (job.run { committed := r.current }).Keeps r.resting (fun t now _ => r.Rests (r.visited t) now.committed) [] := by
  have start : r.Rests [] r.current := fun path new old kept _ => (kept.level? r.distinct).1
  refine ((r.upkeep_resting _).keeps_run target rfl ⟨rfl, start⟩).mono fun t now _ h => ?_
  obtain ⟨before, way, levels, rests⟩ := h
  rwa [visited_eq way levels]

end Round

end RemoteMenu
