import RemoteMenu.Proofs.Update.Alike

/-!
# Submenus with one id

The level below a node is put back by the path to it, and a path leads to the first node with an id. So of two submenus
with one id, the first is left with the children of the second (`Operation.play_twins`). An update of nothing comes to
such a menu if its first submenu takes all the ids that there are (`Menu.withFreshIds_shared`).
-/

namespace RemoteMenu

open Engine

/-! ### Levels -/

theorem Menu.getElem?_descents (setup : Setup) (menu : Menu) (j : Nat) :
    (Menu.descents setup menu)[j]? = menu[j]?.map fun n => Menu.reconcile setup n.children := by
  induction menu generalizing j with
  | nil => rw [Menu.descents]; rfl
  | cons n ns ih =>
    obtain ⟨entry, children, emptySubmenu, disambiguator, remoteId⟩ := n
    rw [Menu.descents, Node.descent]
    cases j with
    | zero => rfl
    | succ j => exact ih j

def Menu.Flat (menu : Menu) : Prop := ∀ n ∈ menu, n.children = []

theorem Menu.Flat.of_bare {old new : Menu} (flat : old.Flat) (same : new.bare = old.bare) : new.Flat := by
  intro n hn
  obtain ⟨j, inside, rfl⟩ := List.mem_iff_getElem.mp hn
  have there : j < old.length := Menu.length_eq_of_bare same ▸ inside
  have alike := Menu.bare_of_getElem? same (List.getElem?_eq_getElem inside) (List.getElem?_eq_getElem there)
  have empty := congrArg List.isEmpty (Node.bare_children alike)
  rw [Menu.isEmpty_bare, Menu.isEmpty_bare, flat _ (List.getElem_mem there)] at empty
  exact List.isEmpty_iff.mp empty

/-- There is nothing to enter below a flat level. -/
theorem Still.meets_descend_flat {w : Course} {t : Trace} {now : Progress} {setup : Setup} {path : Path}
    (h : Still t now) {old new : Menu} {m : Matching} (same : old.bare = new.bare) (flat : old.Flat)
    (found : Matching.ofMenus old new = some m) (ids : IdSupply) {pairs : List (Nat × Nat)} (sub : pairs ⊆ m.pairs)
    {post : Trace → Progress → Except Halt Bool → Prop} (after : ∀ t, Still t now → post t now (.ok true)) :
    (descend (m.plan ids old new) (Menu.descents setup new) path pairs).Meets (exactly w) t now post := by
  induction pairs generalizing t with
  | nil => exact after t h
  | cons p pairs ih =>
    obtain ⟨i, j⟩ := p
    have pair := sub (List.mem_cons_self ..)
    obtain ⟨o, n, ho, hn, -, seat⟩ := (Matching.fits_of_ofKeys found).seat_of_pair ids pair
    have leaf := (flat.of_bare same.symm) n (List.mem_of_getElem? hn)
    refine h.meets_pass ho (Matching.getElem?_plan seat) (d := Menu.reconcile setup n.children) ?_
      ⟨flat o (List.mem_of_getElem? ho), leaf⟩ fun t h => ih h fun p hp => sub (List.mem_cons_of_mem _ hp)
    rw [Menu.getElem?_descents, hn]
    rfl

/-- A flat level with nothing to do is put back at its path, and that is all. -/
theorem Still.meets_flat {w : Course} {t : Trace} {now : Progress} {setup : Setup} {path : Path} (h : Still t now)
    {old new : Menu} (same : old.bare = new.bare) (flat : old.Flat) (some : old ≠ [])
    {post : Trace → Progress → Except Halt Bool → Prop}
    (after : ∀ t now' level, Still t now' → Menu.plain level = old.plain →
      now'.committed = (Menu.replaceLevel level path now.committed).getD now.committed → post t now' (.ok true)) :
    (new.reconcile setup old path).Meets (exactly w) t now post := by
  rw [Menu.reconcile]
  refine h.meets_reconcileWith (Menu.unchanged_of_bare same) (fun none => ?_) fun m ids t now' found h committed => ?_
  · exact absurd (List.map_eq_nil_iff.mp (Matching.ofKeys_eq_none none).1) some
  · exact h.meets_descend_flat same flat found ids (List.Subset.refl _) fun t h =>
      after t now' _ h (Matching.plain_committed same found ids) committed

/-- What is put back below an id lands below the first node with it. -/
theorem Menu.plain_replaceLevel_first {menu : Menu} {a : Node} {others : Menu}
    (alike : menu.plain = Menu.plain (a :: others)) {level under : Menu} (put : level.plain = under.plain)
    (some : under ≠ []) :
    ((Menu.replaceLevel level [a.remoteId] menu).getD menu).plain =
      Menu.plain ({ a with children := under } :: others) := by
  cases menu with
  | nil => cases alike
  | cons n ns =>
    rw [Menu.plain_cons, Menu.plain_cons] at alike
    obtain ⟨first, rest⟩ := List.cons.inj alike
    have empty := congrArg List.isEmpty put
    rw [Menu.isEmpty_plain, Menu.isEmpty_plain, List.isEmpty_eq_false_iff.mpr some] at empty
    rw [Node.plain_eq, Node.plain_eq, Node.mk.injEq] at first
    obtain ⟨entry, -, -, number, id⟩ := first
    have found : Menu.replaceLevel level [a.remoteId] (n :: ns) = .some (n.setChildren level :: ns) := by
      rw [Menu.replaceLevel, Menu.updateNode, if_pos id]
      rfl
    rw [found, Option.getD_some, Menu.plain_cons, Menu.plain_cons, rest, Node.plain_eq, Node.plain_eq]
    refine congrArg (· :: _) ?_
    simp [Node.setChildren, put, empty, some, entry, number, id]

/-- Of two submenus with one id, the first comes to have the children of the second. -/
theorem Still.meets_twins {w : Course} {t : Trace} {now : Progress} {setup : Setup} (h : Still t now) {a b : Node}
    {new : Menu} (same : Menu.bare [a, b] = new.bare) (shared : b.remoteId = a.remoteId)
    (flat : Menu.Flat a.children) (flat' : Menu.Flat b.children) (some : a.children ≠ []) (some' : b.children ≠ []) :
    (new.reconcile setup [a, b] []).Meets (exactly w) t now fun t now r => Still t now ∧ r = .ok true ∧
      now.committed.plain = Menu.plain [{ a with children := b.children }, b] := by
  obtain ⟨a', b', rfl⟩ : ∃ a' b', new = [a', b'] := List.length_eq_two.mp (Menu.length_eq_of_bare same).symm
  have first := Node.bare_children (Menu.bare_of_getElem? same (i := 0) rfl rfl)
  have second := Node.bare_children (Menu.bare_of_getElem? same (i := 1) rfl rfl)
  rw [Menu.reconcile]
  refine h.meets_reconcileWith (Menu.unchanged_of_bare same) (fun none => ?_) fun m ids t now found h committed => ?_
  · cases (Matching.ofKeys_eq_none none).1
  obtain ⟨-, seat⟩ := Matching.seat_self same found ids (j := 0) rfl rfl
  obtain ⟨-, seat'⟩ := Matching.seat_self same found ids (j := 1) rfl rfl
  have top : now.committed.plain = Menu.plain [a, b] := by
    rw [committed]
    exact Matching.plain_committed same found ids
  have pairs : m.pairs = [(0, 0), (1, 1)] := by
    rw [Matching.ofMenus, Menu.contentKeys_eq same] at found
    exact Matching.pairs_self found
  rw [pairs]
  refine h.meets_enter (o := a) rfl (Matching.getElem?_plan seat) (Menu.getElem?_descents ..) (.inl some) fun t h => ?_
  refine h.meets_flat first flat some fun t now level h put committed => ⟨rfl, ?_⟩
  have kept : now.committed.plain = Menu.plain [a, b] := by
    rw [committed, List.nil_append]
    refine (Menu.plain_replaceLevel_first top put some).trans ?_
    cases a
    rfl
  refine h.meets_enter (o := b) rfl (Matching.getElem?_plan seat') (Menu.getElem?_descents ..) (.inl some') fun t h => ?_
  refine h.meets_flat second flat' some' fun t now level h put committed => ⟨rfl, h, rfl, ?_⟩
  rw [committed, List.nil_append]
  dsimp only
  rw [shared]
  exact Menu.plain_replaceLevel_first kept put some'

/-! ### Updates of nothing -/

theorem Menu.seats_none (ids : IdSupply) (new : Menu) : Menu.seats ids (List.replicate new.length none) new =
    ((new.withFreshIds ids).1.map (Seat.mk none), (new.withFreshIds ids).2) := by
  induction new generalizing ids with
  | nil => rw [Menu.withFreshIds]; rfl
  | cons n ns ih =>
    rw [List.length_cons, List.replicate_succ, Menu.seats, Menu.withFreshIds]
    dsimp only
    rw [ih]
    rfl

theorem Matching.seats_of_nil {new : Menu} {m : Matching} (found : Matching.ofMenus [] new = some m) (ids : IdSupply) :
    m.seats ids [] new = (new.withFreshIds ids).1.map (Seat.mk none) := by
  have nobody : m.partners [] = List.replicate new.length none := by
    rw [Matching.partners, (Matching.fits_of_ofKeys found).new_length, List.length_map, List.eq_replicate_iff]
    refine ⟨by rw [List.length_map, List.length_range], fun partner member => ?_⟩
    obtain ⟨j, -, rfl⟩ := List.mem_map.mp member
    simp [partnerIn]
  rw [Matching.seats, nobody, Menu.seats_none]

/-- What an update of nothing comes to are the new nodes with fresh ids, if all batches are accepted. -/
theorem Menu.account_of_nil (layout : Layout) (verdict : Verdict) (new : Menu) (parent : Option RemoteId) (s : Standing) :
    ∃ more, (new.account layout verdict [] parent s).2.log = s.log ++ more ∧
      (more.all (·.2) = true → (new.account layout verdict [] parent s).1.menu = (new.withFreshIds s.ids).1) := by
  rw [Menu.account]
  cases found : Matching.ofMenus [] new with
  | none =>
    obtain rfl := List.map_eq_nil_iff.mp (Matching.ofKeys_eq_none found).2
    rw [accountWith, found, Menu.withFreshIds]
    exact ⟨[], (List.append_nil _).symm, fun _ => rfl⟩
  | some m =>
    have fits := Matching.fits_of_ofKeys found
    have alone : m.pairs = [] := List.eq_nil_iff_forall_not_mem.mpr fun p hp => by
      obtain ⟨o, -, here, -⟩ := fits.inside hp
      cases here
    rw [accountWith_eq found]
    extract_lets plan deletes adds inner
    have none : plan.removed = [] := by simp [plan, LevelPlan.removed, Matching.plan]
    obtain ⟨more, log, added⟩ := deletes.2.add_spec verdict layout parent plan.new plan.added
    have deletes_eq : deletes = (true, ⟨(Menu.seats s.ids (m.partners []) new).2, s.log⟩) := by
      simp only [deletes, Standing.delete, none, if_pos]
    have inner_eq : inner = (fun _ => {}, adds.2) := by
      simp only [inner, alone, enter]
    refine ⟨more, ?_, fun accepted => ?_⟩
    · rw [inner_eq]
      exact log.trans (by rw [deletes_eq])
    · have all : adds.1 = ⟨true, true⟩ := AddOutcome.eq_of_succeeded (added.trans accepted)
      rw [all, deletes_eq, if_pos rfl, Reached.menu_append, List.append_nil, gather_shown (fits.length_seats s.ids),
        Matching.seats_of_nil found, List.filterMap_map]
      · exact List.filterMap_some ..
      · intro k seat o hs partner
        rw [Matching.seats_of_nil found] at hs
        obtain ⟨n, -, rfl⟩ := List.mem_map.mp (List.mem_of_getElem? hs)
        cases partner

/-! ### Whole updates -/

namespace Operation

/-- An update of nothing to a host that accepts everything leaves the target with fresh ids. -/
theorem play_of_nil (job : Job) (ids : IdSupply) {world : Nat → Answers}
    (accepts : ∀ k batch, world k (.send batch) = true) :
    ∃ n report,
      ((schedule job [] ids).play world n).1.ending? = some (.returned (.finished report)) ∧ report.success = true ∧
      report.menu = (job.target.withFreshIds ids).1 := by
  obtain ⟨n, report, ended, reports⟩ := @exists_finished job [] ids world (by simp) (by simp)
  have accepted : ((schedule job [] ids).play world n).2.batches.all (·.2) = true := by
    refine List.all_eq_true.mpr fun b hb => ?_
    obtain ⟨k, given⟩ := answered_play n b hb
    rw [given, accepts]
  obtain ⟨more, log, whole⟩ := Menu.account_of_nil job.setup.settings.defaultLayout
    ((schedule job [] ids).play world n).2.verdict job.target none { ids }
  refine ⟨n, report, ended, reports.success.trans accepted, reports.menu.trans (whole ?_)⟩
  rw [List.nil_append, ← Job.account] at log
  rwa [reports.batches, log] at accepted

/-- Of two submenus with one id, the first is left with the children of the second. -/
theorem play_twins {job : Job} {a b : Node} (same : Menu.bare [a, b] = job.target.bare)
    (shared : b.remoteId = a.remoteId) (flat : Menu.Flat a.children) (flat' : Menu.Flat b.children)
    (some : a.children ≠ []) (some' : b.children ≠ []) {ids : IdSupply} {world : Nat → Answers} {n : Nat}
    {report : Report} (ended : ((schedule job [a, b] ids).play world n).1.ending? = .some (.returned (.finished report))) :
    report.menu.plain = Menu.plain [{ a with children := b.children }, b] := by
  have way := play_moves (schedule job [a, b] ids) world n
  have calm := cancelRequested_play (schedule job [a, b] ids) world n
  let w : Course := ⟨ids, ((schedule job [a, b] ids).play world n).2.verdict, []⟩
  have keeps := @Job.keeps_of_levels w [a, b] job
    (fun _ now _ => now.committed.plain = Menu.plain [{ a with children := b.children }, b]) fun t entered batches drawn => by
      have still : Still t { committed := [a, b] } := ⟨entered, batches, drawn, rfl⟩
      refine (still.meets_twins same shared flat flat' some some').mono fun t now r ended => ?_
      exact ⟨ended.1.entered, true, ended.2⟩
  obtain ⟨now, r, done, report', rfl, menu, -, -, -, -, plain⟩ := way.concludes calm ended (by simp) keeps
  cases ending_of_done done ended
  rw [menu]
  exact plain

end Operation

/-! ### More nodes than ids -/

theorem Menu.Flat.walk_eq {menu : Menu} (flat : menu.Flat) : menu.walk = menu := by
  induction menu with
  | nil => rw [Menu.walk]
  | cons n ns ih =>
    obtain ⟨leaf, leaves⟩ := List.forall_mem_cons.mp flat
    rw [Menu.walk, Node.walk_eq, leaf, Menu.walk, ih leaves]
    rfl

theorem Node.remoteId_withFreshIds (ids : IdSupply) (n : Node) : (n.withFreshIds ids).1.remoteId = ids.draw.1 := by
  cases n
  rw [Node.withFreshIds]

/-- Behind a node that takes all ids, the next one takes the same id as it. -/
theorem Menu.withFreshIds_shared {a b : Node} (all : a.walk.length = legalIds) (ids : IdSupply) :
    ∃ a' b', (Menu.withFreshIds ids [a, b]).1 = [a', b'] ∧ b'.remoteId = a'.remoteId := by
  have supply := (a.withFreshIds_spec ids).1
  rw [all, ids.skip_legalIds] at supply
  refine ⟨(a.withFreshIds ids).1, (b.withFreshIds (a.withFreshIds ids).2).1, ?_, ?_⟩
  · simp only [Menu.withFreshIds]
  · rw [Node.remoteId_withFreshIds, Node.remoteId_withFreshIds, supply]

/-- A submenu with some number of entries. -/
def crowd (count : Nat) : Node :=
  { entry := { title := "Media" }, children := List.replicate count { entry := { title := "Play" } } }

def crowdJob (count : Nat) : Job where
  id := 1
  setup := { settings := {}, uploads := false }
  target := [crowd count, { entry := { title := "Tools" }, children := [{ entry := { title := "Clock" } }] }]
  notifies := true

theorem flat_crowd (count : Nat) : Menu.Flat (crowd count).children := by
  intro n hn
  rw [List.eq_of_mem_replicate hn]

theorem collisionless_crowd {count : Nat} (some : count ≠ 0) :
    Collisionless { f | f ∈ (crowdJob count).target.faces } := by
  have few : Collisionless { f | f ∈ (crowdJob 1).target.faces } := collisionless_of_pairwise (by decide +kernel)
  have sub : (crowdJob count).target.faces ⊆ (crowdJob 1).target.faces := by
    obtain ⟨count, rfl⟩ := Nat.exists_eq_succ_of_ne_zero some
    intro f hf
    obtain ⟨n, hn, rfl⟩ := List.mem_map.mp hf
    rw [crowdJob, Menu.walk, Node.walk_eq, (flat_crowd _).walk_eq, List.cons_append, List.mem_cons, List.mem_append] at hn
    rcases hn with rfl | play | rest
    · exact List.mem_cons_self ..
    · rw [List.eq_of_mem_replicate play]
      decide +kernel
    · exact List.mem_map_of_mem (List.mem_append_right _ rest)
  exact fun f hf g hg => few f (sub hf) g (sub hg)

namespace Operation

/-- If there is just one id for each node of the first submenu, the second submenu has the id of the first, and an
update of the two leaves the first one without most of its children. -/
theorem play_crowd {count : Nat} (whole : count + 1 = legalIds) {menu : Menu} {fresh ids : IdSupply}
    (filled : menu = ((crowdJob count).target.withFreshIds fresh).1) {world : Nat → Answers} {n : Nat} {report : Report}
    (ended : ((schedule (crowdJob count) menu ids).play world n).1.ending? = some (.returned (.finished report))) :
    report.menu.plain ≠ menu.plain := by
  have several : 1 < count := by
    rw [legalIds] at whole
    omega
  have all : (crowd count).walk.length = legalIds := by
    rw [Node.walk_eq, (flat_crowd _).walk_eq, List.length_cons, crowd, List.length_replicate, whole]
  obtain ⟨a, b, same, shared⟩ : ∃ a b, ((crowdJob count).target.withFreshIds fresh).1 = [a, b] ∧
      b.remoteId = a.remoteId := Menu.withFreshIds_shared all fresh
  have alike : Menu.bare [a, b] = (crowdJob count).target.bare := same ▸ Menu.bare_withFreshIds fresh _
  have first := Node.bare_children (Menu.bare_of_getElem? alike (i := 0) rfl rfl)
  have second := Node.bare_children (Menu.bare_of_getElem? alike (i := 1) rfl rfl)
  have many : a.children.length = count := (Menu.length_eq_of_bare first).trans List.length_replicate
  have one : b.children.length = 1 := Menu.length_eq_of_bare second
  have some : a.children ≠ [] := List.ne_nil_of_length_pos (by omega)
  have some' : b.children ≠ [] := List.ne_nil_of_length_pos (by omega)
  have flat : Menu.Flat [{ entry := { title := "Clock" } }] := by simp [Menu.Flat]
  rw [filled, same] at ended ⊢
  rw [play_twins alike shared ((flat_crowd _).of_bare first) (flat.of_bare second) some some' ended]
  intro unmoved
  rw [Menu.plain_cons, Menu.plain_cons] at unmoved
  have children := congrArg (fun n => n.children.length) (List.cons.inj unmoved).1
  rw [Node.plain_eq, Node.plain_eq a] at children
  simp only [Menu.length_plain, many, one] at children
  omega

end Operation

end RemoteMenu
