import RemoteMenu.Proofs.Update.Ids
import RemoteMenu.Proofs.Update.Ranks

/-!
# Nodes that an update keeps

A node of the old menu is retained if it and all nodes above it are of the same rank among their siblings as
nodes of the new menu. Whatever the host makes of an update, it is never told to do anything to a retained node,
and the menu that is left has a node under its id that renders the new one (`Operation.keeps_retained`).
-/

namespace RemoteMenu

/-- Whether an old node is retained as a node of the new menu: they are of the same rank, and so are those above
them. -/
inductive Retains : (old new : Menu) → (o n : Node) → Prop
  | here {old new : Menu} {o n : Node} (same : SameRank old new o n) : Retains old new o n
  | under {old new : Menu} {above above' o n : Node} (same : SameRank old new above above')
      (further : Retains above.children above'.children o n) : Retains old new o n

theorem Retains.mem_walk {old new : Menu} {o n : Node} (h : Retains old new o n) : o ∈ old.walk := by
  induction h with
  | here same => exact mem_walk_of_mem same.mem (Node.mem_walk_self _)
  | under same _ ih =>
    refine mem_walk_of_mem same.mem ?_
    rw [Node.walk_eq]
    exact List.mem_cons_of_mem _ ih

theorem Retains.mem_ids {old new : Menu} {o n : Node} (h : Retains old new o n) : o.remoteId ∈ old.ids :=
  List.mem_map_of_mem h.mem_walk

/-! ### Nodes that have to go -/

theorem Menu.eq_of_mem_ids {menu : Menu} (distinct : menu.ids.Nodup) {a b : Node} (ha : a ∈ menu) (hb : b ∈ menu)
    {id : RemoteId} (inA : id ∈ a.ids) (inB : id ∈ b.ids) : a = b := by
  induction menu with
  | nil => cases ha
  | cons n ns ih =>
    rw [Menu.ids_cons] at distinct
    obtain ⟨-, rest, apart⟩ := List.nodup_append.mp distinct
    rcases List.mem_cons.mp ha with rfl | laterA <;> rcases List.mem_cons.mp hb with rfl | laterB
    · rfl
    · exact absurd rfl (apart id inA id ((Menu.ids_sublist laterB).subset inB))
    · exact absurd rfl (apart id inB id ((Menu.ids_sublist laterA).subset inA))
    · exact ih rest laterA laterB

/-- No node of a level has the id of one further down. -/
theorem Menu.remoteId_ne_below {menu : Menu} (distinct : menu.ids.Nodup) {a b : Node} (ha : a ∈ menu) (hb : b ∈ menu)
    {id : RemoteId} (under : id ∈ Menu.ids b.children) : a.remoteId ≠ id := by
  rintro rfl
  obtain rfl := Menu.eq_of_mem_ids distinct ha hb a.remoteId_mem_ids (b.ids_children_subset under)
  have once := (Menu.ids_sublist ha).nodup distinct
  rw [Node.ids_eq] at once
  exact (List.nodup_cons.mp once).1 under

/-- A retained node is not among those that have to go, on any level. -/
theorem Retains.remoteId_ne_removed {old new new' old' : Menu} {path : Path} (kept : KeptAt new old path new' old')
    (distinct : old.ids.Nodup) {m : Matching} {ids : IdSupply} (found : Matching.ofMenus old' new' = some m)
    {gone : Node} (h : gone ∈ (m.plan ids old' new').removed) {o n : Node} (retains : Retains old new o n) :
    o.remoteId ≠ gone.remoteId := by
  have fits := Matching.fits_of_ofKeys found
  -- Where the two ways down part, distinct ids tell the nodes apart.
  induction kept generalizing o n with
  | top new old =>
    cases retains with
    | here same =>
      obtain ⟨m', i, j, found', pair, ho, -⟩ := same.exists_pair
      obtain rfl := Option.some.inj (found.symm.trans found')
      exact fits.remoteId_ne_removed distinct pair ho h
    | under same further =>
      exact (Menu.remoteId_ne_below distinct (fits.mem_of_removed h) same.mem further.mem_ids).symm
  | @into new old new' old' m' i j n' o' path found' pair ho' hn' further' ih =>
    have inside := List.mem_of_getElem? ho'
    have under := (Menu.ids_children_sublist inside).nodup distinct
    have among : gone.remoteId ∈ Menu.ids o'.children := by
      refine (further'.level? under).2.subset ((Menu.row_sublist old').subset ?_)
      exact List.mem_map_of_mem (fits.mem_of_removed h)
    cases retains with
    | here same => exact Menu.remoteId_ne_below distinct same.mem inside among
    | @under _ _ above above' _ _ same further =>
      obtain ⟨m'', i', j', found'', pair', ho'', hn''⟩ := same.exists_pair
      obtain rfl := Option.some.inj (found'.symm.trans found'')
      intro equal
      obtain rfl := Menu.eq_of_mem_ids distinct same.mem inside
        (above.ids_children_subset (equal ▸ further.mem_ids)) (o'.ids_children_subset among)
      have row := (Menu.row_sublist old).nodup distinct
      obtain ⟨rfl, rfl⟩ := Prod.mk.inj ((Matching.fits_of_ofKeys found').pair_eq row pair pair' ho' ho'' rfl)
      obtain rfl := Option.some.inj (hn'.symm.trans hn'')
      exact ih under found h further fits equal

/-! ### What becomes of retained nodes -/

theorem mem_pairs_gather {adds : AddOutcome} {below : Nat → Reached} {j k : Nat} {new : Menu} {seats : List Seat}
    {n : Node} {s : Seat} (hn : new[k]? = some n) (hs : seats[k]? = some s) {p : Node × Node}
    (member : p ∈ (s.reached adds (below (j + k)) n).pairs) : p ∈ (gather adds below j new seats).pairs := by
  induction k generalizing j new seats with
  | zero =>
    cases new with
    | nil => cases hn
    | cons n' ns =>
      cases seats with
      | nil => cases hs
      | cons s' seats =>
        obtain rfl : n' = n := by simpa using hn
        obtain rfl : s' = s := by simpa using hs
        exact List.mem_append_left _ member
  | succ k ih =>
    cases new with
    | nil => cases hn
    | cons n' ns =>
      cases seats with
      | nil => cases hs
      | cons s' seats =>
        rw [← Nat.add_assoc, Nat.add_right_comm] at member
        exact List.mem_append_right _ (ih (by simpa using hn) (by simpa using hs) member)

/-- What a node comes to, itself and all below it, is part of what the level with the old node of its rank comes to. -/
theorem SameRank.reached {layout : Layout} {verdict : Verdict} {accounts : List Account} {old new : Menu} {o n : Node}
    (same : SameRank old new o n) {P : Menu → Account → Prop} (below : ∀ (j : Nat) (n : Node), new[j]? = some n →
      ∃ account, accounts[j]? = some account ∧ P n.children account) (parent : Option RemoteId) (s : Standing) :
    ∃ x account parent' s', x.remoteId = o.remoteId ∧ P n.children account ∧
      (n, x) :: (account o.children parent' s').1.pairs ⊆ (accountWith layout verdict accounts new old parent s).1.pairs := by
  obtain ⟨m, i, j, found, pair, ho, hn⟩ := same.exists_pair
  have fits := Matching.fits_of_ofKeys found
  obtain ⟨o', n', ho', hn', -, seat⟩ := fits.seat_of_pair s.ids pair
  obtain rfl := Option.some.inj (ho.symm.trans ho')
  obtain rfl := Option.some.inj (hn.symm.trans hn')
  obtain ⟨account, there, holds⟩ := below j n hn
  rw [accountWith_eq found]
  extract_lets plan deletes adds inner
  obtain ⟨s', reached⟩ := enter_of_mem fits.once pair ho (Matching.getElem?_plan seat) there adds.2
  let k : Node := { n with remoteId := o.remoteId }
  refine ⟨(k.setChildren o.children).setChildren (inner.1 j).menu, account, some k.remoteId, s', rfl, holds, ?_⟩
  intro p member
  rw [← reached] at member
  refine List.mem_append_left _ (mem_pairs_gather hn seat ?_)
  rw [Nat.zero_add]
  exact member

/-- Whether an account has every retained node under its id, beside the node that it is kept for. -/
def Account.Carries (new : Menu) (account : Account) : Prop :=
  ∀ old parent s o n, Retains old new o n →
    ∃ x, (n, x) ∈ (account old parent s).1.pairs ∧ x.remoteId = o.remoteId

theorem accountWith_carries {layout : Layout} {verdict : Verdict} {accounts : List Account} {new : Menu}
    (below : ∀ (j : Nat) (n : Node), new[j]? = some n →
      ∃ account, accounts[j]? = some account ∧ account.Carries n.children) :
    (accountWith layout verdict accounts new).Carries new := by
  intro old parent s o n retains
  cases retains with
  | here same =>
    obtain ⟨x, account, parent', s', own, -, sub⟩ := same.reached below parent s
    exact ⟨x, sub (List.mem_cons_self ..), own⟩
  | under same further =>
    obtain ⟨_, account, parent', s', -, carries, sub⟩ := same.reached below parent s
    obtain ⟨x, member, own⟩ := carries _ parent' s' o n further
    exact ⟨x, sub (List.mem_cons_of_mem _ member), own⟩

theorem Menu.account_carries (layout : Layout) (verdict : Verdict) (new : Menu) :
    (new.account layout verdict).Carries new :=
  Menu.account_induction (fun _ _ below => accountWith_carries below) new

/-! ### Whole updates -/

theorem inj_of_nodup_filter {α β : Type} [DecidableEq β] {f : α → β} {xs : List α} {p : β → Bool}
    (once : ((xs.map f).filter p).Nodup) {x y : α} (hx : x ∈ xs) (hy : y ∈ xs) (passes : p (f x) = true)
    (same : f y = f x) : y = x := by
  rw [List.filter_map] at once
  have inX : x ∈ xs.filter (p ∘ f) := List.mem_filter.mpr ⟨hx, passes⟩
  have inY : y ∈ xs.filter (p ∘ f) := List.mem_filter.mpr ⟨hy, (congrArg p same).trans passes⟩
  exact List.inj_on_of_nodup_map once inY inX same

theorem Job.Reports.find?_retained {job : Job} {current : Menu} {ids : IdSupply} {verdict : Verdict} {t : Trace}
    {committed : Menu} {report : Report} (reports : job.Reports current ids verdict t committed report)
    (distinguished : Collisionless { f | f ∈ current.faces ++ job.target.faces })
    (used : ∀ id ∈ current.ids, id.isSet = true) (stable : (committed.ids.filter (· ∈ current.ids)).Nodup)
    {o n : Node} (retains : Retains current job.target o n) :
    ∃ x, report.menu.find? o.remoteId = some x ∧ x.Renders n := by
  obtain ⟨renders, -⟩ := reports.faithful distinguished
    (fun k hk => List.mem_append_left _ (List.mem_map_of_mem hk))
    (fun k hk => List.mem_append_right _ (List.mem_map_of_mem hk))
  obtain ⟨x, member, own⟩ :=
    job.target.account_carries job.setup.settings.defaultLayout verdict current none { ids } o n retains
  refine ⟨x, ?_, renders.renders _ member⟩
  have there : x ∈ report.menu.walk := by
    rw [reports.menu]
    exact renders.nodes.subset (List.mem_map_of_mem member)
  have old : x.remoteId ∈ current.ids := own ▸ retains.mem_ids
  rw [Menu.find?, if_pos (used _ retains.mem_ids), ← own]
  rw [reports.committed] at stable
  exact find?_of_only there fun y hy same => inj_of_nodup_filter stable there hy (decide_eq_true old) same

namespace Operation

variable {job : Job} {current : Menu} {ids : IdSupply}

theorem Moves.spares_retained {t : Trace} {op : Operation} (way : (schedule job current ids).Moves t op)
    (distinct : current.ids.Nodup) (apart : ∀ k < t.drawn, ids.nth k ∉ current.ids) {o n : Node}
    (retains : Retains current job.target o n) : ∀ b ∈ t.batches, ∀ c ∈ b.1, c.target ≠ o.remoteId := by
  intro b member c hc same
  obtain ⟨-, -, sent⟩ := way.identities distinct apart
  obtain ⟨u, sends⟩ := sent b member
  obtain ⟨path, plan, plans, gone, removed, own⟩ := sends.targets c hc (same ▸ retains.mem_ids)
  obtain ⟨new, old, m, supply, kept, found, rfl⟩ := plans
  exact retains.remoteId_ne_removed kept distinct found removed (own.trans same).symm

/-- Whatever the host makes of an update that nobody stops, retained nodes keep their ids: the host is never told
to do anything to them, and the menu that is left has under each of their ids a node that renders the new one. -/
theorem keeps_retained {world : Nat → Answers} (used : ∀ id ∈ current.ids, id.isSet = true)
    (distinct : current.ids.Nodup)
    (apart : ∀ n, ∀ k < ((schedule job current ids).play world n).2.drawn, ids.nth k ∉ current.ids)
    (distinguished : Collisionless { f | f ∈ current.faces ++ job.target.faces }) :
    ∃ n report,
      let (op, t) := (schedule job current ids).play world n
      op.ending? = some (.returned (.finished report)) ∧
      ∀ o k, Retains current job.target o k →
        (∀ b ∈ t.batches, ∀ c ∈ b.1, c.target ≠ o.remoteId) ∧
        ∃ x, report.menu.find? o.remoteId = some x ∧ x.Renders k := by
  obtain ⟨n, report, ended, reports⟩ := @exists_finished job current ids world distinct apart
  have way := play_moves (schedule job current ids) world n
  obtain ⟨identities, -, -⟩ := way.identities distinct (apart n)
  refine ⟨n, report, ended, fun o k retains => ⟨way.spares_retained distinct (apart n) retains, ?_⟩⟩
  exact reports.find?_retained distinguished used identities.stable retains

/-- A submenu is retained whose only entry is another one afterwards. -/
theorem keeps_retained_shelf :
    ∃ n report,
      let (op, t) := (schedule shelfJob oldShelf default).play (fun _ => .taking false) n
      op.ending? = some (.returned (.finished report)) ∧
      (∀ b ∈ t.batches, ∀ c ∈ b.1, c.target ≠ ⟨7⟩) ∧
      ∃ x, report.menu.find? ⟨7⟩ = some x ∧ ∃ k ∈ shelf "Stop", x.Renders k := by
  obtain ⟨ended, drawn⟩ :
      ((schedule shelfJob oldShelf default).play (fun _ => .taking false) 6).1.ending?.isSome = true ∧
      Trace.drawn ((schedule shelfJob oldShelf default).play (fun _ => .taking false) 6).2 = 1 := by
    decide +kernel
  obtain ⟨n, report, ended, keeps⟩ := @keeps_retained shelfJob oldShelf default (fun _ => .taking false)
    (by decide +kernel) (by decide +kernel) (fun n k hk => by
      have bound := drawn_play_le ended n
      obtain rfl : k = 0 := by omega
      decide +kernel) (collisionless_of_pairwise (by decide +kernel))
  obtain ⟨o, k, old, new, same, seven⟩ : ∃ o k, oldShelf = [o] ∧ shelf "Stop" = [k] ∧
      k.contentKey = o.contentKey ∧ o.remoteId = ⟨7⟩ := ⟨_, _, rfl, rfl, rfl, rfl⟩
  have retains : Retains oldShelf (shelf "Stop") o k := by
    rw [old, new]
    exact .here ⟨0, by simp, by simp [same]⟩
  obtain ⟨spared, x, there, renders⟩ := keeps o k retains
  rw [seven] at spared there
  exact ⟨n, report, ended, spared, x, there, k, new ▸ List.mem_singleton_self k, renders⟩

end Operation

end RemoteMenu
