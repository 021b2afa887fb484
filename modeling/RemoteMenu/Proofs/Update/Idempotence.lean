import RemoteMenu.Proofs.Update.Ids
import RemoteMenu.Proofs.Update.SharedIds

/-!
# Updating again

An update of a menu that differs from its target in nothing but ids sends nothing, draws no id, and leaves the menu with
its ids as it was (`Account.Repeats`). The menu that a successful update leaves is such a menu
(`Operation.Moves.repeats`), unless the update has drawn more ids than there are (`Operation.repeats_crowd`).
-/

namespace RemoteMenu

open Engine

/-! ### What levels come to again -/

/-- Whether an account leaves a menu as it was, up to marks, that differs from the new one in nothing but ids. -/
def Account.Repeats (new : Menu) (account : Account) : Prop :=
  ∀ old parent s, old.bare = new.bare → (account old parent s).1.menu.plain = old.plain

theorem accountWith_repeats {layout : Layout} {verdict : Verdict} {accounts : List Account} {new : Menu}
    (below : ∀ (j : Nat) (n : Node), new[j]? = some n →
      ∃ account, accounts[j]? = some account ∧ account.Repeats n.children) :
    (accountWith layout verdict accounts new).Repeats new := by
  intro old parent s same
  cases found : Matching.ofMenus old new with
  | none =>
    have empty := Matching.ofKeys_eq_none found
    rw [accountWith, found, List.map_eq_nil_iff.mp empty.1]
  | some m =>
    have fits := Matching.fits_of_ofKeys found
    rw [accountWith_eq found]
    extract_lets plan deletes adds inner
    have none : plan.removed = [] := (Menu.unchanged_of_bare same).removed_nil found s.ids
    rw [none, ite_self, Reached.menu_append, List.append_nil]
    refine plain_gather 0 (Menu.length_eq_of_bare same) (fits.length_seats s.ids) fun j o n seat ho hn hs => ?_
    obtain ⟨pair, own⟩ := Matching.seat_self same found s.ids ho hn
    obtain rfl := Option.some.inj (hs.symm.trans own)
    obtain ⟨account, there, repeats⟩ := below j n hn
    obtain ⟨s', reached⟩ := enter_of_mem fits.once pair ho (Matching.getElem?_plan own) there adds.2
    have alike := Menu.bare_of_getElem? same ho hn
    rw [Nat.zero_add]
    refine Seat.plain_reached alike ?_
    rw [reached]
    exact repeats _ _ _ (Node.bare_children alike)

theorem Menu.account_repeats (layout : Layout) (verdict : Verdict) (new : Menu) :
    (new.account layout verdict).Repeats new :=
  Menu.account_induction (fun _ _ below => accountWith_repeats below) new

/-! ### Whole updates -/

namespace Operation

/-- An operation that is to make a menu what it is already, but for ids, finishes without having done anything. -/
theorem play_still {job : Job} {menu : Menu} (same : menu.bare = job.target.bare) (ids : IdSupply)
    (world : Nat → Answers) :
    ∃ n report,
      let (op, t) := (schedule job menu ids).play world n
      op.ending? = some (.returned (.finished report)) ∧ report.success = true ∧ report.stats.isNoop = true ∧
      t.batches = [] ∧ t.drawn = 0 ∧ op.ids = ids ∧ (menu.ids.Nodup → report.menu.plain = menu.plain) := by
  obtain ⟨n, ending, way, calm, ended, supply⟩ := exists_ending job menu ids world
  have keeps := @Job.keeps_still ⟨ids, ((schedule job menu ids).play world n).2.verdict, []⟩ job menu
    (Menu.unchanged_of_bare same)
  obtain ⟨now, r, done, report, rfl, success, noop, batches, drawn⟩ := way.concludes calm ended (by simp) keeps
  obtain rfl := ending_of_done done ended
  rw [drawn] at supply
  refine ⟨n, report, ended, success, noop, batches, drawn, supply, fun distinct => ?_⟩
  obtain ⟨report', own, reports⟩ := way.finishes calm ended distinct fun k hk => by
    rw [drawn] at hk
    cases hk
  obtain rfl : report = report' := by cases own; rfl
  rw [reports.menu]
  exact Menu.account_repeats _ _ job.target menu none { ids } same

/-- A successful update leaves nothing to do: whatever is answered, updating the menu that it has left to the same
target sends no batch, draws no id and succeeds. The menu stays as it is, ids included and up to the marks of submenus
that have children, if the first update has drawn no more ids than there are. Behind that the supply starts again, two
nodes may have one id, and the first one is taken for the other. -/
theorem Moves.repeats {job : Job} {current : Menu} {ids : IdSupply} {t : Trace} {op : Operation} {report : Report}
    (way : (schedule job current ids).Moves t op) (calm : op.lifecycle.cancelRequested = false)
    (ended : op.ending? = some (.returned (.finished report))) (success : report.success = true)
    (distinct : current.ids.Nodup) (apart : ∀ k < t.drawn, ids.nth k ∉ current.ids)
    (distinguished : Collisionless { f | f ∈ current.faces ++ job.target.faces }) {again : Job}
    (target : again.target = job.target) (ids' : IdSupply) (world : Nat → Answers) :
    ∃ n report',
      let (op', t') := (schedule again report.menu ids').play world n
      op'.ending? = some (.returned (.finished report')) ∧ report'.success = true ∧ report'.stats.isNoop = true ∧
      t'.batches = [] ∧ t'.drawn = 0 ∧ op'.ids = ids' ∧
      (t.drawn ≤ legalIds → report'.menu.plain = report.menu.plain) := by
  obtain ⟨report₀, own, reports⟩ := way.finishes calm ended distinct apart
  obtain rfl : report = report₀ := by cases own; rfl
  obtain ⟨-, whole⟩ := reports.faithful distinguished
    (fun k hk => List.mem_append_left _ (List.mem_map_of_mem hk))
    (fun k hk => List.mem_append_right _ (List.mem_map_of_mem hk))
  have same : report.menu.bare = again.target.bare := by rw [target, whole success]
  obtain ⟨n, report', ended', success', noop, batches, drawn, supply, menu⟩ := play_still same ids' world
  refine ⟨n, report', ended', success', noop, batches, drawn, supply, fun bound => menu ?_⟩
  obtain ⟨identities, -, -⟩ := way.identities distinct apart
  rw [← reports.committed]
  exact (identities.owned bound).distinct

/-- A submenu with another entry is updated, and then updated again from where the supply is by then. -/
theorem Moves.repeats_shelf :
    let op := ((schedule shelfJob oldShelf default).play (fun _ => .taking true) 6).1
    ∃ report : Report, op.ending? = some (.returned (.finished report)) ∧
      ∀ world : Nat → Answers, ∃ n report',
        let (op', t') := (schedule shelfJob report.menu op.ids).play world n
        op'.ending? = some (.returned (.finished report')) ∧ report'.success = true ∧
        report'.stats.isNoop = true ∧ t'.batches = [] ∧ t'.drawn = 0 ∧ op'.ids = op.ids ∧
        report'.menu.plain = report.menu.plain := by
  intro op
  let t := ((schedule shelfJob oldShelf default).play (fun _ => .taking true) 6).2
  have way : (schedule shelfJob oldShelf default).Moves t op := play_moves _ _ 6
  obtain ⟨calm, ended, drawn, taken⟩ : op.lifecycle.cancelRequested = false ∧ op.ending?.isSome = true ∧
      t.drawn = 1 ∧ t.batches.all (·.2) = true := by
    decide +kernel
  have distinct : oldShelf.ids.Nodup := by decide +kernel
  have apart : ∀ k < t.drawn, (default : IdSupply).nth k ∉ oldShelf.ids := by
    rw [drawn]
    decide +kernel
  obtain ⟨ending, ended⟩ := Option.isSome_iff_exists.mp ended
  obtain ⟨report, rfl, reports⟩ := way.finishes calm ended distinct apart
  refine ⟨report, ended, fun world => ?_⟩
  obtain ⟨n, report', ended', success, noop, batches, none, supply, menu⟩ := way.repeats calm ended
    (reports.success.trans taken) distinct apart (collisionless_of_pairwise (by decide +kernel)) rfl op.ids world
  refine ⟨n, report', ended', success, noop, batches, none, supply, menu ?_⟩
  rw [drawn]
  decide

/-- Past the last id the menu need not stay as it is. An update from nothing adds as many nodes as there are ids, and
then another submenu with a child. Updating again finishes without having done anything, but the first submenu has lost
its children to that of the other one, which has its id. -/
theorem repeats_crowd :
    let job := crowdJob (legalIds - 1)
    ∃ n report,
      let op := ((schedule job [] default).play (fun _ => .taking true) n).1
      op.lifecycle.cancelRequested = false ∧ op.ending? = some (.returned (.finished report)) ∧
      report.success = true ∧ Collisionless { f | f ∈ Menu.faces [] ++ job.target.faces } ∧
      ∀ (ids' : IdSupply) (world : Nat → Answers),
        (∃ n', ((schedule job report.menu ids').play world n').1.ending?.isSome = true) ∧
        ∀ n' report', ((schedule job report.menu ids').play world n').1.ending? = some (.returned (.finished report')) →
          report'.menu.plain ≠ report.menu.plain := by
  intro job
  have whole : legalIds - 1 + 1 = legalIds := Nat.sub_add_cancel (by decide)
  obtain ⟨n, report, ended, success, menu⟩ := @play_of_nil job default (fun _ => .taking true) fun _ _ => rfl
  refine ⟨n, report, cancelRequested_play _ _ n, ended, success, collisionless_crowd (by decide), fun ids' world =>
    ⟨exists_ended rfl world, fun n' report' ended' => play_crowd whole menu ended'⟩⟩

end Operation

end RemoteMenu
