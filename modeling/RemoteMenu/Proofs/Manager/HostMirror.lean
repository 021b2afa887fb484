import RemoteMenu.Proofs.Manager.Invariants
import RemoteMenu.Proofs.Update.Outcome

/-!
# The menu of a manager and the tree on its host

Whatever calls are made, wherever operations are asked to stop and whatever the host rejects, the menu
of a manager is what its host shows as soon as no operation goes on (`History.host_perm_menu`), and a
host that checks every command has no reason to refuse a batch (`History.batches_orderly`).
-/

namespace RemoteMenu

open HostTree Manager

def facesOf (events : List Event) : Set Face :=
  { f | f ∈ (events.filterMap Event.target?).flatMap Menu.faces }

theorem mem_facesOf (events : List Event) :
    ∀ target ∈ events.filterMap Event.target?, ∀ f ∈ target.faces, f ∈ facesOf events :=
  fun target member _ hf => List.mem_flatMap.mpr ⟨target, member, hf⟩

namespace History

variable {settings : Settings} {uploads : Bool} {ids : IdSupply} {events : List Event}

theorem tracked (alive : Event.crash ∉ events) (distinguished : Collisionless (facesOf events))
    (bound : ((fresh settings uploads ids).run events).exchanges.drawn < legalIds) :
    ((fresh settings uploads ids).run events).Tracked ⟨settings.defaultLayout, facesOf events, ids⟩ := by
  let w : Scope := ⟨settings.defaultLayout, facesOf events, ids⟩
  have fresh : (fresh settings uploads ids).Sound w := sound_fresh uploads rfl rfl
  exact (fresh.run distinguished alive (mem_facesOf events) bound).1.tracked

end History

/-! ### A short history -/

/-- A first update that the host takes whole, and a second one whose deletion it rejects. -/
def twoUpdates : List Event :=
  [.call (.update (shelf "Play") false), .wake] ++
    List.replicate 4 (.answer (.taking true)) ++ [.call .settle] ++
    [.call (.update (shelf "Stop") false), .wake] ++ List.replicate 4 (.answer (.taking false))

theorem alive_twoUpdates : Event.crash ∉ twoUpdates := by simp [twoUpdates]

theorem collisionless_twoUpdates : Collisionless (facesOf twoUpdates) :=
  collisionless_of_pairwise (by decide +kernel)

theorem ended_twoUpdates :
    ((History.fresh {} false default).run twoUpdates).exchanges.drawn < legalIds ∧
      ((History.fresh {} false default).run twoUpdates).manager.inFlight.all (·.ending?.isSome) = true := by
  decide +kernel

namespace History

variable {settings : Settings} {uploads : Bool} {ids : IdSupply} {events : List Event}

/-! ### With no operation going on -/

/-- As soon as no operation goes on, the entries of the host are those of the menu. -/
theorem host_perm_menu (alive : Event.crash ∉ events) (distinguished : Collisionless (facesOf events))
    (bound : ((fresh settings uploads ids).run events).exchanges.drawn < legalIds)
    (idle : ∀ op, ((fresh settings uploads ids).run events).manager.inFlight = some op →
      op.ending?.isSome = true) :
    (((fresh settings uploads ids).run events).host.map Addition.outline).Perm
      ((fresh settings uploads ids).run events).manager.currentMenu.outline :=
  ((tracked alive distinguished bound).manager.currentMenu idle).host.outline_perm

theorem host_perm_menu_twoUpdates :
    (((fresh {} false default).run twoUpdates).host.map Addition.outline).Perm
      ((fresh {} false default).run twoUpdates).manager.currentMenu.outline := by
  obtain ⟨bound, ended⟩ := ended_twoUpdates
  exact host_perm_menu alive_twoUpdates collisionless_twoUpdates bound fun op flight =>
    (Option.all_eq_true _ _).mp ended op flight

/-! ### What the host is sent -/

/-- Every batch that was sent is in order for the tree that the accepted batches before it have made,
each command after those before it, and so is the batch that waits for an answer. -/
theorem batches_orderly (alive : Event.crash ∉ events) (distinguished : Collisionless (facesOf events))
    (bound : ((fresh settings uploads ids).run events).exchanges.drawn < legalIds) :
    HostTree.Orderly [] ((fresh settings uploads ids).run events).exchanges.batches ∧
      ∀ batch, ((fresh settings uploads ids).run events).manager.pending? = some (.send batch) →
        ((fresh settings uploads ids).run events).host.AdmitsAll batch := by
  have known := tracked alive distinguished bound
  refine ⟨known.orderly, ?_⟩
  intro batch waits
  obtain ⟨op, flight, pending⟩ := Option.bind_eq_some_iff.mp waits
  exact (known.manager.running op flight).pending pending

theorem batches_orderly_twoUpdates :
    HostTree.Orderly [] ((fresh {} false default).run twoUpdates).exchanges.batches ∧
      ∀ batch, ((fresh {} false default).run twoUpdates).manager.pending? = some (.send batch) →
        ((fresh {} false default).run twoUpdates).host.AdmitsAll batch :=
  batches_orderly alive_twoUpdates collisionless_twoUpdates ended_twoUpdates.1

end History

end RemoteMenu
