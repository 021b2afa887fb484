import RemoteMenu.Proofs.Menu.UsedIds
import RemoteMenu.Proofs.Update.TargetIds

/-!
# The cycle of ids

A supply hands out all legal ids in their order, the first one again behind the last, wherever it starts. A node that is
given fresh ids takes the next ones, as many as there are nodes (`IdSupply.startingAt_cycles`).
-/

namespace RemoteMenu

mutual

theorem Node.unsetIds_withFreshIds (ids : IdSupply) : (n : Node) → (n.withFreshIds ids).1.unsetIds = n.unsetIds
  | ⟨entry, children, emptySubmenu, disambiguator, remoteId⟩ => by
    rw [Node.withFreshIds, Node.unsetIds, Node.unsetIds, Menu.unsetIds_withFreshIds ids.draw.2 children]

theorem Menu.unsetIds_withFreshIds (ids : IdSupply) : (menu : Menu) →
    (menu.withFreshIds ids).1.unsetIds = menu.unsetIds
  | [] => by rw [Menu.withFreshIds]
  | n :: ns => by
    rw [Menu.withFreshIds, Menu.unsetIds_cons, Menu.unsetIds_cons, n.unsetIds_withFreshIds ids,
      Menu.unsetIds_withFreshIds _ ns]

end

namespace IdSupply

def stretch (ids : IdSupply) (k count : Nat) : List RemoteId := (List.range' k count).map ids.nth

theorem stretch_eq (ids : IdSupply) (k count : Nat) :
    ids.stretch k count = (List.range count).map (ids.skip k).nth := by
  rw [stretch, List.range'_eq_map_range, List.map_map]
  exact List.map_congr_left fun j _ => (ids.nth_skip k j).symm

theorem toNat_nth (ids : IdSupply) (k : Nat) :
    (ids.nth k).value.toNat = (ids.next.toNat - 1 + k) % legalIds + 1 :=
  ids.toNat_next_skip k

theorem nodup_stretch (ids : IdSupply) (k : Nat) : (ids.stretch k legalIds).Nodup := by
  rw [stretch_eq]
  refine List.Nodup.map_on (fun i hi j hj same => ?_) List.nodup_range
  exact nth_inj (List.mem_range.mp hi) (List.mem_range.mp hj) same

theorem mem_stretch_iff (ids : IdSupply) (k : Nat) (id : RemoteId) : id ∈ ids.stretch k legalIds ↔ id.Legal := by
  constructor
  · intro member
    obtain ⟨j, -, rfl⟩ := List.mem_map.mp member
    exact ids.legal_nth j
  · rintro ⟨low, high⟩
    -- How far this id is ahead of the one that comes next after `k` draws.
    let ahead := (id.value.toNat - 1 + legalIds - (ids.next.toNat - 1 + k) % legalIds) % legalIds
    have within : ahead < legalIds := Nat.mod_lt _ (by decide)
    refine List.mem_map.mpr ⟨k + ahead, List.mem_range'_1.mpr ⟨by omega, by omega⟩, ?_⟩
    apply RemoteId.ext_toNat
    rw [toNat_nth]
    simp only [ahead, legalIds] at *
    omega

/-- What a supply hands out that starts at a number. -/
structure Cycles (ids : IdSupply) (start : Nat) : Prop where
  nth : ∀ k, (ids.nth k).value.toNat = (start - 1 + k) % legalIds + 1
  /-- Neither 0 is handed out nor anything from the unset id on. -/
  inside : ∀ k, 0 < (ids.nth k).value ∧ (ids.nth k).value < RemoteId.unset.value
  /-- The step from an id to the next one does not overflow. -/
  step : ∀ k, ((ids.skip k).next + 1).toNat = (ids.skip k).next.toNat + 1
  /-- Of as many draws as there are legal ids no two give the same, -/
  once : ∀ k, (ids.stretch k legalIds).Nodup
  /-- so they give all of them. -/
  all : ∀ k id, id ∈ ids.stretch k legalIds ↔ id.Legal

/-- A supply goes through the legal ids in a cycle, from where it is told to start if that is a legal id. A node and all
below it take the next ones, parents first, and nothing else of them changes. -/
theorem startingAt_cycles (first : UInt32) :
    (startingAt first).Cycles (if 1 ≤ first.toNat ∧ first.toNat < 2000000000 then first.toNat else 1) ∧
    ∀ (k : Nat) (n : Node), ∃ m,
      n.withFreshIds ((startingAt first).skip k) = (m, (startingAt first).skip (k + n.walk.length)) ∧
      m.ids = (startingAt first).stretch k n.walk.length ∧ m.unsetIds = n.unsetIds := by
  refine ⟨?_, ?_⟩
  · have start := toNat_next_startingAt first
    exact {
      nth := fun k => by rw [toNat_nth, start]; rfl
      inside := fun k => ⟨((startingAt first).skip k).pos, ((startingAt first).skip k).lt_unset⟩
      step := fun k => toNat_next_add_one _
      once := nodup_stretch _
      all := mem_stretch_iff _ }
  · intro k n
    obtain ⟨rest, drawn, -, -⟩ := n.withFreshIds_spec ((startingAt first).skip k)
    refine ⟨(n.withFreshIds ((startingAt first).skip k)).1, ?_, ?_, n.unsetIds_withFreshIds _⟩
    · rw [skip_add, ← rest]
    · rw [stretch_eq, drawn]

example : (List.range 3).map (startingAt 1999999999).nth = [⟨1999999999⟩, ⟨1⟩, ⟨2⟩] := by decide

end IdSupply

end RemoteMenu
