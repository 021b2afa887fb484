import Mathlib.Order.Interval.Finset.Nat
import RemoteMenu.Proofs.Menu.FreshIds

/-!
# Ids in use

A supply that follows a menu starts behind the highest id in use, and comes to 1 behind the last legal one. Where there
is nothing behind the highest id in use, it starts at 1, whatever is in use there. So it spares the ids of a menu until
it comes to the lowest legal one of them (`IdSupply.following_spares_iff`), and no longer.
-/

namespace RemoteMenu

def RemoteId.Legal (id : RemoteId) : Prop := 1 ≤ id.value.toNat ∧ id.value.toNat ≤ legalIds

instance (id : RemoteId) : Decidable id.Legal := inferInstanceAs (Decidable (_ ∧ _))

theorem RemoteId.Legal.isSet {id : RemoteId} (legal : id.Legal) : id.isSet = true := by
  refine decide_eq_true fun unset => ?_
  have high := legal.2
  rw [unset] at high
  exact absurd high (by decide)

theorem RemoteId.ext_toNat {a b : RemoteId} (same : a.value.toNat = b.value.toNat) : a = b :=
  congrArg RemoteId.mk (UInt32.toNat_inj.mp same)

theorem toNat_max (a b : UInt32) : (max a b).toNat = max a.toNat b.toNat := by
  change (if a ≤ b then b else a).toNat = _
  split
  · next le => rw [Nat.max_eq_right (UInt32.le_iff_toNat_le.mp le)]
  · next gt => rw [Nat.max_eq_left (Nat.le_of_not_le fun le => gt (UInt32.le_iff_toNat_le.mpr le))]

namespace IdSupply

theorem le_foldl_max (high : UInt32) (nodes : List Node) :
    let top := nodes.foldl (fun high n => max high n.remoteId.value) high
    high.toNat ≤ top.toNat ∧ ∀ n ∈ nodes, n.remoteId.value.toNat ≤ top.toNat := by
  induction nodes generalizing high with
  | nil => exact ⟨Nat.le_refl _, nofun⟩
  | cons n nodes ih =>
    obtain ⟨start, others⟩ := ih (max high n.remoteId.value)
    rw [toNat_max] at start
    exact ⟨(Nat.le_max_left ..).trans start, List.forall_mem_cons.mpr ⟨(Nat.le_max_right ..).trans start, others⟩⟩

/-- No legal id of a menu is above the highest one. -/
theorem le_highest {menu : Menu} {id : RemoteId} (member : id ∈ menu.ids) (legal : id.Legal) :
    id.value.toNat ≤ (highest menu).toNat := by
  obtain ⟨n, hn, rfl⟩ := List.mem_map.mp member
  have inside : n ∈ menu.walk.filter (·.remoteId.isSet) := List.mem_filter.mpr ⟨hn, legal.isSet⟩
  exact (le_foldl_max 0 _).2 n inside

theorem legal_nth (ids : IdSupply) (k : Nat) : (ids.nth k).Legal := (ids.skip k).toNat_next_bounds

/-- A supply that follows a menu starts behind the highest id in use, or at 1 where there is nothing behind it. -/
theorem toNat_nth_following (menu : Menu) (k : Nat) :
    ((highest menu).toNat < legalIds ∧
      ((following menu).nth k).value.toNat = ((highest menu).toNat + k) % legalIds + 1) ∨
    (legalIds ≤ (highest menu).toNat ∧ ((following menu).nth k).value.toNat = k % legalIds + 1) := by
  have word := (highest menu).toNat_lt
  have sum : (highest menu + 1).toNat = ((highest menu).toNat + 1) % 2 ^ 32 := UInt32.toNat_add ..
  have own : ((following menu).nth k).value.toNat = ((following menu).skip k).next.toNat := rfl
  rw [own, toNat_next_skip, following, toNat_next_startingAt, sum]
  rcases Nat.lt_or_ge (highest menu).toNat legalIds with below | above
  · refine .inl ⟨below, ?_⟩
    simp only [legalIds] at below
    have whole : ((highest menu).toNat + 1) % 2 ^ 32 = (highest menu).toNat + 1 := Nat.mod_eq_of_lt (by omega)
    rw [whole, if_pos (by omega), Nat.add_sub_cancel]
  · refine .inr ⟨above, ?_⟩
    simp only [legalIds] at above
    rw [if_neg (by omega), Nat.sub_self, Nat.zero_add]

end IdSupply

/-- Whether a supply that follows a menu comes to no legal id in use, as far as a number of draws: it goes through all
that is behind the highest one first, and then from 1 on. -/
def Menu.Spares (menu : Menu) (count : Nat) : Prop := ∀ id ∈ menu.ids, id.Legal →
  count ≤ (legalIds - (IdSupply.highest menu).toNat) + (id.value.toNat - 1)

instance (menu : Menu) (count : Nat) : Decidable (menu.Spares count) := inferInstanceAs (Decidable (∀ _ ∈ _, _))

theorem IdSupply.following_spares_iff (menu : Menu) (count : Nat) :
    (∀ k < count, (following menu).nth k ∉ menu.ids) ↔ menu.Spares count := by
  constructor
  · intro apart id member legal
    have below := le_highest member legal
    by_contra above
    let k := (legalIds - (highest menu).toNat) + (id.value.toNat - 1)
    have reached : (following menu).nth k = id := by
      apply RemoteId.ext_toNat
      obtain ⟨low, high⟩ := legal
      rcases toNat_nth_following menu k with ⟨inside, value⟩ | ⟨outside, value⟩ <;>
        simp only [legalIds, k] at * <;> omega
    exact apart k (by omega) (reached ▸ member)
  · intro spares k less member
    have bound := spares _ member (legal_nth ..)
    have below := le_highest member (legal_nth ..)
    rcases toNat_nth_following menu k with ⟨inside, value⟩ | ⟨outside, value⟩ <;>
      rw [value] at bound below <;> simp only [legalIds] at * <;> omega

/-! ### A menu with the first and the last id -/

def Menu.unusedIds (menu : Menu) : Finset Nat :=
  (Finset.Icc 1 legalIds).filter fun v => ∀ id ∈ menu.ids, id.value.toNat ≠ v

def bothEnds : Menu :=
  [{ entry := { title := "A" }, remoteId := ⟨1⟩ }, { entry := { title := "B" }, remoteId := ⟨1999999999⟩ }]

/-- An id in use may be drawn although there are others. -/
theorem IdSupply.following_meets_used :
    1 ≤ bothEnds.unusedIds.card ∧ (following bothEnds).nth 0 ∈ bothEnds.ids := by
  refine ⟨Finset.card_pos.mpr ⟨2, ?_⟩, by decide +kernel⟩
  exact Finset.mem_filter.mpr ⟨Finset.mem_Icc.mpr ⟨by decide, by decide⟩, by decide +kernel⟩

end RemoteMenu
