import RemoteMenu.Proofs.Update.Plan

/-!
# Ids handed on by an edited matching

The states of a matching may be edited, its pairs stay as they were found. Before ids are handed on, the
states are counted and compared with the levels, but the pairs are not. So where the counts happen to be
right a pair can point outside a level, which takes a list of states that is shorter than it was found
(`Matching.transferIds_edit`).
-/

namespace RemoteMenu

def Inside (old new : Menu) (p : Nat × Nat) : Prop := p.1 < old.length ∧ p.2 < new.length

instance (old new : Menu) (p : Nat × Nat) : Decidable (Inside old new p) :=
  inferInstanceAs (Decidable (p.1 < old.length ∧ p.2 < new.length))

namespace Matching

def Covers (m : Matching) (old new : Menu) : Prop :=
  m.oldStates.length = old.length ∧ m.newStates.length = new.length

/-- Whether the states say on either side that as many nodes are kept as there are pairs. -/
def Balanced (m : Matching) : Prop :=
  m.oldStates.count .kept = m.newStates.count .kept ∧ m.oldStates.count .kept = m.pairs.length

/-- What comes of handing on ids, by what is counted and by where the pairs point. -/
inductive HandsOn (m : Matching) (old new : Menu) : Except TransferFailure (Menu × Nat) → Prop
  /-- A level has another number of nodes than there are states for it. -/
  | uncovered : ¬ m.Covers old new → HandsOn m old new (.error (.refused (.matchMismatch
      s!"result covers {m.oldStates.length}/{m.newStates.length} nodes, menus have {old.length}/{new.length}")))
  /-- The states say otherwise than the pairs how many nodes are kept. -/
  | unbalanced : m.Covers old new → ¬ m.Balanced →
      HandsOn m old new (.error (.refused (.keptMismatch (m.oldStates.count .kept) (m.newStates.count .kept))))
  /-- Some pair, here the first of those, points outside. -/
  | outside {before after : List (Nat × Nat)} {p : Nat × Nat} : m.Covers old new → m.Balanced →
      m.pairs = before ++ p :: after → (∀ q ∈ before, Inside old new q) → ¬ Inside old new p →
      HandsOn m old new (.error (.outside p))
  /-- Each new node of a pair takes over the id of its partner, and nothing else changes. -/
  | inside : m.Covers old new → m.Balanced → (∀ p ∈ m.pairs, Inside old new p) →
      HandsOn m old new
        (.ok (List.zipWith Node.taking ((List.range new.length).map (partnerIn old m.pairs)) new, m.pairs.length))

/-- The first pair that points outside is where handing on ids stops. -/
theorem handOn_outside {old new : Menu} {before after : List (Nat × Nat)} {p : Nat × Nat}
    (inside : ∀ q ∈ before, Inside old new q) (out : ¬ Inside old new p) :
    handOn old (before ++ p :: after) new = .error (.outside p) := by
  induction before generalizing new with
  | nil =>
    obtain ⟨i, j⟩ := p
    rw [List.nil_append, handOn]
    rcases Classical.not_and_iff_not_or_not.mp out with out | out
    · rw [List.getElem?_eq_none (Nat.le_of_not_lt out)]
    · rw [List.getElem?_eq_none (Nat.le_of_not_lt out)]
      cases old[i]? <;> rfl
  | cons q before ih =>
    obtain ⟨i, j⟩ := q
    obtain ⟨hi, hj⟩ := inside (i, j) (List.mem_cons_self ..)
    rw [List.cons_append, handOn, List.getElem?_eq_getElem hi, List.getElem?_eq_getElem hj]
    have alike (m : Node) (q : Nat × Nat) : Inside old (new.set j m) q ↔ Inside old new q := by
      rw [Inside, Inside, List.length_set]
    refine ih (fun q hq => (alike _ q).mpr (inside q (List.mem_cons_of_mem _ hq))) fun there => out ?_
    exact (alike _ p).mp there

/-- Some pair points outside, or all point inside. -/
theorem inside_or_first_outside (old new : Menu) (pairs : List (Nat × Nat)) :
    (∀ p ∈ pairs, Inside old new p) ∨
    ∃ before p after, pairs = before ++ p :: after ∧ (∀ q ∈ before, Inside old new q) ∧ ¬ Inside old new p := by
  cases first : pairs.find? fun p => !decide (Inside old new p) with
  | none => exact .inl (by simpa using first)
  | some p =>
    obtain ⟨out, before, after, split, inside⟩ := List.find?_eq_some_iff_append.mp first
    exact .inr ⟨before, p, after, split, by simpa using inside, by simpa using out⟩

theorem handsOn {m : Matching} (once : (m.pairs.map Prod.snd).Nodup) (old new : Menu) :
    m.HandsOn old new (m.transferIds old new) := by
  by_cases covers : m.Covers old new
  · have covered : m.covers old new = .ok () := if_pos covers
    by_cases balanced : m.Balanced
    · have kept : m.keptPairs = .ok m.pairs := if_pos balanced
      have handed : m.transferIds old new = (handOn old m.pairs new).map (·, m.pairs.length) := by
        rw [transferIds, covered, kept]
        simp only [Except.mapError, bind, Except.bind]
        cases handOn old m.pairs new <;> rfl
      rw [handed]
      rcases inside_or_first_outside old new m.pairs with inside | ⟨before, p, after, split, inside, out⟩
      · rw [handOn_eq inside once]
        exact .inside covers balanced inside
      · rw [split, handOn_outside inside out]
        exact .outside covers balanced split inside out
    · have refused : m.keptPairs = .error (.keptMismatch (m.oldStates.count .kept) (m.newStates.count .kept)) :=
        if_neg balanced
      rw [transferIds, covered, refused]
      exact .unbalanced covers balanced
  · have refused : m.covers old new = .error _ := if_neg covers
    rw [transferIds, refused]
    exact .uncovered covers

namespace HandsOn

variable {m : Matching} {old new : Menu}

theorem of_outside {p : Nat × Nat} (way : m.HandsOn old new (.error (.outside p))) :
    m.Covers old new ∧ m.Balanced ∧ p ∈ m.pairs ∧ ¬ Inside old new p := by
  cases way with
  | outside covers balanced split _ out =>
    refine ⟨covers, balanced, ?_, out⟩
    rw [split]
    exact List.mem_append_right _ (List.mem_cons_self ..)

theorem exists_outside {r : Except TransferFailure (Menu × Nat)} (way : m.HandsOn old new r)
    (covers : m.Covers old new) (balanced : m.Balanced) (out : ∃ p ∈ m.pairs, ¬ Inside old new p) :
    ∃ p, r = .error (.outside p) := by
  cases way with
  | uncovered none => exact absurd covers none
  | unbalanced _ none => exact absurd balanced none
  | outside => exact ⟨_, rfl⟩
  | inside _ _ all =>
    obtain ⟨p, hp, out⟩ := out
    exact absurd (all p hp) out

end HandsOn

/-! ### Edited states -/

/-- The same pairs with other states. -/
def edit (m : Matching) (oldStates newStates : List MatchState) : Matching := { m with oldStates, newStates }

/-- There are states for a level that keep as many nodes as asked for. -/
theorem exists_states {kept length : Nat} (fewer : kept ≤ length) :
    ∃ states : List MatchState, states.length = length ∧ states.count .kept = kept := by
  refine ⟨List.replicate kept .kept ++ List.replicate (length - kept) .removed, ?_, ?_⟩
  · rw [List.length_append, List.length_replicate, List.length_replicate, Nat.add_sub_cancel' fewer]
  · simp [List.count_replicate]

section
variable {κ : Type} {keys keys' : List κ} {m : Matching} {old new : Menu}

/-- No pair points outside levels that are no shorter than those it was found for. -/
theorem Fits.inside_of_le (fits : m.Fits keys keys') (hold : m.oldStates.length ≤ old.length)
    (hnew : m.newStates.length ≤ new.length) {p : Nat × Nat} (hp : p ∈ m.pairs) : Inside old new p := by
  obtain ⟨key, ho, hn⟩ := fits.same p hp
  have first := (List.getElem?_eq_some_iff.mp ho).1
  have second := (List.getElem?_eq_some_iff.mp hn).1
  rw [fits.old_length] at hold
  rw [fits.new_length] at hnew
  exact ⟨Nat.lt_of_lt_of_le first hold, Nat.lt_of_lt_of_le second hnew⟩

variable [DecidableEq κ]

/-- Whatever is made of the states, handing on ids is refused, succeeds, or runs into a pair that points outside.
The last can be brought about for levels that have room for all pairs but are shorter than some pair says, and
for no others. It takes fewer states than were found. -/
theorem transferIds_edit (found : Matching.ofKeys keys keys' = some m) (old new : Menu) :
    (∀ oldStates newStates,
      (m.edit oldStates newStates).HandsOn old new ((m.edit oldStates newStates).transferIds old new)) ∧
    ((∃ oldStates newStates p, (m.edit oldStates newStates).transferIds old new = .error (.outside p)) ↔
      m.pairs.length ≤ old.length ∧ m.pairs.length ≤ new.length ∧ ∃ p ∈ m.pairs, ¬ Inside old new p) ∧
    ∀ oldStates newStates p, (m.edit oldStates newStates).transferIds old new = .error (.outside p) →
      oldStates.length < m.oldStates.length ∨ newStates.length < m.newStates.length := by
  have fits := fits_of_ofKeys found
  have once : (m.pairs.map Prod.snd).Nodup :=
    (List.nodup_append.mp (fits.new_perm.nodup_iff.mpr List.nodup_range)).1
  have ways (oldStates newStates : List MatchState) := handsOn (m := m.edit oldStates newStates) once old new
  refine ⟨ways, ⟨?_, ?_⟩, ?_⟩
  · rintro ⟨oldStates, newStates, p, crash⟩
    obtain ⟨⟨hold, hnew⟩, ⟨balanced, kept⟩, member, out⟩ := (crash ▸ ways oldStates newStates).of_outside
    have room : (m.pairs.length : Nat) ≤ old.length := by
      rw [← hold, ← show _ = m.pairs.length from kept]
      exact List.count_le_length
    have room' : (m.pairs.length : Nat) ≤ new.length := by
      rw [← hnew, ← show _ = m.pairs.length from kept, balanced]
      exact List.count_le_length
    exact ⟨room, room', p, member, out⟩
  · rintro ⟨room, room', out⟩
    obtain ⟨oldStates, hold, kept⟩ := exists_states room
    obtain ⟨newStates, hnew, kept'⟩ := exists_states room'
    obtain ⟨p, crash⟩ := (ways oldStates newStates).exists_outside ⟨hold, hnew⟩ ⟨kept.trans kept'.symm, kept⟩ out
    exact ⟨oldStates, newStates, p, crash⟩
  · intro oldStates newStates p crash
    obtain ⟨⟨hold, hnew⟩, -, member, out⟩ := (crash ▸ ways oldStates newStates).of_outside
    by_contra enough
    rw [not_or, Nat.not_lt, Nat.not_lt] at enough
    have hold : oldStates.length = old.length := hold
    have hnew : newStates.length = new.length := hnew
    exact out (fits.inside_of_le (hold ▸ enough.1) (hnew ▸ enough.2) member)

end

def titled (titles : List String) : Menu := titles.map fun title => { entry := { title } }

def ofSecond : Matching where
  oldStates := [.removed, .kept]
  newStates := [.kept]
  pairs := [(1, 0)]

theorem ofMenus_second : Matching.ofMenus (titled ["X", "B"]) (titled ["B"]) = some ofSecond := by
  decide +kernel

/-- With one state taken away and the other one overwritten, the pair still points at a second entry. -/
theorem transferIds_stale : Matching.ofMenus (titled ["X", "B"]) (titled ["B"]) = some ofSecond ∧
    (ofSecond.edit [.kept] [.kept]).transferIds (titled ["A"]) (titled ["B"]) = .error (.outside (1, 0)) :=
  ⟨ofMenus_second, rfl⟩

theorem transferIds_edit_second : Matching.ofMenus (titled ["X", "B"]) (titled ["B"]) = some ofSecond ∧
    ∃ oldStates newStates p,
      (ofSecond.edit oldStates newStates).transferIds (titled ["A"]) (titled ["B"]) = .error (.outside p) := by
  refine ⟨ofMenus_second, (transferIds_edit ofMenus_second (titled ["A"]) (titled ["B"])).2.1.mpr ?_⟩
  exact ⟨by decide, by decide, (1, 0), List.mem_singleton_self _, by decide⟩

end Matching

end RemoteMenu
