import RemoteMenu.Command.Basic

/-!
# The tree on the host

What the accepted batches make of an empty menu. An entry is kept as the addition that made it, and
goes when it or an entry above it is deleted. `AdmitsAll` is what a host may insist on that checks
each command against the tree at its turn.
-/

namespace RemoteMenu

/-- The entries that the host shows, each by the addition that made it. -/
abbrev HostTree := List Addition

namespace HostTree

/-- Whether the way up from an entry comes to `top`, in a number of steps at most. -/
def leadsTo (host : HostTree) (top : RemoteId) : (steps : Nat) → RemoteId → Bool
  | 0, id => id = top
  | steps + 1, id => id = top || host.any fun a => a.id = id && a.parent.any (leadsTo host top steps)

/-- Takes off an entry and everything below it. -/
def delete (host : HostTree) (id : RemoteId) : HostTree :=
  host.filter fun a => !host.leadsTo id host.length a.id

def apply (host : HostTree) : Command → HostTree
  | .add a => host ++ [a]
  | .delete _ id => host.delete id

def applyAll (host : HostTree) (batch : List Command) : HostTree := batch.foldl apply host

/-- The tree after some batches, of which the host took those that it accepted. -/
def after (host : HostTree) (log : List (List Command × Bool)) : HostTree :=
  log.foldl (fun host (batch, accepted) => if accepted then host.applyAll batch else host) host

def replay (log : List (List Command × Bool)) : HostTree := after [] log

/-- Whether a command is in order: an addition has an id of its own and goes to the top or into a
submenu, a deletion names an entry by its kind. -/
def Admits (host : HostTree) : Command → Prop
  | .add a =>
    a.id.isSet = true ∧ (∀ b ∈ host, b.id ≠ a.id) ∧
      ∀ p, a.parent = some p → ∃ b ∈ host, b.id = p ∧ b.role.kind = .submenu
  | .delete kind id => ∃ b ∈ host, b.id = id ∧ b.role.kind = kind

/-- Whether the commands of a batch are in order, each after those before it. -/
def AdmitsAll (host : HostTree) : List Command → Prop
  | [] => True
  | c :: batch => host.Admits c ∧ (host.apply c).AdmitsAll batch

/-- Whether every batch of a log is in order for the tree that the accepted ones before it have made. -/
def Orderly (host : HostTree) : List (List Command × Bool) → Prop
  | [] => True
  | (batch, accepted) :: log =>
    host.AdmitsAll batch ∧ Orderly (if accepted then host.applyAll batch else host) log

@[simp] theorem applyAll_nil (host : HostTree) : host.applyAll [] = host := rfl

@[simp] theorem applyAll_cons (host : HostTree) (c : Command) (batch : List Command) :
    host.applyAll (c :: batch) = (host.apply c).applyAll batch := rfl

theorem after_snoc (host : HostTree) (log : List (List Command × Bool)) (batch : List Command) (accepted : Bool) :
    host.after (log ++ [(batch, accepted)]) =
      if accepted then (host.after log).applyAll batch else host.after log := by
  simp [after]

theorem replay_snoc (log : List (List Command × Bool)) (batch : List Command) (accepted : Bool) :
    replay (log ++ [(batch, accepted)]) =
      if accepted then (replay log).applyAll batch else replay log := after_snoc ..

theorem orderly_append {host : HostTree} {a b : List (List Command × Bool)} :
    host.Orderly (a ++ b) ↔ host.Orderly a ∧ (host.after a).Orderly b := by
  induction a generalizing host with
  | nil => simp [Orderly, after]
  | cons entry a ih =>
    obtain ⟨batch, accepted⟩ := entry
    simp only [List.cons_append, Orderly, ih, and_assoc]
    rfl

/-- What a host shows was added by batches that it was sent. -/
theorem mem_applyAll {batch : List Command} {host : HostTree} {a : Addition} (member : a ∈ host.applyAll batch) :
    a ∈ host ∨ .add a ∈ batch := by
  induction batch generalizing host with
  | nil => exact .inl member
  | cons c batch ih =>
    rcases ih member with earlier | later
    · cases c with
      | add b =>
        refine (List.mem_append.mp earlier).imp id fun own => ?_
        rw [List.mem_singleton.mp own]
        exact List.mem_cons_self ..
      | delete kind id => exact .inl ((List.mem_filter.mp earlier).1)
    · exact .inr (List.mem_cons_of_mem _ later)

theorem mem_after {log : List (List Command × Bool)} {host : HostTree} {a : Addition} (member : a ∈ host.after log) :
    a ∈ host ∨ ∃ b ∈ log, .add a ∈ b.1 := by
  induction log generalizing host with
  | nil => exact .inl member
  | cons b log ih =>
    obtain ⟨batch, accepted⟩ := b
    rcases ih member with earlier | ⟨b, hb, added⟩
    · dsimp only at earlier
      split at earlier
      · exact (mem_applyAll earlier).imp id fun added => ⟨_, List.mem_cons_self .., added⟩
      · exact .inl earlier
    · exact .inr ⟨b, List.mem_cons_of_mem _ hb, added⟩

/-! ### Ways up -/

section
variable {host : HostTree} {top : RemoteId}

theorem leadsTo_succ {steps : Nat} {id : RemoteId} (h : host.leadsTo top steps id = true) :
    host.leadsTo top (steps + 1) id = true := by
  induction steps generalizing id with
  | zero => simp_all [leadsTo]
  | succ steps ih =>
    rw [leadsTo] at h ⊢
    rcases Bool.or_eq_true_iff.mp h with here | above
    · rw [here, Bool.true_or]
    · obtain ⟨a, member, leads⟩ := List.any_eq_true.mp above
      obtain ⟨own, parent⟩ := Bool.and_eq_true_iff.mp leads
      obtain ⟨p, hp, further⟩ := (Option.any_eq_true _ _).mp parent
      refine Bool.or_eq_true_iff.mpr (.inr (List.any_eq_true.mpr ⟨a, member, ?_⟩))
      exact Bool.and_eq_true_iff.mpr ⟨own, (Option.any_eq_true _ _).mpr ⟨p, hp, ih further⟩⟩

theorem leadsTo_mono {steps more : Nat} {id : RemoteId} (le : steps ≤ more)
    (h : host.leadsTo top steps id = true) : host.leadsTo top more id = true := by
  induction le with
  | refl => exact h
  | step _ ih => exact leadsTo_succ ih

theorem leadsTo_self (steps : Nat) : host.leadsTo top steps top = true :=
  leadsTo_mono (Nat.zero_le steps) (decide_eq_true rfl)

theorem leadsTo_of_parent {a : Addition} (member : a ∈ host) {p : RemoteId} (parent : a.parent = some p)
    {steps : Nat} (h : host.leadsTo top steps p = true) :
    host.leadsTo top (steps + 1) a.id = true := by
  refine Bool.or_eq_true_iff.mpr (.inr (List.any_eq_true.mpr ⟨a, member, ?_⟩))
  simp [parent, h]

end

end HostTree

end RemoteMenu
