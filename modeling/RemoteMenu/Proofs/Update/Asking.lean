import RemoteMenu.Proofs.Dialogue.Only
import RemoteMenu.Proofs.Update.Parts

/-!
# What a level asks

Levels ask whether to go on, draw ids and send batches, and nothing else, but that the one at the top may ask about
artworks before its batches (`only_batches`, `Menu.ofMenu_descents`).
-/

namespace RemoteMenu

/-- Whether an inquiry is about the menu on the host, or whether to go on with it. -/
def Inquiry.OfMenu : Inquiry → Prop
  | .poll | .reserve _ | .world (.send _) => True
  | _ => False

namespace Engine

theorem only_send (batch : List Command) : (send batch).Only Inquiry.OfMenu := by
  rw [send]
  refine (Only.count _).bind fun _ => (Only.ask (.world (.send batch)) trivial).bind fun accepted => ?_
  cases accepted with
  | true => exact .pure _
  | false => exact (Only.count _).bind fun _ => .pure _

theorem only_sendDeletes (nodes : List Node) : (sendDeletes nodes).Only Inquiry.OfMenu := by
  unfold sendDeletes
  split
  · exact .pure _
  · exact only_send _

theorem only_sendAdds (layout : Layout) (parent : Option RemoteId) (plan : LevelPlan) :
    (sendAdds layout parent plan).Only Inquiry.OfMenu := by
  unfold sendAdds
  split
  · exact .pure _
  · refine (only_send _).bind fun created => ?_
    split
    · exact .pure _
    · extract_lets below
      split
      · exact .pure _
      · exact (only_send _).bind fun nested => .pure _

theorem only_commitRemovals (path : Path) (nodes : List Node) :
    (commitRemovals path nodes).Only Inquiry.OfMenu := by
  refine Only.now.bind fun now => ?_
  split
  · exact .pure _
  · exact .modify _

theorem only_ofTransfer {α : Type} (r : Except TransferFailure α) : (ofTransfer r).Only Inquiry.OfMenu := by
  match r with
  | .ok a => exact .pure _
  | .error (.refused _) => exact .halt _
  | .error (.outside _) => exact .halt _

theorem only_settleIds (old new : Menu) (matching : Matching) :
    (settleIds old new matching).Only Inquiry.OfMenu :=
  (only_ofTransfer _).bind fun _ => (only_ofTransfer _).bind fun _ =>
    (Only.ask (.reserve _) trivial).bind fun _ => .pure _

end Engine

open Engine

section
variable {setup : Setup}

/-- Below the top nothing is asked about artworks. -/
theorem only_applyPlan {path : Path} (inner : path ≠ []) (plan : LevelPlan) :
    (applyPlan setup path plan).Only Inquiry.OfMenu := by
  have here : path.isEmpty = false := by simpa using inner
  rw [applyPlan, here, Bool.false_and, Bool.false_and]
  refine (Only.count _).bind fun _ => (Only.checkpoint trivial).bind fun _ => ?_
  refine (only_sendDeletes _).bind fun removedOk => ?_
  extract_lets adding
  have adds : (adding ()).Only Inquiry.OfMenu := (Only.checkpoint trivial).bind fun _ =>
    (only_sendAdds _ _ _).bind fun _ => (Only.modify _).bind fun _ => .pure _
  split
  · exact (only_commitRemovals _ _).bind fun _ => adds
  · exact adds

def Descent.OfMenu (d : Descent) : Prop := ∀ (old : Menu) (path : Path), path ≠ [] → (d old path).Only Inquiry.OfMenu

theorem only_descend {descents : List Descent} (below : ∀ d ∈ descents, d.OfMenu) (plan : LevelPlan) (path : Path)
    (pairs : List (Nat × Nat)) : (descend plan descents path pairs).Only Inquiry.OfMenu := by
  induction pairs with
  | nil => exact .pure _
  | cons p pairs ih =>
    obtain ⟨i, j⟩ := p
    rw [descend]
    refine (Only.checkpoint trivial).bind fun _ => ?_
    split
    · next old new descent _ _ there =>
      split
      · exact ih
      · refine (below descent (List.mem_of_getElem? there) _ _ (by simp)).bind fun ok => ?_
        exact ih.bind fun rest => .pure _
    · exact .halt _

theorem ofMenu_reconcileWith {descents : List Descent} (below : ∀ d ∈ descents, d.OfMenu) (new : Menu) :
    Descent.OfMenu (reconcileWith setup descents new) := by
  intro old path inner
  rw [reconcileWith]
  refine (Only.checkpoint trivial).bind fun _ => (Only.count _).bind fun _ => ?_
  split
  · exact .pure _
  · refine (only_settleIds _ _ _).bind fun plan => (only_applyPlan inner plan).bind fun ok => ?_
    exact (only_descend below _ _ _).bind fun rest => .pure _

mutual

theorem Node.ofMenu_descent : (n : Node) → (n.descent setup).OfMenu
  | ⟨_, children, _, _, _⟩ => by
    rw [Node.descent]
    exact ofMenu_reconcileWith (Menu.ofMenu_descents children) children

theorem Menu.ofMenu_descents : (menu : Menu) → ∀ d ∈ Menu.descents setup menu, d.OfMenu
  | [] => by
    rw [Menu.descents]
    exact nofun
  | n :: ns => by
    rw [Menu.descents]
    exact List.forall_mem_cons.mpr ⟨n.ofMenu_descent, Menu.ofMenu_descents ns⟩

end

end

end RemoteMenu
