import RemoteMenu.Proofs.Command.RoundTrip
import RemoteMenu.Proofs.Rehearsal.Sending

/-!
# Frames of batches

A host that rejects no additions takes down every batch whose commands fit into frames, in the order in which they come,
and encodes them one after another (`Host.Receives.whole`).
-/

namespace RemoteMenu

def Command.Fits (c : Command) : Prop := c.toJson.text.utf8ByteSize ≤ 8 * 1024 * 1024

instance (c : Command) : Decidable c.Fits := inferInstanceAs (Decidable (_ ≤ _))

namespace Rehearsal

namespace SentFrame

/-- Whether what is taken down tells of the request for a command that comes behind `i` others. The ids go up from 0, and
start again behind 2³² - 1. -/
structure Records (sent : SentFrame) (c : Command) (i : Nat) : Prop where
  function : sent.function = match c with
    | .add a =>
      match a.role with
      | .command _ => .addCommand
      | .submenu _ => .addSubMenu
    | .delete .command _ => .deleteCommand
    | .delete .submenu _ => .deleteSubMenu
  correlationId : sent.correlationId = .ofNat i
  target : sent.target = match c with
    | .add a => a.id
    | .delete _ id => id
  request : ∃ frame bytes, c.toFrame (.ofNat i) = .ok frame ∧ frame.assemble = .ok bytes ∧ sent.size = bytes.size
  /-- A header, and the text of the command. -/
  size : sent.size = 12 + c.toJson.text.utf8ByteSize

theorem exists_ofCommand {c : Command} (fits : c.Fits) (i : Nat) :
    ∃ sent, ofCommand c (.ofNat i) = .ok sent ∧ sent.Records c i := by
  have request := (c.toFrame_eq (.ofNat i)).trans (if_pos fits)
  have assembled := Command.assemble_frame fits (.ofNat i)
  rw [ofCommand, request]
  simp only [bind, Except.bind, assembled]
  refine ⟨_, rfl, ?_, rfl, ?_, ⟨_, _, request, assembled, rfl⟩, ?_⟩
  · cases c with
    | add a => rfl
    | delete kind id => cases kind <;> rfl
  · cases c <;> rfl
  · rw [ByteArray.size_append, ByteArray.size_append, List.size_toByteArray, Header.length_encode]
    rfl

/-- A batch whose commands fit is taken down command by command. -/
theorem exists_ofBatch {batch : List Command} (fits : ∀ c ∈ batch, c.Fits) (i : Nat) :
    ∃ frames, ofBatch (.ofNat i) batch = (.ok frames, .ofNat (i + batch.length)) ∧
      List.Forall₂ (fun sent p => sent.Records p.1 p.2) frames (batch.zipIdx i) := by
  induction batch generalizing i with
  | nil => exact ⟨[], rfl, .nil⟩
  | cons c batch ih =>
    obtain ⟨own, others⟩ := List.forall_mem_cons.mp fits
    obtain ⟨sent, here, records⟩ := exists_ofCommand own i
    obtain ⟨frames, rest, record⟩ := ih others (i + 1)
    have next : UInt32.ofNat i + 1 = .ofNat (i + 1) := (UInt32.ofNat_add i 1).symm
    refine ⟨sent :: frames, ?_, .cons records record⟩
    rw [ofBatch, here]
    dsimp only
    rw [next, rest, List.length_cons, Nat.add_right_comm, Nat.add_assoc]
    rfl

end SentFrame

namespace Host

variable {host host' : Host} {log : List (List Command × Bool)}

/-- A host that is to reject nothing takes in all that fits. -/
theorem Receives.whole (h : host.Receives log host') (lenient : host.rejectsAdds = false)
    (fits : ∀ b ∈ log, ∀ c ∈ b.1, c.Fits) {i : Nat} (next : host.nextId = .ofNat i) :
    (∀ b ∈ log, b.2 = true) ∧ host'.batches = host.batches ++ log.map Prod.fst ∧
      ∃ frames, host'.frames = host.frames ++ frames ∧
        List.Forall₂ (fun sent p => sent.Records p.1 p.2) frames ((log.map Prod.fst).flatten.zipIdx i) := by
  induction h generalizing i with
  | rest host => exact ⟨nofun, (List.append_nil _).symm, [], (List.append_nil _).symm, .nil⟩
  | @batch host host' log batch _ ih =>
    obtain ⟨own, others⟩ := List.forall_mem_cons.mp fits
    obtain ⟨frames, encoded, record⟩ := SentFrame.exists_ofBatch own i
    have received : host.receive batch = (true, { host with
        nextId := .ofNat (i + batch.length)
        batches := host.batches ++ [batch]
        frames := host.frames ++ frames }) := by
      rw [receive, next, encoded]
      dsimp only
      rw [lenient]
      rfl
    rw [received] at ih ⊢
    obtain ⟨accepted, batches, more, taken, record'⟩ := ih lenient others rfl
    refine ⟨List.forall_mem_cons.mpr ⟨rfl, accepted⟩, ?_, frames ++ more, ?_, ?_⟩
    · rw [batches, List.append_assoc, List.map_cons]
      rfl
    · rw [taken, List.append_assoc]
    · rw [List.map_cons, List.flatten_cons, List.zipIdx_append]
      exact List.rel_append record record'

end Host

end Rehearsal

end RemoteMenu
