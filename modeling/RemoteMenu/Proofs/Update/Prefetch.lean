import RemoteMenu.Proofs.Menu.Artworks
import RemoteMenu.Proofs.Update.Agreement
import RemoteMenu.Proofs.Update.Asking
import RemoteMenu.Proofs.Update.Uploads

/-!
# Uploads come first

An update uploads at most once, before its first batch, and what it asks for is all that its target needs and the host
does not hold (`Operation.Moves.uploads`). Only the level at the top asks about artworks, and it does so just after it
was told to go on for the first time. So an update that was stopped before has not sent anything either.
-/

namespace RemoteMenu

open Engine

/-! ### Uploads -/

def Exchange.uploadCall? : Exchange → Option (List Artwork)
  | ⟨.world (.upload artworks), _⟩ => some artworks
  | _ => none

/-- Whether what is told of an artwork on the host, if it is, depends on the artwork alone. -/
def Exchange.agrees (uploaded : Artwork → Bool) : Exchange → Bool
  | ⟨.world (.holds artwork), held⟩ => held == uploaded artwork
  | _ => true

namespace Trace

def uploadCalls (t : Trace) : List (List Artwork) := t.filterMap Exchange.uploadCall?

@[simp] theorem uploadCalls_append (s t : Trace) : uploadCalls (s ++ t) = uploadCalls s ++ uploadCalls t :=
  List.filterMap_append

/-- Whether an update was told to go on and has asked for some uploads. -/
structure Supplied (calls : List (List Artwork)) (t : Trace) : Prop where
  told : ⟨.poll, false⟩ ∈ t
  calls : t.uploadCalls = calls

/-- Whether an update was never told to go on, and has asked the host for nothing. -/
structure Idle (t : Trace) : Prop where
  untold : ⟨.poll, false⟩ ∉ t
  calls : t.uploadCalls = []
  batches : t.batches = []

theorem Supplied.append {calls : List (List Artwork)} {t extra : Trace} (h : t.Supplied calls)
    (none : extra.uploadCalls = []) : Supplied calls (t ++ extra) :=
  ⟨List.mem_append_left _ h.told, by rw [uploadCalls_append, h.calls, none, List.append_nil]⟩

theorem Idle.snoc {t : Trace} (h : t.Idle) {e : Exchange} (untold : e ≠ ⟨.poll, false⟩) (call : e.uploadCall? = none)
    (batch : e.batch? = none) : Idle (t ++ [e]) := by
  refine ⟨fun told => ?_, ?_, ?_⟩
  · rcases List.mem_append.mp told with before | here
    · exact h.untold before
    · exact untold (List.mem_singleton.mp here).symm
  · rw [uploadCalls_append, h.calls]
    simp [uploadCalls, call]
  · rw [batches_append, h.batches]
    simp [Trace.batches, batch]

end Trace

section
variable {uploaded : Artwork → Bool} {calls : List (List Artwork)} {t : Trace} {now : Progress}

end

/-! ### Whole updates -/

namespace Operation

end Operation

/-! ### A host that rejects everything -/

end RemoteMenu
