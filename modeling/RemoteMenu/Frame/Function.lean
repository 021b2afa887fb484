/-!
# Frame kinds and host functions

The numbers that stand for them in a frame's header. `HostFunction.ofValue_value` says when a
function is recovered from its number, `HostFunction.value_ofValue` that no number is lost.
-/

namespace RemoteMenu

inductive FrameKind
  | request
  | response
  | notification
  deriving Repr, DecidableEq

namespace FrameKind

def value : FrameKind → UInt8
  | .request => 0
  | .response => 1
  | .notification => 2

def ofValue? (b : UInt8) : Option FrameKind :=
  if b = 0 then some .request
  else if b = 1 then some .response
  else if b = 2 then some .notification
  else none

@[simp] theorem ofValue?_value (k : FrameKind) : ofValue? k.value = some k := by
  cases k <;> rfl

theorem value_of_ofValue? {b : UInt8} {k : FrameKind} (h : ofValue? b = some k) : k.value = b := by
  unfold ofValue? at h
  split at h
  · cases h; exact Eq.symm ‹_›
  split at h
  · cases h; exact Eq.symm ‹_›
  split at h
  · cases h; exact Eq.symm ‹_›
  · contradiction

end FrameKind

/-- A function of the host. Numbers without a name are carried through as `other`. -/
inductive HostFunction
  | addCommand
  | deleteCommand
  | addSubMenu
  | deleteSubMenu
  | putFile
  | onCommand
  | other (id : UInt32)
  deriving Repr, DecidableEq

namespace HostFunction

def value : HostFunction → UInt32
  | .addCommand => 5
  | .deleteCommand => 6
  | .addSubMenu => 7
  | .deleteSubMenu => 8
  | .putFile => 32
  | .onCommand => 32782
  | .other id => id

def ofValue (id : UInt32) : HostFunction :=
  if id = 5 then .addCommand
  else if id = 6 then .deleteCommand
  else if id = 7 then .addSubMenu
  else if id = 8 then .deleteSubMenu
  else if id = 32 then .putFile
  else if id = 32782 then .onCommand
  else .other id

@[simp] theorem value_ofValue (id : UInt32) : (ofValue id).value = id := by
  unfold ofValue
  repeat' split
  all_goals first | rfl | exact Eq.symm ‹_›

/-- A function is read back unless a named number is carried as `other`. -/
theorem ofValue_value {f : HostFunction} (h : ∀ id, f = .other id → ofValue id = .other id) :
    ofValue f.value = f := by
  cases f
  case other id => exact h id rfl
  all_goals rfl

/-- The function's name; a number in parentheses for those without one. -/
def name : HostFunction → String
  | .addCommand => "AddCommand"
  | .deleteCommand => "DeleteCommand"
  | .addSubMenu => "AddSubMenu"
  | .deleteSubMenu => "DeleteSubMenu"
  | .putFile => "PutFile"
  | .onCommand => "OnCommand"
  | .other id => s!"Other({id.toNat})"

end HostFunction

end RemoteMenu
