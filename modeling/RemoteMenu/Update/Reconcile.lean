import RemoteMenu.Command.Plan
import RemoteMenu.Settings.Basic
import RemoteMenu.Update.Dialogue
import RemoteMenu.Update.Identity

/-!
# Bringing the host's menu in line

A level is done in this order: match it, hand on ids and draw fresh ones, upload artworks (at the
top only), delete, add the new nodes, add what is below them, and then go into the kept submenus one
after another. After each accepted batch the committed menu is brought up to date. An update stops
early only at a checkpoint, never between a batch and its record.
-/

namespace RemoteMenu

structure Setup where
  settings : Settings
  /-- Whether there is a place to upload artworks to. -/
  uploads : Bool

/-! ### The plan of a level -/

/-- Fresh ids for the new nodes of a level, and for all that is below them. -/
def Menu.assignFresh (ids : IdSupply) : List MatchState → Menu → Menu × IdSupply
  | .added :: states, n :: ns =>
    let (n, ids) := n.withFreshIds ids
    let (ns, ids) := assignFresh ids states ns
    (n :: ns, ids)
  | _ :: states, n :: ns =>
    let (ns, ids) := assignFresh ids states ns
    (n :: ns, ids)
  | _, ns => (ns, ids)

def Menu.freshCount : List MatchState → Menu → Nat
  | .added :: states, n :: ns => n.walk.length + freshCount states ns
  | _ :: states, _ :: ns => freshCount states ns
  | _, _ => 0

/-- A level whose nodes hold the ids they will have. -/
structure LevelPlan where
  old : Menu
  new : Menu
  matching : Matching
  /-- The kept nodes' indices on either side, by their old index. -/
  pairs : List (Nat × Nat)

namespace LevelPlan

def removed (plan : LevelPlan) : List Node :=
  plan.matching.removed.filterMap (plan.old[·]?)

def added (plan : LevelPlan) : List Nat := plan.matching.added

def partner? (plan : LevelPlan) (j : Nat) : Option Node :=
  (plan.pairs.find? (·.2 = j)).bind fun (i, _) => plan.old[i]?

end LevelPlan

/-- Which batches of a level's additions the host accepted. -/
structure AddOutcome where
  /-- The added nodes themselves. -/
  created : Bool
  /-- What is below them. -/
  nested : Bool

def AddOutcome.succeeded (o : AddOutcome) : Bool := o.created && o.nested

/-- The new node with an index, as the host shows it before the kept submenus are gone into: a kept
node has its old children still, an added one is there once its own batch was accepted, and without
children if theirs was not. -/
def LevelPlan.shown (plan : LevelPlan) (adds : AddOutcome) (j : Nat) (n : Node) : Option Node :=
  match plan.matching.newStates[j]?, plan.partner? j with
  | some .kept, some old => some (n.setChildren old.children)
  | some .added, _ =>
    if adds.created then some (if adds.nested then n else n.setChildren []) else none
  | _, _ => none

/-- The level as the host shows it after its batches. Nodes that could not be deleted are still
there, behind the others. -/
def LevelPlan.committed (plan : LevelPlan) (removedOk : Bool) (adds : AddOutcome) : Menu :=
  plan.new.zipIdx.filterMap (fun (n, j) => plan.shown adds j n) ++
    if removedOk then [] else plan.removed

/-! ### The batches of a level -/

namespace Engine

def send (batch : List Command) : Engine Bool := do
  count fun s => { s with
    batchesSent := s.batchesSent + 1, commandsSent := s.commandsSent + batch.length }
  let accepted : Bool ← request (.send batch)
  if accepted then return true
  count fun s => { s with batchesFailed := s.batchesFailed + 1 }
  return false

def missing : List Artwork → Engine (List Artwork)
  | [] => return []
  | a :: as => do
    let held : Bool ← request (.holds a)
    let rest ← missing as
    return if held then rest else a :: rest

/-- Uploads what a menu refers to and the host does not hold. -/
def prefetch (menu : Menu) : Engine UploadReport := do
  let pending ← missing menu.fileArtworks
  if pending.isEmpty then return {}
  let failed : UploadErrors ← request (.upload pending)
  return { requested := pending.map Artwork.name, failed }

def sendDeletes (nodes : List Node) : Engine Bool := do
  if nodes.isEmpty then return true
  send (Command.deletes nodes)

/-- Adds the new nodes of a level and then what is below them. -/
def sendAdds (layout : Layout) (parent : Option RemoteId) (plan : LevelPlan) :
    Engine AddOutcome := do
  if plan.added.isEmpty then return ⟨true, true⟩
  let created ← send (Command.adds layout parent plan.new plan.added)
  if !created then return ⟨false, false⟩
  let below := Command.nestedAdds layout plan.new plan.added
  if below.isEmpty then return ⟨true, true⟩
  return ⟨true, ← send below⟩

/-- Puts a level into the committed menu, where there is one at the path. -/
def commit (path : Path) (level : Menu) : Engine Unit :=
  modify fun now => { now with
    committed := (Menu.replaceLevel level path now.committed).getD now.committed }

/-- Takes nodes off a level of the committed menu, by their ids. -/
def commitRemovals (path : Path) (nodes : List Node) : Engine Unit := do
  match (← now).committed.level? path with
  | none => return ()
  | some level =>
    commit path (level.filter fun n => !(nodes.any fun gone => gone.remoteId = n.remoteId))

def ofTransfer {α} : Except TransferFailure α → Engine α
  | .ok a => return a
  | .error (.refused error) => halt (.failed error)
  | .error (.outside _) => halt .crashed

/-- Settles the ids of a matched level: those of kept nodes first, fresh ones for the others. -/
def settleIds (old new : Menu) (matching : Matching) : Engine LevelPlan := do
  let (new, _) ← ofTransfer (matching.transferIds old new)
  let pairs ← ofTransfer (matching.keptPairs.mapError .refused)
  let ids : IdSupply ← ask (.reserve (Menu.freshCount matching.newStates new))
  return { old, new := (Menu.assignFresh ids matching.newStates new).1, matching, pairs }

end Engine

/-! ### Levels -/

/-- The way into a submenu: from its old children and the path to them to whether all went well. -/
abbrev Descent := Menu → Path → Engine Bool

/-- Goes into the kept nodes that have children on either side. -/
def descend (plan : LevelPlan) (descents : List Descent) (path : Path) :
    List (Nat × Nat) → Engine Bool
  | [] => return true
  | (i, j) :: pairs => do
    Engine.checkpoint
    match plan.old[i]?, plan.new[j]?, descents[j]? with
    | some old, some new, some descent =>
      if old.children.isEmpty && new.children.isEmpty then
        descend plan descents path pairs
      else
        let ok ← descent old.children (path ++ [new.remoteId])
        let rest ← descend plan descents path pairs
        return ok && rest
    | _, _, _ => Engine.halt .crashed

def applyPlan (setup : Setup) (path : Path) (plan : LevelPlan) : Engine Bool := do
  Engine.count fun s => { s with
    nodesKept := s.nodesKept + plan.pairs.length
    nodesRemoved := s.nodesRemoved + plan.removed.length
    nodesAdded := s.nodesAdded + plan.added.length }
  if path.isEmpty && setup.uploads && setup.settings.prefetchArtworks then
    let uploads ← Engine.prefetch plan.new
    Engine.count fun s => { s with
      artworksRequested := s.artworksRequested + uploads.requested.length
      artworksFailed := s.artworksFailed + uploads.failed.size }
  Engine.checkpoint
  let removedOk ← Engine.sendDeletes plan.removed
  if removedOk && !plan.removed.isEmpty then
    Engine.commitRemovals path plan.removed
  Engine.checkpoint
  let adds ← Engine.sendAdds setup.settings.defaultLayout path.getLast? plan
  Engine.commit path (plan.committed removedOk adds)
  return removedOk && adds.succeeded

/-- One level, where `descents` lead into the new nodes. -/
def reconcileWith (setup : Setup) (descents : List Descent) (new : Menu) : Descent :=
  fun old path => do
    Engine.checkpoint
    Engine.count fun s => { s with levelsVisited := s.levelsVisited + 1 }
    match Matching.ofMenus old new with
    | none => return true
    | some matching =>
      let plan ← Engine.settleIds old new matching
      let ok ← applyPlan setup path plan
      let below ← descend plan descents path plan.pairs
      return ok && below

mutual

def Node.descent (setup : Setup) : Node → Descent
  | ⟨_, children, _, _, _⟩ => reconcileWith setup (Menu.descents setup children) children

def Menu.descents (setup : Setup) : Menu → List Descent
  | [] => []
  | n :: ns => n.descent setup :: Menu.descents setup ns

end

/-- Brings a level and all below it in line with `new`. -/
def Menu.reconcile (setup : Setup) (new : Menu) : Descent :=
  reconcileWith setup (Menu.descents setup new) new

end RemoteMenu
