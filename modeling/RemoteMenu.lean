import RemoteMenu.Main
import RemoteMenu.Manager
import RemoteMenu.Proofs.Menu.Places
import RemoteMenu.Proofs.Dialogue.Contract
import RemoteMenu.Proofs.Update.Matching
import RemoteMenu.Proofs.Host.Mirror
import RemoteMenu.Proofs.Update.Plan
import RemoteMenu.Proofs.Update.Parts
import RemoteMenu.Proofs.Update.Mirroring
import RemoteMenu.Proofs.Update.LevelMirroring
import RemoteMenu.Proofs.Update.Moves
import RemoteMenu.Proofs.Manager.History
import RemoteMenu.Proofs.Manager.HostMirror
import RemoteMenu.Proofs.Menu.Bare
import RemoteMenu.Proofs.Update.Account
import RemoteMenu.Proofs.Update.Exactness
import RemoteMenu.Proofs.Update.Outcome
import RemoteMenu.Proofs.Menu.Fingerprint
import RemoteMenu.Proofs.Manager.Operations
import RemoteMenu.Proofs.Manager.Healing
import RemoteMenu.Proofs.Update.Flow
import RemoteMenu.Proofs.Update.Agreement
import RemoteMenu.Proofs.Manager.Recovery
import RemoteMenu.Proofs.Manager.Turns
import RemoteMenu.Proofs.Update.Pacing
import RemoteMenu.Proofs.Update.Round
import RemoteMenu.Proofs.Update.Untouched
import RemoteMenu.Proofs.Update.Stopping
import RemoteMenu.Proofs.Update.Currency
import RemoteMenu.Proofs.Update.Ids
import RemoteMenu.Proofs.Manager.UniqueIds
import RemoteMenu.Proofs.Update.Ranks
import RemoteMenu.Proofs.Update.Pairings
import RemoteMenu.Proofs.Update.Unchanged
import RemoteMenu.Proofs.Update.Retention
import RemoteMenu.Proofs.Update.Alike
import RemoteMenu.Proofs.Update.SharedIds
import RemoteMenu.Proofs.Update.Idempotence
import RemoteMenu.Proofs.Frame.Codec
import RemoteMenu.Proofs.Update.TargetIds
import RemoteMenu.Proofs.Update.Labels
import RemoteMenu.Proofs.Update.Rejections
import RemoteMenu.Proofs.Manager.Labels
import RemoteMenu.Proofs.Bytes.Utf8
import RemoteMenu.Proofs.Json.Strings
import RemoteMenu.Proofs.Json.Numbers
import RemoteMenu.Proofs.Json.Documents
import RemoteMenu.Proofs.Json.Reading
import RemoteMenu.Proofs.Menu.RoundTrip
import RemoteMenu.Proofs.Command.RoundTrip
import RemoteMenu.Proofs.Host.Row
import RemoteMenu.Proofs.Host.Subtrees
import RemoteMenu.Proofs.Dialogue.Parallel
import RemoteMenu.Proofs.Update.Artworks
import RemoteMenu.Proofs.Menu.Titles
import RemoteMenu.Proofs.Update.Comparisons
import RemoteMenu.Proofs.Update.Tallies
import RemoteMenu.Proofs.Update.Loads
import RemoteMenu.Proofs.Menu.UsedIds
import RemoteMenu.Proofs.Rehearsal.Plans
import RemoteMenu.Proofs.Update.Uploads
import RemoteMenu.Proofs.Update.Playing
import RemoteMenu.Proofs.Menu.Coverage
import RemoteMenu.Proofs.Update.Transfers
import RemoteMenu.Proofs.Update.Asking
import RemoteMenu.Proofs.Update.Prefetch
import RemoteMenu.Proofs.Menu.Positions
import RemoteMenu.Proofs.Menu.Cycle
