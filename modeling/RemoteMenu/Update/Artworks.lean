import RemoteMenu.Menu.Tree
import Std.Data.HashMap

/-!
# Artworks to upload

An artwork counts once, by its name, at the first place where a menu refers to it. The host's own
icons do not count.
-/

namespace RemoteMenu

/-- What the upload of artworks went wrong with, by name. -/
abbrev UploadErrors := Std.HashMap String String

/-- The artworks of a node, the primary icon first. -/
def Node.artworks (n : Node) : List Artwork :=
  n.entry.icon.toList ++ n.entry.secondaryIcon.toList

/-- The artworks whose name is neither among those before them nor among `seen`. -/
def firstOfName (seen : List String) : List Artwork → List Artwork
  | [] => []
  | a :: as =>
    if a.name ∈ seen then firstOfName seen as else a :: firstOfName (a.name :: seen) as

/-- The artworks of a menu that come from files, each name once. -/
def Menu.fileArtworks (menu : Menu) : List Artwork :=
  firstOfName [] ((menu.walk.flatMap Node.artworks).filter (!·.isStatic))

def Menu.pendingArtworks (uploaded : Artwork → Bool) (menu : Menu) : List Artwork :=
  menu.fileArtworks.filter (!uploaded ·)

structure UploadReport where
  /-- The names of the artworks that were to be uploaded. -/
  requested : List String := []
  failed : UploadErrors := ∅

def UploadReport.uploadedCount (r : UploadReport) : Nat :=
  (r.requested.filter (!r.failed.contains ·)).length

end RemoteMenu
