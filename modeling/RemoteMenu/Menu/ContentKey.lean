import RemoteMenu.Digest.Blake3
import RemoteMenu.Menu.Node
import RemoteMenu.Bytes.Hex

/-!
# Content keys

Two nodes are interchangeable for the host if they show the same entry and are of the same kind.
`Node.fingerprint` writes just that as bytes, each string behind its length, and the content key is
the hash of these bytes. Children, ids and the number of a title have no part in it.
-/

namespace RemoteMenu

/-! ### Fingerprints -/

/-- A string behind the number of its bytes. -/
def stringPrint (s : String) : List UInt8 :=
  littleEndian 8 s.utf8ByteSize ++ s.toUTF8.toList

/-- A mark, and the string if there is one. -/
def optionPrint : Option String → List UInt8
  | none => [0]
  | some s => 1 :: stringPrint s

/-- An artwork by its name; the path of its file does not matter. -/
def artworkPrint : Option Artwork → List UInt8
  | none => [0]
  | some a => 1 :: a.isStatic.toUInt8 :: a.isTemplate.toUInt8 :: stringPrint a.name

def layoutPrint : Option Layout → UInt8
  | none => 0
  | some .list => 1
  | some .tiles => 2

def Entry.fingerprint (e : Entry) : List UInt8 :=
  stringPrint e.title ++ optionPrint e.secondaryText ++ optionPrint e.tertiaryText ++
    littleEndian 8 e.voiceCommands.length ++ e.voiceCommands.flatMap stringPrint ++
    artworkPrint e.icon ++ artworkPrint e.secondaryIcon ++ [layoutPrint e.layout]

def Node.fingerprint (n : Node) : List UInt8 :=
  n.entry.fingerprint ++ [n.isSubmenu.toUInt8]

/-! ### Keys -/

/-- The hash by which nodes are matched. -/
structure ContentKey where
  bytes : List UInt8
  deriving Repr, DecidableEq

namespace ContentKey

def text (k : ContentKey) : String := hexText k.bytes

/-- The front of the key, to tell keys apart by eye. -/
def shortText (k : ContentKey) : String := s!"ContentKey({hexText (k.bytes.take 6)})"

end ContentKey

def Node.contentKey (n : Node) : ContentKey := ⟨Blake3.hash n.fingerprint⟩

end RemoteMenu
