import RemoteMenu.Proofs.Menu.Fingerprint
import RemoteMenu.Proofs.Update.Mirroring

/-!
# What content keys cover

Two nodes have the same bytes under their keys if and only if `Node.coverage` is the same of both
(`Node.keys_cover`). What is below a node counts as far as it makes the node a submenu. The ids, the
numbers of titles and the paths of files do not count.
-/

namespace RemoteMenu

structure Node.Coverage where
  entry : Entry.Coverage
  isSubmenu : Bool
  deriving Repr, DecidableEq

def Node.coverage (n : Node) : Coverage := ⟨n.entry.coverage, n.isSubmenu⟩

theorem artworkPrint_eq_of_look_eq {a b : Option Artwork} (h : a.map Artwork.look = b.map Artwork.look) :
    artworkPrint a = artworkPrint b := by
  cases a with
  | none => rw [Option.map_eq_none_iff.mp h.symm]
  | some a =>
    obtain ⟨b, rfl, look⟩ := Option.map_eq_some_iff.mp h.symm
    obtain ⟨name, static, template⟩ : b.name = a.name ∧ b.isStatic = a.isStatic ∧ b.isTemplate = a.isTemplate := by
      simpa [Artwork.look] using look
    rw [artworkPrint, artworkPrint, name, static, template]

theorem Entry.fingerprint_eq_of_coverage_eq {e e' : Entry} (h : e.coverage = e'.coverage) :
    e.fingerprint = e'.fingerprint := by
  obtain ⟨title, second, third, phrases, icon, other, layout⟩ := Coverage.mk.inj h
  rw [fingerprint_eq, fingerprint_eq, title, second, third, phrases, artworkPrint_eq_of_look_eq icon,
    artworkPrint_eq_of_look_eq other, layout]

section
variable {a b : Node}

theorem Node.fingerprint_eq_iff (ha : ∀ s ∈ a.entry.strings, Short s) (hb : ∀ s ∈ b.entry.strings, Short s) :
    a.fingerprint = b.fingerprint ↔ a.coverage = b.coverage := by
  constructor
  · intro same
    have entries := (List.append_inj' same rfl).1
    have kinds := Face.isSubmenu_eq_of_print_eq (f := a.face) (g := b.face) same
    exact congrArg₂ Coverage.mk (Entry.coverage_eq_of_fingerprint_eq ha hb entries) kinds
  · intro same
    obtain ⟨entries, kinds⟩ := Coverage.mk.inj same
    rw [fingerprint, fingerprint, Entry.fingerprint_eq_of_coverage_eq entries, kinds]

/-- The bytes under a key can be told apart exactly by what the key covers, and where these bytes do not
collide so can the keys. -/
theorem Node.keys_cover (ha : ∀ s ∈ a.entry.strings, Short s) (hb : ∀ s ∈ b.entry.strings, Short s) :
    (a.fingerprint = b.fingerprint ↔ a.coverage = b.coverage) ∧
    ∀ faces, Collisionless faces → a.face ∈ faces → b.face ∈ faces →
      (a.contentKey = b.contentKey ↔ a.coverage = b.coverage) := by
  have bytes := fingerprint_eq_iff ha hb
  refine ⟨bytes, fun faces distinguished known known' => ?_⟩
  rw [← bytes]
  constructor
  · intro keys
    exact distinguished a.face known b.face known' (congrArg ContentKey.bytes keys)
  · intro same
    rw [contentKey, contentKey, same]

end

/-- The same letters, parted at two places. -/
def parted : Node × Node :=
  ({ entry := { title := "ab", secondaryText := "c", icon := Artwork.ofFile "d" "/e" } },
    { entry := { title := "a", secondaryText := "bc", icon := Artwork.ofFile "d" "/e" } })

theorem Node.keys_cover_parted :
    Collisionless { f | f ∈ [parted.1.face, parted.2.face] } ∧ parted.1.contentKey ≠ parted.2.contentKey ∧
      parted.1.fingerprint ≠ parted.2.fingerprint := by
  have apart : Collisionless { f | f ∈ [parted.1.face, parted.2.face] } :=
    collisionless_of_pairwise (by decide +kernel)
  obtain ⟨bytes, keys⟩ := Node.keys_cover (a := parted.1) (b := parted.2) (by decide) (by decide)
  have differ : parted.1.coverage ≠ parted.2.coverage := by decide
  exact ⟨apart, fun same => differ ((keys _ apart (.head _) (.tail _ (.head _))).mp same),
    fun same => differ (bytes.mp same)⟩

end RemoteMenu
