import Mathlib.Algebra.Group.Nat.Defs
import Mathlib.Data.List.Basic
import Mathlib.Data.Nat.ModEq
import RemoteMenu.Proofs.Bytes.Utf8
import RemoteMenu.Proofs.Menu.FreshIds

/-!
# What a fingerprint tells

The bytes of an entry say all that a key covers of it (`Entry.coverage_eq_of_fingerprint_eq`), and so all that a host is
told of it: its texts, the names of its icons, its phrases, its layout and its kind (`Face.alike_of_print_eq`). Each
part of the bytes ends where its length or its mark says, whatever follows. Lengths are written in eight bytes, so those
of strings have to fit there. The number of phrases need not: so many phrases take more bytes than all that may follow.
-/

namespace RemoteMenu

/-! ### Numbers and strings -/

/-- The lowest bytes of a number are those of its remainder. -/
theorem mod_eq_of_littleEndian_eq {count m n : Nat} (h : littleEndian count m = littleEndian count n) :
    m % 256 ^ count = n % 256 ^ count := by
  induction count generalizing m n with
  | zero => rw [Nat.pow_zero, Nat.mod_one, Nat.mod_one]
  | succ count ih =>
    obtain ⟨low, high⟩ := List.cons.inj h
    have high := ih high
    have low : m % 256 = n % 256 := by
      have bytes := congrArg UInt8.toNat low
      simpa using bytes
    rw [Nat.pow_succ', Nat.mod_mul, Nat.mod_mul, low, high]

theorem littleEndian_inj {count m n : Nat} (hm : m < 256 ^ count) (hn : n < 256 ^ count)
    (h : littleEndian count m = littleEndian count n) : m = n := by
  have same := mod_eq_of_littleEndian_eq h
  rwa [Nat.mod_eq_of_lt hm, Nat.mod_eq_of_lt hn] at same

/-- Whether the length of a string fits into its fingerprint. -/
def Short (s : String) : Prop := s.utf8ByteSize < 256 ^ 8

instance (s : String) : Decidable (Short s) := inferInstanceAs (Decidable (s.utf8ByteSize < 256 ^ 8))

theorem stringPrint_append_inj {s t : String} {x y : List UInt8} (hs : Short s) (ht : Short t)
    (h : stringPrint s ++ x = stringPrint t ++ y) : s = t ∧ x = y := by
  unfold stringPrint at h
  rw [List.append_assoc, List.append_assoc] at h
  obtain ⟨lengths, rest⟩ := List.append_inj h (by rw [length_littleEndian, length_littleEndian])
  have sizes := littleEndian_inj hs ht lengths
  obtain ⟨bytes, after⟩ := List.append_inj rest (by rw [length_toUTF8, length_toUTF8, sizes])
  exact ⟨toUTF8_inj bytes, after⟩

theorem length_stringPrint (s : String) : (stringPrint s).length = 8 + s.utf8ByteSize := by
  rw [stringPrint, List.length_append, length_littleEndian, length_toUTF8]

/-- Of two lists of strings before some bytes, the longer one goes on where the shorter one ends. -/
theorem stringPrints_append_prefix {ss ts : List String} {x y : List UInt8} (fewer : ss.length ≤ ts.length)
    (hs : ∀ s ∈ ss, Short s) (ht : ∀ t ∈ ts, Short t)
    (h : ss.flatMap stringPrint ++ x = ts.flatMap stringPrint ++ y) :
    ∃ more, ts = ss ++ more ∧ x = more.flatMap stringPrint ++ y := by
  induction ss generalizing ts with
  | nil => exact ⟨ts, rfl, h⟩
  | cons s ss ih =>
    cases ts with
    | nil => simp at fewer
    | cons t ts =>
      rw [List.flatMap_cons, List.flatMap_cons, List.append_assoc, List.append_assoc] at h
      obtain ⟨rfl, rest⟩ := stringPrint_append_inj (hs s (List.mem_cons_self ..)) (ht t (List.mem_cons_self ..)) h
      obtain ⟨more, rfl, after⟩ := ih (Nat.le_of_succ_le_succ fewer)
        (fun s hs' => hs s (List.mem_cons_of_mem _ hs')) (fun t ht' => ht t (List.mem_cons_of_mem _ ht')) rest
      exact ⟨more, rfl, after⟩

theorem length_le_stringPrints (ss : List String) : 8 * ss.length ≤ (ss.flatMap stringPrint).length := by
  induction ss with
  | nil => exact Nat.zero_le _
  | cons s ss ih =>
    rw [List.flatMap_cons, List.length_append, length_stringPrint, List.length_cons]
    omega

/-- Strings behind their number, of which eight bytes are written. -/
def countedPrint (ss : List String) : List UInt8 := littleEndian 8 ss.length ++ ss.flatMap stringPrint

/-- Strings behind their number can be told from what follows, unless that is very long. -/
theorem countedPrint_append_inj {ss ts : List String} {x y : List UInt8} (hs : ∀ s ∈ ss, Short s)
    (ht : ∀ t ∈ ts, Short t) (hx : x.length < 8 * 256 ^ 8) (hy : y.length < 8 * 256 ^ 8)
    (h : countedPrint ss ++ x = countedPrint ts ++ y) : ss = ts ∧ x = y := by
  wlog fewer : ss.length ≤ ts.length generalizing ss ts x y
  · obtain ⟨same, after⟩ := this ht hs hy hx h.symm (Nat.le_of_not_le fewer)
    exact ⟨same.symm, after.symm⟩
  unfold countedPrint at h
  rw [List.append_assoc, List.append_assoc] at h
  obtain ⟨counts, rest⟩ := List.append_inj h (by rw [length_littleEndian, length_littleEndian])
  obtain ⟨more, rfl, after⟩ := stringPrints_append_prefix fewer hs ht rest
  -- As many strings as would not change the bytes of their number are longer than `x`.
  have none : more.length = 0 := by
    rw [List.length_append] at counts
    have multiple : 256 ^ 8 ∣ more.length := by
      have same := (Nat.modEq_iff_dvd' (Nat.le_add_right _ _)).mp (mod_eq_of_littleEndian_eq counts)
      rwa [Nat.add_sub_cancel_left] at same
    have long := length_le_stringPrints more
    have bound := congrArg List.length after
    rw [List.length_append] at bound
    exact Nat.eq_zero_of_dvd_of_lt multiple (by omega)
  obtain rfl := List.length_eq_zero_iff.mp none
  exact ⟨(List.append_nil ss).symm, after⟩

/-! ### The parts of an entry -/

theorem optionPrint_append_inj {s t : Option String} {x y : List UInt8} (hs : ∀ r ∈ s, Short r)
    (ht : ∀ r ∈ t, Short r) (h : optionPrint s ++ x = optionPrint t ++ y) : s = t ∧ x = y := by
  cases s with
  | none =>
    cases t with
    | none => exact ⟨rfl, (List.cons.inj h).2⟩
    | some t => exact absurd (List.cons.inj h).1 (by decide)
  | some s =>
    cases t with
    | none => exact absurd (List.cons.inj h).1 (by decide)
    | some t =>
      obtain ⟨rfl, after⟩ := stringPrint_append_inj (hs s rfl) (ht t rfl) (List.cons.inj h).2
      exact ⟨rfl, after⟩

/-- What a key covers of an artwork: its name, whether it is the host's own, and whether it is a template. -/
def Artwork.look (a : Artwork) : String × Bool × Bool := (a.name, a.isStatic, a.isTemplate)

theorem toUInt8_inj {a b : Bool} (h : a.toUInt8 = b.toUInt8) : a = b := by
  cases a <;> cases b <;> first | rfl | exact absurd h (by decide)

theorem artworkPrint_append_inj {a b : Option Artwork} {x y : List UInt8}
    (ha : ∀ s ∈ a.map Artwork.name, Short s) (hb : ∀ s ∈ b.map Artwork.name, Short s)
    (h : artworkPrint a ++ x = artworkPrint b ++ y) : a.map Artwork.look = b.map Artwork.look ∧ x = y := by
  cases a with
  | none =>
    cases b with
    | none => exact ⟨rfl, (List.cons.inj h).2⟩
    | some b => exact absurd (List.cons.inj h).1 (by decide)
  | some a =>
    cases b with
    | none => exact absurd (List.cons.inj h).1 (by decide)
    | some b =>
      -- Behind the mark come two bytes for what kind of image it is.
      obtain ⟨static, h⟩ := List.cons.inj (List.cons.inj h).2
      obtain ⟨template, names⟩ := List.cons.inj h
      obtain ⟨name, after⟩ := stringPrint_append_inj (ha a.name rfl) (hb b.name rfl) names
      refine ⟨congrArg some ?_, after⟩
      rw [Artwork.look, Artwork.look, name, toUInt8_inj static, toUInt8_inj template]

theorem length_artworkPrint_lt {a : Option Artwork} (ha : ∀ s ∈ a.map Artwork.name, Short s) :
    (artworkPrint a).length < 256 ^ 8 + 11 := by
  cases a with
  | none => decide
  | some a =>
    have name : a.name.utf8ByteSize < 256 ^ 8 := ha a.name rfl
    simp only [artworkPrint, List.length_cons, length_stringPrint]
    omega

theorem layoutPrint_inj {a b : Option Layout} (h : layoutPrint a = layoutPrint b) : a = b := by
  rcases a with - | - | - <;> rcases b with - | - | - <;> first | rfl | exact absurd h (by decide)

def Entry.strings (e : Entry) : List String :=
  e.title :: (e.secondaryText.toList ++ e.tertiaryText.toList ++ e.voiceCommands ++
    (e.icon.map Artwork.name).toList ++ (e.secondaryIcon.map Artwork.name).toList)

structure Entry.Short (e : Entry) : Prop where
  strings : ∀ s ∈ e.strings, RemoteMenu.Short s
  voiceCommands : e.voiceCommands.length < 256 ^ 8

instance (e : Entry) : Decidable e.Short :=
  decidable_of_iff ((∀ s ∈ e.strings, RemoteMenu.Short s) ∧ e.voiceCommands.length < 256 ^ 8)
    ⟨fun h => ⟨h.1, h.2⟩, fun h => ⟨h.strings, h.voiceCommands⟩⟩

structure Entry.Coverage where
  title : String
  secondaryText : Option String
  tertiaryText : Option String
  voiceCommands : List String
  icon : Option (String × Bool × Bool)
  secondaryIcon : Option (String × Bool × Bool)
  layout : Option Layout
  deriving Repr, DecidableEq

def Entry.coverage (e : Entry) : Coverage where
  title := e.title
  secondaryText := e.secondaryText
  tertiaryText := e.tertiaryText
  voiceCommands := e.voiceCommands
  icon := e.icon.map Artwork.look
  secondaryIcon := e.secondaryIcon.map Artwork.look
  layout := e.layout

theorem Entry.fingerprint_eq (e : Entry) : e.fingerprint =
    stringPrint e.title ++ (optionPrint e.secondaryText ++ (optionPrint e.tertiaryText ++
      (countedPrint e.voiceCommands ++ (artworkPrint e.icon ++ (artworkPrint e.secondaryIcon ++
        [layoutPrint e.layout]))))) := by
  simp only [fingerprint, countedPrint, List.append_assoc]

theorem Entry.coverage_eq_of_fingerprint_eq {e e' : Entry} (short : ∀ s ∈ e.strings, RemoteMenu.Short s)
    (short' : ∀ s ∈ e'.strings, RemoteMenu.Short s) (h : e.fingerprint = e'.fingerprint) :
    e.coverage = e'.coverage := by
  simp only [strings, List.mem_cons, List.mem_append, Option.mem_toList, or_imp, forall_and,
    forall_eq] at short short'
  obtain ⟨title, ⟨⟨⟨second, third⟩, phrases⟩, icon⟩, other⟩ := short
  obtain ⟨title', ⟨⟨⟨second', third'⟩, phrases'⟩, icon'⟩, other'⟩ := short'
  -- What follows the phrases is short.
  have tail {e : Entry} (icon : ∀ s ∈ e.icon.map Artwork.name, RemoteMenu.Short s)
      (other : ∀ s ∈ e.secondaryIcon.map Artwork.name, RemoteMenu.Short s) :
      (artworkPrint e.icon ++ (artworkPrint e.secondaryIcon ++ [layoutPrint e.layout])).length < 8 * 256 ^ 8 := by
    have first := length_artworkPrint_lt icon
    have second := length_artworkPrint_lt other
    rw [List.length_append, List.length_append, List.length_singleton]
    omega
  rw [fingerprint_eq, fingerprint_eq] at h
  obtain ⟨sameTitle, h⟩ := stringPrint_append_inj title title' h
  obtain ⟨sameSecond, h⟩ := optionPrint_append_inj second second' h
  obtain ⟨sameThird, h⟩ := optionPrint_append_inj third third' h
  obtain ⟨samePhrases, h⟩ := countedPrint_append_inj phrases phrases' (tail icon other) (tail icon' other') h
  obtain ⟨sameIcon, h⟩ := artworkPrint_append_inj icon icon' h
  obtain ⟨sameOther, h⟩ := artworkPrint_append_inj other other' h
  have sameLayout := layoutPrint_inj (List.cons.inj h).1
  rw [coverage, coverage, sameTitle, sameSecond, sameThird, samePhrases, sameIcon, sameOther, sameLayout]

/-- Whether two entries are told to the host alike, but for the numbers of their titles. -/
structure Entry.Alike (e e' : Entry) : Prop where
  title : e.title = e'.title
  secondaryText : e.secondaryText = e'.secondaryText
  tertiaryText : e.tertiaryText = e'.tertiaryText
  voiceCommands : e.voiceCommands = e'.voiceCommands
  icon : e.icon.map Artwork.name = e'.icon.map Artwork.name
  secondaryIcon : e.secondaryIcon.map Artwork.name = e'.secondaryIcon.map Artwork.name
  layout : e.layout = e'.layout

theorem Entry.alike_of_fingerprint_eq {e e' : Entry} (he : e.Short) (he' : e'.Short)
    (h : e.fingerprint = e'.fingerprint) : e.Alike e' := by
  obtain ⟨title, second, third, phrases, icon, other, layout⟩ :=
    Coverage.mk.inj (coverage_eq_of_fingerprint_eq he.strings he'.strings h)
  have name (a : Option Artwork) : (a.map Artwork.look).map Prod.fst = a.map Artwork.name := Option.map_map ..
  refine ⟨title, second, third, phrases, ?_, ?_, layout⟩
  · rw [← name, ← name, icon]
  · rw [← name, ← name, other]

/-- What is compared when siblings are matched covers all that the host is told. -/
theorem Face.alike_of_print_eq {f g : Face} (hf : f.entry.Short) (hg : g.entry.Short)
    (h : f.print = g.print) : f.entry.Alike g.entry ∧ f.isSubmenu = g.isSubmenu :=
  ⟨Entry.alike_of_fingerprint_eq hf hg (List.append_inj' h rfl).1, isSubmenu_eq_of_print_eq h⟩

end RemoteMenu
