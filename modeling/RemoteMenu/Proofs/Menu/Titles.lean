import RemoteMenu.Menu.Tree
import RemoteMenu.Proofs.Update.Pairings

/-!
# Titles and labels

Numbers set siblings of one title apart: the first one is shown under its title, and a later one under its title and
the number of its turn (`getElem?_labels`). The labels of a level differ from each other just if no title of an
application is a label that the numbers make (`labels_nodup_iff`).
-/

namespace RemoteMenu

/-! ### Titles with a number -/

def numbered (title : String) (number : UInt32) : String := s!"{title} ({number.toNat})"

theorem toList_numbered (title : String) (number : UInt32) :
    (numbered title number).toList = (title.toList ++ [' ']) ++ '(' :: (Nat.toDigits 10 number.toNat ++ [')']) := by
  simp [numbered, toString, Nat.toList_repr]

/-- A list ends in one way only in a mark and what has no such mark. -/
theorem append_mark_inj {α : Type} {mark : α} {front front' back back' : List α} (clear : mark ∉ back)
    (clear' : mark ∉ back') (h : front ++ mark :: back = front' ++ mark :: back') :
    front = front' ∧ back = back' := by
  rcases List.append_eq_append_iff.mp h with ⟨between, rfl, rest⟩ | ⟨between, rfl, rest⟩
  · cases between with
    | nil => exact ⟨by simp, (List.cons.inj rest).2⟩
    | cons x between =>
      rw [List.cons_append, List.cons.injEq] at rest
      exact absurd (by simp [rest.2]) clear
  · cases between with
    | nil => exact ⟨by simp, (List.cons.inj rest).2.symm⟩
    | cons x between =>
      rw [List.cons_append, List.cons.injEq] at rest
      exact absurd (by simp [rest.2]) clear'

theorem numbered_inj {a b : String} {j k : UInt32} (h : numbered a j = numbered b k) : a = b ∧ j = k := by
  have digits (n : UInt32) : '(' ∉ Nat.toDigits 10 n.toNat ++ [')'] := by
    intro member
    rcases List.mem_append.mp member with digit | last
    · exact absurd (Nat.isDigit_of_mem_toDigits (by decide) (by decide) digit) (by decide)
    · simp at last
  have lists := congrArg String.toList h
  rw [toList_numbered, toList_numbered] at lists
  obtain ⟨fronts, backs⟩ := append_mark_inj (digits j) (digits k) lists
  have numbers := congrArg (fun digits => Nat.ofDigitChars 10 digits 0) (List.append_cancel_right backs)
  have same : j.toNat = k.toNat := by simpa using numbers
  exact ⟨String.toList_injective (List.append_cancel_right fronts), UInt32.toNat_inj.mp same⟩

theorem numbered_ne (title : String) (number : UInt32) : numbered title number ≠ title := by
  intro h
  have lengths := congrArg (List.length ∘ String.toList) h
  simp [toList_numbered] at lengths

/-! ### Labels -/

/-- The label of the entry that has a title and so many siblings of the title in front of it. -/
def label (title : String) (rank : Nat) : String :=
  if UInt32.ofNat (rank + 1) = 1 then title else numbered title (.ofNat (rank + 1))

theorem label_zero (title : String) : label title 0 = title := rfl

theorem label_of_ne {title : String} {rank : Nat} (late : UInt32.ofNat (rank + 1) ≠ 1) :
    label title rank = numbered title (.ofNat (rank + 1)) := if_neg late

namespace Menu

def titles (level : Menu) : List String := level.map (·.entry.title)

def labels (level : Menu) : List String := level.map Node.displayTitle

theorem titles_disambiguateAfter (earlier : List String) (level : Menu) :
    (disambiguateAfter earlier level).titles = level.titles := by
  induction level generalizing earlier with
  | nil => rw [disambiguateAfter]
  | cons n ns ih =>
    have own : n.disambiguate.entry = n.entry := by cases n; rw [Node.disambiguate]
    have rest := ih (n.entry.title :: earlier)
    unfold titles at rest ⊢
    rw [disambiguateAfter, List.map_cons, List.map_cons, rest, own]

theorem getElem?_labels (earlier : List String) (level : Menu) (i : Nat) :
    (disambiguateAfter earlier level).labels[i]? =
      level.titles[i]?.map fun title => label title (earlier.count title + (level.titles.take i).count title) := by
  induction level generalizing earlier i with
  | nil => simp [disambiguateAfter, labels, titles]
  | cons n ns ih =>
    have own : n.disambiguate.entry = n.entry := by cases n; rw [Node.disambiguate]
    cases i with
    | zero => simp [disambiguateAfter, labels, titles, label, numbered, Node.displayTitle, own]
    | succ i =>
      have rest := ih (n.entry.title :: earlier) i
      simp only [labels, titles] at rest ⊢
      rw [disambiguateAfter, List.map_cons, List.map_cons, List.getElem?_cons_succ, List.getElem?_cons_succ, rest,
        List.take_succ_cons]
      apply Option.map_congr
      intro title _
      simp only [List.count_cons]
      congr 1
      omega

theorem getElem?_labels_eq_some {level : Menu} {i : Nat} {text : String} :
    level.disambiguate.labels[i]? = some text ↔
      ∃ title rank, Occurs level.titles title rank i ∧ label title rank = text := by
  rw [disambiguate, getElem?_labels, Option.map_eq_some_iff]
  simp only [List.count_nil, Nat.zero_add]
  constructor
  · rintro ⟨title, here, shown⟩
    exact ⟨title, _, occurs_take here, shown⟩
  · rintro ⟨title, rank, ⟨here, rfl⟩, shown⟩
    exact ⟨title, here, shown⟩

end Menu

/-! ### Levels whose labels differ -/

/-- What the titles of a level have to be for labels that differ: none of them is the label of a later entry with some
title, and there are not so many of a title that the numbers start again. -/
structure SetApart (titles : List String) : Prop where
  few : ∀ title, titles.count title ≤ 2 ^ 32
  free : ∀ title turn, 2 ≤ turn → turn ≤ titles.count title → numbered title (.ofNat turn) ∉ titles

theorem Occurs.rank_lt {κ : Type} [DecidableEq κ] {keys : List κ} {key : κ} {rank rank' i j : Nat}
    (h : Occurs keys key rank i) (h' : Occurs keys key rank' j) (before : i < j) : rank < rank' := by
  obtain ⟨here, rfl⟩ := h
  obtain ⟨-, rfl⟩ := h'
  have upto : (keys.take (i + 1)).count key = (keys.take i).count key + 1 := by
    rw [List.take_add_one, here, List.count_append]
    simp
  have later := (List.take_prefix_take_left before : keys.take (i + 1) <+: keys.take j).sublist.count_le key
  omega

theorem Occurs.index_eq {κ : Type} [DecidableEq κ] {keys : List κ} {key : κ} {rank i j : Nat}
    (h : Occurs keys key rank i) (h' : Occurs keys key rank j) : i = j := by
  rcases Nat.lt_trichotomy i j with before | same | after
  · exact absurd (h.rank_lt h' before) (Nat.lt_irrefl _)
  · exact same
  · exact absurd (h'.rank_lt h after) (Nat.lt_irrefl _)

theorem turn_eq {j k : Nat} (hj : j < 2 ^ 32) (hk : k < 2 ^ 32)
    (h : UInt32.ofNat (j + 1) = UInt32.ofNat (k + 1)) : j = k := by
  have same := congrArg UInt32.toNat h
  simp only [UInt32.toNat_ofNat'] at same
  omega

theorem Menu.labels_nodup_iff_occurs (level : Menu) :
    level.disambiguate.labels.Nodup ↔
      ∀ title rank i title' rank' j, Occurs level.titles title rank i → Occurs level.titles title' rank' j →
        label title rank = label title' rank' → i = j := by
  rw [List.nodup_iff_getElem?_ne_getElem?]
  constructor
  · intro differ title rank i title' rank' j here there same
    have shown := getElem?_labels_eq_some.mpr ⟨title, rank, here, rfl⟩
    have shown' := getElem?_labels_eq_some.mpr ⟨title', rank', there, same.symm⟩
    rcases Nat.lt_trichotomy i j with before | equal | after
    · exact absurd (shown.trans shown'.symm) (differ i j before (List.getElem?_eq_some_iff.mp shown').1)
    · exact equal
    · exact absurd (shown'.trans shown.symm) (differ j i after (List.getElem?_eq_some_iff.mp shown).1)
  · intro inj i j before inside same
    obtain ⟨title', rank', there, shown'⟩ := getElem?_labels_eq_some.mp (List.getElem?_eq_getElem inside)
    obtain ⟨title, rank, here, shown⟩ := getElem?_labels_eq_some.mp (same.trans (List.getElem?_eq_getElem inside))
    exact absurd (inj _ _ i _ _ j here there (shown.trans shown'.symm)) (Nat.ne_of_lt before)

theorem Menu.labels_nodup_iff (level : Menu) : level.disambiguate.labels.Nodup ↔ SetApart level.titles := by
  rw [labels_nodup_iff_occurs]
  constructor
  · intro inj
    have few (title : String) : level.titles.count title ≤ 2 ^ 32 := by
      by_contra many
      obtain ⟨i, first⟩ := exists_occurs_iff.mpr (show 0 < level.titles.count title by omega)
      obtain ⟨j, again⟩ := exists_occurs_iff.mpr (show 2 ^ 32 < level.titles.count title by omega)
      obtain rfl := inj _ _ i _ _ j first again rfl
      exact absurd (first.2.symm.trans again.2) (by decide)
    refine ⟨few, ?_⟩
    intro title turn second within member
    -- the entry that the application titled like this is shown so, and the entry of that turn is, too
    obtain ⟨i, own⟩ := exists_occurs_iff.mpr (List.count_pos_iff.mpr member)
    obtain ⟨j, late⟩ := exists_occurs_iff.mpr (show turn - 1 < level.titles.count title by omega)
    have most := few title
    have numbers : UInt32.ofNat (turn - 1 + 1) ≠ 1 := by
      intro one
      have := @turn_eq (turn - 1) 0 (by omega) (by decide) one
      omega
    have same : label (numbered title (.ofNat turn)) 0 = label title (turn - 1) := by
      rw [label_zero, label_of_ne numbers, Nat.sub_add_cancel (by omega)]
    obtain rfl := inj _ _ i _ _ j own late same
    exact numbered_ne title _ (Option.some.inj (own.1.symm.trans late.1))
  · intro apart title rank i title' rank' j here there same
    have low : rank < 2 ^ 32 := Nat.lt_of_lt_of_le here.lt (apart.few title)
    have low' : rank' < 2 ^ 32 := Nat.lt_of_lt_of_le there.lt (apart.few title')
    -- a label with a number is no title of the level
    have chosen {title title' : String} {rank i rank' j : Nat} (here : Occurs level.titles title rank i)
        (there : Occurs level.titles title' rank' j) (late : UInt32.ofNat (rank' + 1) ≠ 1) :
        title ≠ numbered title' (.ofNat (rank' + 1)) := by
      rintro rfl
      have second : rank' ≠ 0 := by rintro rfl; exact late rfl
      exact apart.free title' (rank' + 1) (by omega) there.lt (List.mem_of_getElem? here.1)
    unfold label at same
    split at same
    · next first =>
      split at same
      · next first' =>
        subst same
        obtain rfl := turn_eq low low' (first.trans first'.symm)
        exact here.index_eq there
      · next late' => exact absurd same (chosen here there late')
    · next late =>
      split at same
      · exact absurd same.symm (chosen there here late)
      · obtain ⟨rfl, numbers⟩ := numbered_inj same
        obtain rfl := turn_eq low low' numbers
        exact here.index_eq there

/-! ### Every level of a menu -/

def Menu.levels (menu : Menu) : List Menu := menu :: menu.walk.map Node.children

mutual

theorem Node.levels_disambiguate : (n : Node) →
    n.disambiguate.walk.map Node.children = n.walk.map fun m => Menu.disambiguate m.children
  | ⟨entry, children, emptySubmenu, disambiguator, remoteId⟩ => by
    rw [Node.disambiguate, Node.walk_eq, Node.walk_eq, List.map_cons, List.map_cons,
      Menu.levels_disambiguateAfter [] children]
    rfl

theorem Menu.levels_disambiguateAfter (earlier : List String) : (menu : Menu) →
    (Menu.disambiguateAfter earlier menu).walk.map Node.children = menu.walk.map fun m => Menu.disambiguate m.children
  | [] => by rw [Menu.disambiguateAfter, Menu.walk, List.map_nil, List.map_nil]
  | n :: ns => by
    have own := Node.levels_disambiguate n
    rw [Node.walk_eq] at own
    rw [Menu.disambiguateAfter, Menu.walk, Menu.walk, List.map_append, List.map_append,
      Menu.levels_disambiguateAfter (n.entry.title :: earlier) ns, ← own, Node.walk_eq]
    rfl

end

theorem Menu.levels_disambiguate (menu : Menu) : menu.disambiguate.levels = menu.levels.map Menu.disambiguate := by
  unfold levels
  rw [List.map_cons, List.map_map, disambiguate, levels_disambiguateAfter]
  rfl

/-- Numbers keep the titles of every level as they are, and the labels of a level differ from each other just if its
titles let them. -/
theorem Menu.labels_disambiguate (menu : Menu) :
    List.Forall₂ (fun level shown => shown.titles = level.titles ∧ (shown.labels.Nodup ↔ SetApart level.titles))
      menu.levels menu.disambiguate.levels := by
  rw [levels_disambiguate, List.forall₂_map_right_iff, List.forall₂_same]
  intro level _
  exact ⟨level.titles_disambiguateAfter [], level.labels_nodup_iff⟩

/-- The second of two siblings with a title is shown like a sibling that has this label for its title. -/
theorem Menu.labels_collide :
    ¬ (Menu.disambiguate [⟨{ title := "A" }, [], false, 1, .unset⟩, ⟨{ title := "A" }, [], false, 1, .unset⟩,
        ⟨{ title := "A (2)" }, [], false, 1, .unset⟩]).labels.Nodup := by
  decide +kernel

end RemoteMenu
