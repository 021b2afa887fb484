import RemoteMenu.Proofs.Menu.Bare
import RemoteMenu.Proofs.Update.Mirroring

/-!
# What an update comes to

The menu that an update leaves, as a recursion over the new menu: what each level comes to is put
together from what its batches and the levels below it come to (`accountWith`), and nothing is looked
up or replaced in a menu. What the host accepts is given by the number of the batch (`Verdict`).

What is kept or added renders its node of the new menu (`Menu.account_faithful`), and where every batch
is accepted, nothing else is there and nothing is missing.
-/

namespace RemoteMenu

structure Reached where
  menu : Menu := []
  /-- The new nodes that are there, at any depth, each beside what it has become. -/
  pairs : List (Node × Node) := []

namespace Reached

instance : Append Reached := ⟨fun a b => ⟨a.menu ++ b.menu, a.pairs ++ b.pairs⟩⟩

@[simp] theorem menu_append (a b : Reached) : (a ++ b).menu = a.menu ++ b.menu := rfl

@[simp] theorem pairs_append (a b : Reached) : (a ++ b).pairs = a.pairs ++ b.pairs := rfl

end Reached

/-! ### Batches -/

/-- Whether the host accepts the batch with a number, counted from 0. -/
abbrev Verdict := Nat → Bool

/-- Where an update stands: the supply that it draws ids from, and the batches that it has sent with
what the host made of them. -/
structure Standing where
  ids : IdSupply
  log : List (List Command × Bool) := []

namespace Standing

def send (verdict : Verdict) (s : Standing) (batch : List Command) : Bool × Standing :=
  (verdict s.log.length, { s with log := s.log ++ [(batch, verdict s.log.length)] })

def delete (verdict : Verdict) (s : Standing) (nodes : List Node) : Bool × Standing :=
  if nodes = [] then (true, s) else s.send verdict (Command.deletes nodes)

/-- Which additions were accepted; what is below the added nodes is sent only after they were. -/
def add (verdict : Verdict) (s : Standing) (layout : Layout) (parent : Option RemoteId) (level : Menu)
    (added : List Nat) : AddOutcome × Standing :=
  if added = [] then (⟨true, true⟩, s)
  else
    let (created, s) := s.send verdict (Command.adds layout parent level added)
    let below := Command.nestedAdds layout level added
    if created = false then (⟨false, false⟩, s)
    else if below = [] then (⟨true, true⟩, s)
    else
      let (nested, s) := s.send verdict below
      (⟨true, nested⟩, s)

end Standing

/-! ### Levels -/

/-- What becomes of an old level, by the entry above it and by where the update stands. -/
abbrev Account := Menu → Option RemoteId → Standing → Reached × Standing

/-- What a seat comes to, where `below` is what the children of a kept node come to. -/
def Seat.reached (adds : AddOutcome) (below : Reached) (n : Node) (s : Seat) : Reached :=
  match s.partner with
  | some old =>
    let node := (s.node.setChildren old.children).setChildren below.menu
    { menu := [node], pairs := (n, node) :: below.pairs }
  | none =>
    if adds.created then
      if adds.nested then { menu := [s.node], pairs := n.walk.zip s.node.walk }
      else { menu := [s.node.setChildren []], pairs := [(n, s.node.setChildren [])] }
    else {}

/-- What the seats of a level come to, one after another, where the first one has an index. -/
def gather (adds : AddOutcome) (below : Nat → Reached) : Nat → Menu → List Seat → Reached
  | j, n :: ns, s :: seats => s.reached adds (below j) n ++ gather adds below (j + 1) ns seats
  | _, _, _ => {}

/-- What the children of the kept nodes come to, by the index of the new node. They are gone into one
after another. -/
def enter (accounts : List Account) (old level : Menu) : List (Nat × Nat) → Standing →
    (Nat → Reached) × Standing
  | [], s => (fun _ => {}, s)
  | (i, j) :: pairs, s =>
    match old[i]?, level[j]?, accounts[j]? with
    | some o, some n, some account =>
      let (reached, s) := account o.children (some n.remoteId) s
      let (below, s) := enter accounts old level pairs s
      (Function.update below j reached, s)
    | _, _, _ => enter accounts old level pairs s

/-- What a level comes to, where `accounts` say it for the levels below the new nodes: first what is
kept or added, as the new menu has it, and behind it what should have gone but could not be deleted. -/
def accountWith (layout : Layout) (verdict : Verdict) (accounts : List Account) (new : Menu) : Account :=
  fun old parent s =>
    match Matching.ofMenus old new with
    | none => ({}, s)
    | some m =>
      let (seats, ids) := Menu.seats s.ids (m.partners old) new
      let gone := m.removed.filterMap (old[·]?)
      let level := seats.map Seat.node
      let (deleted, s) := { s with ids }.delete verdict gone
      let (adds, s) := s.add verdict layout parent level m.added
      let (below, s) := enter accounts old level m.pairs s
      (gather adds below 0 new seats ++ { menu := if deleted then [] else gone }, s)

mutual

def Node.account (layout : Layout) (verdict : Verdict) : Node → Account
  | ⟨_, children, _, _, _⟩ => accountWith layout verdict (Menu.accounts layout verdict children) children

def Menu.accounts (layout : Layout) (verdict : Verdict) : Menu → List Account
  | [] => []
  | n :: ns => n.account layout verdict :: Menu.accounts layout verdict ns

end

def Menu.account (layout : Layout) (verdict : Verdict) (new : Menu) : Account :=
  accountWith layout verdict (Menu.accounts layout verdict new) new

section
variable {layout : Layout} {verdict : Verdict} {P : Menu → Account → Prop}

mutual

theorem Node.account_induction (level : ∀ (new : Menu) (accounts : List Account), (∀ (j : Nat) (n : Node),
    new[j]? = some n → ∃ account, accounts[j]? = some account ∧ P n.children account) →
      P new (accountWith layout verdict accounts new)) :
    (n : Node) → P n.children (n.account layout verdict)
  | ⟨_, children, _, _, _⟩ => by
    rw [Node.account]
    exact level _ _ (Menu.accounts_induction level children)

theorem Menu.accounts_induction (level : ∀ (new : Menu) (accounts : List Account), (∀ (j : Nat) (n : Node),
    new[j]? = some n → ∃ account, accounts[j]? = some account ∧ P n.children account) →
      P new (accountWith layout verdict accounts new)) :
    (menu : Menu) → ∀ (j : Nat) (n : Node), menu[j]? = some n →
      ∃ account, (Menu.accounts layout verdict menu)[j]? = some account ∧ P n.children account
  | [], j, n, h => by simp at h
  | n :: ns, 0, n', h => by
    rw [Menu.accounts]
    obtain rfl : n = n' := by simpa using h
    exact ⟨_, rfl, Node.account_induction level n⟩
  | n :: ns, j + 1, n', h => by
    rw [Menu.accounts]
    exact Menu.accounts_induction level ns j n' h

end

/-- What holds of a level if it does of those below its new nodes holds of every menu. -/
theorem Menu.account_induction (level : ∀ (new : Menu) (accounts : List Account), (∀ (j : Nat) (n : Node),
    new[j]? = some n → ∃ account, accounts[j]? = some account ∧ P n.children account) →
      P new (accountWith layout verdict accounts new)) (new : Menu) : P new (new.account layout verdict) :=
  level _ _ (Menu.accounts_induction level new)

end

/-! ### What the host made of the batches -/

namespace Standing

variable (verdict : Verdict) (s : Standing)

theorem send_spec (batch : List Command) :
    ∃ more, (s.send verdict batch).2.log = s.log ++ more ∧
      (s.send verdict batch).1 = more.all (·.2) := by
  refine ⟨[(batch, verdict s.log.length)], rfl, ?_⟩
  rw [List.all_cons, List.all_nil, Bool.and_true]
  rfl

theorem delete_spec (nodes : List Node) :
    ∃ more, (s.delete verdict nodes).2.log = s.log ++ more ∧
      (s.delete verdict nodes).1 = more.all (·.2) := by
  unfold delete
  split
  · exact ⟨[], by simp, rfl⟩
  · exact s.send_spec verdict _

theorem add_spec (layout : Layout) (parent : Option RemoteId) (level : Menu) (added : List Nat) :
    ∃ more, (s.add verdict layout parent level added).2.log = s.log ++ more ∧
      (s.add verdict layout parent level added).1.succeeded = more.all (·.2) := by
  unfold add
  split
  · exact ⟨[], by simp, rfl⟩
  · obtain ⟨main, log, created⟩ := s.send_spec verdict (Command.adds layout parent level added)
    dsimp only
    split
    · next rejected =>
      refine ⟨main, log, ?_⟩
      rw [← created, rejected]
      rfl
    · next accepted =>
      have accepted := eq_true_of_ne_false accepted
      rw [accepted] at created
      split
      · exact ⟨main, log, created⟩
      · obtain ⟨nested, log', answer⟩ :=
          (s.send verdict (Command.adds layout parent level added)).2.send_spec verdict
            (Command.nestedAdds layout level added)
        refine ⟨main ++ nested, ?_, ?_⟩
        · rw [log', log, List.append_assoc]
        · rw [List.all_append, ← created, ← answer]
          rfl

end Standing

/-! ### Rendering -/

/-- Whether what is there of a new menu renders it, in its order. -/
structure Reached.Renders (r : Reached) (new : Menu) : Prop where
  targets : (r.pairs.map Prod.fst).Sublist new.walk
  nodes : (r.pairs.map Prod.snd).Sublist r.menu.walk
  renders : ∀ p ∈ r.pairs, p.2.Renders p.1

/-- Whether a seat is one for a node. A partner is of the kind of its node. -/
def Seat.For (s : Seat) (n : Node) : Prop :=
  match s.partner with
  | some old => s.node = { n with remoteId := old.remoteId } ∧ old.isSubmenu = n.isSubmenu
  | none => s.node.bare = n.bare

namespace Reached.Renders

theorem nothing (new : Menu) : ({} : Reached).Renders new := by
  constructor <;> simp

theorem append {a b : Reached} {xs ys : Menu} (ha : a.Renders xs) (hb : b.Renders ys) :
    (a ++ b).Renders (xs ++ ys) := by
  refine ⟨?_, ?_, ?_⟩
  · rw [pairs_append, List.map_append, Menu.walk_append]
    exact ha.targets.append hb.targets
  · rw [pairs_append, List.map_append, menu_append, Menu.walk_append]
    exact ha.nodes.append hb.nodes
  · intro p hp
    rcases List.mem_append.mp hp with first | second
    · exact ha.renders p first
    · exact hb.renders p second

theorem behind {a : Reached} {new : Menu} (h : a.Renders new) (left : Menu) :
    (a ++ { menu := left }).Renders new := by
  have nothing : Reached.Renders { menu := left } [] := by constructor <;> simp
  have both := h.append nothing
  rwa [List.append_nil] at both

end Reached.Renders

theorem Seat.reached_renders {s : Seat} {n : Node} (for_ : s.For n) (adds : AddOutcome) {below : Reached}
    (inner : below.Renders n.children) (kind : below.menu ≠ [] → n.isSubmenu = true) :
    (s.reached adds below n).Renders [n] := by
  obtain ⟨partner, node⟩ := s
  cases partner with
  | some old =>
    obtain ⟨rfl, same⟩ := for_
    have submenu : ((({ n with remoteId := old.remoteId } : Node).setChildren old.children).setChildren
        below.menu).isSubmenu = n.isSubmenu := by
      rw [Node.isSubmenu_setChildren_eq, Node.isSubmenu_setChildren_eq]
      change (n.isSubmenu || !old.children.isEmpty || !below.menu.isEmpty) = n.isSubmenu
      rw [← same, Node.isSubmenu] at kind ⊢
      revert kind
      cases old.emptySubmenu <;> cases old.children.isEmpty <;> cases below.menu <;> simp
    refine ⟨?_, ?_, ?_⟩
    · rw [Menu.walk_singleton, Node.walk_eq]
      exact inner.targets.cons_cons n
    · simp only [reached]
      rw [Menu.walk_singleton, Node.walk_eq]
      exact inner.nodes.cons_cons _
    · intro p hp
      rcases List.mem_cons.mp hp with rfl | under
      · exact ⟨rfl, rfl, submenu⟩
      · exact inner.renders p under
  | none =>
    have same : node.bare = n.bare := for_
    obtain ⟨length, pairwise⟩ := Node.zip_walk same
    have own := Node.renders_of_bare_eq same
    unfold reached
    dsimp only
    split
    · split
      · refine ⟨?_, ?_, pairwise⟩
        · rw [List.map_fst_zip (Nat.le_of_eq length.symm), Menu.walk_singleton]
        · rw [List.map_snd_zip (Nat.le_of_eq length), Menu.walk_singleton]
      · refine ⟨?_, ?_, ?_⟩
        · rw [Menu.walk_singleton, Node.walk_eq]
          exact (List.nil_sublist _).cons_cons n
        · rw [Menu.walk_singleton, Node.walk_eq]
          exact (List.nil_sublist _).cons_cons _
        · intro p hp
          obtain rfl := List.mem_singleton.mp hp
          refine ⟨own.entry, own.disambiguator, ?_⟩
          rw [Node.isSubmenu_setChildren _ _ (.inr rfl), own.isSubmenu]
    · exact .nothing _

theorem renders_gather {adds : AddOutcome} {below : Nat → Reached} {new : Menu} {seats : List Seat}
    (for_ : List.Forall₂ Seat.For seats new) (j : Nat)
    (inner : ∀ k n, new[k]? = some n →
      (below (j + k)).Renders n.children ∧ ((below (j + k)).menu ≠ [] → n.isSubmenu = true)) :
    (gather adds below j new seats).Renders new := by
  induction for_ generalizing j with
  | nil => exact .nothing _
  | @cons s n seats ns own _ ih =>
    obtain ⟨here, kind⟩ := inner 0 n rfl
    refine (s.reached_renders own adds here kind).append (ih (j + 1) fun k n' hn' => ?_)
    have there := inner (k + 1) n' (by simpa using hn')
    rwa [← Nat.add_assoc, Nat.add_right_comm] at there

/-- If all additions were accepted, nothing of the new menu is missing. -/
theorem Seat.bare_reached {s : Seat} {n : Node} (for_ : s.For n) {below : Reached}
    (inner : s.partner.isSome = true → below.menu.bare = Menu.bare n.children) :
    (s.reached ⟨true, true⟩ below n).menu.bare = Menu.bare [n] := by
  obtain ⟨partner, node⟩ := s
  cases partner with
  | none =>
    have same : node.bare = n.bare := for_
    change Menu.bare [node] = _
    rw [Menu.bare_cons, Menu.bare_cons, same]
  | some old =>
    obtain ⟨rfl, kind⟩ := for_
    have here := inner rfl
    change Menu.bare [(Node.setChildren _ _).setChildren _] = _
    have own := Node.bare_setChildren (n := { n with remoteId := old.remoteId }) here
    rw [Menu.bare_cons, Menu.bare_cons, Node.setChildren_setChildren, own]
    · rw [Node.bare_eq, Node.bare_eq n]
    · change n.isSubmenu = true ∨ old.children = []
      rw [← kind, Node.isSubmenu]
      cases old.children <;> simp

theorem bare_gather {below : Nat → Reached} {new : Menu} {seats : List Seat}
    (for_ : List.Forall₂ Seat.For seats new) (j : Nat)
    (inner : ∀ k n s, new[k]? = some n → seats[k]? = some s → s.partner.isSome = true →
      (below (j + k)).menu.bare = Menu.bare n.children) :
    (gather ⟨true, true⟩ below j new seats).menu.bare = new.bare := by
  induction for_ generalizing j with
  | nil => rfl
  | @cons s n seats ns own _ ih =>
    have rest := ih (j + 1) fun k n' s' hn' hs' kept => by
      have there := inner (k + 1) n' s' (by simpa using hn') (by simpa using hs') kept
      rwa [← Nat.add_assoc, Nat.add_right_comm] at there
    have first := Seat.bare_reached own (inner 0 n s rfl rfl)
    rw [Nat.add_zero] at first
    rw [gather, Reached.menu_append, Menu.bare_append, first, rest, ← Menu.bare_append]
    rfl

/-! ### Whole levels -/

/-- What holds of whatever a level comes to. -/
structure Faithful (old new : Menu) (s : Standing) (r : Reached × Standing) : Prop where
  renders : r.1.Renders new
  nothing : old = [] → new = [] → r.1.menu = []
  /-- If all of its batches were accepted, the level is the new one. -/
  log : ∃ more, r.2.log = s.log ++ more ∧ (more.all (·.2) = true → r.1.menu.bare = new.bare)

def Account.Faithful (faces : Set Face) (new : Menu) (account : Account) : Prop :=
  ∀ old parent s, (∀ n ∈ old.walk, n.face ∈ faces) →
    RemoteMenu.Faithful old new s (account old parent s)

/-- Whether a pair is one of alike nodes, with a faithful account of what is below them. -/
def Enters (faces : Set Face) (accounts : List Account) (old level new : Menu) (p : Nat × Nat) : Prop :=
  ∃ o k n account, old[p.1]? = some o ∧ level[p.2]? = some k ∧ new[p.2]? = some n ∧
    accounts[p.2]? = some account ∧ account.Faithful faces n.children ∧ o.isSubmenu = n.isSubmenu ∧
    ∀ n ∈ Menu.walk o.children, n.face ∈ faces

theorem enter_faithful {faces : Set Face} {accounts : List Account} {old level new : Menu}
    {pairs : List (Nat × Nat)} (enters : ∀ p ∈ pairs, Enters faces accounts old level new p)
    (s : Standing) :
    (∀ j n, new[j]? = some n → ((enter accounts old level pairs s).1 j).Renders n.children ∧
      (((enter accounts old level pairs s).1 j).menu ≠ [] → n.isSubmenu = true)) ∧
    ∃ more, (enter accounts old level pairs s).2.log = s.log ++ more ∧
      (more.all (·.2) = true → ∀ j ∈ pairs.map Prod.snd, ∀ n, new[j]? = some n →
        ((enter accounts old level pairs s).1 j).menu.bare = Menu.bare n.children) := by
  induction pairs generalizing s with
  | nil => exact ⟨fun j n _ => ⟨.nothing _, by simp [enter]⟩, [], by simp [enter], by simp⟩
  | cons p pairs ih =>
    obtain ⟨i, j⟩ := p
    obtain ⟨o, k, n, account, ho, hk, hn, there, faithful, same, known⟩ := enters (i, j) (List.mem_cons_self ..)
    have first := faithful o.children (some k.remoteId) s known
    obtain ⟨renders, more', log', all'⟩ :=
      ih (fun p hp => enters p (List.mem_cons_of_mem _ hp)) (account o.children (some k.remoteId) s).2
    obtain ⟨more, log, all⟩ := first.log
    simp only [enter, ho, hk, there]
    refine ⟨fun j' n' hn' => ?_, more ++ more', ?_, ?_⟩
    · by_cases here : j' = j
      · subst here
        obtain rfl := Option.some.inj (hn.symm.trans hn')
        rw [Function.update_self]
        refine ⟨first.renders, fun some => ?_⟩
        by_contra command
        have command := eq_false_of_ne_true command
        have noOld := Node.children_eq_nil (same.trans command)
        exact some (first.nothing noOld (Node.children_eq_nil command))
      · rw [Function.update_of_ne here]
        exact renders j' n' hn'
    · rw [log', log, List.append_assoc]
    · intro accepted j' hj' n' hn'
      rw [List.all_append, Bool.and_eq_true] at accepted
      by_cases here : j' = j
      · subst here
        obtain rfl := Option.some.inj (hn.symm.trans hn')
        rw [Function.update_self]
        exact all accepted.1
      · rw [Function.update_of_ne here]
        refine all' accepted.2 j' ?_ n' hn'
        exact (List.mem_cons.mp hj').resolve_left here

/-- What the children of a kept node come to is what their account says, wherever the update stands by then. -/
theorem enter_of_mem {accounts : List Account} {old level : Menu} {pairs : List (Nat × Nat)}
    (once : (pairs.map Prod.snd).Nodup) {i j : Nat} (pair : (i, j) ∈ pairs) {o k : Node} {account : Account}
    (ho : old[i]? = some o) (hk : level[j]? = some k) (there : accounts[j]? = some account) (s : Standing) :
    ∃ s', (enter accounts old level pairs s).1 j = (account o.children (some k.remoteId) s').1 := by
  induction pairs generalizing s with
  | nil => cases pair
  | cons p pairs ih =>
    obtain ⟨i', j'⟩ := p
    obtain ⟨newcomer, once⟩ := List.nodup_cons.mp once
    rcases List.mem_cons.mp pair with same | later
    · obtain ⟨rfl, rfl⟩ := Prod.mk.inj same
      simp only [enter, ho, hk, there, Function.update_self]
      exact ⟨s, rfl⟩
    · have other : j ≠ j' := fun same => newcomer (List.mem_map.mpr ⟨_, later, same⟩)
      rw [enter]
      split
      · dsimp only
        rw [Function.update_of_ne other]
        exact ih once later _
      · exact ih once later s

section
variable {faces : Set Face} {old new : Menu} {m : Matching}

theorem Collisionless.isSubmenu_eq (distinguished : Collisionless faces) {o n : Node} (ho : o.face ∈ faces)
    (hn : n.face ∈ faces) (same : o.contentKey = n.contentKey) : o.isSubmenu = n.isSubmenu :=
  Face.isSubmenu_eq_of_print_eq (distinguished _ ho _ hn (congrArg ContentKey.bytes same))

theorem Menu.face_mem (known : ∀ n ∈ new.walk, n.face ∈ faces) {n : Node} (hn : n ∈ new) :
    n.face ∈ faces ∧ ∀ k ∈ Menu.walk n.children, k.face ∈ faces := by
  have under {k : Node} (hk : k ∈ n.walk) : k.face ∈ faces := known k (mem_walk_of_mem hn hk)
  rw [Node.walk_eq] at under
  exact ⟨under (List.mem_cons_self ..), fun k hk => under (List.mem_cons_of_mem _ hk)⟩

theorem Matching.Fits.seats_for (fits : m.Fits (old.map Node.contentKey) (new.map Node.contentKey))
    (distinguished : Collisionless faces) (knownOld : ∀ n ∈ old.walk, n.face ∈ faces)
    (knownNew : ∀ n ∈ new.walk, n.face ∈ faces) (ids : IdSupply) :
    List.Forall₂ Seat.For (m.seats ids old new) new := by
  refine List.forall₂_iff_get.mpr ⟨fits.length_seats ids, fun j hj hj' => ?_⟩
  rw [List.get_eq_getElem, List.get_eq_getElem]
  have hn := List.getElem?_eq_getElem hj'
  have hs := List.getElem?_eq_getElem hj
  rcases fits.seat_at ids hn with ⟨i, o, -, ho, same, seat⟩ | ⟨-, k, seat⟩
  · rw [Option.some.inj (hs.symm.trans seat)]
    refine ⟨rfl, distinguished.isSubmenu_eq ?_ ?_ same⟩
    · exact (Menu.face_mem knownOld (List.mem_of_getElem? ho)).1
    · exact (Menu.face_mem knownNew (List.mem_of_getElem? hn)).1
  · rw [Option.some.inj (hs.symm.trans seat)]
    exact Node.bare_withFreshIds _ _

theorem accountWith_eq {layout : Layout} {verdict : Verdict} {accounts : List Account}
    (found : Matching.ofMenus old new = some m) (parent : Option RemoteId) (s : Standing) :
    accountWith layout verdict accounts new old parent s =
      let plan := m.plan s.ids old new
      let deletes := Standing.delete verdict ⟨(Menu.seats s.ids (m.partners old) new).2, s.log⟩ plan.removed
      let adds := deletes.2.add verdict layout parent plan.new plan.added
      let below := enter accounts old plan.new m.pairs adds.2
      (gather adds.1 below.1 0 new (m.seats s.ids old new) ++
        { menu := if deletes.1 then [] else plan.removed }, below.2) := by
  rw [accountWith, found]
  rfl

theorem accountWith_faithful {layout : Layout} {verdict : Verdict} {accounts : List Account}
    (distinguished : Collisionless faces) (known : ∀ n ∈ new.walk, n.face ∈ faces)
    (below : ∀ (j : Nat) (n : Node), new[j]? = some n →
      ∃ account, accounts[j]? = some account ∧ account.Faithful faces n.children) :
    (accountWith layout verdict accounts new).Faithful faces new := by
  intro old parent s knownOld
  cases found : Matching.ofMenus old new with
  | none =>
    have empty := Matching.ofKeys_eq_none found
    rw [accountWith, found]
    refine ⟨.nothing _, fun _ _ => rfl, [], by simp, fun _ => ?_⟩
    rw [List.map_eq_nil_iff.mp empty.2]
  | some m =>
    have fits := Matching.fits_of_ofKeys found
    have for_ := fits.seats_for distinguished knownOld known s.ids
    have enters : ∀ p ∈ m.pairs, Enters faces accounts old (m.plan s.ids old new).new new p := by
      rintro ⟨i, j⟩ hp
      obtain ⟨o, n, ho, hn, same, seat⟩ := fits.seat_of_pair s.ids hp
      obtain ⟨account, there, faithful⟩ := below j n hn
      obtain ⟨face, under⟩ := Menu.face_mem knownOld (List.mem_of_getElem? ho)
      have kind := distinguished.isSubmenu_eq face (Menu.face_mem known (List.mem_of_getElem? hn)).1 same
      exact ⟨o, _, n, account, ho, Matching.getElem?_plan seat, hn, there, faithful, kind, under⟩
    rw [accountWith_eq found]
    extract_lets plan deletes adds inner
    obtain ⟨more, log, deleted⟩ := Standing.delete_spec verdict
      ⟨(Menu.seats s.ids (m.partners old) new).2, s.log⟩ plan.removed
    obtain ⟨more', log', added⟩ := deletes.2.add_spec verdict layout parent plan.new plan.added
    obtain ⟨renders, more'', log'', bare⟩ := enter_faithful enters adds.2
    have gathered : (gather adds.1 inner.1 0 new (m.seats s.ids old new)).Renders new := by
      refine renders_gather for_ 0 fun k n hn => ?_
      rw [Nat.zero_add]
      exact renders k n hn
    refine ⟨gathered.behind _, ?_, more ++ more' ++ more'', ?_, fun accepted => ?_⟩
    · rintro rfl rfl
      cases found
    · rw [log'', log', log, List.append_assoc, List.append_assoc, List.append_assoc]
    · rw [List.all_append, List.all_append, Bool.and_eq_true, Bool.and_eq_true] at accepted
      obtain ⟨⟨acceptedDeletes, acceptedAdds⟩, acceptedBelow⟩ := accepted
      have all : adds.1 = ⟨true, true⟩ := AddOutcome.eq_of_succeeded (added.trans acceptedAdds)
      rw [Reached.menu_append, deleted, if_pos acceptedDeletes, List.append_nil, all]
      refine bare_gather for_ 0 fun k n seat hn hs kept => ?_
      rw [Nat.zero_add]
      exact bare acceptedBelow k (fits.kept_index hs kept) n hn

end

/-- What an update comes to renders its target, and is the target if all batches were accepted. -/
theorem Menu.account_faithful {faces : Set Face} (distinguished : Collisionless faces) (layout : Layout)
    (verdict : Verdict) {new : Menu} (known : ∀ n ∈ new.walk, n.face ∈ faces) :
    (new.account layout verdict).Faithful faces new := by
  refine @Menu.account_induction layout verdict
    (fun new account => (∀ n ∈ new.walk, n.face ∈ faces) → account.Faithful faces new) ?_ new known
  intro new accounts below known
  refine accountWith_faithful distinguished known fun j n hn => ?_
  obtain ⟨account, there, faithful⟩ := below j n hn
  exact ⟨account, there, faithful (Menu.face_mem known (List.mem_of_getElem? hn)).2⟩

end RemoteMenu
