import Mathlib.Data.List.Dedup
import Mathlib.Data.List.Pairwise
import RemoteMenu.Proofs.Host.Mirror
import RemoteMenu.Proofs.Update.Parts
import RemoteMenu.Proofs.Update.Plan
import RemoteMenu.Update.Operation

/-!
# The host during an update

Whatever a host answers and wherever an update is asked to stop, the committed menu is what the host
shows as soon as a level's batches are recorded, and no batch gives a host a reason to refuse it. The
contract `mirroring` says the second; what `Mirrored` says of the committed menu is the first. Every
part of an update keeps both (`Job.keeps_mirroring`).
-/

namespace RemoteMenu

open HostTree

/-- What an update is looked at under: the layout of submenus without a hint, the looks that nodes may
have, and the supply that ids were first drawn from. -/
structure Scope where
  layout : Layout
  faces : Set Face
  start : IdSupply

/-- Whether no two looks have the same hash unless they count as the same. -/
def Collisionless (faces : Set Face) : Prop :=
  ∀ f ∈ faces, ∀ g ∈ faces, Blake3.hash f.print = Blake3.hash g.print → f.print = g.print

/-- It is enough to look at different looks. -/
theorem collisionless_of_pairwise {faces : List Face}
    (h : faces.dedup.Pairwise fun f g => Blake3.hash f.print ≠ Blake3.hash g.print) :
    Collisionless { f | f ∈ faces } := by
  intro f hf g hg same
  by_cases equal : f = g
  · rw [equal]
  · have symm : Std.Symm fun f g : Face => Blake3.hash f.print ≠ Blake3.hash g.print :=
      ⟨fun _ _ ne => ne.symm⟩
    have apart := h.forall (List.mem_dedup.mpr hf) (List.mem_dedup.mpr hg) equal
    exact absurd same apart

/-- Whether the host shows what is at some places after a trace, where the places have distinct ids
that were all drawn in the trace. -/
structure Mirrored (w : Scope) (t : Trace) (xs : List Place) : Prop where
  host : Mirrors w.layout w.faces (replay t.batches) xs
  distinct : (xs.map (·.id)).Nodup
  spent : ∀ x ∈ xs, ∃ k < t.drawn, x.id = w.start.nth k
  known : ∀ x ∈ xs, x.face ∈ w.faces

/-- Ids come from the supply one after another and do not run out. A batch is in order for the tree
that the accepted batches before it have made. -/
def mirroring (w : Scope) : Contract where
  fair t
    | ⟨.reserve count, ids⟩ => ids = w.start.skip t.drawn ∧ t.drawn + count < legalIds
    | _ => True
  asks t _
    | .world (.send batch) => (replay t.batches).AdmitsAll batch
    | _ => True

theorem lenient_mirroring (w : Scope) : (mirroring w).Lenient := by
  intro t now i aside
  cases i with
  | world r =>
    cases r with
    | send => cases aside
    | _ => trivial
  | _ => trivial

namespace Mirrored

variable {w : Scope} {t : Trace} {xs ys : List Place}

theorem perm (h : Mirrored w t xs) (perm : xs.Perm ys) : Mirrored w t ys where
  host := h.host.perm perm
  distinct := (perm.map _).nodup_iff.mp h.distinct
  spent x hx := h.spent x (perm.mem_iff.mpr hx)
  known x hx := h.known x (perm.mem_iff.mpr hx)

theorem congr (h : Mirrored w t xs) (alike : List.Forall₂ Place.Alike xs ys)
    (known : ∀ y ∈ ys, y.face ∈ w.faces) : Mirrored w t ys := by
  have ids := map_id_of_alike alike
  refine ⟨h.host.congr alike, ids ▸ h.distinct, ?_, known⟩
  intro y hy
  have member : y.id ∈ xs.map (·.id) := ids ▸ List.mem_map_of_mem hy
  obtain ⟨x, hx, same⟩ := List.mem_map.mp member
  rw [← same]
  exact h.spent x hx

/-- Nothing that leaves the host's tree as it is makes a difference. -/
theorem later {t' : Trace} (h : Mirrored w t xs) (tree : replay t'.batches = replay t.batches)
    (drawn : t.drawn ≤ t'.drawn) : Mirrored w t' xs where
  host := tree ▸ h.host
  distinct := h.distinct
  spent x hx := by
    obtain ⟨k, bound, own⟩ := h.spent x hx
    exact ⟨k, by omega, own⟩
  known := h.known

theorem aside {extra : Trace} (h : Mirrored w t xs) (aside : ∀ e ∈ extra, e.inquiry.Aside) :
    Mirrored w (t ++ extra) xs := by
  refine h.later ?_ ?_
  · rw [Trace.batches_aside aside]
  · exact Nat.le_of_eq (Trace.drawn_aside aside).symm

theorem rejected (h : Mirrored w t xs) (batch : List Command) :
    Mirrored w (t ++ [⟨.world (.send batch), false⟩]) xs := by
  refine h.later ?_ ?_
  · rw [Trace.batches_send, replay_snoc]
    rfl
  · exact Nat.le_of_eq (Trace.drawn_send ..).symm

theorem replay_accepted (t : Trace) (batch : List Command) :
    replay (Trace.batches (t ++ [⟨.world (.send batch), true⟩])) = (replay t.batches).applyAll batch := by
  rw [Trace.batches_send, replay_snoc]
  rfl

theorem adds {batch : List Command} (h : Mirrored w t xs) (above : List (Option RemoteId))
    (batches : List.Forall₂ (Adds w.layout w.faces) batch ys) (chained : Chained above ys)
    (up : ∀ p, some p ∈ above → ∃ x ∈ xs, x.face.isSubmenu = true ∧ x.id = p)
    (distinct : ((xs ++ ys).map (·.id)).Nodup) (spent : ∀ y ∈ ys, ∃ k < t.drawn, y.id = w.start.nth k)
    (known : ∀ y ∈ ys, y.face ∈ w.faces) :
    (replay t.batches).AdmitsAll batch ∧
      Mirrored w (t ++ [⟨.world (.send batch), true⟩]) (xs ++ ys) := by
  have set : ∀ y ∈ ys, y.id.isSet = true := by
    intro y hy
    obtain ⟨k, -, own⟩ := spent y hy
    rw [own]
    exact w.start.isSet_nth k
  obtain ⟨admitted, host⟩ := h.host.adds batches chained up distinct set
  refine ⟨admitted, ?_, distinct, ?_, ?_⟩
  · rw [replay_accepted]
    exact host
  · rw [Trace.drawn_send]
    intro x hx
    rcases List.mem_append.mp hx with old | new
    · exact h.spent x old
    · exact spent x new
  · intro x hx
    rcases List.mem_append.mp hx with old | new
    · exact h.known x old
    · exact known x new

theorem deletes {fs : Context} (sound : fs.Sound) {stay go : List Node}
    (h : Mirrored w t (fs.places (stay ++ go))) :
    (replay t.batches).AdmitsAll (Command.deletes go) ∧
      Mirrored w (t ++ [⟨.world (.send (Command.deletes go)), true⟩]) (fs.places stay) := by
  rw [Context.places_append] at h
  have grounded : ∀ left, left <:+ go →
      Grounded (fs.places stay ++ Menu.places (fs.parent none) left) := by
    intro left _
    rw [← Context.places_append]
    exact Context.grounded sound _
  obtain ⟨admitted, host⟩ := h.host.deletes grounded h.distinct
  have distinct := h.distinct
  rw [List.map_append] at distinct
  refine ⟨admitted, ?_, (List.nodup_append.mp distinct).1, ?_, ?_⟩
  · rw [replay_accepted]
    exact host
  · rw [Trace.drawn_send]
    exact fun x hx => h.spent x (List.mem_append_left _ hx)
  · exact fun x hx => h.known x (List.mem_append_left _ hx)

theorem nodup_ids {menu : Menu} (h : Mirrored w t (menu.places none)) : menu.ids.Nodup := by
  rw [← Menu.map_id_places none]
  exact h.distinct

/-- Ids that are drawn from now on are none of the menu. -/
theorem apart {menu : Menu} (h : Mirrored w t (menu.places none)) {count : Nat} (bound : t.drawn + count < legalIds) :
    ∀ k < count, (w.start.skip t.drawn).nth k ∉ menu.ids := by
  intro k inside taken
  rw [← Menu.map_id_places none] at taken
  obtain ⟨x, hx, same⟩ := List.mem_map.mp taken
  obtain ⟨j, hj, own⟩ := h.spent x hx
  rw [IdSupply.nth_skip] at same
  have again := IdSupply.nth_inj (by omega) (by omega) (own.symm.trans same)
  omega

end Mirrored

/-! ### The seats of a level -/

def PartnersAlike (seats : List Seat) : Prop :=
  ∀ s ∈ seats, ∀ o, s.partner = some o → s.node.remoteId = o.remoteId ∧ o.face.print = s.node.face.print

/-- What is known of the seats of a level once their ids are settled, where `xs` are the places that
there were before. -/
structure Settled (w : Scope) (t : Trace) (xs : List Place) (seats : List Seat) : Prop where
  kept : PartnersAlike seats
  known : ∀ s ∈ seats, s.node.face ∈ w.faces
  fresh : ∀ n ∈ freshNodes seats, ∀ m ∈ n.walk, m.face ∈ w.faces
  distinct : (Menu.ids (freshNodes seats)).Nodup
  drawn : ∀ id ∈ Menu.ids (freshNodes seats), (∃ k < t.drawn, id = w.start.nth k) ∧ ∀ x ∈ xs, x.id ≠ id

def keptNodes (seats : List Seat) : List Node :=
  seats.filterMap fun s => s.partner.map fun old => s.node.setChildren old.children

def shownFresh (adds : AddOutcome) (seats : List Seat) : List Node :=
  if adds.created then
    (freshNodes seats).map fun n => if adds.nested then n else n.setChildren []
  else []

def belowFresh (seats : List Seat) : List Place :=
  (freshNodes seats).flatMap fun n => Menu.places (some n.remoteId) n.children

def freshPlaces (top : Option RemoteId) (adds : AddOutcome) (seats : List Seat) : List Place :=
  if adds.created then
    (freshNodes seats).map (Node.place top) ++ if adds.nested then belowFresh seats else []
  else []

theorem shown_perm (adds : AddOutcome) (seats : List Seat) :
    (seats.filterMap (Seat.shown adds)).Perm (keptNodes seats ++ shownFresh adds seats) := by
  induction seats with
  | nil => simp [keptNodes, shownFresh]
  | cons s seats ih =>
    obtain ⟨partner, n⟩ := s
    cases partner with
    | some old => exact ih.cons _
    | none =>
      by_cases created : adds.created = true
      · simp only [shownFresh, created, if_true, keptNodes] at ih ⊢
        rw [List.filterMap_cons_some (by rw [Seat.shown, if_pos created]), List.filterMap_cons_none rfl,
          freshNodes_fresh, List.map_cons]
        exact (ih.cons _).trans List.perm_middle.symm
      · simp only [shownFresh, if_neg created, keptNodes, List.append_nil] at ih ⊢
        rw [List.filterMap_cons_none (by rw [Seat.shown, if_neg created]), List.filterMap_cons_none rfl]
        exact ih

/-- A fresh node whose children were not added is there by itself. -/
theorem places_shownFresh (top : Option RemoteId) (adds : AddOutcome) (seats : List Seat) :
    (Menu.places top (shownFresh adds seats)).Perm (freshPlaces top adds seats) := by
  unfold shownFresh freshPlaces
  cases adds.created with
  | false => simp
  | true =>
    cases adds.nested with
    | true =>
      simp only [if_true, List.map_id']
      exact Menu.places_perm_rows top _
    | false =>
      refine List.Perm.of_eq ?_
      simp only [if_true, Bool.false_eq_true, if_false, List.append_nil]
      generalize freshNodes seats = nodes
      induction nodes with
      | nil => simp
      | cons n nodes ih =>
        have face : (n.setChildren []).face = n.face := by
          rw [Node.face, Node.isSubmenu_setChildren _ _ (.inr rfl)]
          rfl
        rw [List.map_cons, Menu.places_cons, ih, Node.places_eq, Node.place, face]
        simp [Node.place]

/-- Kept nodes look like their partners where different looks have different hashes. -/
theorem Matching.Fits.partners_alike {old new : Menu} {m : Matching}
    (fits : m.Fits (old.map Node.contentKey) (new.map Node.contentKey)) {faces : Set Face}
    (distinguished : Collisionless faces) (olds : ∀ n ∈ old, n.face ∈ faces) (news : ∀ n ∈ new, n.face ∈ faces)
    (ids : IdSupply) : PartnersAlike (m.seats ids old new) := by
  intro s hs o partner
  obtain ⟨n, hn, ⟨o', ho, key, rfl⟩ | ⟨k, rfl⟩⟩ := fits.seat_cases hs
  · obtain rfl : o' = o := Option.some.inj partner
    exact ⟨rfl, distinguished _ (olds o' ho) _ (news n hn) (congrArg ContentKey.bytes key)⟩
  · cases partner

namespace PartnersAlike

variable {seats : List Seat}

theorem face_kept (h : PartnersAlike seats) {s : Seat} (hs : s ∈ seats) {old : Node}
    (partner : s.partner = some old) : (s.node.setChildren old.children).face = s.node.face := by
  have kind : old.isSubmenu = s.node.isSubmenu := Face.isSubmenu_eq_of_print_eq (h s hs old partner).2
  have same : s.node.isSubmenu = true ∨ old.children = [] := by
    rw [← kind, Node.isSubmenu]
    cases old.children <;> simp
  rw [Node.face, Node.isSubmenu_setChildren _ _ same]
  rfl

/-- A kept node is at the place of its partner and looks like it, and what is below is the same. -/
theorem alike_kept (h : PartnersAlike seats) (top : Option RemoteId) :
    List.Forall₂ Place.Alike (Menu.places top (seats.filterMap Seat.partner))
      (Menu.places top (keptNodes seats)) := by
  have each : ∀ s ∈ seats, ∀ old, s.partner = some old →
      List.Forall₂ Place.Alike (old.places top) ((s.node.setChildren old.children).places top) := by
    intro s hs old partner
    obtain ⟨own, print⟩ := h s hs old partner
    rw [Node.places_eq, Node.places_eq, Node.remoteId_setChildren, Node.children_setChildren, own]
    refine .cons ⟨own.symm, rfl, ?_⟩ (List.forall₂_same.mpr fun x _ => ⟨rfl, rfl, rfl⟩)
    exact print.trans (congrArg Face.print (h.face_kept hs partner)).symm
  clear h
  unfold keptNodes
  induction seats with
  | nil => simp
  | cons s seats ih =>
    have rest := ih fun s' hs' => each s' (List.mem_cons_of_mem _ hs')
    cases partner : s.partner with
    | none =>
      rw [List.filterMap_cons_none partner, List.filterMap_cons_none (by rw [partner]; rfl)]
      exact rest
    | some old =>
      rw [List.filterMap_cons_some partner, List.filterMap_cons_some (by rw [partner]; rfl),
        Menu.places_cons, Menu.places_cons]
      exact List.rel_append (each s (List.mem_cons_self ..) old partner) rest

end PartnersAlike

/-- The places of a level that has the partners of kept nodes and others, and some more. -/
theorem Context.places_parts (fs : Context) {level left : Menu} {seats : List Seat}
    (parts : level.Perm (seats.filterMap Seat.partner ++ left)) (more : List Place) :
    (fs.places level ++ more).Perm (fs.outer none ++
      (Menu.places (fs.parent none) (seats.filterMap Seat.partner) ++
        (more ++ Menu.places (fs.parent none) left))) := by
  refine ((fs.places_perm parts).append_right _).trans ?_
  rw [Context.places, Menu.places_append, List.append_assoc, List.append_assoc]
  exact (List.perm_append_comm.append_left _).append_left _

/-- The places of a level that is recorded. -/
theorem Context.places_shown (fs : Context) (adds : AddOutcome) (seats : List Seat) (left : Menu) :
    (fs.outer none ++ (Menu.places (fs.parent none) (keptNodes seats) ++
      (freshPlaces (fs.parent none) adds seats ++ Menu.places (fs.parent none) left))).Perm
        (fs.places (seats.filterMap (Seat.shown adds) ++ left)) := by
  rw [Context.places, Menu.places_append]
  refine List.Perm.append_left _ ?_
  rw [← List.append_assoc]
  refine List.Perm.append_right _ ?_
  have shown := Menu.places_perm (fs.parent none) (shown_perm adds seats)
  rw [Menu.places_append] at shown
  exact ((places_shownFresh _ adds seats).symm.append_left _).trans shown.symm

/-- What is around a level and what is added to it stays, and the partners of kept nodes give way to these. -/
theorem PartnersAlike.alike_parts {seats : List Seat} (h : PartnersAlike seats) (fs : Context) (more : List Place) (left : Menu) :
    List.Forall₂ Place.Alike
      (fs.outer none ++ (Menu.places (fs.parent none) (seats.filterMap Seat.partner) ++
        (more ++ Menu.places (fs.parent none) left)))
      (fs.outer none ++ (Menu.places (fs.parent none) (keptNodes seats) ++
        (more ++ Menu.places (fs.parent none) left))) := by
  have same (zs : List Place) : List.Forall₂ Place.Alike zs zs :=
    List.forall₂_same.mpr fun x _ => ⟨rfl, rfl, rfl⟩
  exact List.rel_append (same _) (List.rel_append (h.alike_kept _) (same _))

/-- The places of the fresh nodes, row by row, have their ids. -/
theorem ids_rows (top : Option RemoteId) (seats : List Seat) :
    (((freshNodes seats).map (Node.place top) ++ belowFresh seats).map (·.id)).Perm
      (Menu.ids (freshNodes seats)) := by
  rw [← Menu.map_id_places top]
  exact (Menu.places_perm_rows top _).symm.map _

/-- The additions of a level are for the fresh nodes, and those below them for what is below. -/
theorem Matching.Fits.adds_fresh {old new : Menu} {m : Matching}
    (fits : m.Fits (old.map Node.contentKey) (new.map Node.contentKey)) (ids : IdSupply) (layout : Layout)
    (top : Option RemoteId) :
    let plan := m.plan ids old new
    let seats := m.seats ids old new
    List.Forall₂ (Adds layout Set.univ) (Command.adds layout top plan.new plan.added)
        ((freshNodes seats).map (Node.place top)) ∧
      List.Forall₂ (Adds layout Set.univ) (Command.nestedAdds layout plan.new plan.added) (belowFresh seats) := by
  intro plan seats
  have fresh : plan.added.filterMap (plan.new[·]?) = freshNodes seats := fits.fresh_eq ids
  rw [belowFresh, ← fresh]
  exact ⟨adds_adds fun _ _ => trivial, adds_nestedAdds fun _ _ _ _ => trivial⟩

namespace Settled

variable {w : Scope} {t : Trace} {xs : List Place} {seats : List Seat}

theorem later {t' : Trace} (h : Settled w t xs seats) (drawn : t.drawn ≤ t'.drawn) :
    Settled w t' xs seats := by
  refine ⟨h.kept, h.known, h.fresh, h.distinct, ?_⟩
  intro id member
  obtain ⟨⟨k, bound, own⟩, apart⟩ := h.drawn id member
  exact ⟨⟨k, by omega, own⟩, apart⟩

theorem adds (s : Settled w t xs seats) {fs : Context} (sound : fs.Sound) {level : Menu}
    (sub : fs.places level ⊆ xs) (h : Mirrored w t (fs.places level)) {plan : LevelPlan}
    (fresh : plan.added.filterMap (plan.new[·]?) = freshNodes seats) :
    (replay t.batches).AdmitsAll (Command.adds w.layout (fs.parent none) plan.new plan.added) ∧
      Mirrored w (t ++ [⟨.world (.send (Command.adds w.layout (fs.parent none) plan.new plan.added)), true⟩])
        (fs.places level ++ (freshNodes seats).map (Node.place (fs.parent none))) := by
  have rows := ids_rows (fs.parent none) seats
  have distinct := rows.nodup_iff.mpr s.distinct
  rw [List.map_append] at distinct rows
  have drawn : ∀ y ∈ (freshNodes seats).map (Node.place (fs.parent none)),
      (∃ k < t.drawn, y.id = w.start.nth k) ∧ ∀ x ∈ xs, x.id ≠ y.id := by
    intro y hy
    exact s.drawn y.id (rows.mem_iff.mp (List.mem_append_left _ (List.mem_map_of_mem hy)))
  have known : ∀ y ∈ (freshNodes seats).map (Node.place (fs.parent none)), y.face ∈ w.faces := by
    intro y hy
    obtain ⟨n, hn, rfl⟩ := List.mem_map.mp hy
    exact s.fresh n hn n n.mem_walk_self
  refine h.adds [fs.parent none] ?_ (chained_map_place (List.mem_singleton_self _) _) ?_ ?_
    (fun y hy => (drawn y hy).1) known
  · rw [← fresh]
    refine adds_adds fun n hn => ?_
    rw [fresh] at hn
    exact s.fresh n hn n n.mem_walk_self
  · intro p member
    rcases Context.parent_mem_outer sound none with top | ⟨x, hx, kind, own⟩
    · rw [top] at member
      simp at member
    · rw [own] at member
      refine ⟨x, List.mem_append_left _ hx, kind, ?_⟩
      simpa using (List.mem_singleton.mp member).symm
  · rw [List.map_append]
    refine List.nodup_append.mpr ⟨h.distinct, (List.nodup_append.mp distinct).1, ?_⟩
    intro a ha b hb same
    obtain ⟨x, hx, rfl⟩ := List.mem_map.mp ha
    obtain ⟨y, hy, rfl⟩ := List.mem_map.mp hb
    exact (drawn y hy).2 x (sub hx) same

theorem nestedAdds (s : Settled w t xs seats) {fs : Context} {level : Menu} (sub : fs.places level ⊆ xs)
    (h : Mirrored w t (fs.places level ++ (freshNodes seats).map (Node.place (fs.parent none))))
    {plan : LevelPlan} (fresh : plan.added.filterMap (plan.new[·]?) = freshNodes seats) :
    (replay t.batches).AdmitsAll (Command.nestedAdds w.layout plan.new plan.added) ∧
      Mirrored w (t ++ [⟨.world (.send (Command.nestedAdds w.layout plan.new plan.added)), true⟩])
        (fs.places level ++ (freshNodes seats).map (Node.place (fs.parent none)) ++ belowFresh seats) := by
  have rows := ids_rows (fs.parent none) seats
  have distinct := rows.nodup_iff.mpr s.distinct
  rw [List.map_append] at distinct rows
  have drawn : ∀ y ∈ belowFresh seats, (∃ k < t.drawn, y.id = w.start.nth k) ∧ ∀ x ∈ xs, x.id ≠ y.id := by
    intro y hy
    exact s.drawn y.id (rows.mem_iff.mp (List.mem_append_right _ (List.mem_map_of_mem hy)))
  have below : ∀ n ∈ freshNodes seats, ∀ m ∈ Menu.walk n.children, m.face ∈ w.faces := by
    intro n hn m hm
    exact s.fresh n hn m (by rw [Node.walk_eq]; exact List.mem_cons_of_mem _ hm)
  have known : ∀ y ∈ belowFresh seats, y.face ∈ w.faces := by
    intro y hy
    obtain ⟨n, hn, hy⟩ := List.mem_flatMap.mp hy
    have member : y.face ∈ Menu.faces n.children := by
      rw [← Menu.map_face_places (some n.remoteId)]
      exact List.mem_map_of_mem hy
    obtain ⟨m, hm, same⟩ := List.mem_map.mp member
    rw [← same]
    exact below n hn m hm
  let above := ((freshNodes seats).filter Node.isSubmenu).map fun n => some n.remoteId
  refine h.adds above ?_ (chained_below fun n hn kind => ?_) ?_ ?_
    (fun y hy => (drawn y hy).1) known
  · rw [belowFresh, ← fresh]
    exact adds_nestedAdds (by rw [fresh]; exact below)
  · exact List.mem_map.mpr ⟨n, List.mem_filter.mpr ⟨hn, kind⟩, rfl⟩
  · intro p member
    obtain ⟨n, hn, own⟩ := List.mem_map.mp member
    obtain ⟨hn, kind⟩ := List.mem_filter.mp hn
    exact ⟨n.place (fs.parent none), List.mem_append_right _ (List.mem_map_of_mem hn), kind,
      Option.some.inj own⟩
  · rw [List.map_append]
    refine List.nodup_append.mpr ⟨h.distinct, (List.nodup_append.mp distinct).2.1, ?_⟩
    intro a ha b hb same
    obtain ⟨x, hx, rfl⟩ := List.mem_map.mp ha
    obtain ⟨y, hy, rfl⟩ := List.mem_map.mp hb
    rcases List.mem_append.mp hx with old | row
    · exact (drawn y hy).2 x (sub old) same
    · exact (List.nodup_append.mp distinct).2.2 _ (List.mem_map_of_mem row) _ hb same

/-- What is committed after the batches of a level is what the host shows then. -/
theorem committed (s : Settled w t xs seats) {fs : Context} {level left : Menu}
    (parts : level.Perm (seats.filterMap Seat.partner ++ left)) {adds : AddOutcome} {t' : Trace}
    (h : Mirrored w t' (fs.places level ++ freshPlaces (fs.parent none) adds seats)) :
    Mirrored w t' (fs.places (seats.filterMap (Seat.shown adds) ++ left)) := by
  have before := h.perm (fs.places_parts parts _)
  refine (before.congr (s.kept.alike_parts fs _ left) ?_).perm (fs.places_shown adds seats left)
  intro y hy
  rcases List.mem_append.mp hy with outer | hy
  · exact before.known y (List.mem_append_left _ outer)
  rcases List.mem_append.mp hy with kept | rest
  · obtain ⟨n, hn, hy⟩ : ∃ n ∈ keptNodes seats, y ∈ n.places (fs.parent none) := by
      rw [Menu.places_eq_flatMap] at kept
      exact List.mem_flatMap.mp kept
    obtain ⟨seat, hs, own⟩ := List.mem_filterMap.mp hn
    obtain ⟨old, partner, rfl⟩ := Option.map_eq_some_iff.mp own
    rw [Node.places_eq] at hy
    rcases List.mem_cons.mp hy with rfl | below
    · rw [Node.place, s.kept.face_kept hs partner]
      exact s.known seat hs
    · -- What is below a kept node is what is below its partner.
      refine before.known y (List.mem_append_right _ (List.mem_append_left _ ?_))
      rw [Menu.places_eq_flatMap]
      refine List.mem_flatMap.mpr ⟨old, List.mem_filterMap.mpr ⟨seat, hs, partner⟩, ?_⟩
      rw [Node.places_eq, ← (s.kept seat hs old partner).1]
      exact List.mem_cons_of_mem _ below
  · exact before.known y (List.mem_append_right _ (List.mem_append_right _ rest))

end Settled

end RemoteMenu
