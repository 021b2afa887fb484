import RemoteMenu.Proofs.Update.Mirroring

/-!
# The host while a level is done

A level that is one in its context leaves the rest of the menu as it is, and what is committed is what
the host shows, wherever the level stops.
-/

namespace RemoteMenu

open HostTree Engine

variable {w : Scope}

/-- Whether a menu with some level in a context is committed, and is what the host shows. -/
structure At (w : Scope) (fs : Context) (level : Menu) (t : Trace) (now : Progress) : Prop where
  committed : now.committed = fs.plug level
  mirrored : Mirrored w t (now.committed.places none)

namespace At

variable {fs : Context} {level : Menu} {t : Trace} {now : Progress}

theorem places (h : At w fs level t now) (sound : fs.Sound) : Mirrored w t (fs.places level) := by
  have mirrored := h.mirrored
  rw [h.committed] at mirrored
  exact mirrored.perm (Context.places_plug sound level)

theorem of_places (sound : fs.Sound) (committed : now.committed = fs.plug level)
    (h : Mirrored w t (fs.places level)) : At w fs level t now := by
  refine ⟨committed, ?_⟩
  rw [committed]
  exact h.perm (Context.places_plug sound level).symm

theorem aside (h : At w fs level t now) {extra : Trace} (aside : ∀ e ∈ extra, e.inquiry.Aside) :
    At w fs level (t ++ extra) now := ⟨h.committed, h.mirrored.aside aside⟩

theorem poll (h : At w fs level t now) (canceled : Bool) :
    At w fs level (t ++ [⟨.poll, canceled⟩]) now := by
  refine h.aside fun e he => ?_
  rw [List.mem_singleton.mp he]
  trivial

theorem distinct (h : At w fs level t now) (sound : fs.Sound) : (level.map (·.remoteId)).Nodup := by
  have all := (h.places sound).distinct
  rw [Context.places, List.map_append] at all
  have own := (List.nodup_append.mp all).2.1
  have rows := ((Menu.places_perm_rows (fs.parent none) level).map (·.id)).nodup_iff.mp own
  rw [List.map_append, List.map_map] at rows
  exact (List.nodup_append.mp rows).1

theorem known (h : At w fs level t now) (sound : fs.Sound) {n : Node} (hn : n ∈ level) :
    n.face ∈ w.faces := by
  refine (h.places sound).known (n.place (fs.parent none)) (List.mem_append_right _ ?_)
  rw [Menu.places_eq_flatMap]
  refine List.mem_flatMap.mpr ⟨n, hn, ?_⟩
  rw [Node.places_eq]
  exact List.mem_cons_self ..

end At

/-- What a part of a level leaves behind: the menu with some level, unless it stops because it was
asked to. -/
def Leaves {α : Type} (w : Scope) (fs : Context) (t : Trace) (now : Progress) (r : Except Halt α) : Prop :=
  (∃ level, At w fs level t now) ∧ ∀ h, r = .error h → h = .canceled

/-! ### Settled seats -/

section
variable {fs : Context} {old new : Menu} {m : Matching} {t : Trace} {now : Progress}

theorem Matching.Fits.settled (fits : m.Fits (old.map Node.contentKey) (new.map Node.contentKey))
    (distinguished : Collisionless w.faces) (sound : fs.Sound) (h : At w fs old t now)
    (known : ∀ n ∈ new.walk, n.face ∈ w.faces)
    (bound : t.drawn + Menu.freshCount m.newStates new < legalIds) :
    Settled w (t ++ [⟨.reserve (Menu.freshCount m.newStates new), w.start.skip t.drawn⟩]) (fs.places old)
      (m.seats (w.start.skip t.drawn) old new) := by
  have own {n : Node} (hn : n ∈ new) : n.face ∈ w.faces :=
    known n (mem_walk_of_mem hn n.mem_walk_self)
  have fresh {n : Node} (hn : n ∈ new) (k : Nat) :
      ∀ m' ∈ (n.withFreshIds ((w.start.skip t.drawn).skip k)).1.walk, m'.face ∈ w.faces := by
    intro m' hm'
    have faces := (n.withFreshIds_spec ((w.start.skip t.drawn).skip k)).2.2.1
    have member := List.mem_map_of_mem (f := Node.face) hm'
    rw [faces] at member
    obtain ⟨n', hn', same⟩ := List.mem_map.mp member
    rw [← same]
    exact known n' (mem_walk_of_mem hn hn')
  have ids := fits.ids_freshNodes (w.start.skip t.drawn)
  refine ⟨fits.partners_alike distinguished (fun o ho => h.known sound ho) (fun n hn => own hn) _, ?_, ?_, ?_, ?_⟩
  · intro s hs
    obtain ⟨n, hn, ⟨o, ho, key, rfl⟩ | ⟨k, rfl⟩⟩ := fits.seat_cases hs
    · have face := own hn
      exact face
    · exact fresh hn k _ (Node.mem_walk_self _)
  · intro n hn
    obtain ⟨s, hs, rfl⟩ := List.mem_map.mp hn
    obtain ⟨hs, free⟩ := List.mem_filter.mp hs
    obtain ⟨n', hn', ⟨o, ho, key, rfl⟩ | ⟨k, rfl⟩⟩ := fits.seat_cases hs
    · cases free
    · exact fresh hn' k
  · rw [ids]
    refine List.Nodup.map_on ?_ List.nodup_range
    intro j hj k hk same
    rw [IdSupply.nth_skip, IdSupply.nth_skip] at same
    have hj := List.mem_range.mp hj
    have hk := List.mem_range.mp hk
    have sum := IdSupply.nth_inj (by omega) (by omega) same
    omega
  · rw [ids, Trace.drawn_reserve]
    intro id member
    obtain ⟨k, hk, rfl⟩ := List.mem_map.mp member
    have hk := List.mem_range.mp hk
    rw [IdSupply.nth_skip]
    refine ⟨⟨_, by omega, rfl⟩, ?_⟩
    intro x hx same
    obtain ⟨j, hj, drawn⟩ := (h.places sound).spent x hx
    have equal := IdSupply.nth_inj (by omega) (by omega) (drawn.symm.trans same)
    omega

/-! ### The batches of a level -/

def Kept (seats : List Seat) (level : Menu) : Prop :=
  ∀ s ∈ seats, ∀ o, s.partner = some o → s.node.setChildren o.children ∈ level

/-- What the batches of a level leave behind. -/
def Recorded (w : Scope) (fs : Context) (seats : List Seat) (t : Trace) (now : Progress) :
    Except Halt Bool → Prop
  | .ok _ => ∃ level, At w fs level t now ∧ Kept seats level
  | .error h => h = .canceled ∧ ∃ level, At w fs level t now

theorem kept_shown (adds : AddOutcome) (seats : List Seat) (left : Menu) :
    Kept seats (seats.filterMap (Seat.shown adds) ++ left) := by
  intro s hs o partner
  refine List.mem_append_left _ (List.mem_filterMap.mpr ⟨s, hs, ?_⟩)
  rw [Seat.shown, partner]

theorem Matching.Fits.meets_addStage {ids : IdSupply} {setup : Setup} {level : Menu} {removedOk : Bool}
    (fits : m.Fits (old.map Node.contentKey) (new.map Node.contentKey))
    (layout : setup.settings.defaultLayout = w.layout) (sound : fs.Sound) (h : At w fs level t now)
    (settled : Settled w t (fs.places old) (m.seats ids old new)) (sub : fs.places level ⊆ fs.places old)
    (parts : level.Perm ((m.seats ids old new).filterMap Seat.partner ++
      if removedOk then [] else (m.plan ids old new).removed)) :
    (addStage setup fs.path (m.plan ids old new) removedOk).Meets (mirroring w) t now
      (Recorded w fs (m.seats ids old new)) := by
  have fresh := fits.fresh_eq ids
  have mirrored := h.places sound
  have main := settled.adds sound sub mirrored fresh
  have below := (settled.later (Nat.le_of_eq (Trace.drawn_send ..).symm)).nestedAdds sub main.2 fresh
  -- Once the host shows what a seat of each sort is to be, the level can be recorded.
  have record (adds : AddOutcome) (t' : Trace) (now' : Progress)
      (h' : Mirrored w t' (fs.places level ++
        freshPlaces (fs.parent none) adds (m.seats ids old new)))
      (committed : now'.committed = fs.plug ((m.plan ids old new).committed removedOk adds)) (ok : Bool) :
      Recorded w fs (m.seats ids old new) t' now' (.ok ok) := by
    rw [fits.committed_eq] at committed
    exact ⟨_, .of_places sound committed (settled.committed parts h'), kept_shown _ _ _⟩
  rw [← layout] at main below
  refine Engine.meets_addStage sound h.committed rfl rfl ?_ ?_ ?_ ?_ ?_ ?_
  · intro none now' committed
    refine record _ _ _ ?_ committed _
    have empty : freshNodes (m.seats ids old new) = [] := by
      rw [← fresh, none]
      rfl
    rw [freshPlaces, belowFresh, empty]
    simpa using mirrored
  · exact fun _ => main.1
  · intro _ _ now' committed
    refine record _ _ _ ?_ committed _
    rw [freshPlaces]
    simpa using mirrored.rejected _
  · intro _ _ leaf now' committed
    refine record _ _ _ ?_ committed _
    have empty : belowFresh (m.seats ids old new) = [] := by
      have none := (fits.adds_fresh ids setup.settings.defaultLayout (fs.parent none)).2
      rw [leaf] at none
      exact List.forall₂_nil_left_iff.mp none
    rw [freshPlaces, empty]
    simpa using main.2
  · exact fun _ _ _ _ _ => below.1
  · intro _ _ _ accepted _ now' committed
    refine record _ _ _ ?_ committed _
    cases accepted with
    | true =>
      rw [freshPlaces, if_pos rfl, if_pos rfl, ← List.append_assoc]
      exact below.2
    | false =>
      rw [freshPlaces]
      simpa using main.2.rejected _

theorem Matching.Fits.meets_batches {ids : IdSupply} {setup : Setup}
    (fits : m.Fits (old.map Node.contentKey) (new.map Node.contentKey))
    (layout : setup.settings.defaultLayout = w.layout) (sound : fs.Sound) (h : At w fs old t now)
    (settled : Settled w t (fs.places old) (m.seats ids old new)) :
    (batches setup fs.path (m.plan ids old new)).Meets (mirroring w) t now
      (Recorded w fs (m.seats ids old new)) := by
  have olds := fits.old_perm_seats ids
  -- The additions go out from whatever the deletions have left.
  have onwards (t' : Trace) (now' : Progress) (level : Menu) (removedOk : Bool) (later : t.drawn ≤ t'.drawn)
      (h' : At w fs level t' now')
      (parts : level.Perm ((m.seats ids old new).filterMap Seat.partner ++
        if removedOk then [] else (m.plan ids old new).removed)) :
      (checkpoint >>= fun _ => addStage setup fs.path (m.plan ids old new) removedOk).Meets
        (mirroring w) t' now' (Recorded w fs (m.seats ids old new)) := by
    refine meets_stop ((lenient_mirroring w).polls _ _) (fun _ => ⟨rfl, level, h'.poll true⟩) fun _ => ?_
    have drawn : t.drawn ≤ Trace.drawn (t' ++ [⟨.poll, false⟩]) := by
      rw [Trace.drawn_append]
      omega
    refine fits.meets_addStage layout sound (h'.poll false) (settled.later drawn) ?_ parts
    intro x hx
    have kept := (fs.places_perm parts).mem_iff.mp hx
    refine (fs.places_perm olds).mem_iff.mpr ?_
    rw [Context.places_append] at kept ⊢
    rcases List.mem_append.mp kept with stays | left
    · exact List.mem_append_left _ stays
    · cases removedOk with
      | true => simp at left
      | false => exact List.mem_append_right _ left
  rw [batches]
  refine meets_stop ((lenient_mirroring w).polls _ _) (fun _ => ⟨rfl, old, h.poll true⟩) fun _ => ?_
  have h := h.poll false
  have later : t.drawn ≤ Trace.drawn (t ++ [⟨.poll, false⟩]) := by
    rw [Trace.drawn_append]
    omega
  have deletes := ((h.places sound).perm (fs.places_perm olds)).deletes sound
  rw [meets_bind]
  refine meets_deleteStage sound h.committed ?_ ?_ ?_ ?_
  · intro none
    refine onwards _ _ old true later h ?_
    rwa [none] at olds
  · exact fun _ => deletes.1
  · intro _ _ now' committed
    have stay := fits.stay_perm_seats ids (h.distinct sound)
    refine onwards _ _ _ true ?_ (.of_places sound committed ?_) (by simpa using stay)
    · rw [Trace.drawn_send]
      exact later
    · exact deletes.2.perm (fs.places_perm stay.symm)
  · intro _ _ now' committed
    refine onwards _ _ old false ?_ (.of_places sound committed ((h.places sound).rejected _)) olds
    rw [Trace.drawn_send]
    exact later

/-! ### Going into the kept nodes -/

/-- Whether a way into a node does a level below any context. -/
def Safe (w : Scope) (d : Descent) : Prop :=
  ∀ (fs : Context) (old : Menu) (t : Trace) (now : Progress), fs.Sound → At w fs old t now →
    (d old fs.path).Meets (mirroring w) t now (Leaves w fs)

/-- The kept nodes stay where they are while the level goes into one of them, since no other one has its id. -/
theorem Matching.Fits.kept_around {ids : IdSupply}
    (fits : m.Fits (old.map Node.contentKey) (new.map Node.contentKey)) {i j : Nat} {pairs : List (Nat × Nat)}
    (sub : pairs ⊆ m.pairs) (apart : Apart old ((i, j) :: pairs)) {before after : Menu} {k o : Node} (x : Node)
    (ho : old[i]? = some o) (own : k.remoteId = o.remoteId)
    (kept : ∀ p ∈ pairs, ∀ s o', (m.seats ids old new)[p.2]? = some s → s.partner = some o' →
      s.node.setChildren o'.children ∈ before ++ k :: after) :
    ∀ p ∈ pairs, ∀ s o', (m.seats ids old new)[p.2]? = some s → s.partner = some o' →
      s.node.setChildren o'.children ∈ before ++ x :: after := by
  intro p hp s o' hs partner
  have there := kept p hp s o' hs partner
  obtain ⟨o'', n, ho'', -, -, hs'⟩ := fits.seat_of_pair ids (sub hp)
  obtain rfl := Option.some.inj (hs.symm.trans hs')
  obtain rfl : o'' = o' := Option.some.inj partner
  have other := (List.pairwise_cons.mp apart).1 p hp o o'' ho ho''
  rcases List.mem_append.mp there with front | rest
  · exact List.mem_append_left _ front
  · rcases List.mem_cons.mp rest with same | back
    · refine absurd ?_ other
      have ids := congrArg Node.remoteId same
      rw [Node.remoteId_setChildren, own] at ids
      exact ids.symm
    · exact List.mem_append_right _ (List.mem_cons_of_mem _ back)

theorem Matching.Fits.meets_descend {ids : IdSupply} {descents : List Descent}
    (fits : m.Fits (old.map Node.contentKey) (new.map Node.contentKey))
    (safe : ∀ (j : Nat) (n : Node), new[j]? = some n → ∃ d, descents[j]? = some d ∧ Safe w d) (sound : fs.Sound)
    {pairs : List (Nat × Nat)} (sub : pairs ⊆ m.pairs) (apart : Apart old pairs) {level : Menu}
    (h : At w fs level t now)
    (kept : ∀ p ∈ pairs, ∀ s o, (m.seats ids old new)[p.2]? = some s → s.partner = some o →
      s.node.setChildren o.children ∈ level) :
    (descend (m.plan ids old new) descents fs.path pairs).Meets (mirroring w) t now (Leaves w fs) := by
  induction pairs generalizing t now level with
  | nil => exact ⟨⟨level, h⟩, by simp⟩
  | cons p pairs ih =>
    obtain ⟨i, j⟩ := p
    obtain ⟨o, n, ho, hn, -, seat⟩ := fits.seat_of_pair ids (sub (List.mem_cons_self ..))
    obtain ⟨d, hd, safe⟩ := safe j n hn
    obtain ⟨k, own, below, seat, hnew⟩ : ∃ k : Node, k.remoteId = o.remoteId ∧ k.children = n.children ∧
        (m.seats ids old new)[j]? = some ⟨some o, k⟩ ∧ (m.plan ids old new).new[j]? = some k :=
      ⟨{ n with remoteId := o.remoteId }, rfl, rfl, seat, Matching.getElem?_plan seat⟩
    have hold : (m.plan ids old new).old[i]? = some o := ho
    have sub' : pairs ⊆ m.pairs := fun p hp => sub (List.mem_cons_of_mem _ hp)
    have others {t : Trace} {now : Progress} {level : Menu} (h : At w fs level t now) :=
      ih sub' (List.pairwise_cons.mp apart).2 h
    rw [descend]
    refine meets_stop ((lenient_mirroring w).polls _ _) (fun _ => ⟨⟨level, h.poll true⟩, by simp⟩) fun _ => ?_
    have h := h.poll false
    rw [hold, hnew, hd]
    dsimp only
    split
    · exact others h fun p hp => kept p (List.mem_cons_of_mem _ hp)
    · next inner =>
      obtain ⟨before, after, rfl⟩ := List.append_of_mem (kept (i, j) (List.mem_cons_self ..) _ o seat rfl)
      let f : Branch := ⟨before, k.setChildren o.children, after⟩
      have fill : f.fill o.children = before ++ k.setChildren o.children :: after := by
        simp [f, Branch.fill]
      have soundf : Context.Sound (fs ++ [f]) := by
        refine Context.sound_snoc sound (Node.isSubmenu_setChildren_of_below inner) ?_
        intro n' hn' same
        have distinct := h.distinct sound
        rw [List.map_append, List.map_cons] at distinct
        exact (List.nodup_append.mp distinct).2.2 _ (List.mem_map_of_mem hn') _ (List.mem_cons_self ..) same
      have here : At w (fs ++ [f]) o.children _ _ :=
        ⟨by rw [Context.plug_snoc, fill, h.committed], h.mirrored⟩
      have path : fs.path ++ [k.remoteId] = Context.path (fs ++ [f]) := (Context.path_snoc fs f).symm
      rw [meets_bind, path]
      refine (safe _ _ _ _ soundf here).mono fun t' now' r leaves => ?_
      obtain ⟨⟨inside, at'⟩, stops⟩ := leaves
      have out : At w fs (f.fill inside) t' now' := ⟨by rw [at'.committed, Context.plug_snoc], at'.mirrored⟩
      cases r with
      | error halt => exact ⟨⟨_, out⟩, by simpa using stops⟩
      | ok ok =>
        rw [onward_ok, meets_bind]
        have same : (k.setChildren o.children).remoteId = o.remoteId := own
        have around (x : Node) := fits.kept_around sub' apart x ho same fun p hp =>
          kept p (List.mem_cons_of_mem _ hp)
        refine (others out (around _)).mono fun t'' now'' r leaves => ?_
        cases r with
        | error halt => exact leaves
        | ok rest => exact ⟨leaves.1, by simp⟩

/-! ### Whole levels -/

theorem meets_reconcileWith {setup : Setup} {descents : List Descent}
    (layout : setup.settings.defaultLayout = w.layout) (distinguished : Collisionless w.faces)
    (known : ∀ n ∈ new.walk, n.face ∈ w.faces)
    (safe : ∀ (j : Nat) (n : Node), new[j]? = some n → ∃ d, descents[j]? = some d ∧ Safe w d) :
    Safe w (reconcileWith setup descents new) := by
  intro fs old t now sound h
  rw [reconcileWith]
  refine meets_stop ((lenient_mirroring w).polls _ _) (fun _ => ⟨⟨old, h.poll true⟩, by simp⟩) fun _ => ?_
  have h := h.poll false
  generalize (t ++ [⟨.poll, false⟩] : Trace) = t at h ⊢
  rw [meets_bind, meets_count, onward_ok]
  cases found : Matching.ofMenus old new with
  | none => exact ⟨⟨old, h.committed, h.mirrored⟩, by simp⟩
  | some m =>
    have fits := Matching.fits_of_ofKeys found
    dsimp only
    rw [meets_bind]
    refine fits.meets_settleIds.mpr ⟨trivial, fun ids fair => ?_⟩
    obtain ⟨rfl, bound⟩ := fair
    have settled := fits.settled distinguished sound h known bound
    have h' : At w fs old
        (t ++ [⟨.reserve (Menu.freshCount m.newStates new), w.start.skip t.drawn⟩]) now :=
      ⟨h.committed, h.mirrored.later (by rw [Trace.batches_reserve]) (by rw [Trace.drawn_reserve]; omega)⟩
    rw [onward_ok, meets_bind]
    generalize (t ++ [⟨.reserve _, w.start.skip t.drawn⟩] : Trace) = t' at h' settled ⊢
    refine meets_applyPlan ((lenient_mirroring w).questions _ _) fun extra now' artworks same _ => ?_
    have aside : ∀ e ∈ extra, e.inquiry.Aside := fun e he => (artworks e he).aside
    have h'' : At w fs old (t' ++ extra) now' := by
      refine ⟨same.trans h.committed, ?_⟩
      rw [same]
      exact h'.mirrored.aside aside
    refine (fits.meets_batches layout sound h''
      (settled.later (Nat.le_of_eq (Trace.drawn_aside aside).symm))).mono fun t'' now'' r recorded => ?_
    cases r with
    | error halt => exact ⟨recorded.2, by simpa using recorded.1⟩
    | ok ok =>
      obtain ⟨level, here, kept⟩ := recorded
      rw [onward_ok, meets_bind]
      refine (fits.meets_descend safe sound (List.Subset.refl _) (fits.apart (h.distinct sound)) here
        fun p hp s o hs partner => kept s (List.mem_of_getElem? hs) o partner).mono fun t now r leaves => ?_
      cases r with
      | error halt => exact leaves
      | ok rest => exact ⟨leaves.1, by simp⟩

end

theorem Menu.safe_reconcile {setup : Setup} (layout : setup.settings.defaultLayout = w.layout)
    (distinguished : Collisionless w.faces) {new : Menu} (known : ∀ n ∈ new.walk, n.face ∈ w.faces) :
    Safe w (new.reconcile setup) := by
  refine @Menu.reconcile_induction setup (fun new d => (∀ n ∈ new.walk, n.face ∈ w.faces) → Safe w d) ?_ new known
  intro new descents below known
  refine meets_reconcileWith layout distinguished known fun j n hn => ?_
  obtain ⟨d, there, safe⟩ := below j n hn
  refine ⟨d, there, safe fun m hm => known m (mem_walk_of_mem (List.mem_of_getElem? hn) ?_)⟩
  rw [Node.walk_eq]
  exact List.mem_cons_of_mem _ hm

/-! ### What is sent -/

theorem Dialogue.Keeps.orderly {α : Type} {post : Trace → Progress → α → Prop} {d d' : Dialogue α}
    {t trace : Trace} (h : d.Keeps (mirroring w) post t) (runs : d.Runs trace d')
    (fair : (mirroring w).Fair t trace) : (replay t.batches).Orderly (Trace.batches trace) := by
  induction runs generalizing t with
  | rest => trivial
  | @answered inquiry now next reply trace d' further ih =>
    have rest := ih (h.2 reply fair.1) fair.2
    have quiet (none : Exchange.batch? ⟨inquiry, reply⟩ = none) :
        (replay t.batches).Orderly (Trace.batches (⟨inquiry, reply⟩ :: trace)) := by
      have skip (further : Trace) :
          Trace.batches (⟨inquiry, reply⟩ :: further) = Trace.batches further :=
        List.filterMap_cons_none none
      rw [Trace.batches_append, skip [], Trace.batches, Trace.batches, List.filterMap_nil,
        List.append_nil] at rest
      rw [skip]
      exact rest
    cases inquiry with
    | world r =>
      cases r with
      | send batch =>
        rw [Trace.batches_send, replay_snoc] at rest
        exact ⟨h.1, rest⟩
      | _ => exact quiet rfl
    | _ => exact quiet rfl

/-! ### Whole updates -/

theorem Mirrored.enter {t : Trace} {xs : List Place} (h : Mirrored w t xs) (state : OperationState)
    (passage : Passage) : Mirrored w (t ++ [⟨.enter state, passage⟩]) xs :=
  h.later (by rw [Trace.batches_enter]) (Nat.le_of_eq (Trace.drawn_enter ..).symm)

theorem Mirrored.request {t : Trace} {xs : List Place} (h : Mirrored w t xs) {r : Request}
    (aside : Inquiry.Aside (.world r)) (reply : r.Reply) : Mirrored w (t ++ [⟨.world r, reply⟩]) xs := by
  refine h.aside fun e he => ?_
  rw [List.mem_singleton.mp he]
  exact aside

/-- What an update leaves behind: the host shows what is committed. -/
def Ended (w : Scope) (t : Trace) (now : Progress) (r : Except Halt Outcome) : Prop :=
  Mirrored w t (now.committed.places none) ∧ r ≠ .error .crashed

/-- A whole update gives a host no reason to refuse a batch, and in the end what is committed is what
the host shows. -/
theorem Job.keeps_mirroring {job : Job} {current : Menu} {t : Trace}
    (layout : job.setup.settings.defaultLayout = w.layout) (distinguished : Collisionless w.faces)
    (known : ∀ n ∈ job.target.walk, n.face ∈ w.faces) (h : Mirrored w t (current.places none)) :
    (job.run { committed := current }).Keeps (mirroring w) (Ended w) t := by
  change job.run.Meets (mirroring w) t { committed := current } (Ended w)
  rw [Job.run, meets_bind]
  refine (meets_ask _).mpr ⟨trivial, fun passage _ => ?_⟩
  have h := h.enter .running passage
  rw [onward_ok]
  cases passage with
  | canceled => exact ⟨h, by simp⟩
  | refused error => exact ⟨h, by simp⟩
  | entered =>
    dsimp only
    rw [meets_bind]
    refine (meets_request _).mpr ⟨trivial, fun startedAt _ => ?_⟩
    have h := h.request (r := .clock) trivial startedAt
    rw [onward_ok, meets_bind, meets_now, onward_ok, meets_bind, meets_attempt]
    have safe := Menu.safe_reconcile layout distinguished known
    refine (safe [] current _ _ (by simp [Context.Sound]) ⟨rfl, h⟩).mono fun t now r leaves => ?_
    obtain ⟨⟨level, here⟩, stops⟩ := leaves
    have h := here.mirrored
    rw [onward_ok]
    cases r with
    | error halt =>
      obtain rfl := stops halt rfl
      exact ⟨h, by simp⟩
    | ok success =>
      dsimp only
      rw [meets_bind]
      refine (meets_ask _).mpr ⟨trivial, fun passage _ => ?_⟩
      have h := h.enter .finished passage
      rw [onward_ok]
      cases passage with
      | canceled => exact ⟨h, by simp⟩
      | refused error => exact ⟨h, by simp⟩
      | entered =>
        dsimp only
        rw [meets_bind, meets_now, onward_ok, meets_bind]
        refine (meets_request _).mpr ⟨trivial, fun finishedAt _ => ?_⟩
        have h := h.request (r := .clock) trivial finishedAt
        rw [onward_ok]
        split
        · rw [meets_bind]
          refine (meets_request _).mpr ⟨trivial, fun _ _ => ?_⟩
          exact ⟨h.request (r := .notify _) trivial (), by simp⟩
        · exact ⟨h, by simp⟩

end RemoteMenu
