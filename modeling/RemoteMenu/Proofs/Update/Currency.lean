import RemoteMenu.Proofs.Update.Mirroring
import RemoteMenu.Proofs.Update.Pacing
import RemoteMenu.Proofs.Update.Round

/-!
# The committed menu while a batch is with the host

Whenever a batch is handed to the host, the committed menu has just the entries that the host shows, unless
the batch is for what is below added nodes: these are on the host by then, and are recorded only together with
what is below them (`Operation.Moves.committed_at_batch`). An operation that is looked at there, or dies there,
has not committed them.
-/

namespace RemoteMenu

open HostTree Engine

theorem Trace.batches_idle {t : Trace} {e : Exchange} (h : e.inquiry.Idle) : batches (t ++ [e]) = batches t := by
  have none : e.batch? = none := by
    obtain ⟨inquiry, reply⟩ := e
    cases inquiry with
    | world q =>
      cases q with
      | send => cases h
      | _ => rfl
    | _ => rfl
  have alone : batches [e] = [] := List.filterMap_cons_none none
  rw [batches_append, alone, List.append_nil]

/-- What the host shows and the committed menu does not have while a batch is with the host. -/
def Stage.ahead (s : Stage) : List Place :=
  match s.purpose with
  | .deletion | .addition => []
  | .descendants => (s.plan.added.filterMap (s.plan.new[·]?)).map (Node.place s.path.getLast?)

/-- Whether the host, which showed the old menu at first, shows what is at some places after a trace. No two
of these have the same id of the old menu. -/
structure Tracked (r : Round) (host : HostTree) (t : Trace) (xs : List Place) : Prop where
  shown : (host.after t.batches).Outlined xs
  distinct : ((xs.map (·.id)).filter (· ∈ r.current.ids)).Nodup

namespace Tracked

variable {r : Round} {host : HostTree} {t : Trace} {xs ys : List Place}

theorem perm (h : Tracked r host t xs) (perm : xs.Perm ys) : Tracked r host t ys where
  shown := h.shown.perm perm
  distinct := ((perm.map _).filter _).nodup_iff.mp h.distinct

theorem congr (h : Tracked r host t xs) (alike : List.Forall₂ Place.Alike xs ys) : Tracked r host t ys where
  shown := h.shown.congr alike
  distinct := map_id_of_alike alike ▸ h.distinct

theorem stay {e : Exchange} (h : Tracked r host t xs) (idle : e.inquiry.Idle) : Tracked r host (t ++ [e]) xs where
  shown := by
    rw [Trace.batches_idle idle]
    exact h.shown
  distinct := h.distinct

theorem later {t' : Trace} (h : Tracked r host t xs) (same : t'.batches = t.batches) : Tracked r host t' xs where
  shown := same ▸ h.shown
  distinct := h.distinct

theorem rejected (h : Tracked r host t xs) (batch : List Command) :
    Tracked r host (t ++ [⟨.world (.send batch), false⟩]) xs where
  shown := by
    rw [Trace.batches_send, after_snoc]
    exact h.shown
  distinct := h.distinct

theorem adds {layout : Layout} {faces : Set Face} {batch : List Command} (h : Tracked r host t xs)
    (batches : List.Forall₂ (Adds layout faces) batch ys) (free : ∀ y ∈ ys, y.id ∉ r.current.ids) :
    Tracked r host (t ++ [⟨.world (.send batch), true⟩]) (xs ++ ys) where
  shown := by
    rw [Trace.batches_send, after_snoc]
    exact h.shown.adds batches
  distinct := by
    have none : (ys.map (·.id)).filter (· ∈ r.current.ids) = [] := by
      refine List.filter_eq_nil_iff.mpr fun id member => ?_
      obtain ⟨y, hy, rfl⟩ := List.mem_map.mp member
      simpa using free y hy
    rw [List.map_append, List.filter_append, none, List.append_nil]
    exact h.distinct

theorem deletes {fs : Context} (sound : fs.Sound) {stay go : Menu}
    (h : Tracked r host t (fs.places (stay ++ go))) (old : ∀ id ∈ Menu.ids go, id ∈ r.current.ids) :
    Tracked r host (t ++ [⟨.world (.send (Command.deletes go)), true⟩]) (fs.places stay) := by
  obtain ⟨shown, distinct⟩ := h
  rw [Context.places_append] at shown distinct
  have all : (Menu.ids go).filter (· ∈ r.current.ids) = Menu.ids go :=
    List.filter_eq_self.mpr fun id member => decide_eq_true (old id member)
  rw [List.map_append, List.filter_append, Menu.map_id_places, all] at distinct
  obtain ⟨around, own, apart⟩ := List.nodup_append.mp distinct
  refine ⟨?_, around⟩
  rw [Trace.batches_send, after_snoc]
  refine shown.deletes (fun left _ => ?_) own fun x hx gone => ?_
  · rw [← Context.places_append]
    exact Context.grounded sound _
  · -- A place that has the id of a deleted node would have an id of the old menu for a second time.
    have member : x.id ∈ ((fs.places stay).map (·.id)).filter (· ∈ r.current.ids) :=
      List.mem_filter.mpr ⟨List.mem_map_of_mem hx, decide_eq_true (old _ gone)⟩
    exact apart _ member _ gone rfl

/-- What is recorded of a level is what the host shows after its batches. -/
theorem committed {fs : Context} {level left : Menu} {seats : List Seat} (looks : PartnersAlike seats)
    (parts : level.Perm (seats.filterMap Seat.partner ++ left)) {adds : AddOutcome}
    (h : Tracked r host t (fs.places level ++ freshPlaces (fs.parent none) adds seats)) :
    Tracked r host t (fs.places (seats.filterMap (Seat.shown adds) ++ left)) :=
  ((h.perm (fs.places_parts parts _)).congr (looks.alike_parts fs _ left)).perm (fs.places_shown adds seats left)

end Tracked

/-! ### What a level keeps -/

theorem KeptAt.walk {target current new old : Menu} {path : Path} (h : KeptAt target current path new old) :
    (∀ n ∈ new.walk, n ∈ target.walk) ∧ ∀ n ∈ old.walk, n ∈ current.walk := by
  induction h with
  | top => exact ⟨fun _ h => h, fun _ h => h⟩
  | @into new old _ _ m i j n o path found pair ho hn further ih =>
    have below {k : Node} {menu : Menu} (member : k ∈ menu) (x : Node) (hx : x ∈ Menu.walk k.children) :
        x ∈ menu.walk := by
      refine mem_walk_of_mem member ?_
      rw [Node.walk_eq]
      exact List.mem_cons_of_mem _ hx
    exact ⟨fun x hx => below (List.mem_of_getElem? hn) x (ih.1 x hx),
      fun x hx => below (List.mem_of_getElem? ho) x (ih.2 x hx)⟩

/-- Whenever a batch is sent, the committed menu has what the host shows, but for what is ahead of it. -/
def currency (r : Round) (layout : Layout) (host : HostTree) : Contract where
  fair := r.fair
  asks t now
    | .world (.send batch) => ∃ s : Stage, Plans r.target r.current s.path s.plan ∧ s.Due layout t ∧
        s.batch layout = batch ∧ (host.after t.batches).Outlined (now.committed.places none ++ s.ahead)
    | _ => True

namespace Round

variable {r : Round} {fs : Context} {new old : Menu} {m : Matching} {ids : IdSupply} {before : List Path}

theorem Site.plans (site : r.Site fs new old m ids before) : Plans r.target r.current fs.path (m.plan ids old new) :=
  ⟨new, old, m, ids, site.kept, site.found, rfl⟩

theorem Site.partners_alike (site : r.Site fs new old m ids before)
    (distinguished : Collisionless { f | f ∈ r.current.faces ++ r.target.faces }) : PartnersAlike (m.seats ids old new) := by
  obtain ⟨news, olds⟩ := site.kept.walk
  have own {k : Node} {menu : Menu} (hk : k ∈ menu) : k ∈ menu.walk :=
    mem_walk_of_mem hk k.mem_walk_self
  refine site.fits.partners_alike distinguished (fun o ho => ?_) (fun n hn => ?_) ids
  · exact List.mem_append_left _ (List.mem_map_of_mem (olds o (own ho)))
  · exact List.mem_append_right _ (List.mem_map_of_mem (news n (own hn)))

theorem Site.ids_removed (site : r.Site fs new old m ids before) :
    ∀ id ∈ Menu.ids (m.plan ids old new).removed, id ∈ r.current.ids := by
  intro id member
  have olds := site.fits.old_perm_seats ids
  refine site.sublist.subset ?_
  rw [← Menu.map_id_places none] at member ⊢
  refine ((Menu.places_perm none olds).map (·.id)).mem_iff.mpr ?_
  rw [Menu.places_append, List.map_append]
  exact List.mem_append_right _ member

theorem Site.fresh_free (site : r.Site fs new old m ids before) (top : Option RemoteId) :
    ∀ y ∈ (freshNodes (m.seats ids old new)).map (Node.place top) ++ belowFresh (m.seats ids old new),
      y.id ∉ r.current.ids :=
  fun _ hy => site.free _ ((ids_rows top _).mem_iff.mp (List.mem_map_of_mem hy))

variable {host : HostTree} {t : Trace} {level : Menu}

theorem Site.tracked_main (site : r.Site fs new old m ids before) (layout : Layout) (h : Tracked r host t (fs.places level)) :
    Tracked r host
      (t ++ [⟨.world (.send (Command.adds layout (fs.parent none) (m.plan ids old new).new (m.plan ids old new).added)), true⟩])
      (fs.places level ++ (freshNodes (m.seats ids old new)).map (Node.place (fs.parent none))) :=
  h.adds (site.fits.adds_fresh ids layout _).1 fun y hy => site.fresh_free _ y (List.mem_append_left _ hy)

theorem Site.tracked_added (site : r.Site fs new old m ids before) (h : Tracked r host t (fs.places level))
    {layout : Layout} {extra : Trace} {outcome : AddOutcome}
    (added : Added layout (fs.parent none) (m.plan ids old new) extra outcome) :
    Tracked r host (t ++ extra)
      (fs.places level ++ freshPlaces (fs.parent none) outcome (m.seats ids old new)) := by
  have nesteds := (site.fits.adds_fresh ids layout (fs.parent none)).2
  have rows := site.tracked_main layout h
  unfold freshPlaces
  cases added with
  | nothing none =>
    have empty : freshNodes (m.seats ids old new) = [] := by
      rw [← site.fits.fresh_eq ids, none]
      rfl
    rw [belowFresh, empty]
    simpa using h
  | rejected _ => simpa using h.rejected _
  | alone _ leaf =>
    rw [leaf] at nesteds
    rw [List.forall₂_nil_left_iff.mp nesteds]
    simpa using rows
  | both _ _ accepted =>
    rw [List.append_cons]
    cases accepted with
    | true =>
      rw [if_pos rfl, if_pos rfl, ← List.append_assoc]
      exact rows.adds nesteds fun y hy => site.fresh_free (fs.parent none) y (List.mem_append_right _ hy)
    | false => simpa using rows.rejected _

end Round

theorem upkeep_currency (r : Round) (layout : Layout) (host : HostTree)
    (distinguished : Collisionless { f | f ∈ r.current.faces ++ r.target.faces }) :
    Upkeep r layout (currency r layout host) fun _ t menu => Tracked r host t (menu.places none) where
  fresh := rfl
  asks {before t now} _ _ i other := by
    cases i with
    | world q =>
      cases q with
      | send batch => exact absurd rfl (other batch)
      | _ => trivial
    | _ => trivial
  stay e h idle := h.stay idle
  reserve path _ _ h := h.later (Trace.batches_reserve ..)
  deletes {fs new old m ids before t} site told _ h some := by
    intro gone
    have olds := site.fits.old_perm_seats ids
    have stay := site.fits.stay_perm_seats ids ((Menu.row_sublist old).nodup site.distinct)
    refine ⟨fun now at_ => ⟨⟨.deletion, fs.path, m.plan ids old new⟩, site.plans, told, rfl, ?_⟩, h.rejected _, ?_⟩
    · rw [Stage.ahead, List.append_nil, at_]
      exact h.shown
    · have here := (h.perm (Context.places_plug site.sound _)).perm (fs.places_perm olds)
      refine Tracked.perm ?_ (Context.places_plug site.sound _).symm
      exact (here.deletes site.sound site.ids_removed).perm (fs.places_perm stay.symm)
  adds {fs new old m ids before t level removedOk} site told _ parts h := by
    intro plan main nested
    have here := h.perm (Context.places_plug site.sound _)
    refine ⟨fun now at_ => ⟨?_, ?_⟩, fun extra outcome added => ?_⟩
    · refine ⟨⟨.addition, fs.path, plan⟩, site.plans, told, ?_, ?_⟩
      · rw [Stage.batch, Context.getLast?_path]
      · rw [Stage.ahead, List.append_nil, at_]
        exact h.shown
    · obtain ⟨u, rfl⟩ := told
      refine ⟨⟨.descendants, fs.path, plan⟩, site.plans, ⟨u, ?_⟩, rfl, ?_⟩
      · rw [Stage.batch, Context.getLast?_path, List.append_assoc]
        rfl
      · rw [Stage.ahead, Context.getLast?_path, site.fits.fresh_eq ids, at_]
        exact (site.tracked_main layout here).shown.perm ((Context.places_plug site.sound _).symm.append_right _)
    · rw [site.fits.committed_eq]
      refine Tracked.perm ?_ (Context.places_plug site.sound _).symm
      exact (site.tracked_added here added).committed (site.partners_alike distinguished) parts

/-! ### Whole updates -/

theorem Round.keeps_currency (r : Round) {job : Job} (target : job.target = r.target) {host : HostTree}
    (shows : host.Outlined (r.current.places none))
    (distinguished : Collisionless { f | f ∈ r.current.faces ++ r.target.faces }) :
    (job.run { committed := r.current }).Keeps (currency r job.setup.settings.defaultLayout host)
      (fun t now _ => Tracked r host t (now.committed.places none)) [] := by
  have start : Tracked r host [] (r.current.places none) := by
    refine ⟨shows, ?_⟩
    rw [Menu.map_id_places]
    exact r.distinct.filter _
  refine ((upkeep_currency r _ host distinguished).keeps_run target rfl start).mono fun t now _ kept => ?_
  obtain ⟨-, -, tracked⟩ := kept
  exact tracked

/-- Only while the host is sent what is below added nodes, it shows what the committed menu does not have. -/
theorem Stage.ahead_eq_nil_iff {target current : Menu} {layout : Layout} {s : Stage}
    (planned : Plans target current s.path s.plan) (some : s.batch layout ≠ []) :
    s.ahead = [] ↔ s.purpose ≠ .descendants := by
  obtain ⟨purpose, path, plan⟩ := s
  cases purpose with
  | deletion => exact ⟨fun _ => nofun, fun _ => rfl⟩
  | addition => exact ⟨fun _ => nofun, fun _ => rfl⟩
  | descendants =>
    refine ⟨fun none => ?_, fun other => absurd rfl other⟩
    have added : plan.added ≠ [] := by
      rintro empty
      have none : Command.nestedAdds layout plan.new plan.added = [] := by
        rw [empty]
        rfl
      exact some none
    have rows : List.Forall₂ (Adds layout Set.univ) (Command.adds layout path.getLast? plan.new plan.added)
        (Stage.ahead ⟨.descendants, path, plan⟩) := adds_adds fun _ _ => trivial
    rw [none] at rows
    exact absurd (List.forall₂_nil_right_iff.mp rows) (planned.adds_ne_nil added _)

/-- Whenever an operation waits with a batch, or has died there, the host shows what is committed and what is
ahead of it: nothing, unless the batch is for what is below added nodes, and then just these. -/
theorem Operation.Moves.committed_at_batch {job : Job} {current : Menu} {ids : IdSupply} {t : Trace}
    {op here : Operation} (way : (schedule job current ids).Moves t op) {batch : List Command}
    (pending : op.pending? = some (.send batch)) (seen : here = op ∨ here = op.crash) {host : HostTree}
    (shows : host.Outlined (current.places none)) (distinct : current.ids.Nodup)
    (apart : ∀ k < t.drawn, ids.nth k ∉ current.ids)
    (distinguished : Collisionless { f | f ∈ current.faces ++ job.target.faces }) :
    ∃ s : Stage, Plans job.target current s.path s.plan ∧ s.Due job.setup.settings.defaultLayout t ∧
      s.batch job.setup.settings.defaultLayout = batch ∧
      (host.after t.batches).Outlined (here.committed.places none ++ s.ahead) ∧
      ((host.after t.batches).Outlined (here.committed.places none) ↔ s.purpose ≠ .descendants) := by
  let r : Round := ⟨ids, job.target, current, distinct⟩
  have same : here.committed = op.committed := by rcases seen with rfl | rfl <;> rfl
  rw [same]
  have started : (schedule job current ids).task = .live (job.run { committed := current }) := rfl
  obtain ⟨d, live, runs⟩ := way.runs started
  have fair : (currency r job.setup.settings.defaultLayout host).Fair [] t :=
    Round.fair_of_draws rfl way.draws_schedule (by rwa [List.nil_append])
  have keeps := (r.keeps_currency rfl shows distinguished).along runs fair
  have paces := (job.keeps_pacing current).along runs (fair_pacing [] t)
  rw [List.nil_append] at keeps paces
  obtain ⟨now, next, rfl⟩ := Dialogue.eq_of_sends ((pending?_eq_send live batch).mp pending)
  obtain ⟨⟨s, planned, due, rfl, shown⟩, -⟩ := keeps
  obtain ⟨⟨some, -⟩, -⟩ := paces
  have reached : op.committed = now.committed := by
    rw [committed, progress, live]
    rfl
  rw [← reached] at shown
  refine ⟨s, planned, due, rfl, shown, ?_⟩
  rw [← s.ahead_eq_nil_iff planned some]
  refine ⟨fun bare => ?_, fun none => ?_⟩
  · have lengths := shown.length_eq.symm.trans bare.length_eq
    rw [List.length_append] at lengths
    exact List.length_eq_zero_iff.mp (by omega)
  · rwa [none, List.append_nil] at shown

/-! ### Batches of short updates -/

def Operation.sending? (op : Operation) : Option (List Command) :=
  match op.pending? with
  | some (.send batch) => some batch
  | _ => none

theorem Operation.pending?_of_sending {op : Operation} (h : op.sending?.isSome = true) :
    ∃ batch, op.pending? = some (.send batch) := by
  unfold sending? at h
  split at h
  · next batch pending => exact ⟨batch, pending⟩
  · cases h

def hostOf (menu : Menu) : HostTree :=
  applyAll [] (Command.adds .list none menu (List.range menu.length) ++
    Command.nestedAdds .list menu (List.range menu.length))

namespace Operation

/-- An operation that has deleted a node of a submenu and dies while another one is added to it. -/
theorem committed_at_batch_oldShelf :
    let op := ((schedule shelfJob oldShelf default).play (fun _ => .taking true) 3).1
    let t := ((schedule shelfJob oldShelf default).play (fun _ => .taking true) 3).2
    op.sending?.isSome = true ∧ ∃ s : Stage, s.Due shelfJob.setup.settings.defaultLayout t ∧
      ((hostOf oldShelf).after t.batches).Outlined (op.crash.committed.places none ++ s.ahead) := by
  intro op t
  have way : (schedule shelfJob oldShelf default).Moves t op := play_moves _ _ 3
  have waits : op.sending?.isSome = true := by decide +kernel
  obtain ⟨batch, pending⟩ := pending?_of_sending waits
  have shows : (hostOf oldShelf).Outlined (oldShelf.places none) := by decide +kernel
  have apart : ∀ k < t.drawn, (default : IdSupply).nth k ∉ oldShelf.ids := by decide +kernel
  obtain ⟨s, -, due, -, shown, -⟩ := way.committed_at_batch pending (.inr rfl) shows (by decide +kernel) apart
    (collisionless_of_pairwise (by decide +kernel))
  exact ⟨waits, s, due, shown⟩

/-- While a host that has taken a first submenu is sent what is in it, nothing is committed. -/
theorem committed_behind :
    ¬ ∀ (job : Job) (current : Menu) (ids : IdSupply) (t : Trace) (op : Operation) (batch : List Command)
      (host : HostTree), (schedule job current ids).Moves t op → op.pending? = some (.send batch) →
        host.Outlined (current.places none) → (∀ id ∈ current.ids, id.isSet = true) → current.ids.Nodup →
        (∀ k < t.drawn, ids.nth k ∉ current.ids) →
        Collisionless { f | f ∈ current.faces ++ job.target.faces } →
          (host.after t.batches).Outlined (op.committed.places none) := by
  intro claim
  let op := ((schedule shelfJob [] default).play (fun _ => .taking true) 3).1
  have waits : op.sending?.isSome = true := by decide +kernel
  obtain ⟨batch, pending⟩ := pending?_of_sending waits
  have current := claim shelfJob [] default _ _ batch [] (play_moves _ _ 3) pending (by decide +kernel)
    (by decide +kernel) (by decide +kernel) (by decide +kernel) (collisionless_of_pairwise (by decide +kernel))
  revert current
  decide +kernel

end Operation

end RemoteMenu
