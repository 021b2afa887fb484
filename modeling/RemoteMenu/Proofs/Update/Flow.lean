import RemoteMenu.Proofs.Update.Parts
import RemoteMenu.Proofs.Update.Plan
import RemoteMenu.Update.Operation

/-!
# The flow of an update

In which order an update asks for things does not depend on where its levels are or on what their ids
are. A `Flow` says what a contract has to let pass for each part of a level; whatever lets that pass is
kept by all levels together (`Flow.meets_reconcile`), which only ever end early because they were asked
to.
-/

namespace RemoteMenu

open Engine

/-! ### Kept nodes and their plans -/

/-- Whether a path leads through kept nodes to one that has the children `old'` and is to have the
children `new'`. The empty path leads to the two menus themselves. -/
inductive KeptAt : (new old : Menu) → Path → (new' old' : Menu) → Prop
  | top (new old : Menu) : KeptAt new old [] new old
  | into {new old new' old' : Menu} {m : Matching} {i j : Nat} {n o : Node} {path : Path}
      (found : Matching.ofMenus old new = some m) (pair : (i, j) ∈ m.pairs) (ho : old[i]? = some o)
      (hn : new[j]? = some n) (further : KeptAt n.children o.children path new' old') :
      KeptAt new old (o.remoteId :: path) new' old'

theorem KeptAt.snoc {target current new old : Menu} {path : Path} (h : KeptAt target current path new old)
    {m : Matching} {i j : Nat} {n o : Node} (found : Matching.ofMenus old new = some m)
    (pair : (i, j) ∈ m.pairs) (ho : old[i]? = some o) (hn : new[j]? = some n) :
    KeptAt target current (path ++ [o.remoteId]) n.children o.children := by
  induction h with
  | top => exact .into found pair ho hn (.top _ _)
  | into found' pair' ho' hn' _ ih => exact .into found' pair' ho' hn' (ih found ho hn)

def Plans (target current : Menu) (path : Path) (plan : LevelPlan) : Prop :=
  ∃ new old m ids, KeptAt target current path new old ∧ Matching.ofMenus old new = some m ∧
    plan = m.plan ids old new

/-! ### Flows -/

def Trace.Told (t : Trace) : Prop := ∃ u : Trace, t = u ++ [⟨.poll, false⟩]

/-- What a contract lets pass on the way through the levels of an update: `going` is what is known of
the trace between two parts, `told` that and that the update was just told to go on, and `stopped` what
is known once it was told to stop. -/
structure Flow (c : Contract) (target current : Menu) (layout : Layout) (going told stopped : Trace → Prop) :
    Prop where
  asks : ∀ {t}, going t → ∀ now (i : Inquiry), i.Aside → c.asks t now i
  rest : ∀ {t}, told t → going t
  stop : ∀ {t}, going t → c.fair t ⟨.poll, true⟩ → stopped (t ++ [⟨.poll, true⟩])
  go : ∀ {t}, going t → c.fair t ⟨.poll, false⟩ → told (t ++ [⟨.poll, false⟩])
  artworks : ∀ {t extra : Trace}, going t → (∀ e ∈ extra, e.inquiry.OfArtworks) → going (t ++ extra)
  reserve : ∀ {t}, told t → ∀ now count, c.asks t now (.reserve count) ∧
    ∀ ids, c.fair t ⟨.reserve count, ids⟩ → going (t ++ [⟨.reserve count, ids⟩])
  delete : ∀ {t path plan}, told t → Plans target current path plan → plan.removed ≠ [] →
    let batch := Command.deletes plan.removed
    (∀ now, c.asks t now (.world (.send batch))) ∧
    ∀ accepted : Bool, c.fair t ⟨.world (.send batch), accepted⟩ →
      going (t ++ [⟨.world (.send batch), accepted⟩])
  add : ∀ {t path plan}, told t → Plans target current path plan → plan.added ≠ [] →
    let main := Command.adds layout path.getLast? plan.new plan.added
    let nested := Command.nestedAdds layout plan.new plan.added
    (∀ now, c.asks t now (.world (.send main))) ∧
    (c.fair t ⟨.world (.send main), false⟩ → going (t ++ [⟨.world (.send main), false⟩])) ∧
    (c.fair t ⟨.world (.send main), true⟩ →
      (nested = [] → going (t ++ [⟨.world (.send main), true⟩])) ∧
      (nested ≠ [] → ∀ now, c.asks (t ++ [⟨.world (.send main), true⟩]) now (.world (.send nested))) ∧
      ∀ accepted : Bool, nested ≠ [] →
        c.fair (t ++ [⟨.world (.send main), true⟩]) ⟨.world (.send nested), accepted⟩ →
          going (t ++ [⟨.world (.send main), true⟩] ++ [⟨.world (.send nested), accepted⟩]))

/-- What a part of a level leaves behind: it is done, or was told to stop. -/
def Passes {α : Type} (going stopped : Trace → Prop) (t : Trace) (_ : Progress) : Except Halt α → Prop
  | .ok _ => going t
  | .error h => h = .canceled ∧ stopped t

section
variable {c : Contract} {t : Trace} {now : Progress}

theorem Engine.meets_commit_of_any {path : Path} {level : Menu} {post : Trace → Progress → Except Halt Unit → Prop}
    (after : ∀ committed, post t { now with committed } (.ok ())) : (commit path level).Meets c t now post := after _

theorem Engine.meets_commitRemovals_of_any {path : Path} {nodes : List Node}
    {post : Trace → Progress → Except Halt Unit → Prop} (after : ∀ committed, post t { now with committed } (.ok ())) :
    (commitRemovals path nodes).Meets c t now post := by
  rw [commitRemovals, meets_bind, meets_now, onward_ok]
  split
  · exact after now.committed
  · exact meets_commit_of_any after

end

namespace Flow

variable {c : Contract} {target current : Menu} {layout : Layout} {going told stopped : Trace → Prop}
  {t : Trace} {now : Progress} {path : Path} {plan : LevelPlan}

theorem meets_stop (flow : Flow c target current layout going told stopped) (h : going t) {α : Type}
    {f : Unit → Engine α}
    (onward : ∀ t, told t → (f ()).Meets c t now (Passes going stopped)) :
    (checkpoint >>= f).Meets c t now (Passes going stopped) :=
  Engine.meets_stop (flow.asks h now _ trivial) (fun fair => ⟨rfl, flow.stop h fair⟩) fun fair => onward _ (flow.go h fair)

theorem meets_deleteStage (flow : Flow c target current layout going told stopped) (h : told t)
    (plans : Plans target current path plan) :
    (deleteStage path plan).Meets c t now (Passes going stopped) := by
  rw [deleteStage, meets_bind]
  refine meets_sendDeletes (fun none => ?_) fun some => ?_
  · rw [onward_ok, none]
    exact flow.rest h
  · obtain ⟨asks, after⟩ := flow.delete h plans some
    refine (meets_send _).mpr ⟨asks _, fun accepted fair => ?_⟩
    rw [onward_ok]
    split
    · rw [meets_bind]
      exact meets_commitRemovals_of_any fun _ => after accepted fair
    · exact after accepted fair

theorem meets_addStage (flow : Flow c target current layout going told stopped) {setup : Setup}
    (hint : setup.settings.defaultLayout = layout) (h : told t) (plans : Plans target current path plan)
    (removedOk : Bool) :
    (addStage setup path plan removedOk).Meets c t now (Passes going stopped) := by
  have record (t : Trace) (now : Progress) (adds : AddOutcome) (h : going t) :
      (do Engine.commit path (plan.committed removedOk adds)
          pure (removedOk && adds.succeeded) : Engine Bool).Meets c t now (Passes going stopped) := by
    rw [meets_bind]
    exact meets_commit_of_any fun _ => h
  rw [addStage, meets_bind, hint]
  refine meets_sendAdds (fun _ => record _ _ _ (flow.rest h)) fun some => ?_
  obtain ⟨asks, rejected, accepted⟩ := flow.add h plans some
  refine (meets_send _).mpr ⟨asks _, fun answer fair => ?_⟩
  cases answer with
  | false => exact record _ _ _ (rejected fair)
  | true =>
    obtain ⟨alone, asks', both⟩ := accepted fair
    refine ⟨fun leaf => record _ _ _ (alone leaf), fun below => ?_⟩
    exact (meets_send _).mpr ⟨asks' below _, fun answer' fair' => record _ _ _ (both answer' below fair')⟩

theorem meets_applyPlan (flow : Flow c target current layout going told stopped) {setup : Setup}
    (hint : setup.settings.defaultLayout = layout) (h : going t) (plans : Plans target current path plan) :
    (applyPlan setup path plan).Meets c t now (Passes going stopped) := by
  refine Engine.meets_applyPlan (fun extra artworks now _ i hi =>
    flow.asks (flow.artworks h artworks) now i hi.aside) fun extra now' artworks _ _ => ?_
  rw [batches]
  refine flow.meets_stop (flow.artworks h artworks) fun t h => ?_
  rw [meets_bind]
  refine (flow.meets_deleteStage h plans).mono fun t now r passes => ?_
  cases r with
  | error => exact passes
  | ok removedOk => exact flow.meets_stop passes fun t h => flow.meets_addStage hint h plans removedOk

/-! ### Levels -/

/-- Whether a way into a node lets pass what is to be, wherever the node is kept. -/
def Lets (c : Contract) (target current : Menu) (going stopped : Trace → Prop) (new : Menu) (d : Descent) :
    Prop :=
  ∀ (path : Path) (old : Menu) (t : Trace) (now : Progress), KeptAt target current path new old → going t →
    (d old path).Meets c t now (Passes going stopped)

variable {new old : Menu} {m : Matching}

theorem meets_descend (flow : Flow c target current layout going told stopped) {ids : IdSupply}
    {descents : List Descent} (found : Matching.ofMenus old new = some m)
    (lets : ∀ (j : Nat) (n : Node), new[j]? = some n →
      ∃ d, descents[j]? = some d ∧ Lets c target current going stopped n.children d)
    (kept : KeptAt target current path new old) {pairs : List (Nat × Nat)} (sub : pairs ⊆ m.pairs)
    (h : going t) :
    (descend (m.plan ids old new) descents path pairs).Meets c t now (Passes going stopped) := by
  induction pairs generalizing t now with
  | nil => exact h
  | cons p pairs ih =>
    obtain ⟨i, j⟩ := p
    have fits := Matching.fits_of_ofKeys found
    have pair := sub (List.mem_cons_self ..)
    obtain ⟨o, n, ho, hn, -, seat⟩ := fits.seat_of_pair ids pair
    obtain ⟨d, hd, lets⟩ := lets j n hn
    have hnew := Matching.getElem?_plan seat
    have hold : (m.plan ids old new).old[i]? = some o := ho
    have others {t : Trace} {now : Progress} (h : going t) :=
      @ih t now (fun p hp => sub (List.mem_cons_of_mem _ hp)) h
    rw [descend]
    refine flow.meets_stop h fun t h => ?_
    rw [hold, hnew, hd]
    dsimp only
    split
    · exact others (flow.rest h)
    · rw [meets_bind]
      refine (lets _ _ t now (kept.snoc found pair ho hn) (flow.rest h)).mono fun t now r passes => ?_
      cases r with
      | error => exact passes
      | ok ok =>
        rw [onward_ok, meets_bind]
        refine (others passes).mono fun t now r passes => ?_
        cases r <;> exact passes

theorem meets_reconcileWith (flow : Flow c target current layout going told stopped) {setup : Setup}
    (hint : setup.settings.defaultLayout = layout) {descents : List Descent}
    (lets : ∀ (j : Nat) (n : Node), new[j]? = some n →
      ∃ d, descents[j]? = some d ∧ Lets c target current going stopped n.children d) :
    Lets c target current going stopped new (reconcileWith setup descents new) := by
  intro path old t now kept h
  rw [reconcileWith]
  refine flow.meets_stop h fun t h => ?_
  rw [meets_bind, meets_count, onward_ok]
  cases found : Matching.ofMenus old new with
  | none => exact flow.rest h
  | some m =>
    have fits := Matching.fits_of_ofKeys found
    dsimp only
    rw [meets_bind]
    obtain ⟨asks, after⟩ := flow.reserve h { now with stats := { now.stats with
      levelsVisited := now.stats.levelsVisited + 1 } } (Menu.freshCount m.newStates new)
    refine fits.meets_settleIds.mpr ⟨asks, fun ids fair => ?_⟩
    rw [onward_ok, meets_bind]
    refine (flow.meets_applyPlan hint (after ids fair) ⟨new, old, m, ids, kept, found, rfl⟩).mono
      fun t now r passes => ?_
    cases r with
    | error => exact passes
    | ok ok =>
      rw [onward_ok, meets_bind]
      refine (flow.meets_descend found lets kept (List.Subset.refl _) passes).mono fun t now r passes => ?_
      cases r <;> exact passes

/-- Bringing a menu in line lets pass what its levels let pass. -/
theorem meets_reconcile (flow : Flow c target current layout going told stopped) {setup : Setup}
    (hint : setup.settings.defaultLayout = layout) (h : going t) :
    (Menu.reconcile setup target current []).Meets c t now (Passes going stopped) := by
  have lets : Lets c target current going stopped target (target.reconcile setup) :=
    Menu.reconcile_induction (fun _ _ below => flow.meets_reconcileWith hint below) target
  exact lets [] current t now (.top _ _) h

end Flow

/-! ### Whole updates -/

/-- Whether an inquiry is about the life of the operation, or what it reports. -/
def Inquiry.OfLife : Inquiry → Prop
  | .enter _ | .world .clock | .world (.notify _) => True
  | _ => False

/-- Before its levels and after them an update only asks about its life. What it ends with is what its levels have
come to, unless it was told before that it may not run. -/
theorem Job.meets_run_of_levels {c : Contract} {job : Job} {t : Trace} {now : Progress}
    {before : Trace → Progress → Prop} {after : Trace → Progress → Except Halt Bool → Prop} (h : before t now)
    (asks : ∀ t now (i : Inquiry), before t now → i.OfLife → c.asks t now i)
    (onward : ∀ t now (e : Exchange), before t now → e.inquiry.OfLife → before (t ++ [e]) now)
    (asks' : ∀ t now r (i : Inquiry), after t now r → i.OfLife → c.asks t now i)
    (onward' : ∀ t now r (e : Exchange), after t now r → e.inquiry.OfLife → after (t ++ [e]) now r)
    (levels : ∀ extra : Trace, (∀ e ∈ extra, e.inquiry.OfLife) → before (t ++ extra) now →
      (Menu.reconcile job.setup job.target now.committed []).Meets c (t ++ extra) now after) :
    job.run.Meets c t now fun t now r => (before t now ∧ ∀ report, r ≠ .ok (.finished report)) ∨
      ∃ level, after t now level ∧ ∀ report, r = .ok (.finished report) → level = .ok report.success := by
  rw [Job.run, meets_bind]
  refine (meets_ask _).mpr ⟨asks _ _ _ h trivial, fun passage _ => ?_⟩
  have h := onward _ _ ⟨.enter .running, passage⟩ h trivial
  rw [onward_ok]
  cases passage with
  | canceled => exact .inl ⟨h, nofun⟩
  | refused => exact .inl ⟨h, nofun⟩
  | entered =>
    dsimp only
    rw [meets_bind]
    refine (meets_request _).mpr ⟨asks _ _ _ h trivial, fun startedAt _ => ?_⟩
    have h := onward _ _ ⟨.world .clock, startedAt⟩ h trivial
    rw [onward_ok, meets_bind, meets_now, onward_ok, meets_bind, meets_attempt]
    rw [List.append_assoc] at h ⊢
    refine (levels _ (by simp [Inquiry.OfLife]) h).mono fun t now r h => ?_
    have last (passage : Passage) := onward' _ _ _ ⟨.enter .finished, passage⟩ h trivial
    rw [onward_ok]
    match r with
    | .error .canceled => exact .inr ⟨_, h, nofun⟩
    | .error .crashed => exact .inr ⟨_, h, nofun⟩
    | .error (.failed error) =>
      dsimp only
      rw [meets_bind]
      refine (meets_ask _).mpr ⟨asks' _ _ _ _ h trivial, fun passage _ => ?_⟩
      rw [onward_ok]
      cases passage <;> exact .inr ⟨_, last _, nofun⟩
    | .ok success =>
      dsimp only
      rw [meets_bind]
      refine (meets_ask _).mpr ⟨asks' _ _ _ _ h trivial, fun passage _ => ?_⟩
      rw [onward_ok]
      cases passage with
      | canceled => exact .inr ⟨_, last _, nofun⟩
      | refused => exact .inr ⟨_, last _, nofun⟩
      | entered =>
        dsimp only
        rw [meets_bind, meets_now, onward_ok, meets_bind]
        have h := last .entered
        refine (meets_request _).mpr ⟨asks' _ _ _ _ h trivial, fun finishedAt _ => ?_⟩
        have h := onward' _ _ _ ⟨.world .clock, finishedAt⟩ h trivial
        have ends (report : Report) (success_eq : report.success = success) :
            ∀ report', (.ok (.finished report) : Except Halt Outcome) = .ok (.finished report') →
              (.ok success : Except Halt Bool) = .ok report'.success := by
          rintro _ ⟨⟩
          rw [success_eq]
        rw [onward_ok]
        split
        · rw [meets_bind]
          refine (meets_request _).mpr ⟨asks' _ _ _ _ h trivial, fun _ _ => .inr ⟨_, ?_, ends _ rfl⟩⟩
          exact onward' _ _ _ ⟨.world (.notify _), ()⟩ h trivial
        · exact .inr ⟨_, h, ends _ rfl⟩

/-- An update keeps what its levels keep, if that does not depend on its life. -/
theorem Job.meets_run {c : Contract} {job : Job} {t : Trace} {now : Progress}
    (keeps : Trace → Progress → Prop) (h : keeps t now)
    (asks : ∀ t now (i : Inquiry), keeps t now → i.OfLife → c.asks t now i)
    (onward : ∀ t now (e : Exchange), keeps t now → e.inquiry.OfLife → keeps (t ++ [e]) now)
    (levels : ∀ extra : Trace, (∀ e ∈ extra, e.inquiry.OfLife) → keeps (t ++ extra) now →
      (Menu.reconcile job.setup job.target now.committed []).Meets c (t ++ extra) now
        fun t now _ => keeps t now) :
    job.run.Meets c t now fun t now _ => keeps t now := by
  refine (Job.meets_run_of_levels h asks onward (fun t now _ => asks t now) (fun t now _ => onward t now)
    levels).mono fun t now r reached => ?_
  rcases reached with ⟨h, -⟩ | ⟨level, h, -⟩ <;> exact h

end RemoteMenu
