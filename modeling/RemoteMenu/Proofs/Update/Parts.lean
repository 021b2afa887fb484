import RemoteMenu.Proofs.Dialogue.Contract
import RemoteMenu.Proofs.Menu.Places
import RemoteMenu.Update.Reconcile

/-!
# Rules for the parts of a level

What the parts that a level is done in ask for, and what they leave behind in the committed menu when
the level is one in its context.
-/

namespace RemoteMenu

def Progress.sending (now : Progress) (batch : List Command) : Progress :=
  { now with stats := { now.stats with
    batchesSent := now.stats.batchesSent + 1, commandsSent := now.stats.commandsSent + batch.length } }

def Progress.answered (now : Progress) (accepted : Bool) : Progress :=
  if accepted then now
  else { now with stats := { now.stats with batchesFailed := now.stats.batchesFailed + 1 } }

@[simp] theorem Progress.committed_sending (now : Progress) (batch : List Command) :
    (now.sending batch).committed = now.committed := rfl

@[simp] theorem Progress.committed_answered (now : Progress) (accepted : Bool) :
    (now.answered accepted).committed = now.committed := by
  cases accepted <;> rfl

def Progress.planned (now : Progress) (plan : LevelPlan) (uploads : UploadReport) : Progress :=
  { now with stats := { now.stats with
    nodesKept := now.stats.nodesKept + plan.pairs.length
    nodesRemoved := now.stats.nodesRemoved + plan.removed.length
    nodesAdded := now.stats.nodesAdded + plan.added.length
    artworksRequested := now.stats.artworksRequested + uploads.requested.length
    artworksFailed := now.stats.artworksFailed + uploads.failed.size } }

/-- Whether an inquiry is about what the host holds of the artworks. -/
def Inquiry.OfArtworks : Inquiry → Prop
  | .world (.holds _) | .world (.upload _) => True
  | _ => False

theorem Inquiry.OfArtworks.aside {i : Inquiry} (h : i.OfArtworks) : i.Aside := by
  cases i with
  | world r => cases r <;> trivial
  | _ => cases h

def Exchange.upload? : Exchange → Option UploadReport
  | ⟨.world (.upload artworks), failed⟩ => some { requested := artworks.map Artwork.name, failed }
  | _ => none

def Trace.uploads (t : Trace) : List UploadReport := t.filterMap Exchange.upload?

@[simp] theorem Trace.uploads_append (s t : Trace) : uploads (s ++ t) = uploads s ++ uploads t :=
  List.filterMap_append

/-- What is asked about the artworks of a menu, and what it comes to: there is one upload at most. -/
structure Fetched (menu : Menu) (extra : Trace) (report : UploadReport) : Prop where
  artworks : ∀ e ∈ extra, e.inquiry.OfArtworks
  requested : report.requested.Sublist (menu.fileArtworks.map Artwork.name)
  uploads : report = {} ∧ extra.uploads = [] ∨ extra.uploads = [report]

theorem Fetched.nothing (menu : Menu) : Fetched menu [] {} := ⟨by simp, List.nil_sublist _, .inl ⟨rfl, rfl⟩⟩

/-- Whether a contract lets questions about artworks be asked after a trace, one after another, while some
menu is committed. -/
def Contract.Questions (c : Contract) (t : Trace) (committed : Menu) : Prop :=
  ∀ extra : Trace, (∀ e ∈ extra, e.inquiry.OfArtworks) → ∀ now : Progress, now.committed = committed →
    ∀ i : Inquiry, i.OfArtworks → c.asks (t ++ extra) now i

namespace Contract.Questions

variable {c : Contract} {t : Trace} {committed : Menu}

theorem here (h : c.Questions t committed) {now : Progress} (same : now.committed = committed) {i : Inquiry}
    (artworks : i.OfArtworks) : c.asks t now i := by
  have asks := h [] (by simp) now same i artworks
  rwa [List.append_nil] at asks

theorem after (h : c.Questions t committed) {extra : Trace} (artworks : ∀ e ∈ extra, e.inquiry.OfArtworks) :
    c.Questions (t ++ extra) committed := by
  intro more artworks' now same i hi
  rw [List.append_assoc]
  exact h _ (List.forall_mem_append.mpr ⟨artworks, artworks'⟩) now same i hi

end Contract.Questions

theorem Contract.Lenient.questions {c : Contract} (h : c.Lenient) (t : Trace) (committed : Menu) :
    c.Questions t committed := fun _ _ _ _ _ artworks => h _ _ _ artworks.aside

theorem Contract.Lenient.polls {c : Contract} (h : c.Lenient) (t : Trace) (now : Progress) :
    c.asks t now .poll := h _ _ _ trivial

namespace Engine

variable {c : Contract} {t : Trace} {now : Progress}

theorem meets_send {post : Trace → Progress → Except Halt Bool → Prop} (batch : List Command) :
    (send batch).Meets c t now post ↔ c.asks t (now.sending batch) (.world (.send batch)) ∧
      ∀ accepted : Bool, c.fair t ⟨.world (.send batch), accepted⟩ →
        post (t ++ [⟨.world (.send batch), accepted⟩]) ((now.sending batch).answered accepted)
          (.ok accepted) := by
  simp only [send, meets_bind, meets_count, onward_ok]
  rw [meets_request]
  refine and_congr_right fun _ => forall_congr' fun accepted => imp_congr_right fun _ => ?_
  cases accepted <;> exact Iff.rfl

theorem meets_sendDeletes {post : Trace → Progress → Except Halt Bool → Prop} {nodes : List Node}
    (none : nodes = [] → post t now (.ok true))
    (some : nodes ≠ [] → (send (Command.deletes nodes)).Meets c t now post) :
    (sendDeletes nodes).Meets c t now post := by
  cases nodes with
  | nil => exact none rfl
  | cons n nodes => exact some (List.cons_ne_nil n nodes)

/-- Additions go out in two batches at most, the second one only if the first was accepted. -/
theorem meets_sendAdds {post : Trace → Progress → Except Halt AddOutcome → Prop} {layout : Layout}
    {parent : Option RemoteId} {plan : LevelPlan}
    (none : plan.added = [] → post t now (.ok ⟨true, true⟩))
    (some : plan.added ≠ [] → (send (Command.adds layout parent plan.new plan.added)).Meets c t now
      fun t now r => match r with
        | .ok true =>
          (Command.nestedAdds layout plan.new plan.added = [] → post t now (.ok ⟨true, true⟩)) ∧
          (Command.nestedAdds layout plan.new plan.added ≠ [] →
            (send (Command.nestedAdds layout plan.new plan.added)).Meets c t now fun t now r =>
              post t now (r.map (⟨true, ·⟩)))
        | .ok false => post t now (.ok ⟨false, false⟩)
        | .error h => post t now (.error h)) :
    (sendAdds layout parent plan).Meets c t now post := by
  unfold sendAdds
  by_cases nothing : plan.added = []
  · rw [if_pos (List.isEmpty_iff.mpr nothing)]
    exact none nothing
  · rw [if_neg (by simpa using nothing), meets_bind]
    refine (some nothing).mono fun t now r after => ?_
    match r with
    | .error h => exact after
    | .ok false => exact after
    | .ok true =>
      rw [onward_ok, if_neg (by simp)]
      by_cases below : Command.nestedAdds layout plan.new plan.added = []
      · rw [if_pos (List.isEmpty_iff.mpr below)]
        exact after.1 below
      · rw [if_neg (by simpa using below), meets_bind]
        refine (after.2 below).mono fun t now r after => ?_
        cases r <;> exact after

theorem meets_missing (asks : c.Questions t now.committed)
    {post : Trace → Progress → Except Halt (List Artwork) → Prop} (artworks : List Artwork)
    (after : ∀ extra : Trace, (∀ e ∈ extra, e.inquiry.OfArtworks) → extra.uploads = [] →
      ∀ left, left.Sublist artworks → post (t ++ extra) now (.ok left)) :
    (missing artworks).Meets c t now post := by
  induction artworks generalizing t post with
  | nil =>
    rw [missing, meets_pure]
    simpa using after [] (by simp) rfl []
  | cons a as ih =>
    simp only [missing, meets_bind]
    refine (meets_request _).mpr ⟨asks.here rfl trivial, fun held _ => ?_⟩
    have other {extra : Trace} (h : ∀ e ∈ extra, e.inquiry.OfArtworks) :
        ∀ e ∈ [⟨.world (.holds a), held⟩] ++ extra, Inquiry.OfArtworks e.inquiry := by
      simpa [Inquiry.OfArtworks] using h
    rw [onward_ok, meets_bind]
    refine ih (asks.after (other (by simp))) fun extra artworks none left among => ?_
    rw [List.append_assoc]
    refine after _ (other artworks) none _ ?_
    cases held with
    | true => exact among.cons a
    | false => exact among.cons_cons a

theorem meets_prefetch (asks : c.Questions t now.committed)
    {post : Trace → Progress → Except Halt UploadReport → Prop} (menu : Menu)
    (after : ∀ extra report, Fetched menu extra report → post (t ++ extra) now (.ok report)) :
    (prefetch menu).Meets c t now post := by
  rw [prefetch, meets_bind]
  refine meets_missing asks _ fun extra artworks none left among => ?_
  rw [onward_ok]
  cases left with
  | nil => exact after extra {} ⟨artworks, List.nil_sublist _, .inl ⟨rfl, none⟩⟩
  | cons a as =>
    refine ⟨(asks.after artworks).here rfl trivial, fun failed _ => ?_⟩
    rw [List.append_assoc]
    refine after _ _ ⟨?_, among.map _, .inr ?_⟩
    · simpa [Inquiry.OfArtworks, or_imp, forall_and] using artworks
    · rw [Trace.uploads_append, none]
      rfl

/-! ### Commits -/

theorem meets_commit {fs : Context} (sound : fs.Sound) {old : Menu} (at_ : now.committed = fs.plug old)
    {post : Trace → Progress → Except Halt Unit → Prop} (level : Menu)
    (after : post t { now with committed := fs.plug level } (.ok ())) :
    (commit fs.path level).Meets c t now post := by
  rw [commit, meets_modify, at_, Context.replaceLevel_plug sound]
  exact after

theorem meets_commitRemovals {fs : Context} (sound : fs.Sound) {old : Menu}
    (at_ : now.committed = fs.plug old) {post : Trace → Progress → Except Halt Unit → Prop}
    (nodes : List Node)
    (after : post t { now with committed := fs.plug (old.filter fun n =>
      !(nodes.any fun gone => gone.remoteId = n.remoteId)) } (.ok ())) :
    (commitRemovals fs.path nodes).Meets c t now post := by
  rw [commitRemovals, meets_bind, meets_now, onward_ok, at_, Context.level?_plug sound]
  exact meets_commit sound at_ _ after

/-! ### The batches of a level -/

theorem meets_then {α β : Type} {m : Engine α} {f g : α → Engine β}
    {post : Trace → Progress → Except Halt β → Prop} (h : (m >>= f).Meets c t now post)
    (weaker : ∀ a t now, (f a).Meets c t now post → (g a).Meets c t now post) :
    (m >>= g).Meets c t now post := by
  rw [meets_bind] at h ⊢
  refine h.mono fun t now r after => ?_
  cases r with
  | ok a => exact weaker a t now after
  | error => exact after

theorem meets_stop (polls : c.asks t now .poll) {α : Type} {f : Unit → Engine α}
    {post : Trace → Progress → Except Halt α → Prop}
    (stop : c.fair t ⟨.poll, true⟩ → post (t ++ [⟨.poll, true⟩]) now (.error .canceled))
    (go : c.fair t ⟨.poll, false⟩ → (f ()).Meets c (t ++ [⟨.poll, false⟩]) now post) :
    (checkpoint >>= f).Meets c t now post := by
  rw [meets_bind, meets_checkpoint]
  refine ⟨polls, fun canceled fair => ?_⟩
  cases canceled with
  | true => exact stop fair
  | false => exact go fair

def deleteStage (path : Path) (plan : LevelPlan) : Engine Bool := do
  let ok ← sendDeletes plan.removed
  if ok && !plan.removed.isEmpty then
    commitRemovals path plan.removed
  return ok

def addStage (setup : Setup) (path : Path) (plan : LevelPlan) (removedOk : Bool) : Engine Bool := do
  let adds ← sendAdds setup.settings.defaultLayout path.getLast? plan
  commit path (plan.committed removedOk adds)
  return removedOk && adds.succeeded

theorem meets_deleteStage {fs : Context} (sound : fs.Sound) {old : Menu}
    (at_ : now.committed = fs.plug old) {plan : LevelPlan}
    {post : Trace → Progress → Except Halt Bool → Prop}
    (nothing : plan.removed = [] → post t now (.ok true))
    (asks : plan.removed ≠ [] → c.asks t (now.sending (Command.deletes plan.removed))
      (.world (.send (Command.deletes plan.removed))))
    (accepted : plan.removed ≠ [] → c.fair t ⟨.world (.send (Command.deletes plan.removed)), true⟩ →
      ∀ now' : Progress, now'.committed = fs.plug (old.filter fun n =>
          !(plan.removed.any fun gone => gone.remoteId = n.remoteId)) →
        post (t ++ [⟨.world (.send (Command.deletes plan.removed)), true⟩]) now' (.ok true))
    (rejected : plan.removed ≠ [] → c.fair t ⟨.world (.send (Command.deletes plan.removed)), false⟩ →
      ∀ now' : Progress, now'.committed = fs.plug old →
        post (t ++ [⟨.world (.send (Command.deletes plan.removed)), false⟩]) now' (.ok false)) :
    (deleteStage fs.path plan).Meets c t now post := by
  rw [deleteStage, meets_bind]
  refine meets_sendDeletes (fun none => ?_) fun some => (meets_send _).mpr ⟨asks some, ?_⟩
  · rw [onward_ok, none]
    exact nothing none
  · intro answer fair
    have here : ((now.sending (Command.deletes plan.removed)).answered answer).committed = fs.plug old := by
      rw [Progress.committed_answered, Progress.committed_sending, at_]
    rw [onward_ok]
    cases answer with
    | true =>
      rw [if_pos (by simpa using some), meets_bind]
      refine meets_commitRemovals sound here _ ?_
      exact accepted some fair _ rfl
    | false => exact rejected some fair _ here

theorem meets_addStage {fs : Context} (sound : fs.Sound) {old : Menu} (at_ : now.committed = fs.plug old)
    {setup : Setup} {plan : LevelPlan} {removedOk : Bool}
    {post : Trace → Progress → Except Halt Bool → Prop} {main nested : List Command}
    (main_eq : main = Command.adds setup.settings.defaultLayout (fs.parent none) plan.new plan.added)
    (nested_eq : nested = Command.nestedAdds setup.settings.defaultLayout plan.new plan.added)
    (nothing : plan.added = [] → ∀ now' : Progress,
      now'.committed = fs.plug (plan.committed removedOk ⟨true, true⟩) → post t now' (.ok removedOk))
    (asks : plan.added ≠ [] → c.asks t (now.sending main) (.world (.send main)))
    (rejected : plan.added ≠ [] → c.fair t ⟨.world (.send main), false⟩ → ∀ now' : Progress,
      now'.committed = fs.plug (plan.committed removedOk ⟨false, false⟩) →
        post (t ++ [⟨.world (.send main), false⟩]) now' (.ok false))
    (alone : plan.added ≠ [] → c.fair t ⟨.world (.send main), true⟩ → nested = [] → ∀ now' : Progress,
      now'.committed = fs.plug (plan.committed removedOk ⟨true, true⟩) →
        post (t ++ [⟨.world (.send main), true⟩]) now' (.ok removedOk))
    (asks' : plan.added ≠ [] → c.fair t ⟨.world (.send main), true⟩ → nested ≠ [] →
      ∀ now' : Progress, now'.committed = fs.plug old →
        c.asks (t ++ [⟨.world (.send main), true⟩]) now' (.world (.send nested)))
    (both : plan.added ≠ [] → c.fair t ⟨.world (.send main), true⟩ → nested ≠ [] → ∀ accepted : Bool,
      c.fair (t ++ [⟨.world (.send main), true⟩]) ⟨.world (.send nested), accepted⟩ → ∀ now' : Progress,
        now'.committed = fs.plug (plan.committed removedOk ⟨true, accepted⟩) →
          post (t ++ [⟨.world (.send main), true⟩] ++ [⟨.world (.send nested), accepted⟩]) now'
            (.ok (removedOk && accepted))) :
    (addStage setup fs.path plan removedOk).Meets c t now post := by
  have record (t : Trace) (now : Progress) (adds : AddOutcome) (here : now.committed = fs.plug old)
      (h : ∀ now' : Progress, now'.committed = fs.plug (plan.committed removedOk adds) →
        post t now' (.ok (removedOk && adds.succeeded))) :
      (do Engine.commit fs.path (plan.committed removedOk adds)
          pure (removedOk && adds.succeeded) : Engine Bool).Meets c t now post := by
    rw [meets_bind]
    refine meets_commit sound here _ ?_
    exact h _ rfl
  rw [addStage, meets_bind, Context.getLast?_path]
  refine meets_sendAdds (fun none => ?_) fun some => ?_
  · refine record _ _ _ at_ fun now' here => ?_
    simpa [AddOutcome.succeeded] using nothing none now' here
  · rw [← main_eq, ← nested_eq]
    refine (meets_send _).mpr ⟨asks some, fun answer fair => ?_⟩
    have here : ((now.sending main).answered answer).committed = fs.plug old := by
      rw [Progress.committed_answered, Progress.committed_sending, at_]
    cases answer with
    | false =>
      refine record _ _ _ here fun now' here => ?_
      simpa [AddOutcome.succeeded] using rejected some fair now' here
    | true =>
      refine ⟨fun leaf => record _ _ _ here fun now' here => ?_, fun below => ?_⟩
      · simpa [AddOutcome.succeeded] using alone some fair leaf now' here
      · refine (meets_send _).mpr ⟨asks' some fair below _ here, fun answer' fair' => ?_⟩
        refine record _ _ _ ?_ fun now' here => ?_
        · rw [Progress.committed_answered, Progress.committed_sending]
          exact here
        · simpa [AddOutcome.succeeded] using both some fair below answer' fair' now' here

/-- What is left of a level after its artworks. -/
def batches (setup : Setup) (path : Path) (plan : LevelPlan) : Engine Bool := do
  checkpoint
  let removedOk ← deleteStage path plan
  checkpoint
  addStage setup path plan removedOk

/-- A level is planned, deals with its artworks if that is called for, and has its batches left then. -/
theorem meets_applyPlan_of_prefetch {setup : Setup} {path : Path} {plan : LevelPlan}
    {post : Trace → Progress → Except Halt Bool → Prop}
    (skip : (path.isEmpty && setup.uploads && setup.settings.prefetchArtworks) = false →
      (batches setup path plan).Meets c t (now.planned plan {}) post)
    (fetch : (path.isEmpty && setup.uploads && setup.settings.prefetchArtworks) = true →
      (prefetch plan.new).Meets c t (now.planned plan {}) fun t now' r => ∃ report, r = .ok report ∧
        now' = now.planned plan {} ∧ (batches setup path plan).Meets c t (now.planned plan report) post) :
    (applyPlan setup path plan).Meets c t now post := by
  rw [applyPlan, meets_bind, meets_count, onward_ok]
  extract_lets rest
  have level (t : Trace) (now : Progress) (h : (batches setup path plan).Meets c t now post) :
      (rest ()).Meets c t now post := by
    refine meets_then h fun _ t now h => ?_
    rw [meets_bind, deleteStage, meets_bind] at h
    rw [meets_bind]
    refine h.mono fun t now r h => ?_
    cases r with
    | error => exact h
    | ok ok =>
      rw [onward_ok] at h ⊢
      by_cases gone : (ok && !plan.removed.isEmpty) = true
      · rw [if_pos gone, meets_bind] at h ⊢
        refine h.mono fun t now r h => ?_
        cases r <;> exact h
      · rw [if_neg gone] at h ⊢
        exact h
  split
  · next wanted =>
    rw [meets_bind]
    refine (fetch wanted).mono fun t now' r fetched => ?_
    obtain ⟨report, rfl, rfl, left⟩ := fetched
    rw [onward_ok, meets_bind, meets_count, onward_ok]
    exact level _ _ left
  · next unwanted => exact level _ _ (skip (Bool.eq_false_iff.mpr unwanted))

/-- A level that is planned and whose artworks are dealt with has its batches left. -/
theorem meets_applyPlan_of_fetched (asks : c.Questions t now.committed) {setup : Setup} {path : Path}
    {plan : LevelPlan} {post : Trace → Progress → Except Halt Bool → Prop}
    (after : ∀ extra report, (path ≠ [] → extra = []) → Fetched plan.new extra report →
      (batches setup path plan).Meets c (t ++ extra) (now.planned plan report) post) :
    (applyPlan setup path plan).Meets c t now post := by
  refine meets_applyPlan_of_prefetch (fun _ => ?_) fun wanted => ?_
  · have here := after [] {} (fun _ => rfl) (.nothing _)
    rwa [List.append_nil] at here
  · refine meets_prefetch (by exact asks) _ fun extra report fetched => ?_
    refine ⟨report, rfl, rfl, after extra report (fun inner => ?_) fetched⟩
    simp [inner] at wanted

theorem meets_applyPlan (asks : c.Questions t now.committed) {setup : Setup} {path : Path} {plan : LevelPlan}
    {post : Trace → Progress → Except Halt Bool → Prop}
    (after : ∀ (extra : Trace) (now' : Progress), (∀ e ∈ extra, e.inquiry.OfArtworks) →
      now'.committed = now.committed → now'.stats.commandsSent = now.stats.commandsSent →
      (batches setup path plan).Meets c (t ++ extra) now' post) :
    (applyPlan setup path plan).Meets c t now post :=
  meets_applyPlan_of_fetched asks fun extra _ _ fetched => after extra _ fetched.artworks rfl rfl

end Engine

/-! ### Levels below levels -/

section
variable {setup : Setup} {P : Menu → Descent → Prop}

mutual

theorem Node.descent_induction (level : ∀ (new : Menu) (descents : List Descent), (∀ (j : Nat) (n : Node),
    new[j]? = some n → ∃ d, descents[j]? = some d ∧ P n.children d) → P new (reconcileWith setup descents new)) :
    (n : Node) → P n.children (n.descent setup)
  | ⟨_, children, _, _, _⟩ => by
    rw [Node.descent]
    exact level _ _ (Menu.descents_induction level children)

theorem Menu.descents_induction (level : ∀ (new : Menu) (descents : List Descent), (∀ (j : Nat) (n : Node),
    new[j]? = some n → ∃ d, descents[j]? = some d ∧ P n.children d) → P new (reconcileWith setup descents new)) :
    (menu : Menu) → ∀ (j : Nat) (n : Node), menu[j]? = some n →
      ∃ d, (Menu.descents setup menu)[j]? = some d ∧ P n.children d
  | [], j, n, h => by simp at h
  | n :: ns, 0, n', h => by
    rw [Menu.descents]
    obtain rfl : n = n' := by simpa using h
    exact ⟨_, rfl, Node.descent_induction level n⟩
  | n :: ns, j + 1, n', h => by
    rw [Menu.descents]
    exact Menu.descents_induction level ns j n' h

end

/-- What holds of the way into a level if it does of those below its new nodes holds of every menu. -/
theorem Menu.reconcile_induction (level : ∀ (new : Menu) (descents : List Descent), (∀ (j : Nat) (n : Node),
    new[j]? = some n → ∃ d, descents[j]? = some d ∧ P n.children d) → P new (reconcileWith setup descents new))
    (new : Menu) : P new (new.reconcile setup) :=
  level _ _ (Menu.descents_induction level new)

end

end RemoteMenu
