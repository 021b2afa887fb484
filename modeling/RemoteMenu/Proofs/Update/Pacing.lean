import RemoteMenu.Proofs.Update.Flow
import RemoteMenu.Proofs.Update.Outcome

/-!
# What an update still sends once it was told to stop

An update asks whether it is to go on before each deletion and before the additions of each level; only
what is below added nodes goes out without being asked for. So an operation that was asked to stop sends
no batch any more but the one that it waits with, and what is below its nodes if these were just added
(`Dialogue.Keeps.closes`).
-/

namespace RemoteMenu

open Engine

/-! ### What is below added nodes -/

section
variable {layout : Layout}

theorem Node.addsBelow_eq_nil_iff (n : Node) : n.addsBelow layout = [] ↔ n.children = [] := by
  obtain ⟨_, children, _, _, _⟩ := n
  rw [Node.addsBelow]
  cases children <;> simp [Menu.addsFrom]

/-- There is something below added nodes just if one of them has children. -/
theorem Command.nestedAdds_ne_nil_iff {level : Menu} {added : List Nat} :
    nestedAdds layout level added ≠ [] ↔ ∃ i ∈ added, ∃ n, level[i]? = some n ∧ n.children ≠ [] := by
  rw [nestedAdds, ne_eq, List.flatMap_eq_nil_iff]
  push Not
  refine exists_congr fun i => and_congr_right fun _ => ?_
  cases level[i]? <;> simp [Node.addsBelow_eq_nil_iff]

end

/-! ### The batches of an update -/

inductive Purpose
  | deletion
  | addition
  /-- To add what is below the nodes that were added. -/
  | descendants
  deriving DecidableEq

/-- A batch of an update: of which level, and for what. -/
structure Stage where
  purpose : Purpose
  path : Path
  plan : LevelPlan

namespace Stage

variable (layout : Layout)

def batch (s : Stage) : List Command :=
  match s.purpose with
  | .deletion => Command.deletes s.plan.removed
  | .addition => Command.adds layout s.path.getLast? s.plan.new s.plan.added
  | .descendants => Command.nestedAdds layout s.plan.new s.plan.added

/-- What goes out after a batch of an update that is to stop: what is below the added nodes, if they
could be added and there is anything. -/
def rest (s : Stage) (accepted : Bool) : List (List Command) :=
  match s.purpose, accepted with
  | .addition, true => [Command.nestedAdds layout s.plan.new s.plan.added].filter (!·.isEmpty)
  | _, _ => []

theorem rest_rejected (s : Stage) : s.rest layout false = [] := by
  obtain ⟨purpose, path, plan⟩ := s
  cases purpose <;> rfl

theorem rest_descendants {s : Stage} (h : s.purpose = .descendants) (accepted : Bool) :
    s.rest layout accepted = [] := by
  obtain ⟨purpose, path, plan⟩ := s
  cases h
  rfl

theorem rest_ne_nil_iff (s : Stage) (accepted : Bool) : s.rest layout accepted ≠ [] ↔ s.purpose = .addition ∧
    accepted = true ∧ ∃ i ∈ s.plan.added, ∃ n, s.plan.new[i]? = some n ∧ n.children ≠ [] := by
  obtain ⟨purpose, path, plan⟩ := s
  rw [← @Command.nestedAdds_ne_nil_iff layout]
  cases purpose <;> cases accepted <;> simp [rest]

/-- Whether a batch may come next after a trace. -/
def Due (t : Trace) (s : Stage) : Prop :=
  match s.purpose with
  | .deletion | .addition => ∃ u : Trace, t = u ++ [⟨.poll, false⟩]
  | .descendants => ∃ u : Trace,
      t = u ++ [⟨.poll, false⟩, ⟨.world (.send ({ s with purpose := .addition }.batch layout)), true⟩]

end Stage

/-- Whether nothing has to follow: what went out last was not the addition of nodes with something below
them. -/
def Trace.Calm (target current : Menu) (layout : Layout) (t : Trace) : Prop :=
  ∀ (u : Trace) (main : List Command), t = u ++ [⟨.poll, false⟩, ⟨.world (.send main), true⟩] →
    ∃ s : Stage, Plans target current s.path s.plan ∧ s.purpose ≠ .descendants ∧ s.batch layout = main ∧
      s.rest layout true = []

/-- Whatever is asked, every batch comes when it may, and nothing else comes in between. -/
def pacing (target current : Menu) (layout : Layout) : Contract where
  fair _ _ := True
  asks t _
    | .world (.send batch) => batch ≠ [] ∧
      ∃ s : Stage, Plans target current s.path s.plan ∧ s.Due layout t ∧ s.batch layout = batch
    | .reserve _ => t.Told
    | _ => t.Calm target current layout

section
variable {target current : Menu} {layout : Layout} {t : Trace}

theorem Trace.calm_snoc {e : Exchange} (h : e.batch? = none) : Calm target current layout (t ++ [e]) := by
  intro u main split
  rw [List.append_cons u] at split
  obtain rfl : e = ⟨.world (.send main), true⟩ := by
    simpa using (List.append_inj' split rfl).2
  cases h

theorem Trace.Calm.aside (h : t.Calm target current layout) {extra : Trace}
    (aside : ∀ e ∈ extra, e.inquiry.Aside) : Calm target current layout (t ++ extra) := by
  rcases List.eq_nil_or_concat extra with rfl | ⟨front, e, rfl⟩
  · rwa [List.append_nil]
  · rw [List.concat_eq_append, ← List.append_assoc]
    exact calm_snoc (Exchange.aside_spec (aside e (by simp))).1

theorem Trace.Told.calm (h : t.Told) : t.Calm target current layout := by
  obtain ⟨u, rfl⟩ := h
  exact calm_snoc rfl

theorem Trace.Told.calm_send (h : t.Told) {s : Stage} (planned : Plans target current s.path s.plan)
    (opens : s.purpose ≠ .descendants) {accepted : Bool} (alone : accepted = true → s.rest layout true = []) :
    Calm target current layout (t ++ [⟨.world (.send (s.batch layout)), accepted⟩]) := by
  obtain ⟨v, rfl⟩ := h
  intro u main split
  rw [List.append_cons u] at split
  obtain ⟨rfl, rfl⟩ : s.batch layout = main ∧ accepted = true := by
    simpa using (List.append_inj' split rfl).2
  exact ⟨s, planned, opens, rfl, alone rfl⟩

/-- Nodes that are to be added make a batch that is not empty. -/
theorem Plans.adds_ne_nil {path : Path} {plan : LevelPlan} (planned : Plans target current path plan)
    (some : plan.added ≠ []) (parent : Option RemoteId) : Command.adds layout parent plan.new plan.added ≠ [] := by
  obtain ⟨new, old, m, ids, -, found, rfl⟩ := planned
  have fits := Matching.fits_of_ofKeys found
  obtain ⟨j, hj⟩ := List.exists_mem_of_ne_nil _ some
  have bound : j < (m.plan ids old new).new.length := by
    have inside := fits.new_perm.mem_iff.mp (List.mem_append_right _ hj)
    rw [List.mem_range, List.length_map] at inside
    rwa [Matching.plan, List.length_map, fits.length_seats]
  have add : Command.add ((m.plan ids old new).new[j].addition parent j layout) ∈
      Command.adds layout parent (m.plan ids old new).new (m.plan ids old new).added := by
    refine List.mem_filterMap.mpr ⟨j, hj, ?_⟩
    rw [List.getElem?_eq_getElem bound]
    rfl
  exact List.ne_nil_of_mem add

theorem flow_pacing (target current : Menu) (layout : Layout) :
    Flow (pacing target current layout) target current layout (Trace.Calm target current layout) Trace.Told
      (Trace.Calm target current layout) := by
  constructor
  · intro t calm _ i aside
    cases i with
    | enter => cases aside
    | reserve => cases aside
    | poll => exact calm
    | world r =>
      cases r with
      | send => cases aside
      | _ => exact calm
  · exact fun told => told.calm
  · exact fun _ _ => Trace.calm_snoc rfl
  · exact fun _ _ => ⟨_, rfl⟩
  · exact fun calm artworks => calm.aside fun e he => (artworks e he).aside
  · exact fun told _ _ => ⟨told, fun _ _ => Trace.calm_snoc rfl⟩
  · intro t path plan told planned some
    refine ⟨fun _ => ⟨?_, ⟨.deletion, path, plan⟩, planned, told, rfl⟩,
      fun _ _ => told.calm_send (s := ⟨.deletion, path, plan⟩) planned (by simp) fun _ => rfl⟩
    simpa [Command.deletes] using some
  · intro t path plan told planned some main nested
    refine ⟨fun _ => ⟨planned.adds_ne_nil some _, ⟨.addition, path, plan⟩, planned, told, rfl⟩,
      fun _ => told.calm_send (s := ⟨.addition, path, plan⟩) planned (by simp) (by simp),
      fun _ => ⟨fun leaf => ?_, fun below _ => ?_, fun _ _ _ => ?_⟩⟩
    · refine told.calm_send (s := ⟨.addition, path, plan⟩) planned (by simp) fun _ => ?_
      have leaf : Command.nestedAdds layout plan.new plan.added = [] := leaf
      simp [Stage.rest, leaf]
    · obtain ⟨u, rfl⟩ := told
      refine ⟨below, ⟨.descendants, path, plan⟩, planned, ⟨u, ?_⟩, rfl⟩
      rw [List.append_assoc]
      rfl
    · -- Something was sent twice in a row here.
      obtain ⟨v, rfl⟩ := told
      intro u batch split
      rw [List.append_cons u] at split
      have before := congrArg List.getLast? (List.append_inj' split rfl).1
      simp at before

theorem Job.keeps_pacing (job : Job) (current : Menu) :
    (job.run { committed := current }).Keeps (pacing job.target current job.setup.settings.defaultLayout)
      (fun t _ _ => t.Calm job.target current job.setup.settings.defaultLayout) [] := by
  let calm (t : Trace) := t.Calm job.target current job.setup.settings.defaultLayout
  refine Job.meets_run (fun t _ => calm t) ?_ ?_ ?_ ?_
  · intro u main split
    simp at split
  · intro t now i h life
    cases i with
    | enter => exact h
    | world r => cases r <;> first | exact h | cases life
    | _ => cases life
  · intro t now e h life
    refine Trace.calm_snoc ?_
    obtain ⟨inquiry, reply⟩ := e
    cases inquiry with
    | enter => rfl
    | world r => cases r <;> first | rfl | cases life
    | _ => cases life
  · intro extra _ h
    refine ((flow_pacing job.target current _).meets_reconcile rfl h).mono fun t now r passes => ?_
    cases r with
    | ok => exact passes
    | error => exact passes.2

end

/-! ### After a request to stop -/

theorem Operation.Moves.told {op op' : Operation} {t : Trace} (h : op.Moves t op')
    (asked : op.lifecycle.cancelRequested = true) : (⟨.poll, false⟩ : Exchange) ∉ t := by
  induction h with
  | rest => exact List.not_mem_nil
  | @stop op op' t _ ih =>
    refine ih ?_
    rcases op.lifecycle.cancel_cases with same | canceled
    · exact (congrArg Lifecycle.cancelRequested same).trans asked
    · exact canceled
  | @step op op' t answers _ ih =>
    rw [List.mem_append, not_or]
    refine ⟨?_, ih ((proceed_cancelRequested op answers).trans asked)⟩
    obtain ⟨l, task⟩ := op
    cases task with
    | crashed => exact List.not_mem_nil
    | live d =>
      cases d with
      | done => exact List.not_mem_nil
      | ask inquiry now next =>
        intro member
        have same := List.mem_singleton.mp member
        cases inquiry with
        | poll =>
          have reply : false = l.lifecycle.cancelRequested := eq_of_heq (Exchange.mk.inj same).2
          rw [show l.lifecycle.cancelRequested = true from asked] at reply
          cases reply
        | _ => cases (Exchange.mk.inj same).1

theorem suffix_of_not_mem {α : Type} {x : α} {a b v w : List α} (h : a ++ b = v ++ x :: w) (free : x ∉ b) :
    b <:+ w := by
  rcases List.append_eq_append_iff.mp h with ⟨c, -, rfl⟩ | ⟨c, rfl, split⟩
  · simp at free
  · cases c with
    | nil =>
      rw [List.nil_append] at split
      simp [← split] at free
    | cons y c => exact ⟨c, (List.cons.inj split).2.symm⟩

/-- What is due to an update that was not told to go on for a while is just what is below the nodes that
were added last. -/
theorem Stage.Due.late {layout : Layout} {s : Stage} {t u : Trace} (due : s.Due layout (t ++ u))
    (stopped : (⟨.poll, false⟩ : Exchange) ∉ u) :
    u = [] ∨ s.purpose = .descendants ∧
      u = [⟨.world (.send ({ s with purpose := .addition }.batch layout)), true⟩] := by
  have opens (told : (t ++ u).Told) : u = [] := by
    obtain ⟨v, split⟩ := told
    exact List.suffix_nil.mp (suffix_of_not_mem split stopped)
  obtain ⟨purpose, path, plan⟩ := s
  cases purpose with
  | deletion => exact .inl (opens due)
  | addition => exact .inl (opens due)
  | descendants =>
    obtain ⟨v, split⟩ := due
    rcases List.suffix_cons_iff.mp (suffix_of_not_mem split stopped) with same | none
    · exact .inr ⟨rfl, same⟩
    · exact .inl (List.suffix_nil.mp none)

def Dialogue.sends? {α : Type} : Dialogue α → Option (List Command)
  | .ask (.world (.send batch)) _ _ => some batch
  | _ => none

theorem Operation.pending?_eq_send {op : Operation} {d : Dialogue (Except Halt Outcome)} (live : op.task = .live d)
    (batch : List Command) : op.pending? = some (.send batch) ↔ d.sends? = some batch := by
  rw [pending?, live]
  match d with
  | .done _ _ | .ask (.enter _) _ _ | .ask .poll _ _ | .ask (.reserve _) _ _ => exact ⟨nofun, nofun⟩
  | .ask (.world .clock) _ _ | .ask (.world (.holds _)) _ _ | .ask (.world (.upload _)) _ _
  | .ask (.world (.notify _)) _ _ => exact ⟨nofun, nofun⟩
  | .ask (.world (.send _)) _ _ => simp [Dialogue.sends?]

section
variable {target current : Menu} {layout : Layout} {α : Type} {d d' : Dialogue α} {t u : Trace}

abbrev Calmly (target current : Menu) (layout : Layout) (t : Trace) (_ : Progress) (_ : α) : Prop :=
  t.Calm target current layout

theorem Dialogue.Runs.sends {batch : List Command} {accepted : Bool}
    (runs : d.Runs (⟨.world (.send batch), accepted⟩ :: u) d') : d.sends? = some batch := by
  cases runs
  rfl

theorem fair_pacing (t u : Trace) : (pacing target current layout).Fair t u := by
  induction u generalizing t with
  | nil => trivial
  | cons e u ih => exact ⟨trivial, ih _⟩

/-- A dialogue that does not wait with a batch sends none if it is not told to go on. -/
theorem Dialogue.Keeps.quiet (h : d.Keeps (pacing target current layout) (Calmly target current layout) t)
    (idle : d.sends? = none) (runs : d.Runs u d') (stopped : (⟨.poll, false⟩ : Exchange) ∉ u) :
    u.batches = [] := by
  refine List.filterMap_eq_nil_iff.mpr fun e he => ?_
  obtain ⟨a, v, rfl⟩ := List.append_of_mem he
  -- Only the first exchange can have been a batch, or the one after a batch.
  match e with
  | ⟨.enter _, _⟩ | ⟨.poll, _⟩ | ⟨.reserve _, _⟩ => rfl
  | ⟨.world .clock, _⟩ | ⟨.world (.holds _), _⟩ | ⟨.world (.upload _), _⟩ | ⟨.world (.notify _), _⟩ => rfl
  | ⟨.world (.send batch), accepted⟩ =>
    obtain ⟨now, -, s, -, due, -⟩ := h.asked runs (fair_pacing t _) rfl
    rcases due.late fun later => stopped (List.mem_append_left _ later) with rfl | ⟨-, rfl⟩
    · rw [runs.sends] at idle
      cases idle
    · rw [List.cons_append] at runs
      rw [runs.sends] at idle
      cases idle

/-- A dialogue that is not about to draw ids draws none if it is not told to go on. -/
theorem Dialogue.Keeps.reserves_none
    (h : d.Keeps (pacing target current layout) (Calmly target current layout) t)
    (idle : ∀ count now next, d ≠ .ask (.reserve count) now next) (runs : d.Runs u d')
    (stopped : (⟨.poll, false⟩ : Exchange) ∉ u) : ∀ e ∈ u, ∀ count, e.inquiry ≠ .reserve count := by
  intro e he count reserve
  obtain ⟨a, v, rfl⟩ := List.append_of_mem he
  obtain ⟨now, asks⟩ := h.asked runs (fair_pacing t _) rfl
  rw [reserve] at asks
  obtain ⟨w, split⟩ := asks
  have first : a = [] :=
    List.suffix_nil.mp (suffix_of_not_mem split fun later => stopped (List.mem_append_left _ later))
  subst first
  cases runs with
  | answered =>
    obtain rfl : _ = Inquiry.reserve count := reserve
    exact idle _ _ _ rfl

theorem Dialogue.eq_of_sends {batch : List Command} (h : d.sends? = some batch) :
    ∃ now next, d = .ask (.world (.send batch)) now next := by
  match d, h with
  | .ask (.world (.send _)) now next, rfl => exact ⟨now, next, rfl⟩

/-- After a batch, a dialogue sends another one at once only if this is what is below the nodes just added. -/
theorem Dialogue.Keeps.below {batch below : List Command} {accepted : Bool}
    (h : d.Keeps (pacing target current layout) (Calmly target current layout)
      (t ++ [⟨.world (.send batch), accepted⟩])) (sends : d.sends? = some below) :
    accepted = true ∧ t.Told ∧ ∃ path plan, Plans target current path plan ∧
      (⟨.addition, path, plan⟩ : Stage).batch layout = batch ∧
      (⟨.addition, path, plan⟩ : Stage).rest layout true = [below] := by
  obtain ⟨now, next, rfl⟩ := eq_of_sends sends
  obtain ⟨⟨some, ⟨purpose, path, plan⟩, planned, due, rfl⟩, -⟩ := h
  rcases due.late (by simp) with none | ⟨rfl, -⟩
  · cases none
  · obtain ⟨v, split⟩ := due
    rw [List.append_cons v] at split
    obtain ⟨rfl, last⟩ := List.append_inj' split rfl
    obtain ⟨rfl, rfl⟩ : batch = (⟨.addition, path, plan⟩ : Stage).batch layout ∧ accepted = true := by
      simpa using last
    refine ⟨rfl, ⟨v, rfl⟩, path, plan, planned, rfl, ?_⟩
    simpa [Stage.rest, Stage.batch] using some

/-- Where a dialogue goes on without a batch, nothing had to follow. -/
theorem Dialogue.Keeps.calm {e : Exchange}
    (h : d.Keeps (pacing target current layout) (Calmly target current layout) (t ++ [e]))
    (sent : e.inquiry ≠ .poll) (idle : d.sends? = none) : Trace.Calm target current layout (t ++ [e]) := by
  match d with
  | .done now a => exact h
  | .ask (.enter _) _ _ | .ask .poll _ _ => exact h.1
  | .ask (.world .clock) _ _ | .ask (.world (.holds _)) _ _ | .ask (.world (.upload _)) _ _
  | .ask (.world (.notify _)) _ _ => exact h.1
  | .ask (.world (.send _)) _ _ => cases idle
  | .ask (.reserve _) _ _ =>
    obtain ⟨v, split⟩ := h.1
    obtain rfl : e = ⟨.poll, false⟩ := by simpa using (List.append_inj' split rfl).2
    exact absurd rfl sent

/-- A dialogue that waits with a batch goes on to what still has to follow that batch. -/
theorem Dialogue.Keeps.stage {batch : List Command} {now : Progress} {next : Bool → Dialogue α}
    (h : (Dialogue.ask (.world (.send batch)) now next).Keeps (pacing target current layout)
      (Calmly target current layout) t) :
    batch ≠ [] ∧ ∃ s : Stage, Plans target current s.path s.plan ∧ s.Due layout t ∧ s.batch layout = batch ∧
      ∀ accepted, (next accepted).sends?.toList = s.rest layout accepted := by
  obtain ⟨⟨some, s, planned, due, rfl⟩, keeps⟩ := h
  refine ⟨some, ?_⟩
  have rejected : (next false).sends? = none := by
    cases sends : (next false).sends? with
    | none => rfl
    | some below => cases ((keeps false trivial).below sends).1
  have closes (s : Stage) (follows : (next true).sends?.toList = s.rest layout true) (accepted : Bool) :
      (next accepted).sends?.toList = s.rest layout accepted := by
    cases accepted with
    | true => exact follows
    | false => rw [rejected, s.rest_rejected]; rfl
  cases sends : (next true).sends? with
  | some below =>
    obtain ⟨-, told, path, plan, planned, same, rest⟩ := (keeps true trivial).below sends
    exact ⟨⟨.addition, path, plan⟩, planned, told, same, closes _ (by rw [sends, rest]; rfl)⟩
  | none =>
    have calm := (keeps true trivial).calm nofun sends
    by_cases opens : s.purpose = .descendants
    · exact ⟨s, planned, due, rfl, closes s (by rw [sends, Stage.rest_descendants layout opens]; rfl)⟩
    · have told : t.Told := by
        obtain ⟨purpose, path, plan⟩ := s
        cases purpose <;> first | exact due | exact absurd rfl opens
      obtain ⟨v, rfl⟩ := told
      obtain ⟨s', planned', opens', same, rest⟩ := calm v _ (by rw [List.append_assoc]; rfl)
      refine ⟨s', planned', ?_, same, closes s' (by rw [sends, rest]; rfl)⟩
      obtain ⟨purpose, path, plan⟩ := s'
      cases purpose <;> first | exact ⟨v, rfl⟩ | exact absurd rfl opens'

/-- Whether batches with their answers are what a dialogue may send yet that is to stop and waits with the
batch of a stage: nothing but this batch and what still follows it, and all of that by the end. -/
def Stage.Closes (layout : Layout) (s : Stage) (ended : Bool) (log : List (List Command × Bool)) : Prop :=
  (log = [] ∧ ended = false) ∨ ∃ accepted more, log = (s.batch layout, accepted) :: more ∧
    more.map Prod.fst <+: s.rest layout accepted ∧
    (ended = true → more.map Prod.fst = s.rest layout accepted)

def Dialogue.isDone : Dialogue α → Bool
  | .done _ _ => true
  | .ask _ _ _ => false

/-- A dialogue that waits with a batch sends what still follows it and then nothing any more. -/
theorem Dialogue.Keeps.closes {batch : List Command} (sends : d.sends? = some batch)
    (h : d.Keeps (pacing target current layout) (Calmly target current layout) t) :
    batch ≠ [] ∧ ∃ s : Stage, Plans target current s.path s.plan ∧ s.Due layout t ∧ s.batch layout = batch ∧
      ∀ u d', d.Runs u d' → (⟨.poll, false⟩ : Exchange) ∉ u → s.Closes layout d'.isDone u.batches := by
  obtain ⟨now, next, rfl⟩ := eq_of_sends sends
  obtain ⟨some, s, planned, due, rfl, follows⟩ := h.stage
  refine ⟨some, s, planned, due, rfl, fun u d' runs stopped => ?_⟩
  cases runs with
  | rest => exact .inl ⟨rfl, rfl⟩
  | @answered _ _ _ accepted u _ further =>
    have onward := h.2 accepted trivial
    have stopped := fun later => stopped (List.mem_cons_of_mem _ later)
    have rest := follows accepted
    refine .inr ⟨accepted, u.batches, rfl, ?_⟩
    cases sends : (next accepted).sends? with
    | none =>
      rw [onward.quiet sends further stopped, ← rest, sends]
      exact ⟨List.nil_prefix, fun _ => rfl⟩
    | some below =>
      rw [← rest, sends]
      obtain ⟨now', next', same⟩ := eq_of_sends sends
      rw [same] at further onward
      cases further with
      | rest => exact ⟨List.nil_prefix, nofun⟩
      | @answered _ _ _ accepted' u' _ further =>
        have onward := onward.2 accepted' trivial
        have idle : (next' accepted').sends? = none := by
          cases third : (next' accepted').sends? with
          | none => rfl
          | some =>
            -- Before a batch that something has to follow, the update was told to go on.
            obtain ⟨-, ⟨v, told⟩, -⟩ := onward.below third
            cases (List.append_inj' told rfl).2
        have quiet := onward.quiet idle further fun later => stopped (List.mem_cons_of_mem _ later)
        have log : Trace.batches (⟨.world (.send below), accepted'⟩ :: u') = [(below, accepted')] :=
          congrArg ((below, accepted') :: ·) quiet
        rw [log]
        exact ⟨List.prefix_refl _, fun _ => rfl⟩

end

end RemoteMenu
