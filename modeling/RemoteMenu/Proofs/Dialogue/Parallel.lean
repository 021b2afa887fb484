import RemoteMenu.Proofs.Dialogue.Contract
import RemoteMenu.Update.Operation

/-!
# Parallel dialogues

Two dialogues are parallel if they ask the same of their operation and send the same batches, whatever the
answers are, while each may ask for the time and about artworks in between. How they end is compared by a
relation. In two worlds with the same channel, parallel dialogues send the same (`Dialogue.Parallel.playIn`).
Parts of updates are shown to be parallel by one rule for each way to put parts together
(`Engine.Parallel.bind`), where what is silent may be on one side only (`Engine.Parallel.after`).
-/

namespace RemoteMenu

/-- Whether parallel dialogues have to ask an inquiry at the same time. -/
def Inquiry.Joint : Inquiry → Prop
  | .enter _ | .poll | .reserve _ | .world (.send _) => True
  | .world _ => False

namespace Dialogue

variable {α β γ δ : Type}

/-- Whether two dialogues ask the same where it matters, and end as `ends` says. -/
inductive Parallel (ends : Progress → α → Progress → β → Prop) : Dialogue α → Dialogue β → Prop
  | done {now now' : Progress} {a : α} {b : β} (both : ends now a now' b) : Parallel ends (.done now a) (.done now' b)
  | ask {inquiry : Inquiry} {now now' : Progress} {next : inquiry.Reply → Dialogue α}
      {next' : inquiry.Reply → Dialogue β} (joint : inquiry.Joint)
      (onward : ∀ reply, Parallel ends (next reply) (next' reply)) :
      Parallel ends (.ask inquiry now next) (.ask inquiry now' next')
  | left {inquiry : Inquiry} {now : Progress} {next : inquiry.Reply → Dialogue α} {d : Dialogue β}
      (own : ¬ inquiry.Joint) (onward : ∀ reply, Parallel ends (next reply) d) :
      Parallel ends (.ask inquiry now next) d
  | right {inquiry : Inquiry} {now : Progress} {next : inquiry.Reply → Dialogue β} {d : Dialogue α}
      (own : ¬ inquiry.Joint) (onward : ∀ reply, Parallel ends d (next reply)) :
      Parallel ends d (.ask inquiry now next)

namespace Parallel

theorem symm {ends : Progress → α → Progress → β → Prop} {ends' : Progress → β → Progress → α → Prop}
    {d : Dialogue α} {d' : Dialogue β} (h : Parallel ends d d')
    (swap : ∀ now a now' b, ends now a now' b → ends' now' b now a) : Parallel ends' d' d := by
  induction h with
  | done both => exact .done (swap _ _ _ _ both)
  | ask joint _ ih => exact .ask joint ih
  | left own _ ih => exact .right own ih
  | right own _ ih => exact .left own ih

theorem andThen {ends : Progress → α → Progress → β → Prop} {ends' : Progress → γ → Progress → δ → Prop}
    {d : Dialogue α} {d' : Dialogue β} {f : Progress → α → Dialogue γ} {f' : Progress → β → Dialogue δ}
    (h : Parallel ends d d')
    (onward : ∀ now a now' b, ends now a now' b → Parallel ends' (f now a) (f' now' b)) :
    Parallel ends' (d.andThen f) (d'.andThen f') := by
  induction h with
  | done both => exact onward _ _ _ _ both
  | ask joint _ ih => exact .ask joint ih
  | left own _ ih => exact .left own ih
  | right own _ ih => exact .right own ih

end Parallel

end Dialogue

/-! ### Worlds -/

/-- How a host answers a batch, after the batches before it with their answers. -/
abbrev Channel := List (List Command × Bool) → List Command → Bool

/-- Everything that an update meets with, given what was asked of the world so far. -/
structure World where
  channel : Channel
  clock : Trace → Timestamp
  holds : Trace → Artwork → Bool
  upload : Trace → List Artwork → UploadErrors

namespace World

def reply (w : World) (t : Trace) : Answers
  | .clock => w.clock t
  | .holds artwork => w.holds t artwork
  | .upload artworks => w.upload t artworks
  | .send batch => w.channel t.batches batch
  | .notify _ => ()

def answer (w : World) (request : Request) : StateM Trace request.Reply := fun t =>
  (w.reply t request, t ++ [⟨.world request, w.reply t request⟩])

end World

namespace Dialogue

variable {α β : Type}

def playIn (w : World) (d : Dialogue α) (l : Local) (t : Trace) : ((Progress × α) × Local) × Trace :=
  (d.play (Local.answer w.answer)).run l |>.run t

@[simp] theorem playIn_done (w : World) (now : Progress) (a : α) (l : Local) (t : Trace) :
    playIn w (.done now a) l t = (((now, a), l), t) := rfl

theorem playIn_world (w : World) (r : Request) (now : Progress) (next : r.Reply → Dialogue α) (l : Local)
    (t : Trace) :
    playIn w (.ask (.world r) now next) l t =
      playIn w (next (w.reply t r)) l (t ++ [⟨.world r, w.reply t r⟩]) := rfl

theorem playIn_enter (w : World) (state : OperationState) (now : Progress) (next : Passage → Dialogue α) (l : Local)
    (t : Trace) :
    playIn w (.ask (.enter state) now next) l t =
      playIn w (next (l.lifecycle.enter state).1) { l with lifecycle := (l.lifecycle.enter state).2 } t := rfl

theorem playIn_poll (w : World) (now : Progress) (next : Bool → Dialogue α) (l : Local) (t : Trace) :
    playIn w (.ask .poll now next) l t = playIn w (next l.lifecycle.cancelRequested) l t := rfl

theorem playIn_reserve (w : World) (count : Nat) (now : Progress) (next : IdSupply → Dialogue α) (l : Local)
    (t : Trace) :
    playIn w (.ask (.reserve count) now next) l t = playIn w (next l.ids) { l with ids := l.ids.skip count } t := rfl

/-- What only one of two parallel dialogues asks changes neither its operation nor what was sent. -/
theorem playIn_own (w : World) {inquiry : Inquiry} (own : ¬ inquiry.Joint) (now : Progress)
    (next : inquiry.Reply → Dialogue α) (l : Local) (t : Trace) :
    ∃ reply t', playIn w (.ask inquiry now next) l t = playIn w (next reply) l t' ∧ t'.batches = t.batches := by
  cases inquiry with
  | world r =>
    have aside : ∀ e ∈ [(⟨.world r, w.reply t r⟩ : Exchange)], e.inquiry.Aside := by
      intro e he
      obtain rfl := List.mem_singleton.mp he
      cases r with
      | send => exact absurd trivial own
      | _ => trivial
    exact ⟨w.reply t r, _, playIn_world .., Trace.batches_aside aside⟩
  | _ => exact absurd trivial own

/-- Parallel dialogues send the same batches to the same channel, and come to a pair of ends. -/
theorem Parallel.playIn {ends : Progress → α → Progress → β → Prop} {d : Dialogue α} {d' : Dialogue β}
    (h : Parallel ends d d') (w w' : World) (channel : w.channel = w'.channel) (l : Local) (t t' : Trace)
    (before : t.batches = t'.batches) :
    let p := d.playIn w l t
    let p' := d'.playIn w' l t'
    p.2.batches = p'.2.batches ∧ ends p.1.1.1 p.1.1.2 p'.1.1.1 p'.1.1.2 := by
  induction h generalizing l t t' with
  | done both =>
    rw [playIn_done, playIn_done]
    exact ⟨before, both⟩
  | @ask inquiry now now' next next' joint _ ih =>
    cases inquiry with
    | enter state =>
      rw [playIn_enter, playIn_enter]
      exact ih _ _ _ _ before
    | poll =>
      rw [playIn_poll, playIn_poll]
      exact ih _ _ _ _ before
    | reserve count =>
      rw [playIn_reserve, playIn_reserve]
      exact ih _ _ _ _ before
    | world r =>
      cases r with
      | send batch =>
        rw [playIn_world, playIn_world]
        have same : w'.reply t' (.send batch) = w.reply t (.send batch) := by
          change w'.channel _ _ = w.channel _ _
          rw [channel, before]
        rw [same]
        exact ih _ l _ _ (by rw [Trace.batches_send, Trace.batches_send, before])
      | _ => cases joint
  | left own _ ih =>
    obtain ⟨reply, u, moved, batches⟩ := playIn_own w own _ _ l t
    rw [moved]
    exact ih reply l _ _ (batches.trans before)
  | right own _ ih =>
    obtain ⟨reply, u, moved, batches⟩ := playIn_own w' own _ _ l t'
    rw [moved]
    exact ih reply l _ _ (before.trans batches.symm)

end Dialogue

/-! ### Parts of updates -/

def Stats.withoutArtworks (s : Stats) : Stats := { s with artworksRequested := 0, artworksFailed := 0 }

/-- Whether updates have come equally far, whatever became of the artworks. -/
structure Progress.Alike (now now' : Progress) : Prop where
  committed : now.committed = now'.committed
  stats : now.stats.withoutArtworks = now'.stats.withoutArtworks

theorem Progress.Alike.symm {now now' : Progress} (h : now.Alike now') : now'.Alike now :=
  ⟨h.committed.symm, h.stats.symm⟩

namespace Engine

variable {α β γ δ : Type}

/-- Whether two parts come to results that are the same as far as `same` tells, or stop for the same reason. -/
inductive Ends (same : α → β → Prop) : Except Halt α → Except Halt β → Prop
  | ok {a : α} {b : β} (both : same a b) : Ends same (.ok a) (.ok b)
  | error (halt : Halt) : Ends same (.error halt) (.error halt)

/-- Whether two parts are parallel from wherever they have come equally far. -/
def Parallel (same : α → β → Prop) (m : Engine α) (m' : Engine β) : Prop :=
  ∀ ⦃now now' : Progress⦄, now.Alike now' →
    Dialogue.Parallel (fun now r now' r' => now.Alike now' ∧ Ends same r r') (m now) (m' now')

/-- Whether any part does the same after this one as without it. -/
def Silent (m : Engine α) : Prop := Parallel (fun _ _ => True) m (pure () : Engine Unit)

namespace Parallel

variable {same : α → β → Prop} {m : Engine α} {m' : Engine β}

theorem symm (h : Parallel same m m') : Parallel (fun b a => same a b) m' m := by
  intro now now' alike
  refine (h alike.symm).symm ?_
  rintro now _ now' _ ⟨alike, ⟨both⟩ | halt⟩
  · exact ⟨alike.symm, .ok both⟩
  · exact ⟨alike.symm, .error halt⟩

theorem pure {a : α} {b : β} (both : same a b) : Parallel same (pure a) (pure b) :=
  fun _ _ alike => .done ⟨alike, .ok both⟩

theorem halt (h : Halt) : Parallel same (halt h) (halt h) := fun _ _ alike => .done ⟨alike, .error h⟩

theorem bind {same' : γ → δ → Prop} {f : α → Engine γ} {f' : β → Engine δ} (h : Parallel same m m')
    (onward : ∀ a b, same a b → Parallel same' (f a) (f' b)) : Parallel same' (m >>= f) (m' >>= f') := by
  intro now now' alike
  refine (h alike).andThen ?_
  rintro now _ now' _ ⟨alike, ⟨both⟩ | halt⟩
  · exact onward _ _ both alike
  · exact .done ⟨alike, .error halt⟩

/-- One part after another that comes to the same result on both sides. -/
theorem seq {same' : γ → δ → Prop} {m m' : Engine α} {f : α → Engine γ} {f' : α → Engine δ}
    (h : Parallel (· = ·) m m') (onward : ∀ a, Parallel same' (f a) (f' a)) :
    Parallel same' (m >>= f) (m' >>= f') :=
  h.bind fun a _ same => same ▸ onward a

theorem ask (inquiry : Inquiry) (joint : inquiry.Joint) : Parallel (· = ·) (ask inquiry) (ask inquiry) :=
  fun _ _ alike => .ask joint fun _ => .done ⟨alike, .ok rfl⟩

theorem now : Parallel Progress.Alike now now := fun _ _ alike => .done ⟨alike, .ok alike⟩

theorem modify {f f' : Progress → Progress} (onward : ∀ now now', now.Alike now' → (f now).Alike (f' now')) :
    Parallel (· = ·) (modify f) (modify f') := fun _ _ alike => .done ⟨onward _ _ alike, .ok rfl⟩

/-- What is counted apart from the artworks is counted alike. -/
theorem count {f : Stats → Stats} (own : ∀ s, (f s).withoutArtworks = f s.withoutArtworks)
    (onward : Parallel same m m') : Parallel same (count f >>= fun _ => m) (count f >>= fun _ => m') := by
  have counted : Parallel (· = ·) (Engine.count f) (Engine.count f) := by
    refine modify fun now now' alike => ⟨alike.committed, ?_⟩
    change (f now.stats).withoutArtworks = (f now'.stats).withoutArtworks
    rw [own, own, alike.stats]
  exact counted.seq fun _ => onward

theorem attempt (h : Parallel same m m') : Parallel (Ends same) (attempt m) (attempt m') := fun _ _ alike =>
  (h alike).andThen fun _ _ _ _ ⟨alike, ends⟩ => .done ⟨alike, .ok ends⟩

theorem checkpoint : Parallel (· = ·) checkpoint checkpoint := by
  refine (ask .poll trivial).seq fun canceled => ?_
  cases canceled with
  | true => exact halt _
  | false => exact pure rfl

/-- A part may stand after a silent one on one side. -/
theorem after {f : γ → Engine α} {silent : Engine γ} (h : Silent silent)
    (onward : ∀ c, Parallel same (f c) m') : Parallel same (silent >>= f) m' := by
  have rest : Parallel same (silent >>= f) ((Pure.pure () : Engine Unit) >>= fun _ => m') :=
    h.bind fun c _ _ => onward c
  exact rest

/-- What is silent on both sides need not come to the same. -/
theorem apart {f : γ → Engine α} {f' : δ → Engine β} {silent : Engine γ} {silent' : Engine δ}
    (h : Silent silent) (h' : Silent silent') (onward : ∀ c d, Parallel same (f c) (f' d)) :
    Parallel same (silent >>= f) (silent' >>= f') :=
  after h fun c => (after h' fun d => (onward c d).symm).symm

end Parallel

namespace Silent

theorem request (r : Request) (own : ¬ (Inquiry.world r).Joint) : Silent (request r) :=
  fun _ _ alike => .left own fun _ => .done ⟨alike, .ok trivial⟩

theorem pure (a : α) : Silent (pure a) := Parallel.pure trivial

theorem bind {m : Engine α} {f : α → Engine β} (h : Silent m) (onward : ∀ a, Silent (f a)) : Silent (m >>= f) :=
  Parallel.after h onward

/-- Counting artworks leaves no trace. -/
theorem count {f : Stats → Stats} (artworks : ∀ s, (f s).withoutArtworks = s.withoutArtworks) : Silent (count f) :=
  fun _ _ alike => .done ⟨⟨alike.committed, (artworks _).trans alike.stats⟩, .ok trivial⟩

end Silent

end Engine

end RemoteMenu
