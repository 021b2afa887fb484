import Mathlib.Data.List.Forall2
import RemoteMenu.Json.Decode
import RemoteMenu.Proofs.Json.Documents

/-!
# What is read from written values

`Reads read budget v a` says what a reader that may still open `budget` containers makes of a written
value: it gives `a`, unless the value nests deeper than that. There is one rule for each kind of reader. A
record is read from the members that its fields have, some of them left out (`Fills`), and restored by the
values that the reader starts from.

Main statement: `decode_text`, for whole texts in either style.
-/

namespace RemoteMenu.Json

/-! ### Nesting -/

mutual

def Value.nesting : Value → Nat
  | .null | .bool _ | .number _ | .string _ => 0
  | .array items => itemsNesting items + 1
  | .object members => membersNesting members + 1

def itemsNesting : List Value → Nat
  | [] => 0
  | v :: vs => max v.nesting (itemsNesting vs)

def membersNesting : List (String × Value) → Nat
  | [] => 0
  | (_, v) :: ms => max v.nesting (membersNesting ms)

end

/-- Whether a reader gives `a` for a written value that nests no deeper than it may, and else fails. -/
def Reads {α} (read : Draft → Except Failure α) (budget : Nat) (v : Value) (a : α) : Prop :=
  read v.draft = if v.nesting ≤ budget then .ok a else .error .malformed

variable {α β σ : Type} {read : Draft → Except Failure α} {budget : Nat} {v : Value} {a : α}

theorem Reads.eq_ok (h : Reads read budget v a) (small : v.nesting ≤ budget) : read v.draft = .ok a :=
  h.trans (if_pos small)

/-! ### Single values -/

/-- What is read after something else fails if either of the two nests too deep. -/
theorem within_bind {m n : Nat} {f : α → Except Failure β} {b : β}
    (next : f a = if n ≤ budget then .ok b else .error .malformed) :
    ((if m ≤ budget then .ok a else .error .malformed) >>= f) =
      if max m n ≤ budget then .ok b else .error .malformed := by
  by_cases here : m ≤ budget
  · rw [if_pos here]
    refine next.trans ?_
    simp only [Nat.max_le, here, true_and]
  · rw [if_neg here, if_neg (fun both => here (Nat.max_le.mp both).1)]
    rfl

theorem Reads.map (f : α → β) (h : Reads read budget v a) :
    Reads (fun d => do return f (← read d)) budget v (f a) := by
  change (do return f (← read v.draft)) = _
  rw [h]
  split_ifs
  · rfl
  · rfl

theorem reads_string (budget : Nat) (s : String) : Reads Draft.readString budget (.string s) s := rfl

theorem reads_bool (budget : Nat) (b : Bool) : Reads Draft.readBool budget (.bool b) b := rfl

theorem reads_word (budget : Nat) (w : UInt32) : Reads Draft.readWord budget (.natural w.toNat) w := by
  have small : w.toNat < UInt32.size := w.toNat_lt
  change Draft.readWord (.number (numeral w.toNat)) = .ok w
  rw [numeral_toNat, Draft.readWord, if_pos small, UInt32.ofNat_toNat]

theorem reads_null (read : Draft → Except Failure α) (budget : Nat) :
    Reads (Draft.readOption read) budget .null none := rfl

theorem Reads.option (h : Reads read budget v a) (some_ : v ≠ .null) :
    Reads (Draft.readOption read) budget v (some a) := by
  have passed : Draft.readOption read v.draft = some <$> read v.draft := by
    cases v <;> first | rfl | contradiction
  rw [Reads, passed, h]
  split_ifs
  · rfl
  · rfl

/-! ### Lists -/

theorem readItems_drafts {vs : List Value} {as : List α} (items : List.Forall₂ (Reads read budget) vs as) :
    Draft.readItems read (itemDrafts vs) = if itemsNesting vs ≤ budget then .ok as else .error .malformed := by
  induction items with
  | nil => rfl
  | @cons v a vs as first rest ih =>
    rw [itemDrafts, Draft.readItems, first, ih, itemsNesting]
    refine within_bind ?_
    split_ifs
    · rfl
    · rfl

theorem reads_list_zero (read : Draft → Except Failure α) (vs : List Value) (as : List α) :
    Reads (Draft.readList read 0) 0 (.array vs) as := rfl

theorem reads_list {vs : List Value} {as : List α}
    (items : List.Forall₂ (Reads read (budget - 1)) vs as) :
    Reads (Draft.readList read budget) budget (.array vs) as := by
  rw [Reads, Value.draft, Draft.readList, Value.nesting]
  cases budget with
  | zero => rfl
  | succ budget =>
    rw [if_neg (Nat.succ_ne_zero budget), readItems_drafts items]
    simp only [Nat.add_sub_cancel, Nat.add_le_add_iff_right]
    split_ifs
    · rfl
    · rfl

/-! ### Variants -/

theorem reads_name {read : String → Option Draft → Except Failure α} {name : String} (budget : Nat)
    (content : read name none = .ok a) : Reads (Draft.readVariant read budget) budget (.string name) a := content

theorem reads_variant {read : String → Option Draft → Except Failure α} {name : String}
    (content : Reads (fun d => read name (some d)) (budget - 1) v a) :
    Reads (Draft.readVariant read budget) budget (.object [(name, v)]) a := by
  have nesting : (Value.object [(name, v)]).nesting = v.nesting + 1 := by
    rw [Value.nesting, membersNesting, membersNesting, Nat.max_zero]
  rw [Reads, nesting]
  cases budget with
  | zero => rfl
  | succ budget =>
    change (do let variant ← read name (some v.draft); Ending.closed.readOnly; return variant) = _
    have content : read name (some v.draft) = _ := content
    simp only [content, Nat.add_sub_cancel, Nat.add_le_add_iff_right]
    split_ifs
    · rfl
    · rfl

/-! ### Records -/

def written (fields : List (RecordField σ)) (values : List (Option Value)) : List (String × Value) :=
  (fields.zip values).flatMap fun (field, value) => member? field.key value

/-- How the values of fields, some of them left out, turn one record into another. -/
inductive Fills (budget : Nat) : List (RecordField σ) → List (Option Value) → σ → σ → Prop
  | nil (r : σ) : Fills budget [] [] r r
  | absent {field : RecordField σ} {fields : List (RecordField σ)} {values : List (Option Value)} {r final : σ}
      (optional : field.presence ≠ .required) (rest : Fills budget fields values r final) :
      Fills budget (field :: fields) (none :: values) r final
  | present {field : RecordField σ} {fields : List (RecordField σ)} {v : Value} {values : List (Option Value)}
      {r final : σ} (next : σ) (reads : Reads (fun d => field.read d r) budget v next)
      (rest : Fills budget fields values next final) :
      Fills budget (field :: fields) (some v :: values) r final

/-- A field for something that may be missing. -/
theorem Fills.option {field : RecordField σ} {fields : List (RecordField σ)} {values : List (Option Value)}
    {r final : σ} {o : Option β} {write : β → Value} (put : Option β → σ) (optional : field.presence ≠ .required)
    (initial : put none = r) (reads : ∀ b, Reads (fun d => field.read d r) budget (write b) (put (some b)))
    (rest : Fills budget fields values (put o) final) :
    Fills budget (field :: fields) (o.map write :: values) r final := by
  cases o with
  | none => exact .absent optional (initial ▸ rest)
  | some b => exact .present _ (reads b) rest

/-- A field that is left out if it holds what the reader starts from. -/
theorem Fills.unless {field : RecordField σ} {fields : List (RecordField σ)} {v : Value}
    {values : List (Option Value)} {r final : σ} {initial : Bool} (next : σ) (optional : field.presence ≠ .required)
    (same : initial = true → next = r) (reads : Reads (fun d => field.read d r) budget v next)
    (rest : Fills budget fields values next final) :
    Fills budget (field :: fields) ((if initial then none else some v) :: values) r final := by
  cases initial with
  | false => exact .present next reads rest
  | true => exact .absent optional (same rfl ▸ rest)

/-- A field that is written only for a mark that is set. -/
theorem Fills.mark {field : RecordField σ} {fields : List (RecordField σ)} {values : List (Option Value)}
    {final : σ} {mark : Bool} (put : Bool → σ) (optional : field.presence ≠ .required)
    (reads : Reads (fun d => field.read d (put false)) budget (.bool true) (put true))
    (rest : Fills budget fields values (put mark) final) :
    Fills budget (field :: fields) ((if mark then some (.bool true) else none) :: values) (put false) final := by
  cases mark with
  | false => exact .absent optional rest
  | true => exact .present _ reads rest

theorem written_cons_none (field : RecordField σ) (fields : List (RecordField σ)) (values : List (Option Value)) :
    written (field :: fields) (none :: values) = written fields values := rfl

theorem written_cons_some (field : RecordField σ) (fields : List (RecordField σ)) (v : Value)
    (values : List (Option Value)) :
    written (field :: fields) (some v :: values) = (field.key, v) :: written fields values := rfl

/-- A field's key is not that of a field before it. -/
theorem key_notMem {done fields : List (RecordField σ)} {field : RecordField σ}
    (distinct : ((done ++ field :: fields).map (·.key)).Nodup) : field.key ∉ done.map (·.key) := by
  intro earlier
  rw [List.map_append, List.nodup_append] at distinct
  exact distinct.2.2 _ earlier _ (List.mem_cons_self ..) rfl

theorem find?_key {done fields : List (RecordField σ)} {field : RecordField σ}
    (distinct : ((done ++ field :: fields).map (·.key)).Nodup) :
    (done ++ field :: fields).find? (·.key = field.key) = some field := by
  have others : done.find? (fun f => f.key = field.key) = none := by
    rw [List.find?_eq_none]
    intro f hf same
    exact key_notMem distinct (of_decide_eq_true same ▸ List.mem_map_of_mem hf)
  rw [List.find?_append, others, Option.none_or]
  exact List.find?_cons_of_pos (decide_eq_true rfl)

/-- Members in the order of the fields, from those fields on that follow `done`. -/
theorem readMembers_written {fields : List (RecordField σ)} (done : List (RecordField σ))
    {values : List (Option Value)} (seen : List String) {r final : σ}
    (distinct : ((done ++ fields).map (·.key)).Nodup) (before : ∀ k ∈ seen, k ∈ done.map (·.key))
    (required : ∀ f ∈ done, f.presence = .required → f.key ∈ seen)
    (fills : Fills budget fields values r final) :
    readMembers (done ++ fields) seen r .closed (memberDrafts (written fields values)) =
      if membersNesting (written fields values) ≤ budget then .ok final else .error .malformed := by
  induction fills generalizing done seen with
  | nil r =>
    have complete : (done ++ []).all (fun f => f.presence ≠ Presence.required || f.key ∈ seen) = true := by
      rw [List.append_nil, List.all_eq_true]
      intro f hf
      by_cases needed : f.presence = .required
      · simp [required f hf needed]
      · simp [needed]
    exact if_pos complete
  | @absent field fields values r final optional rest ih =>
    rw [written_cons_none, List.append_cons]
    refine ih _ _ (List.append_cons .. ▸ distinct) ?_ ?_
    · intro k hk
      exact List.map_append .. ▸ List.mem_append_left _ (before k hk)
    · intro f hf needed
      rcases List.mem_append.mp hf with hf | hf
      · exact required f hf needed
      · exact absurd (List.mem_singleton.mp hf ▸ needed) optional
  | @present field fields v values r final next reads rest ih =>
    have new : field.key ∉ seen := fun hk => key_notMem distinct (before _ hk)
    have step : readMembers (done ++ field :: fields) seen r .closed
        (memberDrafts (written (field :: fields) (some v :: values))) =
        (do
          let r ← field.read v.draft r
          readMembers (done ++ field :: fields) (field.key :: seen) r .closed
            (memberDrafts (written fields values))) := by
      rw [written_cons_some, memberDrafts, readMembers]
      simp only [bind, Except.bind, find?_key distinct, if_neg new]
    have later := ih (done ++ [field]) (field.key :: seen) (List.append_cons .. ▸ distinct)
      (by
        intro k hk
        rw [List.map_append, List.mem_append]
        rcases List.mem_cons.mp hk with rfl | hk
        · exact .inr (List.mem_singleton.mpr rfl)
        · exact .inl (before k hk))
      (by
        intro f hf needed
        rcases List.mem_append.mp hf with hf | hf
        · exact List.mem_cons_of_mem _ (required f hf needed)
        · exact List.mem_singleton.mp hf ▸ List.mem_cons_self ..)
    have read : field.read v.draft r = _ := reads
    rw [← List.append_cons] at later
    rw [step, read, written_cons_some, membersNesting]
    exact within_bind later

/-- A record, from the members of some of its fields. -/
theorem reads_record (budget : Nat) {fields : List (RecordField σ)} {values : List (Option Value)}
    {initial final : σ} (distinct : (fields.map (·.key)).Nodup)
    (fills : Fills (budget - 1) fields values initial final) :
    Reads (Draft.readRecord fields initial budget) budget (.object (written fields values)) final := by
  have members := readMembers_written [] [] distinct (by simp) (by simp) fills
  rw [Reads, Value.draft, Draft.readRecord, Value.nesting]
  cases budget with
  | zero => rfl
  | succ budget =>
    rw [if_neg (Nat.succ_ne_zero budget)]
    refine members.trans ?_
    simp only [Nat.add_sub_cancel, Nat.add_le_add_iff_right]

/-! ### Whole texts -/

theorem decode_text (style : Style) (h : Reads read budget v a) :
    decode read (utf8 (v.write style 0)) = if v.nesting ≤ budget then .ok a else .error .malformed := by
  have root : read (Document.read (utf8 (v.write style 0))).root =
      if v.nesting ≤ budget then .ok a else .error .malformed := by
    rw [Document.read_write]
    exact h
  rw [decode, root, Document.read_write]
  by_cases fits : v.nesting ≤ budget
  · rw [if_pos fits]
    rfl
  · rw [if_neg fits]
    rfl

end RemoteMenu.Json
