import RemoteMenu.Json.Draft
import RemoteMenu.Proofs.Json.Numbers

/-!
# Written values are read back

The draft of a written value is the value itself with its numbers read (`Value.draft`), in either style
(`Document.read_write`). The reader takes the tokens of a value one after another from wherever a value may
stand, and is then where it is after that value (`resume_write`).
-/

namespace RemoteMenu.Json

mutual

def Value.draft : Value → Draft
  | .null => .null
  | .bool b => .bool b
  | .number n => .number (numeral n)
  | .string s => .string (.ok s)
  | .array items => .array (itemDrafts items) .closed
  | .object members => .object (memberDrafts members) .closed

def itemDrafts : List Value → List Draft
  | [] => []
  | v :: vs => v.draft :: itemDrafts vs

def memberDrafts : List (String × Value) → List (Key × Draft)
  | [] => []
  | (k, v) :: ms => (.ok k, v.draft) :: memberDrafts ms

end

/-! ### Steps of the reader -/

def resume (state : Expected × List Level) (s : List UInt8) : Document := readFrom state.1 state.2 s

theorem resume_eq (state : Expected × List Level) (s : List UInt8) :
    resume state s =
      match step state.1 state.2 (Token.next s).1 with
      | .error document => document
      | .ok state' => resume state' (Token.next s).2 := by
  rw [resume, readFrom]
  split <;> simp [*, resume]

theorem resume_step {state state' : Expected × List Level} {s rest : List UInt8} {t : Token}
    (next : Token.next s = (t, rest)) (goes : step state.1 state.2 t = .ok state') :
    resume state s = resume state' rest := by
  rw [resume_eq, next]
  simp only [goes]

theorem resume_punctuation {state state' : Expected × List Level} {b : UInt8} (t : Token)
    (visible : isBlank b = false) (sign : punctuation? b = some t) (goes : step state.1 state.2 t = .ok state')
    (s : List UInt8) : resume state (b :: s) = resume state' s := by
  have next : Token.next (b :: s) = (t, s) := by rw [Token.next_cons visible, Token.startingWith, sign]
  exact resume_step next goes

/-- Blanks in front of a token are passed over. -/
theorem resume_append {blank : List UInt8} (blanks : ∀ b ∈ blank, isBlank b = true)
    (state : Expected × List Level) (s : List UInt8) : resume state (blank ++ s) = resume state s := by
  rw [resume_eq, Token.next_append blanks, ← resume_eq]

theorem resume_lead (style : Style) (depth : Nat) (state : Expected × List Level) (s : List UInt8) :
    resume state (utf8 (style.lead depth) ++ s) = resume state s :=
  resume_append (isBlank_lead style depth) state s

theorem resume_colon (style : Style) (taken : List (Key × Draft)) (key : Key) (levels : List Level)
    (s : List UInt8) :
    resume (.colon taken key, levels) (utf8 style.colon ++ s) = resume (.value, .object taken key :: levels) s := by
  cases style with
  | compact => exact resume_punctuation .colon rfl rfl rfl s
  | pretty =>
    have blank : (utf8 [' ']).all isBlank = true := by decide
    rw [← resume_append (List.all_eq_true.mp blank) (.value, _)]
    exact resume_punctuation .colon rfl rfl rfl _

/-- The key of a member, from where a key may stand. -/
theorem resume_key {expected : Expected} {taken : List (Key × Draft)} {levels : List Level} {k : String}
    (goes : step expected levels (.string (.ok k)) = .ok (.colon taken (.ok k), levels)) (style : Style) (depth : Nat)
    (s : List UInt8) :
    resume (expected, levels) (utf8 (style.lead depth) ++ (utf8 (quoted k) ++ (utf8 style.colon ++ s))) =
      resume (.value, .object taken (.ok k) :: levels) s := by
  rw [resume_lead, resume_step (Token.next_quoted k _) goes, resume_colon]

/-! ### Where values stand -/

/-- Whether a value may come next, and the levels that it is delivered to. -/
inductive Awaits : Expected → List Level → List Level → Prop
  | value (levels : List Level) : Awaits .value levels levels
  | firstItem (levels : List Level) : Awaits .firstItem levels (.array [] :: levels)

theorem Awaits.step {expected : Expected} {levels inner : List Level} {t : Token}
    (awaits : Awaits expected levels inner) (opening : t ≠ .closeArray) (more : t ≠ .finish) :
    step expected levels t = stepValue inner t := by
  cases awaits with
  | value => rfl
  | firstItem => cases t <;> first | rfl | contradiction

theorem Awaits.step_array {expected : Expected} {levels inner : List Level} (awaits : Awaits expected levels inner) :
    RemoteMenu.Json.step expected levels .openArray = .ok (.firstItem, inner) :=
  awaits.step nofun nofun

theorem Awaits.step_object {expected : Expected} {levels inner : List Level} (awaits : Awaits expected levels inner) :
    RemoteMenu.Json.step expected levels .openObject = .ok (.firstKey, inner) :=
  awaits.step nofun nofun

theorem ends_lead {b : UInt8} {rest : List UInt8} (closing : Ends (b :: rest)) (style : Style) (depth : Nat) :
    Ends (utf8 (style.lead depth) ++ b :: rest) := by
  cases style with
  | compact => exact closing
  | pretty => exact .inr (.inr (.inr rfl))

theorem ends_items (style : Style) (depth outer : Nat) (vs : List Value) (rest : List UInt8) :
    Ends (utf8 (writeItems style depth vs) ++ (utf8 (style.lead outer) ++ 0x5D :: rest)) := by
  cases vs with
  | nil => exact ends_lead (.inr (.inl rfl)) style outer
  | cons v vs => exact .inl rfl

theorem ends_members (style : Style) (depth outer : Nat) (ms : List (String × Value)) (rest : List UInt8) :
    Ends (utf8 (writeMembers style depth ms) ++ (utf8 (style.lead outer) ++ 0x7D :: rest)) := by
  cases ms with
  | nil => exact ends_lead (.inr (.inr (.inl rfl))) style outer
  | cons m ms => exact .inl rfl

/-! ### Values -/

mutual

theorem resume_write (style : Style) (depth : Nat) {expected : Expected} {levels inner : List Level}
    (rest : List UInt8) (awaits : Awaits expected levels inner) (ends : Ends rest) :
    ∀ v : Value, resume (expected, levels) (utf8 (v.write style depth) ++ rest) = resume (deliver v.draft inner) rest
  | .null => resume_step (Token.next_cons rfl _) (awaits.step nofun nofun)
  | .bool true => resume_step (Token.next_cons rfl _) (awaits.step nofun nofun)
  | .bool false => resume_step (Token.next_cons rfl _) (awaits.step nofun nofun)
  | .number n => resume_step (Token.next_number n ends) (awaits.step nofun nofun)
  | .string s => resume_step (Token.next_quoted s rest) (awaits.step nofun nofun)
  | .array [] =>
    (resume_punctuation .openArray rfl rfl awaits.step_array _).trans
      (resume_punctuation .closeArray rfl rfl rfl _)
  | .array (v :: vs) => by
    have bytes : utf8 (Value.write style depth (.array (v :: vs))) ++ rest =
        0x5B :: (utf8 (style.lead (depth + 1)) ++ (utf8 (v.write style (depth + 1)) ++
          (utf8 (writeItems style (depth + 1) vs) ++ (utf8 (style.lead depth) ++ 0x5D :: rest)))) := by
      simp only [Value.write, utf8_cons, utf8_append, utf8_nil, List.append_assoc]
      rfl
    rw [bytes, resume_punctuation .openArray rfl rfl awaits.step_array, resume_lead,
      resume_write style (depth + 1) _ (.firstItem inner) (ends_items ..) v]
    exact resume_writeItems style (depth + 1) depth [v.draft] inner rest vs
  | .object [] =>
    (resume_punctuation .openObject rfl rfl awaits.step_object _).trans
      (resume_punctuation .closeObject rfl rfl rfl _)
  | .object ((k, v) :: ms) => by
    have bytes : utf8 (Value.write style depth (.object ((k, v) :: ms))) ++ rest =
        0x7B :: (utf8 (style.lead (depth + 1)) ++ (utf8 (quoted k) ++ (utf8 style.colon ++
          (utf8 (v.write style (depth + 1)) ++
            (utf8 (writeMembers style (depth + 1) ms) ++ (utf8 (style.lead depth) ++ 0x7D :: rest)))))) := by
      simp only [Value.write, utf8_cons, utf8_append, utf8_nil, List.append_assoc]
      rfl
    rw [bytes, resume_punctuation .openObject rfl rfl awaits.step_object]
    refine (resume_key rfl style (depth + 1) _).trans ?_
    rw [resume_write style (depth + 1) _ (.value _) (ends_members ..) v]
    exact resume_writeMembers style (depth + 1) depth [(.ok k, v.draft)] inner rest ms

theorem resume_writeItems (style : Style) (depth outer : Nat) (taken : List Draft) (levels : List Level)
    (rest : List UInt8) : ∀ vs : List Value,
    resume (.nextItem taken, levels) (utf8 (writeItems style depth vs) ++ (utf8 (style.lead outer) ++ 0x5D :: rest)) =
      resume (deliver (.array (taken.reverse ++ itemDrafts vs) .closed) levels) rest
  | [] => by
    rw [writeItems, utf8_nil, List.nil_append, resume_lead, itemDrafts, List.append_nil]
    exact resume_punctuation .closeArray rfl rfl rfl rest
  | v :: vs => by
    have bytes : utf8 (writeItems style depth (v :: vs)) ++ (utf8 (style.lead outer) ++ 0x5D :: rest) =
        0x2C :: (utf8 (style.lead depth) ++ (utf8 (v.write style depth) ++
          (utf8 (writeItems style depth vs) ++ (utf8 (style.lead outer) ++ 0x5D :: rest)))) := by
      simp only [writeItems, utf8_cons, utf8_append, List.append_assoc]
      rfl
    rw [bytes, resume_punctuation .comma rfl rfl rfl, resume_lead]
    refine (resume_write style depth _ (.value _) (ends_items ..) v).trans ?_
    refine (resume_writeItems style depth outer (v.draft :: taken) levels rest vs).trans ?_
    rw [List.reverse_cons, List.append_assoc, itemDrafts]
    rfl

theorem resume_writeMembers (style : Style) (depth outer : Nat) (taken : List (Key × Draft)) (levels : List Level)
    (rest : List UInt8) : ∀ ms : List (String × Value),
    resume (.nextMember taken, levels)
        (utf8 (writeMembers style depth ms) ++ (utf8 (style.lead outer) ++ 0x7D :: rest)) =
      resume (deliver (.object (taken.reverse ++ memberDrafts ms) .closed) levels) rest
  | [] => by
    rw [writeMembers, utf8_nil, List.nil_append, resume_lead, memberDrafts, List.append_nil]
    exact resume_punctuation .closeObject rfl rfl rfl rest
  | (k, v) :: ms => by
    have bytes : utf8 (writeMembers style depth ((k, v) :: ms)) ++ (utf8 (style.lead outer) ++ 0x7D :: rest) =
        0x2C :: (utf8 (style.lead depth) ++ (utf8 (quoted k) ++ (utf8 style.colon ++ (utf8 (v.write style depth) ++
          (utf8 (writeMembers style depth ms) ++ (utf8 (style.lead outer) ++ 0x7D :: rest)))))) := by
      simp only [writeMembers, utf8_cons, utf8_append, List.append_assoc]
      rfl
    rw [bytes, resume_punctuation .comma rfl rfl rfl]
    refine (resume_key rfl style depth _).trans ?_
    rw [resume_write style depth _ (.value _) (ends_members ..) v]
    refine (resume_writeMembers style depth outer ((.ok k, v.draft) :: taken) levels rest ms).trans ?_
    rw [List.reverse_cons, List.append_assoc, memberDrafts]
    rfl

end

/-- The text of a value spells its draft and nothing more. -/
theorem Document.read_write (style : Style) (v : Value) :
    Document.read (utf8 (v.write style 0)) = ⟨v.draft, false⟩ := by
  have written := resume_write style 0 [] (.value []) trivial v
  rw [List.append_nil] at written
  refine written.trans ?_
  rw [resume_eq]
  rfl

end RemoteMenu.Json
