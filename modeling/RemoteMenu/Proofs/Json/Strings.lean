import Mathlib.Data.List.TakeDrop
import Mathlib.Tactic.IntervalCases
import RemoteMenu.Json.Token
import RemoteMenu.Json.Value
import RemoteMenu.Proofs.Bytes.Utf8

/-!
# Written strings are read back

A quoted string is one token that holds the string (`Token.next_quoted`): every character is written as
itself or as an escape that stands for it, and only the closing quote ends the string. Blanks in front of a
token do not count (`Token.next_append`).
-/

namespace RemoteMenu.Json

/-! ### Blanks and single bytes -/

theorem Token.next_append {blank : List UInt8} (blanks : ∀ b ∈ blank, isBlank b = true) (s : List UInt8) :
    Token.next (blank ++ s) = Token.next s := by
  rw [next, next, List.dropWhile_append_of_pos blanks]

theorem Token.next_cons {b : UInt8} (visible : isBlank b = false) (s : List UInt8) :
    Token.next (b :: s) = startingWith b s := by
  rw [next, List.dropWhile_cons_of_neg (by simp [visible])]

theorem isBlank_lead (style : Style) (depth : Nat) : ∀ b ∈ utf8 (style.lead depth), isBlank b = true := by
  cases style with
  | compact => simp [Style.lead]
  | pretty =>
    intro b hb
    rw [Style.lead, utf8_cons, List.mem_append] at hb
    rcases hb with line | indent
    · have newline : (String.utf8EncodeChar '\n').all isBlank = true := by decide
      exact List.all_eq_true.mp newline b line
    · rw [utf8, List.mem_flatMap] at indent
      obtain ⟨c, hc, hb⟩ := indent
      obtain rfl := List.eq_of_mem_replicate hc
      have space : (String.utf8EncodeChar ' ').all isBlank = true := by decide
      exact List.all_eq_true.mp space b hb

/-! ### Strings -/

/-- A byte that stands for itself inside a string. -/
def Plain (b : UInt8) : Prop := b ≠ 0x22 ∧ b ≠ 0x5C ∧ ¬ b < 0x20

theorem readString_plain {bytes : List UInt8} (plain : ∀ b ∈ bytes, Plain b) (taken s : List UInt8) :
    readString taken (bytes ++ s) = readString (bytes.reverse ++ taken) s := by
  induction bytes generalizing taken with
  | nil => rfl
  | cons b bytes ih =>
    obtain ⟨quote, slash, control⟩ := plain b (List.mem_cons_self ..)
    rw [List.cons_append, readString, if_neg quote, if_neg slash, if_neg control,
      ih (fun b hb => plain b (List.mem_cons_of_mem _ hb)), List.reverse_cons, List.append_assoc]
    rfl

theorem skipString_plain {bytes : List UInt8} (plain : ∀ b ∈ bytes, Plain b) (s : List UInt8) :
    skipString (bytes ++ s) = skipString s := by
  induction bytes with
  | nil => rfl
  | cons b bytes ih =>
    obtain ⟨quote, slash, control⟩ := plain b (List.mem_cons_self ..)
    rw [List.cons_append, skipString, if_neg quote, if_neg slash, if_neg control,
      ih fun b hb => plain b (List.mem_cons_of_mem _ hb)]

theorem readString_escape {e s bytes rest : List UInt8} (read : readEscape (e ++ s) = .ok (bytes, rest))
    (taken : List UInt8) :
    readString taken (0x5C :: (e ++ s)) = readString (bytes.reverse ++ taken) rest := by
  rw [readString, if_neg (by decide), if_pos rfl]
  split
  · next bytes' rest' same =>
    obtain ⟨rfl, rfl⟩ := Prod.mk.inj (Except.ok.inj (read.symm.trans same))
    rfl
  · next same => cases read.symm.trans same

theorem skipString_escape {e s rest : List UInt8} (skip : skipEscape (e ++ s) = .ok rest) :
    skipString (0x5C :: (e ++ s)) = skipString rest := by
  rw [skipString, if_neg (by decide), if_pos rfl]
  split
  · next rest' same =>
    obtain rfl := Except.ok.inj (skip.symm.trans same)
    rfl
  · next same => cases skip.symm.trans same

theorem plain_ofNat {n : Nat} (small : n < 256) (visible : 0x20 ≤ n) (quote : n ≠ 0x22) (slash : n ≠ 0x5C) :
    Plain (.ofNat n) := by
  have value : (UInt8.ofNat n).toNat = n := by
    rw [UInt8.toNat_ofNat']
    omega
  refine ⟨fun same => quote ?_, fun same => slash ?_, fun below => ?_⟩
  · rw [← value, same]
    rfl
  · rw [← value, same]
    rfl
  · rw [UInt8.lt_iff_toNat_lt, value] at below
    exact Nat.not_lt.mpr visible below

/-- A character past the controls that is not escaped stands for itself. -/
theorem plain_utf8EncodeChar {c : Char} (quote : c ≠ '"') (slash : c ≠ '\\') (visible : ¬ c.toNat < 0x20) :
    ∀ b ∈ String.utf8EncodeChar c, Plain b := by
  have code {d : Char} (other : c ≠ d) : c.val.toNat ≠ d.val.toNat := fun same =>
    other (Char.ext (UInt32.toNat_inj.mp same))
  have quote : c.val.toNat ≠ 0x22 := code quote
  have slash : c.val.toNat ≠ 0x5C := code slash
  have visible : ¬ c.val.toNat < 0x20 := visible
  -- Only the bytes of characters below 0x80 are below 0x80 themselves.
  fun_cases String.utf8EncodeChar c with
  | case1 v ascii =>
    intro b hb
    obtain rfl := List.mem_singleton.mp hb
    exact plain_ofNat (by omega) (by omega) quote slash
  | case2 v =>
    simp only [List.forall_mem_cons]
    exact ⟨plain_ofNat (by omega) (by omega) (by omega) (by omega),
      plain_ofNat (by omega) (by omega) (by omega) (by omega), by simp⟩
  | case3 v =>
    simp only [List.forall_mem_cons]
    exact ⟨plain_ofNat (by omega) (by omega) (by omega) (by omega),
      plain_ofNat (by omega) (by omega) (by omega) (by omega),
      plain_ofNat (by omega) (by omega) (by omega) (by omega), by simp⟩
  | case4 v =>
    simp only [List.forall_mem_cons]
    exact ⟨plain_ofNat (by omega) (by omega) (by omega) (by omega),
      plain_ofNat (by omega) (by omega) (by omega) (by omega),
      plain_ofNat (by omega) (by omega) (by omega) (by omega),
      plain_ofNat (by omega) (by omega) (by omega) (by omega), by simp⟩

/-- What an escape is read as, behind its backslash. -/
theorem readEscape_control {n : Nat} (control : n < 0x20) (s : List UInt8) :
    readEscape (utf8 ['u', '0', '0', Nat.digitChar (n / 16), Nat.digitChar (n % 16)] ++ s) =
      .ok (String.utf8EncodeChar (.ofNat n), s) := by
  interval_cases n <;> rfl

theorem skipEscape_control {n : Nat} (control : n < 0x20) (s : List UInt8) :
    skipEscape (utf8 ['u', '0', '0', Nat.digitChar (n / 16), Nat.digitChar (n % 16)] ++ s) = .ok s := by
  interval_cases n <;> rfl

/-- How a character is written inside a string: as itself, or as an escape. -/
theorem escape_cases (c : Char) :
    (escape c = [c] ∧ ∀ b ∈ String.utf8EncodeChar c, Plain b) ∨
    ∃ e, utf8 (escape c) = 0x5C :: e ∧ ∀ s,
      readEscape (e ++ s) = .ok (String.utf8EncodeChar c, s) ∧ skipEscape (e ++ s) = .ok s := by
  unfold escape
  split_ifs with quote slash line ret tab back feed control
  case neg => exact .inl ⟨rfl, plain_utf8EncodeChar quote slash control⟩
  on_goal 8 =>
    refine .inr ⟨_, rfl, fun s => ⟨?_, skipEscape_control control s⟩⟩
    have read := readEscape_control control s
    rwa [Char.ofNat_toNat] at read
  all_goals
    subst c
    exact .inr ⟨_, rfl, fun s => ⟨rfl, rfl⟩⟩

theorem readString_escape_char (c : Char) (taken s : List UInt8) :
    readString taken (utf8 (escape c) ++ s) = readString ((String.utf8EncodeChar c).reverse ++ taken) s := by
  rcases escape_cases c with ⟨itself, plain⟩ | ⟨e, escaped, reads⟩
  · rw [itself, utf8_cons, utf8_nil, List.append_nil, readString_plain plain]
  · rw [escaped, List.cons_append, readString_escape (reads s).1]

theorem skipString_escape_char (c : Char) (s : List UInt8) :
    skipString (utf8 (escape c) ++ s) = skipString s := by
  rcases escape_cases c with ⟨itself, plain⟩ | ⟨e, escaped, reads⟩
  · rw [itself, utf8_cons, utf8_nil, List.append_nil, skipString_plain plain]
  · rw [escaped, List.cons_append, skipString_escape (reads s).2]

theorem readString_escaped (cs : List Char) (taken s : List UInt8) :
    readString taken (utf8 (cs.flatMap escape) ++ s) = readString ((utf8 cs).reverse ++ taken) s := by
  induction cs generalizing taken with
  | nil => rfl
  | cons c cs ih =>
    rw [List.flatMap_cons, utf8_append, List.append_assoc, readString_escape_char, ih, utf8_cons,
      List.reverse_append, List.append_assoc]

theorem skipString_escaped (cs : List Char) (s : List UInt8) :
    skipString (utf8 (cs.flatMap escape) ++ s) = skipString s := by
  induction cs with
  | nil => rfl
  | cons c cs ih => rw [List.flatMap_cons, utf8_append, List.append_assoc, skipString_escape_char, ih]

/-- A quoted string is one token. -/
theorem Token.next_quoted (text : String) (s : List UInt8) :
    Token.next (utf8 (quoted text) ++ s) = (.string (.ok text), s) := by
  have bytes : utf8 (quoted text) ++ s = 0x22 :: (utf8 (text.toList.flatMap escape) ++ 0x22 :: s) := by
    rw [quoted, utf8_cons, utf8_append, List.append_assoc, List.append_assoc]
    rfl
  have skipped : skipString (0x22 :: s) = .ok s := by rw [skipString, if_pos rfl]
  have read : readString (utf8 text.toList).reverse (0x22 :: s) = .ok text := by
    rw [readString, if_pos rfl, List.reverse_reverse, fromUTF8?_utf8]
  rw [bytes, next_cons (by decide)]
  change stringToken _ = _
  rw [stringToken, skipString_escaped, skipped, readString_escaped, List.append_nil, read]

end RemoteMenu.Json
