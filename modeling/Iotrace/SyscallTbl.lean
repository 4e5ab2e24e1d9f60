/-
# Tables of syscalls

The texts that `syscall_parser.sh` is given: rows with strictly increasing numbers, in
any layout that `read` takes apart, and between them empty lines, comments and indented
comments (`SyscallTbl`).  `grep` leaves of it the rows and the indentations, and the
loop of the script sees all of these but the last (`splitLines_tbl`), with the fields
that are on them (`seen_fields`).
-/

import Iotrace.SyscallParser

namespace Iotrace

open TextLines

/-! ### Tables -/

/-- A text without blanks, comments and characters that the shell treats in a special
way. -/
def IsWord (text : List Char) : Prop :=
  text ≠ [] ∧ ∀ c ∈ text, isBlank c = false ∧ c ≠ '\n' ∧ c ≠ '#' ∧ c ≠ '\\'

instance (text : List Char) : Decidable (IsWord text) :=
  decidable_of_iff (text ≠ [] ∧
    (text.all fun c => !isBlank c && c != '\n' && c != '#' && c != '\\') = true)
    (by simp [IsWord, List.all_eq_true, and_assoc])

/-- A row of the table; nothing that the script does depends on its entry point. -/
structure TableRow where
  nr : ℕ
  abi : List Char
  name : List Char
  abiWord : IsWord abi
  nameWord : IsWord name
  unquoted : '"' ∉ name

/-- A line with a row: the fields with blanks before them, and the rest of the line. -/
structure RowLine where
  row : TableRow
  indent : List Char
  gap : List Char
  gap' : List Char
  rest : List Char
  indentBlank : ∀ c ∈ indent, isBlank c = true
  gapBlank : gap ≠ [] ∧ ∀ c ∈ gap, isBlank c = true
  gapBlank' : gap' ≠ [] ∧ ∀ c ∈ gap', isBlank c = true
  restEnds : ∀ c ∈ rest.head?, isBlank c = true ∨ c = '#'
  restPlain : '\n' ∉ rest ∧ '\\' ∉ rest.takeWhile (· ≠ '#')

/-- A line without a row: a comment or nothing, perhaps behind blanks. -/
structure CommentLine where
  indent : List Char
  comment : List Char
  indentBlank : ∀ c ∈ indent, isBlank c = true
  commentStarts : ∀ c ∈ comment.head?, c = '#'
  commentPlain : '\n' ∉ comment

/-- A line of a table. -/
inductive TableLine where
  | row (line : RowLine)
  | comment (line : CommentLine)

namespace TableLine

/-- The text of a line. -/
def text : TableLine → List Char
  | .row l => l.indent ++ (decimal l.row.nr ++ (l.gap ++ (l.row.abi ++ (l.gap' ++
      (l.row.name ++ l.rest)))))
  | .comment l => l.indent ++ l.comment

/-- The row on a line. -/
def row? : TableLine → Option TableRow
  | .row l => some l.row
  | .comment _ => none

/-- What `grep` leaves of a line: a row, or an indentation if there is one. -/
def item : TableLine → Option (Option TableRow)
  | .row l => some (some l.row)
  | .comment l => if l.indent = [] then none else some none

end TableLine

/-- A table of syscalls; its last line may lack its end. -/
structure SyscallTbl where
  lines : List TableLine
  ended : Bool
  nonempty : lines.filterMap TableLine.row? ≠ []
  increasing : (lines.filterMap TableLine.row?).Pairwise fun r r' => r.nr < r'.nr

namespace SyscallTbl

/-- The rows. -/
def rows (t : SyscallTbl) : List TableRow := t.lines.filterMap TableLine.row?

/-- The text of a table. -/
def input (t : SyscallTbl) : List Char :=
  let text := joinLines '\n' (t.lines.map TableLine.text)
  if t.ended then text else text.dropLast

end SyscallTbl

/-! ### The lines that `grep` leaves -/

theorem isDigit_of_mem_decimal {n : ℕ} {c : Char} (h : c ∈ decimal n) : c.isDigit = true :=
  Nat.isDigit_of_mem_toDigits (by omega) (by omega) h

/-- A number is a word of a table. -/
theorem isWord_decimal (n : ℕ) : IsWord (decimal n) := by
  refine ⟨Nat.toDigits_ne_nil, fun c hc => ?_⟩
  have hdigit := isDigit_of_mem_decimal hc
  refine ⟨?_, ?_, ?_, ?_⟩
  · by_contra hblank
    simp only [isBlank, Bool.or_eq_true, decide_eq_true_eq, Bool.not_eq_false] at hblank
    rcases hblank with rfl | rfl <;> exact absurd hdigit (by decide)
  all_goals
    rintro rfl
    exact absurd hdigit (by decide)

/-- The value of a number's text is the number. -/
theorem decimalValue_decimal (n : ℕ) : decimalValue (decimal n) = some n := by
  have h : Nat.ofDigitChars 10 (decimal n) 0 = n := Nat.ofDigitChars_ten_toDigits
  rw [decimalValue, h]
  exact if_pos rfl

namespace IsWord

variable {text : List Char}

theorem notMem {c : Char} (hc : c = '\n' ∨ c = '#' ∨ c = '\\') (h : IsWord text) : c ∉ text := by
  intro hmem
  obtain ⟨-, h₁, h₂, h₃⟩ := h.2 c hmem
  rcases hc with hc | hc | hc
  · exact h₁ hc
  · exact h₂ hc
  · exact h₃ hc

end IsWord

theorem notMem_of_blank {c : Char} {blanks : List Char} (h : ∀ c ∈ blanks, isBlank c = true)
    (hc : isBlank c = false) : c ∉ blanks := by
  intro hmem
  rw [h c hmem] at hc
  cases hc

namespace TableLine

/-- A line of a table is one line. -/
theorem text_plain (l : TableLine) : '\n' ∉ l.text := by
  cases l with
  | row l =>
      have hdecimal := (isWord_decimal l.row.nr).notMem (Or.inl rfl)
      have habi := l.row.abiWord.notMem (Or.inl rfl)
      have hname := l.row.nameWord.notMem (Or.inl rfl)
      simp only [text, List.mem_append, not_or]
      exact ⟨notMem_of_blank l.indentBlank rfl, hdecimal, notMem_of_blank l.gapBlank.2 rfl, habi,
        notMem_of_blank l.gapBlank'.2 rfl, hname, l.restPlain.1⟩
  | comment l =>
      rw [text, List.mem_append, not_or]
      exact ⟨notMem_of_blank l.indentBlank rfl, l.commentPlain⟩

/-- What `read` finds in the fields. -/
def fields : Option TableRow → List Char × List Char × List Char
  | some r => (decimal r.nr, r.abi, r.name)
  | none => ([], [], [])

theorem takeWhile_append_plain {text : List Char} (h : '#' ∉ text) (rest : List Char) :
    (text ++ rest).takeWhile (· ≠ '#') = text ++ rest.takeWhile (· ≠ '#') :=
  List.takeWhile_append_of_pos fun c hc => by
    have hne : c ≠ '#' := fun heq => h (heq ▸ hc)
    simpa using hne

/-- The part of a row before a comment. -/
theorem matched_row (l : RowLine) :
    (TableLine.row l).text.takeWhile (· ≠ '#') = l.indent ++ (decimal l.row.nr ++ (l.gap ++
      (l.row.abi ++ (l.gap' ++ (l.row.name ++ l.rest.takeWhile (· ≠ '#')))))) := by
  have hdecimal := (isWord_decimal l.row.nr).notMem (Or.inr (Or.inl rfl))
  have habi := l.row.abiWord.notMem (Or.inr (Or.inl rfl))
  have hname := l.row.nameWord.notMem (Or.inr (Or.inl rfl))
  rw [text, takeWhile_append_plain (notMem_of_blank l.indentBlank rfl),
    takeWhile_append_plain hdecimal, takeWhile_append_plain (notMem_of_blank l.gapBlank.2 rfl),
    takeWhile_append_plain habi, takeWhile_append_plain (notMem_of_blank l.gapBlank'.2 rfl),
    takeWhile_append_plain hname]

/-- Of a comment its indentation is left. -/
theorem matched_comment (l : CommentLine) :
    (TableLine.comment l).text.takeWhile (· ≠ '#') = l.indent := by
  rw [text, takeWhile_append_plain (notMem_of_blank l.indentBlank rfl)]
  have hstart := l.commentStarts
  cases hcomment : l.comment with
  | nil => simp
  | cons c comment =>
      rw [hcomment] at hstart
      simp [hstart c rfl]

/-- **The fields of a row.** -/
theorem readFields_row (l : RowLine) :
    readFields ((TableLine.row l).text.takeWhile (· ≠ '#')) = fields (some l.row) := by
  have hends : ∀ {gap rest : List Char}, gap ≠ [] ∧ (∀ c ∈ gap, isBlank c = true) →
      EndsWord isBlank (gap ++ rest) := by
    rintro gap rest ⟨hne, hgap⟩ c hc
    cases gap with
    | nil => exact absurd rfl hne
    | cons b gap =>
        obtain rfl := Option.some.inj hc
        exact hgap b List.mem_cons_self
  have hrest : EndsWord isBlank (l.rest.takeWhile (· ≠ '#')) := by
    intro c hc
    have hstart := l.restEnds
    cases hl : l.rest with
    | nil => simp [hl] at hc
    | cons b rest =>
        rw [hl] at hc hstart
        rcases hstart b rfl with hb | rfl
        · by_cases hne : b = '#'
          · subst hne
            cases hb
          · simp only [List.takeWhile_cons, decide_eq_true hne, if_true, List.head?_cons,
              Option.mem_def, Option.some.injEq] at hc
            rw [← hc]
            exact hb
        · simp at hc
  have hdecimal := isWord_decimal l.row.nr
  rw [matched_row, readFields,
    readWord_append l.indentBlank hdecimal.1 (fun c hc => (hdecimal.2 c hc).1) (hends l.gapBlank)]
  dsimp only
  rw [readWord_append l.gapBlank.2 l.row.abiWord.1 (fun c hc => (l.row.abiWord.2 c hc).1)
    (hends l.gapBlank')]
  dsimp only
  rw [readWord_append l.gapBlank'.2 l.row.nameWord.1 (fun c hc => (l.row.nameWord.2 c hc).1) hrest]
  rfl

/-- A line of blanks has empty fields. -/
theorem readFields_comment (l : CommentLine) :
    readFields ((TableLine.comment l).text.takeWhile (· ≠ '#')) = fields none := by
  have hnil : readWord isBlank [] = ([], []) := rfl
  rw [matched_comment, readFields, readWord_blanks l.indentBlank]
  dsimp only
  rw [hnil]
  rfl

/-- **What `grep` leaves of a table,** with the fields that `read` finds in it. -/
theorem matched_fields (lines : List TableLine) :
    (((lines.map text).map fun line => line.takeWhile (· ≠ '#')).filter (· ≠ [])).map readFields =
      (lines.filterMap item).map fields := by
  induction lines with
  | nil => rfl
  | cons l lines ih =>
      cases l with
      | row l =>
          have hne : (TableLine.row l).text.takeWhile (· ≠ '#') ≠ [] := by
            rw [matched_row]
            simp [(isWord_decimal l.row.nr).1]
          rw [List.map_cons, List.map_cons, List.filter_cons_of_pos (by simpa using hne),
            List.map_cons, ih, readFields_row]
          rfl
      | comment l =>
          by_cases hindent : l.indent = []
          · have hitem : item (.comment l) = none := if_pos hindent
            have hnil : (TableLine.comment l).text.takeWhile (· ≠ '#') = [] := by
              rw [matched_comment, hindent]
            rw [List.map_cons, List.map_cons, List.filter_cons_of_neg (by simpa using hnil), ih,
              List.filterMap_cons_none hitem]
          · have hitem : item (.comment l) = some none := if_neg hindent
            have hne : (TableLine.comment l).text.takeWhile (· ≠ '#') ≠ [] := by
              rw [matched_comment]
              exact hindent
            rw [List.map_cons, List.map_cons, List.filter_cons_of_pos (by simpa using hne),
              List.map_cons, ih, readFields_comment, List.filterMap_cons_some hitem]
            rfl

end TableLine

namespace SyscallTbl

/-- The lines that `grep` leaves. -/
def matched (t : SyscallTbl) : List (List Char) :=
  ((t.lines.map TableLine.text).map fun line => line.takeWhile (· ≠ '#')).filter (· ≠ [])

/-- What `grep` writes, whether the last line is ended or not. -/
theorem grepPrefixes_input (t : SyscallTbl) : grepPrefixes t.input = joinLines '\n' t.matched := by
  have hplain : ∀ line ∈ t.lines.map TableLine.text, '\n' ∉ line := by
    intro line hline
    obtain ⟨l, -, rfl⟩ := List.mem_map.mp hline
    exact l.text_plain
  have hne : t.lines.map TableLine.text ≠ [] := by
    intro hnil
    refine t.nonempty ?_
    rw [List.map_eq_nil_iff.mp hnil]
    rfl
  rw [grepPrefixes, matched, input]
  congr 1
  cases t.ended with
  | true =>
      rw [if_pos rfl, allLines_joinLines hplain]
  | false =>
      -- Without its end an empty last line is no line, but `grep` finds nothing on it anyway.
      obtain ⟨lines, last, hlines⟩ : ∃ lines last, t.lines.map TableLine.text = lines ++ [last] :=
        ⟨_, _, (List.dropLast_append_getLast hne).symm⟩
      rw [hlines] at hplain ⊢
      have hdrop : (joinLines '\n' (lines ++ [last])).dropLast = joinLines '\n' lines ++ last := by
        have hlast :
            joinLines '\n' (lines ++ [last]) = (joinLines '\n' lines ++ last) ++ ['\n'] := by
          simp [joinLines]
        rw [hlast, List.dropLast_concat]
      have hall := allLines_join (fun line h => hplain line (List.mem_append_left _ h))
        (hplain last (List.mem_append_right _ List.mem_cons_self))
      rw [if_neg Bool.false_ne_true, hdrop, hall]
      split_ifs with hempty
      · rw [hempty, List.map_append, List.filter_append]
        simp
      · rfl

/-- **What the loop sees:** all lines that `grep` leaves but the last. -/
theorem splitLines_tbl (t : SyscallTbl) :
    (splitLines '\n' (stripLines '\n' (grepPrefixes t.input))).1 = t.matched.dropLast := by
  have hfields : t.matched.map readFields = (t.lines.filterMap TableLine.item).map _ :=
    TableLine.matched_fields t.lines
  have hne : t.matched ≠ [] := by
    intro hnil
    rw [hnil, List.map_nil, eq_comm, List.map_eq_nil_iff] at hfields
    refine t.nonempty (List.filterMap_eq_nil_iff.mpr fun l hl => ?_)
    have hitem := List.filterMap_eq_nil_iff.mp hfields l hl
    cases l with
    | row l => cases hitem
    | comment l => rfl
  have hplain : ∀ line ∈ t.matched, line ≠ [] ∧ '\n' ∉ line := by
    intro line hline
    obtain ⟨hline, hne⟩ := List.mem_filter.mp hline
    obtain ⟨text, htext, rfl⟩ := List.mem_map.mp hline
    obtain ⟨l, -, rfl⟩ := List.mem_map.mp htext
    exact ⟨by simpa using hne, fun hmem => l.text_plain ((List.takeWhile_prefix _).subset hmem)⟩
  obtain ⟨lines, last, hlines⟩ : ∃ lines last, t.matched = lines ++ [last] :=
    ⟨_, _, (List.dropLast_append_getLast hne).symm⟩
  rw [grepPrefixes_input]
  rw [hlines] at hplain ⊢
  obtain ⟨hlast, hnotMem⟩ := hplain last (List.mem_append_right _ List.mem_cons_self)
  rw [stripLines_join hlast hnotMem, splitLines_join
    (fun line h => (hplain line (List.mem_append_left _ h)).2) hnotMem, List.dropLast_concat]

/-- The rows and indentations that the loop sees. -/
def seen (t : SyscallTbl) : List (Option TableRow) := (t.lines.filterMap TableLine.item).dropLast

/-- The fields of what the loop sees. -/
theorem seen_fields (t : SyscallTbl) :
    t.matched.dropLast.map readFields = t.seen.map TableLine.fields := by
  rw [seen, List.map_dropLast, List.map_dropLast]
  exact congrArg List.dropLast (TableLine.matched_fields t.lines)

end SyscallTbl

end Iotrace
