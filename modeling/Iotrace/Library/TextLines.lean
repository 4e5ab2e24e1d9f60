/-
# Lines and words of a text

A text is a list of characters of any type, with one of them, `nl`, for the end of a
line.  `splitLines` gives the lines that are ended and what follows the last end, and
`joinLines` ends each of a list of lines: `splitLines_join` says that the one undoes
the other.  `stripLines` removes the ends of lines at the end of a text.

`readWord` takes a word off a line, over a test for the blanks between words.
-/

import Mathlib.Data.List.DropRight
import Mathlib.Data.List.TakeWhile

namespace TextLines

variable {α : Type} {nl : α}

/-! ### Words -/

section Words

variable {isBlank : α → Bool}

/-- The first word of a line, and what follows it. -/
def readWord (isBlank : α → Bool) (line : List α) : List α × List α :=
  let line := line.dropWhile isBlank
  (line.takeWhile fun c => !isBlank c, line.dropWhile fun c => !isBlank c)

/-- A word ends at the end of the line or at a blank. -/
def EndsWord (isBlank : α → Bool) (rest : List α) : Prop := ∀ c ∈ rest.head?, isBlank c = true

/-- Blanks before a word are skipped. -/
theorem dropWhile_blanks {blanks : List α} (h : ∀ c ∈ blanks, isBlank c = true) (rest : List α) :
    (blanks ++ rest).dropWhile isBlank = rest.dropWhile isBlank := by
  rw [List.dropWhile_append, if_pos]
  rw [List.isEmpty_iff, List.dropWhile_eq_nil_iff]
  exact h

/-- **A word behind blanks is read.** -/
theorem readWord_append {blanks word rest : List α} (hblanks : ∀ c ∈ blanks, isBlank c = true)
    (hne : word ≠ []) (hword : ∀ c ∈ word, isBlank c = false) (hrest : EndsWord isBlank rest) :
    readWord isBlank (blanks ++ (word ++ rest)) = (word, rest) := by
  have hnot : ∀ c ∈ word, (!isBlank c) = true := fun c hc => by rw [hword c hc]; rfl
  have hstart : (word ++ rest).dropWhile isBlank = word ++ rest := by
    cases word with
    | nil => exact absurd rfl hne
    | cons c word => simp [hword c List.mem_cons_self]
  rw [readWord, dropWhile_blanks hblanks, hstart, List.takeWhile_append_of_pos hnot,
    List.dropWhile_append_of_pos hnot]
  cases rest with
  | nil => simp
  | cons c rest => simp [hrest c rfl]

/-- A line of blanks has no word. -/
theorem readWord_blanks {blanks : List α} (h : ∀ c ∈ blanks, isBlank c = true) :
    readWord isBlank blanks = ([], []) := by
  have hdrop : blanks.dropWhile isBlank = [] := List.dropWhile_eq_nil_iff.mpr h
  rw [readWord, hdrop]
  rfl

end Words

/-! ### Lines -/

/-- The text of lines that are all ended. -/
def joinLines (nl : α) (lines : List (List α)) : List α := lines.flatMap fun line => line ++ [nl]

@[simp] theorem joinLines_nil : joinLines nl [] = [] := rfl

@[simp] theorem joinLines_cons (line : List α) (lines : List (List α)) :
    joinLines nl (line :: lines) = line ++ nl :: joinLines nl lines := by
  simp [joinLines]

theorem joinLines_append (lines lines' : List (List α)) :
    joinLines nl (lines ++ lines') = joinLines nl lines ++ joinLines nl lines' := by
  simp [joinLines]

variable [DecidableEq α]

/-- The lines of a text that are ended, and the rest. -/
def splitLines (nl : α) : List α → List (List α) × List α
  | [] => ([], [])
  | c :: text =>
    match splitLines nl text with
    | (lines, rest) =>
      if c = nl then ([] :: lines, rest)
      else
        match lines with
        | [] => ([], c :: rest)
        | line :: lines => ((c :: line) :: lines, rest)

/-- All lines of a text, also a last one that is not ended. -/
def allLines (nl : α) (text : List α) : List (List α) :=
  match splitLines nl text with
  | (lines, rest) => if rest = [] then lines else lines ++ [rest]

/-- The text without the ends of lines at its end. -/
def stripLines (nl : α) (text : List α) : List α := text.rdropWhile fun c => c = nl

/-- The first line of a text. -/
theorem splitLines_append {line : List α} (h : nl ∉ line) (text : List α) :
    splitLines nl (line ++ nl :: text) =
      (line :: (splitLines nl text).1, (splitLines nl text).2) := by
  induction line with
  | nil => simp [splitLines]
  | cons c line ih =>
      have hc : c ≠ nl := fun heq => h (heq ▸ List.mem_cons_self)
      have hline := ih fun hmem => h (List.mem_cons_of_mem c hmem)
      rw [List.cons_append, splitLines, hline]
      simp only [if_neg hc]

/-- A text without an end of a line. -/
theorem splitLines_of_notMem {text : List α} (h : nl ∉ text) :
    splitLines nl text = ([], text) := by
  induction text with
  | nil => rfl
  | cons c text ih =>
      have hc : c ≠ nl := fun heq => h (heq ▸ List.mem_cons_self)
      have htext := ih fun hmem => h (List.mem_cons_of_mem c hmem)
      rw [splitLines, htext]
      simp only [if_neg hc]

/-- **Splitting undoes joining.** -/
theorem splitLines_join {lines : List (List α)} {rest : List α}
    (hlines : ∀ line ∈ lines, nl ∉ line) (hrest : nl ∉ rest) :
    splitLines nl (joinLines nl lines ++ rest) = (lines, rest) := by
  induction lines with
  | nil => exact splitLines_of_notMem hrest
  | cons line lines ih =>
      have htail := ih fun line' hmem => hlines line' (List.mem_cons_of_mem line hmem)
      rw [joinLines_cons, List.append_assoc, List.cons_append,
        splitLines_append (hlines line List.mem_cons_self), htail]

/-- All lines of a text whose last one is ended or not. -/
theorem allLines_join {lines : List (List α)} {rest : List α}
    (hlines : ∀ line ∈ lines, nl ∉ line) (hrest : nl ∉ rest) :
    allLines nl (joinLines nl lines ++ rest) = if rest = [] then lines else lines ++ [rest] := by
  rw [allLines, splitLines_join hlines hrest]

/-- The lines of a text of ended lines. -/
theorem allLines_joinLines {lines : List (List α)} (hlines : ∀ line ∈ lines, nl ∉ line) :
    allLines nl (joinLines nl lines) = lines := by
  have hall := allLines_join hlines List.not_mem_nil
  rwa [List.append_nil, if_pos rfl] at hall

/-- There are as many ends of lines as lines. -/
theorem count_joinLines {lines : List (List α)} (hlines : ∀ line ∈ lines, nl ∉ line) :
    (joinLines nl lines).count nl = lines.length := by
  induction lines with
  | nil => rfl
  | cons line lines ih =>
      have htail := ih fun line' hmem => hlines line' (List.mem_cons_of_mem line hmem)
      rw [joinLines_cons, List.count_append, List.count_cons_self, htail,
        List.count_eq_zero_of_not_mem (hlines line List.mem_cons_self), List.length_cons]
      omega

/-- The end of the last line is removed, and nothing else if the line is not empty. -/
theorem stripLines_join {line : List α} (hne : line ≠ []) (h : nl ∉ line)
    (lines : List (List α)) :
    stripLines nl (joinLines nl (lines ++ [line])) = joinLines nl lines ++ line := by
  have hlast : line.getLast hne ≠ nl := fun heq => h (heq ▸ List.getLast_mem hne)
  have hsplit : joinLines nl (lines ++ [line]) = (joinLines nl lines ++ line) ++ [nl] := by
    simp [joinLines]
  rw [hsplit, stripLines, List.rdropWhile_concat_pos _ _ _ (by simp),
    List.rdropWhile_eq_self_iff]
  intro hne'
  rw [List.getLast_append_of_ne_nil _ hne]
  simpa using hlast

end TextLines
