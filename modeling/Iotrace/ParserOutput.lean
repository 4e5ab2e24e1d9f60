/-
# What the generator writes

The elements of the generated array are the `slots` of the lines that the loop of
`syscall_parser.sh` sees, and the length in the header is their number
(`syscallParser_eq`).  For rows with increasing numbers the slots are the names at
their numbers and `UNDEFINED_SYSCALL` between them, up to the last row.
-/

import Iotrace.SyscallTbl

namespace Iotrace

open TextLines

/-! ### What the loop writes -/

/-- The elements that the loop writes, where `next` is the first index that it has not
filled, or `none` where it has lost count. -/
def slots : Option ℕ → List (Option TableRow) → List Initializer
  | _, [] => []
  | next, item :: items =>
    List.replicate (next.elim 0 fun m => item.elim 0 TableRow.nr - m)
        (.ident "UNDEFINED_SYSCALL".toList) ++
      .string (item.elim [] TableRow.name) :: slots (item.map fun r : TableRow => r.nr + 1) items

/-- A line of the array in the output. -/
structure ElementLine (line : List Char) : Prop where
  plain : '\n' ∉ line
  inside : line ≠ "\x7d;".toList

theorem expand_cons {c : Char} (hc : c ≠ '\\') (text : List Char) :
    expand (c :: text) = c :: expand text := by
  rw [expand]
  · exact fun _ h => absurd h hc
  · exact fun _ h => absurd h hc

/-- `echo` leaves a text without backslashes as it is. -/
theorem expand_append {word : List Char} (h : '\\' ∉ word) (text : List Char) :
    expand (word ++ text) = word ++ expand text := by
  induction word with
  | nil => rfl
  | cons c word ih =>
      have hc : c ≠ '\\' := fun heq => h (heq ▸ List.mem_cons_self)
      rw [List.cons_append, expand_cons hc, ih fun hmem => h (List.mem_cons_of_mem c hmem)]
      rfl

theorem integerText_natCast (n : ℕ) : integerText (n : ℤ) = decimal n := rfl

/-- The line of an undefined number. -/
theorem echo_undefined (n : ℕ) :
    ∃ line, echo ("\\tUNDEFINED_SYSCALL,\\t\\t// nr: ".toList ++ integerText n) = line ++ ['\n'] ∧
      initializer line = .ident "UNDEFINED_SYSCALL".toList ∧ ElementLine line := by
  have hword := isWord_decimal n
  have hexpand : expand ("\\tUNDEFINED_SYSCALL,\\t\\t// nr: ".toList ++ decimal n) =
      "\tUNDEFINED_SYSCALL,\t\t// nr: ".toList ++ expand (decimal n) := rfl
  have hdecimal := expand_append (hword.notMem (Or.inr (Or.inr rfl))) []
  rw [List.append_nil] at hdecimal
  refine ⟨"\tUNDEFINED_SYSCALL,\t\t// nr: ".toList ++ decimal n, ?_, rfl, ?_, nofun⟩
  · rw [integerText_natCast, echo, hexpand, hdecimal]
    simp [expand]
  · rw [List.mem_append, not_or]
    exact ⟨by decide, hword.notMem (Or.inl rfl)⟩

/-- The line of a row, or of an indentation that is taken for one. -/
theorem echo_row (item : Option TableRow) :
    ∃ line, echo ("\\t\"".toList ++ (TableLine.fields item).2.2 ++ "\",\\t\\t// nr: ".toList ++
        (TableLine.fields item).1 ++ ", abi: ".toList ++ (TableLine.fields item).2.1) =
          line ++ ['\n'] ∧
      initializer line = .string (item.elim [] TableRow.name) ∧ ElementLine line := by
  have hfields : ∀ {nr abi name : List Char}, '\\' ∉ nr → '\\' ∉ abi → '\\' ∉ name →
      '\n' ∉ nr → '\n' ∉ abi → '\n' ∉ name → '"' ∉ name →
      ∃ line, echo ("\\t\"".toList ++ name ++ "\",\\t\\t// nr: ".toList ++ nr ++
          ", abi: ".toList ++ abi) = line ++ ['\n'] ∧
        initializer line = .string name ∧ ElementLine line := by
    intro nr abi name hnr habi hname hnr' habi' hname' hquote
    have hopen : ∀ text, expand ("\\t\"".toList ++ text) = "\t\"".toList ++ expand text :=
      fun text => rfl
    have hclose : ∀ text, expand ("\",\\t\\t// nr: ".toList ++ text) =
        "\",\t\t// nr: ".toList ++ expand text := fun text => rfl
    have hend := expand_append habi []
    rw [List.append_nil] at hend
    refine ⟨"\t\"".toList ++
      (name ++ ("\",\t\t// nr: ".toList ++ (nr ++ (", abi: ".toList ++ abi)))), ?_, ?_, ?_, nofun⟩
    · simp only [echo, List.append_assoc]
      rw [hopen, expand_append hname, hclose, expand_append hnr, expand_append (by decide), hend]
      simp [expand]
    · show Initializer.string ((name ++ '"' :: _).takeWhile (· ≠ '"')) = .string name
      rw [List.takeWhile_append_of_pos fun c hc => by
        have hne : c ≠ '"' := fun heq => hquote (heq ▸ hc)
        simpa using hne]
      simp
    · simp only [List.mem_append, not_or]
      exact ⟨by decide, hname', by decide, hnr', by decide, habi'⟩
  cases item with
  | none =>
      exact hfields List.not_mem_nil List.not_mem_nil List.not_mem_nil List.not_mem_nil
        List.not_mem_nil List.not_mem_nil List.not_mem_nil
  | some r =>
      have hnr := isWord_decimal r.nr
      have hslash : '\\' = '\n' ∨ '\\' = '#' ∨ '\\' = '\\' := Or.inr (Or.inr rfl)
      exact hfields (hnr.notMem hslash) (r.abiWord.notMem hslash) (r.nameWord.notMem hslash)
        (hnr.notMem (Or.inl rfl)) (r.abiWord.notMem (Or.inl rfl)) (r.nameWord.notMem (Or.inl rfl))
        r.unquoted

/-- The inner loop fills `n` elements. -/
theorem undefinedLines_eq (n m : ℕ) :
    ∃ lines, undefinedLines n ((m : ℤ) - 1) = joinLines '\n' lines ∧
      lines.map initializer = List.replicate n (.ident "UNDEFINED_SYSCALL".toList) ∧
      ∀ line ∈ lines, ElementLine line := by
  induction n generalizing m with
  | zero => exact ⟨[], rfl, rfl, fun _ h => absurd h List.not_mem_nil⟩
  | succ n ih =>
      obtain ⟨line, hline, hinit, helement⟩ := echo_undefined m
      obtain ⟨lines, hlines, hinits, helements⟩ := ih (m + 1)
      have hlast : (m : ℤ) - 1 + 1 = m := by omega
      have hnext : ((m + 1 : ℕ) : ℤ) - 1 = m := by omega
      rw [hnext] at hlines
      refine ⟨line :: lines, ?_, ?_, fun line' hmem => ?_⟩
      · rw [undefinedLines, hlast, hline, hlines]
        simp
      · rw [List.map_cons, hinit, hinits, List.replicate_succ]
      · rcases List.mem_cons.mp hmem with rfl | hmem
        · exact helement
        · exact helements line' hmem

/-- An empty number counts as zero. -/
theorem minusOne_fields (item : Option TableRow) :
    minusOne (TableLine.fields item).1 = some (((item.elim 0 TableRow.nr : ℕ) : ℤ) - 1) := by
  cases item with
  | none => rfl
  | some r =>
      have hvalue : minusOne (decimal r.nr) = some ((r.nr : ℤ) - 1) := by
        rw [minusOne, if_neg (isWord_decimal r.nr).1, decimalValue_decimal]
        rfl
      exact hvalue

theorem decimalValue_fields (item : Option TableRow) :
    decimalValue (TableLine.fields item).1 = item.map TableRow.nr := by
  cases item with
  | none => decide
  | some r => exact decimalValue_decimal r.nr

/-- The gap before a row. -/
theorem gap_eq (next : Option ℕ) (n : ℕ) :
    ∃ lines, fillGap (next.map fun m : ℕ => (m : ℤ) - 1) ((n : ℤ) - 1) = joinLines '\n' lines ∧
      lines.map initializer =
        List.replicate (next.elim 0 fun m => n - m) (.ident "UNDEFINED_SYSCALL".toList) ∧
      ∀ line ∈ lines, ElementLine line := by
  cases next with
  | none => exact ⟨[], rfl, rfl, fun _ h => absurd h List.not_mem_nil⟩
  | some m =>
      have hcount : ((n : ℤ) - 1 - ((m : ℤ) - 1)).toNat = n - m := by omega
      simp only [Option.map_some, Option.elim_some, fillGap, hcount]
      exact undefinedLines_eq (n - m) m

/-- **What the loop writes** for lines with the given fields. -/
theorem parserLoop_eq {items : List (Option TableRow)} {texts : List (List Char)}
    (next : Option ℕ) (h : texts.map readFields = items.map TableLine.fields) :
    ∃ lines, parserLoop (next.map fun m : ℕ => (m : ℤ) - 1) texts = some (joinLines '\n' lines) ∧
      lines.map initializer = slots next items ∧ ∀ line ∈ lines, ElementLine line := by
  induction items generalizing texts next with
  | nil =>
      obtain rfl := List.map_eq_nil_iff.mp h
      exact ⟨[], rfl, rfl, fun _ h => absurd h List.not_mem_nil⟩
  | cons item items ih =>
      obtain ⟨text, texts, rfl, htext, htexts⟩ := List.map_eq_cons_iff.mp h
      obtain ⟨gap, hgap, hgapInit, hgapElement⟩ := gap_eq next (item.elim 0 TableRow.nr)
      obtain ⟨line, hline, hinit, helement⟩ := echo_row item
      obtain ⟨lines, hlines, hinits, helements⟩ := ih (item.map fun r => r.nr + 1) htexts
      have hlast : (decimalValue (TableLine.fields item).1).map (fun n : ℕ => (n : ℤ)) =
          (item.map fun r : TableRow => r.nr + 1).map fun m : ℕ => (m : ℤ) - 1 := by
        rw [decimalValue_fields]
        cases item with
        | none => rfl
        | some r => simp
      refine ⟨gap ++ line :: lines, ?_, ?_, fun line' hmem => ?_⟩
      · rw [parserLoop, htext]
        simp only [minusOne_fields, Option.bind_eq_bind, Option.bind_some, hlast, hlines, hgap,
          hline]
        rw [joinLines_append, joinLines_cons]
        simp
      · rw [List.map_append, List.map_cons, hgapInit, hinit, hinits, slots]
      · rcases List.mem_append.mp hmem with hmem | hmem
        · exact hgapElement line' hmem
        · rcases List.mem_cons.mp hmem with rfl | hmem
          · exact helement
          · exact helements line' hmem

/-! ### The files -/

/-- The `.c` file around the lines of the array. -/
def fileC (lines : List (List Char)) : List (List Char) :=
  ["#include \"syscall_names.h\"".toList, [], [],
    "char const *const syscall_names[] = \x7b".toList] ++ (lines ++ ["\x7d;".toList, []])

theorem fileC_plain {lines : List (List Char)} (h : ∀ line ∈ lines, ElementLine line) :
    ∀ line ∈ fileC lines, '\n' ∉ line := by
  have hhead : ∀ line ∈ ["#include \"syscall_names.h\"".toList, [], [],
      "char const *const syscall_names[] = \x7b".toList], '\n' ∉ line := by decide
  have hfoot : ∀ line ∈ ["\x7d;".toList, []], '\n' ∉ line := by decide
  intro line hmem
  rcases List.mem_append.mp hmem with hmem | hmem
  · exact hhead line hmem
  · rcases List.mem_append.mp hmem with hmem | hmem
    · exact (h line hmem).plain
    · exact hfoot line hmem

/-- The array is read back from the `.c` file. -/
theorem arrayElements_fileC {lines : List (List Char)} (h : ∀ line ∈ lines, ElementLine line) :
    arrayElements (joinLines '\n' (fileC lines)) = lines.map initializer := by
  have hdrop : ((fileC lines).dropWhile
      (· ≠ "char const *const syscall_names[] = \x7b".toList)).drop 1 =
        lines ++ ["\x7d;".toList, []] := rfl
  have hinside : ∀ line ∈ lines, decide (line ≠ "\x7d;".toList) = true :=
    fun line hmem => decide_eq_true (h line hmem).inside
  rw [arrayElements, allLines_joinLines (fileC_plain h), hdrop,
    List.takeWhile_append_of_pos hinside]
  simp

/-- The `.h` file before the line of `NAMES_LENGTH`. -/
def headH : List (List Char) :=
  ["#ifndef IOTRACE_SYSCALL_NAMES_H".toList, "#define IOTRACE_SYSCALL_NAMES_H".toList, [],
    "#define UNDEFINED_SYSCALL \"UNDEFINED_SYSCALL\"".toList]

/-- The `.h` file behind the line of `NAMES_LENGTH`. -/
def footH : List (List Char) :=
  [[], [], "extern const char *const syscall_names[NAMES_LENGTH];".toList, [], [],
    "#endif".toList, []]

/-- The `.h` file. -/
def fileH (count : List Char) : List (List Char) :=
  headH ++ ("#define NAMES_LENGTH ".toList ++ count) :: footH

/-- The length is read back from the `.h` file. -/
theorem namesLength_fileH {count : List Char} (h : '\n' ∉ count) :
    namesLength (joinLines '\n' (fileH count)) = some count := by
  have hcount : '\n' ∉ "#define NAMES_LENGTH ".toList ++ count := by
    rw [List.mem_append, not_or]
    exact ⟨by decide, h⟩
  have hhead : ∀ line ∈ headH, '\n' ∉ line := by decide
  have hfoot : ∀ line ∈ footH, '\n' ∉ line := by decide
  have hplain : ∀ line ∈ fileH count, '\n' ∉ line := by
    intro line hmem
    rcases List.mem_append.mp hmem with hmem | hmem
    · exact hhead line hmem
    · rcases List.mem_cons.mp hmem with rfl | hmem
      · exact hcount
      · exact hfoot line hmem
  have hother : headH.findSome? (List.dropPrefix? · "#define NAMES_LENGTH ".toList) = none := by
    decide
  have hline : ("#define NAMES_LENGTH ".toList ++ count).dropPrefix?
      "#define NAMES_LENGTH ".toList = some count := by
    simp [List.dropPrefix?]
  rw [namesLength, allLines_joinLines hplain, fileH, List.findSome?_append, hother, Option.none_or,
    List.findSome?_cons, hline]

/-- What the script writes into the `.c` file. -/
theorem outC_eq (lines : List (List Char)) :
    echo "#include \"syscall_names.h\"\\n\\n".toList ++
      echo "char const *const syscall_names[] = \x7b".toList ++ joinLines '\n' lines ++
        echo "\x7d;\\n".toList = joinLines '\n' (fileC lines) := by
  have hhead : echo "#include \"syscall_names.h\"\\n\\n".toList ++
      echo "char const *const syscall_names[] = \x7b".toList =
        joinLines '\n' ["#include \"syscall_names.h\"".toList, [], [],
          "char const *const syscall_names[] = \x7b".toList] := by decide
  have hfoot : echo "\x7d;\\n".toList = joinLines '\n' ["\x7d;".toList, []] := by decide
  rw [fileC, joinLines_append, joinLines_append, hhead, hfoot, List.append_assoc]

/-- What the script writes into the `.h` file. -/
theorem outH_eq {count : List Char} (h : '\\' ∉ count) :
    echo "#ifndef IOTRACE_SYSCALL_NAMES_H".toList ++
      echo "#define IOTRACE_SYSCALL_NAMES_H\\n".toList ++
      echo "#define UNDEFINED_SYSCALL \"UNDEFINED_SYSCALL\"".toList ++
      echo ("#define NAMES_LENGTH ".toList ++ count ++ "\\n\\n".toList) ++
      echo "extern const char *const syscall_names[NAMES_LENGTH];\\n\\n".toList ++
      echo "#endif\\n".toList = joinLines '\n' (fileH count) := by
  have hexpand : expand ("#define NAMES_LENGTH ".toList ++ count ++ "\\n\\n".toList) =
      "#define NAMES_LENGTH ".toList ++ count ++ ['\n', '\n'] := by
    rw [List.append_assoc, expand_append (by decide), expand_append h, List.append_assoc]
    rfl
  have hecho : echo ("#define NAMES_LENGTH ".toList ++ count ++ "\\n\\n".toList) =
      "#define NAMES_LENGTH ".toList ++ count ++ ['\n', '\n', '\n'] := by
    rw [echo, hexpand, List.append_assoc]
    rfl
  have hhead : echo "#ifndef IOTRACE_SYSCALL_NAMES_H".toList ++
      echo "#define IOTRACE_SYSCALL_NAMES_H\\n".toList ++
      echo "#define UNDEFINED_SYSCALL \"UNDEFINED_SYSCALL\"".toList = joinLines '\n' headH := by
    decide
  have hfoot : ['\n', '\n'] ++
      (echo "extern const char *const syscall_names[NAMES_LENGTH];\\n\\n".toList ++
        echo "#endif\\n".toList) = joinLines '\n' footH := by decide
  rw [hecho, hhead, fileH, joinLines_append, joinLines_cons, ← hfoot]
  simp only [List.append_assoc, List.cons_append, List.nil_append]

/-- The length that the script computes. -/
theorem nameCount_eq {lines : List (List Char)} (h : ∀ line ∈ lines, ElementLine line) :
    ((joinLines '\n' (fileC lines)).count '\n' : ℤ) - 6 = (lines.length : ℤ) := by
  rw [count_joinLines (fileC_plain h), fileC]
  simp only [List.length_append, List.length_cons, List.length_nil]
  omega

/-- **The files of the script:** the elements are the slots of the lines that the loop
sees, and the length in the header is their number. -/
theorem syscallParser_eq (t : SyscallTbl) :
    ∃ files, syscallParser t.input = some files ∧
      arrayElements files.outC = slots (some 0) t.seen ∧
      namesLength files.outH = some (decimal (slots (some 0) t.seen).length) := by
  obtain ⟨lines, hloop, hinits, helements⟩ := parserLoop_eq (some 0) t.seen_fields
  have hstart : ((some 0 : Option ℕ).map fun m : ℕ => (m : ℤ) - 1) = some (-1) := rfl
  have hnumber := isWord_decimal lines.length
  have hlength : lines.length = (slots (some 0) t.seen).length := by rw [← hinits, List.length_map]
  rw [hstart] at hloop
  refine ⟨⟨joinLines '\n' (fileC lines), joinLines '\n' (fileH (decimal lines.length))⟩, ?_, ?_, ?_⟩
  · rw [syscallParser, t.splitLines_tbl, hloop]
    simp only [Option.bind_eq_bind, Option.bind_some, outC_eq, nameCount_eq helements,
      integerText_natCast]
    rw [outH_eq (hnumber.notMem (Or.inr (Or.inr rfl)))]
  · rw [arrayElements_fileC helements, hinits]
  · rw [namesLength_fileH (hnumber.notMem (Or.inl rfl)), hlength]

/-! ### The array of all rows -/

/-- The first index behind the rows, from `next` on. -/
def endOf (next : ℕ) (rows : List TableRow) : ℕ := rows.foldl (fun _ r => r.nr + 1) next

theorem endOf_concat (next : ℕ) (rows : List TableRow) (r : TableRow) :
    endOf next (rows ++ [r]) = r.nr + 1 := by
  simp [endOf]

/-- Rows with strictly increasing numbers, from `next` on. -/
def Increasing (next : ℕ) (rows : List TableRow) : Prop :=
  (rows.Pairwise fun r r' => r.nr < r'.nr) ∧ ∀ r ∈ rows, next ≤ r.nr

theorem Increasing.tail {next : ℕ} {r : TableRow} {rows : List TableRow}
    (h : Increasing next (r :: rows)) : next ≤ r.nr ∧ Increasing (r.nr + 1) rows := by
  obtain ⟨hpair, hnext⟩ := h
  obtain ⟨hlt, hpair⟩ := List.pairwise_cons.mp hpair
  exact ⟨hnext r List.mem_cons_self, hpair, fun r' hr' => hlt r' hr'⟩

/-- The last row has the largest number. -/
theorem Increasing.init {next : ℕ} {rows : List TableRow} {r : TableRow}
    (h : Increasing next (rows ++ [r])) : Increasing next rows ∧ ∀ r' ∈ rows, r'.nr < r.nr := by
  obtain ⟨hpair, hnext⟩ := h
  obtain ⟨hpair, -, hlast⟩ := List.pairwise_append.mp hpair
  exact ⟨⟨hpair, fun r' hr' => hnext r' (List.mem_append_left [r] hr')⟩,
    fun r' hr' => hlast r' hr' r List.mem_cons_self⟩

/-- The rows before the last one end at its number, or before it. -/
theorem Increasing.endOf_le {next : ℕ} {rows : List TableRow} {r : TableRow}
    (h : Increasing next (rows ++ [r])) : endOf next rows ≤ r.nr := by
  rcases List.eq_nil_or_concat rows with rfl | ⟨rows, r', rfl⟩
  · exact h.2 r List.mem_cons_self
  · have hlast := h.init.2
    rw [List.concat_eq_append] at hlast ⊢
    rw [endOf_concat]
    exact hlast r' (List.mem_append_right rows List.mem_cons_self)

/-- The slots of a row and of those behind it. -/
theorem slots_cons (next : ℕ) (r : TableRow) (rows : List TableRow) :
    slots (some next) ((r :: rows).map some) =
      List.replicate (r.nr - next) (.ident "UNDEFINED_SYSCALL".toList) ++
        .string r.name :: slots (some (r.nr + 1)) (rows.map some) := rfl

/-- **The array ends behind the last row.** -/
theorem slots_length {next : ℕ} {rows : List TableRow} (h : Increasing next rows) :
    next + (slots (some next) (rows.map some)).length = endOf next rows := by
  induction rows generalizing next with
  | nil => rfl
  | cons r rows ih =>
      obtain ⟨hle, htail⟩ := h.tail
      have hrest : r.nr + 1 + (slots (some (r.nr + 1)) (rows.map some)).length =
          endOf next (r :: rows) := ih htail
      rw [slots_cons, List.length_append, List.length_replicate, List.length_cons, ← hrest]
      omega

/-- **The name of a row is in its place.** -/
theorem slots_named {next : ℕ} {rows : List TableRow} (h : Increasing next rows) {r : TableRow}
    (hr : r ∈ rows) :
    (slots (some next) (rows.map some))[r.nr - next]? = some (.string r.name) := by
  induction rows generalizing next with
  | nil => cases hr
  | cons r' rows ih =>
      obtain ⟨hle, htail⟩ := h.tail
      have hbehind : r'.nr - next ≤ r.nr - next := by
        rcases List.mem_cons.mp hr with rfl | hr
        · exact le_rfl
        · have hlt := htail.2 r hr
          omega
      rw [slots_cons, List.getElem?_append_right (by rw [List.length_replicate]; exact hbehind),
        List.length_replicate]
      rcases List.mem_cons.mp hr with rfl | hr
      · rw [Nat.sub_self, List.getElem?_cons_zero]
      · have hlt := htail.2 r hr
        have hindex : r.nr - next - (r'.nr - next) = r.nr - (r'.nr + 1) + 1 := by omega
        rw [hindex, List.getElem?_cons_succ]
        exact ih htail hr

/-- **The other places are undefined.** -/
theorem slots_undefined {next : ℕ} {rows : List TableRow} (h : Increasing next rows) {i : ℕ}
    (hi : i < (slots (some next) (rows.map some)).length) (hnone : ∀ r ∈ rows, r.nr ≠ next + i) :
    (slots (some next) (rows.map some))[i]? = some (.ident "UNDEFINED_SYSCALL".toList) := by
  induction rows generalizing next i with
  | nil => exact absurd hi (Nat.not_lt_zero i)
  | cons r rows ih =>
      obtain ⟨hle, htail⟩ := h.tail
      have hne := hnone r List.mem_cons_self
      rw [slots_cons, List.length_append, List.length_replicate, List.length_cons] at hi
      rw [slots_cons]
      rcases Nat.lt_or_ge i (r.nr - next) with hlt | hge
      · rw [List.getElem?_append_left (by rw [List.length_replicate]; exact hlt),
          List.getElem?_replicate_of_lt hlt]
      · obtain ⟨k, hk⟩ : ∃ k, i - (r.nr - next) = k + 1 := ⟨i - (r.nr - next) - 1, by omega⟩
        rw [List.getElem?_append_right (by rw [List.length_replicate]; exact hge),
          List.length_replicate, hk, List.getElem?_cons_succ]
        refine ih htail (by omega) fun r' hr' => ?_
        have hne' := hnone r' (List.mem_cons_of_mem r hr')
        omega

/-- An indentation gives an empty name. -/
theorem slots_of_none_mem {items : List (Option TableRow)} {next : Option ℕ}
    (h : none ∈ items) : Initializer.string [] ∈ slots next items := by
  induction items generalizing next with
  | nil => cases h
  | cons item items ih =>
      rw [slots, List.mem_append, List.mem_cons]
      rcases List.mem_cons.mp h with rfl | h
      · exact Or.inr (Or.inl rfl)
      · exact Or.inr (Or.inr (ih h))

end Iotrace
