/-
# When the generated names are faithful to the table

`Faithful` says what the generated array is to be: the names at their numbers,
`UNDEFINED_SYSCALL` between them, up to the largest number, and its length in the
header.  It is so if and only if the line that the loop does not see is the indentation
of a comment, and there is no other indentation (`syscallParser_faithful_iff`).  In all
other tables the row with the largest number is lost (`last_row_lost`), or an
indentation is taken for a row without a number and a name.
-/

import Iotrace.ParserOutput
import Mathlib.Data.Set.List

namespace Iotrace

/-! ### The condition -/

namespace SyscallTbl

/-- **The array is faithful to the table,** and so is its length in the header. -/
structure Faithful (t : SyscallTbl) (files : SyscallNamesFiles) : Prop where
  length : ∃ r ∈ t.rows, (∀ r' ∈ t.rows, r'.nr ≤ r.nr) ∧
    (arrayElements files.outC).length = r.nr + 1
  named : ∀ r ∈ t.rows, (arrayElements files.outC)[r.nr]? = some (.string r.name)
  undefined : ∀ i < (arrayElements files.outC).length, (∀ r ∈ t.rows, r.nr ≠ i) →
    (arrayElements files.outC)[i]? = some (.ident "UNDEFINED_SYSCALL".toList)
  header : namesLength files.outH = some (decimal (arrayElements files.outC).length)

/-- One comment, or line of blanks, is indented, and it comes after all rows. -/
def EndsIndented (t : SyscallTbl) : Prop :=
  ∃ before last after, t.lines = before ++ .comment last :: after ∧ last.indent ≠ [] ∧
    (∀ l, .comment l ∈ before ++ after → l.indent = []) ∧ ∀ l, .row l ∉ after

end SyscallTbl

/-! ### When the array is faithful -/

namespace TableLine

/-- Without indentations `grep` leaves the rows. -/
theorem items_of_plain {lines : List TableLine} (h : ∀ l, .comment l ∈ lines → l.indent = []) :
    lines.filterMap item = (lines.filterMap row?).map some := by
  induction lines with
  | nil => rfl
  | cons l lines ih =>
      have htail := ih fun l' hmem => h l' (List.mem_cons_of_mem l hmem)
      cases l with
      | row l =>
          rw [List.filterMap_cons_some (show item (.row l) = some (some l.row) from rfl),
            List.filterMap_cons_some (show row? (.row l) = some l.row from rfl), htail,
            List.map_cons]
      | comment l =>
          have hitem : item (.comment l) = none := if_pos (h l List.mem_cons_self)
          rw [List.filterMap_cons_none hitem,
            List.filterMap_cons_none (show row? (.comment l) = none from rfl), htail]

/-- An indentation is left by `grep`. -/
theorem item_comment {l : CommentLine} (h : l.indent ≠ []) : item (.comment l) = some none :=
  if_neg h

/-- Where no indentation is left there was none. -/
theorem indent_of_item {l : CommentLine} (h : item (.comment l) ≠ some none) : l.indent = [] := by
  by_contra hindent
  exact h (item_comment hindent)

/-- The rows that `grep` leaves are those of the table. -/
theorem items_rows (lines : List TableLine) :
    (lines.filterMap item).filterMap id = lines.filterMap row? := by
  rw [List.filterMap_filterMap]
  refine List.filterMap_congr fun l _ => ?_
  cases l with
  | row l => rfl
  | comment l =>
      by_cases hindent : l.indent = []
      · rw [show item (.comment l) = none from if_pos hindent]
        rfl
      · rw [item_comment hindent]
        rfl

end TableLine

namespace SyscallTbl

theorem rows_increasing (t : SyscallTbl) : Increasing 0 t.rows :=
  ⟨t.increasing, fun r _ => Nat.zero_le r.nr⟩

/-- The loop sees all rows and nothing else if and only if an indentation is lost in
the place of the last row. -/
theorem endsIndented_iff (t : SyscallTbl) :
    t.EndsIndented ↔ t.lines.filterMap TableLine.item = t.rows.map some ++ [none] := by
  constructor
  · rintro ⟨before, last, after, hlines, hlast, hplain, hafter⟩
    have hbefore := TableLine.items_of_plain fun l hmem =>
      hplain l (List.mem_append_left after hmem)
    have hbehind := TableLine.items_of_plain fun l hmem =>
      hplain l (List.mem_append_right before hmem)
    have hnone : after.filterMap TableLine.row? = [] := by
      refine List.filterMap_eq_nil_iff.mpr fun l hl => ?_
      cases l with
      | row l => exact absurd hl (hafter l)
      | comment l => rfl
    have hrow : TableLine.row? (.comment last) = none := rfl
    rw [rows, hlines, List.filterMap_append, List.filterMap_append,
      List.filterMap_cons_some (TableLine.item_comment hlast), List.filterMap_cons_none hrow,
      hbefore, hbehind, hnone]
    simp
  · intro h
    obtain ⟨before, rest, hlines, hbefore, hrest⟩ := List.filterMap_eq_append_iff.mp h
    obtain ⟨gap, last, after, rfl, hgap, hlast, hafter⟩ := List.filterMap_eq_cons_iff.mp hrest
    have hafter := List.filterMap_eq_nil_iff.mp hafter
    cases last with
    | row l => cases hlast
    | comment last =>
        refine ⟨before ++ gap, last, after, by rw [hlines, List.append_assoc], ?_,
          fun l hmem => ?_, fun l hmem => ?_⟩
        · intro hindent
          rw [TableLine.item, if_pos hindent] at hlast
          cases hlast
        · refine TableLine.indent_of_item fun hitem => ?_
          rcases List.mem_append.mp hmem with hmem | hmem
          · rcases List.mem_append.mp hmem with hmem | hmem
            · have hnone : none ∈ before.filterMap TableLine.item :=
                List.mem_filterMap.mpr ⟨_, hmem, hitem⟩
              rw [hbefore] at hnone
              obtain ⟨r, -, hr⟩ := List.mem_map.mp hnone
              cases hr
            · rw [hgap _ hmem] at hitem
              cases hitem
          · rw [hafter _ hmem] at hitem
            cases hitem
        · cases hafter _ hmem

/-- The array of all rows is faithful. -/
theorem faithful_of_seen {t : SyscallTbl} {files : SyscallNamesFiles}
    (hseen : t.seen = t.rows.map some) (hC : arrayElements files.outC = slots (some 0) t.seen)
    (hH : namesLength files.outH = some (decimal (slots (some 0) t.seen).length)) :
    t.Faithful files := by
  have hincreasing := t.rows_increasing
  rw [hseen] at hC hH
  refine ⟨?_, fun r hr => ?_, fun i hi hnone => ?_, ?_⟩
  · obtain ⟨rows, last, hrows⟩ : ∃ rows last, t.rows = rows ++ [last] :=
      ⟨_, _, (List.dropLast_append_getLast t.nonempty).symm⟩
    have hlength := slots_length hincreasing
    refine ⟨last, by rw [hrows]; simp, fun r hr => ?_, ?_⟩
    · have hlast := (hrows ▸ hincreasing).init.2
      rw [hrows] at hr
      rcases List.mem_append.mp hr with hr | hr
      · exact Nat.le_of_lt (hlast r hr)
      · rw [List.mem_singleton.mp hr]
    · have hend : endOf 0 t.rows = last.nr + 1 := by rw [hrows, endOf_concat]
      rw [hC]
      omega
  · rw [hC]
    exact slots_named hincreasing hr
  · rw [hC] at hi ⊢
    exact slots_undefined hincreasing hi fun r hr => by rw [Nat.zero_add]; exact hnone r hr
  · rw [hC]
    exact hH

/-- No element of a faithful array is an empty name. -/
theorem Faithful.no_empty {t : SyscallTbl} {files : SyscallNamesFiles} (h : t.Faithful files) :
    Initializer.string [] ∉ arrayElements files.outC := by
  intro hmem
  obtain ⟨i, hi⟩ := List.mem_iff_getElem?.mp hmem
  by_cases hrow : ∃ r ∈ t.rows, r.nr = i
  · obtain ⟨r, hr, rfl⟩ := hrow
    rw [h.named r hr] at hi
    exact r.nameWord.1 (Initializer.string.inj (Option.some.inj hi))
  · have hlt : i < (arrayElements files.outC).length := by
      by_contra hge
      rw [List.getElem?_eq_none (by omega)] at hi
      cases hi
    rw [h.undefined i hlt fun r hr heq => hrow ⟨r, hr, heq⟩] at hi
    cases Option.some.inj hi

/-- A faithful array is made of all rows. -/
theorem Faithful.items {t : SyscallTbl} {files : SyscallNamesFiles} (h : t.Faithful files)
    (hC : arrayElements files.outC = slots (some 0) t.seen) :
    t.lines.filterMap TableLine.item = t.rows.map some ++ [none] := by
  have hitems := TableLine.items_rows t.lines
  have hne : t.lines.filterMap TableLine.item ≠ [] := by
    intro hnil
    rw [hnil] at hitems
    exact t.nonempty hitems.symm
  obtain ⟨seen, last, hseen⟩ : ∃ seen last, t.lines.filterMap TableLine.item = seen ++ [last] :=
    ⟨_, _, (List.dropLast_append_getLast hne).symm⟩
  have hseen' : t.seen = seen := by rw [SyscallTbl.seen, hseen, List.dropLast_concat]
  rw [hseen'] at hC
  have hsome : none ∉ seen := fun hmem => h.no_empty (hC ▸ slots_of_none_mem hmem)
  obtain ⟨seen, rfl⟩ : seen ∈ Set.range (List.map (some : TableRow → Option TableRow)) := by
    rw [Set.range_list_map]
    rintro (_ | r) hitem
    · exact absurd hitem hsome
    · exact ⟨r, rfl⟩
  rw [hseen, List.filterMap_append, List.filterMap_map] at hitems
  cases last with
  | none =>
      have hrows : t.rows = seen := by
        rw [SyscallTbl.rows, ← hitems]
        simp
      rw [hseen, hrows]
  | some r =>
      -- The row with the largest number is missing.
      exfalso
      have hrows : t.rows = seen ++ [r] := by
        rw [SyscallTbl.rows, ← hitems]
        simp
      have hincreasing := t.rows_increasing
      rw [hrows] at hincreasing
      have hlength := slots_length hincreasing.init.1
      have hend := hincreasing.endOf_le
      obtain ⟨r', -, hmax, hC'⟩ := h.length
      have hle := hmax r (by rw [hrows]; simp)
      rw [hC] at hC'
      omega

end SyscallTbl

/-- **The generated array is faithful if and only if** one comment is indented, behind
all rows. -/
theorem syscallParser_faithful_iff (t : SyscallTbl) :
    ∃ files, syscallParser t.input = some files ∧ (t.Faithful files ↔ t.EndsIndented) := by
  obtain ⟨files, hfiles, hC, hH⟩ := syscallParser_eq t
  refine ⟨files, hfiles, ?_⟩
  rw [t.endsIndented_iff]
  constructor
  · exact fun h => h.items hC
  · intro h
    refine SyscallTbl.faithful_of_seen ?_ hC hH
    rw [SyscallTbl.seen, h, List.dropLast_concat]

/-- In particular not where all comments start at the beginning of their lines. -/
theorem SyscallTbl.not_endsIndented {t : SyscallTbl}
    (h : ∀ l, .comment l ∈ t.lines → l.indent = []) : ¬t.EndsIndented := by
  rintro ⟨before, last, after, hlines, hlast, -, -⟩
  exact hlast (h last (by rw [hlines]; simp))

/-- A row as in the first lines of `syscall_64.tbl`. -/
def commonRow (nr : ℕ) (name : List Char) (hname : IsWord name) (hquote : '"' ∉ name) : TableRow :=
  ⟨nr, "common".toList, name, by decide, hname, hquote⟩

/-- The line of a row, with tabulators between the fields. -/
def tabbed (row : TableRow) : TableLine :=
  have htab : ∀ c ∈ ['\t'], isBlank c = true := fun c hc => by rw [List.mem_singleton.mp hc]; rfl
  .row ⟨row, [], ['\t'], ['\t'], [], nofun, ⟨nofun, htab⟩, ⟨nofun, htab⟩, nofun, ⟨nofun, nofun⟩⟩

/-- The first two rows of `syscall_64.tbl`. -/
def readWrite : SyscallTbl where
  lines := [tabbed (commonRow 0 "read".toList (by decide) (by decide)),
    tabbed (commonRow 1 "write".toList (by decide) (by decide))]
  ended := true
  nonempty := nofun
  increasing := by decide

/-- **The row of `write` is lost:** the array has one element. -/
theorem last_row_lost :
    readWrite.input = "0\tcommon\tread\n1\tcommon\twrite\n".toList ∧
      ∃ files, syscallParser readWrite.input = some files ∧
        arrayElements files.outC = [.string "read".toList] ∧ ¬readWrite.Faithful files := by
  have hrun : (syscallParser readWrite.input).map (fun files => arrayElements files.outC) =
      some [.string "read".toList] := by decide
  obtain ⟨files, hfiles, helements⟩ := Option.map_eq_some_iff.mp hrun
  refine ⟨by decide, files, hfiles, helements, fun h => ?_⟩
  have hwrite := h.named (commonRow 1 "write".toList (by decide) (by decide))
    (List.mem_cons_of_mem _ List.mem_cons_self)
  rw [helements] at hwrite
  cases hwrite

end Iotrace
