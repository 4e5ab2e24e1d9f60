/-
# The generator of the syscall names

`syscall_names/syscall_parser.sh` turns a table with the lines
`<number> <abi> <name> <entry point>` into `src/syscall_names.c` and
`src/syscall_names.h`.  The functions here follow the script on texts, lists of
characters: `grep -o '^[^#]*'` on the lines of the table, the command substitution that
strips the last ends of lines, `while read nr abi name entry`, and what every `echo`
writes.

The substitution leaves the last line without its end, so that `read` returns false for
it and the loop does not see it.  Usually this is the row with the largest number:
`src/syscall_names.c` ends with 546 although the table ends with 547.  The array is
faithful to the table if and only if something else is lost in this place, the
indentation of a comment behind all rows, and there is no other such indentation, which
the script would take for a row without a number and a name (`syscallParser_faithful_iff`).
-/

import Iotrace.Library.TextLines
import Mathlib.Tactic.Common

namespace Iotrace

open TextLines

/-! ### The shell -/

/-- A blank of `IFS`. -/
def isBlank (c : Char) : Bool := c = ' ' || c = '\t'

/-- The text of a number. -/
def decimal (n : ℕ) : List Char := Nat.toDigits 10 n

/-- The number that a text without leading zeros is, if it is one. -/
def decimalValue (text : List Char) : Option ℕ :=
  if decimal (Nat.ofDigitChars 10 text 0) = text then some (Nat.ofDigitChars 10 text 0) else none

/-- The text of an integer. -/
def integerText : ℤ → List Char
  | .ofNat n => decimal n
  | .negSucc n => '-' :: decimal (n + 1)

/-- What `echo` makes of `\n` and `\t` in its argument. -/
def expand : List Char → List Char
  | '\\' :: 'n' :: text => '\n' :: expand text
  | '\\' :: 't' :: text => '\t' :: expand text
  | c :: text => c :: expand text
  | [] => []

/-- `echo`. -/
def echo (text : List Char) : List Char := expand text ++ ['\n']

/-- `grep -o '^[^#]*'`: the part of every line before a `#`, where there is one. -/
def grepPrefixes (text : List Char) : List Char :=
  joinLines '\n' (((allLines '\n' text).map fun line => line.takeWhile (· ≠ '#')).filter (· ≠ []))

/-- `nr`, `abi` and `name` after `read nr abi name entry`, for a line without a
backslash. -/
def readFields (line : List Char) : List Char × List Char × List Char :=
  let (nr, rest) := readWord isBlank line
  let (abi, rest) := readWord isBlank rest
  let (name, _) := readWord isBlank rest
  (nr, abi, name)

/-- `$(($nr - 1))`, where `nr` is a number or empty. -/
def minusOne (nr : List Char) : Option ℤ :=
  if nr = [] then some (-1) else (decimalValue nr).map fun n : ℕ => (n : ℤ) - 1

/-! ### The script -/

/-- The text of the inner loop, which runs `n` times. -/
def undefinedLines : ℕ → ℤ → List Char
  | 0, _ => []
  | n + 1, lastnum =>
    let lastnum := lastnum + 1
    echo ("\\tUNDEFINED_SYSCALL,\\t\\t// nr: ".toList ++ integerText lastnum) ++
      undefinedLines n lastnum

/-- The inner loop.  `lastnum` is `none` where it is empty: then the test fails. -/
def fillGap (lastnum : Option ℤ) (tmp : ℤ) : List Char :=
  match lastnum with
  | some lastnum => undefinedLines (tmp - lastnum).toNat lastnum
  | none => []

/-- The loop over the lines that `read` returns true for.  The result is `none` if a
first field is neither empty nor a number without leading zeros. -/
def parserLoop : Option ℤ → List (List Char) → Option (List Char)
  | _, [] => some []
  | lastnum, line :: lines => do
    let (nr, abi, name) := readFields line
    let tmp ← minusOne nr
    let row := echo ("\\t\"".toList ++ name ++ "\",\\t\\t// nr: ".toList ++ nr ++
      ", abi: ".toList ++ abi)
    let rest ← parserLoop ((decimalValue nr).map fun n : ℕ => (n : ℤ)) lines
    some (fillGap lastnum tmp ++ row ++ rest)

/-- The two files that the script writes. -/
structure SyscallNamesFiles where
  outC : List Char
  outH : List Char

/-- `syscall_parser.sh`. -/
def syscallParser (input : List Char) : Option SyscallNamesFiles := do
  let tbl := stripLines '\n' (grepPrefixes input)
  let rows ← parserLoop (some (-1)) (splitLines '\n' tbl).1
  let outC := echo "#include \"syscall_names.h\"\\n\\n".toList ++
    echo "char const *const syscall_names[] = \x7b".toList ++ rows ++ echo "\x7d;\\n".toList
  let nameCount : ℤ := outC.count '\n' - 6
  let outH := echo "#ifndef IOTRACE_SYSCALL_NAMES_H".toList ++
    echo "#define IOTRACE_SYSCALL_NAMES_H\\n".toList ++
    echo "#define UNDEFINED_SYSCALL \"UNDEFINED_SYSCALL\"".toList ++
    echo ("#define NAMES_LENGTH ".toList ++ integerText nameCount ++ "\\n\\n".toList) ++
    echo "extern const char *const syscall_names[NAMES_LENGTH];\\n\\n".toList ++
    echo "#endif\\n".toList
  some ⟨outC, outH⟩

/-! ### The array and the length in the generated files -/

/-- An initializer of the array: a string or the name of a macro. -/
inductive Initializer where
  | string (chars : List Char)
  | ident (name : List Char)
  deriving DecidableEq

/-- The initializer at the start of a line. -/
def initializer (line : List Char) : Initializer :=
  match line.dropWhile isBlank with
  | '"' :: text => .string (text.takeWhile (· ≠ '"'))
  | text => .ident (text.takeWhile (· ≠ ','))

/-- The elements of `syscall_names` in a `.c` file: there is one on every line between
the braces. -/
def arrayElements (outC : List Char) : List Initializer :=
  ((((allLines '\n' outC).dropWhile
    (· ≠ "char const *const syscall_names[] = \x7b".toList)).drop 1).takeWhile
      (· ≠ "\x7d;".toList)).map initializer

/-- The text that `NAMES_LENGTH` is defined as in a `.h` file. -/
def namesLength (outH : List Char) : Option (List Char) :=
  (allLines '\n' outH).findSome? (List.dropPrefix? · "#define NAMES_LENGTH ".toList)

end Iotrace
