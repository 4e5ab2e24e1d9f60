/-
# The name of the output file

At its end `main_tracer` of `src/main.c` writes the name of the JSON file into an
array whose length it computes from the trace id and the host name.  The twelve bytes
that it adds are enough for the text of the format, the NUL and a rank of four bytes,
such as `NULL` or `9999`.  The rank is however the text of an environment variable, of
any length, so the name fits if and only if the variable that `get_mpi_rank` finds has
at most four bytes (`outputName_fits_iff`).
-/

import Iotrace.CTypes

namespace Iotrace

/-- The variables of an environment that are set, with their values. -/
abbrev Environment := CString → Option CString

/-- `getenv`. -/
def getenv (env : Environment) (name : CString) : Option CString := env name

/-- `get_mpi_rank`: the first of four variables that is set. -/
def getMpiRank (env : Environment) : Option CString :=
  match getenv env (cstr "PMI_RANK") with
  | some rank => some rank
  | none =>
    match getenv env (cstr "PMIX_RANK") with
    | some rank => some rank
    | none =>
      match getenv env (cstr "OMPI_COMM_WORLD_RANK") with
      | some rank => some rank
      | none => getenv env (cstr "ALPS_APP_PE")

/-- The bytes that `sprintf` writes, the NUL included, for a format in which `%s` is the
only conversion. -/
def sprintf : CString → List CString → List Byte
  | 0x25#8 :: 0x73#8 :: format, arg :: args => arg ++ sprintf format args
  | c :: format, args => c :: sprintf format args
  | [], _ => [0]

/-- The bytes that `main_tracer` writes into `filename`. -/
def outputName (traceId hostname : CString) (mpiRank : Option CString) : List Byte :=
  sprintf (cstr "%s_%s_%s.json") [traceId, hostname, mpiRank.getD (cstr "NULL")]

/-- The declared length of `filename`. -/
def outputNameSize (traceId hostname : CString) : ℕ := traceId.length + hostname.length + 12

/-- The names of the variables, in the order in which `get_mpi_rank` asks for them. -/
def rankVariables : List CString :=
  [cstr "PMI_RANK", cstr "PMIX_RANK", cstr "OMPI_COMM_WORLD_RANK", cstr "ALPS_APP_PE"]

/-- `get_mpi_rank` is a search. -/
theorem getMpiRank_eq_findSome? (env : Environment) :
    getMpiRank env = rankVariables.findSome? env := by
  simp only [getMpiRank, getenv, rankVariables, List.findSome?_cons, List.findSome?_nil]
  cases env (cstr "PMI_RANK") <;> cases env (cstr "PMIX_RANK") <;>
    cases env (cstr "OMPI_COMM_WORLD_RANK") <;> cases env (cstr "ALPS_APP_PE") <;> rfl

/-- Two underscores, `.json` and the NUL are eight bytes, the rest is the strings. -/
theorem outputName_length (traceId hostname : CString) (mpiRank : Option CString) :
    (outputName traceId hostname mpiRank).length =
      traceId.length + hostname.length + (mpiRank.getD (cstr "NULL")).length + 8 := by
  have hformat : cstr "%s_%s_%s.json" = [0x25, 0x73, 0x5f, 0x25, 0x73, 0x5f, 0x25, 0x73, 0x2e,
    0x6a, 0x73, 0x6f, 0x6e] := by decide
  rw [outputName, hformat]
  generalize mpiRank.getD (cstr "NULL") = rank
  have hname : sprintf [0x25, 0x73, 0x5f, 0x25, 0x73, 0x5f, 0x25, 0x73, 0x2e, 0x6a, 0x73, 0x6f,
      0x6e] [traceId, hostname, rank] =
      traceId ++ 0x5f :: (hostname ++ 0x5f :: (rank ++ [0x2e, 0x6a, 0x73, 0x6f, 0x6e, 0])) := rfl
  rw [hname]
  simp only [List.length_append, List.length_cons, List.length_nil]
  omega

/-- The first variable that is set, if one is, has at most four bytes. -/
def RankFits (env : Environment) : Prop :=
  ∀ before name after rank, rankVariables = before ++ name :: after →
    (∀ earlier ∈ before, env earlier = none) → env name = some rank → rank.length ≤ 4

/-- The condition says of the rank that is found what it should. -/
theorem rankFits_iff (env : Environment) :
    RankFits env ↔ ∀ rank, getMpiRank env = some rank → rank.length ≤ 4 := by
  constructor
  · intro h rank hrank
    rw [getMpiRank_eq_findSome?, List.findSome?_eq_some_iff] at hrank
    obtain ⟨before, name, after, hsplit, hname, hbefore⟩ := hrank
    exact h before name after rank hsplit hbefore hname
  · intro h before name after rank hsplit hbefore hname
    refine h rank ?_
    rw [getMpiRank_eq_findSome?, List.findSome?_eq_some_iff]
    exact ⟨before, name, after, hsplit, hname, hbefore⟩

/-- **The output name fits its array if and only if** the first of the variables that is
set has at most four bytes, or none of them is set. -/
theorem outputName_fits_iff (traceId hostname : CString) (env : Environment) :
    (outputName traceId hostname (getMpiRank env)).length ≤ outputNameSize traceId hostname ↔
      RankFits env := by
  rw [rankFits_iff, outputName_length, outputNameSize]
  cases getMpiRank env with
  | none =>
      have hnull : (cstr "NULL").length = 4 := rfl
      refine iff_of_true ?_ fun rank hrank => nomatch hrank
      rw [Option.getD_none, hnull]
  | some rank =>
      rw [Option.getD_some]
      constructor
      · intro h rank' hrank
        obtain rfl := Option.some.inj hrank
        omega
      · intro h
        have hrank := h rank rfl
        omega

/-- The environment of the process with rank 10000 of a large job. -/
def largeJob : Environment := fun name =>
  if name = cstr "PMI_RANK" then some (cstr "10000") else none

/-- **The rank 10000** is one byte too long: 20 bytes are written into an array of 19. -/
theorem outputName_too_long :
    (outputName (cstr "run") (cstr "node") (getMpiRank largeJob)).length = 20 ∧
      outputNameSize (cstr "run") (cstr "node") = 19 ∧
      ¬(outputName (cstr "run") (cstr "node") (getMpiRank largeJob)).length ≤
        outputNameSize (cstr "run") (cstr "node") := by
  decide

end Iotrace
