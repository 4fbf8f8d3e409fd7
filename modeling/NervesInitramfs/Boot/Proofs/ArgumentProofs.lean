import NervesInitramfs.Boot.Proofs.DescriptorProofs
import NervesInitramfs.Boot.Proofs.PlanProofs

/-!
# The arguments of `init`

The arguments of the program are read as settings of the interpreter at the start, and given to the
real `init` at the end. Reading them overwrites the `=` in each, and nothing puts it back.
-/

namespace NervesInitramfs.Boot

open CLib

/-- A boot that gets to `execv` gives `init` what its start has left of the arguments. -/
theorem execv_argv {build : Build} {machine : Machine} {depth rounds : Nat}
    {qsort : Qsort direntAlphasort} {given : Given} {argv out : List CString} {world : World}
    {outside : List (Call × Answer) → Call → Answer} {halt : Halt} {d : Dialog Call Answer State}
    {path : CString} {answer : Answer}
    (hrun : main build machine depth rounds qsort given ⟨outside, [], State.boot argv world⟩
      = .error halt d)
    (hexec : (.execv path out, answer) ∈ d.log) : out = argvAfter argv := by
  obtain ⟨orders, horders⟩ := exists_orders machine depth given argv world
  have hstops := (main_follows build machine rounds qsort horders outside).error hrun
  obtain ⟨plan, hkept, -⟩ := hstops
  obtain ⟨plan', -, -, hargv⟩ := hkept.may_of_mem hexec
  exact hargv.trans horders.argv

/-- What `execv` is given is what `main` was given exactly when no argument has the form
`key=value`. -/
theorem argv_unchanged_iff {build : Build} {machine : Machine} {depth rounds : Nat}
    {qsort : Qsort direntAlphasort} {given : Given} {argv out : List CString} {world : World}
    {outside : List (Call × Answer) → Call → Answer} {halt : Halt} {d : Dialog Call Answer State}
    {path : CString} {answer : Answer}
    (hrun : main build machine depth rounds qsort given ⟨outside, [], State.boot argv world⟩
      = .error halt d)
    (hexec : (.execv path out, answer) ∈ d.log) :
    out = argv ↔ ∀ arg ∈ argv.tail, arg.bytes.head? = some 45 ∨ 61 ∉ arg.bytes := by
  rw [execv_argv hrun hexec]
  exact argvAfter_eq_self

/-- The arguments in the first call of `execv`. -/
def execArguments : EStateM.Result Halt (Dialog Call Answer State) Unit → Option (List CString)
  | .ok _ _ => none
  | .error _ d => d.log.findSome? fun
    | (.execv _ argv, _) => some argv
    | _ => none

theorem exec_of_execArguments {r : EStateM.Result Halt (Dialog Call Answer State) Unit}
    {out : List CString} (h : execArguments r = some out) :
    ∃ halt d path answer, r = .error halt d ∧ (.execv path out, answer) ∈ d.log := by
  cases r with
  | ok u d => cases h
  | error halt d =>
    obtain ⟨⟨call, answer⟩, hmem, hcall⟩ := List.exists_of_findSome?_eq_some h
    cases call with
    | execv path argv =>
      cases hcall
      exact ⟨halt, d, path, answer, rfl, hmem⟩
    | _ => cases hcall

theorem argv_unchanged_dashed : ∃ halt d path out answer,
    freshBoot [.ofString "init", .ofString "quiet", .ofString "-a=b"] = .error halt d ∧
      (.execv path out, answer) ∈ d.log ∧
      out = [.ofString "init", .ofString "quiet", .ofString "-a=b"] := by
  have hexec : execArguments (freshBoot [.ofString "init", .ofString "quiet", .ofString "-a=b"])
      = some [.ofString "init", .ofString "quiet", .ofString "-a=b"] := by decide +kernel
  obtain ⟨halt, d, path, answer, hrun, hmem⟩ := exec_of_execArguments hexec
  exact ⟨halt, d, path, _, answer, hrun, hmem, (argv_unchanged_iff hrun hmem).mpr (by decide)⟩

/-- Given `a=b`, the real `init` gets `a`. -/
theorem argv_changed : ¬ ∀ (build : Build) (machine : Machine) (depth rounds : Nat)
    (qsort : Qsort direntAlphasort) (given : Given) (argv out : List CString) (world : World)
    (outside : List (Call × Answer) → Call → Answer) (halt : Halt) (d : Dialog Call Answer State)
    (path : CString) (answer : Answer),
    main build machine depth rounds qsort given ⟨outside, [], State.boot argv world⟩
      = .error halt d → (.execv path out, answer) ∈ d.log → out = argv := by
  intro hall
  have hexec : execArguments (freshBoot [.ofString "init", .ofString "a=b"])
      = some [.ofString "init", .ofString "a"] := by decide +kernel
  obtain ⟨halt, d, path, answer, hrun, hmem⟩ := exec_of_execArguments hexec
  exact absurd (hall _ _ _ _ _ _ _ _ _ _ _ _ _ _ hrun hmem) (by decide)

end NervesInitramfs.Boot
