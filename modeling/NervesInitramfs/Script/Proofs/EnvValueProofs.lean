import NervesInitramfs.CLib.Proofs.CNumberProofs
import NervesInitramfs.Script.Proofs.AssignProofs
import NervesInitramfs.Uboot.Proofs.RoundTripProofs

/-!
# Proofs: values that go through the U-Boot environment

`setenv` stores the text of a value, and `getenv` hands the text back. The text of a number is read
as that number, and each text is true or false as the value is.
-/

namespace NervesInitramfs

open CLib

/-- `setenv` of a value, and then `getenv`. -/
def setenvGetenv (machine : Machine) (depth : Nat) (name : CString) (v : Term) :
    Interp (Option Term) := do
  let _ ← termResolve machine depth (some (.function .setenv [.string name, v]))
  termResolve machine depth (some (.function .getenv [.string name]))

theorem ofBytes_decimalInt (k : Int) : (CString.ofBytes (decimalInt k)).bytes = decimalInt k := by
  apply List.takeWhile_eq_self_iff.mpr
  intro c hc
  rw [decide_eq_true_eq]
  rintro rfl
  exact nulFree_decimalInt k hc

theorem mem_decimalInt {k : Int} {c : UInt8} (h : c ∈ decimalInt k) : c = 45 ∨ IsDigit c := by
  unfold decimalInt at h
  by_cases hk : k < 0
  · rw [if_pos hk] at h
    rcases List.mem_cons.mp h with h | h
    · exact .inl h
    · exact .inr (isDigit_of_mem_decimal h)
  · rw [if_neg hk] at h
    exact .inr (isDigit_of_mem_decimal h)

theorem tolower_decimalInt (k : Int) : (decimalInt k).map tolower = decimalInt k := by
  apply (List.map_congr_left fun c hc => ?_).trans (List.map_id _)
  rcases mem_decimalInt hc with rfl | ⟨-, hhigh⟩
  · rfl
  · unfold tolower
    rw [if_neg fun h => absurd (UInt8.le_trans h.1 hhigh) (by decide)]
    rfl

/-- The text of a number is false when it is `0` only. -/
theorem asBoolean_decimalInt (k : Int) :
    (Term.string (.ofBytes (decimalInt k))).asBoolean = decide (k ≠ 0) := by
  have hlen : decide ((CString.ofBytes (decimalInt k)).strlen = 0) = false := by
    apply decide_eq_false
    rw [CString.strlen, ofBytes_decimalInt]
    exact fun h => decimalInt_ne_nil k (List.length_eq_zero_iff.mp h)
  have hzero : strcaseeq (.ofBytes (decimalInt k)) (.ofString "0") = decide (k = 0) := by
    unfold strcaseeq
    rw [ofBytes_decimalInt, tolower_decimalInt]
    exact decide_eq_decide.mpr ⟨fun h => decimalInt_injective h, fun h => h ▸ rfl⟩
  have hfalse : strcaseeq (.ofBytes (decimalInt k)) (.ofString "false") = false := by
    unfold strcaseeq
    rw [ofBytes_decimalInt, tolower_decimalInt]
    apply decide_eq_false
    intro h
    have hmem : (102 : UInt8) ∈ decimalInt k := by
      rw [h]
      decide
    rcases mem_decimalInt hmem with h | h
    · exact absurd h (by decide)
    · exact absurd h.2 (by decide)
  show (!(decide ((CString.ofBytes (decimalInt k)).strlen = 0) || _ || _)) = _
  rw [hlen, hzero, hfalse]
  simp

theorem asBoolean_asString {v : Term} (h : v.isLiteral) :
    (Term.string v.asString).asBoolean = v.asBoolean := by
  cases v with
  | identifier _ | function _ _ => exact nomatch h
  | string value => rfl
  | boolean value => cases value <;> rfl
  | number value =>
    refine (asBoolean_decimalInt value.toInt).trans (decide_eq_decide.mpr (not_congr ?_))
    exact ⟨fun h => Int32.toInt_inj.mp h, fun h => h ▸ rfl⟩

theorem asNumber_asString (k : Int32) : (Term.string (Term.number k).asString).asNumber = k := by
  show toInt32 (strtou 64 0 (CString.ofBytes (decimalInt k.toInt)).bytes) = k
  rw [ofBytes_decimalInt]
  exact toInt32_decimalInt k

theorem getenv_setenv (env : UbootEnv) (name value : CString) :
    ubootEnvGetenv (ubootEnvSetenv env name value).2 name = some value := by
  rw [ubootEnvGetenv_eq, envMap_setenv, if_pos rfl]

/-- `setenv` changes the environment only. -/
theorem functionSetenv_literal (machine : Machine) (depth : Nat) (name : CString) {v : Term}
    (h : v.isLiteral) (s : State) :
    ∃ s', functionSetenv (termResolve machine (depth + 1)) (depth + 1) [.string name, v] s =
        .ok (some v) s' ∧
      s'.workingUbootEnv = (ubootEnvSetenv s.workingUbootEnv name v.asString).2 := by
  have hcode : ¬ (ubootEnvSetenv s.workingUbootEnv name v.asString).1 < 0 := by
    unfold ubootEnvSetenv
    split <;> exact lt_irrefl (0 : Int)
  have hname : termToString (termResolve machine (depth + 1)) (depth + 1) (some (.string name)) s =
      .ok name s := termToString_literal rfl (termResolve_literal machine depth rfl s) depth
  have hvalue : termToString (termResolve machine (depth + 1)) (depth + 1) (some v) s =
      .ok v.asString s := termToString_literal h (termResolve_literal machine depth h s) depth
  have hget : (get : Interp State) s = .ok s s := rfl
  unfold functionSetenv
  rw [List.head?_cons, bind_of_ok hname]
  show ∃ s', (termToString _ _ (some v) >>= _) s = _ ∧ _
  rw [bind_of_ok hvalue, bind_of_ok hget]
  dsimp only
  rw [if_neg hcode]
  exact ⟨_, rfl, rfl⟩

/-- The text that `getenv` hands back is that of the value. -/
theorem setenvGetenv_eq (machine : Machine) (depth : Nat) (name : CString) {v : Term}
    (h : v.isLiteral) (s : State) :
    ∃ s', setenvGetenv machine (depth + 2) name v s = .ok (some (.string v.asString)) s' := by
  obtain ⟨s1, hset, henv⟩ := functionSetenv_literal machine depth name h
    { s with log := s.log ++ [.called .setenv] }
  have hcall : termResolve machine (depth + 2) (some (.function .setenv [.string name, v])) s =
      .ok (some v) s1 := hset
  have hname : termToString (termResolve machine (depth + 1)) (depth + 1) (some (.string name))
      { s1 with log := s1.log ++ [.called .getenv] } =
      .ok name { s1 with log := s1.log ++ [.called .getenv] } :=
    termToString_literal rfl (termResolve_literal machine depth rfl _) depth
  refine ⟨{ s1 with log := s1.log ++ [.called .getenv] }, ?_⟩
  rw [setenvGetenv, bind_of_ok hcall]
  show functionGetenv (termResolve machine (depth + 1)) (depth + 1) [.string name]
    { s1 with log := s1.log ++ [.called .getenv] } = _
  have hvalue : ubootEnvGetenv s1.workingUbootEnv name = some v.asString := by
    rw [henv, getenv_setenv]
  rw [functionGetenv_eq hname]
  show EStateM.Result.ok (some (Term.string ((ubootEnvGetenv s1.workingUbootEnv name).getD _))) _ = _
  rw [hvalue]
  rfl

/-- A value that goes through the U-Boot environment stays true or false, and a number stays the
number that it is. -/
theorem value_through_env (machine : Machine) (depth : Nat) (name : CString) {v : Term}
    (h : v.isLiteral) (s : State) :
    ∃ t s', setenvGetenv machine (depth + 2) name v s = .ok (some t) s' ∧
      (∃ b, termToBoolean (termResolve machine (depth + 2)) (some t) s' = .ok b s' ∧
        termToBoolean (termResolve machine (depth + 2)) (some v) s' = .ok b s') ∧
      ∀ k, v = .number k → termToNumber (termResolve machine (depth + 2)) (some t) s' = .ok k s' := by
  obtain ⟨s', hrun⟩ := setenvGetenv_eq machine depth name h s
  have ht : (Term.string v.asString).isLiteral := rfl
  refine ⟨.string v.asString, s', hrun, ⟨v.asBoolean, ?_, ?_⟩, ?_⟩
  · rw [← asBoolean_asString h]
    exact termToBoolean_literal ht (termResolve_literal machine (depth + 1) ht s')
  · exact termToBoolean_literal h (termResolve_literal machine (depth + 1) h s')
  · rintro k rfl
    rw [termToNumber_literal ht (termResolve_literal machine (depth + 1) ht s'), asNumber_asString]

theorem value_through_env_negative :
    ∃ t s', setenvGetenv plainMachine 2 (.ofString "a") (.number (-2147483648)) plainStart =
        .ok (some t) s' ∧
      (∃ b, termToBoolean (termResolve plainMachine 2) (some t) s' = .ok b s' ∧
        termToBoolean (termResolve plainMachine 2) (some (.number (-2147483648))) s' = .ok b s') ∧
      ∀ k, Term.number (-2147483648) = .number k →
        termToNumber (termResolve plainMachine 2) (some t) s' = .ok k s' :=
  value_through_env plainMachine 0 (.ofString "a") rfl plainStart

end NervesInitramfs
