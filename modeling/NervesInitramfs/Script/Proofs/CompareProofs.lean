import NervesInitramfs.Script.Proofs.AssignProofs

/-!
# Proofs: comparing values

`term_compare` subtracts numbers in `int`. Strings and booleans are ordered by it, and numbers are
as long as no difference wraps around.
-/

namespace NervesInitramfs

open CLib

/-- Two literals of one kind. -/
inductive SameKind : Term → Term → Prop
  | number (m n : Int32) : SameKind (.number m) (.number n)
  | string (a b : CString) : SameKind (.string a) (.string b)
  | boolean (a b : Bool) : SameKind (.boolean a) (.boolean b)

/-- Wherever the operands resolve to `x` and `y`, `term_compare` returns `n`. -/
def Compares (machine : Machine) (x y : Term) (n : Int) : Prop :=
  ∀ depth s s1 s2 left right, termResolve machine depth left s = .ok (some x) s1 →
    termResolve machine depth right s1 = .ok (some y) s2 →
      termCompare machine (termResolve machine depth) left right s = .ok n s2

/-- What `term_compare` makes of two literals of one kind. -/
def difference : Term → Term → Int
  | .string a, .string b => strcmp a b
  | .number a, .number b => (a - b).toInt
  | .boolean a, .boolean b => (if a then 1 else 0) - (if b then 1 else 0)
  | _, _ => 1

/-- The comparison of two values as numbers, if they are, says which is the larger one. -/
def SignOfDifference (x y : Term) (n : Int) : Prop :=
  ∀ a b, x = .number a → y = .number b → n.sign = (a.toInt - b.toInt).sign

/-- The six operators, for which a comparison with this outcome is less, equal or greater. -/
structure Trichotomy (n : Int) : Prop where
  one : (Relation.lt.holds n ∧ !Relation.eq.holds n ∧ !Relation.gt.holds n) ∨
    (!Relation.lt.holds n ∧ Relation.eq.holds n ∧ !Relation.gt.holds n) ∨
    (!Relation.lt.holds n ∧ !Relation.eq.holds n ∧ Relation.gt.holds n)
  lte : Relation.lte.holds n = (Relation.lt.holds n || Relation.eq.holds n)
  gte : Relation.gte.holds n = (Relation.gt.holds n || Relation.eq.holds n)
  neq : Relation.neq.holds n = !Relation.eq.holds n
  lte_gt : Relation.lte.holds n = !Relation.gt.holds n
  gte_lt : Relation.gte.holds n = !Relation.lt.holds n

/-- On some values, `term_compare` returns `r` and that is a total order of them. -/
structure OrderedBy (machine : Machine) (values : List Term) (r : Term → Term → Int) : Prop where
  compares : ∀ x ∈ values, ∀ y ∈ values, Compares machine x y (r x y)
  antisymmetric : ∀ x ∈ values, ∀ y ∈ values, (r x y).sign = -(r y x).sign
  transitive : ∀ x ∈ values, ∀ y ∈ values, ∀ z ∈ values, r x y ≤ 0 → r y z ≤ 0 → r x z ≤ 0
  zero : ∀ x ∈ values, ∀ y ∈ values, (r x y = 0 ↔ x = y)
  numbers : ∀ x ∈ values, ∀ y ∈ values, SignOfDifference x y (r x y)
  rules : ∀ x ∈ values, ∀ y ∈ values, Trichotomy (r x y)

/-- The difference of two numbers is an `int` both ways. -/
def Within : Term → Term → Prop
  | .number a, .number b => -2 ^ 31 < a.toInt - b.toInt ∧ a.toInt - b.toInt < 2 ^ 31
  | _, _ => True

instance (x y : Term) : Decidable (Within x y) := by
  unfold Within
  split
  · infer_instance
  · infer_instance

section

variable {machine : Machine} {x y z : Term}

theorem SameKind.compares (h : SameKind x y) : Compares machine x y (difference x y) := by
  intro depth s s1 s2 left right hleft hright
  rw [termCompare, bind_of_ok hleft, bind_of_ok hright]
  cases h with
  | number m n => rfl
  | string a b => rfl
  | boolean a b => rfl

/-- The outcome is determined, as literals resolve to themselves. -/
theorem SameKind.compares_iff (h : SameKind x y) {n : Int} :
    Compares machine x y n ↔ n = difference x y := by
  constructor
  · intro hn
    have hx : x.isLiteral := by
      cases h with
      | number m n => rfl
      | string a b => rfl
      | boolean a b => rfl
    have hy : y.isLiteral := by
      cases h with
      | number m n => rfl
      | string a b => rfl
      | boolean a b => rfl
    have hleft := termResolve_literal machine 0 hx plainStart
    have hright := termResolve_literal machine 0 hy plainStart
    have hrun := (hn _ _ _ _ _ _ hleft hright).symm.trans (h.compares _ _ _ _ _ _ hleft hright)
    exact (EStateM.Result.ok.inj hrun).1
  · rintro rfl
    exact h.compares

theorem trichotomy (n : Int) : Trichotomy n := by
  rcases Int.lt_trichotomy n 0 with h | rfl | h
  · have hle : n ≤ 0 := Int.le_of_lt h
    have hne : n ≠ 0 := Int.ne_of_lt h
    have hlt : ¬ 0 < n := Int.not_lt.mpr hle
    have hge : ¬ 0 ≤ n := Int.not_le.mpr h
    constructor
    all_goals simp [Relation.holds, h, hle, hne, hge]
  · constructor
    all_goals decide
  · have hle : 0 ≤ n := Int.le_of_lt h
    have hne : n ≠ 0 := (Int.ne_of_lt h).symm
    have hlt : ¬ n < 0 := Int.not_lt.mpr hle
    have hge : ¬ n ≤ 0 := Int.not_le.mpr h
    constructor
    all_goals simp [Relation.holds, h, hle, hne, hge]

theorem toInt_sub_within {a b : Int32} (h : Within (.number a) (.number b)) :
    (a - b).toInt = a.toInt - b.toInt := by
  obtain ⟨hlow, hhigh⟩ : -2 ^ 31 < a.toInt - b.toInt ∧ a.toInt - b.toInt < 2 ^ 31 := h
  rw [Int32.toInt_sub, Int.bmod_def]
  omega

theorem neg_iff_of_sign {m n : Int} (h : n.sign = m.sign) : n < 0 ↔ m < 0 := by
  rw [← Int.sign_eq_neg_one_iff_neg, h, Int.sign_eq_neg_one_iff_neg]

/-- When the difference does not fit, one of the two comparisons has the wrong sign. -/
theorem within_of_sign {a b : Int32} (hab : SignOfDifference (.number a) (.number b) (a - b).toInt)
    (hba : SignOfDifference (.number b) (.number a) (b - a).toInt) :
    Within (.number a) (.number b) := by
  have h1 := neg_iff_of_sign (hab a b rfl rfl)
  have h2 := neg_iff_of_sign (hba b a rfl rfl)
  have ha := a.le_toInt
  have ha' := a.toInt_lt
  have hb := b.le_toInt
  have hb' := b.toInt_lt
  rw [Int32.toInt_sub, Int.bmod_def] at h1 h2
  show -2 ^ 31 < a.toInt - b.toInt ∧ a.toInt - b.toInt < 2 ^ 31
  omega

theorem difference_number {a b : Int32} (h : Within (.number a) (.number b)) :
    difference (.number a) (.number b) = a.toInt - b.toInt := toInt_sub_within h

theorem Within.symm (h : Within x y) : Within y x := by
  cases x with
  | number a =>
    cases y with
    | number b =>
      obtain ⟨hlow, hhigh⟩ : -2 ^ 31 < a.toInt - b.toInt ∧ a.toInt - b.toInt < 2 ^ 31 := h
      show -2 ^ 31 < b.toInt - a.toInt ∧ b.toInt - a.toInt < 2 ^ 31
      omega
    | identifier _ | string _ | boolean _ | function _ _ => trivial
  | identifier _ | string _ | boolean _ | function _ _ => cases y <;> trivial

theorem SameKind.symm (h : SameKind x y) : SameKind y x := by
  cases h with
  | number m n => exact .number n m
  | string a b => exact .string b a
  | boolean a b => exact .boolean b a

theorem SameKind.trans (h : SameKind x y) (h' : SameKind y z) : SameKind x z := by
  cases h with
  | number m n =>
    cases h' with
    | number _ k => exact .number m k
  | string a b =>
    cases h' with
    | string _ c => exact .string a c
  | boolean a b =>
    cases h' with
    | boolean _ c => exact .boolean a c

/-! ## One comparison -/

theorem difference_swap (h : SameKind x y) (hw : Within x y) : difference x y = -difference y x := by
  cases h with
  | number m n =>
    rw [difference_number hw, difference_number hw.symm]
    omega
  | string a b => exact strcmp_swap a b
  | boolean a b => cases a <;> cases b <;> rfl

theorem difference_eq_zero (h : SameKind x y) (hw : Within x y) : difference x y = 0 ↔ x = y := by
  cases h with
  | number m n =>
    rw [difference_number hw, Term.number.injEq, ← Int32.toInt_inj]
    omega
  | string a b =>
    rw [Term.string.injEq]
    exact strcmp_eq_zero
  | boolean a b =>
    cases a <;> cases b <;> simp [difference]

theorem difference_trans (hxy : SameKind x y) (hyz : SameKind y z) (hw : Within x y) (hw' : Within y z)
    (hw'' : Within x z) (h : difference x y ≤ 0) (h' : difference y z ≤ 0) : difference x z ≤ 0 := by
  cases hxy with
  | number m n =>
    cases hyz with
    | number _ k =>
      rw [difference_number hw] at h
      rw [difference_number hw'] at h'
      rw [difference_number hw'']
      omega
  | string a b =>
    cases hyz with
    | string _ c => exact strcmp_trans h h'
  | boolean a b =>
    cases hyz with
    | boolean _ c => revert h h'; cases a <;> cases b <;> cases c <;> decide

theorem difference_sign (hw : Within x y) : SignOfDifference x y (difference x y) := by
  rintro a b rfl rfl
  rw [difference_number hw]

/-! ## All comparisons -/

/-- Where `term_compare` orders the values, it has the right sign both ways. -/
theorem OrderedBy.within {values : List Term} {r : Term → Term → Int}
    (hr : OrderedBy machine values r) (hx : x ∈ values) (hy : y ∈ values) (h : SameKind x y) :
    Within x y := by
  have hxy := hr.numbers x hx y hy
  have hyx := hr.numbers y hy x hx
  rw [h.compares_iff.mp (hr.compares x hx y hy)] at hxy
  rw [h.symm.compares_iff.mp (hr.compares y hy x hx)] at hyx
  cases h with
  | number m n => exact within_of_sign hxy hyx
  | string _ _ => trivial
  | boolean _ _ => trivial

/-- Three values of one kind are ordered by `term_compare` exactly when no difference of two numbers
among them wraps around. -/
theorem compare_orders_iff (machine : Machine) (hxy : SameKind x y) (hyz : SameKind y z) :
    (∃ r, OrderedBy machine [x, y, z] r) ↔ Within x y ∧ Within y z ∧ Within x z := by
  have hkind : ∀ a ∈ [x, y, z], ∀ b ∈ [x, y, z], SameKind a b := by
    have hx : ∀ a ∈ [x, y, z], SameKind x a := by
      intro a ha
      simp only [List.mem_cons, List.not_mem_nil, or_false] at ha
      rcases ha with rfl | rfl | rfl
      · exact hxy.trans hxy.symm
      · exact hxy
      · exact hxy.trans hyz
    exact fun a ha b hb => (hx a ha).symm.trans (hx b hb)
  constructor
  · rintro ⟨r, hr⟩
    exact ⟨hr.within (by simp) (by simp) hxy, hr.within (by simp) (by simp) hyz,
      hr.within (by simp) (by simp) (hxy.trans hyz)⟩
  · rintro ⟨hwxy, hwyz, hwxz⟩
    have hself : ∀ a, Within a a := by
      intro a
      cases a with
      | number n =>
        show -2 ^ 31 < n.toInt - n.toInt ∧ n.toInt - n.toInt < 2 ^ 31
        omega
      | identifier _ | string _ | boolean _ | function _ _ => trivial
    have hwithin : ∀ a ∈ [x, y, z], ∀ b ∈ [x, y, z], Within a b := by
      intro a ha b hb
      simp only [List.mem_cons, List.not_mem_nil, or_false] at ha hb
      rcases ha with rfl | rfl | rfl
      · rcases hb with rfl | rfl | rfl
        · exact hself _
        · exact hwxy
        · exact hwxz
      · rcases hb with rfl | rfl | rfl
        · exact hwxy.symm
        · exact hself _
        · exact hwyz
      · rcases hb with rfl | rfl | rfl
        · exact hwxz.symm
        · exact hwyz.symm
        · exact hself _
    refine ⟨difference, ?_, ?_, ?_, ?_, ?_, ?_⟩
    · exact fun a ha b hb => (hkind a ha b hb).compares
    · intro a ha b hb
      rw [difference_swap (hkind a ha b hb) (hwithin a ha b hb), Int.sign_neg]
    · exact fun a ha b hb c hc => difference_trans (hkind a ha b hb) (hkind b hb c hc)
        (hwithin a ha b hb) (hwithin b hb c hc) (hwithin a ha c hc)
    · exact fun a ha b hb => difference_eq_zero (hkind a ha b hb) (hwithin a ha b hb)
    · exact fun a ha b hb => difference_sign (hwithin a ha b hb)
    · exact fun a _ b _ => trichotomy _

end

theorem compare_orders_small : ∃ r, OrderedBy plainMachine [.number 3, .number (-4), .number 6] r :=
  (compare_orders_iff plainMachine (.number 3 (-4)) (.number (-4) 6)).mpr (by decide)

/-- The largest number is said to be less than -1. -/
theorem compare_wraps : ¬ ∀ (machine : Machine) (x y z : Term), SameKind x y → SameKind y z →
    ∃ r, OrderedBy machine [x, y, z] r := by
  intro hall
  obtain ⟨r, hr⟩ := hall plainMachine (.number 2147483647) (.number (-1)) (.number 0) (.number _ _)
    (.number _ _)
  have hwithin := hr.within (x := .number 2147483647) (y := .number (-1)) (by simp) (by simp)
    (.number _ _)
  exact absurd hwithin (by decide)

/-! ## Values of different kinds -/

/-- The machine with other bytes in the members of a union that have not been stored. -/
def Machine.holding (machine : Machine) (numbers : Content → Int32) (booleans : Content → UInt8) :
    Machine := { machine with
  inactiveNumber := numbers
  inactiveBoolean := booleans }

/-- Both comparisons of two values look only at what has been stored, as they come out the same
whatever the other members hold, and they come out opposite. -/
def WellCompared (machine : Machine) (x y : Term) : Prop :=
  ∃ m n, (∀ numbers booleans, Compares (machine.holding numbers booleans) x y m ∧
    Compares (machine.holding numbers booleans) y x n) ∧ m.sign = -n.sign

/-- The values have one kind, and two numbers are not exactly `2 ^ 31` apart. -/
def Comparable (x y : Term) : Prop :=
  SameKind x y ∧ ∀ a b, x = .number a → y = .number b → (a.toInt - b.toInt).natAbs ≠ 2 ^ 31

theorem numberIn_inactive {machine : Machine} {y : Term} (hy : ∀ b, y ≠ .number b) :
    machine.numberIn y.content = machine.inactiveNumber y.content := by
  cases y with
  | number b => exact absurd rfl (hy b)
  | identifier _ | string _ | boolean _ | function _ _ => rfl

theorem booleanIn_inactive {machine : Machine} {y : Term} (hy : ∀ b, y ≠ .boolean b) :
    machine.booleanIn y.content = (machine.inactiveBoolean y.content).toNat := by
  cases y with
  | boolean b => exact absurd rfl (hy b)
  | identifier _ | string _ | number _ | function _ _ => rfl

/-- The comparison of two literals does not depend on the state. -/
theorem Compares.outcome {machine : Machine} {x y : Term} {n : Int} (h : Compares machine x y n)
    (hx : x.isLiteral) (hy : y.isLiteral) :
    termCompare machine pure (some x) (some y) plainStart = .ok n plainStart := by
  have hleft := termResolve_literal machine 0 hx plainStart
  have hright := termResolve_literal machine 0 hy plainStart
  have hrun := h _ _ _ _ _ _ hleft hright
  rw [termCompare, bind_of_ok hleft, bind_of_ok hright] at hrun
  exact hrun

/-- Only literals of one kind come out the same whatever the union holds. -/
theorem sameKind_of_compares {machine : Machine} {x y : Term} (hx : x.isLiteral) (hy : y.isLiteral)
    {n : Int} (h : ∀ numbers booleans, Compares (machine.holding numbers booleans) x y n) :
    SameKind x y := by
  have hrun := fun numbers booleans => (h numbers booleans).outcome hx hy
  cases x with
  | identifier _ | function _ _ => exact nomatch hx
  | string a =>
    have hzero := hrun (fun _ => 0) (fun _ => 0)
    cases y with
    | string b => exact .string a b
    | identifier _ | number _ | boolean _ | function _ _ => exact nomatch hzero
  | number a =>
    have hnumber : ∀ numbers booleans,
        (a - (machine.holding numbers booleans).numberIn y.content).toInt = n :=
      fun numbers booleans => (EStateM.Result.ok.inj (hrun numbers booleans)).1
    by_cases hkind : ∃ b, y = .number b
    · obtain ⟨b, rfl⟩ := hkind
      exact .number a b
    · have hother : ∀ b, y ≠ .number b := fun b heq => hkind ⟨b, heq⟩
      have hzero := hnumber (fun _ => 0) (fun _ => 0)
      have hone := hnumber (fun _ => 1) (fun _ => 0)
      rw [numberIn_inactive hother] at hzero hone
      have hsame : a - 0 = a - 1 := Int32.toInt_inj.mp (hzero.trans hone.symm)
      exact absurd ((Int32.sub_right_inj a).mp hsame) (by decide)
  | boolean a =>
    have hboolean : ∀ numbers booleans,
        (if a then 1 else 0) - (machine.holding numbers booleans).booleanIn y.content = n :=
      fun numbers booleans => (EStateM.Result.ok.inj (hrun numbers booleans)).1
    by_cases hkind : ∃ b, y = .boolean b
    · obtain ⟨b, rfl⟩ := hkind
      exact .boolean a b
    · have hother : ∀ b, y ≠ .boolean b := fun b heq => hkind ⟨b, heq⟩
      have hzero := hboolean (fun _ => 0) (fun _ => 0)
      have hone := hboolean (fun _ => 0) (fun _ => 1)
      rw [booleanIn_inactive hother] at hzero hone
      change _ - ((0 : Nat) : Int) = n at hzero
      change _ - ((1 : Nat) : Int) = n at hone
      omega

/-- Two numbers come out opposite unless they are exactly `2 ^ 31` apart. -/
theorem sign_sub_swap (a b : Int32) :
    (a - b).toInt.sign = -(b - a).toInt.sign ↔ (a.toInt - b.toInt).natAbs ≠ 2 ^ 31 := by
  have ha := a.le_toInt
  have ha' := a.toInt_lt
  have hb := b.le_toInt
  have hb' := b.toInt_lt
  rw [Int32.toInt_sub, Int32.toInt_sub, Int.bmod_def, Int.bmod_def, ← Int.sign_neg]
  constructor
  · intro h
    have hneg := neg_iff_of_sign h
    omega
  · intro h
    congr 1
    omega

theorem difference_opposite {x y : Term} (h : SameKind x y) :
    (difference x y).sign = -(difference y x).sign ↔
      ∀ a b, x = .number a → y = .number b → (a.toInt - b.toInt).natAbs ≠ 2 ^ 31 := by
  cases h with
  | number m n =>
    refine (sign_sub_swap m n).trans ⟨?_, fun h => h m n rfl rfl⟩
    rintro h a b ha hb
    obtain rfl := Term.number.inj ha
    obtain rfl := Term.number.inj hb
    exact h
  | string a b =>
    refine iff_of_true ?_ (fun _ _ ha => nomatch ha)
    rw [difference_swap (.string a b) trivial, Int.sign_neg]
  | boolean a b =>
    refine iff_of_true ?_ (fun _ _ ha => nomatch ha)
    rw [difference_swap (.boolean a b) trivial, Int.sign_neg]

/-- Two literals are compared well exactly when they have one kind and are no numbers that are `2 ^
31` apart. -/
theorem compared_well_iff (machine : Machine) {x y : Term} (hx : x.isLiteral) (hy : y.isLiteral) :
    WellCompared machine x y ↔ Comparable x y := by
  constructor
  · rintro ⟨m, n, hcompares, hsign⟩
    have hkind := sameKind_of_compares hx hy fun numbers booleans => (hcompares numbers booleans).1
    obtain ⟨hm, hn⟩ := hcompares (fun _ => 0) (fun _ => 0)
    rw [hkind.compares_iff] at hm
    rw [hkind.symm.compares_iff] at hn
    rw [hm, hn] at hsign
    exact ⟨hkind, (difference_opposite hkind).mp hsign⟩
  · rintro ⟨hkind, hapart⟩
    exact ⟨difference x y, difference y x, fun _ _ => ⟨hkind.compares, hkind.symm.compares⟩,
      (difference_opposite hkind).mpr hapart⟩

theorem compared_well_strings :
    WellCompared plainMachine (.string (.ofString "1")) (.string (.ofString "2")) :=
  (compared_well_iff plainMachine rfl rfl).mpr ⟨.string _ _, nofun⟩

/-- The text of a U-Boot variable is compared with a number as if it were one. -/
theorem compared_badly : ¬ ∀ (machine : Machine) (x y : Term), x.isLiteral → y.isLiteral →
    WellCompared machine x y := by
  intro hall
  obtain ⟨m, n, hcompares, -⟩ := hall plainMachine (.string (.ofString "1")) (.number 1) rfl rfl
  exact nomatch sameKind_of_compares rfl rfl fun numbers booleans => (hcompares numbers booleans).1

end NervesInitramfs
