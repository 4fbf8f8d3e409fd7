import Mathlib.Data.List.Perm.Basic
import Mathlib.Data.List.Nodup

/-!
# Lists of keyed records, read by first match

A list of records stands for the partial map that takes a key to the value of the first record with
that key. When the list gives every key one value only, the order of the records does not matter.
-/

namespace CLib

variable {α κ β : Type} [DecidableEq κ]

/-- The value of the first record of `l` with key `k`. -/
def firstMatch (key : α → κ) (val : α → β) (l : List α) (k : κ) : Option β :=
  (l.find? fun a => key a = k).map val

/-- Records of `l` with the same key have the same value. -/
def Unambiguous (key : α → κ) (val : α → β) (l : List α) : Prop :=
  ∀ a ∈ l, ∀ b ∈ l, key a = key b → val a = val b

section

variable {key : α → κ} {val : α → β} {l l' : List α} {k : κ}

@[simp] theorem firstMatch_nil : firstMatch key val [] k = none := rfl

@[simp] theorem firstMatch_cons (a : α) :
    firstMatch key val (a :: l) k = if key a = k then some (val a) else firstMatch key val l k := by
  by_cases h : key a = k <;> simp [firstMatch, h]

theorem firstMatch_append :
    firstMatch key val (l ++ l') k = (firstMatch key val l k).or (firstMatch key val l' k) := by
  simp [firstMatch, List.find?_append, Option.map_or]

/-- Only the records with the key matter. -/
theorem firstMatch_filter :
    firstMatch key val l k = (l.filter fun a => key a = k).head?.map val := by
  rw [firstMatch, List.head?_filter]

theorem firstMatch_reverse :
    firstMatch key val l.reverse k = (l.filter fun a => key a = k).getLast?.map val := by
  rw [firstMatch_filter, List.filter_reverse, List.head?_reverse]

theorem firstMatch_eq_none : firstMatch key val l k = none ↔ ∀ a ∈ l, key a ≠ k := by
  simp [firstMatch]

theorem firstMatch_mem {v : β} (h : firstMatch key val l k = some v) :
    ∃ a ∈ l, key a = k ∧ val a = v := by
  obtain ⟨a, ha, rfl⟩ := Option.map_eq_some_iff.mp h
  exact ⟨a, List.mem_of_find?_eq_some ha, by simpa using List.find?_some ha, rfl⟩

/-- In an unambiguous list every record is the one that is found, as far as its value goes. -/
theorem Unambiguous.firstMatch_eq (h : Unambiguous key val l) {a : α} (ha : a ∈ l) :
    firstMatch key val l (key a) = some (val a) := by
  cases hf : firstMatch key val l (key a) with
  | none => exact absurd rfl (firstMatch_eq_none.mp hf a ha)
  | some v =>
    obtain ⟨b, hb, hk, rfl⟩ := firstMatch_mem hf
    rw [h b hb a ha hk]

/-- Reordering an unambiguous list does not change the map it stands for. -/
theorem Unambiguous.firstMatch_perm (h : Unambiguous key val l) (hp : l'.Perm l) (k : κ) :
    firstMatch key val l' k = firstMatch key val l k := by
  have h' : Unambiguous key val l' := fun a ha b hb =>
    h a (hp.mem_iff.mp ha) b (hp.mem_iff.mp hb)
  cases hf : firstMatch key val l' k with
  | none =>
    have hne := firstMatch_eq_none.mp hf
    exact (firstMatch_eq_none.mpr fun a ha => hne a (hp.mem_iff.mpr ha)).symm
  | some v =>
    obtain ⟨a, ha, rfl, rfl⟩ := firstMatch_mem hf
    exact (h.firstMatch_eq (hp.mem_iff.mp ha)).symm

omit [DecidableEq κ] in
theorem unambiguous_of_nodup (h : (l.map key).Nodup) : Unambiguous key val l :=
  fun _ ha _ hb e => congrArg val (List.inj_on_of_nodup_map h ha hb e)

/-- A list that gives some key two values does not agree with all its rearrangements: for every
record there is another value that could come first. -/
theorem exists_other_of_not_unambiguous (h : ¬ Unambiguous key val l) :
    ∃ a ∈ l, firstMatch key val l (key a) ≠ some (val a) := by
  by_contra hcon
  push Not at hcon
  refine h fun a ha b hb e => ?_
  have hab := (hcon a ha).symm.trans (e ▸ hcon b hb)
  exact Option.some.inj hab

/-! ## Replacing the first record with a key -/

/-- The list with `set` applied to the first record with key `k`; `none` when there is none. -/
def replaceFirst (key : α → κ) (set : α → α) (k : κ) : List α → Option (List α)
  | [] => none
  | a :: rest =>
    if key a = k then some (set a :: rest) else (replaceFirst key set k rest).map (a :: ·)

variable {set : α → α}

theorem replaceFirst_eq_none : replaceFirst key set k l = none ↔ ∀ a ∈ l, key a ≠ k := by
  induction l with
  | nil => simp [replaceFirst]
  | cons a rest ih => by_cases ha : key a = k <;> simp [replaceFirst, ha, ih]

/-- The one record that changes keeps its key. -/
theorem replaceFirst_some (h : replaceFirst key set k l = some l')
    (hset : ∀ a, key (set a) = key a) :
    l'.map key = l.map key ∧ (∃ a ∈ l, key a = k ∧ set a ∈ l') ∧
      ∀ a ∈ l', a ∈ l ∨ ∃ b ∈ l, key b = k ∧ a = set b := by
  induction l generalizing l' with
  | nil => simp [replaceFirst] at h
  | cons b rest ih =>
    by_cases hb : key b = k
    · simp only [replaceFirst, hb, if_true, Option.some.injEq] at h
      subst h
      refine ⟨by simp [hset], ⟨b, by simp, hb, by simp⟩, fun a ha => ?_⟩
      rcases List.mem_cons.mp ha with rfl | ha
      · exact Or.inr ⟨b, by simp, hb, rfl⟩
      · exact Or.inl (by simp [ha])
    · simp only [replaceFirst, hb, if_false, Option.map_eq_some_iff] at h
      obtain ⟨rest', hr, rfl⟩ := h
      obtain ⟨hkeys, ⟨c, hc, hck, hcs⟩, hmem⟩ := ih hr
      refine ⟨by simp [hkeys], ⟨c, by simp [hc], hck, by simp [hcs]⟩, fun a ha => ?_⟩
      rcases List.mem_cons.mp ha with rfl | ha
      · exact Or.inl (by simp)
      · rcases hmem a ha with hin | ⟨d, hd, hdk, rfl⟩
        · exact Or.inl (by simp [hin])
        · exact Or.inr ⟨d, by simp [hd], hdk, rfl⟩

theorem firstMatch_replaceFirst (h : replaceFirst key set k l = some l') {v : β}
    (hset : ∀ a, key (set a) = key a) (hval : ∀ a, val (set a) = v) (j : κ) :
    firstMatch key val l' j = if k = j then some v else firstMatch key val l j := by
  induction l generalizing l' with
  | nil => simp [replaceFirst] at h
  | cons b rest ih =>
    by_cases hb : key b = k
    · simp only [replaceFirst, hb, if_true, Option.some.injEq] at h
      subst h
      by_cases hj : k = j <;> simp [hset, hval, hb, hj]
    · simp only [replaceFirst, hb, if_false, Option.map_eq_some_iff] at h
      obtain ⟨rest', hr, rfl⟩ := h
      rw [firstMatch_cons, firstMatch_cons, ih hr]
      by_cases hj : key b = j
      · have hkj : ¬ k = j := fun e => hb (hj.trans e.symm)
        simp [hj, hkj]
      · simp [hj]

end

end CLib
