import NervesInitramfs.Uboot.Proofs.LinksProofs

/-!
# Proofs: when an environment can be written

The writer never leaves the buffer and loses no pair, whether the environment fits or not. It takes
an environment for too large when it would fill the buffer to the last byte.
-/

namespace NervesInitramfs

open CLib

variable {w : Nat}

/-! ## The limit -/

/-- What a block needs: the checksum, each name and value with `=` and NUL, and the final NUL. -/
def neededSize (pairs : List UbootNameValue) : Nat :=
  4 + (pairs.map fun pair => pair.name.strlen + pair.value.strlen + 2).sum + 1

theorem neededSize_eq (pairs : List UbootNameValue) :
    neededSize pairs = 4 + (entriesBytes pairs).length + 1 := by
  rw [neededSize, entriesBytes, List.length_flatMap]
  simp only [entryBytes_length]

/-- The writer does as it should exactly when the environment would not fill the buffer. -/
theorem ubootEnvWrite_succeeds_iff (qsort : Qsort envNameCompare) {env : UbootEnv}
    {buffer : Buffer w} (h8 : 8 ≤ env.envSize) (hsize : buffer.size = env.envSize) :
    ((∃ env' block, ubootEnvWrite qsort env buffer = some (0, env', block)) ↔
        neededSize env.vars ≤ env.envSize) ↔ neededSize env.vars ≠ env.envSize := by
  have hwrite : (∃ env' block, ubootEnvWrite qsort env buffer = some (0, env', block)) ↔
      neededSize env.vars + 1 ≤ env.envSize := by
    rw [neededSize_eq]
    constructor
    · rintro ⟨env', block, h⟩
      have hfit := (ubootEnvWrite_ok hsize h).2.1
      omega
    · intro hfit
      obtain ⟨block, h, -⟩ := ubootEnvWrite_fits qsort hsize (by omega) h8
      exact ⟨_, block, h⟩
  rw [hwrite]
  omega

theorem ubootEnvWrite_succeeds_twoVars :
    (∃ env' block, ubootEnvWrite stableSort twoVars sixteenBytes = some (0, env', block)) ↔
      neededSize twoVars.vars ≤ twoVars.envSize := by
  have h8 : 8 ≤ twoVars.envSize := by decide
  exact (ubootEnvWrite_succeeds_iff stableSort h8 rfl).mpr (by decide)

/-- The digit 1, `n` times. -/
def ones (n : Nat) : CString :=
  ⟨List.replicate n 49, fun h => absurd (List.eq_of_mem_replicate h) (by decide)⟩

theorem strlen_ones (n : Nat) : (ones n).strlen = n := List.length_replicate

/-- A variable whose entry is 507 bytes long, in a block of 512. -/
def exactFit : UbootEnv := ⟨512, [⟨.ofString "a", ones 504⟩]⟩

def blockOf512 : Buffer 64 :=
  ⟨List.replicate 512 0, by rw [List.length_replicate]; decide⟩

/-- It needs the whole block, and is refused. -/
theorem exact_fit_refused :
    ¬ ∀ (qsort : Qsort envNameCompare) (env : UbootEnv) (buffer : Buffer 64), 8 ≤ env.envSize →
      buffer.size = env.envSize →
      ((∃ env' block, ubootEnvWrite qsort env buffer = some (0, env', block)) ↔
        neededSize env.vars ≤ env.envSize) := by
  intro h
  have hsize : blockOf512.size = exactFit.envSize := List.length_replicate
  have hneeded : neededSize exactFit.vars = exactFit.envSize := by
    have ha : (CString.ofString "a").strlen = 1 := rfl
    simp only [neededSize, exactFit, List.map_cons, List.map_nil, List.sum_cons, List.sum_nil, ha,
      strlen_ones]
    omega
  obtain ⟨env', block, hwrite⟩ := (h stableSort exactFit blockOf512 (by decide) hsize).mpr hneeded.le
  have hfit := (ubootEnvWrite_ok hsize hwrite).2.1
  rw [neededSize_eq] at hneeded
  omega

/-! ## Inside the buffer -/

/-- On every list, the writer stores inside the block only and returns one of its two codes; the
list in memory is then well formed and holds the same pairs, sorted by name. -/
theorem linkedWrite_safe (qsort : Qsort linkCompare) {env : LinkedEnv}
    {l : List (Nat × UbootNameValue)} {steps : Nat} {buffer : Buffer w} (h : env.Holds l)
    (h8 : 8 ≤ env.envSize) (hsize : buffer.size = env.envSize) (hsteps : l.length ≤ steps) :
    ∃ rc env' buffer' l', linkedWrite steps qsort env buffer = some (rc, env', buffer') ∧
      (rc = 0 ∨ rc = -1) ∧ env'.Holds l' ∧ (l'.map Prod.fst).Nodup ∧ l'.Perm l ∧
      l'.Pairwise fun a b => strcmp a.2.name b.2.name ≤ 0 := by
  let qsort' := Qsort.image Prod.snd (fun _ _ => rfl) qsort stableSort l
  have hsort : (qsort.sort l).map Prod.snd = qsort'.sort (l.map Prod.snd) := (if_pos rfl).symm
  obtain ⟨env', l', -, hholds, hperm, hl', hwrite⟩ :=
    linkedWrite_eq qsort qsort' h hsort hsteps buffer
  have hsorted : l'.Pairwise fun a b => strcmp a.2.name b.2.name ≤ 0 := by
    rw [hl' h8]
    exact qsort.sorted l
  have hsize' : buffer.size = (env.abstract l).envSize := hsize
  rcases ubootEnvWrite_cases qsort' hsize' with ⟨block, hdone⟩ | ⟨env1, block, hdone, -⟩
  · refine ⟨0, env', block, l', ?_, Or.inl rfl, hholds, hholds.nodup, hperm, hsorted⟩
    rw [hwrite, hdone]
    rfl
  · refine ⟨-1, env', block, l', ?_, Or.inr rfl, hholds, hholds.nodup, hperm, hsorted⟩
    rw [hwrite, hdone]
    rfl

theorem linkedWrite_safe_pair : ∃ rc env' buffer' l',
    linkedWrite 2 stableLinks (pairLinks 2 1) sixteenBytes = some (rc, env', buffer') ∧
      (rc = 0 ∨ rc = -1) ∧ env'.Holds l' ∧ (l'.map Prod.fst).Nodup ∧
      l'.Perm [linkAt 2, linkAt 1] ∧ l'.Pairwise fun a b => strcmp a.2.name b.2.name ≤ 0 := by
  have h21 : (pairLinks 2 1).Represents [linkAt 2, linkAt 1] :=
    represents_pairLinks (by decide) (by decide)
  exact linkedWrite_safe stableLinks h21.holds (by decide) rfl (by decide)

end NervesInitramfs
