import NervesInitramfs.Uboot.Proofs.WriteProofs
import Mathlib.Data.List.Induction

/-!
# Proofs: saving an environment and loading it again

A block that was written is read back as the sorted list in reverse. What that means for the map the
environment stands for depends on two things: whether the layout can hold the names, and whether a
name occurs with two values.
-/

namespace NervesInitramfs

open CLib

variable {w : Nat}

/-! ## The map of an environment -/

theorem ubootEnvGetenv_eq (env : UbootEnv) (name : CString) :
    ubootEnvGetenv env name = envMap env.vars name := by
  simp only [ubootEnvGetenv, envMap, firstMatch, strcmp_eq_zero]

theorem replaceValue_eq (name value : CString) (vars : List UbootNameValue) :
    replaceValue name value vars
      = replaceFirst (·.name) (fun pair => { pair with value := value }) name vars := by
  induction vars with
  | nil => rfl
  | cons pair rest ih => simp only [replaceValue, replaceFirst, strcmp_eq_zero, ih]

/-- `uboot_env_setenv` changes the value of the one name. -/
theorem envMap_setenv (env : UbootEnv) (name value k : CString) :
    envMap (ubootEnvSetenv env name value).2.vars k
      = if name = k then some value else envMap env.vars k := by
  unfold ubootEnvSetenv
  rw [replaceValue_eq]
  cases h : replaceFirst (·.name) (fun pair : UbootNameValue => { pair with value := value }) name
      env.vars with
  | none => simp [envMap]
  | some vars => exact firstMatch_replaceFirst h (fun _ => rfl) (fun _ => rfl) k

theorem mem_names_setenv (env : UbootEnv) (name value k : CString) :
    k ∈ (ubootEnvSetenv env name value).2.vars.map (·.name) ↔
      k = name ∨ k ∈ env.vars.map (·.name) := by
  unfold ubootEnvSetenv
  rw [replaceValue_eq]
  cases h : replaceFirst (·.name) (fun pair : UbootNameValue => { pair with value := value }) name
      env.vars with
  | none => simp
  | some vars =>
    obtain ⟨hnames, ⟨q, hq, rfl, -⟩, -⟩ := replaceFirst_some h fun _ => rfl
    simp only [hnames]
    constructor
    · exact Or.inr
    · rintro (rfl | hk)
      · exact List.mem_map_of_mem hq
      · exact hk

theorem nodup_names_setenv {env : UbootEnv} (h : (env.vars.map (·.name)).Nodup)
    (name value : CString) : ((ubootEnvSetenv env name value).2.vars.map (·.name)).Nodup := by
  unfold ubootEnvSetenv
  rw [replaceValue_eq]
  cases hr : replaceFirst (·.name) (fun pair : UbootNameValue => { pair with value := value }) name
      env.vars with
  | none =>
    have hne := replaceFirst_eq_none.mp hr
    simpa [h] using hne
  | some vars =>
    rw [(replaceFirst_some hr fun _ => rfl).1]
    exact h

/-! ## Reading what was written -/

theorem lists_blockData {n : Nat} {pairs : List UbootNameValue}
    (h : ∀ pair ∈ pairs, Representable pair.name) : Lists (blockData n pairs) pairs :=
  ⟨h, Or.inr ⟨_, rfl⟩⟩

/-- Reading a block that was written gives the sorted list in reverse, when the layout can hold the
names. -/
theorem ubootEnvRead_written {qsort : Qsort envNameCompare} {env env' : UbootEnv}
    {buffer block : Buffer w} (hsize : buffer.size = env.envSize)
    (hwrite : ubootEnvWrite qsort env buffer = some (0, env', block))
    (hrep : ∀ pair ∈ env.vars, Representable pair.name) (env0 : UbootEnv)
    (h0 : env0.envSize = env.envSize) :
    ubootEnvRead env0 block = some (0, ⟨env.envSize, (qsort.sort env.vars).reverse⟩) := by
  obtain ⟨h8, hfit, -, hb⟩ := ubootEnvWrite_ok hsize hwrite
  have hlen := sort_length qsort env.vars
  have hdata : (blockData (env.envSize - 4) (qsort.sort env.vars)).length = env.envSize - 4 := by
    simp only [blockData, List.length_append, List.length_cons, List.length_replicate]; omega
  have hblock : block.bytes.length = env.envSize := by
    rw [hb, List.length_append, crcBytes_length, hdata]; omega
  have htake : block.bytes.take env.envSize = block.bytes := List.take_of_length_le (by omega)
  have hle : env0.envSize ≤ block.size := by rw [h0]; exact hblock.ge
  rw [ubootEnvRead_iff (by omega) hle]
  have hbytes : blockBytes env0.envSize block = blockData (env.envSize - 4) (qsort.sort env.vars) := by
    rw [blockBytes, h0, htake, hb]; rfl
  refine ⟨?_, qsort.sort env.vars, ?_, by rw [h0]⟩
  · rw [hbytes, h0, htake, hb, storedCrc_crcBytes]
  · rw [hbytes]
    exact lists_blockData fun pair hp => hrep pair ((qsort.perm _).mem_iff.mp hp)

/-- What a read links are names that the layout can hold. -/
theorem representable_of_read {env env' : UbootEnv} {block : Buffer w} (h4 : 4 ≤ env.envSize)
    (hsize : env.envSize ≤ block.size) (h : ubootEnvRead env block = some (0, env')) :
    ∀ pair ∈ env'.vars, Representable pair.name := by
  obtain ⟨-, pairs, hl, rfl⟩ := (ubootEnvRead_iff h4 hsize).mp h
  intro pair hp
  exact hl.1 pair (by simpa using hp)

/-! ## An environment whose names are distinct -/

/-- Decoding undoes encoding: a block that was written from distinct names of the layout is read
back as the same pairs, in another order. -/
theorem read_undoes_write (qsort : Qsort envNameCompare) {env env' env0 : UbootEnv}
    {buffer block : Buffer w} (hsize : buffer.size = env.envSize)
    (hdistinct : (env.vars.map (·.name)).Nodup) (hrep : ∀ pair ∈ env.vars, Representable pair.name)
    (hwrite : ubootEnvWrite qsort env buffer = some (0, env', block))
    (h0 : env0.envSize = env.envSize) :
    ∃ env1, ubootEnvRead env0 block = some (0, env1) ∧ env1.vars.Perm env.vars ∧
      (env1.vars.map (·.name)).Nodup ∧
      ∀ name, ubootEnvGetenv env1 name = ubootEnvGetenv env name := by
  have hperm : (qsort.sort env.vars).reverse.Perm env.vars :=
    (List.reverse_perm _).trans (qsort.perm _)
  refine ⟨_, ubootEnvRead_written hsize hwrite hrep env0 h0, hperm, ?_, fun name => ?_⟩
  · exact ((hperm.map _).nodup_iff).mpr hdistinct
  · rw [ubootEnvGetenv_eq, ubootEnvGetenv_eq]
    exact (unambiguous_of_nodup hdistinct).firstMatch_perm hperm name

/-- The `qsort` that sorts stably. -/
def stableSort : Qsort envNameCompare :=
  Qsort.stable envNameCompare id (fun l => List.Perm.refl l) (fun _ _ _ => strcmp_trans)
    (fun _ _ => strcmp_total _ _)

/-- Two variables, one empty and one with a `=` in its value, in a block of 16 bytes. -/
def twoVars : UbootEnv :=
  ⟨16, [⟨.ofString "b", .ofString "1=2"⟩, ⟨.ofString "a", .ofString ""⟩]⟩

/-- A buffer of 16 bytes with some old contents. -/
def sixteenBytes : Buffer 64 := ⟨List.replicate 16 7, by decide⟩

theorem read_undoes_write_twoVars :
    ∃ env' block env1, ubootEnvWrite stableSort twoVars sixteenBytes = some (0, env', block) ∧
      ubootEnvRead env' block = some (0, env1) ∧
      ubootEnvGetenv env1 (.ofString "b") = some (.ofString "1=2") := by
  have hsize : sixteenBytes.size = twoVars.envSize := rfl
  obtain ⟨block, hw, -⟩ := ubootEnvWrite_fits stableSort hsize (by decide) (by decide)
  obtain ⟨env1, hr, -, -, hget⟩ :=
    read_undoes_write stableSort hsize (by decide) (by decide) hw rfl
  exact ⟨_, block, env1, hw, hr, by rw [hget]; decide⟩

/-! ## A block that was loaded -/

/-- A `qsort` that leaves the pair `a` behind the other pairs with its name. -/
def sortBehind (a : UbootNameValue) : Qsort envNameCompare :=
  Qsort.stable envNameCompare (moveToEnd a) (moveToEnd_perm a) (fun _ _ _ => strcmp_trans)
    (fun _ _ => strcmp_total _ _)

/-- In the reverse of what that `qsort` returns, the pair `a` is found first. -/
theorem envMap_sortBehind {a : UbootNameValue} {pairs : List UbootNameValue} (ha : a ∈ pairs) :
    envMap ((sortBehind a).sort pairs).reverse a.name = some a.value := by
  have hequal : ∀ p q : UbootNameValue, decide (p.name = a.name) = true →
      decide (q.name = a.name) = true → envNameCompare p q ≤ 0 := by
    intro p q hp hq
    simp only [decide_eq_true_eq] at hp hq
    simp [envNameCompare, hp, hq]
  have hfilter : ((sortBehind a).sort pairs).filter (fun p => decide (p.name = a.name))
      = (moveToEnd a pairs).filter fun p => decide (p.name = a.name) :=
    Qsort.stable_filter _ hequal pairs
  rw [envMap, firstMatch_reverse, hfilter, getLast?_moveToEnd ha (by simp)]
  rfl

/-- The pairs that the data of a block lists are determined by the data. -/
theorem lists_unique {data : List UInt8} {pairs pairs' : List UbootNameValue}
    (hsize : data.length ≤ ptrdiffMax w) (h : Lists data pairs) (h' : Lists data pairs') :
    pairs = pairs' := by
  have hr := (readEntries_of_lists h hsize).symm.trans (readEntries_of_lists h' hsize)
  exact List.reverse_injective (congrArg Prod.snd hr)

theorem oneValueEach_reverse {pairs : List UbootNameValue} :
    OneValueEach pairs.reverse ↔ OneValueEach pairs := by
  simp [Unambiguous]

/-- Loading, saving and loading again keeps every value, whatever order `qsort` leaves equal names
in, exactly when the block does not list a name with two values. -/
theorem load_save_load_iff {env env1 env2 : UbootEnv} {block buffer block2 : Buffer w}
    {qsort0 : Qsort envNameCompare} (h8 : 8 ≤ env.envSize) (hblock : block.size = env.envSize)
    (hbuffer : buffer.size = env.envSize) (hread : ubootEnvRead env block = some (0, env1))
    (hwrite : ubootEnvWrite qsort0 env1 buffer = some (0, env2, block2)) :
    (∀ (qsort : Qsort envNameCompare) (env2 : UbootEnv) (block2 : Buffer w),
      ubootEnvWrite qsort env1 buffer = some (0, env2, block2) →
        ∃ env3, ubootEnvRead env2 block2 = some (0, env3) ∧
          ∀ name, ubootEnvGetenv env3 name = ubootEnvGetenv env1 name) ↔
      ∀ pairs, Lists (blockBytes env.envSize block) pairs → OneValueEach pairs := by
  have hrep := representable_of_read (by omega) hblock.ge hread
  obtain ⟨-, pairs, hl, rfl⟩ := (ubootEnvRead_iff (by omega) hblock.ge).mp hread
  replace hbuffer : buffer.size = (⟨env.envSize, pairs.reverse⟩ : UbootEnv).envSize := hbuffer
  have hfit := (ubootEnvWrite_ok hbuffer hwrite).2.1
  have hone : (∀ pairs', Lists (blockBytes env.envSize block) pairs' → OneValueEach pairs') ↔
      OneValueEach pairs.reverse := by
    rw [oneValueEach_reverse]
    refine ⟨fun h => h pairs hl, fun h pairs' hl' => ?_⟩
    rwa [lists_unique (blockBytes_length_le _ _) hl' hl]
  rw [hone]
  constructor
  · intro hall
    by_contra hamb
    obtain ⟨a, ha, hne⟩ := exists_other_of_not_unambiguous hamb
    obtain ⟨block3, hw3, -⟩ := ubootEnvWrite_fits (sortBehind a) hbuffer hfit h8
    obtain ⟨env3, hr3, hget⟩ := hall (sortBehind a) _ block3 hw3
    have henv3 := (ubootEnvRead_written hbuffer hw3 hrep _ rfl).symm.trans hr3
    simp only [Option.some.injEq, Prod.mk.injEq, true_and] at henv3
    have h := hget a.name
    rw [ubootEnvGetenv_eq, ubootEnvGetenv_eq, ← henv3] at h
    exact hne (h.symm.trans (envMap_sortBehind ha))
  · intro hamb qsort env2 block2 hw2
    have henv2 := (ubootEnvWrite_ok hbuffer hw2).2.2.1
    refine ⟨_, ubootEnvRead_written hbuffer hw2 hrep env2 (by rw [henv2]), fun name => ?_⟩
    rw [ubootEnvGetenv_eq, ubootEnvGetenv_eq]
    exact hamb.firstMatch_perm ((List.reverse_perm _).trans (qsort.perm _)) name

/-- The data of a 16-byte block that lists `a=1` and then `a=v`. -/
def twiceData (v : String) : List UInt8 :=
  blockData 12 [⟨.ofString "a", .ofString "1"⟩, ⟨.ofString "a", .ofString v⟩]

/-- That block, with its checksum. -/
def twiceBlock (v : String) : List UInt8 := crcBytes (crc32buf (twiceData v)) ++ twiceData v

/-- The environment that is loaded from it. -/
def twiceEnv (v : String) : UbootEnv :=
  ⟨16, [⟨.ofString "a", .ofString v⟩, ⟨.ofString "a", .ofString "1"⟩]⟩

theorem load_save_load_same :
    ∃ env2 block2 env3,
      ubootEnvWrite stableSort (twiceEnv "1") sixteenBytes = some (0, env2, block2) ∧
      ubootEnvRead env2 block2 = some (0, env3) ∧
      ∀ name, ubootEnvGetenv env3 name = ubootEnvGetenv (twiceEnv "1") name := by
  have hread : ubootEnvRead (w := 64) ⟨16, []⟩ ⟨twiceBlock "1", by decide⟩
      = some (0, twiceEnv "1") := by decide +kernel
  have hsize : sixteenBytes.size = (twiceEnv "1").envSize := rfl
  obtain ⟨block2, hw, -⟩ := ubootEnvWrite_fits stableSort hsize (by decide) (by decide)
  have h16 : 8 ≤ (⟨16, []⟩ : UbootEnv).envSize := by decide
  have hone : ∀ pairs, Lists (twiceData "1") pairs → OneValueEach pairs := by
    intro pairs hl
    have hlists : Lists (twiceData "1") (twiceEnv "1").vars := lists_blockData (by decide)
    rw [lists_unique (w := 64) (by decide) hl hlists]
    intro a ha b hb _
    simp only [twiceEnv, List.mem_cons, List.not_mem_nil, or_false, or_self] at ha hb
    rw [ha, hb]
  obtain ⟨env3, hr, hget⟩ :=
    (load_save_load_iff h16 rfl rfl hread hw).mpr hone stableSort _ block2 hw
  exact ⟨_, block2, env3, hw, hr, hget⟩

/-- With two values the one that is found changes. -/
theorem load_save_load_twice :
    ¬ ∀ (qsort : Qsort envNameCompare) (env env1 env2 : UbootEnv) (block buffer block2 : Buffer 64),
      8 ≤ env.envSize → block.size = env.envSize → buffer.size = env.envSize →
      ubootEnvRead env block = some (0, env1) →
      ubootEnvWrite qsort env1 buffer = some (0, env2, block2) →
        ∃ env3, ubootEnvRead env2 block2 = some (0, env3) ∧
          ∀ name, ubootEnvGetenv env3 name = ubootEnvGetenv env1 name := by
  intro h
  have hread : ubootEnvRead (w := 64) ⟨16, []⟩ ⟨twiceBlock "2", by decide⟩
      = some (0, twiceEnv "2") := by decide +kernel
  have hsize : sixteenBytes.size = (twiceEnv "2").envSize := rfl
  obtain ⟨block2, hw, -⟩ := ubootEnvWrite_fits stableSort hsize (by decide) (by decide)
  obtain ⟨env3, hr, hget⟩ := h stableSort ⟨16, []⟩ _ _ _ _ _ (by decide) rfl rfl hread hw
  have henv3 := (ubootEnvRead_written hsize hw (by decide) _ rfl).symm.trans hr
  simp only [Option.some.injEq, Prod.mk.injEq, true_and] at henv3
  have ha := hget (.ofString "a")
  rw [← henv3] at ha
  exact absurd ha (by decide)

/-! ## An environment built by `setenv` -/

/-- The environment after the given calls of `uboot_env_setenv`, each a name and a value. -/
def setenvAll (calls : List (CString × CString)) (env : UbootEnv) : UbootEnv :=
  calls.foldl (fun env call => (ubootEnvSetenv env call.1 call.2).2) env

/-- The environment that is saved after the calls, in a block of `n` bytes. -/
def setenvEnv (n : Nat) (calls : List (CString × CString)) : UbootEnv :=
  { setenvAll calls ubootEnvInit with envSize := n }

/-- The value that the last call for a name gave it. -/
def lastSet (calls : List (CString × CString)) (name : CString) : Option CString :=
  firstMatch Prod.fst Prod.snd calls.reverse name

theorem setenvAll_concat (calls : List (CString × CString)) (call : CString × CString)
    (env : UbootEnv) :
    setenvAll (calls ++ [call]) env = (ubootEnvSetenv (setenvAll calls env) call.1 call.2).2 := by
  simp [setenvAll]

theorem envMap_setenvAll (calls : List (CString × CString)) (name : CString) :
    envMap (setenvAll calls ubootEnvInit).vars name = lastSet calls name := by
  induction calls using List.reverseRecOn with
  | nil => rfl
  | append_singleton calls call ih =>
    rw [setenvAll_concat, envMap_setenv, ih]
    simp [lastSet]

theorem mem_names_setenvAll {calls : List (CString × CString)} {k : CString} :
    k ∈ (setenvAll calls ubootEnvInit).vars.map (·.name) ↔ k ∈ calls.map Prod.fst := by
  induction calls using List.reverseRecOn with
  | nil => simp [setenvAll, ubootEnvInit]
  | append_singleton calls call ih =>
    rw [setenvAll_concat, mem_names_setenv, ih]
    simp [or_comm]

theorem nodup_names_setenvAll (calls : List (CString × CString)) :
    ((setenvAll calls ubootEnvInit).vars.map (·.name)).Nodup := by
  induction calls using List.reverseRecOn with
  | nil => simp [setenvAll, ubootEnvInit]
  | append_singleton calls call ih =>
    rw [setenvAll_concat]
    exact nodup_names_setenv ih _ _

/-- A name that a reread environment still knows is one that the layout can hold. -/
theorem representable_of_found {env env1 : UbootEnv} {block : Buffer w} {name value : CString}
    (h4 : 4 ≤ env.envSize) (hsize : env.envSize ≤ block.size)
    (hread : ubootEnvRead env block = some (0, env1))
    (hget : ubootEnvGetenv env1 name = some value) : Representable name := by
  rw [ubootEnvGetenv_eq] at hget
  obtain ⟨pair, hp, rfl, -⟩ := firstMatch_mem hget
  exact representable_of_read h4 hsize hread pair hp

theorem block_size {qsort : Qsort envNameCompare} {env env' : UbootEnv} {buffer block : Buffer w}
    (hsize : buffer.size = env.envSize)
    (hwrite : ubootEnvWrite qsort env buffer = some (0, env', block)) :
    8 ≤ env.envSize ∧ env'.envSize = env.envSize ∧ block.size = env.envSize := by
  obtain ⟨h8, hfit, rfl, hb⟩ := ubootEnvWrite_ok hsize hwrite
  have hlen := sort_length qsort env.vars
  refine ⟨h8, rfl, ?_⟩
  rw [Buffer.size, hb, List.length_append, crcBytes_length]
  simp only [blockData, List.length_append, List.length_cons, List.length_replicate]
  omega

/-- What `setenv` accepted survives a save exactly when the layout can hold every name it was called
with. -/
theorem saved_setenvs_iff {qsort : Qsort envNameCompare} {n : Nat}
    {calls : List (CString × CString)} {env' : UbootEnv} {buffer block : Buffer w}
    (hsize : buffer.size = n)
    (hwrite : ubootEnvWrite qsort (setenvEnv n calls) buffer = some (0, env', block)) :
    (∃ env1, ubootEnvRead env' block = some (0, env1) ∧
        ∀ name, ubootEnvGetenv env1 name = lastSet calls name) ↔
      ∀ call ∈ calls, Representable call.1 := by
  obtain ⟨h8, henv', hblock⟩ := block_size hsize hwrite
  constructor
  · rintro ⟨env1, hread, hget⟩ call hcall
    obtain ⟨value, hvalue⟩ : ∃ value, lastSet calls call.1 = some value := by
      rw [← Option.ne_none_iff_exists']
      intro hnone
      exact firstMatch_eq_none.mp hnone call (by simpa using hcall) rfl
    have h8' : 8 ≤ env'.envSize := by rw [henv']; exact h8
    exact representable_of_found (by omega) (by rw [henv', hblock]) hread
      ((hget call.1).trans hvalue)
  · intro hrep
    have hreps : ∀ pair ∈ (setenvAll calls ubootEnvInit).vars, Representable pair.name := by
      intro pair hp
      obtain ⟨call, hcall, hname⟩ :=
        List.mem_map.mp (mem_names_setenvAll.mp (List.mem_map_of_mem hp))
      exact hname ▸ hrep call hcall
    refine ⟨_, ubootEnvRead_written hsize hwrite hreps env' henv', fun name => ?_⟩
    rw [ubootEnvGetenv_eq, ← envMap_setenvAll]
    exact (unambiguous_of_nodup (nodup_names_setenvAll calls)).firstMatch_perm
      ((List.reverse_perm _).trans (qsort.perm _)) name

theorem saved_setenvs_a :
    ∃ env' block env1,
      ubootEnvWrite stableSort (setenvEnv 16 [(.ofString "a", .ofString "1"),
        (.ofString "a", .ofString "=")]) sixteenBytes = some (0, env', block) ∧
      ubootEnvRead env' block = some (0, env1) ∧
      ubootEnvGetenv env1 (.ofString "a") = some (.ofString "=") := by
  have hsize : sixteenBytes.size = (setenvEnv 16 [(.ofString "a", .ofString "1"),
    (.ofString "a", .ofString "=")]).envSize := rfl
  obtain ⟨block, hw, -⟩ := ubootEnvWrite_fits stableSort hsize (by decide) (by decide)
  obtain ⟨env1, hr, hget⟩ := (saved_setenvs_iff hsize hw).mpr (by decide)
  exact ⟨_, block, env1, hw, hr, by rw [hget]; decide⟩

/-- A variable with the empty name is saved, and the block cannot be read any more. -/
theorem saved_setenvs_empty_name :
    ¬ ∀ (qsort : Qsort envNameCompare) (n : Nat) (calls : List (CString × CString))
      (env' : UbootEnv) (buffer block : Buffer 64), 8 ≤ n → buffer.size = n →
      ubootEnvWrite qsort (setenvEnv n calls) buffer = some (0, env', block) →
      ∃ env1, ubootEnvRead env' block = some (0, env1) ∧
        ∀ name, ubootEnvGetenv env1 name = lastSet calls name := by
  intro h
  have hsize : sixteenBytes.size = (setenvEnv 16 [(.ofString "", .ofString "v")]).envSize := rfl
  obtain ⟨block, hw, -⟩ := ubootEnvWrite_fits stableSort hsize (by decide) (by decide)
  obtain ⟨env1, hr, hget⟩ := h stableSort 16 _ _ _ _ (by decide) rfl hw
  obtain ⟨-, henv', hblock⟩ := block_size hsize hw
  have hfound : ubootEnvGetenv env1 (.ofString "") = some (.ofString "v") := by
    rw [hget]; decide
  have hrep := representable_of_found (by decide) (by rw [hblock, henv']) hr hfound
  exact absurd hrep (by decide)

end NervesInitramfs
