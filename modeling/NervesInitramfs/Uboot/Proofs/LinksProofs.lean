import NervesInitramfs.Uboot.Links
import NervesInitramfs.Uboot.Proofs.RoundTripProofs

/-!
# Proofs: the environment as a linked list

The functions on nodes and pointers do to the list in memory what the functions on lists say. With
that, an environment is a finite map whatever is done to it, and what is written depends only on the
map.
-/

namespace NervesInitramfs

open CLib

variable {w : Nat}

/-! ## Looking for a name -/

/-- A list has no pair with the name, or a first one. -/
theorem first_named (l : List (Nat × UbootNameValue)) (name : CString) :
    (∀ x ∈ l, x.2.name ≠ name) ∨ ∃ before a d after, l = before ++ (a, d) :: after ∧
      d.name = name ∧ ∀ x ∈ before, x.2.name ≠ name := by
  induction l with
  | nil => exact Or.inl (by simp)
  | cons x rest ih =>
    obtain ⟨a, d⟩ := x
    by_cases hd : d.name = name
    · exact Or.inr ⟨[], a, d, rest, rfl, hd, by simp⟩
    · rcases ih with hnone | ⟨before, b, e, after, rfl, he, hbefore⟩
      · refine Or.inl fun x hx => ?_
        rcases List.mem_cons.mp hx with rfl | hx
        · exact hd
        · exact hnone x hx
      · refine Or.inr ⟨(a, d) :: before, b, e, after, rfl, he, fun x hx => ?_⟩
        rcases List.mem_cons.mp hx with rfl | hx
        · exact hd
        · exact hbefore x hx

section

variable {nodes : Nodes UbootNameValue} {name : CString} {p : Option Nat} {steps : Nat}

theorem findPair_none (prev : Option Nat) {l : List (Nat × UbootNameValue)} (h : Linked nodes p l)
    (hnone : ∀ x ∈ l, x.2.name ≠ name) (hsteps : l.length ≤ steps) :
    findPair nodes name steps prev p = some none := by
  induction l generalizing p prev steps with
  | nil =>
    obtain rfl : p = none := h
    unfold findPair
    rfl
  | cons x rest ih =>
    obtain ⟨a, d⟩ := x
    obtain ⟨rfl, n, hn, h⟩ := h
    cases steps with
    | zero => simp at hsteps
    | succ steps =>
      have hd : d.name ≠ name := hnone (a, d) List.mem_cons_self
      have hrest := ih (some a) h (fun x hx => hnone x (List.mem_cons_of_mem _ hx))
        (Nat.le_of_succ_le_succ hsteps)
      simp only [findPair, hn, Option.bind_eq_bind, Option.bind_some, strcmp_eq_zero, if_neg hd]
      exact hrest

/-- The loop stops at the first pair with the name, and `prev` is the one in front of it. -/
theorem findPair_some (prev : Option Nat) {before : List (Nat × UbootNameValue)} {a : Nat}
    {d : UbootNameValue} {n : Option Nat} (h : Segment nodes p before (some a)) (hn : nodes a = some ⟨d, n⟩)
    (hd : d.name = name) (hbefore : ∀ x ∈ before, x.2.name ≠ name)
    (hsteps : before.length < steps) :
    findPair nodes name steps prev p
      = some (some ((before.getLast?.map Prod.fst).or prev, a, ⟨d, n⟩)) := by
  induction before generalizing p prev steps with
  | nil =>
    obtain rfl : p = some a := h
    cases steps with
    | zero => simp at hsteps
    | succ steps => simp [findPair, hn, hd]
  | cons x rest ih =>
    obtain ⟨b, e⟩ := x
    obtain ⟨rfl, n', hn', h⟩ := h
    cases steps with
    | zero => simp at hsteps
    | succ steps =>
      have he : e.name ≠ name := hbefore (b, e) List.mem_cons_self
      have hrest := ih (some b) h (fun x hx => hbefore x (List.mem_cons_of_mem _ hx))
        (Nat.lt_of_succ_lt_succ hsteps)
      simp only [findPair, hn', Option.bind_eq_bind, Option.bind_some, strcmp_eq_zero, if_neg he]
      rw [hrest]
      cases hlast : rest.getLast? with
      | none => simp [List.getLast?_eq_none_iff.mp hlast]
      | some y =>
        have hcons : ((b, e) :: rest).getLast? = some y := by
          rw [List.getLast?_cons, hlast]
          rfl
        rw [hcons]
        rfl

end

/-- A search that ends ends in the same way when it may go on for longer. -/
theorem findPair_mono {nodes : Nodes UbootNameValue} {name : CString} {prev p : Option Nat}
    {steps steps' : Nat} {r : Option (Option Nat × Nat × Node UbootNameValue)}
    (h : findPair nodes name steps prev p = some r) (hle : steps ≤ steps') :
    findPair nodes name steps' prev p = some r := by
  induction steps generalizing prev p steps' with
  | zero =>
    cases p with
    | none =>
      unfold findPair at h ⊢
      exact h
    | some a => cases h
  | succ steps ih =>
    cases p with
    | none =>
      unfold findPair at h ⊢
      exact h
    | some a =>
      cases steps' with
      | zero => omega
      | succ steps' =>
        simp only [findPair, Option.bind_eq_bind, Option.bind_eq_some_iff] at h ⊢
        obtain ⟨node, hnode, h⟩ := h
        refine ⟨node, hnode, ?_⟩
        by_cases hname : strcmp node.data.name name = 0
        · rwa [if_pos hname] at h ⊢
        · rw [if_neg hname] at h ⊢
          exact ih h (Nat.le_of_succ_le_succ hle)

/-! ## The same on lists -/

section

variable {name value : CString} {pair : UbootNameValue} {before after l : List UbootNameValue}

theorem replaceValue_none (hnone : ∀ pair ∈ l, pair.name ≠ name) :
    replaceValue name value l = none := by
  rw [replaceValue_eq]
  exact replaceFirst_eq_none.mpr hnone

theorem replaceValue_some (hpair : pair.name = name) (hbefore : ∀ pair ∈ before, pair.name ≠ name) :
    replaceValue name value (before ++ pair :: after)
      = some (before ++ { pair with value := value } :: after) := by
  induction before with
  | nil => simp [replaceValue, hpair]
  | cons q rest ih =>
    have hq : q.name ≠ name := hbefore q List.mem_cons_self
    have hrest := ih fun r hr => hbefore r (List.mem_cons_of_mem _ hr)
    simp [replaceValue, strcmp_eq_zero, hq, hrest]

theorem unlinkPair_none (hnone : ∀ pair ∈ l, pair.name ≠ name) : unlinkPair name l = l := by
  induction l with
  | nil => rfl
  | cons q rest ih =>
    have hq : q.name ≠ name := hnone q List.mem_cons_self
    have hrest := ih fun r hr => hnone r (List.mem_cons_of_mem _ hr)
    simp [unlinkPair, strcmp_eq_zero, hq, hrest]

theorem unlinkPair_some (hpair : pair.name = name) (hbefore : ∀ pair ∈ before, pair.name ≠ name) :
    unlinkPair name (before ++ pair :: after) = before ++ after := by
  induction before with
  | nil => simp [unlinkPair, hpair]
  | cons q rest ih =>
    have hq : q.name ≠ name := hbefore q List.mem_cons_self
    have hrest := ih fun r hr => hbefore r (List.mem_cons_of_mem _ hr)
    simp [unlinkPair, strcmp_eq_zero, hq, hrest]

end

/-! ## The functions on nodes and the functions on lists -/

section

variable {env : LinkedEnv} {l : List (Nat × UbootNameValue)} {steps : Nat} {name value : CString}

/-- The search in a list in memory: no pair has the name, or the first one with it is found. -/
theorem LinkedEnv.Holds.search (h : env.Holds l) (hsteps : l.length ≤ steps) (name : CString) :
    ((∀ x ∈ l, x.2.name ≠ name) ∧ findPair env.nodes name steps none env.vars = some none) ∨
      ∃ before a d after n, l = before ++ (a, d) :: after ∧ d.name = name ∧
        (∀ x ∈ before, x.2.name ≠ name) ∧ env.nodes a = some ⟨d, n⟩ ∧
        findPair env.nodes name steps none env.vars
          = some (some (before.getLast?.map Prod.fst, a, ⟨d, n⟩)) := by
  rcases first_named l name with hnone | ⟨before, a, d, after, rfl, hd, hbefore⟩
  · exact Or.inl ⟨hnone, findPair_none none h hnone hsteps⟩
  · obtain ⟨n, hsegment, hn, -⟩ := h.split
    have hlen : before.length < steps := by
      rw [List.length_append, List.length_cons] at hsteps
      omega
    have hfind := findPair_some none hsegment hn hd hbefore hlen
    rw [Option.or_none] at hfind
    exact Or.inr ⟨before, a, d, after, n, rfl, hd, hbefore, hn, hfind⟩

/-- A fact about the pairs at addresses is one about the pairs. -/
theorem forall_snd {P : UbootNameValue → Prop} (h : ∀ x ∈ l, P x.2) :
    ∀ pair ∈ l.map Prod.snd, P pair := by
  intro pair hpair
  obtain ⟨x, hx, rfl⟩ := List.mem_map.mp hpair
  exact h x hx

theorem linkedGetenv_eq (h : env.Holds l) (hsteps : l.length ≤ steps) (name : CString) :
    linkedGetenv steps env name = some (ubootEnvGetenv (env.abstract l) name) := by
  unfold linkedGetenv
  rw [ubootEnvGetenv_eq]
  rcases h.search hsteps name with ⟨hnone, hfind⟩ |
    ⟨before, a, d, after, n, rfl, hd, hbefore, -, hfind⟩
  · have hmap : envMap (env.abstract l).vars name = none :=
      firstMatch_eq_none.mpr (forall_snd hnone)
    rw [hfind, hmap]
    rfl
  · have hmap : envMap (env.abstract (before ++ (a, d) :: after)).vars name = some d.value := by
      have hfirst : envMap (before.map Prod.snd) name = none :=
        firstMatch_eq_none.mpr (forall_snd hbefore)
      simp only [LinkedEnv.abstract, List.map_append, List.map_cons, firstMatch_append, hfirst,
        firstMatch_cons, if_pos hd, Option.none_or]
    rw [hfind, hmap]
    rfl

theorem linkedSetenv_eq (h : env.Holds l) (hsteps : l.length ≤ steps) {address : Nat}
    (hfree : env.nodes address = none) (name value : CString) :
    ∃ env' l', linkedSetenv steps address env name value = some (0, env') ∧ env'.Holds l' ∧
      ubootEnvSetenv (env.abstract l) name value = (0, env'.abstract l') := by
  unfold linkedSetenv ubootEnvSetenv
  rcases h.search hsteps name with ⟨hnone, hfind⟩ |
    ⟨before, a, d, after, n, rfl, hd, hbefore, hn, hfind⟩
  · refine ⟨⟨env.envSize, some address, env.nodes.put address ⟨⟨name, value⟩, env.vars⟩⟩,
      (address, ⟨name, value⟩) :: l, ?_, Linked.cons h hfree, ?_⟩
    · rw [hfind]
      rfl
    · have hreplace : replaceValue name value (env.abstract l).vars = none :=
        replaceValue_none (forall_snd hnone)
      rw [hreplace]
      rfl
  · obtain ⟨n', hn', hset⟩ := Linked.set h { d with value := value }
    rw [hn] at hn'
    obtain rfl : n = n' := (Node.mk.injEq ..).mp (Option.some.inj hn') |>.2
    refine ⟨⟨env.envSize, env.vars, env.nodes.put a ⟨{ d with value := value }, n⟩⟩,
      before ++ (a, { d with value := value }) :: after, ?_, hset, ?_⟩
    · rw [hfind]
      rfl
    · have hreplace : replaceValue name value (env.abstract (before ++ (a, d) :: after)).vars
          = some (before.map Prod.snd ++ { d with value := value } :: after.map Prod.snd) := by
        rw [LinkedEnv.abstract, List.map_append, List.map_cons]
        exact replaceValue_some hd (forall_snd hbefore)
      rw [hreplace]
      simp [LinkedEnv.abstract]

theorem linkedUnsetenv_eq (h : env.Holds l) (hsteps : l.length ≤ steps) (name : CString) :
    ∃ env' l', linkedUnsetenv steps env name = some (0, env') ∧ env'.Holds l' ∧
      ubootEnvUnsetenv (env.abstract l) name = (0, env'.abstract l') := by
  unfold linkedUnsetenv ubootEnvUnsetenv
  rcases h.search hsteps name with ⟨hnone, hfind⟩ |
    ⟨before, a, d, after, n, rfl, hd, hbefore, hn, hfind⟩
  · refine ⟨env, l, ?_, h, ?_⟩
    · rw [hfind]
      rfl
    · have hunlink : unlinkPair name (env.abstract l).vars = (env.abstract l).vars :=
        unlinkPair_none (forall_snd hnone)
      rw [hunlink]
  · have hunlink : unlinkPair name (env.abstract (before ++ (a, d) :: after)).vars
        = before.map Prod.snd ++ after.map Prod.snd := by
      rw [LinkedEnv.abstract, List.map_append, List.map_cons]
      exact unlinkPair_some hd (forall_snd hbefore)
    rw [hunlink, hfind]
    -- The pair is the first of the list or has another one in front of it.
    rcases List.eq_nil_or_concat before with rfl | ⟨front, ⟨c, e⟩, rfl⟩
    · obtain ⟨n', hn', hfree⟩ := Linked.unlink_head h
      rw [hn] at hn'
      obtain rfl : n = n' := (Node.mk.injEq ..).mp (Option.some.inj hn') |>.2
      exact ⟨⟨env.envSize, n, env.nodes.free a⟩, after, rfl, hfree, rfl⟩
    · have h' : Linked env.nodes env.vars (front ++ (c, e) :: (a, d) :: after) := by simpa using h
      obtain ⟨n', hn', hc, -, hfree⟩ := h'.unlink_after
      rw [hn] at hn'
      obtain rfl : n = n' := (Node.mk.injEq ..).mp (Option.some.inj hn') |>.2
      refine ⟨{ env with nodes := (env.nodes.put c ⟨e, n⟩).free a }, front ++ (c, e) :: after, ?_,
        hfree, ?_⟩
      · simp [Nodes.setNext, hc]
      · simp [LinkedEnv.abstract]

/-- Distinct names can be sorted in one way only. -/
theorem sorted_unique {pairs pairs' : List UbootNameValue} (hperm : pairs.Perm pairs')
    (hnodup : (pairs.map (·.name)).Nodup)
    (hsorted : pairs.Pairwise fun a b => envNameCompare a b ≤ 0)
    (hsorted' : pairs'.Pairwise fun a b => envNameCompare a b ≤ 0) : pairs = pairs' := by
  refine hperm.eq_of_pairwise (fun a b ha hb hab hba => ?_) hsorted hsorted'
  have hname : a.name = b.name := strcmp_antisymm hab hba
  exact List.inj_on_of_nodup_map hnodup ha (hperm.mem_iff.mpr hb) hname

/-- Sorting the pointers is sorting the pairs. -/
theorem sort_links (qsort : Qsort linkCompare) (qsort' : Qsort envNameCompare)
    (hnodup : (l.map (·.2.name)).Nodup) :
    (qsort.sort l).map Prod.snd = qsort'.sort (l.map Prod.snd) := by
  have hperm : ((qsort.sort l).map Prod.snd).Perm (l.map Prod.snd) := (qsort.perm l).map _
  have hnames : (((qsort.sort l).map Prod.snd).map (·.name)).Nodup := by
    refine (hperm.map _).nodup_iff.mpr ?_
    rwa [List.map_map]
  refine sorted_unique (hperm.trans (qsort'.perm _).symm) hnames ?_ (qsort'.sorted _)
  exact List.pairwise_map.mpr (qsort.sorted l)

/-- Relinking loses no pair and links none twice. -/
theorem linkedSort_eq (qsort : Qsort linkCompare) (h : env.Holds l) (hsteps : l.length ≤ steps) :
    ∃ env', linkedSort steps qsort env = some env' ∧ env'.envSize = env.envSize ∧
      env'.Holds (qsort.sort l) := by
  unfold linkedSort
  rw [walk_eq h hsteps]
  rcases l with _ | ⟨x, rest⟩
  · have hnil : qsort.sort [] = [] := (qsort.perm []).eq_nil
    refine ⟨env, rfl, rfl, ?_⟩
    rw [hnil]
    exact h
  · have hperm := qsort.perm (x :: rest)
    obtain ⟨nodes, hrelink, hlinked, -⟩ := relink_linked (l := qsort.sort (x :: rest))
      (fun y hy => Segment.node h (hperm.mem_iff.mp hy))
      ((hperm.map _).nodup_iff.mpr (Linked.nodup h))
    refine ⟨⟨env.envSize, (qsort.sort (x :: rest)).head?.map (·.1), nodes⟩, ?_, rfl, hlinked⟩
    have hrelink' : env.nodes.relink ((qsort.sort (x :: rest)).map (·.1)) = some nodes := hrelink
    simp [hrelink']

/-- What is written and returned is what the function on lists writes and returns, and the list in
memory then holds the same pairs, in the order that they were sorted in. -/
theorem linkedWrite_eq (qsort : Qsort linkCompare) (qsort' : Qsort envNameCompare)
    (h : env.Holds l) (hsort : (qsort.sort l).map Prod.snd = qsort'.sort (l.map Prod.snd))
    (hsteps : l.length ≤ steps) (buffer : Buffer w) :
    ∃ env' l', env'.envSize = env.envSize ∧ env'.Holds l' ∧ l'.Perm l ∧
      (8 ≤ env.envSize → l' = qsort.sort l) ∧
      linkedWrite steps qsort env buffer
        = (ubootEnvWrite qsort' (env.abstract l) buffer).map fun r => (r.1, env', r.2.2) := by
  unfold linkedWrite ubootEnvWrite
  by_cases h8 : env.envSize < 8
  · refine ⟨env, l, rfl, h, .refl l, fun hle => absurd h8 (by omega), ?_⟩
    rw [if_pos h8, if_pos (show (env.abstract l).envSize < 8 from h8)]
    rfl
  · obtain ⟨env', hlinks, hsize, hholds⟩ := linkedSort_eq qsort h hsteps
    refine ⟨env', qsort.sort l, hsize, hholds, qsort.perm l, fun _ => rfl, ?_⟩
    have hwalk : walk env'.nodes steps env'.vars = some (qsort.sort l) :=
      walk_eq hholds ((qsort.perm l).length_eq.trans_le hsteps)
    have hsize' : (env.abstract l).envSize = env.envSize := rfl
    rw [if_neg h8, if_neg (show ¬ (env.abstract l).envSize < 8 from h8), hlinks, ubootEnvSort_eq]
    simp only [hsize', Option.bind_eq_bind]
    cases buffer.memset 0xff env.envSize with
    | none => rfl
    | some b1 =>
      have hpairs : (qsort.sort l).map (·.2) = qsort'.sort (env.abstract l).vars := hsort
      simp only [Option.bind_some, hwalk, hsize, hpairs]
      cases writeEntries (env.envSize - 2) (qsort'.sort (env.abstract l).vars) 4 b1 with
      | none => rfl
      | some r =>
        obtain ⟨rc, p, b2⟩ := r
        simp only [Option.bind_some]
        by_cases hrc : rc < 0
        · rw [if_pos hrc, if_pos hrc]
          rfl
        · rw [if_neg hrc, if_neg hrc]
          cases b2.store p 0 with
          | none => rfl
          | some b3 =>
            simp only [Option.bind_some]
            cases b3.memcpy 0 (crcBytes (crc32buf ((b3.bytes.take env.envSize).drop 4))) <;> rfl

end

/-! ## A canonical encoding -/

/-- The list in memory is well formed and no name occurs twice in it. -/
structure LinkedEnv.Represents (env : LinkedEnv) (l : List (Nat × UbootNameValue)) : Prop where
  holds : env.Holds l
  nodup : (l.map (·.2.name)).Nodup

theorem LinkedEnv.Represents.unambiguous {env : LinkedEnv} {l : List (Nat × UbootNameValue)}
    (h : env.Represents l) : OneValueEach (l.map Prod.snd) := by
  refine unambiguous_of_nodup ?_
  rw [List.map_map]
  exact h.nodup

/-- Lists of distinct names that stand for the same map have the same pairs. -/
theorem perm_of_envMap {pairs pairs' : List UbootNameValue} (h : (pairs.map (·.name)).Nodup)
    (h' : (pairs'.map (·.name)).Nodup) (hmap : ∀ name, envMap pairs name = envMap pairs' name) :
    pairs.Perm pairs' := by
  have hmem : ∀ {ps qs : List UbootNameValue}, (ps.map (·.name)).Nodup →
      (∀ name, envMap ps name = envMap qs name) → ∀ pair ∈ ps, pair ∈ qs := by
    intro ps qs hps heq pair hpair
    have hfound : envMap ps pair.name = some pair.value :=
      (unambiguous_of_nodup hps).firstMatch_eq hpair
    obtain ⟨q, hq, hname, hvalue⟩ := firstMatch_mem ((heq pair.name).symm.trans hfound)
    have heq' : q = pair := UbootNameValue.ext hname hvalue
    exact heq' ▸ hq
  refine (List.perm_ext_iff_of_nodup h.of_map h'.of_map).mpr fun pair => ⟨?_, ?_⟩
  · exact hmem h hmap pair
  · exact hmem h' (fun name => (hmap name).symm) pair

/-- The code that `uboot_env_write` returns and the bytes that it leaves depend on the map only. -/
theorem encoding_canonical {env env' : LinkedEnv} {l l' : List (Nat × UbootNameValue)}
    (h : env.Represents l) (h' : env'.Represents l')
    (hmap : ∀ name, envMap (l.map Prod.snd) name = envMap (l'.map Prod.snd) name)
    (hsize : env.envSize = env'.envSize) (qsort qsort' : Qsort linkCompare) {steps : Nat}
    (hsteps : l.length ≤ steps) (hsteps' : l'.length ≤ steps) {buffer buffer' : Buffer w}
    (hbuffer : buffer.size = env.envSize) (hbuffer' : buffer'.size = env'.envSize) :
    ∃ rc env1 env2 block block', linkedWrite steps qsort env buffer = some (rc, env1, block) ∧
      linkedWrite steps qsort' env' buffer' = some (rc, env2, block') ∧
      (rc = 0 → block.bytes = block'.bytes) := by
  have hnames : ((l.map Prod.snd).map (·.name)).Nodup := by
    rw [List.map_map]
    exact h.nodup
  have hnames' : ((l'.map Prod.snd).map (·.name)).Nodup := by
    rw [List.map_map]
    exact h'.nodup
  have hperm : (l.map Prod.snd).Perm (l'.map Prod.snd) := perm_of_envMap hnames hnames' hmap
  obtain ⟨env1, -, -, -, -, -, hwrite⟩ :=
    linkedWrite_eq qsort stableSort h.holds (sort_links _ _ h.nodup) hsteps buffer
  obtain ⟨env2, -, -, -, -, -, hwrite'⟩ :=
    linkedWrite_eq qsort' stableSort h'.holds (sort_links _ _ h'.nodup) hsteps' buffer'
  -- Both lists have one sorted order, and their entries are equally long.
  have hsorted : stableSort.sort (l.map Prod.snd) = stableSort.sort (l'.map Prod.snd) := by
    refine sorted_unique ?_ ?_ (stableSort.sorted _) (stableSort.sorted _)
    · exact (stableSort.perm _).trans (hperm.trans (stableSort.perm _).symm)
    · exact ((stableSort.perm _).map _).nodup_iff.mpr hnames
  have hlength := entriesBytes_perm_length hperm
  have hsize1 : buffer.size = (env.abstract l).envSize := hbuffer
  have hsize2 : buffer'.size = (env'.abstract l').envSize := hbuffer'
  by_cases hfit : 4 + (entriesBytes (l.map Prod.snd)).length + 2 ≤ env.envSize ∧ 8 ≤ env.envSize
  · obtain ⟨hfit, h8⟩ := hfit
    obtain ⟨block, hblock, hbytes⟩ := ubootEnvWrite_fits stableSort hsize1 hfit h8
    obtain ⟨block', hblock', hbytes'⟩ := ubootEnvWrite_fits stableSort hsize2
      (show 4 + (entriesBytes (l'.map Prod.snd)).length + 2 ≤ env'.envSize by omega)
      (show 8 ≤ env'.envSize by omega)
    refine ⟨0, env1, env2, block, block', ?_, ?_, fun _ => ?_⟩
    · rw [hwrite, hblock]
      rfl
    · rw [hwrite', hblock']
      rfl
    · rw [hbytes, hbytes']
      simp only [LinkedEnv.abstract, hsorted, hsize]
  · have hrefused : ∀ {e : UbootEnv} {b : Buffer w}, b.size = e.envSize →
        ¬ (4 + (entriesBytes e.vars).length + 2 ≤ e.envSize ∧ 8 ≤ e.envSize) →
        ∃ e' b', ubootEnvWrite stableSort e b = some (-1, e', b') := by
      intro e b hb hnot
      by_cases h8 : e.envSize < 8
      · exact ⟨e, b, by rw [ubootEnvWrite, if_pos h8]⟩
      · obtain ⟨e', b', hover, -⟩ := ubootEnvWrite_overflows stableSort hb (by omega)
        exact ⟨e', b', hover⟩
    obtain ⟨e1, b1, hfail⟩ := hrefused hsize1 hfit
    obtain ⟨e2, b2, hfail'⟩ := hrefused hsize2 (by
      change ¬ (4 + (entriesBytes (l'.map Prod.snd)).length + 2 ≤ env'.envSize ∧ 8 ≤ env'.envSize)
      omega)
    refine ⟨-1, env1, env2, b1, b2, ?_, ?_, fun hrc => ?_⟩
    · rw [hwrite, hfail]
      rfl
    · rw [hwrite', hfail']
      rfl
    · omega

/-- Two pairs in memory, linked in either order, in a block of 16 bytes. -/
def pairLinks (first second : Nat) : LinkedEnv :=
  ⟨16, some first, fun a =>
    if a = first then some ⟨⟨.ofBytes [96 + UInt8.ofNat first], .ofString "1"⟩, some second⟩
    else if a = second then some ⟨⟨.ofBytes [96 + UInt8.ofNat second], .ofString "1"⟩, none⟩
    else none⟩

/-- The pairs of `pairLinks`: `a=1` at address 1 and `b=1` at address 2. -/
def linkAt (a : Nat) : Nat × UbootNameValue :=
  (a, ⟨.ofBytes [96 + UInt8.ofNat a], .ofString "1"⟩)

theorem represents_pairLinks {first second : Nat} (hne : first ≠ second)
    (hname : (linkAt first).2.name ≠ (linkAt second).2.name) :
    (pairLinks first second).Represents [linkAt first, linkAt second] := by
  refine ⟨⟨rfl, some second, ?_, rfl, none, ?_, rfl⟩, by simpa using hname⟩
  · simp [pairLinks]
  · simp [pairLinks, hne.symm]

/-- The `qsort` that sorts stably. -/
def stableLinks : Qsort linkCompare :=
  Qsort.stable linkCompare id (fun l => List.Perm.refl l) (fun _ _ _ => strcmp_trans)
    (fun _ _ => strcmp_total _ _)

theorem encoding_canonical_pair :
    ∃ rc env1 env2 block block',
      linkedWrite 2 stableLinks (pairLinks 1 2) sixteenBytes = some (rc, env1, block) ∧
      linkedWrite 2 stableLinks (pairLinks 2 1) sixteenBytes = some (rc, env2, block') ∧
      (rc = 0 → block.bytes = block'.bytes) := by
  have h12 : (pairLinks 1 2).Represents [linkAt 1, linkAt 2] :=
    represents_pairLinks (by decide) (by decide)
  have h21 : (pairLinks 2 1).Represents [linkAt 2, linkAt 1] :=
    represents_pairLinks (by decide) (by decide)
  refine encoding_canonical h12 h21 (fun name => ?_) rfl stableLinks stableLinks le_rfl le_rfl
    rfl rfl
  have hdistinct : (linkAt 1).2.name ≠ (linkAt 2).2.name := by decide
  simp only [List.map_cons, List.map_nil, firstMatch_cons, firstMatch_nil]
  by_cases h1 : (linkAt 1).2.name = name
  · have h2 : ¬ (linkAt 2).2.name = name := fun h2 => hdistinct (h1.trans h2.symm)
    rw [if_pos h1, if_neg h2, if_pos h1]
  · by_cases h2 : (linkAt 2).2.name = name
    · rw [if_neg h1, if_pos h2, if_pos h2]
    · rw [if_neg h1, if_neg h2, if_neg h2, if_neg h1]

/-! ## A finite map under any run -/

/-- What is done to an environment. -/
inductive EnvOp
  | setenv (name value : CString)
  | unsetenv (name : CString)
  | getenv (name : CString)
  | write

/-- A call returns, and leaves the environment `e'`. -/
def EnvOp.Step (qsort : Qsort linkCompare) (e e' : LinkedEnv) : EnvOp → Prop
  | .setenv name value => ∃ steps address rc, e.nodes address = none ∧
      linkedSetenv steps address e name value = some (rc, e')
  | .unsetenv name => ∃ steps rc, linkedUnsetenv steps e name = some (rc, e')
  | .getenv name => (∃ steps result, linkedGetenv steps e name = some result) ∧ e' = e
  | .write => ∃ (w steps : Nat) (buffer buffer' : Buffer w) (rc : Int), buffer.size = e.envSize ∧
      linkedWrite steps qsort e buffer = some (rc, e', buffer')

/-- Calls one after the other. -/
inductive EnvRun (qsort : Qsort linkCompare) (e : LinkedEnv) : List EnvOp → LinkedEnv → Prop
  | start : EnvRun qsort e [] e
  | call {ops : List EnvOp} {op : EnvOp} {e1 e2 : LinkedEnv} (run : EnvRun qsort e ops e1)
    (step : op.Step qsort e1 e2) : EnvRun qsort e (ops ++ [op]) e2

/-- The value of `name` after the calls: that of the last `setenv` of it, nothing after an
`unsetenv`, and the initial one when there has been neither. -/
def valueAfter (name : CString) (initial : Option CString) : List EnvOp → Option CString
  | [] => initial
  | .setenv n value :: rest => valueAfter name (if n = name then some value else initial) rest
  | .unsetenv n :: rest => valueAfter name (if n = name then none else initial) rest
  | .getenv _ :: rest | .write :: rest => valueAfter name initial rest

section

variable {e e' : LinkedEnv} {name value : CString} {steps steps' : Nat}

theorem linkedSetenv_mono {address : Nat} {r : Int × LinkedEnv}
    (h : linkedSetenv steps address e name value = some r) (hle : steps ≤ steps') :
    linkedSetenv steps' address e name value = some r := by
  simp only [linkedSetenv, Option.bind_eq_bind, Option.bind_eq_some_iff] at h ⊢
  obtain ⟨found, hfind, h⟩ := h
  exact ⟨found, findPair_mono hfind hle, h⟩

theorem linkedUnsetenv_mono {r : Int × LinkedEnv} (h : linkedUnsetenv steps e name = some r)
    (hle : steps ≤ steps') : linkedUnsetenv steps' e name = some r := by
  simp only [linkedUnsetenv, Option.bind_eq_bind, Option.bind_eq_some_iff] at h ⊢
  obtain ⟨found, hfind, h⟩ := h
  exact ⟨found, findPair_mono hfind hle, h⟩

theorem linkedWrite_mono {qsort : Qsort linkCompare} {buffer : Buffer w}
    {r : Int × LinkedEnv × Buffer w} (h : linkedWrite steps qsort e buffer = some r)
    (hle : steps ≤ steps') : linkedWrite steps' qsort e buffer = some r := by
  unfold linkedWrite at h ⊢
  by_cases h8 : e.envSize < 8
  · rwa [if_pos h8] at h ⊢
  · rw [if_neg h8] at h ⊢
    simp only [linkedSort, Option.bind_eq_bind, Option.bind_eq_some_iff] at h ⊢
    obtain ⟨b1, hb1, e1, ⟨pairarray, hwalk, hsort⟩, pairs, hwalk', h⟩ := h
    exact ⟨b1, hb1, e1, ⟨pairarray, walk_mono hwalk hle, hsort⟩, pairs, walk_mono hwalk' hle, h⟩

end

theorem envMap_unsetenv {env : UbootEnv} (h : (env.vars.map (·.name)).Nodup) (name k : CString) :
    envMap (ubootEnvUnsetenv env name).2.vars k = if name = k then none else envMap env.vars k := by
  unfold ubootEnvUnsetenv
  generalize env.vars = vars at h
  induction vars with
  | nil => simp [unlinkPair, envMap]
  | cons pair rest ih =>
    obtain ⟨hnotin, hrest⟩ := List.nodup_cons.mp h
    by_cases hname : pair.name = name
    · subst hname
      have hnone : envMap rest pair.name = none := by
        refine firstMatch_eq_none.mpr fun q hq hqname => hnotin ?_
        exact List.mem_map.mpr ⟨q, hq, hqname⟩
      simp only [unlinkPair, strcmp_self, if_true, firstMatch_cons]
      by_cases hk : pair.name = k
      · rw [if_pos hk, ← hk, hnone]
      · rw [if_neg hk, if_neg hk]
    · simp only [unlinkPair, strcmp_eq_zero, if_neg hname, firstMatch_cons, ih hrest]
      by_cases hk : pair.name = k
      · have hne : ¬ name = k := fun h => hname (hk.trans h.symm)
        simp [hk, hne]
      · simp [hk]

theorem nodup_names_unsetenv {env : UbootEnv} (h : (env.vars.map (·.name)).Nodup)
    (name : CString) : ((ubootEnvUnsetenv env name).2.vars.map (·.name)).Nodup := by
  have hsub : ∀ vars : List UbootNameValue, (unlinkPair name vars).Sublist vars := by
    intro vars
    induction vars with
    | nil => exact .slnil
    | cons pair rest ih =>
      unfold unlinkPair
      split
      · exact .cons _ (List.Sublist.refl rest)
      · exact .cons_cons _ ih
  exact h.sublist ((hsub env.vars).map _)

/-- The names of the pairs in memory are those of the list that they stand for. -/
theorem nodup_abstract {e : LinkedEnv} {l : List (Nat × UbootNameValue)} :
    ((e.abstract l).vars.map (·.name)).Nodup ↔ (l.map (·.2.name)).Nodup := by
  rw [LinkedEnv.abstract, List.map_map]
  rfl

/-- What one call does to the map. -/
theorem EnvOp.Step.represents {qsort : Qsort linkCompare} {op : EnvOp} {e e' : LinkedEnv}
    {l : List (Nat × UbootNameValue)} (h : e.Represents l) (hstep : op.Step qsort e e') :
    ∃ l', e'.Represents l' ∧ ∀ name, envMap (l'.map Prod.snd) name
      = valueAfter name (envMap (l.map Prod.snd) name) [op] := by
  have hnodup := (nodup_abstract (e := e)).mpr h.nodup
  cases op with
  | setenv key value =>
    obtain ⟨steps, address, rc, hfree, hcall⟩ := hstep
    obtain ⟨env', l', hset, hholds, habstract⟩ :=
      linkedSetenv_eq h.holds (le_max_right steps l.length) hfree key value
    rw [linkedSetenv_mono hcall (le_max_left ..), Option.some.injEq, Prod.mk.injEq] at hset
    obtain ⟨rfl, rfl⟩ := hset
    have hvars : (ubootEnvSetenv (e.abstract l) key value).2 = e'.abstract l' := by rw [habstract]
    refine ⟨l', ⟨hholds, nodup_abstract.mp (hvars ▸ nodup_names_setenv hnodup key value)⟩, ?_⟩
    intro name
    have hmap := envMap_setenv (e.abstract l) key value name
    rw [hvars] at hmap
    exact hmap
  | unsetenv key =>
    obtain ⟨steps, rc, hcall⟩ := hstep
    obtain ⟨env', l', hunset, hholds, habstract⟩ :=
      linkedUnsetenv_eq h.holds (le_max_right steps l.length) key
    rw [linkedUnsetenv_mono hcall (le_max_left ..), Option.some.injEq, Prod.mk.injEq] at hunset
    obtain ⟨rfl, rfl⟩ := hunset
    have hvars : (ubootEnvUnsetenv (e.abstract l) key).2 = e'.abstract l' := by rw [habstract]
    refine ⟨l', ⟨hholds, nodup_abstract.mp (hvars ▸ nodup_names_unsetenv hnodup key)⟩, ?_⟩
    intro name
    have hmap := envMap_unsetenv hnodup key name
    rw [hvars] at hmap
    exact hmap
  | getenv key =>
    obtain ⟨-, rfl⟩ := hstep
    exact ⟨l, h, fun _ => rfl⟩
  | write =>
    obtain ⟨w, steps, buffer, buffer', rc, hbuffer, hcall⟩ := hstep
    obtain ⟨env', l', -, hholds, hperm, -, hwrite⟩ := linkedWrite_eq qsort stableSort h.holds
      (sort_links _ _ h.nodup) (le_max_right steps l.length) buffer
    rw [linkedWrite_mono hcall (le_max_left ..)] at hwrite
    obtain ⟨r, -, hr⟩ := Option.map_eq_some_iff.mp hwrite.symm
    obtain ⟨-, rfl, -⟩ := by simpa using hr
    refine ⟨l', ⟨hholds, (hperm.map _).nodup_iff.mpr h.nodup⟩, fun name => ?_⟩
    exact h.unambiguous.firstMatch_perm (hperm.map _) name

/-- From a well-formed list every call returns, if `malloc` does. -/
theorem EnvOp.returns (qsort : Qsort linkCompare) (op : EnvOp) {e : LinkedEnv}
    {l : List (Nat × UbootNameValue)} (h : e.Represents l)
    (hmalloc : ∃ address, e.nodes address = none) : ∃ e', op.Step qsort e e' := by
  cases op with
  | setenv key value =>
    obtain ⟨address, hfree⟩ := hmalloc
    obtain ⟨e', -, hset, -⟩ := linkedSetenv_eq h.holds le_rfl hfree key value
    exact ⟨e', l.length, address, 0, hfree, hset⟩
  | unsetenv key =>
    obtain ⟨e', -, hunset, -⟩ := linkedUnsetenv_eq h.holds le_rfl key
    exact ⟨e', l.length, 0, hunset⟩
  | getenv key => exact ⟨e, ⟨l.length, _, linkedGetenv_eq h.holds le_rfl key⟩, rfl⟩
  | write =>
    have hroom : e.envSize ≤ ptrdiffMax (e.envSize + 1) := by
      have hlt : e.envSize < 2 ^ e.envSize := Nat.lt_two_pow_self
      unfold ptrdiffMax
      rw [Nat.add_sub_cancel]
      omega
    let buffer : Buffer (e.envSize + 1) := ⟨List.replicate e.envSize 0, by simpa using hroom⟩
    have hbuffer : buffer.size = e.envSize := List.length_replicate
    obtain ⟨e', l', -, -, -, -, hwrite⟩ :=
      linkedWrite_eq qsort stableSort h.holds (sort_links _ _ h.nodup) le_rfl buffer
    rcases ubootEnvWrite_cases stableSort (show buffer.size = (e.abstract l).envSize from hbuffer)
      with ⟨block, hdone⟩ | ⟨env1, block, hdone, -⟩
    · rw [hdone] at hwrite
      exact ⟨e', _, l.length, buffer, block, 0, hbuffer, hwrite⟩
    · rw [hdone] at hwrite
      exact ⟨e', _, l.length, buffer, block, -1, hbuffer, hwrite⟩

theorem valueAfter_append (name : CString) (initial : Option CString) (ops ops' : List EnvOp) :
    valueAfter name initial (ops ++ ops') = valueAfter name (valueAfter name initial ops) ops' := by
  induction ops generalizing initial with
  | nil => rfl
  | cons op rest ih => cases op <;> exact ih _

/-- The environment is a finite map under any run: the names stay distinct, `uboot_env_getenv`
returns what was last set, and every call returns. -/
theorem finite_map_under_any_run {qsort : Qsort linkCompare} {e0 e : LinkedEnv}
    {l0 : List (Nat × UbootNameValue)} {ops : List EnvOp} (h0 : e0.Represents l0)
    (hrun : EnvRun qsort e0 ops e) :
    ∃ l, e.Represents l ∧
      (∀ name steps, l.length ≤ steps → linkedGetenv steps e name
        = some (valueAfter name (envMap (l0.map Prod.snd) name) ops)) ∧
      ∀ op : EnvOp, (∃ address, e.nodes address = none) → ∃ e', op.Step qsort e e' := by
  have hmap : ∃ l, e.Represents l ∧ ∀ name, envMap (l.map Prod.snd) name
      = valueAfter name (envMap (l0.map Prod.snd) name) ops := by
    induction hrun with
    | start => exact ⟨l0, h0, fun _ => rfl⟩
    | call run step ih =>
      obtain ⟨l1, h1, hmap1⟩ := ih
      obtain ⟨l2, h2, hmap2⟩ := step.represents h1
      refine ⟨l2, h2, fun name => ?_⟩
      rw [hmap2, hmap1, valueAfter_append]
  obtain ⟨l, h, hmap⟩ := hmap
  refine ⟨l, h, fun name steps hsteps => ?_, fun op hmalloc => op.returns qsort h hmalloc⟩
  rw [linkedGetenv_eq h.holds hsteps, ubootEnvGetenv_eq, ← hmap]
  rfl

theorem finite_map_setenv_unsetenv : ∃ e l,
    EnvRun stableLinks (pairLinks 1 2)
      [.setenv (.ofString "c") (.ofString "2"), .unsetenv (.ofString "b")] e ∧ e.Represents l ∧
    (∀ name steps, l.length ≤ steps → linkedGetenv steps e name
      = some (valueAfter name (envMap ([linkAt 1, linkAt 2].map Prod.snd) name)
        [.setenv (.ofString "c") (.ofString "2"), .unsetenv (.ofString "b")])) ∧
    ∀ op : EnvOp, (∃ address, e.nodes address = none) → ∃ e', op.Step stableLinks e e' := by
  have h0 : (pairLinks 1 2).Represents [linkAt 1, linkAt 2] :=
    represents_pairLinks (by decide) (by decide)
  have hfree : (pairLinks 1 2).nodes 3 = none := rfl
  obtain ⟨e1, hfirst⟩ := (EnvOp.setenv (.ofString "c") (.ofString "2")).returns stableLinks h0
    ⟨3, hfree⟩
  obtain ⟨l1, h1, -⟩ := hfirst.represents h0
  obtain ⟨e2, -, hunset, -⟩ := linkedUnsetenv_eq h1.holds le_rfl (.ofString "b")
  have hrun : EnvRun stableLinks (pairLinks 1 2)
      [.setenv (.ofString "c") (.ofString "2"), .unsetenv (.ofString "b")] e2 :=
    .call (.call .start hfirst) ⟨_, _, hunset⟩
  obtain ⟨l, hl⟩ := finite_map_under_any_run h0 hrun
  exact ⟨e2, l, hrun, hl⟩

end NervesInitramfs
