import NervesInitramfs.Script.Heap.Bytes
import NervesInitramfs.Script.Heap.Proofs.AllocProofs
import NervesInitramfs.Script.Proofs.StoreProofs
import NervesInitramfs.Script.Proofs.TokenProofs

/-!
# Proofs: the allocator on the bytes of the memory

`heap_index` is a multiple of 8, as `HEAP_SIZE` is, so that a block has room when the rounded block
has. The blocks are one behind the other, and a string fills its block. A token of the lexer is
measured with `strlen`, which stops at a NUL in the token.
-/

namespace NervesInitramfs.HeapBytes

open CLib
open TermHeap (heapSize roundUp roundUp_eq sizeofTerm)

variable {machine : Machine}

/-! ## Room -/

/-- `heap_index` as a number. -/
def Memory.used (s : Memory) : Nat := s.heapIndex.toInt.toNat

/-- What holds between two allocations. -/
structure Ready (machine : Machine) (s : Memory) : Prop where
  index : IndexAligned s
  aligned : s.heap % 8 = 0
  fits : s.heap + heapSize ≤ 2 ^ machine.bits

/-- The state after the block of `n` bytes has been taken. -/
def Memory.bump (s : Memory) (n : Nat) : Memory :=
  { s with heapIndex := toInt32 (s.used + (n + 7) / 8 * 8) }

theorem toInt_toInt32 {n : Nat} (h : n ≤ heapSize) : (toInt32 n).toInt = n := by
  unfold heapSize at h
  unfold toInt32
  rw [Int32.toInt_ofInt, Int32.size, Int.bmod_def]
  omega

section

variable {s : Memory} {n : Nat}

theorem Ready.used_le (h : Ready machine s) : s.used % 8 = 0 ∧ s.used ≤ heapSize := by
  obtain ⟨hmod, hlow, hhigh⟩ := h.index
  unfold Memory.used
  omega

theorem Ready.toInt_eq (h : Ready machine s) : s.heapIndex.toInt = s.used := by
  obtain ⟨-, hlow, -⟩ := h.index
  unfold Memory.used
  omega

theorem used_bump (hroom : s.used + (n + 7) / 8 * 8 ≤ heapSize) :
    (s.bump n).used = s.used + (n + 7) / 8 * 8 := by
  show (toInt32 _).toInt.toNat = _
  rw [toInt_toInt32 hroom]
  rfl

theorem Ready.bump (h : Ready machine s) (hroom : s.used + (n + 7) / 8 * 8 ≤ heapSize) :
    Ready machine (s.bump n) := by
  obtain ⟨hmod, -⟩ := h.used_le
  refine ⟨?_, h.aligned, h.fits⟩
  have hindex : (s.bump n).heapIndex.toInt = (s.used + (n + 7) / 8 * 8 : Nat) := toInt_toInt32 hroom
  unfold IndexAligned
  rw [hindex]
  omega

/-- What is compared with `HEAP_SIZE` is where the bytes would end: nothing wraps around. -/
theorem Ready.sum_eq (h : Ready machine s) (hn : n + heapSize < 2 ^ machine.bits) :
    (toSize machine.bits s.heapIndex + n) % 2 ^ machine.bits = s.used + n := by
  obtain ⟨-, hused⟩ := h.used_le
  have hsize : toSize machine.bits s.heapIndex = s.used := by
    have hpow : ((2 ^ machine.bits : Nat) : Int) = 2 ^ machine.bits := by push_cast; rfl
    unfold toSize
    rw [h.toInt_eq, ← hpow, ← Int.natCast_mod, Int.toNat_natCast, Nat.mod_eq_of_lt (by omega)]
  rw [hsize, Nat.mod_eq_of_lt (by omega)]

theorem allocHeap_ok (h : Ready machine s) (hn : n + heapSize < 2 ^ machine.bits)
    (hroom : s.used + (n + 7) / 8 * 8 ≤ heapSize) :
    allocHeap machine n s = .ok (s.heap + s.used) (s.bump n) := by
  obtain ⟨hmod, -⟩ := h.used_le
  have hsmall : s.used + n ≤ heapSize := by omega
  have hwide : 2 ^ 32 ≤ 2 ^ machine.bits := Nat.pow_le_pow_right (by omega) machine.wide
  have hround : roundUp machine.bits (s.used + n) = s.used + (n + 7) / 8 * 8 := by
    rw [roundUp_eq (by unfold heapSize at hsmall; omega)]
    omega
  have hget : (get : Allocating Memory) s = .ok s s := rfl
  have haddress : ((s.heap : Int) + s.heapIndex.toInt).toNat = s.heap + s.used := by
    rw [h.toInt_eq]
    omega
  rw [allocHeap, bind_of_ok hget, h.sum_eq hn, if_neg (Nat.not_lt.mpr hsmall), hround, haddress]
  rfl

theorem allocHeap_full (h : Ready machine s) (hn : n + heapSize < 2 ^ machine.bits)
    (hfull : heapSize < s.used + (n + 7) / 8 * 8) : allocHeap machine n s = .error outOfHeap s := by
  obtain ⟨hmod, -⟩ := h.used_le
  have hlarge : s.used + n > heapSize := by
    unfold heapSize at hfull ⊢
    omega
  have hget : (get : Allocating Memory) s = .ok s s := rfl
  rw [allocHeap, bind_of_ok hget, h.sum_eq hn, if_pos hlarge]
  rfl

end

/-! ## Texts in memory -/

/-- The state after bytes have been stored from an address on. -/
def Memory.put (s : Memory) (dest : Nat) (src : List UInt8) : Memory :=
  { s with
    memory := overwrite s.memory dest src
    stores := s.stores ++ List.range' dest src.length }

section

variable {memory : Nat → UInt8} {a : Nat}

theorem map_overwrite (src : List UInt8) :
    ((List.range src.length).map fun i => overwrite memory a src (a + i)) = src := by
  refine List.ext_getElem (by rw [List.length_map, List.length_range]) fun i _ hi => ?_
  rw [List.getElem_map, List.getElem_range, overwrite, if_pos (Nat.le_add_right a i),
    Nat.add_sub_cancel_left, List.getElem?_eq_getElem hi, Option.getD_some]

/-- The last of the bytes is replaced. -/
theorem overwrite_last (t : List UInt8) (c d : UInt8) :
    overwrite (overwrite memory a (t ++ [c])) (a + t.length) [d] = overwrite memory a (t ++ [d]) := by
  funext x
  unfold overwrite
  rcases Nat.lt_trichotomy x (a + t.length) with hlt | rfl | hgt
  · rw [if_neg (Nat.not_le.mpr hlt)]
    by_cases hle : a ≤ x
    · have hx : x - a < t.length := by omega
      rw [if_pos hle, if_pos hle, List.getElem?_append_left hx, List.getElem?_append_left hx]
    · rw [if_neg hle, if_neg hle]
  · simp
  · have hle : a ≤ x := by omega
    have hafter : (t ++ [c]).length ≤ x - a ∧ (t ++ [d]).length ≤ x - a := by
      rw [List.length_append, List.length_append, List.length_singleton, List.length_singleton]
      omega
    have hone : [d].length ≤ x - (a + t.length) := by
      rw [List.length_singleton]
      omega
    rw [if_pos (Nat.le_of_lt hgt), if_pos hle, if_pos hle, List.getElem?_eq_none hafter.1,
      List.getElem?_eq_none hafter.2, List.getElem?_eq_none hone]
    rfl

theorem overwrite_above {src : List UInt8} {x : Nat} (hx : a + src.length ≤ x) :
    overwrite memory a src x = memory x := by
  rw [overwrite, if_pos (by omega), List.getElem?_eq_none (by omega), Option.getD_none]

theorem stringIn_overwrite {t : List UInt8} (ht : (0 : UInt8) ∉ t) :
    stringIn (overwrite memory a (t ++ [0])) ⟨a, t.length + 1⟩ = some t := by
  have hbytes : ((List.range (t.length + 1)).map fun i => overwrite memory a (t ++ [0]) (a + i)) =
      t ++ [0] := by
    have h := @map_overwrite memory a (t ++ [0])
    rwa [List.length_append, List.length_singleton] at h
  unfold stringIn
  dsimp only
  rw [hbytes, if_pos (List.mem_append_right t List.mem_cons_self), takeWhile_nulFree ht]

/-- The NUL is in the block too. -/
theorem length_lt_of_stringIn {block : Block} {t : List UInt8}
    (h : stringIn memory block = some t) : t.length < block.size := by
  unfold stringIn at h
  dsimp only at h
  split at h
  next hnul =>
    obtain rfl := Option.some.inj h
    have hlt := length_takeWhile_lt hnul
    rwa [List.length_map, List.length_range] at hlt
  next => exact nomatch h

end

/-! ## Serving a request -/

/-- A token is its quotes and what is between them. -/
theorem QuotedToken.yytext_eq (token : QuotedToken machine) :
    ∃ q, token.yytext = 34 :: (q ++ [34]) := by
  have hmatched := token.matched
  cases hyytext : token.yytext with
  | nil =>
    rw [hyytext] at hmatched
    exact nomatch hmatched
  | cons c l =>
    rw [hyytext, matchLength_string] at hmatched
    split at hmatched
    next h =>
      obtain ⟨rfl, hclosed⟩ := h
      have hlength : (quoted l).length + 2 = l.length + 1 := Option.some.inj hmatched
      have hsplit := List.take_append_drop (quoted l).length l
      cases hdrop : l.drop (quoted l).length with
      | nil =>
        rw [hdrop] at hclosed
        exact nomatch hclosed
      | cons d rest =>
        rw [hdrop] at hclosed
        obtain rfl : d = 34 := Option.some.inj hclosed
        have hrest : rest = [] := by
          have := congrArg List.length hdrop
          rw [List.length_drop, List.length_cons] at this
          exact List.eq_nil_of_length_eq_zero (by omega)
        refine ⟨l.take (quoted l).length, ?_⟩
        rw [← hrest, ← hdrop, hsplit]
    next => exact nomatch hmatched

/-- Nothing is so large that a sum wraps around. -/
theorem Request.size_fits (r : Request machine) : r.size + heapSize < 2 ^ machine.bits := by
  cases r with
  | term =>
    have hwide := machine.wide
    obtain ⟨k, hk⟩ := Nat.exists_eq_add_of_le hwide
    have hpow : 2 ^ machine.bits = 2 ^ 32 * 2 ^ k := by rw [hk, Nat.pow_add]
    have hlt : k < 2 ^ k := Nat.lt_two_pow_self
    show 4 * (machine.bits / 8) + heapSize < _
    rw [hpow]
    unfold heapSize
    omega
  | string x => exact x.fits
  | qstring token =>
    have hle : (CString.ofBytes token.yytext.tail).strlen ≤ token.yytext.tail.length :=
      (List.takeWhile_sublist _).length_le
    have hfits := token.fits
    rw [List.length_tail] at hle
    show (CString.ofBytes token.yytext.tail).strlen + heapSize < _
    omega

theorem memcpy_eq (dest : Nat) (src : List UInt8) (s : Memory) :
    memcpy dest src s = .ok () (s.put dest src) := rfl

section

variable {s : Memory} (h : Ready machine s)

include h

/-- A string is copied with its terminator. -/
theorem allocString_ok {str : CString} (hfits : str.strlen + 1 + heapSize < 2 ^ machine.bits)
    (hroom : s.used + (str.strlen + 1 + 7) / 8 * 8 ≤ heapSize) :
    allocString machine str s = .ok (s.heap + s.used)
      ((s.bump (str.strlen + 1)).put (s.heap + s.used) (str.bytes ++ [0])) := by
  have hlen : (str.strlen + 1) % 2 ^ machine.bits = str.strlen + 1 :=
    Nat.mod_eq_of_lt (Nat.lt_of_le_of_lt (Nat.le_add_right _ _) hfits)
  have hall : (str.bytes ++ [0]).take (str.strlen + 1) = str.bytes ++ [0] :=
    List.take_of_length_le (by rw [List.length_append]; exact Nat.le_refl _)
  show (allocHeap machine ((str.strlen + 1) % 2 ^ machine.bits) >>= fun result =>
    memcpy result ((str.bytes ++ [0]).take ((str.strlen + 1) % 2 ^ machine.bits)) >>= fun _ =>
      pure result) s = _
  rw [hlen, hall, bind_of_ok (allocHeap_ok h hfits hroom), bind_of_ok (memcpy_eq _ _ _)]
  rfl

/-- The string behind the first quote is copied, and its last byte is replaced. -/
theorem allocQstring_ok {yytext : List UInt8} {str : CString}
    (hstr : CString.ofBytes yytext.tail = str) (hfits : str.strlen + heapSize < 2 ^ machine.bits)
    (hroom : s.used + (str.strlen + 7) / 8 * 8 ≤ heapSize) :
    allocQstring machine yytext s = .ok (s.heap + s.used)
      (((s.bump str.strlen).put (s.heap + s.used) str.bytes).put
        ((s.heap + s.used + (str.strlen + (2 ^ machine.bits - 1)) % 2 ^ machine.bits) %
          2 ^ machine.bits) [0]) := by
  have hall : str.bytes.take str.strlen = str.bytes := List.take_length
  unfold allocQstring
  rw [hstr, bind_of_ok (allocHeap_ok h hfits hroom), bind_of_ok (memcpy_eq _ _ _),
    bind_of_ok (memcpy_eq _ _ _), hall]
  rfl

theorem serve_full {r : Request machine} (hfull : heapSize < s.used + r.room) :
    r.serve s = .error outOfHeap s := by
  have hfits := r.size_fits
  have hnone := allocHeap_full h hfits hfull
  cases r with
  | term => exact bind_of_error hnone
  | string x =>
    have hlen : (x.str.strlen + 1) % 2 ^ machine.bits = x.str.strlen + 1 :=
      Nat.mod_eq_of_lt (Nat.lt_of_le_of_lt (Nat.le_add_right _ _) x.fits)
    have hstring : allocString machine x.str s = .error outOfHeap s := by
      unfold allocString
      rw [hlen]
      exact bind_of_error hnone
    exact bind_of_error hstring
  | qstring token => exact bind_of_error (bind_of_error hnone)

/-- Where there is room, the block is the one at `heap_index`. -/
theorem serve_room (r : Request machine) (hroom : s.used + r.room ≤ heapSize) :
    ∃ s', r.serve s = .ok ⟨s.heap + s.used, r.size⟩ s' := by
  have hfits := r.size_fits
  cases r with
  | term => exact ⟨_, bind_of_ok (allocHeap_ok h hfits hroom)⟩
  | string x => exact ⟨_, bind_of_ok (allocString_ok h hfits hroom)⟩
  | qstring token => exact ⟨_, bind_of_ok (allocQstring_ok h rfl hfits hroom)⟩

/-- Where the block is does not depend on what is stored in it. -/
theorem soundAllocation {r : Request machine} (hroom : s.used + r.room ≤ heapSize)
    {earlier : List Block} (hearlier : ∀ e ∈ earlier, e.address + e.size ≤ s.heap + s.used)
    {s' : Memory} {stored : List Nat} (hstores : s'.stores = s.stores ++ stored)
    (hstored : ∀ a ∈ stored, s.heap + s.used ≤ a ∧ a < s.heap + s.used + r.size)
    (htext : ∀ t, r.text = some t → stringIn s'.memory ⟨s.heap + s.used, r.size⟩ = some t) :
    SoundAllocation earlier s r ⟨s.heap + s.used, r.size⟩ s' := by
  obtain ⟨hmod, -⟩ := h.used_le
  have haligned := h.aligned
  unfold Request.room at hroom
  refine ⟨?_, ⟨Nat.le_add_right _ _, ?_⟩, fun e he => .inl (hearlier e he),
    ⟨stored, hstores, hstored⟩, htext⟩
  · show (s.heap + s.used) % 8 = 0
    omega
  · show s.heap + s.used + r.size ≤ s.heap + heapSize
    omega

/-- The state after a request for `n` bytes. -/
structure Advanced (n : Nat) (s s' : Memory) : Prop where
  heap : s'.heap = s.heap
  index : s'.heapIndex = (s.bump n).heapIndex
  above : ∀ a, s.heap + s.used + n ≤ a → s'.memory a = s.memory a

theorem Advanced.ready {n : Nat} {s' : Memory} (ha : Advanced n s s')
    (hroom : s.used + (n + 7) / 8 * 8 ≤ heapSize) : Ready machine s' := by
  obtain ⟨hindex, haligned, hfits⟩ := h.bump hroom
  refine ⟨?_, ha.heap ▸ haligned, ha.heap ▸ hfits⟩
  unfold IndexAligned
  rw [ha.index]
  exact hindex

omit h in
theorem Advanced.used {n : Nat} {s' : Memory} (ha : Advanced n s s')
    (hroom : s.used + (n + 7) / 8 * 8 ≤ heapSize) : s'.used = s.used + (n + 7) / 8 * 8 := by
  unfold Memory.used
  rw [ha.index]
  exact used_bump hroom

theorem serve_string {x : StoredString machine} {earlier : List Block}
    (hroom : s.used + (Request.string x).room ≤ heapSize)
    (hearlier : ∀ e ∈ earlier, e.address + e.size ≤ s.heap + s.used) :
    ∃ s', (Request.string x).serve s = .ok ⟨s.heap + s.used, (Request.string x).size⟩ s' ∧
      SoundAllocation earlier s (.string x) ⟨s.heap + s.used, (Request.string x).size⟩ s' ∧
      Advanced (Request.string x).size s s' := by
  have hlen : (x.str.bytes ++ [0]).length = (Request.string x).size := List.length_append
  refine ⟨_, bind_of_ok (allocString_ok h x.fits hroom), ?_, rfl, rfl, fun a ha => ?_⟩
  · refine soundAllocation h hroom hearlier rfl (fun a ha => ?_) ?_
    · rw [← hlen]
      exact List.mem_range'_1.mp ha
    · rintro _ ⟨⟩
      exact stringIn_overwrite x.str.nulFree
  · exact overwrite_above (hlen ▸ ha)

/-- Without a NUL in it a token is copied to its end, and the terminator takes the place of the last
quote. -/
theorem allocQstring_whole {q : List UInt8} (hq : (0 : UInt8) ∉ q)
    (hfits : q.length + 1 + heapSize < 2 ^ machine.bits)
    (hroom : s.used + (q.length + 1 + 7) / 8 * 8 ≤ heapSize) :
    allocQstring machine (34 :: (q ++ [34])) s = .ok (s.heap + s.used)
      (((s.bump (q.length + 1)).put (s.heap + s.used) (q ++ [34])).put
        (s.heap + s.used + q.length) [0]) := by
  have hfree : (0 : UInt8) ∉ q ++ [34] := by simpa using hq
  have hstr : CString.ofBytes (34 :: (q ++ [34])).tail = ⟨q ++ [34], hfree⟩ :=
    CString.ofBytes_bytes ⟨q ++ [34], hfree⟩
  have hlen : (⟨q ++ [34], hfree⟩ : CString).strlen = q.length + 1 := List.length_append
  have halloc := allocQstring_ok h hstr (by rwa [hlen]) (by rwa [hlen])
  have hin := h.fits
  -- `len - 1` is the index of the last quote, and nothing wraps around.
  have hlast : (q.length + 1 + (2 ^ machine.bits - 1)) % 2 ^ machine.bits = q.length := by
    rw [show q.length + 1 + (2 ^ machine.bits - 1) = q.length + 2 ^ machine.bits by omega,
      Nat.add_mod_right, Nat.mod_eq_of_lt (by omega)]
  have haddress : (s.heap + s.used + q.length) % 2 ^ machine.bits = s.heap + s.used + q.length :=
    Nat.mod_eq_of_lt (by omega)
  rwa [hlen, hlast, haddress] at halloc

theorem serve_qstring {token : QuotedToken machine} (hnul : (0 : UInt8) ∉ token.yytext)
    {earlier : List Block} (hroom : s.used + (Request.qstring token).room ≤ heapSize)
    (hearlier : ∀ e ∈ earlier, e.address + e.size ≤ s.heap + s.used) :
    ∃ s', (Request.qstring token).serve s =
        .ok ⟨s.heap + s.used, (Request.qstring token).size⟩ s' ∧
      SoundAllocation earlier s (.qstring token)
        ⟨s.heap + s.used, (Request.qstring token).size⟩ s' ∧
      Advanced (Request.qstring token).size s s' := by
  obtain ⟨q, hyytext⟩ := token.yytext_eq
  have htail : token.yytext.tail = q ++ [34] := by rw [hyytext, List.tail_cons]
  have hq : (0 : UInt8) ∉ q := by
    intro h0
    rw [hyytext] at hnul
    exact hnul (List.mem_cons_of_mem _ (List.mem_append_left _ h0))
  have hsize : (Request.qstring token).size = q.length + 1 := by
    show (token.yytext.tail.takeWhile (· ≠ 0)).length = _
    rw [htail, takeWhile_of_nulFree (by simpa using hq), List.length_append, List.length_singleton]
  have hfits := (Request.qstring token).size_fits
  have hroom' := hroom
  unfold Request.room at hroom'
  rw [hsize] at hfits hroom'
  have halloc := allocQstring_whole h hq hfits hroom'
  rw [← hyytext] at halloc
  refine ⟨_, bind_of_ok halloc, ?_, rfl, hsize ▸ rfl, fun a ha => ?_⟩
  · refine soundAllocation h hroom hearlier (List.append_assoc _ _ _) (fun a ha => ?_) ?_
    · rw [hsize]
      rcases List.mem_append.mp ha with ha | ha
      · have hin := List.mem_range'_1.mp ha
        rwa [List.length_append] at hin
      · have hin := List.mem_range'_1.mp ha
        rw [List.length_singleton] at hin
        omega
    · intro t ht
      obtain rfl : q = t := by
        have htext : token.yytext.tail.dropLast = t := Option.some.inj ht
        rwa [htail, List.dropLast_concat] at htext
      rw [hsize]
      exact (congrArg (stringIn · _) (overwrite_last q 34 0)).trans (stringIn_overwrite hq)
  · rw [hsize] at ha
    exact (congrFun (overwrite_last q 34 0) a).trans
      (overwrite_above (by rwa [List.length_append, List.length_singleton]))

/-- A request without a NUL in its token, when there is room. -/
theorem serve_sound {r : Request machine} (hnul : r.NulFree) {earlier : List Block}
    (hroom : s.used + r.room ≤ heapSize)
    (hearlier : ∀ e ∈ earlier, e.address + e.size ≤ s.heap + s.used) :
    ∃ s', r.serve s = .ok ⟨s.heap + s.used, r.size⟩ s' ∧
      SoundAllocation earlier s r ⟨s.heap + s.used, r.size⟩ s' ∧ Advanced r.size s s' := by
  cases r with
  | term =>
    refine ⟨_, bind_of_ok (allocHeap_ok h Request.term.size_fits hroom), ?_, rfl, rfl,
      fun _ _ => rfl⟩
    exact soundAllocation h hroom hearlier (List.append_nil _).symm nofun nofun
  | string x => exact serve_string h hroom hearlier
  | qstring token => exact serve_qstring h hnul hroom hearlier

omit h in
/-- The block of a token with a NUL in it is too small for the text between the quotes. -/
theorem SoundAllocation.nulFree {r : Request machine} {earlier : List Block} {a : Nat}
    {s' : Memory} (hs : SoundAllocation earlier s r ⟨a, r.size⟩ s') : r.NulFree := by
  cases r with
  | term => trivial
  | string x => trivial
  | qstring token =>
    intro hnul
    have hfit := length_lt_of_stringIn (hs.text _ rfl)
    obtain ⟨q, hyytext⟩ := token.yytext_eq
    have htail : token.yytext.tail = q ++ [34] := by rw [hyytext, List.tail_cons]
    have hmem : (0 : UInt8) ∈ token.yytext.tail := by
      rw [hyytext] at hnul
      rw [htail]
      exact (List.mem_cons.mp hnul).resolve_left (by decide)
    have hshort : (Request.qstring token).size < token.yytext.tail.length :=
      length_takeWhile_lt hmem
    rw [List.length_dropLast] at hfit
    exact absurd hfit (Nat.not_lt.mpr (Nat.le_sub_one_of_lt hshort))

/-! ## Runs -/

/-- The allocator does what it is for as long as no token has a NUL in it. -/
theorem soundRun_of_ready {rs : List (Request machine)} {earlier : List Block}
    (hearlier : ∀ e ∈ earlier, e.address + e.size ≤ s.heap + s.used) :
    SoundRun earlier s rs ↔ NulFreeWhileRoom s.used rs := by
  induction rs generalizing s earlier with
  | nil => exact ⟨fun _ => trivial, fun _ => h.index⟩
  | cons r rest ih =>
    rw [SoundRun, NulFreeWhileRoom, and_iff_right h.index]
    by_cases hroom : s.used + r.room ≤ heapSize
    · rw [imp_iff_right hroom]
      -- What follows is the run from the next state, in which the block is one of the earlier ones.
      have hrest : ∀ s', Advanced r.size s s' →
          (SoundRun (⟨s.heap + s.used, r.size⟩ :: earlier) s' rest ↔
            NulFreeWhileRoom (s.used + r.room) rest) := by
        intro s' ha
        have hused : s'.used = s.used + r.room := ha.used hroom
        rw [← hused]
        refine ih (ha.ready h hroom) (List.forall_mem_cons.mpr ⟨?_, fun e he => ?_⟩)
        · have hsize : r.size ≤ r.room := by
            unfold Request.room
            omega
          show s.heap + s.used + r.size ≤ _
          rw [ha.heap, hused]
          omega
        · have hle := hearlier e he
          rw [ha.heap, hused]
          omega
      constructor
      · intro hrun
        obtain ⟨s1, hserve⟩ := serve_room h r hroom
        rw [hserve] at hrun
        have hnul := hrun.1.nulFree
        obtain ⟨s', hserve', -, ha⟩ := serve_sound h hnul hroom hearlier
        obtain ⟨-, rfl⟩ := (EStateM.Result.ok.injEq ..).mp (hserve.symm.trans hserve')
        exact ⟨hnul, (hrest _ ha).mp hrun.2⟩
      · rintro ⟨hnul, hfree⟩
        obtain ⟨s', hserve, hsound, ha⟩ := serve_sound h hnul hroom hearlier
        rw [hserve]
        exact ⟨hsound, (hrest s' ha).mpr hfree⟩
    · rw [serve_full h (Nat.lt_of_not_le hroom)]
      exact ⟨fun _ hle => absurd hle hroom, fun _ => rfl⟩

end

theorem ready_fresh (block : Malloced machine) (memory : Nat → UInt8) :
    Ready machine (fresh block memory) :=
  ⟨⟨rfl, Int.le_refl _, show (0 : Int) ≤ heapSize by decide⟩, block.aligned, block.fits⟩

/-- From a collection on, the requests are served as the allocator is meant to serve them when no
token with a NUL in it is allocated, and otherwise not. -/
theorem soundRun_iff (machine : Machine) (block : Malloced machine) (memory : Nat → UInt8)
    (rs : List (Request machine)) :
    SoundRun [] (fresh block memory) rs ↔ NulFreeWhileRoom 0 rs :=
  soundRun_of_ready (ready_fresh block memory) nofun

/-! ## What the cells of the heap stand for -/

/-- The requests are served, and the blocks are returned. -/
def serveAll : List (Request machine) → Allocating (List Block)
  | [] => pure []
  | r :: rest => do
    let block ← r.serve
    let blocks ← serveAll rest
    pure (block :: blocks)

/-- What is not in a block yet is zero. -/
def Zeroed (s : Memory) : Prop :=
  ∀ a, s.heap + s.used ≤ a → a < s.heap + heapSize → s.memory a = 0

theorem zeroed_fresh (block : Malloced machine) (memory : Nat → UInt8) :
    Zeroed (fresh block memory) := by
  intro a hlow hhigh
  have hin : a - block.address < heapSize := by
    have hlt : a < block.address + heapSize := hhigh
    have hle : block.address ≤ a := hlow
    omega
  show overwrite memory block.address (List.replicate heapSize 0) a = 0
  rw [overwrite, if_pos (show block.address ≤ a from hlow),
    List.getElem?_replicate_of_lt hin, Option.getD_some]

theorem zeroed_of_serveAll {s s' : Memory} (h : Ready machine s) (hzero : Zeroed s)
    {rs : List (Request machine)} (hfree : NulFreeWhileRoom s.used rs) {blocks : List Block}
    (hserve : serveAll rs s = .ok blocks s') : Ready machine s' ∧ Zeroed s' := by
  induction rs generalizing s blocks with
  | nil =>
    obtain ⟨-, rfl⟩ := (EStateM.Result.ok.injEq ..).mp hserve
    exact ⟨h, hzero⟩
  | cons r rest ih =>
    obtain ⟨block, s1, hblock, hrest⟩ := bind_eq_ok.mp hserve
    obtain ⟨blocks', s2, hblocks, hlast⟩ := bind_eq_ok.mp hrest
    obtain ⟨-, rfl⟩ := (EStateM.Result.ok.injEq ..).mp hlast
    by_cases hroom : s.used + r.room ≤ heapSize
    · obtain ⟨hnul, hfree⟩ := hfree hroom
      obtain ⟨s1', hserved, -, ha⟩ := serve_sound h hnul hroom (List.forall_mem_nil _)
      obtain ⟨-, rfl⟩ := (EStateM.Result.ok.injEq ..).mp (hblock.symm.trans hserved)
      have hused : s1.used = s.used + r.room := ha.used hroom
      refine ih (ha.ready h hroom) (fun a hlow hhigh => ?_) (hused ▸ hfree) hblocks
      have hsize : r.size ≤ r.room := by
        unfold Request.room
        omega
      rw [ha.heap] at hlow hhigh
      rw [ha.above a (by omega)]
      exact hzero a (by omega) hhigh
    · rw [serve_full h (Nat.lt_of_not_le hroom)] at hblock
      exact nomatch hblock

/-- A new term consists of zeros, so that its `next` is `NULL`. -/
theorem new_term_zero (block : Malloced machine) (memory : Nat → UInt8)
    {rs : List (Request machine)} (hfree : NulFreeWhileRoom 0 rs) {blocks : List Block} {s s' : Memory}
    (hserve : serveAll rs (fresh block memory) = .ok blocks s) {new : Block}
    (hnew : (Request.term : Request machine).serve s = .ok new s') :
    ∀ i < sizeofTerm machine, s'.memory (new.address + i) = 0 := by
  intro i hi
  obtain ⟨h, hzero⟩ := zeroed_of_serveAll (ready_fresh block memory) (zeroed_fresh block memory)
    hfree hserve
  by_cases hroom : s.used + (Request.term : Request machine).room ≤ heapSize
  · have halloc : (Request.term : Request machine).serve s =
        .ok ⟨s.heap + s.used, sizeofTerm machine⟩ (s.bump (sizeofTerm machine)) :=
      bind_of_ok (allocHeap_ok h Request.term.size_fits hroom)
    obtain ⟨rfl, rfl⟩ := (EStateM.Result.ok.injEq ..).mp (hnew.symm.trans halloc)
    refine hzero _ (by show _ ≤ s.heap + s.used + i; omega) ?_
    have hsize : (Request.term : Request machine).size = sizeofTerm machine := rfl
    show s.heap + s.used + i < _
    unfold Request.room at hroom
    omega
  · rw [serve_full h (Nat.lt_of_not_le hroom)] at hnew
    exact nomatch hnew

/-- The allocation of a cell is this one, with the offset for the address. -/
theorem allocHeap_agrees {m : Memory} (hm : Ready machine m) {s : TermHeap.HeapState}
    (hs : TermHeap.Packed machine s) {heap : Nat} (hheap : s.heap = some heap)
    (hindex : s.heapIndex = m.used) {n : Nat} (hn : n + heapSize < 2 ^ machine.bits) :
    Ensures (TermHeap.allocHeap machine n) s
      (fun p s' => ∃ m', allocHeap machine n m = .ok (m.heap + p.offset) m' ∧
        s'.heapIndex = m'.used ∧ p.heap = heap)
      fun e _ => e = .outOfHeap ∧ allocHeap machine n m = .error outOfHeap m := by
  refine TermHeap.allocHeap_ensures hs hheap (fun hroom => ?_) fun hfull => ?_
  · rw [hindex] at hroom ⊢
    exact ⟨_, allocHeap_ok hm hn hroom, (used_bump hroom).symm, rfl⟩
  · rw [hindex] at hfull
    exact ⟨rfl, allocHeap_full hm hn hfull⟩

/-! ## A token with a NUL in it -/

def plainBlock : Malloced plainMachine := ⟨4096, rfl, by decide⟩

/-- A quote, a NUL and a quote. -/
def nulToken : QuotedToken plainMachine := ⟨[34, 0, 34], by decide, by decide⟩

/-- The NUL in the token is taken for its end, so that no byte is asked for; the terminator is stored
in front of the block, in the pointer `next` of the term. -/
theorem soundRun_nul :
    ¬ SoundRun [] (fresh plainBlock fun _ => 0) [.term, .qstring nulToken] ∧
      ∃ s, serveAll [.term, .qstring nulToken] (fresh plainBlock fun _ => 0) =
        .ok [⟨4096, 32⟩, ⟨4128, 0⟩] s ∧ s.stores = [4127] := by
  refine ⟨fun hrun => ?_, _, rfl, by decide⟩
  have hiff : SoundRun [] (fresh plainBlock fun _ => 0) [.term, .qstring nulToken] ↔
      NulFreeWhileRoom 0 [.term, .qstring nulToken] :=
    soundRun_of_ready (ready_fresh plainBlock _) nofun
  exact ((hiff.mp hrun (by decide)).2 (by decide)).1 (by decide)

end NervesInitramfs.HeapBytes
