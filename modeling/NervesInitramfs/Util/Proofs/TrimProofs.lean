import NervesInitramfs.CLib.Proofs.CStringProofs
import NervesInitramfs.Script.Handlers
import NervesInitramfs.Util.Trim
import Mathlib.Data.List.DropRight

/-!
# Proofs: trimming

With a byte that is not blank, the two loops meet around it, and what lies between them is the
trimmed string. Without one the second loop starts in front of the first and leaves the buffer.
-/

namespace NervesInitramfs

open CLib

variable {w : Nat}

/-- A string without its leading and trailing blanks. -/
def trimmed (s : List UInt8) : List UInt8 := (s.dropWhile isspace).rdropWhile isspace

/-- A string with a byte that is not blank consists of blanks, the trimmed string, and blanks. -/
theorem exists_trimmed {s : List UInt8} (h : ∃ c ∈ s, ¬ isspace c) :
    ∃ pre mid post, s = pre ++ (mid ++ post) ∧ trimmed s = mid ∧ (∀ c ∈ pre, isspace c) ∧
      (∀ c ∈ post, isspace c) ∧ (∃ c tail, mid = c :: tail ∧ ¬ isspace c) ∧
      ∃ front c, mid = front ++ [c] ∧ ¬ isspace c := by
  obtain ⟨d, hd, hspace⟩ := h
  have hne : s.dropWhile isspace ≠ [] := fun hnil =>
    hspace (List.dropWhile_eq_nil_iff.mp hnil d hd)
  obtain ⟨c, rest, hrest⟩ := List.exists_cons_of_ne_nil hne
  have hc : ¬ isspace c := by
    have hhead := List.head_dropWhile_not isspace hne
    simpa [hrest] using hhead
  have hsplit : trimmed s ++ (s.dropWhile isspace).rtakeWhile isspace = s.dropWhile isspace :=
    List.rdropWhile_append_rtakeWhile
  have hmid : trimmed s ≠ [] := by
    intro hnil
    exact hc (List.rdropWhile_eq_nil_iff.mp hnil c (by rw [hrest]; exact List.mem_cons_self))
  refine ⟨s.takeWhile isspace, trimmed s, (s.dropWhile isspace).rtakeWhile isspace, ?_, rfl,
    fun c hc => List.mem_takeWhile_imp hc, fun c hc => List.mem_rtakeWhile_imp hc, ?_, ?_⟩
  · rw [hsplit, List.takeWhile_append_dropWhile]
  · obtain ⟨d, tail, htail⟩ := List.exists_cons_of_ne_nil hmid
    rw [hrest, htail] at hsplit
    obtain ⟨rfl, -⟩ := List.cons.inj hsplit
    exact ⟨d, tail, htail, hc⟩
  · exact ⟨_, _, (List.dropLast_append_getLast hmid).symm, List.rdropWhile_last_not _ _ hmid⟩

section

variable {buffer : Buffer w} {pre rest : List UInt8}

/-! ## The loops -/

theorem load_append {c : UInt8} (h : buffer.bytes = pre ++ c :: rest) :
    buffer.load pre.length = some c := by
  rw [Buffer.load, h]
  simp

theorem skipBlanks_step {first : Nat} {c : UInt8} (h : buffer.load first = some c) :
    skipBlanks buffer first =
      if c ≠ 0 ∧ isspace c then skipBlanks buffer (first + 1) else some first := by
  rw [skipBlanks]
  split
  · rename_i hnone
    rw [h] at hnone
    cases hnone
  · rename_i d hd
    obtain rfl := Option.some.inj (h.symm.trans hd)
    rfl

theorem strlenAt_step {p : Nat} {c : UInt8} (h : buffer.load p = some c) :
    strlenAt buffer p = if c = 0 then some 0 else (strlenAt buffer (p + 1)).map (· + 1) := by
  rw [strlenAt]
  split
  · rename_i hnone
    rw [h] at hnone
    cases hnone
  · rename_i d hd
    obtain rfl := Option.some.inj (h.symm.trans hd)
    rfl

theorem skipBlanks_eq {blanks : List UInt8} {c : UInt8}
    (h : buffer.bytes = pre ++ (blanks ++ c :: rest)) (hblanks : ∀ d ∈ blanks, isspace d)
    (hc : ¬ (c ≠ 0 ∧ isspace c)) :
    skipBlanks buffer pre.length = some (pre.length + blanks.length) := by
  induction blanks generalizing pre with
  | nil =>
    rw [skipBlanks_step (load_append h), if_neg hc]
    rfl
  | cons b blanks ih =>
    have hb := hblanks b List.mem_cons_self
    have hb0 : b ≠ 0 := by
      rintro rfl
      exact absurd hb (by decide)
    have hbytes : buffer.bytes = (pre ++ [b]) ++ (blanks ++ c :: rest) := by simpa using h
    have hnext := ih hbytes fun d hd => hblanks d (List.mem_cons_of_mem _ hd)
    rw [List.length_append, List.length_singleton] at hnext
    rw [skipBlanks_step (load_append h), if_pos ⟨hb0, hb⟩, hnext, List.length_cons, Nat.add_assoc,
      Nat.add_comm 1]

theorem strlenAt_eq {str : List UInt8} (h : buffer.bytes = pre ++ (str ++ 0 :: rest))
    (hstr : (0 : UInt8) ∉ str) : strlenAt buffer pre.length = some str.length := by
  induction str generalizing pre with
  | nil =>
    rw [strlenAt_step (load_append h)]
    rfl
  | cons c str ih =>
    have hc : ¬ c = 0 := fun e => hstr (by simp [e])
    have hbytes : buffer.bytes = (pre ++ [c]) ++ (str ++ 0 :: rest) := by simpa using h
    have hnext := ih hbytes fun e => hstr (List.mem_cons_of_mem _ e)
    rw [List.length_append, List.length_singleton] at hnext
    rw [strlenAt_step (load_append h), if_neg hc, hnext]
    rfl

/-- A step back over a blank. -/
theorem dropBlanks_step {first : Nat} {c : UInt8} (h : buffer.bytes = pre ++ c :: rest)
    (hfirst : pre.length ≠ first) :
    dropBlanks buffer first pre.length =
      if isspace c then dropBlanks buffer first ((pre.length : Int) - 1) else some pre.length := by
  have hne : ¬ (pre.length : Int) = first := by omega
  rw [dropBlanks, if_neg hne, dif_neg (by omega), Int.toNat_natCast, load_append h]

theorem dropBlanks_eq {blanks : List UInt8} {c : UInt8} {first : Nat}
    (h : buffer.bytes = pre ++ c :: (blanks ++ rest)) (hblanks : ∀ d ∈ blanks, isspace d)
    (hc : ¬ isspace c) (hfirst : first ≤ pre.length) :
    dropBlanks buffer first ((pre.length : Int) + blanks.length) = some (pre.length : Int) := by
  induction blanks using List.reverseRecOn generalizing rest with
  | nil =>
    rw [List.length_nil, Int.natCast_zero, Int.add_zero]
    by_cases heq : pre.length = first
    · rw [dropBlanks, if_pos (by rw [heq])]
    · rw [dropBlanks_step h heq, if_neg hc]
  | append_singleton blanks b ih =>
    have hb := hblanks b (by simp)
    have hbytes : buffer.bytes = pre ++ c :: (blanks ++ b :: rest) := by simpa using h
    have hnext := ih hbytes fun d hd => hblanks d (List.mem_append_left _ hd)
    have hlast : buffer.bytes = (pre ++ c :: blanks) ++ b :: rest := by simpa using h
    have hlen : ((pre ++ c :: blanks).length : Int) = (pre.length : Int) + (blanks ++ [b]).length := by
      simp only [List.length_append, List.length_cons, List.length_nil]
      omega
    have hback : (pre.length : Int) + (blanks ++ [b]).length - 1 = pre.length + blanks.length := by
      simp only [List.length_append, List.length_cons, List.length_nil]
      omega
    have hne : (pre ++ c :: blanks).length ≠ first := by
      rw [List.length_append, List.length_cons]
      omega
    rw [← hlen, dropBlanks_step hlast hne, if_pos hb, hlen, hback, hnext]

/-- Blanks all the way to the start do not stop the loop. -/
theorem dropBlanks_blank {blanks : List UInt8} {first : Nat}
    (h : buffer.bytes = blanks ++ rest) (hblanks : ∀ d ∈ blanks, isspace d)
    (hfirst : blanks.length ≤ first) : dropBlanks buffer first ((blanks.length : Int) - 1) = none := by
  induction blanks using List.reverseRecOn generalizing rest with
  | nil =>
    have hneg : ((([] : List UInt8).length : Int) - 1) < 0 := by decide
    rw [dropBlanks, if_neg (by omega), dif_pos hneg]
  | append_singleton blanks b ih =>
    have hb := hblanks b (by simp)
    rw [List.length_append, List.length_singleton] at hfirst
    have hlast : buffer.bytes = blanks ++ b :: rest := by simpa using h
    have hnext := ih hlast (fun d hd => hblanks d (List.mem_append_left _ hd)) (by omega)
    have hlen : ((blanks ++ [b]).length : Int) - 1 = blanks.length := by
      simp only [List.length_append, List.length_cons, List.length_nil]
      omega
    rw [hlen, dropBlanks_step hlast (by omega), if_pos hb, hnext]

end

/-! ## `trim_string_in_place` -/

/-- The trimmed string is copied to the start of the buffer. -/
theorem trimStringInPlaceAt_eq {s : List UInt8} {buffer : Buffer w} (hs : (0 : UInt8) ∉ s)
    (hbuffer : buffer.bytes = s ++ [0]) (h : ∃ c ∈ s, ¬ isspace c) :
    ∃ buffer' rest, trimStringInPlaceAt buffer = some buffer' ∧
      buffer'.bytes = trimmed s ++ 0 :: rest := by
  obtain ⟨pre, mid, post, rfl, hmid, hpre, hpost, ⟨c, tail, htail, hc⟩, front, d, hfront, hd⟩ :=
    exists_trimmed h
  have hsize : buffer.size = pre.length + (mid.length + post.length) + 1 := by
    rw [Buffer.size, hbuffer]
    simp only [List.length_append, List.length_singleton]
  have hmax : buffer.size ≤ ptrdiffMax w := buffer.size_le
  have hmidlen : mid.length = front.length + 1 := by
    rw [hfront, List.length_append, List.length_singleton]
  have hskip : skipBlanks buffer 0 = some pre.length := by
    have hbytes : buffer.bytes = [] ++ (pre ++ c :: (tail ++ (post ++ [0]))) := by
      rw [hbuffer, htail]
      simp
    have hstop := skipBlanks_eq hbytes hpre fun hblank => hc hblank.2
    rwa [List.length_nil, Nat.zero_add] at hstop
  have hstrlen : strlenAt buffer pre.length = some (mid ++ post).length :=
    strlenAt_eq (by rw [hbuffer, List.append_assoc]) fun e => hs (List.mem_append_right _ e)
  have hdrop : dropBlanks buffer pre.length ((pre.length : Int) + (mid ++ post).length - 1)
      = some ((pre ++ front).length : Int) := by
    have hbytes : buffer.bytes = (pre ++ front) ++ d :: (post ++ [0]) := by
      rw [hbuffer, hfront]
      simp
    have hstart : (pre.length : Int) + (mid ++ post).length - 1
        = (pre ++ front).length + post.length := by
      rw [List.length_append, List.length_append, hmidlen]
      omega
    rw [hstart]
    exact dropBlanks_eq hbytes hpost hd (by rw [List.length_append]; omega)
  have hlen : sizeOfDiff w (((pre ++ front).length : Int) - pre.length + 1) = mid.length := by
    have hcast : ((pre ++ front).length : Int) - pre.length + 1 = (mid.length : Int) := by
      rw [List.length_append, hmidlen]
      omega
    rw [hcast, sizeOfDiff_natCast (by omega)]
  have hsource : (buffer.bytes.drop pre.length).take mid.length = mid := by
    rw [hbuffer, List.append_assoc, List.append_assoc, List.drop_left, List.take_left]
  obtain ⟨b1, h1, e1⟩ := Buffer.memcpy_append (b := buffer) (a := []) (p := 0) mid rfl rfl
    (by change mid.length ≤ buffer.size; omega)
  obtain ⟨b2, h2, e2⟩ := b1.store_append (c := 0) e1 (p := mid.length) (by simp)
    (by rw [List.length_drop]; change 0 < buffer.size - mid.length; omega)
  refine ⟨b2, (buffer.bytes.drop mid.length).drop 1, ?_, by rw [e2, hmid, List.nil_append]⟩
  simp only [trimStringInPlaceAt, hskip, hstrlen, hdrop, hlen, Option.bind_eq_bind, Option.bind_some,
    Buffer.memmove, hsource, h1, h2, if_pos (show pre.length + mid.length ≤ buffer.size by omega)]

/-- A blank string leads out of the buffer. -/
theorem trimStringInPlaceAt_blank {s : List UInt8} {buffer : Buffer w}
    (hbuffer : buffer.bytes = s ++ [0]) (h : ∀ c ∈ s, isspace c) :
    trimStringInPlaceAt buffer = none := by
  have hskip : skipBlanks buffer 0 = some s.length := by
    have hbytes : buffer.bytes = [] ++ (s ++ 0 :: []) := hbuffer
    have hstop := skipBlanks_eq hbytes h fun hblank => hblank.1 rfl
    rwa [List.length_nil, Nat.zero_add] at hstop
  have hstrlen : strlenAt buffer s.length = some 0 := by
    have hend : buffer.bytes = s ++ ([] ++ 0 :: []) := hbuffer
    exact strlenAt_eq hend List.not_mem_nil
  have hdrop := dropBlanks_blank hbuffer h (Nat.le_refl s.length)
  simp only [trimStringInPlaceAt, hskip, hstrlen, Option.bind_eq_bind, Option.bind_some,
    Int.natCast_zero, Int.add_zero, hdrop, Option.bind_none]

/-- Trimming is exact and stays in the buffer exactly when the string is not blank. -/
theorem trim_exact_iff {s : CString} {buffer : Buffer w} (hbuffer : buffer.bytes = s.bytes ++ [0]) :
    (∃ buffer' rest, trimStringInPlaceAt buffer = some buffer' ∧
      buffer'.bytes = trimmed s.bytes ++ 0 :: rest) ↔ ∃ c ∈ s.bytes, ¬ isspace c := by
  constructor
  · rintro ⟨buffer', rest, htrim, -⟩
    by_contra hblank
    rw [trimStringInPlaceAt_blank hbuffer (by simpa using hblank)] at htrim
    cases htrim
  · exact trimStringInPlaceAt_eq s.nulFree hbuffer

/-- The line that a command prints. -/
def printedLine : CString := .ofString " ok\n"

def printedBuffer : Buffer 64 := ⟨printedLine.bytes ++ [0], by decide⟩

theorem trim_exact_line :
    ∃ buffer' rest, trimStringInPlaceAt printedBuffer = some buffer' ∧
      buffer'.bytes = (CString.ofString "ok").bytes ++ 0 :: rest := by
  have hbuffer : printedBuffer.bytes = printedLine.bytes ++ [0] := rfl
  have hok : (CString.ofString "ok").bytes = trimmed printedLine.bytes := by decide
  rw [hok]
  exact (trim_exact_iff hbuffer).mpr (by decide)

/-- The empty output of a command is not trimmed inside its buffer. -/
theorem trim_leaves_buffer :
    ¬ ∀ (s : CString) (buffer : Buffer 64), buffer.bytes = s.bytes ++ [0] →
      ∃ buffer' rest, trimStringInPlaceAt buffer = some buffer' ∧
        buffer'.bytes = trimmed s.bytes ++ 0 :: rest := by
  intro h
  have hbuffer : (⟨[0], by decide⟩ : Buffer 64).bytes = (CString.ofString "").bytes ++ [0] := rfl
  obtain ⟨buffer', rest, htrim, -⟩ := h _ _ hbuffer
  rw [trimStringInPlaceAt_blank hbuffer fun c hc => absurd hc (List.not_mem_nil)] at htrim
  cases htrim

/-- On a string that is not blank the trimming of the handlers is the one with pointers. -/
theorem trimStringInPlace_eq {s : CString} {buffer buffer' : Buffer w} (stray : UInt8)
    (hbuffer : buffer.bytes = s.bytes ++ [0]) (htrim : trimStringInPlaceAt buffer = some buffer') :
    trimStringInPlace stray s = some (.ofBytes buffer'.bytes) := by
  have hword : ∃ c ∈ s.bytes, ¬ isspace c := by
    by_contra hblank
    rw [trimStringInPlaceAt_blank hbuffer (by simpa using hblank)] at htrim
    cases htrim
  obtain ⟨buffer1, rest, htrim1, hbytes⟩ := trimStringInPlaceAt_eq s.nulFree hbuffer hword
  obtain rfl := Option.some.inj (htrim.symm.trans htrim1)
  obtain ⟨d, hd, hspace⟩ := hword
  have hne : s.bytes.dropWhile isspace ≠ [] := fun hnil =>
    hspace (List.dropWhile_eq_nil_iff.mp hnil d hd)
  have hnul : (0 : UInt8) ∉ trimmed s.bytes := fun e =>
    s.nulFree ((List.dropWhile_suffix _).subset ((List.rdropWhile_prefix _ _).subset e))
  have hstring : CString.ofBytes buffer'.bytes = CString.ofBytes (trimmed s.bytes) := by
    refine CString.ext ?_
    show buffer'.bytes.takeWhile (· ≠ 0) = (trimmed s.bytes).takeWhile (· ≠ 0)
    rw [hbytes, takeWhile_nulFree hnul, takeWhile_of_nulFree hnul]
  rw [hstring, trimStringInPlace]
  split
  · contradiction
  · rfl

end NervesInitramfs
