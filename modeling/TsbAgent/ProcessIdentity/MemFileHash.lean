/-
# The hash of a running file

`task_cal_mem_file_hash` of `tsb/kernel/dmeasure/process_identity/process_identity.c` computes the hash of a file
whose text is mapped, with the text taken from memory:

| from | where | until |
| --- | --- | --- |
| the file | 0 | the offset is not before `file_offset` |
| the pages of the mapping | `from` | `length` bytes |
| the file | the offset so far plus `length` | nothing more comes |

The reads are of 4096 bytes and may get less, so the first part may go past `file_offset`, and a file that is
shorter is read for ever.  The length of a mapping is a number of whole pages, so the second part may go past the
end of the file, and the zeros behind it are hashed.  `mem_hash_iff` says when the bytes are those of the file,
which is what `digest_cal` hashes, whatever its reads get (`digestCal_file`).
-/

import Mathlib.Data.List.GetD
import TsbAgent.Lib.Pieces
import TsbAgent.Dmeasure.Verdict
import TsbAgent.Whitelist.FileDigest

namespace TsbAgent
namespace ProcessIdentity
namespace MemFileHash

open Libc Word
open Dmeasure (pageSize)
open Dmeasure.Verdict (Page gather npages)
open Whitelist (FileReads digestCal)

/-- What `kernel_read` of 4096 bytes gets at most, each time. -/
def reads (short : ℕ → ℕ) (h : ∀ i, 0 < short i) : Reads := ⟨4096, short, by decide, h⟩

/-- A call of `task_cal_mem_file_hash`: the file, what the reads get, the mapping with the memory, whose bytes are
those of the file and zeros behind its end, and what the kernel grants. -/
structure Call where
  file : Bytes
  short : ℕ → ℕ
  short_pos : ∀ i, 0 < short i
  start : ℕ
  length : ℕ
  fileOffset : ℕ
  mem : ℕ → UInt8
  filpOpen : Bool
  kmalloc : Bool
  kzalloc : Bool
  pinned : Bool
  length_int : length < 2 ^ 31
  mapped : ∀ i < length, mem (start + i) = file.getD (fileOffset + i) 0

namespace Call

variable (x : Call)

def reads : Reads := MemFileHash.reads x.short x.short_pos

/-- The page of memory that starts at `a`. -/
def page (a : ℕ) : Page :=
  ⟨(List.range pageSize).map fun i => x.mem (a + i), by rw [List.length_map, List.length_range]⟩

/-- The pages of `get_user_pages`. -/
def pages : List Page :=
  (List.range (npages x.start x.length).toNat).map fun i => x.page (x.start - x.start % pageSize + pageSize * i)

end Call

/-- `task_cal_mem_file_hash`: the return value, and the hash where it has been written.  No result is a run that is
longer than the fuel, or that writes to a buffer which was not granted. -/
def taskCalMemFileHash (sm3 : Bytes → Digest) (x : Call) (fuel : ℕ) : Option (ℤ × Option Digest) :=
  if x.filpOpen = false then some (-enomem, none)
  else if x.kmalloc = false then none
  else
    match x.reads.readTo x.file x.fileOffset fuel 0 0 [] with
    | none => none
    | some (i, offset, ctx) =>
        if x.kzalloc = false ∨ x.pinned = false then some (-enomem, none)
        else
          let ctx := ctx ++ gather x.pages (x.start % pageSize) x.length
          (x.reads.readAll x.file fuel i (offset + x.length) ctx).map fun ctx => (0, some (sm3 ctx))

/-- The file, as `digest_cal` reads it. -/
def fileReads (file : Bytes) (r : Reads) : FileReads where
  iSize := file.length
  byteAt := fun i => file.getD i 0
  reads := fun i => r.got file.length i (r.offset file.length i)
  kzalloc := fun _ => true

/-! ### What is claimed -/

/-- Everything is granted. -/
def Call.Granted (x : Call) : Prop := x.filpOpen = true ∧ x.kzalloc = true ∧ x.pinned = true

/-- **The hash is that of the file:** the function comes to an end, and when everything is granted its hash is that
of the bytes of the file, and the one of `digest_cal`, whatever reads that has. -/
def Right (x : Call) : Prop :=
  ∀ sm3, ∃ fuel res, taskCalMemFileHash sm3 x fuel = some res ∧
    (x.Granted → res = (0, some (sm3 x.file)) ∧
      ∀ short h, res = digestCal sm3 (fileReads x.file (reads short h)))

/-- **The condition.**  The buffer is granted, and the file is not shorter than the offset of the mapping.  Where
the reads from its start first get to that offset, or past it, the length of the mapping is still in the file, and
the bytes there are those of the mapping. -/
structure Whole (x : Call) : Prop where
  buffer : x.filpOpen = true → x.kmalloc = true
  reached : x.filpOpen = true → x.fileOffset ≤ x.file.length
  stitched : x.Granted → ∀ k, x.reads.First x.file.length x.fileOffset k →
    x.reads.offset x.file.length k + x.length ≤ x.file.length ∧
      (x.file.drop (x.reads.offset x.file.length k)).take x.length = (x.file.drop x.fileOffset).take x.length

/-! ### The whole file -/

section File

variable {file : Bytes} {r : Reads}

theorem total_fileReads (file : Bytes) (r : Reads) (i : ℕ) :
    (fileReads file r).total i = r.offset file.length i := by
  induction i with
  | zero => rfl
  | succ i ih =>
      rw [Whitelist.total_succ, ih]
      rfl

theorem bytes_fileReads (file : Bytes) (r : Reads) : (fileReads file r).bytes 0 file.length = file := by
  refine List.ext_getElem (by simp [FileReads.bytes]) fun i h₁ h₂ => ?_
  simp [FileReads.bytes, fileReads, h₂]

/-- **`digest_cal` hashes the bytes of the file,** whatever its reads get. -/
theorem digestCal_file (sm3 : Bytes → Digest) (file : Bytes) (r : Reads) :
    digestCal sm3 (fileReads file r) = (0, some (sm3 file)) := by
  have hfuel : (fileReads file r).iSize ≤ (fileReads file r).iSize + (fileReads file r).total 0 :=
    Nat.le_add_right _ _
  obtain ⟨k, ret, -, hstop, hloop⟩ := Whitelist.digestLoop_spec (Whitelist.reached_zero (fileReads file r)) hfuel
  have hend : (fileReads file r).total k = file.length ∧ ret = 0 := by
    have hle := r.offset_le file.length k
    rcases hstop with ⟨hge, rfl⟩ | ⟨hlt, hread, -⟩
    · rw [total_fileReads] at hge ⊢
      exact ⟨le_antisymm hle hge, rfl⟩
    · rw [total_fileReads] at hlt
      have hgot : 0 < r.got file.length k (r.offset file.length k) := Reads.got_pos hlt
      have hread : (r.got file.length k (r.offset file.length k) : ℤ) ≤ 0 := hread
      omega
  have hzero : (fileReads file r).total 0 = 0 := rfl
  rw [hzero, hend.1, hend.2, bytes_fileReads] at hloop
  have hgranted : ¬ (fileReads file r).kzalloc 0 = false := by
    change ¬ true = false
    decide
  rw [digestCal, if_neg hgranted]
  dsimp only
  have hloop : Whitelist.digestLoop (fileReads file r) (fileReads file r).iSize 0 0 [] =
      (0, file.length, file) := hloop
  rw [hloop]
  exact if_pos rfl

end File

/-! ### The pages -/

section Pages

variable {x : Call} {a off n : ℕ} {length : ℤ}

/-- `n` bytes of memory. -/
def Call.memBytes (x : Call) (a n : ℕ) : Bytes := (List.range n).map fun i => x.mem (a + i)

theorem memBytes_add (x : Call) (a n k : ℕ) : x.memBytes a (n + k) = x.memBytes a n ++ x.memBytes (a + n) k := by
  rw [Call.memBytes, Call.memBytes, Call.memBytes, List.range_add, List.map_append, List.map_map]
  refine congrArg _ (List.map_congr_left fun i _ => congrArg x.mem ?_)
  rw [Nat.add_assoc]

/-- A part of a page. -/
theorem page_slice (h : off + n ≤ pageSize) : ((x.page a).1.drop off).take n = x.memBytes (a + off) n := by
  refine List.ext_getElem ?_ fun i h₁ h₂ => ?_
  · simp [Call.page, Call.memBytes]
    omega
  · simp [Call.page, Call.memBytes, Nat.add_assoc]

/-- **The pages give the bytes of the mapping.** -/
theorem gather_pages (k len : ℕ) (hoff : off < pageSize) (hlen : off + len ≤ pageSize * k) :
    gather ((List.range k).map fun i => x.page (a + pageSize * i)) off len = x.memBytes (a + off) len := by
  induction k generalizing a off len with
  | zero =>
      obtain rfl : len = 0 := by omega
      rfl
  | succ k ih =>
      obtain ⟨n, hn⟩ : ∃ n, n = min len (pageSize - off) := ⟨_, rfl⟩
      have hplen : min (len : ℤ) (pageSize - off) = n := by omega
      have hrest : (len : ℤ) - n = (len - n : ℕ) := by omega
      have hpages : ((List.range (k + 1)).map fun i => x.page (a + pageSize * i)) =
          x.page a :: (List.range k).map fun i => x.page (a + pageSize + pageSize * i) := by
        rw [List.range_succ_eq_map, List.map_cons, List.map_map, Nat.mul_zero, Nat.add_zero]
        refine congrArg _ (List.map_congr_left fun i _ => congrArg x.page ?_)
        rw [Nat.mul_succ, Nat.add_comm (pageSize * i), Nat.add_assoc]
      rw [Nat.mul_succ] at hlen
      have hih := @ih (a + pageSize) 0 (len - n) (Nat.lt_of_le_of_lt (Nat.zero_le _) hoff) (by omega)
      rw [hpages, gather, hplen, Int.toNat_natCast, page_slice (by omega), hrest, hih, Nat.add_zero]
      -- the next page follows, or nothing is left
      have hnext : x.memBytes (a + pageSize) (len - n) = x.memBytes (a + off + n) (len - n) := by
        rcases Nat.lt_or_ge n len with hlt | hge
        · have hsame : a + pageSize = a + off + n := by omega
          rw [hsame]
        · rw [Nat.sub_eq_zero_of_le hge]
          rfl
      rw [hnext, ← memBytes_add, Nat.add_sub_cancel' (by omega)]

end Pages

/-! ### The three parts -/

section Parts

variable {x : Call} {sm3 : Bytes → Digest} {fuel k : ℕ} {res : ℤ × Option Digest}

theorem npages_eq (x : Call) :
    (npages x.start x.length).toNat = (x.start % pageSize + x.length + pageSize - 1) / pageSize := by
  have hint := x.length_int
  have hoff : x.start % pageSize < pageSize := Nat.mod_lt _ (by decide)
  have hsize : sizeT ((x.start % pageSize : ℕ) + (x.length : ℤ) + pageSize - 1) =
      x.start % pageSize + x.length + pageSize - 1 := by
    rw [sizeT]
    simp only [pageSize] at *
    omega
  rw [npages, hsize, int32_eq (Int.natCast_nonneg _), Int.toNat_natCast]
  simp only [pageSize] at *
  omega

/-- What is hashed of the mapping. -/
theorem gather_mapping (x : Call) :
    gather x.pages (x.start % pageSize) x.length = x.memBytes x.start x.length := by
  have hoff : x.start % pageSize < pageSize := Nat.mod_lt _ (by decide)
  have hlen : x.start % pageSize + x.length ≤
      pageSize * ((x.start % pageSize + x.length + pageSize - 1) / pageSize) := by
    simp only [pageSize] at *
    omega
  rw [Call.pages, npages_eq, gather_pages _ _ hoff hlen, Nat.sub_add_cancel (Nat.mod_le _ _)]

theorem length_memBytes (x : Call) (a n : ℕ) : (x.memBytes a n).length = n := by
  rw [Call.memBytes, List.length_map, List.length_range]

/-- The mapping inside the file. -/
theorem memBytes_eq (h : x.fileOffset + x.length ≤ x.file.length) :
    x.memBytes x.start x.length = (x.file.drop x.fileOffset).take x.length := by
  refine List.ext_getElem ?_ fun i h₁ h₂ => ?_
  · rw [length_memBytes, List.length_take, List.length_drop]
    omega
  · rw [length_memBytes] at h₁
    have hin : x.fileOffset + i < x.file.length := by omega
    rw [List.getElem_take, List.getElem_drop]
    simp only [Call.memBytes, List.getElem_map, List.getElem_range]
    rw [x.mapped i h₁, List.getD_eq_getElem _ _ hin]

/-- **Where the three parts are the file:** the second takes the place of as many bytes. -/
theorem stitch_iff {file seg : Bytes} {o : ℕ} (ho : o ≤ file.length) :
    file.take o ++ seg ++ file.drop (o + seg.length) = file ↔
      o + seg.length ≤ file.length ∧ seg = (file.drop o).take seg.length := by
  constructor
  · intro h
    have hlen := congrArg List.length h
    rw [List.length_append, List.length_append, List.length_take, List.length_drop] at hlen
    have hin : o + seg.length ≤ file.length := by omega
    refine ⟨hin, ?_⟩
    have hparts : file.take o ++ (seg ++ file.drop (o + seg.length)) = file.take o ++ file.drop o := by
      rw [← List.append_assoc, h, List.take_append_drop]
    rw [← List.append_cancel_left hparts, List.take_left]
  · rintro ⟨-, h⟩
    have hcut : file.take o ++ seg = file.take (o + seg.length) := by rw [List.take_add, ← h]
    rw [hcut, List.take_append_drop]

/-- What is hashed when the first part stops at the read `k`. -/
def Call.hashed (x : Call) (k : ℕ) : Bytes :=
  x.file.take (x.reads.offset x.file.length k) ++ x.memBytes x.start x.length ++
    x.file.drop (x.reads.offset x.file.length k + x.length)

/-- **A run that comes to its end** has hashed the three parts. -/
theorem run_spec (hopen : x.filpOpen = true) (h : taskCalMemFileHash sm3 x fuel = some res) :
    x.kmalloc = true ∧ ∃ k, x.reads.First x.file.length x.fileOffset k ∧
      (x.Granted → res = (0, some (sm3 (x.hashed k)))) := by
  rw [taskCalMemFileHash, hopen, if_neg (by decide)] at h
  cases hkmalloc : x.kmalloc with
  | false =>
      rw [hkmalloc, if_pos rfl] at h
      cases h
  | true =>
      refine ⟨rfl, ?_⟩
      rw [hkmalloc, if_neg (by decide)] at h
      cases hread : x.reads.readTo x.file x.fileOffset fuel 0 0 [] with
      | none =>
          rw [hread] at h
          cases h
      | some out =>
          obtain ⟨k, hfirst, rfl⟩ := @Reads.readTo_eq _ x.reads x.file x.fileOffset fuel 0 out
            (fun j hj => absurd hj (Nat.not_lt_zero j)) hread
          refine ⟨k, hfirst, fun hgranted => ?_⟩
          rw [hread] at h
          dsimp only at h
          rw [hgranted.2.1, hgranted.2.2, if_neg (by decide), gather_mapping] at h
          obtain ⟨ctx, hctx, rfl⟩ := Option.map_eq_some_iff.mp h
          rw [Reads.readAll_eq hctx]
          rfl

/-- **A run comes to its end** when the buffer is granted and the file is long enough. -/
theorem run_ends (hkmalloc : x.kmalloc = true) (hsize : x.fileOffset ≤ x.file.length) :
    ∃ fuel res, taskCalMemFileHash sm3 x fuel = some res := by
  cases hopen : x.filpOpen with
  | false =>
      refine ⟨0, (-enomem, none), ?_⟩
      rw [taskCalMemFileHash, hopen, if_pos rfl]
  | true =>
      refine ⟨x.file.length + 1, ?_⟩
      have hfirst := @Reads.readTo_isSome _ x.reads x.file [] x.fileOffset (x.file.length + 1) 0 0 hsize (by omega)
      obtain ⟨⟨i, o, ctx⟩, hread⟩ := Option.isSome_iff_exists.mp hfirst
      rw [taskCalMemFileHash, hopen, if_neg (by decide), hkmalloc, if_neg (by decide), hread]
      dsimp only
      rcases em (x.kzalloc = false ∨ x.pinned = false) with hno | hgranted
      · rw [if_pos hno]
        exact ⟨_, rfl⟩
      · rw [if_neg hgranted]
        have hlast := @Reads.readAll_isSome _ x.reads x.file
          (ctx ++ gather x.pages (x.start % pageSize) x.length) (x.file.length + 1) i (o + x.length) (by omega)
        obtain ⟨out, hout⟩ := Option.isSome_iff_exists.mp hlast
        rw [hout]
        exact ⟨_, rfl⟩

/-- The three parts are the file, when the mapping fits where the first part stops. -/
theorem hashed_eq_iff (hk : x.reads.First x.file.length x.fileOffset k) : x.hashed k = x.file ↔
    x.reads.offset x.file.length k + x.length ≤ x.file.length ∧
      (x.file.drop (x.reads.offset x.file.length k)).take x.length = (x.file.drop x.fileOffset).take x.length := by
  have hlen := length_memBytes x x.start x.length
  have hstitch := @stitch_iff x.file (x.memBytes x.start x.length) _ (x.reads.offset_le x.file.length k)
  rw [hlen] at hstitch
  rw [Call.hashed, hstitch]
  refine and_congr_right fun hin => ?_
  have hoff := hk.1
  rw [memBytes_eq (by omega), eq_comm]

/-- A hash that is right for every hash function is that of the same bytes. -/
theorem hashed_of_right (h : Right x) (hgranted : x.Granted) (hk : x.reads.First x.file.length x.fileOffset k) :
    x.hashed k = x.file := by
  obtain ⟨fuel, res, hrun, hres⟩ := h fun b => if b = x.file then Digest.ones else Digest.zero
  obtain ⟨-, k', hk', hout⟩ := run_spec hgranted.1 hrun
  obtain rfl := hk.unique hk'
  have hsame := (hout hgranted).symm.trans (hres hgranted).1
  have hdigest := Option.some.inj (Prod.mk.inj hsame).2
  by_contra hne
  rw [if_pos rfl, if_neg hne] at hdigest
  exact absurd hdigest (by decide)

end Parts

/-- **When the hash is that of the file:** **exactly when** the buffer is granted, the file is not shorter than the
offset of the mapping, and the mapping fits where the first reads stop. -/
theorem mem_hash_iff (x : Call) : Right x ↔ Whole x := by
  constructor
  · intro h
    obtain ⟨fuel, res, hrun, -⟩ := h fun _ => Digest.zero
    refine ⟨fun hopen => (run_spec hopen hrun).1, fun hopen => ?_, fun hgranted k hk => ?_⟩
    · obtain ⟨-, k, hk, -⟩ := run_spec hopen hrun
      exact hk.1.trans (x.reads.offset_le _ k)
    · rw [← hashed_eq_iff hk]
      exact hashed_of_right h hgranted hk
  · intro h sm3
    cases hopen : x.filpOpen with
    | false =>
        refine ⟨0, (-enomem, none), ?_, fun hgranted => ?_⟩
        · rw [taskCalMemFileHash, hopen, if_pos rfl]
        · rw [hgranted.1] at hopen
          cases hopen
    | true =>
        obtain ⟨fuel, res, hrun⟩ := @run_ends x sm3 (h.buffer hopen) (h.reached hopen)
        refine ⟨fuel, res, hrun, fun hgranted => ?_⟩
        obtain ⟨-, k, hk, hout⟩ := run_spec hopen hrun
        rw [hout hgranted, (hashed_eq_iff hk).mpr (h.stitched hgranted k hk)]
        exact ⟨rfl, fun short hshort => (digestCal_file sm3 x.file _).symm⟩

/-- A mapping of one page at the start of a file of one byte. -/
def lastPage : Call where
  file := [1]
  short := fun _ => 4096
  short_pos := fun _ => by decide
  start := 0x400000
  length := 4096
  fileOffset := 0
  mem := fun a => if a = 0x400000 then 1 else 0
  filpOpen := true
  kmalloc := true
  kzalloc := true
  pinned := true
  length_int := by decide
  mapped := by
    intro i _
    cases i with
    | zero => rfl
    | succ i =>
        rw [if_neg (by omega), List.getD_eq_default _ _ (by rw [List.length_singleton]; omega)]

/-- A mapping of the second page of a file that is empty now. -/
def truncated : Call where
  file := []
  short := fun _ => 4096
  short_pos := fun _ => by decide
  start := 0x400000
  length := 4096
  fileOffset := 4096
  mem := fun _ => 0
  filpOpen := true
  kmalloc := true
  kzalloc := true
  pinned := true
  length_int := by decide
  mapped := fun _ _ => List.getD_nil.symm

/-- The zeros behind the only byte are hashed, too; and the truncated file is read for ever. -/
theorem zeros_hashed_and_endless_read :
    (lastPage.hashed 0).length = 4096 ∧ ¬ Right lastPage ∧
      ∀ sm3 fuel, taskCalMemFileHash sm3 truncated fuel = none := by
  have hlen : (lastPage.hashed 0).length = 4096 := by
    rw [Call.hashed, List.length_append, List.length_append, length_memBytes]
    rfl
  refine ⟨hlen, fun h => ?_, fun sm3 fuel => ?_⟩
  · have hfirst : lastPage.reads.First lastPage.file.length lastPage.fileOffset 0 :=
      ⟨le_rfl, fun j hj => absurd hj (Nat.not_lt_zero j)⟩
    rw [hashed_of_right h ⟨rfl, rfl, rfl⟩ hfirst] at hlen
    exact absurd hlen (by decide)
  · have hend : truncated.reads.readTo truncated.file truncated.fileOffset fuel 0 0 [] = none :=
      Reads.readTo_eq_none (by decide) (Nat.zero_le _)
    rw [taskCalMemFileHash, if_neg (by decide), if_neg (by decide), hend]

end MemFileHash
end ProcessIdentity
end TsbAgent
