/-
# The file protection policy in four walks

The writer and the reader of `tss-main/tcf/src/tcf_file_protect.c`, its length test
`get_file_protect_date_len`, and the kernel's `load_fac_policy` (`Fac.loadFacPolicy`) walk the
same packed items:

```
 0      1     2          4         260
| flags | type | number  | path    | 292 bytes for each privileged process ...
```

The writer narrows the flags and the type to 8 bits and the number to 16, but writes as many
processes as the number says at full width; and the size of the buffer is an `int`.  All sizes
are multiples of 4, so that `HTTC_ALIGN_SIZE` changes nothing.  `RoundTrips` says that the
four walks agree, and `Fits` when they do (`file_protect_round_trip_iff`).
-/

import TsbAgent.Fac.LoadFac
import TsbAgent.Tcf.Basic

namespace TsbAgent
namespace Tcf

open Libc Word Codec FileIntegrity Tcs Fac

/-- What a writer leaves: the size it asked for, which is `*length` too, and the bytes from the
start of the buffer on. -/
structure PolicyBuffer where
  bufLen : ℤ
  data : Bytes

/-- `struct file_protect_privileged_process_user`. -/
structure PrivilegedProcessUser where
  priviType : UInt32
  path : Option CStr
  hash : Digest

/-- `struct file_protect_item_user`; the array has as many pointers as the number says. -/
structure FileProtectItemUser where
  type : UInt32
  measureFlags : UInt32
  path : Option CStr
  privilegedProcessNum : ℤ
  privilegedProcesses : List (Option PrivilegedProcessUser)
  length_processes : privilegedProcesses.length = privilegedProcessNum.toNat

/-! ### The writer -/

/-- `path_len`. -/
def pathLen (path : CStr) : ℤ := int32 path.strlen

/-- The test of a path.  A `memcpy` of a negative length leaves the buffer. -/
def checkPath : Option CStr → Option Fail
  | none => some (.error .parameter)
  | some path =>
      if pathLen path + 1 > 256 then some (.error .inputExceed)
      else if pathLen path < 0 then some .fault
      else none

/-- The tests of a privileged process. -/
def checkPrivileged : Option PrivilegedProcessUser → Option Fail
  | none => some (.error .parameter)
  | some process => checkPath process.path

/-- `buf_len` after the first loop. -/
def fileProtectBufLen : ℤ → List FileProtectItemUser → ℤ
  | bufLen, [] => bufLen
  | bufLen, x :: xs => fileProtectBufLen (alignInt (int32 (bufLen + 260 + 292 * x.privilegedProcessNum))) xs

/-- The tests of the second loop, from `op` on. -/
def checkFileProtect (bufLen : ℤ) : ℤ → List FileProtectItemUser → Option Fail
  | _, [] => none
  | op, x :: xs =>
      match checkPath x.path with
      | some e => some e
      | none =>
          match x.privilegedProcesses.findSome? checkPrivileged with
          | some e => some e
          | none =>
              let op := alignInt (int32 (op + 260 + 292 * x.privilegedProcesses.length))
              if op > bufLen then some (.error .inputExceed) else checkFileProtect bufLen op xs

/-- A field of 256 bytes. -/
def pathField (path : Option CStr) : Bytes :=
  let path := path.getD CStr.empty
  path.bytes.take (pathLen path).toNat ++ List.replicate (256 - (pathLen path).toNat) 0

/-- `struct file_protect_privileged_process`. -/
def encodePrivileged (process : PrivilegedProcessUser) : Bytes :=
  netBytes 4 process.priviType.toNat ++ (pathField process.path ++ process.hash.1)

/-- `struct file_protect_item`, with all its processes. -/
def encodeFileProtect (x : FileProtectItemUser) : Bytes :=
  [UInt8.ofNat x.measureFlags.toNat, UInt8.ofNat x.type.toNat] ++
    (netBytes 2 (x.privilegedProcessNum % 2 ^ 16).toNat ++ (pathField x.path ++
      pack (fun _ => 0) encodePrivileged (fun _ => 292) 0 (x.privilegedProcesses.filterMap id)))

/-- What an item takes. -/
def FileProtectItemUser.size (x : FileProtectItemUser) : ℕ := 260 + 292 * x.privilegedProcesses.length

/-- `tcf_util_file_protect_policy_serialize`. -/
def tcfUtilFileProtectPolicySerialize (items : List FileProtectItemUser) : Except Fail PolicyBuffer :=
  let bufLen := fileProtectBufLen 0 items
  if bufLen < 0 then .error (.error .nomem)
  else
    match checkFileProtect bufLen 0 items with
    | some e => .error e
    | none => .ok ⟨bufLen, pack (fun _ => 0) encodeFileProtect FileProtectItemUser.size 0 items⟩

/-! ### The readers -/

/-- What is filled in of a privileged process. -/
structure PrivilegedProcess where
  priviType : UInt32
  path : CStr
  hash : Bytes
deriving DecidableEq

/-- What is filled in of an item. -/
structure FileProtectItem where
  type : ℕ
  measureFlags : ℕ
  path : CStr
  privilegedProcessNum : ℤ
  privilegedProcesses : List PrivilegedProcess
deriving DecidableEq

/-- One privileged process of `tcf_util_file_protect_policy_extract`. -/
def readPrivileged (_opt : ℕ) (p : Bytes) : Except Fail (PrivilegedProcess × ℕ) :=
  if p.length < 292 ∨ (0 : UInt8) ∉ p.drop 4 then .error .fault
  else .ok (⟨UInt32.ofNat (netAt p 0 4), CStr.ofBytes (p.drop 4), fieldAt p 260 32⟩, 292)

/-- One item of `tcf_util_file_protect_policy_extract`. -/
def readFileProtect (length : ℤ) (op : ℕ) (p : Bytes) : Except Fail (FileProtectItem × ℕ) :=
  if p.length < 260 ∨ (0 : UInt8) ∉ p.drop 4 then .error .fault
  else
    match unpack readPrivileged (netAt p 2 2) 0 (p.drop 260) with
    | .error e => .error e
    | .ok processes =>
        let size := align4 (260 + 292 * netAt p 2 2)
        if (op + size : ℕ) > length then .error (.error .outputExceed)
        else
          .ok ({
            type := (p.getD 1 0).toNat
            measureFlags := (p.getD 0 0).toNat
            path := CStr.ofBytes (p.drop 4)
            privilegedProcessNum := netAt p 2 2
            privilegedProcesses := processes }, size)

/-- `tcf_util_file_protect_policy_extract`. -/
def tcfUtilFileProtectPolicyExtract (items : Bytes) (length : ℤ) (num : ℕ) : Except Fail (List FileProtectItem) :=
  unpack (readFileProtect length) num 0 items

/-- `get_file_protect_date_len`. -/
def getFileProtectDateLen (m : Mem) (items : ℕ) (itemsNum : UInt32) : UInt32 :=
  itemsSize fileProtectItemSize m items itemsNum

/-! ### What is to be read back -/

/-- Of a privileged process. -/
def PrivilegedProcessUser.view (process : PrivilegedProcessUser) : PrivilegedProcess :=
  ⟨process.priviType, process.path.getD CStr.empty, process.hash.1⟩

/-- Of an item. -/
def FileProtectItemUser.view (x : FileProtectItemUser) : FileProtectItem where
  type := x.type.toNat
  measureFlags := x.measureFlags.toNat
  path := x.path.getD CStr.empty
  privilegedProcessNum := x.privilegedProcessNum
  privilegedProcesses := (x.privilegedProcesses.filterMap id).map PrivilegedProcessUser.view

/-- A privileged process, for the kernel. -/
def PrivilegedProcessUser.dac (process : PrivilegedProcessUser) : DacPolicy :=
  ⟨process.priviType, process.hash, process.path.getD CStr.empty⟩

/-- An item, for the kernel. -/
def FileProtectItemUser.mac (x : FileProtectItemUser) : MacPolicy where
  measureFlags := UInt8.ofNat x.measureFlags.toNat
  type := UInt8.ofNat x.type.toNat
  privilegedProcessNum := UInt16.ofNat x.privilegedProcessNum.toNat
  objName := x.path.getD CStr.empty
  listDac := (x.privilegedProcesses.filterMap id).map PrivilegedProcessUser.dac

/-- **The four walks agree:** the items are written inside the buffer, the length test comes to
the length, the items are extracted again, and the kernel installs them (all of them, when no
path comes twice), from a file with these data behind any header of 8 bytes. -/
structure FileProtectRoundTrips (items : List FileProtectItemUser) (u : PolicyBuffer) : Prop where
  written : (u.data.length : ℤ) = u.bufLen
  tested : ∀ m p, Holds m p u.data →
    ((getFileProtectDateLen m p (UInt32.ofNat items.length)).toNat : ℤ) = u.bufLen
  extracted : tcfUtilFileProtectPolicyExtract u.data u.bufLen items.length =
    .ok (items.map FileProtectItemUser.view)
  loaded : ∀ header : Bytes, header.length = 8 →
    loadFacPolicy (header ++ u.data) = some (installAll [] (items.map FileProtectItemUser.mac))
  loadedAll : (items.map fun x => x.path.getD CStr.empty).Nodup → ∀ header : Bytes, header.length = 8 →
    loadFacPolicy (header ++ u.data) = some (items.map FileProtectItemUser.mac)

/-- A path whose length is an `int`. -/
def ShortPath (path : Option CStr) : Prop := (path.getD CStr.empty).strlen < 2 ^ 31

/-- The numbers of an item fit in their fields. -/
structure FileProtectItemUser.Fits (x : FileProtectItemUser) : Prop where
  type : x.type.toNat < 256
  measureFlags : x.measureFlags.toNat < 256
  num : 0 ≤ x.privilegedProcessNum
  num_lt : x.privilegedProcessNum < 2 ^ 16
  path : ShortPath x.path
  paths : ∀ process, some process ∈ x.privilegedProcesses → ShortPath process.path

/-- **The condition:** the numbers of every item fit in their fields, and the size of the list is
an `int`. -/
structure FileProtectFits (items : List FileProtectItemUser) : Prop where
  each : ∀ x ∈ items, x.Fits
  size : (items.map FileProtectItemUser.size).sum < 2 ^ 31

section Paths

variable {path : Option CStr} {tail : Bytes}

/-- A path that passes the test. -/
def PathOk (path : Option CStr) : Prop :=
  ∃ name, path = some name ∧ 0 ≤ pathLen name ∧ pathLen name ≤ 255

theorem pathOk_of_check (h : checkPath path = none) : PathOk path := by
  cases path with
  | none => exact absurd h (by simp [checkPath])
  | some name =>
      rw [checkPath] at h
      split_ifs at h with hlong hneg
      exact ⟨name, rfl, by omega, by omega⟩

/-- Only a long path makes `memcpy` leave the buffer. -/
theorem long_of_checkPath (h : checkPath path = some .fault) : ¬ ShortPath path := by
  cases path with
  | none => exact absurd h (by simp [checkPath])
  | some name =>
      rw [checkPath] at h
      split_ifs at h with hlong hneg
      · exact absurd h (by simp)
      · intro hshort
        rw [ShortPath, Option.getD_some] at hshort
        rw [pathLen, int32_eq (by omega) (by omega)] at hneg
        omega

theorem pathLen_le (name : CStr) : (pathLen name).toNat ≤ name.strlen := by
  rw [pathLen, int32, Int.bmod_def]
  omega

theorem PathOk.length (h : PathOk path) : (pathField path).length = 256 := by
  obtain ⟨name, rfl, hpos, hle⟩ := h
  have hlen := pathLen_le name
  rw [CStr.strlen] at hlen
  rw [pathField, Option.getD_some]
  simp only [List.length_append, List.length_take, List.length_replicate]
  omega

/-- **A path ends in its field,** and is what stands there. -/
theorem PathOk.field (h : PathOk path) (hshort : ShortPath path) :
    ∃ k, pathField path = (path.getD CStr.empty).bytes ++ 0 :: List.replicate k 0 := by
  obtain ⟨name, rfl, hpos, hle⟩ := h
  rw [ShortPath, Option.getD_some] at hshort
  have hlen : (pathLen name).toNat = name.strlen := by
    rw [pathLen, int32_eq (by omega) (by omega), Int.toNat_natCast]
  have htake : name.bytes.take name.strlen = name.bytes := List.take_of_length_le le_rfl
  refine ⟨255 - name.strlen, ?_⟩
  have hsub : 256 - name.strlen = 255 - name.strlen + 1 := by omega
  rw [pathField, Option.getD_some, hlen, htake, hsub, List.replicate_succ]

theorem PathOk.read (h : PathOk path) (hshort : ShortPath path) (tail : Bytes) :
    CStr.ofBytes (pathField path ++ tail) = path.getD CStr.empty ∧ (0 : UInt8) ∈ pathField path ++ tail := by
  obtain ⟨k, hk⟩ := h.field hshort
  rw [hk, List.append_assoc, List.cons_append, CStr.ofBytes_terminated]
  simp

end Paths

section Privileged

variable {process : PrivilegedProcessUser} {len : ℕ}

theorem length_encodePrivileged (h : PathOk process.path) : (encodePrivileged process).length = 292 := by
  have hhash : process.hash.1.length = 32 := process.hash.2
  rw [encodePrivileged]
  simp only [List.length_append, length_netBytes, h.length, hhash]

/-- **A privileged process reads back.** -/
theorem readsBack_encodePrivileged (h : PathOk process.path) (hshort : ShortPath process.path) :
    ReadsBack readPrivileged len encodePrivileged (fun _ => 292) PrivilegedProcessUser.view process := by
  intro op pad tail _ _
  have hlength := length_encodePrivileged h
  have hhash : process.hash.1.length = 32 := process.hash.2
  obtain ⟨hread, hzero⟩ := h.read hshort (process.hash.1 ++ (pad ++ tail))
  have hshape : encodePrivileged process ++ (pad ++ tail) =
      netBytes 4 process.priviType.toNat ++ (pathField process.path ++ (process.hash.1 ++ (pad ++ tail))) := by
    simp only [encodePrivileged, List.append_assoc]
  have hdrop : (encodePrivileged process ++ (pad ++ tail)).drop 4 =
      pathField process.path ++ (process.hash.1 ++ (pad ++ tail)) := by
    rw [hshape]
    exact List.drop_left' (length_netBytes _ _)
  have hfield : fieldAt (encodePrivileged process ++ (pad ++ tail)) 260 32 = process.hash.1 := by
    rw [hshape, ← List.append_assoc]
    exact fieldAt_append (by simp [h.length]) hhash
  have htype : UInt32.ofNat (netAt (encodePrivileged process ++ (pad ++ tail)) 0 4) = process.priviType := by
    have hlt : process.priviType.toNat < 256 ^ 4 := process.priviType.toNat_lt
    rw [hshape, netAt_head, Nat.mod_eq_of_lt hlt, UInt32.ofNat_toNat]
  have hfits : ¬ ((encodePrivileged process ++ (pad ++ tail)).length < 292 ∨
      (0 : UInt8) ∉ (encodePrivileged process ++ (pad ++ tail)).drop 4) := by
    rw [hdrop, List.length_append]
    simp only [hzero, not_true_eq_false, or_false]
    omega
  rw [readPrivileged, if_neg hfits, htype, hdrop, hread, hfield]
  rfl

end Privileged

section Items

variable {x : FileProtectItemUser} {items : List FileProtectItemUser} {len : ℕ}

/-- What the writer demands of an item. -/
structure ProtectAccepted (x : FileProtectItemUser) : Prop where
  path : PathOk x.path
  processes : ∀ p ∈ x.privilegedProcesses, ∃ process, p = some process ∧ PathOk process.path

theorem accepted_of_checkFileProtect {bufLen op : ℤ} (h : checkFileProtect bufLen op items = none) :
    ∀ x ∈ items, ProtectAccepted x := by
  induction items generalizing op with
  | nil => nofun
  | cons x items ih =>
      rw [checkFileProtect] at h
      split at h
      · exact absurd h (by simp)
      · rename_i hpath
        split at h
        · exact absurd h (by simp)
        · rename_i hprocesses
          dsimp only at h
          split_ifs at h with hend
          refine List.forall_mem_cons.mpr ⟨⟨pathOk_of_check hpath, fun p hp => ?_⟩, ih h⟩
          have hcheck := List.findSome?_eq_none_iff.mp hprocesses p hp
          cases p with
          | none => exact absurd hcheck (by simp [checkPrivileged])
          | some process => exact ⟨process, rfl, pathOk_of_check hcheck⟩

/-- What faults is an item with a long path. -/
theorem long_of_checkFileProtect {bufLen op : ℤ} (h : checkFileProtect bufLen op items = some .fault) :
    ∃ x ∈ items, ¬ x.Fits := by
  induction items generalizing op with
  | nil => exact absurd h (by simp [checkFileProtect])
  | cons x items ih =>
      rw [checkFileProtect] at h
      split at h
      · rename_i e hpath
        obtain rfl := Option.some.inj h
        exact ⟨x, List.mem_cons_self, fun hx => long_of_checkPath hpath hx.path⟩
      · split at h
        · rename_i e hprocesses
          obtain rfl := Option.some.inj h
          obtain ⟨p, hp, hcheck⟩ := List.exists_of_findSome?_eq_some hprocesses
          cases p with
          | none => exact absurd hcheck (by simp [checkPrivileged])
          | some process =>
              exact ⟨x, List.mem_cons_self, fun hx => long_of_checkPath hcheck (hx.paths process hp)⟩
        · dsimp only at h
          split_ifs at h with hend
          · exact absurd h (by simp)
          · obtain ⟨y, hy, hfits⟩ := ih h
            exact ⟨y, List.mem_cons_of_mem _ hy, hfits⟩

theorem ProtectAccepted.mem (h : ProtectAccepted x) {process : PrivilegedProcessUser}
    (hp : process ∈ x.privilegedProcesses.filterMap id) :
    PathOk process.path ∧ some process ∈ x.privilegedProcesses := by
  obtain ⟨p, hmem, heq⟩ := List.mem_filterMap.mp hp
  obtain ⟨process', rfl, hok⟩ := h.processes p hmem
  obtain rfl : process' = process := Option.some.inj heq
  exact ⟨hok, hmem⟩

theorem ProtectAccepted.length_processes (h : ProtectAccepted x) :
    (x.privilegedProcesses.filterMap id).length = x.privilegedProcesses.length := by
  rw [List.length_filterMap_eq_countP, List.countP_eq_length]
  intro p hp
  obtain ⟨process, rfl, -⟩ := h.processes p hp
  rfl

theorem ProtectAccepted.length_encode (h : ProtectAccepted x) : (encodeFileProtect x).length = x.size := by
  have hprocesses := @length_pack_const _ (fun _ => 0) encodePrivileged 0 (x.privilegedProcesses.filterMap id)
    292 fun process hp => (length_encodePrivileged (h.mem hp).1).le
  rw [encodeFileProtect, FileProtectItemUser.size]
  simp only [List.length_append, List.length_cons, List.length_nil, length_netBytes, h.path.length, hprocesses,
    h.length_processes]
  omega

/-- The item and what follows it, field by field. -/
theorem encodeFileProtect_append (x : FileProtectItemUser) (r : Bytes) :
    encodeFileProtect x ++ r = [UInt8.ofNat x.measureFlags.toNat, UInt8.ofNat x.type.toNat] ++
      (netBytes 2 (x.privilegedProcessNum % 2 ^ 16).toNat ++ (pathField x.path ++
        (pack (fun _ => 0) encodePrivileged (fun _ => 292) 0 (x.privilegedProcesses.filterMap id) ++ r))) := by
  simp only [encodeFileProtect, List.append_assoc]

theorem ProtectAccepted.fields (h : ProtectAccepted x) (hx : x.Fits) (r : Bytes) :
    (encodeFileProtect x ++ r).getD 0 0 = UInt8.ofNat x.measureFlags.toNat ∧
      (encodeFileProtect x ++ r).getD 1 0 = UInt8.ofNat x.type.toNat ∧
      netAt (encodeFileProtect x ++ r) 2 2 = x.privilegedProcesses.length ∧
      (encodeFileProtect x ++ r).drop 260 =
        pack (fun _ => 0) encodePrivileged (fun _ => 292) 0 (x.privilegedProcesses.filterMap id) ++ r := by
  have hpos := hx.num
  have hlt := hx.num_lt
  have hnum : (x.privilegedProcessNum % 2 ^ 16).toNat = x.privilegedProcesses.length := by
    rw [Int.emod_eq_of_lt hpos hlt, x.length_processes]
  have hlen : x.privilegedProcesses.length < 256 ^ 2 := by
    rw [x.length_processes]
    omega
  rw [encodeFileProtect_append, hnum]
  refine ⟨rfl, rfl, ?_, ?_⟩
  · rw [netAt, fieldAt_skip (k := 2) rfl, ← netAt, netAt_head, Nat.mod_eq_of_lt hlen]
  · rw [← List.append_assoc, ← List.append_assoc]
    exact List.drop_left' (by simp [h.path.length])

/-- The path behind the fixed part. -/
theorem ProtectAccepted.path_read (h : ProtectAccepted x) (hx : x.Fits) (r : Bytes) :
    CStr.ofBytes ((encodeFileProtect x ++ r).drop 4) = x.path.getD CStr.empty ∧
      (0 : UInt8) ∈ (encodeFileProtect x ++ r).drop 4 ∧
      CStr.ofBytes (fieldAt (encodeFileProtect x ++ r) 4 256) = x.path.getD CStr.empty := by
  have hdrop : (encodeFileProtect x ++ r).drop 4 = pathField x.path ++
      (pack (fun _ => 0) encodePrivileged (fun _ => 292) 0 (x.privilegedProcesses.filterMap id) ++ r) := by
    rw [encodeFileProtect_append, ← List.append_assoc]
    exact List.drop_left' (by simp)
  have hfield : fieldAt (encodeFileProtect x ++ r) 4 256 = pathField x.path ++ [] := by
    rw [fieldAt, hdrop, List.take_left' h.path.length, List.append_nil]
  rw [hfield, hdrop]
  obtain ⟨hread, hzero⟩ := h.path.read hx.path
    (pack (fun _ => 0) encodePrivileged (fun _ => 292) 0 (x.privilegedProcesses.filterMap id) ++ r)
  exact ⟨hread, hzero, (h.path.read hx.path []).1⟩

theorem FileProtectItemUser.Fits.toNat (hx : x.Fits) :
    (UInt8.ofNat x.measureFlags.toNat).toNat = x.measureFlags.toNat ∧
      (UInt8.ofNat x.type.toNat).toNat = x.type.toNat := by
  have hflags := hx.measureFlags
  have htype := hx.type
  rw [UInt8.toNat_ofNat', UInt8.toNat_ofNat']
  omega

/-- **An item that fits is extracted again.** -/
theorem ProtectAccepted.readsBack (h : ProtectAccepted x) (hx : x.Fits) :
    ReadsBack (readFileProtect len) len encodeFileProtect FileProtectItemUser.size FileProtectItemUser.view x := by
  intro op pad tail hop _
  obtain ⟨f0, f1, f2, hdrop⟩ := h.fields hx (pad ++ tail)
  obtain ⟨hpath, hzero, -⟩ := h.path_read hx (pad ++ tail)
  obtain ⟨hflags, htype⟩ := hx.toNat
  have hlength := h.length_encode
  have hfits : ¬ ((encodeFileProtect x ++ (pad ++ tail)).length < 260 ∨
      (0 : UInt8) ∉ (encodeFileProtect x ++ (pad ++ tail)).drop 4) := by
    rw [List.length_append, hlength, FileProtectItemUser.size]
    simp only [hzero, not_true_eq_false, or_false]
    omega
  have hprocesses := @unpack_pack _ _ _ (fun _ => 0) _ _ 0 0
    (292 * (x.privilegedProcesses.filterMap id).length) _ (pad ++ tail) readPrivileged _
    (fun process hp => (length_encodePrivileged (h.mem hp).1).le)
    (fun process hp => readsBack_encodePrivileged (h.mem hp).1 (hx.paths process (h.mem hp).2))
    (by simp [Nat.mul_comm])
  rw [h.length_processes] at hprocesses
  have hsize : align4 (260 + 292 * x.privilegedProcesses.length) = x.size := by
    rw [FileProtectItemUser.size, align4, if_pos (by omega)]
  have hnum : (x.privilegedProcesses.length : ℤ) = x.privilegedProcessNum := by
    rw [x.length_processes, Int.toNat_of_nonneg hx.num]
  rw [readFileProtect, if_neg hfits, f2, hdrop, hprocesses]
  dsimp only
  rw [hsize, if_neg (by omega), f0, f1, hpath, hflags, htype, hnum]
  rfl

/-- What the length test takes an item for. -/
theorem ProtectAccepted.fileProtectItemSize (h : ProtectAccepted x) (hx : x.Fits) {m : Mem} {q : ℕ}
    (hm : Holds m q (encodeFileProtect x)) : (Tcs.fileProtectItemSize m q).toNat = x.size := by
  obtain ⟨-, -, f2, -⟩ := h.fields hx []
  rw [List.append_nil] at f2
  have hlength := h.length_encode
  rw [FileProtectItemUser.size] at hlength
  have hnum : (m.ntohs (q + 2)).toNat = x.privilegedProcesses.length := by rw [hm.ntohs (by omega), f2]
  have hlt : x.privilegedProcesses.length < 2 ^ 16 := by
    have := hx.num_lt
    rw [x.length_processes]
    omega
  have h260 : (260 : UInt32).toNat = 260 := rfl
  have h292 : (292 : UInt32).toNat = 292 := rfl
  rw [Tcs.fileProtectItemSize, UInt32.toNat_add, UInt32.toNat_mul, hnum, h260, h292, FileProtectItemUser.size]
  omega

end Items

section Kernel

variable {x : FileProtectItemUser}

theorem digestAt_append {a c : Bytes} {d : Digest} {off : ℕ} (ha : a.length = off) :
    digestAt (a ++ (d.1 ++ c)) off = d := by
  apply Subtype.ext
  have hfield : fieldAt (a ++ (d.1 ++ c)) off lenHash = d.1 := fieldAt_append ha d.2
  show (fieldAt (a ++ (d.1 ++ c)) off lenHash ++ List.replicate lenHash 0).take lenHash = d.1
  rw [hfield]
  exact List.take_left' d.2

theorem loadDac_encode {process : PrivilegedProcessUser} (h : PathOk process.path)
    (hshort : ShortPath process.path) (r : Bytes) : loadDac (encodePrivileged process ++ r) = process.dac := by
  have hlt : process.priviType.toNat < 256 ^ 4 := process.priviType.toNat_lt
  have hshape : encodePrivileged process ++ r =
      netBytes 4 process.priviType.toNat ++ (pathField process.path ++ (process.hash.1 ++ r)) := by
    simp only [encodePrivileged, List.append_assoc]
  have htype : UInt32.ofNat (netAt (encodePrivileged process ++ r) 0 4) = process.priviType := by
    rw [hshape, netAt_head, Nat.mod_eq_of_lt hlt, UInt32.ofNat_toNat]
  have hhash : digestAt (encodePrivileged process ++ r) 260 = process.hash := by
    rw [hshape, ← List.append_assoc]
    exact digestAt_append (by simp [h.length])
  have hpath : CStr.ofBytes (fieldAt (encodePrivileged process ++ r) 4 256) = process.path.getD CStr.empty := by
    have hread := (h.read hshort []).1
    rw [List.append_nil] at hread
    rw [hshape, fieldAt_append (length_netBytes _ _) h.length, hread]
  rw [loadDac, htype, hhash, hpath]
  rfl

theorem loadDacs_encode {processes : List PrivilegedProcessUser}
    (h : ∀ process ∈ processes, PathOk process.path ∧ ShortPath process.path) (r : Bytes) :
    loadDacs processes.length (processes.flatMap encodePrivileged ++ r) =
      processes.map PrivilegedProcessUser.dac := by
  induction processes with
  | nil => rfl
  | cons process processes ih =>
      obtain ⟨hp, hps⟩ := List.forall_mem_cons.mp h
      have hdrop : (encodePrivileged process ++ (processes.flatMap encodePrivileged ++ r)).drop 292 =
          processes.flatMap encodePrivileged ++ r := List.drop_left' (length_encodePrivileged hp.1)
      rw [List.flatMap_cons, List.length_cons, loadDacs, List.append_assoc, loadDac_encode hp.1 hp.2, hdrop,
        ih hps, List.map_cons]

/-- **The kernel reads an item that fits as the user meant it.** -/
theorem ProtectAccepted.encodes (h : ProtectAccepted x) (hx : x.Fits) : Encodes (encodeFileProtect x) x.mac := by
  have hlength := h.length_encode
  rw [FileProtectItemUser.size] at hlength
  refine ⟨by omega, fun tail => ?_, fun tail => (h.path_read hx tail).1, fun tail => ?_⟩
  · obtain ⟨-, -, f2, -⟩ := h.fields hx tail
    rw [macStride, f2, hlength, Nat.mul_comm]
  · obtain ⟨f0, f1, f2, hdrop⟩ := h.fields hx tail
    obtain ⟨-, -, hpath⟩ := h.path_read hx tail
    have hexact := @pack_eq_flatMap _ (fun _ => 0) encodePrivileged (fun _ => 292) 0
      (x.privilegedProcesses.filterMap id) fun process hp => length_encodePrivileged (h.mem hp).1
    have hdacs := loadDacs_encode (fun process hp => ⟨(h.mem hp).1, hx.paths process (h.mem hp).2⟩) tail
    rw [h.length_processes] at hdacs
    rw [loadMac, f0, f1, f2, hdrop, hpath, hexact, hdacs, x.length_processes]
    rfl

end Kernel

section Whole

variable {items : List FileProtectItemUser} {bufLen : ℤ}

theorem fileProtectBufLen_lt (h : bufLen < 2 ^ 31) : fileProtectBufLen bufLen items < 2 ^ 31 := by
  induction items generalizing bufLen with
  | nil => exact h
  | cons x items ih => exact ih (int32_lt _)

/-- The size of the buffer is that of the items. -/
theorem fileProtectBufLen_eq {n : ℕ} (hn : 4 ∣ n) (hnum : ∀ x ∈ items, 0 ≤ x.privilegedProcessNum)
    (h : n + (items.map FileProtectItemUser.size).sum < 2 ^ 31) :
    fileProtectBufLen n items = (n + (items.map FileProtectItemUser.size).sum : ℕ) := by
  induction items generalizing n with
  | nil => rfl
  | cons x items ih =>
      obtain ⟨hx, hxs⟩ := List.forall_mem_cons.mp hnum
      rw [List.map_cons, List.sum_cons] at h ⊢
      have hsize : (n : ℤ) + 260 + 292 * x.privilegedProcessNum = (n + x.size : ℕ) := by
        rw [FileProtectItemUser.size, x.length_processes]
        omega
      have hdvd : 4 ∣ n + x.size := by
        rw [FileProtectItemUser.size]
        omega
      have hint : int32 (n + x.size : ℕ) = (n + x.size : ℕ) := int32_eq (by omega) (by omega)
      rw [fileProtectBufLen.eq_def]
      dsimp only
      rw [hsize, hint, alignInt_of_dvd (by omega), hint, ih hdvd hxs (by omega),
        Nat.add_assoc]

/-- What every item that was read has. -/
theorem fits_of_readFileProtect {length : ℤ} {op s : ℕ} {p : Bytes} {y : FileProtectItem}
    (hp : p.length < 2 ^ 31) (h : readFileProtect length op p = .ok (y, s)) :
    y.type < 256 ∧ y.measureFlags < 256 ∧ 0 ≤ y.privilegedProcessNum ∧ y.privilegedProcessNum < 2 ^ 16 ∧
      y.path.strlen < 2 ^ 31 ∧ ∀ process ∈ y.privilegedProcesses, process.path.strlen < 2 ^ 31 := by
  have hshort (q : Bytes) (hq : q.length < 2 ^ 31) : (CStr.ofBytes q).strlen < 2 ^ 31 :=
    lt_of_le_of_lt (List.takeWhile_prefix _).length_le hq
  unfold readFileProtect at h
  split_ifs at h with h0
  split at h
  · exact absurd h (by simp)
  · rename_i processes hprocesses
    dsimp only at h
    split_ifs at h with h1
    obtain ⟨rfl, -⟩ := Prod.mk.inj (Except.ok.inj h)
    have hnum : netAt p 2 2 < 65536 := netAt_lt p 2 2
    refine ⟨UInt8.toNat_lt _, UInt8.toNat_lt _, Int.natCast_nonneg _, ?_, ?_, ?_⟩
    · dsimp only
      omega
    · refine hshort _ ?_
      rw [List.length_drop]
      omega
    · refine unpack_forall (fun opt p' process s hp' hread => ?_) hprocesses
      unfold readPrivileged at hread
      split_ifs at hread with h2
      obtain ⟨rfl, -⟩ := Prod.mk.inj (Except.ok.inj hread)
      refine hshort _ ?_
      rw [List.length_drop] at hp' ⊢
      omega

/-- **The four walks agree exactly when the numbers fit in their fields** and the size in an `int`. -/
theorem file_protect_agree_iff (hall : ∀ x ∈ items, ProtectAccepted x) :
    FileProtectRoundTrips items
        ⟨fileProtectBufLen 0 items, pack (fun _ => 0) encodeFileProtect FileProtectItemUser.size 0 items⟩ ↔
      FileProtectFits items := by
  have hlength := @length_pack _ (fun _ => 0) _ _ 0 _ fun x hx => (hall x hx).length_encode.le
  constructor
  · intro h
    have hwritten := h.written
    dsimp only at hwritten
    have hlt := @fileProtectBufLen_lt items 0 (by decide)
    have hshort : (pack (fun _ => 0) encodeFileProtect FileProtectItemUser.size 0 items).length < 2 ^ 31 := by
      omega
    have hfields := unpack_forall
      (fun op p' y s hp' hread => fits_of_readFileProtect (lt_of_le_of_lt hp' hshort) hread) h.extracted
    refine ⟨fun x hx => ?_, by omega⟩
    obtain ⟨htype, hflags, hpos, hnum, hpath, hpaths⟩ := hfields x.view (List.mem_map_of_mem hx)
    refine ⟨htype, hflags, hpos, hnum, hpath, fun process hp => ?_⟩
    exact hpaths process.view (List.mem_map_of_mem (List.mem_filterMap.mpr ⟨_, hp, rfl⟩))
  · rintro ⟨hfits, hsize⟩
    have hbuf : fileProtectBufLen 0 items = ((items.map FileProtectItemUser.size).sum : ℕ) := by
      have hbuf := @fileProtectBufLen_eq items 0 (by decide) (fun x hx => (hfits x hx).num) (by omega)
      rwa [Nat.zero_add] at hbuf
    have hcount : 260 * items.length ≤ (items.map FileProtectItemUser.size).sum :=
      mul_length_le_sum fun x _ => Nat.le_add_right _ _
    have hexact := @pack_eq_flatMap _ (fun _ => 0) encodeFileProtect FileProtectItemUser.size 0 items
      fun x hx => (hall x hx).length_encode
    have hloaded : ∀ header : Bytes, header.length = 8 →
        loadFacPolicy (header ++ pack (fun _ => 0) encodeFileProtect FileProtectItemUser.size 0 items) =
          some (installAll [] (items.map FileProtectItemUser.mac)) := by
      intro header hheader
      rw [loadFacPolicy, List.drop_left' hheader, List.length_append, hlength, hexact]
      exact facWalk_encodings (fun x hx => (hall x hx).encodes (hfits x hx)) (by omega)
    refine ⟨?_, fun m p hm => ?_, ?_, hloaded, fun hnodup header hheader => ?_⟩
    · dsimp only
      rw [hlength, hbuf]
    · have hsum := itemsSize_pack (fun x hx => (hall x hx).length_encode.le)
        (fun x hx q hq => (hall x hx).fileProtectItemSize (hfits x hx) hq) hm (by omega) (by omega)
      dsimp only
      rw [getFileProtectDateLen, hsum, hbuf]
    · have hread := @unpack_pack _ _ _ (fun _ => 0) _ _ 0 0 _ _ [] _ _
        (fun x hx => (hall x hx).length_encode.le) (fun x hx => (hall x hx).readsBack (hfits x hx))
        (by rw [Nat.zero_add])
      rw [List.append_nil] at hread
      dsimp only
      rw [hbuf]
      exact hread
    · have hall' := @installAll_of_nodup [] (items.map FileProtectItemUser.mac)
        (by rw [List.map_map]; exact hnodup) (fun _ _ _ h => nomatch h)
      dsimp only
      rw [hloaded header hheader, hall', List.nil_append]

end Whole

end Tcf
end TsbAgent
