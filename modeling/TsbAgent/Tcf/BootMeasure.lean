/-
# The boot reference list

`tss-main/tcf/src/tcf_bmeasure.c`: `tcf_prepare_update_boot_measure_references` packs a list
of references into an update and `tcf_get_boot_measure_references` reads the list again.
Between the two stands the validator `tcs_util_check_boot_references_update`, which adds the
sizes of the items up.  The three have a formula each for the size of an item of `h` bytes of
hashes, `e` of extend data and `n` of name:

| | size |
| --- | --- |
| writer | `12 + h + align(e + n)` |
| reader, validator | `align(12 + h + n + e)` |

They agree because `h` is a multiple of 32.  The writer compares the place of the end of an
item, an `int`, with a `size_t`, so a list that does not fit in an `int` is refused:
`boot_references_round_trip` needs no bound.  All memory that is asked for is granted.
-/

import TsbAgent.Tcf.Basic

namespace TsbAgent
namespace Tcf

open Libc Word Codec Records Tcs FileIntegrity

/-- `MAX_BOOT_REFERENCE_ITEM_SIZE`. -/
def maxBootReferenceItemSize : ℕ := 12 + 32 * 8 + 255 + 4096

/-- `struct boot_ref_item_user`: a pointer that is not null has the bytes that its numbers
say. -/
structure BootRefItemUser where
  hashLength : ℤ
  hashNumber : ℤ
  stage : ℤ
  isControl : ℤ
  isEnable : ℤ
  hash : Option Bytes
  name : Option CStr
  extendSize : ℤ
  extendBuffer : Option Bytes
  length_hash : ∀ b, hash = some b → b.length = (hashLength * hashNumber).toNat
  length_extend : ∀ b, extendBuffer = some b → b.length = extendSize.toNat

/-- `strlen(name) + 1`. -/
def BootRefItemUser.nameLength (x : BootRefItemUser) : ℕ := (x.name.getD CStr.empty).strlen + 1

/-- `hash_length * hash_number`. -/
def BootRefItemUser.hashTotalLength (x : BootRefItemUser) : ℕ := (x.hashLength * x.hashNumber).toNat

/-- The writer's `item_size`. -/
def BootRefItemUser.itemSize (x : BootRefItemUser) : ℕ :=
  12 + x.hashTotalLength + align4 (x.extendSize.toNat + x.nameLength)

/-- The checks of an item before its size is known. -/
def checkBootRef (x : BootRefItemUser) : Option TcfErr :=
  if x.name.isNone || x.hash.isNone then some .parameter
  else if x.hashNumber < 0 ∨ x.hashNumber > 8 then some .parameter
  else if x.hashLength ≠ 32 then some .parameter
  else if x.extendSize ≠ 0 ∧ x.extendBuffer.isNone then some .parameter
  else if x.extendBuffer.isSome ∧ (x.extendSize ≤ 0 ∨ x.extendSize > 255) then some .parameter
  else if x.nameLength > maxPathLength then some .parameter
  else none

/-- The checks of an item that come later. -/
def checkBootFlags (x : BootRefItemUser) : Option TcfErr :=
  if ¬ isBoolValueLegal x.isEnable then some .parameter
  else if ¬ isBoolValueLegal x.isControl then some .parameter
  else if x.stage < 0 ∨ x.stage > 65535 then some .parameter
  else none

/-- `be_flags`. -/
def bootFlags (x : BootRefItemUser) : ℕ := x.isEnable.toNat ||| x.isControl.toNat <<< 1

/-- The bytes of an item, without what fills it up. -/
def encodeBootRef (x : BootRefItemUser) : Bytes :=
  netBytes 2 x.hashLength.toNat ++ (netBytes 2 (bootFlags x) ++ (netBytes 2 x.nameLength ++
    (netBytes 2 x.hashNumber.toNat ++ (netBytes 2 x.stage.toNat ++ (netBytes 2 x.extendSize.toNat ++
      (x.hash.getD [] ++ (x.extendBuffer.getD [] ++ ((x.name.getD CStr.empty).bytes ++ [0]))))))))

/-- The loop over the items, from `ref_opt` on. -/
def prepareBootRefs (num : ℕ) : ℕ → List BootRefItemUser → Option TcfErr
  | _, [] => none
  | refOpt, x :: xs =>
      match checkBootRef x with
      | some e => some e
      | none =>
          if sizeT (int32 (refOpt + x.itemSize : ℕ)) > maxBootReferenceItemSize * num then some .parameter
          else
            match checkBootFlags x with
            | some e => some e
            | none => prepareBootRefs num (refOpt + x.itemSize) xs

/-- `struct boot_references_update`. -/
structure BootReferencesUpdate where
  size : ℕ
  action : ℤ
  replayCounter : UInt64
  itemNumber : UInt32
  dataLength : UInt32
  tpcmId : Bytes
  data : Bytes

/-- `tcf_prepare_update_boot_measure_references`. -/
def tcfPrepareUpdateBootMeasureReferences (references : List BootRefItemUser) (tpcmId : Bytes)
    (action : ℤ) (replayCounter : UInt64) : Except TcfErr BootReferencesUpdate :=
  if tpcmId.length > FileIntegrity.maxTpcmIdSize then .error .inputExceed
  else
    match prepareBootRefs references.length 0 references with
    | some e => .error e
    | none =>
        .ok
          { size := 56
            action := action
            replayCounter := replayCounter
            itemNumber := UInt32.ofNat references.length
            dataLength := UInt32.ofNat (references.map BootRefItemUser.itemSize).sum
            tpcmId := tpcmId
            data := pack (fun _ => 0) encodeBootRef BootRefItemUser.itemSize 0 references }

/-- What `tcf_get_boot_measure_references` fills in. -/
structure BootRef where
  hashLength : ℤ
  hashNumber : ℤ
  stage : ℤ
  isControl : ℤ
  isEnable : ℤ
  extendSize : ℤ
  hash : Bytes
  extendBuffer : Bytes
  name : CStr

/-- The reader's `hash_total_length`. -/
def readHashTotalLength (p : Bytes) : ℤ := int32 (netAt p 0 2 * netAt p 6 2 : ℕ)

/-- The bytes after the fields of the item. -/
def readDataLength (p : Bytes) : ℤ := readHashTotalLength p + netAt p 4 2 + netAt p 10 2

/-- The reader's `item_size`. -/
def readItemSize (p : Bytes) : ℤ := int32 (align4 (sizeT (12 + readDataLength p)))

/-- One round of `tcf_get_boot_measure_references`. -/
def readBootRef (length : ℤ) (op : ℕ) (p : Bytes) : Except Fail (BootRef × ℕ) :=
  if op + 12 ≥ sizeT length then .error (.error .parameter)
  else if p.length < 12 then .error .fault
  else if int32 (op + readItemSize p) > length then .error (.error .parameter)
  else if readDataLength p < 0 then .error (.error .nomem)
  else if readHashTotalLength p < 0 ∨ p.length < 12 + (readDataLength p).toNat then .error .fault
  else
    let hashTotalLength := (readHashTotalLength p).toNat
    let extendSize := netAt p 10 2
    .ok ({
      hashLength := netAt p 0 2
      hashNumber := netAt p 6 2
      stage := netAt p 8 2
      isControl := if netAt p 2 2 &&& 2 ≠ 0 then 1 else 0
      isEnable := if netAt p 2 2 &&& 1 ≠ 0 then 1 else 0
      extendSize := extendSize
      hash := fieldAt p 12 hashTotalLength
      extendBuffer := fieldAt p (12 + hashTotalLength) extendSize
      name := CStr.ofBytes (fieldAt p (12 + hashTotalLength + extendSize) (netAt p 4 2)) },
      (readItemSize p).toNat)

/-- `tcf_get_boot_measure_references`, for what the TCS has stored. -/
def tcfGetBootMeasureReferences (data : Bytes) (num : ℕ) (length : ℤ) : Except Fail (List BootRef) :=
  unpack (readBootRef length) num 0 data

/-- What is to be read back of an item. -/
def BootRefItemUser.view (x : BootRefItemUser) : BootRef where
  hashLength := x.hashLength
  hashNumber := x.hashNumber
  stage := x.stage
  isControl := x.isControl
  isEnable := x.isEnable
  extendSize := x.extendSize
  hash := x.hash.getD []
  extendBuffer := x.extendBuffer.getD []
  name := x.name.getD CStr.empty

/-! ### Accepted items -/

/-- What the checks leave of an item. -/
structure BootAccepted (x : BootRefItemUser) : Prop where
  hashLength : x.hashLength = 32
  hashNumber : 0 ≤ x.hashNumber ∧ x.hashNumber ≤ 8
  stage : 0 ≤ x.stage ∧ x.stage ≤ 65535
  isControl : x.isControl = 0 ∨ x.isControl = 1
  isEnable : x.isEnable = 0 ∨ x.isEnable = 1
  extendSize : 0 ≤ x.extendSize ∧ x.extendSize ≤ 255
  nameLength : x.nameLength ≤ 4096
  hash : (x.hash.getD []).length = x.hashTotalLength
  extend : (x.extendBuffer.getD []).length = x.extendSize.toNat

section Accepted

variable {x : BootRefItemUser} {r p : Bytes}

theorem accepted_of_checks (h : checkBootRef x = none) (hflags : checkBootFlags x = none) : BootAccepted x := by
  unfold checkBootRef at h
  unfold checkBootFlags at hflags
  split_ifs at h with h₁ h₂ h₃ h₄ h₅ h₆
  split_ifs at hflags with f₁ f₂ f₃
  have hbool {v : ℤ} (hv : isBoolValueLegal v = true) : v = 0 ∨ v = 1 := by
    simpa [isBoolValueLegal] using hv
  have hhash : (x.hash.getD []).length = x.hashTotalLength := by
    cases hx : x.hash with
    | none => simp [hx] at h₁
    | some b => exact x.length_hash b hx
  have hextend : (x.extendBuffer.getD []).length = x.extendSize.toNat ∧ 0 ≤ x.extendSize ∧ x.extendSize ≤ 255 := by
    cases hx : x.extendBuffer with
    | none =>
        have hzero : x.extendSize = 0 := by
          by_contra hne
          exact h₄ ⟨hne, by rw [hx]; rfl⟩
        rw [hzero]
        exact ⟨rfl, le_rfl, by decide⟩
    | some b =>
        have hrange : ¬ (x.extendSize ≤ 0 ∨ x.extendSize > 255) := fun hc => h₅ ⟨by rw [hx]; rfl, hc⟩
        exact ⟨x.length_extend b hx, by omega, by omega⟩
  exact {
    hashLength := not_not.mp h₃
    hashNumber := by omega
    stage := by omega
    isControl := hbool f₂
    isEnable := hbool f₁
    extendSize := hextend.2
    nameLength := by
      rw [maxPathLength] at h₆
      omega
    hash := hhash
    extend := hextend.1 }

theorem BootAccepted.hashTotalLength (h : BootAccepted x) : x.hashTotalLength = 32 * x.hashNumber.toNat := by
  have hn := h.hashNumber
  rw [BootRefItemUser.hashTotalLength, h.hashLength]
  omega

theorem BootAccepted.length_encode (h : BootAccepted x) :
    (encodeBootRef x).length = 12 + x.hashTotalLength + x.extendSize.toNat + x.nameLength := by
  have hhash := h.hash
  have hextend := h.extend
  rw [BootRefItemUser.nameLength, CStr.strlen]
  simp only [encodeBootRef, List.length_append, length_netBytes, List.length_singleton]
  omega

/-- The numbers of an item read back. -/
theorem BootAccepted.fields (h : BootAccepted x) :
    netAt (encodeBootRef x ++ r) 0 2 = 32 ∧ netAt (encodeBootRef x ++ r) 2 2 = bootFlags x ∧
      netAt (encodeBootRef x ++ r) 4 2 = x.nameLength ∧
      netAt (encodeBootRef x ++ r) 6 2 = x.hashNumber.toNat ∧
      netAt (encodeBootRef x ++ r) 8 2 = x.stage.toNat ∧
      netAt (encodeBootRef x ++ r) 10 2 = x.extendSize.toNat := by
  have hnumber := h.hashNumber
  have hstage := h.stage
  have hextend := h.extendSize
  have hname := h.nameLength
  have hflags : bootFlags x < 4 := by
    rcases h.isEnable with he | he <;> rcases h.isControl with hc | hc <;> rw [bootFlags, he, hc] <;> decide
  simp only [encodeBootRef, List.append_assoc]
  refine ⟨?_, ?_, ?_, ?_, ?_, ?_⟩
  · rw [netAt_head, h.hashLength]
    rfl
  · rw [netAt_skip, netAt_head]
    omega
  · rw [netAt_skip, netAt_skip, netAt_head]
    omega
  · rw [netAt_skip, netAt_skip, netAt_skip, netAt_head]
    omega
  · rw [netAt_skip, netAt_skip, netAt_skip, netAt_skip, netAt_head]
    omega
  · rw [netAt_skip, netAt_skip, netAt_skip, netAt_skip, netAt_skip, netAt_head]
    omega

/-- The data of an item read back. -/
theorem BootAccepted.data (h : BootAccepted x) :
    fieldAt (encodeBootRef x ++ r) 12 x.hashTotalLength = x.hash.getD [] ∧
      fieldAt (encodeBootRef x ++ r) (12 + x.hashTotalLength) x.extendSize.toNat = x.extendBuffer.getD [] ∧
      fieldAt (encodeBootRef x ++ r) (12 + x.hashTotalLength + x.extendSize.toNat) x.nameLength =
        (x.name.getD CStr.empty).bytes ++ [0] := by
  have hhead : (netBytes 2 x.hashLength.toNat ++ (netBytes 2 (bootFlags x) ++ (netBytes 2 x.nameLength ++
      (netBytes 2 x.hashNumber.toNat ++ (netBytes 2 x.stage.toNat ++ netBytes 2 x.extendSize.toNat))))).length =
        12 := by simp
  have hsplit : encodeBootRef x ++ r = (netBytes 2 x.hashLength.toNat ++ (netBytes 2 (bootFlags x) ++
      (netBytes 2 x.nameLength ++ (netBytes 2 x.hashNumber.toNat ++ (netBytes 2 x.stage.toNat ++
        netBytes 2 x.extendSize.toNat))))) ++ (x.hash.getD [] ++ (x.extendBuffer.getD [] ++
          (((x.name.getD CStr.empty).bytes ++ [0]) ++ r))) := by
    simp only [encodeBootRef, List.append_assoc]
  rw [hsplit]
  refine ⟨fieldAt_append hhead h.hash, ?_, ?_⟩
  · rw [← List.append_assoc]
    exact fieldAt_append (by rw [List.length_append, hhead, h.hash]) h.extend
  · rw [← List.append_assoc, ← List.append_assoc]
    refine fieldAt_append ?_ ?_
    · rw [List.length_append, List.length_append, hhead, h.hash, h.extend]
    · rw [List.length_append, List.length_singleton]
      rfl

theorem BootAccepted.readHashTotalLength (h : BootAccepted x) :
    Tcf.readHashTotalLength (encodeBootRef x ++ r) = x.hashTotalLength := by
  have hn := h.hashNumber
  obtain ⟨hl, -, -, hnum, -, -⟩ := @BootAccepted.fields _ r h
  rw [Tcf.readHashTotalLength, hl, hnum, int32_eq (by omega) (by omega), h.hashTotalLength]

theorem BootAccepted.readDataLength (h : BootAccepted x) :
    Tcf.readDataLength (encodeBootRef x ++ r) = x.hashTotalLength + x.nameLength + x.extendSize.toNat := by
  obtain ⟨-, -, hname, -, -, hext⟩ := @BootAccepted.fields _ r h
  rw [Tcf.readDataLength, h.readHashTotalLength, hname, hext]

/-- The three sizes of an item agree: the fixed part and the hashes are aligned already. -/
theorem BootAccepted.align (h : BootAccepted x) :
    align4 (12 + (x.hashTotalLength + x.nameLength + x.extendSize.toNat)) = x.itemSize := by
  rw [BootRefItemUser.itemSize, h.hashTotalLength]
  unfold align4
  split_ifs <;> omega

theorem BootAccepted.itemSize_lt (h : BootAccepted x) : x.itemSize < 65536 := by
  have hn := h.hashNumber
  have he := h.extendSize
  have hname := h.nameLength
  have hle := align4_le (x.extendSize.toNat + x.nameLength)
  rw [BootRefItemUser.itemSize, h.hashTotalLength]
  omega

theorem BootAccepted.readItemSize (h : BootAccepted x) :
    Tcf.readItemSize (encodeBootRef x ++ r) = x.itemSize := by
  have hlt := h.itemSize_lt
  have hle := le_align4 (12 + (x.hashTotalLength + x.nameLength + x.extendSize.toNat))
  have halign := h.align
  have hsize : sizeT (12 + Tcf.readDataLength (encodeBootRef x ++ r)) =
      12 + (x.hashTotalLength + x.nameLength + x.extendSize.toNat) := by
    rw [h.readDataLength, sizeT]
    omega
  rw [Tcf.readItemSize, hsize, halign, int32_eq (by omega) (by omega)]

theorem BootAccepted.getBootRefItemSize {m : Mem} {q : ℕ} (h : BootAccepted x) (hm : Holds m q (encodeBootRef x)) :
    (Tcs.getBootRefItemSize m q).toNat = x.itemSize := by
  have hn := h.hashNumber
  have he := h.extendSize
  have hname := h.nameLength
  have hlen := h.length_encode
  obtain ⟨f0, -, f4, f6, -, f10⟩ := @BootAccepted.fields _ [] h
  rw [List.append_nil] at f0 f4 f6 f10
  have g0 : (m.ntohs q).toNat = 32 := by
    have g : (m.ntohs (q + 0)).toNat = _ := hm.ntohs (by omega)
    rwa [f0] at g
  have g4 : (m.ntohs (q + 4)).toNat = x.nameLength := by rw [hm.ntohs (by omega), f4]
  have g6 : (m.ntohs (q + 6)).toNat = x.hashNumber.toNat := by rw [hm.ntohs (by omega), f6]
  have g10 : (m.ntohs (q + 10)).toNat = x.extendSize.toNat := by rw [hm.ntohs (by omega), f10]
  have hsum : (12 + m.ntohs (q + 6) * m.ntohs q + (m.ntohs (q + 4) + m.ntohs (q + 10))).toNat =
      12 + (x.hashTotalLength + x.nameLength + x.extendSize.toNat) := by
    simp only [UInt32.toNat_add, UInt32.toNat_mul, g0, g4, g6, g10, h.hashTotalLength]
    have h12 : (12 : UInt32).toNat = 12 := rfl
    rw [h12]
    omega
  have hlt := h.hashTotalLength
  rw [Tcs.getBootRefItemSize, toNat_alignSize (by rw [hsum]; omega), hsum, h.align]

theorem BootAccepted.flags (h : BootAccepted x) :
    (if bootFlags x &&& 2 ≠ 0 then (1 : ℤ) else 0) = x.isControl ∧
      (if bootFlags x &&& 1 ≠ 0 then (1 : ℤ) else 0) = x.isEnable := by
  rcases h.isEnable with he | he <;> rcases h.isControl with hc | hc <;> rw [bootFlags, he, hc] <;> decide

/-- **An item reads back.** -/
theorem BootAccepted.readsBack {length : ℕ} (h : BootAccepted x) (hlength : length < 2 ^ 31) :
    ReadsBack (readBootRef length) length encodeBootRef BootRefItemUser.itemSize BootRefItemUser.view x := by
  intro op pad tail hop hpad
  have hlen := h.length_encode
  have hsize := le_align4 (x.extendSize.toNat + x.nameLength)
  have hitem : x.itemSize = 12 + x.hashTotalLength + align4 (x.extendSize.toNat + x.nameLength) := rfl
  have hpos : 0 < x.nameLength := Nat.succ_pos _
  have hstage := h.stage
  have hext := h.extendSize
  have hnum := h.hashNumber
  have hlong : (encodeBootRef x ++ (pad ++ tail)).length ≥ (encodeBootRef x).length := by
    rw [List.length_append]
    omega
  have hsizeT : sizeT (length : ℤ) = length := by
    rw [sizeT]
    omega
  obtain ⟨f0, f2, f4, f6, f8, f10⟩ := @BootAccepted.fields _ (pad ++ tail) h
  obtain ⟨dhash, dext, dname⟩ := @BootAccepted.data _ (pad ++ tail) h
  unfold readBootRef
  rw [hsizeT, if_neg (by omega), if_neg (by omega), h.readItemSize, h.readDataLength, h.readHashTotalLength,
    int32_eq (by omega) (by omega), if_neg (by omega), if_neg (by omega), if_neg (by omega)]
  simp only [Int.toNat_natCast, f0, f2, f4, f6, f8, f10, dhash, dext, dname, CStr.ofBytes_terminated,
    h.flags]
  rw [Int.toNat_of_nonneg hnum.1, Int.toNat_of_nonneg hstage.1, Int.toNat_of_nonneg hext.1,
    BootRefItemUser.view, h.hashLength]
  rfl

end Accepted

/-! ### The list -/

section List

variable {xs : List BootRefItemUser} {num refOpt : ℕ}

theorem accepted_of_prepare (hnum : num < 2 ^ 31) (hopt : refOpt < 2 ^ 31)
    (h : prepareBootRefs num refOpt xs = none) :
    (∀ x ∈ xs, BootAccepted x) ∧ refOpt + (xs.map BootRefItemUser.itemSize).sum < 2 ^ 31 := by
  induction xs generalizing refOpt with
  | nil => exact ⟨List.forall_mem_nil _, by simpa using hopt⟩
  | cons x xs ih =>
      rw [prepareBootRefs] at h
      split at h
      · exact absurd h (by simp)
      · rename_i hcheck
        split_ifs at h with hend
        split at h
        · exact absurd h (by simp)
        · rename_i hflags
          have hx := accepted_of_checks hcheck hflags
          have hsize := hx.itemSize_lt
          have hlt := end_lt (by rw [maxBootReferenceItemSize]; omega) hopt (by omega) hend
          obtain ⟨hxs, hsum⟩ := ih hlt h
          refine ⟨List.forall_mem_cons.mpr ⟨hx, hxs⟩, ?_⟩
          rw [List.map_cons, List.sum_cons]
          omega

theorem BootAccepted.fits {x : BootRefItemUser} (h : BootAccepted x) :
    (encodeBootRef x).length ≤ x.itemSize := by
  have hle := le_align4 (x.extendSize.toNat + x.nameLength)
  rw [h.length_encode, BootRefItemUser.itemSize]
  omega

end List

/-- **The boot reference list round-trips,** and the three sizes of an item are one: the
writer's, the reader's and the validator's.  `m` is a memory that holds the data of the
update, wherever the validator finds them. -/
theorem boot_references_round_trip {references : List BootRefItemUser} {tpcmId : Bytes} {action : ℤ}
    {replayCounter : UInt64} {update : BootReferencesUpdate} (hnum : references.length < 2 ^ 31)
    (h : tcfPrepareUpdateBootMeasureReferences references tpcmId action replayCounter = .ok update) :
    (∀ x ∈ references, ∀ r, readItemSize (encodeBootRef x ++ r) = x.itemSize) ∧
      (∀ x ∈ references, ∀ m q, Holds m q (encodeBootRef x) →
        (getBootRefItemSize m q).toNat = x.itemSize) ∧
      (∀ m p, Holds m p update.data →
        itemsSize getBootRefItemSize m p update.itemNumber = update.dataLength) ∧
      update.dataLength.toNat = (references.map BootRefItemUser.itemSize).sum ∧
      update.data.length = update.dataLength.toNat ∧
      tcfGetBootMeasureReferences update.data update.itemNumber.toNat update.dataLength.toNat =
        .ok (references.map BootRefItemUser.view) := by
  unfold tcfPrepareUpdateBootMeasureReferences at h
  split_ifs at h
  split at h
  · exact absurd h (by simp)
  · rename_i hprepare
    obtain rfl := Except.ok.inj h
    obtain ⟨hall, hsum⟩ := accepted_of_prepare hnum (by decide) hprepare
    rw [Nat.zero_add] at hsum
    have hfits : ∀ x ∈ references, (encodeBootRef x).length ≤ x.itemSize := fun x hx => (hall x hx).fits
    have hlen : (UInt32.ofNat (references.map BootRefItemUser.itemSize).sum).toNat =
        (references.map BootRefItemUser.itemSize).sum :=
      UInt32.toNat_ofNat_of_lt' (show _ < 2 ^ 32 by omega)
    have hcount : (UInt32.ofNat references.length).toNat = references.length :=
      UInt32.toNat_ofNat_of_lt' (show _ < 2 ^ 32 by omega)
    refine ⟨fun x hx r => (hall x hx).readItemSize, fun x hx m q hm => (hall x hx).getBootRefItemSize hm,
      fun m p hm => ?_, hlen, ?_, ?_⟩
    · have hsize := itemsSize_pack hfits (fun x hx q hq => (hall x hx).getBootRefItemSize hq) hm (by omega)
        (by omega)
      rw [← UInt32.toNat_inj, hlen]
      exact hsize
    · rw [hlen]
      exact length_pack hfits
    · dsimp only
      rw [hlen, hcount]
      have hread := @unpack_pack _ _ _ (fun _ => 0) _ _ 0 0 _ _ [] _ _ hfits
        (fun x hx => (hall x hx).readsBack hsum) (by rw [Nat.zero_add])
      rwa [List.append_nil] at hread

/-- A reference with one hash, three bytes of extend data and a name. -/
def sampleBootRef : BootRefItemUser where
  hashLength := 32
  hashNumber := 1
  stage := 2
  isControl := 1
  isEnable := 0
  hash := some (List.replicate 32 7)
  name := some ⟨[103, 114, 117, 98], by decide⟩
  extendSize := 3
  extendBuffer := some [1, 2, 3]
  length_hash b hb := by
    obtain rfl := Option.some.inj hb
    rfl
  length_extend b hb := by
    obtain rfl := Option.some.inj hb
    rfl

theorem sampleBootRef_prepared : prepareBootRefs 1 0 [sampleBootRef] = none := by
  decide +kernel

theorem boot_references_round_trip_one :
    ∃ update, tcfPrepareUpdateBootMeasureReferences [sampleBootRef] [9] 0 5 = .ok update ∧
      tcfGetBootMeasureReferences update.data update.itemNumber.toNat update.dataLength.toNat =
        .ok [sampleBootRef.view] := by
  have hprepare : ∃ update, tcfPrepareUpdateBootMeasureReferences [sampleBootRef] [9] 0 5 = .ok update := by
    have hone : [sampleBootRef].length = 1 := rfl
    unfold tcfPrepareUpdateBootMeasureReferences
    rw [if_neg (by decide), hone, sampleBootRef_prepared]
    exact ⟨_, rfl⟩
  obtain ⟨update, h⟩ := hprepare
  exact ⟨update, h, (boot_references_round_trip (by decide) h).2.2.2.2.2⟩

end Tcf
end TsbAgent
