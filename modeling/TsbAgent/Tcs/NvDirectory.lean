/-
# Defining and deleting NV spaces

The operations of `tss-main/tcs/tcsapi/tcsu/tcs_store.c` that change both the TCM and the
directory `nvinfo`: a space is first defined in the TCM, or deleted there, and then added
to the directory or taken from it.

Nothing compares the directory with itself: that an index or a name occurs once rests on
the TCM, which knows the indices, and on the lookup of the name.  Neither helps

* when a space of no bytes is defined: the TCM is not asked, and the entry is added again
  and again;
* when `tcs_set_nv_list` adds entries, which asks nobody;
* when a name has `MAX_NV_NAME_SIZE` characters and the lookup reads on into the flags.

`nv_directory_refines` says that these are the only ways to lose the directory.
-/

import TsbAgent.Lib.Run
import TsbAgent.Tcs.NvPolicy
import Mathlib.Data.List.Flatten
import Mathlib.Data.List.Pairwise

namespace TsbAgent
namespace Tcs

open Libc Word
open File (Stream)

/-! ### The TCM -/

/-- The TCM as far as the indices of its spaces go: the answer to
`TCM_GetCapability(TCM_CAP_NV_INDEX)`, and what a successful `TCM_NV_DefineSpace2` does, which
deletes a space when the size is 0. -/
structure Tcm (T : Type*) where
  isDefined : T → UInt32 → Bool
  define : T → UInt32 → T
  delete : T → UInt32 → T
  isDefined_define : ∀ t i j, isDefined (define t i) j = (decide (j = i) || isDefined t j)
  isDefined_delete : ∀ t i j, isDefined (delete t i) j = (decide (j ≠ i) && isDefined t j)

variable {T : Type*} (tcm : Tcm T)

/-- `tcs_is_nv_index_defined`: a TCM that cannot be asked counts as a yes. -/
def tcsIsNvIndexDefined (opens : Bool) (t : T) (index : UInt32) : Bool :=
  !opens || tcm.isDefined t index

/-- `POLICY_PCR`. -/
def policyPcr : UInt32 := 0x2F81

/-- What the environment answers `tcs_utils_nv_define_space`: whether it is trusted, whether
the TCM can be asked for the index, and the result of the commands to the TCM. -/
structure DefineIo where
  trust : Option TssErr
  opens : Bool
  answer : Option ℤ

/-- The part of `tcs_utils_nv_define_space` after the trust in the environment.  A size of 0
deletes the space. -/
def defineInTcm (io : DefineIo) (t : T) (index size : UInt32) : Option TssErr × T :=
  if tcsIsNvIndexDefined tcm io.opens t index ∧ size ≠ 0 then (some .recreate, t)
  else if ¬ tcsIsNvIndexDefined tcm io.opens t index ∧ size = 0 then (none, t)
  else
    match io.answer with
    | some r => (some (.tpcm r), t)
    | none => (none, if size = 0 then tcm.delete t index else tcm.define t index)

/-- `tcs_utils_nv_define_space`. -/
def tcsUtilsNvDefineSpace (io : DefineIo) (t : T) (index size flags : UInt32) : Option TssErr × T :=
  match io.trust with
  | some e => if hasFlag flags policyPcr then (some e, t) else defineInTcm tcm io t index size
  | none => defineInTcm tcm io t index size

/-! ### The operations -/

/-- The TCM and the file `nvinfo`. -/
structure NvState (T : Type*) where
  tcm : T
  file : Option Bytes

/-- What an operation returns, and the state after it. -/
abbrev NvResult (T : Type*) := Option TssErr × NvState T

/-- `size < 0`. -/
def negative (size : UInt32) : Bool := size ≥ 0x80000000

/-- The directory is written after the space has been defined in the TCM; when that fails, the
space is deleted again. -/
def addEntry (save : Except TssErr Bytes) (add : NvAdd) (undo : DefineIo) (s : NvState T)
    (index : UInt32) : NvResult T :=
  match save with
  | .error e => (some e, { s with tcm := (tcsUtilsNvDefineSpace tcm undo s.tcm index 0 0).2 })
  | .ok data =>
      match tcsUtilsNvInfoListAdd add s.file data with
      | (none, file) => (none, { s with file := file })
      | (some e, file) =>
          (some e, { tcm := (tcsUtilsNvDefineSpace tcm undo s.tcm index 0 0).2, file := file })

/-- The entry of a space without policy. -/
def plainEntry (index size : UInt32) (name : CStr) : NvInfo where
  index := index
  size := size
  name := NvName.ofCStr name
  policyFlags := noPolicy
  userOrGroup := 0
  processOrRole := none

/-- `tcs_nv_define_space`. -/
def tcsNvDefineSpace (io undo : DefineIo) (add : NvAdd) (s : NvState T) (index size : UInt32) :
    NvResult T :=
  if negative size then (some .parameter, s)
  else
    match tcsUtilsNvDefineSpace tcm io s.tcm index size 0 with
    | (some e, t) => (some e, { s with tcm := t })
    | (none, t) =>
        addEntry tcm (.ok (plainEntry index size CStr.empty).encoded) add undo { s with tcm := t } index

/-- `tcs_nv_define_space_on_policy`. -/
def tcsNvDefineSpaceOnPolicy (opens : Bool) (io undo : DefineIo) (malloc : Bool) (add : NvAdd)
    (s : NvState T) (index size : UInt32) (p : AuthPolicy) : NvResult T :=
  if negative size then (some .parameter, s)
  else if tcsIsNvIndexDefined tcm opens s.tcm index then (some .recreate, s)
  else
    match tcsUtilsPolicyPasswd p with
    | .error e => (some e, s)
    | .ok _ =>
        match tcsUtilsNvDefineSpace tcm io s.tcm index size p.policyFlags with
        | (some e, t) => (some e, { s with tcm := t })
        | (none, t) =>
            addEntry tcm (nvInfoToSave malloc (p.entry index size (NvName.ofCStr CStr.empty))) add undo
              { s with tcm := t } index

/-- One round of the search for an index: whether the TCM can be asked, what
`tcs_utils_get_random` gives when the index is taken, and the definition when it is not. -/
structure Round where
  opens : Bool
  random : UInt32
  define : DefineIo

/-- `DEFAULT_NAME_INDEX`. -/
def defaultNameIndex : UInt32 := 0x20000

/-- The search for an index and its definition, two nested `while (1)`.  `none` when the
rounds do not suffice. -/
def defineSomeIndex (t : T) (size flags : UInt32) : List Round → UInt32 → Option (Option TssErr × T × UInt32)
  | [], _ => none
  | r :: rs, index =>
      if tcsIsNvIndexDefined tcm r.opens t index then defineSomeIndex t size flags rs r.random
      else
        match tcsUtilsNvDefineSpace tcm r.define t index size flags with
        | (some .recreate, _) => defineSomeIndex t size flags rs index
        | (ret, t') => some (ret, t', index)

/-- The part that the two functions for named spaces share: `entry` is the record for the
index that was found. -/
def defineNamed (look : NvRead) (rounds : List Round) (undo : DefineIo) (add : NvAdd) (s : NvState T)
    (name : CStr) (size flags : UInt32) (accepted : Except TssErr Bytes)
    (save : UInt32 → Except TssErr Bytes) : Option (NvResult T) :=
  if negative size then some (some .parameter, s)
  else if name.strlen > maxNvNameSize then some (some .inputExceed, s)
  else
    match tcsIsNvNameDefined look s.file name with
    | none => none
    | some (.error _) => some (some .recreate, s)
    | some (.ok true) => some (some .recreate, s)
    | some (.ok false) =>
        match accepted with
        | .error e => some (some e, s)
        | .ok _ =>
            (defineSomeIndex tcm s.tcm size flags rounds defaultNameIndex).map fun found =>
              match found with
              | (some e, t, _) => (some e, { s with tcm := t })
              | (none, t, index) => addEntry tcm (save index) add undo { s with tcm := t } index

/-- `tcs_nv_define_named_space`. -/
def tcsNvDefineNamedSpace (look : NvRead) (rounds : List Round) (undo : DefineIo) (add : NvAdd)
    (s : NvState T) (name : CStr) (size : UInt32) : Option (NvResult T) :=
  defineNamed tcm look rounds undo add s name size 0 (.ok [])
    fun index => .ok (plainEntry index size name).encoded

/-- `tcs_nv_define_named_space_on_policy`. -/
def tcsNvDefineNamedSpaceOnPolicy (look : NvRead) (rounds : List Round) (undo : DefineIo) (malloc : Bool)
    (add : NvAdd) (s : NvState T) (name : CStr) (size : UInt32) (p : AuthPolicy) : Option (NvResult T) :=
  defineNamed tcm look rounds undo add s name size p.policyFlags (tcsUtilsPolicyPasswd p)
    fun index => nvInfoToSave malloc (p.entry index size (NvName.ofCStr name))

/-- `tcs_nv_delete_space`. -/
def tcsNvDeleteSpace (io : DefineIo) (del : NvDelete) (s : NvState T) (index : UInt32) :
    Option (NvResult T) :=
  match tcsUtilsNvDefineSpace tcm io s.tcm index 0 0 with
  | (some e, t) => some (some e, { s with tcm := t })
  | (none, t) => (tcsUtilsNvInfoListDelete del s.file index).map fun r => (r.1, { tcm := t, file := r.2 })

/-- The space that a name leads to is deleted. -/
def deleteFound (get : NvRead) (io : DefineIo) (del : NvDelete) (s : NvState T) (name : CStr) :
    Option (NvResult T) :=
  match tcsUtilsGetNvInfo get s.file (hasName name) with
  | none => none
  | some (.error e) => some (some e, s)
  | some (.ok p) => tcsNvDeleteSpace tcm io del s (nvInfoToAuth p).index

/-- `tcs_nv_delete_named_space`. -/
def tcsNvDeleteNamedSpace (look get : NvRead) (io : DefineIo) (del : NvDelete) (s : NvState T)
    (name : CStr) : Option (NvResult T) :=
  match tcsIsNvNameDefined look s.file name with
  | none => none
  | some (.ok false) => some (none, s)
  | some _ => deleteFound tcm get io del s name

/-- `tcs_set_nv_list`: each entry with its memory and its writer. -/
def tcsSetNvList (file : Option Bytes) : List (Bool × NvAdd × NvInfo) → Option TssErr × Option Bytes
  | [] => (none, file)
  | (malloc, add, e) :: rest =>
      match nvInfoToSave malloc e with
      | .error err => (some err, file)
      | .ok data =>
          match tcsUtilsNvInfoListAdd add file data with
          | (some err, file') => (some err, file')
          | (none, file') => tcsSetNvList file' rest

/-! ### Histories -/

/-- One call, with what the system and the TCM grant it. -/
inductive NvOp
  | define (io undo : DefineIo) (add : NvAdd) (index size : UInt32)
  | defineOnPolicy (opens : Bool) (io undo : DefineIo) (malloc : Bool) (add : NvAdd)
      (index size : UInt32) (p : AuthPolicy)
  | defineNamed (look : NvRead) (rounds : List Round) (undo : DefineIo) (add : NvAdd)
      (name : CStr) (size : UInt32)
  | defineNamedOnPolicy (look : NvRead) (rounds : List Round) (undo : DefineIo) (malloc : Bool)
      (add : NvAdd) (name : CStr) (size : UInt32) (p : AuthPolicy)
  | delete (io : DefineIo) (del : NvDelete) (index : UInt32)
  | deleteNamed (look get : NvRead) (io : DefineIo) (del : NvDelete) (name : CStr)
  | setList (items : List (Bool × NvAdd × NvInfo))

def NvOp.apply (s : NvState T) : NvOp → Option (NvResult T)
  | define io undo add index size => some (tcsNvDefineSpace tcm io undo add s index size)
  | defineOnPolicy opens io undo malloc add index size p =>
      some (tcsNvDefineSpaceOnPolicy tcm opens io undo malloc add s index size p)
  | defineNamed look rounds undo add name size =>
      tcsNvDefineNamedSpace tcm look rounds undo add s name size
  | defineNamedOnPolicy look rounds undo malloc add name size p =>
      tcsNvDefineNamedSpaceOnPolicy tcm look rounds undo malloc add s name size p
  | delete io del index => tcsNvDeleteSpace tcm io del s index
  | deleteNamed look get io del name => tcsNvDeleteNamedSpace tcm look get io del s name
  | setList items =>
      let r := tcsSetNvList s.file items
      some (r.1, { s with file := r.2 })

/-- A call that returns success. -/
def nvStep (s : NvState T) (op : NvOp) : Option (NvState T) :=
  match op.apply tcm s with
  | some (none, s') => some s'
  | _ => none

/-! ### The directory as a list -/

/-- **What an operation means for the list of spaces.**  A named space gets some index. -/
def NvSpec (l : List NvInfo) (op : NvOp) (l' : List NvInfo) : Prop :=
  match op with
  | .define _ _ _ index size => l' = l ++ [plainEntry index size CStr.empty]
  | .defineOnPolicy _ _ _ _ _ index size p => l' = l ++ [p.entry index size (NvName.ofCStr CStr.empty)]
  | .defineNamed _ _ _ _ name size => ∃ index, l' = l ++ [plainEntry index size name]
  | .defineNamedOnPolicy _ _ _ _ _ name size p =>
      ∃ index, l' = l ++ [p.entry index size (NvName.ofCStr name)]
  | .delete _ _ index => l' = l.filter fun e => e.index ≠ index
  | .deleteNamed _ _ _ _ name => l' = l.filter fun e => e.nameStr ≠ name
  | .setList items => l' = l ++ items.map fun i => i.2.2

/-- Two entries are different spaces: another index, and another name if they have one. -/
def Separate (a b : NvInfo) : Prop :=
  a.index ≠ b.index ∧ (a.nameStr = b.nameStr → a.nameStr = CStr.empty)

/-- **What the directory promises** for the list of spaces. -/
structure NvPromise (file : Option Bytes) (l : List NvInfo) : Prop where
  /-- No index and no name occurs twice. -/
  separate : l.Pairwise Separate
  /-- Reading the list gives the spaces in the order of their definition. -/
  list : ∀ io : NvReadList, io.read.Granted → io.creates = true → io.infos = true →
    tcsReadNvList io file = some (.ok l)
  /-- The name of a space gives its index. -/
  lookup : ∀ e ∈ l, e.nameStr ≠ CStr.empty → ∀ io : NvRead, io.Granted →
    tcsIsNvNameDefined io file e.nameStr = some (.ok true) ∧
      ∃ p, tcsUtilsGetNvInfo io file (hasName e.nameStr) = some (.ok p) ∧ (nvInfoToAuth p).index = e.index
  /-- Any other name is not defined. -/
  undefined : ∀ name, (∀ e ∈ l, e.nameStr ≠ name) → ∀ io : NvRead, io.Granted →
    tcsIsNvNameDefined io file name = some (.ok false)

/-- The directory that a file holds. -/
def directory (file : Option Bytes) : List NvInfo :=
  let f := file.getD []
  (Packed.collect (2 ^ 32) nvSize f f.length nvInfoToAuth (f.length + 1) 0).getD []

/-- What is appended fits and is not lost when the file is closed. -/
def Appends (file : Option Bytes) (add : NvAdd) (e : NvInfo) : Prop :=
  File.size file + e.encoded.length < 2 ^ 32 ∧ add.out.lost = 0

/-- **The condition on a step.**  A space has some bytes, a name has a character and its end,
the entries of a list are spaces of the TCM that the directory does not have, and what
is written is not lost. -/
def NvOk (s : NvState T) : NvOp → Prop
  | .define _ _ add index size => size ≠ 0 ∧ Appends s.file add (plainEntry index size CStr.empty)
  | .defineOnPolicy _ _ _ _ add index size p =>
      size ≠ 0 ∧ Appends s.file add (p.entry index size (NvName.ofCStr CStr.empty))
  | .defineNamed _ _ _ add name size =>
      size ≠ 0 ∧ name ≠ CStr.empty ∧ name.strlen < maxNvNameSize ∧
        ∀ index, Appends s.file add (plainEntry index size name)
  | .defineNamedOnPolicy _ _ _ _ add name size p =>
      size ≠ 0 ∧ name ≠ CStr.empty ∧ (name.strlen < maxNvNameSize ∨ p.policyFlags.toNat % 256 = 0) ∧
        ∀ index, Appends s.file add (p.entry index size (NvName.ofCStr name))
  | .delete _ del _ => del.out.lost = 0
  | .deleteNamed _ _ _ del name => name ≠ CStr.empty ∧ del.out.lost = 0
  | .setList items =>
      (directory s.file ++ items.map fun i => i.2.2).Pairwise Separate ∧
        (∀ i ∈ items, i.2.2.Terminated ∧ tcm.isDefined s.tcm i.2.2.index = true ∧ i.2.1.out.lost = 0) ∧
        File.size s.file + (nvFile (items.map fun i => i.2.2)).length < 2 ^ 32

/-- **The invariant:** the file holds the list, which has no duplicates, and whose spaces the
TCM knows. -/
structure NvDir (s : NvState T) (l : List NvInfo) : Prop where
  held : NvHeld s.file l
  fits : NvFits l
  separate : l.Pairwise Separate
  terminated : ∀ e ∈ l, e.Terminated
  defined : ∀ e ∈ l, tcm.isDefined s.tcm e.index = true

section Names

variable {s : CStr}

theorem NvName.ofCStr_eq (h : s.strlen ≤ maxNvNameSize) :
    (NvName.ofCStr s).1 = s.bytes ++ List.replicate (maxNvNameSize - s.strlen) 0 := by
  have hlen : s.bytes.length ≤ maxNvNameSize := h
  have happ (n : ℕ) (b : Bytes) (hb : b.length ≤ n) :
      b.takeD n 0 = b ++ List.replicate (n - b.length) 0 := by
    induction b generalizing n with
    | nil => simp
    | cons x b ih =>
        obtain ⟨n, rfl⟩ := Nat.exists_eq_succ_of_ne_zero (by simp at hb; omega : n ≠ 0)
        rw [List.length_cons] at hb ⊢
        rw [List.takeD_succ, List.tail_cons, ih n (by omega), Nat.succ_sub_succ]
        rfl
  exact happ _ _ hlen

/-- The string that was copied into the field. -/
theorem ofBytes_ofCStr (h : s.strlen ≤ maxNvNameSize) : CStr.ofBytes (NvName.ofCStr s).1 = s := by
  refine CStr.ext ?_
  change cstr (NvName.ofCStr s).1 = s.bytes
  rw [NvName.ofCStr_eq h, cstr_append_of_notMem s.nulFree]
  cases maxNvNameSize - s.strlen with
  | zero => simp
  | succ n => simp [List.replicate_succ, cstr]

theorem zero_mem_ofCStr (h : s.strlen < maxNvNameSize) : (0 : UInt8) ∈ (NvName.ofCStr s).1 := by
  rw [NvName.ofCStr_eq h.le]
  refine List.mem_append_right _ (List.mem_replicate.mpr ⟨?_, rfl⟩)
  omega

end Names

section Steps

variable {tcm} {s s' : NvState T} {t t' : T} {l : List NvInfo} {e : NvInfo} {io : DefineIo}
  {index size flags : UInt32} {add : NvAdd} {undo : DefineIo} {file file' : Option Bytes}

/-- An environment that is trusted, or is not asked. -/
theorem defineSpace_eq_none (h : tcsUtilsNvDefineSpace tcm io t index size flags = (none, t')) :
    defineInTcm tcm io t index size = (none, t') := by
  unfold tcsUtilsNvDefineSpace at h
  split at h
  · split_ifs at h with hpcr
    · simp at h
    · exact h
  · exact h

/-- A space that was defined was not there before. -/
theorem defineSpace_new (hsize : size ≠ 0)
    (h : tcsUtilsNvDefineSpace tcm io t index size flags = (none, t')) :
    tcm.isDefined t index = false ∧ t' = tcm.define t index := by
  have h := defineSpace_eq_none h
  unfold defineInTcm at h
  split at h
  · simp at h
  · rename_i hnew
    rw [if_neg (fun hc => hsize hc.2)] at h
    cases hans : io.answer with
    | some r => simp [hans] at h
    | none =>
        rw [hans] at h
        simp only [Prod.mk.injEq, true_and] at h
        refine ⟨?_, h.symm⟩
        cases hd : tcm.isDefined t index with
        | false => rfl
        | true => exact absurd ⟨by simp [tcsIsNvIndexDefined, hd], hsize⟩ hnew

/-- A space that was deleted is not there, and no other one is touched. -/
theorem defineSpace_delete (h : tcsUtilsNvDefineSpace tcm io t index 0 flags = (none, t')) :
    t' = t ∨ t' = tcm.delete t index := by
  have h := defineSpace_eq_none h
  unfold defineInTcm at h
  rw [if_neg (fun hc => hc.2 rfl)] at h
  split at h
  · exact .inl (Prod.ext_iff.mp h).2.symm
  · cases hans : io.answer with
    | some r => simp [hans] at h
    | none =>
        simp only [hans, if_true, Prod.mk.injEq, true_and] at h
        exact .inr h.symm

/-- What it takes to add an entry. -/
theorem addEntry_eq_none {save : Except TssErr Bytes}
    (h : addEntry tcm save add undo s index = (none, s')) :
    ∃ data, save = .ok data ∧ tcsUtilsNvInfoListAdd add s.file data = (none, s'.file) ∧ s'.tcm = s.tcm := by
  unfold addEntry at h
  cases save with
  | error e => simp at h
  | ok data =>
      refine ⟨data, rfl, ?_⟩
      rcases hadd : tcsUtilsNvInfoListAdd add s.file data with ⟨_ | e, file⟩
      · simp only [hadd, Prod.mk.injEq, true_and] at h
        obtain rfl := h
        exact ⟨rfl, rfl⟩
      · simp [hadd] at h

theorem nvInfoToSave_eq_ok {malloc : Bool} {data : Bytes} (h : nvInfoToSave malloc e = .ok data) :
    data = e.encoded ∧ e.prBytes.length < 2 ^ 31 := by
  unfold nvInfoToSave at h
  split at h
  · cases h
  · rename_i hno
    rw [not_or] at hno
    exact ⟨(Except.ok.inj h).symm, by omega⟩

theorem NvHeld.size_eq (h : NvHeld file l) : File.size file = (nvFile l).length := by
  rcases h with ⟨rfl, rfl⟩ | rfl <;> rfl

theorem nvFile_append {l l' : List NvInfo} : nvFile (l ++ l') = nvFile l ++ nvFile l' :=
  List.flatMap_append

/-- **A new entry** keeps the invariant. -/
theorem NvDir.added (h : NvDir tcm s l) (hnew : tcm.isDefined s.tcm e.index = false)
    (hname : ∀ a ∈ l, a.nameStr = e.nameStr → a.nameStr = CStr.empty) (ht : e.Terminated)
    (hpr : e.prBytes.length < 2 ^ 31) (happ : Appends s.file add e)
    (hadd : tcsUtilsNvInfoListAdd add s.file e.encoded = (none, file')) :
    NvDir tcm ⟨tcm.define s.tcm e.index, file'⟩ (l ++ [e]) where
  held := .inr (listAdd_eq h.held happ.2 hadd)
  fits := by
    refine ⟨?_, ?_⟩
    · have hsize := happ.1
      rw [h.held.size_eq] at hsize
      rw [nvFile_append, List.length_append]
      simpa [nvFile] using hsize
    · intro a ha
      rcases List.mem_append.mp ha with ha | ha
      · exact h.fits.roles a ha
      · obtain rfl := List.mem_singleton.mp ha
        exact hpr
  separate := by
    refine List.pairwise_append.mpr ⟨h.separate, List.pairwise_singleton _ _, fun a ha b hb => ?_⟩
    obtain rfl := List.mem_singleton.mp hb
    refine ⟨fun heq => ?_, hname a ha⟩
    have hdef := h.defined a ha
    rw [heq, hnew] at hdef
    cases hdef
  terminated := by
    intro a ha
    rcases List.mem_append.mp ha with ha | ha
    · exact h.terminated a ha
    · obtain rfl := List.mem_singleton.mp ha
      exact ht
  defined := by
    intro a ha
    rw [tcm.isDefined_define]
    rcases List.mem_append.mp ha with ha | ha
    · rw [h.defined a ha, Bool.or_true]
    · obtain rfl := List.mem_singleton.mp ha
      rw [decide_eq_true rfl, Bool.true_or]

/-- **A deleted entry** keeps the invariant. -/
theorem NvDir.deleted (h : NvDir tcm s l) (htcm : t' = s.tcm ∨ t' = tcm.delete s.tcm index)
    (hfile : NvHeld file' (l.filter fun e => e.index ≠ index)) :
    NvDir tcm ⟨t', file'⟩ (l.filter fun e => e.index ≠ index) where
  held := hfile
  fits := by
    refine ⟨lt_of_le_of_lt ?_ h.fits.small, fun e he => h.fits.roles e ((List.mem_filter.mp he).1)⟩
    exact (List.Sublist.flatMap List.filter_sublist _).length_le
  separate := h.separate.filter _
  terminated := fun e he => h.terminated e ((List.mem_filter.mp he).1)
  defined := by
    intro e he
    obtain ⟨hmem, hne⟩ := List.mem_filter.mp he
    have hdef := h.defined e hmem
    rcases htcm with rfl | rfl
    · exact hdef
    · rw [tcm.isDefined_delete, hdef, Bool.and_true]
      exact hne

/-- What defining a space comes to, for all four functions. -/
theorem NvDir.defined_and_added {save : Except TssErr Bytes} (h : NvDir tcm s l) (hsize : size ≠ 0)
    (hdef : tcsUtilsNvDefineSpace tcm io s.tcm e.index size flags = (none, t))
    (hadd : addEntry tcm save add undo { s with tcm := t } e.index = (none, s'))
    (hsave : ∀ data, save = .ok data → data = e.encoded ∧ e.prBytes.length < 2 ^ 31)
    (hname : ∀ a ∈ l, a.nameStr = e.nameStr → a.nameStr = CStr.empty) (ht : e.Terminated)
    (happ : Appends s.file add e) : NvDir tcm s' (l ++ [e]) := by
  obtain ⟨hnew, rfl⟩ := defineSpace_new hsize hdef
  obtain ⟨data, hdata, hfile, htcm⟩ := addEntry_eq_none hadd
  obtain ⟨rfl, hpr⟩ := hsave data hdata
  obtain ⟨t', f'⟩ := s'
  obtain rfl : t' = tcm.define s.tcm e.index := htcm
  exact h.added hnew hname ht hpr happ hfile

theorem nameStr_empty : CStr.ofBytes (NvName.ofCStr CStr.empty).1 = CStr.empty :=
  ofBytes_ofCStr (Nat.zero_le _)

theorem zero_mem_empty : (0 : UInt8) ∈ (NvName.ofCStr CStr.empty).1 := zero_mem_ofCStr (by decide)

theorem plainEntry_save {name : CStr} {data : Bytes}
    (hdata : (.ok (plainEntry index size name).encoded : Except TssErr Bytes) = .ok data) :
    data = (plainEntry index size name).encoded ∧ (plainEntry index size name).prBytes.length < 2 ^ 31 := by
  refine ⟨(Except.ok.inj hdata).symm, ?_⟩
  change 0 < 2 ^ 31
  decide

theorem step_define (h : NvDir tcm s l) (hsize : size ≠ 0)
    (happ : Appends s.file add (plainEntry index size CStr.empty))
    (hop : tcsNvDefineSpace tcm io undo add s index size = (none, s')) :
    NvDir tcm s' (l ++ [plainEntry index size CStr.empty]) := by
  unfold tcsNvDefineSpace at hop
  split_ifs at hop
  · simp at hop
  · rcases hdef : tcsUtilsNvDefineSpace tcm io s.tcm index size 0 with ⟨_ | e, t⟩
    · rw [hdef] at hop
      exact h.defined_and_added (e := plainEntry index size CStr.empty) hsize hdef hop
        (fun _ => plainEntry_save) (fun a _ hname => hname.trans nameStr_empty) (.inl zero_mem_empty) happ
    · rw [hdef] at hop
      simp at hop

theorem step_defineOnPolicy {opens malloc : Bool} {p : AuthPolicy} (h : NvDir tcm s l) (hsize : size ≠ 0)
    (happ : Appends s.file add (p.entry index size (NvName.ofCStr CStr.empty)))
    (hop : tcsNvDefineSpaceOnPolicy tcm opens io undo malloc add s index size p = (none, s')) :
    NvDir tcm s' (l ++ [p.entry index size (NvName.ofCStr CStr.empty)]) := by
  unfold tcsNvDefineSpaceOnPolicy at hop
  split_ifs at hop
  · simp at hop
  · simp at hop
  · rcases hp : tcsUtilsPolicyPasswd p with e | b
    · simp [hp] at hop
    · rcases hdef : tcsUtilsNvDefineSpace tcm io s.tcm index size p.policyFlags with ⟨_ | e, t⟩
      · rw [hp, hdef] at hop
        exact h.defined_and_added (e := p.entry index size (NvName.ofCStr CStr.empty)) hsize hdef hop
          (fun _ => nvInfoToSave_eq_ok) (fun a _ hname => hname.trans nameStr_empty)
          (.inl zero_mem_empty) happ
      · rw [hp, hdef] at hop
        simp at hop

/-- The index that was found is one that could be defined. -/
theorem defineSomeIndex_spec {rounds : List Round} {start : UInt32}
    (h : defineSomeIndex tcm t size flags rounds start = some (none, t', index)) :
    ∃ io, tcsUtilsNvDefineSpace tcm io t index size flags = (none, t') := by
  induction rounds generalizing start with
  | nil => cases h
  | cons r rounds ih =>
      rw [defineSomeIndex] at h
      split_ifs at h
      · exact ih h
      · rcases hdef : tcsUtilsNvDefineSpace tcm r.define t start size flags with ⟨_ | e, t₁⟩
        · rw [hdef] at h
          simp only [Option.some.injEq, Prod.mk.injEq, true_and] at h
          obtain ⟨rfl, rfl⟩ := h
          exact ⟨_, hdef⟩
        · rw [hdef] at h
          by_cases he : e = .recreate
          · subst he
            exact ih h
          · cases e <;> simp_all

/-- A name that the lookup calls undefined is the name of no space. -/
theorem name_fresh {look : NvRead} {name : CStr} (h : NvDir tcm s l)
    (hlook : tcsIsNvNameDefined look s.file name = some (.ok false)) : ∀ a ∈ l, a.nameStr ≠ name := by
  by_cases hnil : l = []
  · subst hnil
    exact nofun
  · have hfile : s.file = some (nvFile l) := h.held.resolve_left fun hn => hnil hn.2
    have hsize : File.size s.file ≠ 0 := by
      rw [h.held.size_eq]
      exact mt (nvFile_eq_nil h.fits).mp hnil
    have hget := hlook
    rw [tcsIsNvNameDefined, if_neg hsize, hfile] at hget
    obtain ⟨ret, hret, hfalse⟩ := Option.map_eq_some_iff.mp hget
    have hio : look.Granted := by
      rcases ret with e | p
      · cases e <;> simp at hfalse
        exact granted_of_miss hret
      · simp at hfalse
    rw [isNvNameDefined_eq hio h.fits h.held h.terminated] at hlook
    simpa using hlook

/-- What the two functions for named spaces share. -/
theorem defineNamed_spec {look : NvRead} {rounds : List Round} {name : CStr}
    {accepted : Except TssErr Bytes} {save : UInt32 → Except TssErr Bytes} (h : NvDir tcm s l)
    (hop : defineNamed tcm look rounds undo add s name size flags accepted save = some (none, s')) :
    name.strlen ≤ maxNvNameSize ∧ (∀ a ∈ l, a.nameStr ≠ name) ∧
      ∃ index io t, tcsUtilsNvDefineSpace tcm io s.tcm index size flags = (none, t) ∧
        addEntry tcm (save index) add undo { s with tcm := t } index = (none, s') := by
  unfold defineNamed at hop
  split_ifs at hop with hneg hlong
  · simp at hop
  · simp at hop
  · refine ⟨Nat.le_of_not_lt hlong, ?_⟩
    rcases hlook : tcsIsNvNameDefined look s.file name with _ | e | b
    · simp [hlook] at hop
    · simp [hlook] at hop
    · cases b with
      | true => simp [hlook] at hop
      | false =>
          refine ⟨name_fresh h hlook, ?_⟩
          rcases accepted with e | d
          · simp [hlook] at hop
          · rw [hlook] at hop
            obtain ⟨⟨ret, t, index⟩, hfound, hret⟩ := Option.map_eq_some_iff.mp hop
            cases ret with
            | some e => simp at hret
            | none =>
                obtain ⟨io, hdef⟩ := defineSomeIndex_spec hfound
                exact ⟨index, io, t, hdef, hret⟩

theorem step_defineNamed {look : NvRead} {rounds : List Round} {name : CStr} (h : NvDir tcm s l)
    (hsize : size ≠ 0) (hshort : name.strlen < maxNvNameSize)
    (happ : ∀ index, Appends s.file add (plainEntry index size name))
    (hop : tcsNvDefineNamedSpace tcm look rounds undo add s name size = some (none, s')) :
    ∃ index, NvDir tcm s' (l ++ [plainEntry index size name]) := by
  obtain ⟨hlen, hfresh, index, io, t, hdef, hadd⟩ := defineNamed_spec h hop
  have hname : (plainEntry index size name).nameStr = name := ofBytes_ofCStr hlen
  refine ⟨index, h.defined_and_added (e := plainEntry index size name) hsize hdef hadd
    (fun _ => plainEntry_save) (fun a ha heq => ?_) (.inl (zero_mem_ofCStr hshort)) (happ index)⟩
  exact absurd (heq.trans hname) (hfresh a ha)

theorem step_defineNamedOnPolicy {look : NvRead} {rounds : List Round} {name : CStr} {malloc : Bool}
    {p : AuthPolicy} (h : NvDir tcm s l) (hsize : size ≠ 0)
    (hshort : name.strlen < maxNvNameSize ∨ p.policyFlags.toNat % 256 = 0)
    (happ : ∀ index, Appends s.file add (p.entry index size (NvName.ofCStr name)))
    (hop : tcsNvDefineNamedSpaceOnPolicy tcm look rounds undo malloc add s name size p = some (none, s')) :
    ∃ index, NvDir tcm s' (l ++ [p.entry index size (NvName.ofCStr name)]) := by
  obtain ⟨hlen, hfresh, index, io, t, hdef, hadd⟩ := defineNamed_spec h hop
  have hname : (p.entry index size (NvName.ofCStr name)).nameStr = name := ofBytes_ofCStr hlen
  have ht : (p.entry index size (NvName.ofCStr name)).Terminated := hshort.imp zero_mem_ofCStr id
  refine ⟨index, h.defined_and_added (e := p.entry index size (NvName.ofCStr name)) hsize hdef hadd
    (fun _ => nvInfoToSave_eq_ok) (fun a ha heq => ?_) ht (happ index)⟩
  exact absurd (heq.trans hname) (hfresh a ha)

theorem NvDir.nodup (h : NvDir tcm s l) : (l.map NvInfo.index).Nodup := by
  rw [List.Nodup, List.pairwise_map]
  exact h.separate.imp And.left

/-- Deleting from a file that holds the directory. -/
theorem step_delete {del : NvDelete} (h : NvDir tcm s l) (hlost : del.out.lost = 0)
    (hop : tcsNvDeleteSpace tcm io del s index = some (none, s')) :
    NvDir tcm s' (l.filter fun e => e.index ≠ index) := by
  unfold tcsNvDeleteSpace at hop
  rcases hdef : tcsUtilsNvDefineSpace tcm io s.tcm index 0 0 with ⟨_ | e, t⟩
  · rw [hdef] at hop
    obtain ⟨⟨ret, file'⟩, hdel, hret⟩ := Option.map_eq_some_iff.mp hop
    obtain ⟨rfl, rfl⟩ := Prod.mk.inj hret
    refine h.deleted (defineSpace_delete hdef) (.inr ?_)
    rcases h.held with ⟨hnone, rfl⟩ | hfile
    · rw [hnone] at hdel
      simp only [tcsUtilsNvInfoListDelete] at hdel
      cases hsem : del.read.sem.err <;> simp [hsem] at hdel
    · rw [hfile] at hdel
      exact listDelete_eq h.fits h.nodup hlost hdel
  · rw [hdef] at hop
    simp at hop

instance : Std.Symm Separate where
  symm _ _ h := ⟨h.1.symm, fun heq => heq.trans (h.2 heq.symm)⟩

/-- In a directory, an index and a name mean the same space. -/
theorem filter_name (h : NvDir tcm s l) (he : e ∈ l) (hne : e.nameStr ≠ CStr.empty) :
    l.filter (fun a => a.index ≠ e.index) = l.filter fun a => a.nameStr ≠ e.nameStr := by
  refine List.filter_congr fun a ha => ?_
  rw [decide_eq_decide]
  by_cases hae : a = e
  · subst hae
    simp
  · have hsep := h.separate.forall ha he hae
    exact iff_of_true hsep.1 fun hname => hne (hname ▸ hsep.2 hname)

/-- The record that a name leads to. -/
theorem get_name {get : NvRead} {name : CStr} {p : Bytes} (h : NvDir tcm s l)
    (hget : tcsUtilsGetNvInfo get s.file (hasName name) = some (.ok p)) :
    ∃ e ∈ l, e.nameStr = name ∧ (nvInfoToAuth p).index = e.index := by
  rcases h.held with ⟨hnone, -⟩ | hfile
  · rw [hnone] at hget
    simp only [tcsUtilsGetNvInfo] at hget
    cases hsem : get.sem.err <;> simp [hsem] at hget
  · rw [hfile] at hget
    obtain ⟨hio, h0⟩ := granted_of_get hget
    by_cases hmem : ∃ e ∈ l, e.nameStr = name
    · obtain ⟨as, e, bs, rfl, hname, has, he⟩ := name_split h.terminated hmem
      rw [get_hit hio h.fits has he] at hget
      obtain rfl := Except.ok.inj (Option.some.inj hget)
      refine ⟨e, by simp, hname, ?_⟩
      rw [nvInfoToAuth_encoded (h.fits.roles e (by simp))]
    · have hnil : l ≠ [] := by
        rintro rfl
        exact h0 rfl
      have hl : ∀ e ∈ l, ∀ r, hasName name (e.encoded ++ r) = false := by
        intro e he r
        rw [hasName_encoded (h.terminated e he), decide_eq_false_iff_not]
        exact fun hname => hmem ⟨e, he, hname⟩
      rw [get_miss hio h.fits hnil hl] at hget
      cases hget

theorem step_deleteFound {get : NvRead} {del : NvDelete} {name : CStr} (h : NvDir tcm s l)
    (hne : name ≠ CStr.empty) (hlost : del.out.lost = 0)
    (hop : deleteFound tcm get io del s name = some (none, s')) :
    NvDir tcm s' (l.filter fun e => e.nameStr ≠ name) := by
  unfold deleteFound at hop
  rcases hget : tcsUtilsGetNvInfo get s.file (hasName name) with _ | e | p
  · simp [hget] at hop
  · simp [hget] at hop
  · rw [hget] at hop
    obtain ⟨e, he, rfl, hindex⟩ := get_name h hget
    rw [← filter_name h he hne, ← hindex]
    exact step_delete h hlost hop

theorem step_deleteNamed {look get : NvRead} {del : NvDelete} {name : CStr} (h : NvDir tcm s l)
    (hne : name ≠ CStr.empty) (hlost : del.out.lost = 0)
    (hop : tcsNvDeleteNamedSpace tcm look get io del s name = some (none, s')) :
    NvDir tcm s' (l.filter fun e => e.nameStr ≠ name) := by
  unfold tcsNvDeleteNamedSpace at hop
  rcases hlook : tcsIsNvNameDefined look s.file name with _ | e | b
  · simp [hlook] at hop
  · rw [hlook] at hop
    exact step_deleteFound h hne hlost hop
  · cases b with
    | true =>
        rw [hlook] at hop
        exact step_deleteFound h hne hlost hop
    | false =>
        simp only [hlook, Option.some.injEq, Prod.mk.injEq, true_and] at hop
        subst hop
        have hall : l.filter (fun e => e.nameStr ≠ name) = l := by
          refine List.filter_eq_self.mpr fun e he => ?_
          simpa using name_fresh h hlook e he
        rwa [hall]

/-- The entries of a list are added one after the other. -/
theorem setNvList_spec {items : List (Bool × NvAdd × NvInfo)} (hheld : NvHeld file l)
    (hlost : ∀ i ∈ items, i.2.1.out.lost = 0) (h : tcsSetNvList file items = (none, file')) :
    NvHeld file' (l ++ items.map fun i => i.2.2) ∧ ∀ i ∈ items, i.2.2.prBytes.length < 2 ^ 31 := by
  induction items generalizing file l with
  | nil =>
      obtain rfl := (Prod.ext_iff.mp h).2
      exact ⟨by rwa [List.map_nil, List.append_nil], nofun⟩
  | cons i items ih =>
      obtain ⟨malloc, ioa, e⟩ := i
      obtain ⟨hi, hitems⟩ := List.forall_mem_cons.mp hlost
      rw [tcsSetNvList] at h
      rcases hsave : nvInfoToSave malloc e with err | data
      · simp [hsave] at h
      · obtain ⟨rfl, hpr⟩ := nvInfoToSave_eq_ok hsave
        rcases hadd : tcsUtilsNvInfoListAdd ioa file e.encoded with ⟨_ | err, file₁⟩
        · simp only [hsave, hadd] at h
          obtain ⟨hheld', hprs⟩ := ih (.inr (listAdd_eq hheld hi hadd)) hitems h
          refine ⟨?_, List.forall_mem_cons.mpr ⟨hpr, hprs⟩⟩
          rwa [List.append_assoc] at hheld'
        · simp [hsave, hadd] at h

theorem directory_eq (h : NvDir tcm s l) : directory s.file = l := by
  have hget : s.file.getD [] = nvFile l := by
    rcases h.held with ⟨hnone, rfl⟩ | hfile
    · rw [hnone]
      rfl
    · rw [hfile]
      rfl
  have hcollect := @Packed.collect_packed _ (2 ^ 32) nvSize NvInfo.encoded l [] _ [] _ _ id h.fits.sized
    (fun e he r => nvInfoToAuth_encoded (h.fits.roles e he)) h.fits.small (Nat.lt_succ_of_le h.fits.length_le)
  rw [List.map_id, List.append_nil] at hcollect
  unfold directory
  rw [hget]
  exact congrArg (fun o => o.getD []) hcollect

theorem step_setList {items : List (Bool × NvAdd × NvInfo)} (h : NvDir tcm s l)
    (hok : NvOk tcm s (.setList items)) (hset : tcsSetNvList s.file items = (none, file')) :
    NvDir tcm { s with file := file' } (l ++ items.map fun i => i.2.2) := by
  obtain ⟨hsep, hitems, hsize⟩ := hok
  obtain ⟨hheld, hprs⟩ := setNvList_spec h.held (fun i hi => (hitems i hi).2.2) hset
  rw [directory_eq h] at hsep
  rw [h.held.size_eq] at hsize
  have hall {P : NvInfo → Prop} (hl : ∀ e ∈ l, P e) (hi : ∀ i ∈ items, P i.2.2) :
      ∀ e ∈ l ++ items.map fun i => i.2.2, P e := by
    intro e he
    rcases List.mem_append.mp he with he | he
    · exact hl e he
    · obtain ⟨i, himem, rfl⟩ := List.mem_map.mp he
      exact hi i himem
  refine ⟨hheld, ⟨?_, hall h.fits.roles hprs⟩, hsep, ?_, ?_⟩
  · rw [nvFile_append, List.length_append]
    exact hsize
  · exact hall h.terminated fun i hi => (hitems i hi).1
  · exact hall h.defined fun i hi => (hitems i hi).2.1

theorem nvStep_eq_some {op : NvOp} : nvStep tcm s op = some s' ↔ op.apply tcm s = some (none, s') := by
  unfold nvStep
  rcases op.apply tcm s with _ | ⟨_ | e, s₁⟩ <;> simp

/-- **Every permitted step is the step of the list.** -/
theorem nvStep_refines {op : NvOp} (h : NvDir tcm s l) (hok : NvOk tcm s op)
    (hstep : nvStep tcm s op = some s') : ∃ l', NvSpec l op l' ∧ NvDir tcm s' l' := by
  rw [nvStep_eq_some] at hstep
  cases op with
  | define io undo add index size => exact ⟨_, rfl, step_define h hok.1 hok.2 (Option.some.inj hstep)⟩
  | defineOnPolicy opens io undo malloc add index size p =>
      exact ⟨_, rfl, step_defineOnPolicy h hok.1 hok.2 (Option.some.inj hstep)⟩
  | defineNamed look rounds undo add name size =>
      obtain ⟨hsize, -, hshort, happ⟩ := hok
      obtain ⟨index, hdir⟩ := step_defineNamed h hsize hshort happ hstep
      exact ⟨_, ⟨index, rfl⟩, hdir⟩
  | defineNamedOnPolicy look rounds undo malloc add name size p =>
      obtain ⟨hsize, -, hshort, happ⟩ := hok
      obtain ⟨index, hdir⟩ := step_defineNamedOnPolicy h hsize hshort happ hstep
      exact ⟨_, ⟨index, rfl⟩, hdir⟩
  | delete io del index => exact ⟨_, rfl, step_delete h hok hstep⟩
  | deleteNamed look get io del name => exact ⟨_, rfl, step_deleteNamed h hok.1 hok.2 hstep⟩
  | setList items =>
      obtain ⟨hnone, rfl⟩ := Prod.mk.inj (Option.some.inj hstep)
      exact ⟨_, rfl, step_setList h hok (Prod.ext hnone rfl)⟩

/-- **The invariant is what the directory promises.** -/
theorem NvDir.promise (h : NvDir tcm s l) : NvPromise s.file l where
  separate := h.separate
  list := fun io hio hc hi => readNvList_eq hio hc hi h.fits h.held
  lookup := by
    intro e he hne io hio
    have hmem : ∃ a ∈ l, a.nameStr = e.nameStr := ⟨e, he, rfl⟩
    refine ⟨?_, ?_⟩
    · rw [isNvNameDefined_eq hio h.fits h.held h.terminated, decide_eq_true hmem]
    · have hfile : s.file = some (nvFile l) :=
        h.held.resolve_left fun hn => by simp [hn.2] at he
      obtain ⟨as, a, bs, rfl, hname, has, ha⟩ := name_split h.terminated hmem
      have hget := get_hit hio h.fits has ha
      rw [← hfile] at hget
      refine ⟨_, hget, ?_⟩
      rw [nvInfoToAuth_encoded (h.fits.roles a (by simp))]
      by_contra hindex
      have hsep := h.separate.forall (show a ∈ as ++ a :: bs by simp) he
        fun hae => hindex (by rw [hae])
      exact hne (hname ▸ hsep.2 hname)
  undefined := by
    intro name hno io hio
    have hmem : ¬ ∃ e ∈ l, e.nameStr = name := fun ⟨e, he, hname⟩ => hno e he hname
    rw [isNvNameDefined_eq hio h.fits h.held h.terminated, decide_eq_false hmem]

end Steps

/-- **The directory refines a list of spaces.**  Along every history of operations that return
success and meet `NvOk`, from no file on and whatever the TCM holds, the operations do to
the list what they say, and the directory keeps its promises for it. -/
theorem nv_directory_refines {s s' : NvState T} {ops : List NvOp} (h0 : s.file = none)
    (hok : Run.Meets (nvStep tcm) (NvOk tcm) s ops) (hrun : Run.run (nvStep tcm) s ops = some s') :
    ∃ l, Run.Steps NvSpec [] ops l ∧ NvPromise s'.file l := by
  have hinit : NvDir tcm s [] := by
    refine ⟨.inl ⟨h0, rfl⟩, ⟨by decide, nofun⟩, .nil, nofun, nofun⟩
  have hsim : ∀ s l op s', NvDir tcm s l → NvOk tcm s op → nvStep tcm s op = some s' →
      ∃ l', NvSpec l op l' ∧ NvDir tcm s' l' := fun _ _ _ _ h hok hs => nvStep_refines h hok hs
  obtain ⟨l, hsteps, hdir⟩ := Run.run_simulates hsim hinit hok hrun
  exact ⟨l, hsteps, hdir.promise⟩

/-- A writer that gets all it asks for. -/
theorem listAdd_ok {io : NvAdd} {file : Option Bytes} {data : Bytes} (hsem : io.sem.err = none)
    (ho : io.out.opens = true) (hroom : data.length ≤ io.out.room) (hlost : io.out.lost = 0) :
    tcsUtilsNvInfoListAdd io file data = (none, some (file.getD [] ++ data)) := by
  simp only [tcsUtilsNvInfoListAdd, hsem, ho, not_true_eq_false, if_false, if_neg (Nat.not_lt.mpr hroom),
    Stream.kept, hlost, Nat.sub_zero, List.take_length]

/-- A TCM that is the list of its indices. -/
def listTcm : Tcm (List UInt32) where
  isDefined t i := decide (i ∈ t)
  define t i := i :: t
  delete t i := t.filter (· ≠ i)
  isDefined_define t i j := by simp [Bool.decide_or]
  isDefined_delete t i j := by simp [Bool.and_comm]

/-- A definition that the TCM carries out. -/
def DefineIo.granted : DefineIo := ⟨none, true, none⟩

/-- A reader and a writer of the directory that get all they ask for. -/
def NvRead.granted : NvRead := ⟨.taken, true, true, true, []⟩

def NvAdd.granted : NvAdd := ⟨.taken, ⟨true, 4096, 0⟩⟩

/-- A space of 16 bytes under a name, with the first index that is tried. -/
def namedSpace (name : CStr) : NvOp :=
  .defineNamed .granted [⟨true, 0, .granted⟩] .granted .granted name 16

/-- Its entry. -/
def namedEntry (name : CStr) : NvInfo := plainEntry defaultNameIndex 16 name

/-- Defining it in an empty TCM, without a directory. -/
theorem namedSpace_run {name : CStr} (h : name.strlen ≤ maxNvNameSize) :
    Run.run (nvStep listTcm) ⟨[], none⟩ [namedSpace name] =
      some ⟨[defaultNameIndex], some (nvFile [namedEntry name])⟩ := by
  have hlen : (namedEntry name).encoded.length = 280 := NvInfo.length_encoded
  have hadd : tcsUtilsNvInfoListAdd .granted none (namedEntry name).encoded =
      (none, some (nvFile [namedEntry name])) := by
    have hfile : nvFile [namedEntry name] = (namedEntry name).encoded := List.append_nil _
    rw [hfile]
    rw [listAdd_ok rfl rfl (by rw [hlen]; decide) rfl, Option.getD_none, List.nil_append]
  have hop : tcsNvDefineNamedSpace listTcm .granted [⟨true, 0, .granted⟩] .granted .granted ⟨[], none⟩
      name 16 = some (none, ⟨[defaultNameIndex], some (nvFile [namedEntry name])⟩) := by
    have hlook : tcsIsNvNameDefined .granted none name = some (.ok false) := if_pos rfl
    have hfound : defineSomeIndex listTcm [] 16 0 [⟨true, 0, .granted⟩] defaultNameIndex =
        some (none, [defaultNameIndex], defaultNameIndex) := by decide
    rw [namedEntry] at hadd ⊢
    rw [tcsNvDefineNamedSpace, defineNamed, if_neg (by decide), if_neg (Nat.not_lt.mpr h)]
    simp only [hlook, hfound, Option.map_some, addEntry, hadd]
  have hstep : nvStep listTcm ⟨[], none⟩ (namedSpace name) =
      some ⟨[defaultNameIndex], some (nvFile [namedEntry name])⟩ := nvStep_eq_some.mpr hop
  rw [Run.run_cons_of_step hstep, Run.run_nil]

/-- A short name is found again. -/
theorem short_name_defined : ∃ l, Run.Steps NvSpec [] [namedSpace ⟨[97], by decide⟩] l ∧
    NvPromise (some (nvFile [namedEntry ⟨[97], by decide⟩])) l := by
  have happ : ∀ index, Appends none .granted (plainEntry index 16 ⟨[97], by decide⟩) := by
    intro index
    refine ⟨?_, rfl⟩
    rw [NvInfo.length_encoded]
    change 0 + (280 + 0) < 2 ^ 32
    decide
  have hok : Run.Meets (nvStep listTcm) (NvOk listTcm) ⟨[], none⟩ [namedSpace ⟨[97], by decide⟩] :=
    ⟨⟨by decide, by decide, by decide, happ⟩, fun _ _ => trivial⟩
  exact nv_directory_refines listTcm rfl hok (namedSpace_run (by decide))

/-- A name of `MAX_NV_NAME_SIZE` characters. -/
def longName : CStr := ⟨List.replicate 256 97, fun h => absurd (List.mem_replicate.mp h).2 (by decide)⟩

theorem strlen_longName : longName.strlen = maxNvNameSize := List.length_replicate

/-- **A name that fills its field is not found again:** `strcmp` reads on into the flags. -/
theorem hasName_longName {r : Bytes} : hasName longName ((namedEntry longName).encoded ++ r) = false := by
  have hname : (namedEntry longName).name.1 = longName.bytes := by
    change (NvName.ofCStr longName).1 = longName.bytes
    rw [NvName.ofCStr_eq strlen_longName.le, strlen_longName, Nat.sub_self, List.replicate_zero,
      List.append_nil]
  have hcstr : cstr (((namedEntry longName).encoded ++ r).drop 8) ≠ longName.bytes := by
    rw [drop_name, hname, cstr_append_of_notMem longName.nulFree]
    have hflags : hostBytes 4 (namedEntry longName).policyFlags.toNat = [255, 255, 255, 255] := by
      change hostBytes 4 noPolicy.toNat = _
      decide
    rw [hflags, List.cons_append, cstr_cons, if_neg (by decide)]
    intro h
    have hlen := congrArg List.length h
    rw [List.length_append, List.length_cons] at hlen
    omega
  rw [hasName, decide_eq_false_iff_not, strcmp_eq_zero_iff_cstr, cstr_of_nulFree longName.nulFree]
  exact hcstr

/-- Nor does the directory keep its promise for it. -/
theorem long_name_not_defined :
    Run.run (nvStep listTcm) ⟨[], none⟩ [namedSpace longName] =
        some ⟨[defaultNameIndex], some (nvFile [namedEntry longName])⟩ ∧
      tcsIsNvNameDefined .granted (some (nvFile [namedEntry longName])) longName = some (.ok false) ∧
      ¬ ∃ l, Run.Steps NvSpec [] [namedSpace longName] l ∧
        NvPromise (some (nvFile [namedEntry longName])) l := by
  have hfits : NvFits [namedEntry longName] := by
    refine ⟨?_, ?_⟩
    · have hlen : (nvFile [namedEntry longName]).length = 280 := by
        simp [nvFile, NvInfo.length_encoded, nvSaveInfoSize, namedEntry, plainEntry, NvInfo.prBytes]
      rw [hlen]
      decide
    · intro e he
      obtain rfl := List.mem_singleton.mp he
      decide
  have hio : NvRead.granted.Granted := ⟨rfl, rfl, rfl, rfl⟩
  have hmiss : tcsUtilsGetNvInfo .granted (some (nvFile [namedEntry longName])) (hasName longName) =
      some (.error .parameter) := by
    refine get_miss hio hfits (List.cons_ne_nil _ _) fun e he r => ?_
    obtain rfl := List.mem_singleton.mp he
    exact hasName_longName
  have hundef : tcsIsNvNameDefined .granted (some (nvFile [namedEntry longName])) longName =
      some (.ok false) := by
    have hsize : File.size (some (nvFile [namedEntry longName])) ≠ 0 :=
      mt (nvFile_eq_nil hfits).mp (List.cons_ne_nil _ _)
    rw [tcsIsNvNameDefined, hmiss, if_neg hsize]
    rfl
  refine ⟨namedSpace_run strlen_longName.le, hundef, ?_⟩
  rintro ⟨l, ⟨l₁, ⟨index, rfl⟩, rfl⟩, hpromise⟩
  have hstr : (plainEntry index 16 longName).nameStr = longName := ofBytes_ofCStr strlen_longName.le
  have hne : longName ≠ CStr.empty := by
    intro h
    have hlen := strlen_longName
    rw [h] at hlen
    cases hlen
  obtain ⟨htrue, -⟩ := hpromise.lookup (plainEntry index 16 longName) (by simp) (by rwa [hstr]) _ hio
  rw [hstr, hundef] at htrue
  cases htrue

end Tcs
end TsbAgent
