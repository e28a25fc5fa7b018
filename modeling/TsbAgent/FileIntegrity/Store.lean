/-
# The stored references

`file_integrity_set`, `file_integrity_add` and `file_integrity_del` of `tss-main/tcf/src/tcf_file_integrity.c`
keep the list of references in `integrity.data`, as records one after the other.  An added record goes behind
the last one; a deleted record stays where it is, with its data set to zero, and a reader leaves it out:

| | the file | the list |
| --- | --- | --- |
| set | is written anew | what the update lists |
| add | padding, then the update | the list, then what the update lists |
| delete | the data of what matches is set to zero | the list without what the update lists |

The file follows the list (`store_refines`) as long as

* a delete that has something to write can open the file: `httc_util_file_write_offset_array` returns 0 when it
  cannot, and `httc_util_file_size` does not tell a file that cannot be opened from one that is not there;
* the path of a listed reference is looked for where it is: `file_integrity_match` skips as many bytes as the
  stored reference has extended data;
* a call that has begun to write goes on to success: what a call has written that fails later stays;
* and no listed digest is zero, and the file is not too long to be read.
-/

import TsbAgent.FileIntegrity.Update
import TsbAgent.Httcutils.File
import TsbAgent.Lib.Run

namespace TsbAgent
namespace FileIntegrity
namespace Store

open Libc File Httcutils Run

/-- `TCF_ERR_DIR`, `TCF_ERR_FILE` and `TCF_ERR_NOMEM`. -/
def tcfErrDir : ℤ := 4097
def tcfErrFile : ℤ := 4098
def tcfErrNomem : ℤ := 4099

/-! ### The table of the references -/

/-- `struct file_integrity_node`: the copy of a record, and where the record is in the file.  Two nodes of one
table have different offsets, so that a node stands for its address. -/
structure Node where
  size : ℕ
  alignedSize : ℕ
  pathLength : ℕ
  data : Bytes
  offset : ℕ
deriving DecidableEq

/-- `hash_value`: the first two bytes of the digest, as a `uint16_t`. -/
def hashValue (item : Bytes) : ℕ := (item.getD 4 0).toNat + 256 * (item.getD 5 0).toNat

/-- The node that `file_integrity_add_to_hash_table` makes. -/
def addToHashTable (item : Bytes) (filePos : ℕ) : Node :=
  ⟨recordSize item, align4 (recordSize item), FileIntegrity.pathLength item, item.take (recordSize item), filePos⟩

/-- `file_integrity_add_list_to_hash_table`: the list that it makes, from `filePos` on. -/
def addListToHashTable : ℕ → List Bytes → List Node
  | _, [] => []
  | filePos, item :: items =>
      if itemHash item = Digest.zero then addListToHashTable (filePos + align4 (recordSize item)) items
      else addToHashTable item filePos :: addListToHashTable (filePos + align4 (recordSize item)) items

/-- `file_integrity_data.hash_table`: a new node comes first in its chain. -/
def hashTable (nodes : List Node) : ℕ → List Node :=
  nodes.foldl (fun t n => Function.update t (hashValue n.data) (n :: t (hashValue n.data))) fun _ => []

/-- The bytes of the item from `off` on, where `behind` follows the update in memory. -/
def itemBytes (behind : ℕ → UInt8) (item : Bytes) (off n : ℕ) : Bytes :=
  (List.range n).map fun i => item.getD (off + i) (behind (off + i - item.length))

/-- The comparison of `file_integrity_match` and `file_integrity_match_next`. -/
def nodeMatches (behind : ℕ → UInt8) (node : Node) (item : Bytes) : Bool :=
  if node.pathLength = 0 then
    FileIntegrity.pathLength item = 0 && itemHash item = itemHash node.data
  else
    FileIntegrity.pathLength item = node.pathLength && itemHash item = itemHash node.data &&
      itemBytes behind item (36 + extendSize node.data) node.pathLength = itemPath node.data

/-- `file_integrity_delete_policy_data_prepare`: the nodes to delete, each once. -/
def deletePrepare (behind : ℕ → UInt8) (nodes : List Node) (items : List Bytes) : List Node :=
  items.foldl (fun delarray item =>
    ((hashTable nodes (hashValue item)).filter (nodeMatches behind · item)).foldl
      (fun delarray info => if info ∈ delarray then delarray else delarray ++ [info]) delarray) []

/-! ### The file -/

/-- `httc_util_file_size`. -/
def httcUtilFileSize (opens : Bool) (file : Option Bytes) : Option ℕ :=
  match file with
  | none => none
  | some f => if opens then some f.length else none

/-- `httc_util_file_append`: the file is made where it is not there. -/
def httcUtilFileAppend (io : Stream) (file : Option Bytes) (b : Bytes) : ℤ × Option Bytes :=
  if ¬ io.opens then (0, file)
  else ((b.take io.room).length, some (file.getD [] ++ io.kept (b.take io.room)))

/-- `struct file_section`. -/
structure Section where
  offset : ℕ
  buffer : Bytes

/-- The loop of `httc_util_file_write_offset_array`; of the section `i` the system takes `room i` bytes. -/
def writeSections (room : ℕ → ℕ) : ℕ → Bytes → List Section → ℤ × Bytes
  | _, f, [] => (0, f)
  | i, f, p :: ps =>
      if room i < p.buffer.length then (-1, patch f p.offset (p.buffer.take (room i)))
      else writeSections room (i + 1) (patch f p.offset p.buffer) ps

/-- `httc_util_file_write_offset_array`. -/
def httcUtilFileWriteOffsetArray (opens : Bool) (room : ℕ → ℕ) (file : Option Bytes) (p : List Section) :
    ℤ × Option Bytes :=
  match file with
  | none => (0, none)
  | some f =>
      if ¬ opens then (0, some f)
      else
        let r := writeSections room 0 f p
        (r.1, some r.2)

/-- `n` bytes from `ZERO_ARRAY` on, an array of 1024. -/
def zeroBuffer (beyond : ℕ → UInt8) (n : ℕ) : Bytes :=
  (List.range n).map fun i => if i < 1024 then 0 else beyond (i - 1024)

/-! ### The calls -/

/-- What `build_integrity_data` meets. -/
structure BuildIo where
  sizeOpens : Bool
  supported : Bool
  /-- `tcs_get_file_integrity`. -/
  tpcm : ℤ × Bytes
  createPath : Bool
  write : Stream
  read : ReadIo
  alloc : Bool

/-- `file_integrity_hash_policy_data`: its return value, and the new nodes. -/
def hashPolicyData (alloc : Bool) (data : Bytes) : ℤ × List Node :=
  match bufferToItemArray data data.length with
  | .error e => (e, [])
  | .ok items => if alloc = false then (tcfErrNomem, []) else (0, addListToHashTable 0 items)

/-- What a function returns, and the file then. -/
structure Result where
  ret : ℤ
  file : Option Bytes
  nodes : List Node

/-- `build_integrity_data`. -/
def buildIntegrityData (io : BuildIo) (file : Option Bytes) : Result :=
  match httcUtilFileSize io.sizeOpens file with
  | some size =>
      if size = 0 then ⟨0, file, []⟩
      else
        match httcUtilFileReadFull io.read file with
        | none => ⟨tcfErrFile, file, []⟩
        | some rbuffer => ⟨(hashPolicyData io.alloc rbuffer).1, file, (hashPolicyData io.alloc rbuffer).2⟩
  | none =>
      if io.supported then
        let rbuffer := io.tpcm.2
        if io.tpcm.1 ≠ 0 then ⟨io.tpcm.1, file, []⟩
        else if io.createPath = false then ⟨tcfErrDir, file, []⟩
        else
          let w := httcUtilFileWrite io.write file rbuffer
          if w.1 ≠ rbuffer.length then ⟨tcfErrFile, w.2, []⟩
          else if rbuffer.length = 0 then ⟨0, w.2, []⟩
          else ⟨(hashPolicyData io.alloc rbuffer).1, w.2, (hashPolicyData io.alloc rbuffer).2⟩
      else ⟨0, file, []⟩

/-- `be_action`. -/
inductive StoreAction
  | set
  | add
  | delete
deriving DecidableEq

/-- A call of `tcf_update_file_integrity` and what it meets. -/
structure StoreCall where
  action : StoreAction
  /-- The records of the update, and the memory behind them. -/
  data : Bytes
  behind : ℕ → UInt8
  /-- What the semaphore and the check of the version return. -/
  admission : ℤ
  build : BuildIo
  alloc : Bool
  /-- `tcs_update_file_integrity`. -/
  tcsUpdate : ℤ
  createPath : Bool
  write : Stream
  /-- The second `httc_util_file_size`, and the two `httc_util_file_append`. -/
  sizeOpens : Bool
  fill : Stream
  append : Stream
  /-- The sections of a delete: their memory, the file, and what lies behind `ZERO_ARRAY`. -/
  sectionAlloc : Bool
  updateOpens : Bool
  room : ℕ → ℕ
  beyond : ℕ → UInt8
  /-- `httc_get_file_digest` and `tcf_update_file_integrity_digest`. -/
  fileDigest : ℤ
  updateDigest : ℤ
  /-- `tsb_remove_file_integrity`. -/
  tsbRemove : ℤ
  /-- `update_file_integrity_version`, zero where there is no `local_ref`. -/
  updateVersion : ℤ

/-- The end of `file_integrity_set` and `file_integrity_add`, and of `file_integrity_del` with the answer of
`tsb_remove_file_integrity`. -/
def registerDigest (c : StoreCall) (file : Option Bytes) (ret : ℤ) : ℤ × Option Bytes :=
  if c.fileDigest ≠ 0 then (c.fileDigest, file)
  else if c.updateDigest ≠ 0 then (c.updateDigest, file)
  else (ret, file)

/-- `file_integrity_set`. -/
def fileIntegritySet (c : StoreCall) (file : Option Bytes) : ℤ × Option Bytes :=
  if (hashPolicyData c.alloc c.data).1 ≠ 0 then ((hashPolicyData c.alloc c.data).1, file)
  else if c.tcsUpdate ≠ 0 then (c.tcsUpdate, file)
  else if c.createPath = false then (tcfErrDir, file)
  else
    let w := httcUtilFileWrite c.write file c.data
    -- an `int` is compared with an `unsigned int`
    if w.1 % 2 ^ 32 ≠ c.data.length then (tcfErrFile, w.2)
    else registerDigest c w.2 0

/-- The part of `file_integrity_add` that writes. -/
def appendData (c : StoreCall) (file : Option Bytes) : ℤ × Option Bytes :=
  let fsize := (httcUtilFileSize c.sizeOpens file).getD 0
  let fill := List.replicate (align4 fsize - fsize) 0
  let w := if align4 fsize > fsize then httcUtilFileAppend c.fill file fill else (0, file)
  if w.1 ≠ fill.length then (tcfErrFile, w.2)
  else
    let w := httcUtilFileAppend c.append w.2 c.data
    if w.1 % 2 ^ 32 ≠ c.data.length then (tcfErrFile, w.2)
    else registerDigest c w.2 0

/-- `file_integrity_add`. -/
def fileIntegrityAdd (c : StoreCall) (file : Option Bytes) : ℤ × Option Bytes :=
  let b := buildIntegrityData c.build file
  if b.ret ≠ 0 then (b.ret, b.file)
  else if (hashPolicyData c.alloc c.data).1 ≠ 0 then ((hashPolicyData c.alloc c.data).1, b.file)
  else if c.tcsUpdate ≠ 0 then (c.tcsUpdate, b.file)
  else appendData c b.file

/-- The section of a node. -/
def nodeSection (beyond : ℕ → UInt8) (node : Node) : Section :=
  ⟨node.offset + 4, zeroBuffer beyond (node.alignedSize - 4)⟩

/-- The part of `file_integrity_del` that writes. -/
def deleteData (c : StoreCall) (dellist : List Node) (file : Option Bytes) : ℤ × Option Bytes :=
  if dellist = [] then registerDigest c file c.tsbRemove
  else if c.sectionAlloc = false then (tcfErrNomem, file)
  else
    let w := httcUtilFileWriteOffsetArray c.updateOpens c.room file (dellist.map (nodeSection c.beyond))
    if w.1 ≠ 0 then (w.1, w.2)
    else registerDigest c w.2 c.tsbRemove

/-- `file_integrity_del`. -/
def fileIntegrityDel (c : StoreCall) (file : Option Bytes) : ℤ × Option Bytes :=
  let b := buildIntegrityData c.build file
  if b.ret ≠ 0 then (b.ret, b.file)
  else
    match bufferToItemArray c.data c.data.length with
    | .error _ => (-1, b.file)
    | .ok items =>
        if c.alloc = false then (-1, b.file)
        else if c.tcsUpdate ≠ 0 then (c.tcsUpdate, b.file)
        else deleteData c (deletePrepare c.behind b.nodes items) b.file

/-- The function for the action. -/
def storeOperation (c : StoreCall) (file : Option Bytes) : ℤ × Option Bytes :=
  match c.action with
  | .set => fileIntegritySet c file
  | .add => fileIntegrityAdd c file
  | .delete => fileIntegrityDel c file

/-- `tcf_update_file_integrity`: the return value, and the file. -/
def updateFileIntegrity (c : StoreCall) (file : Option Bytes) : ℤ × Option Bytes :=
  if c.admission ≠ 0 then (c.admission, file)
  else
    let r := storeOperation c file
    if r.1 = 0 then (c.updateVersion, r.2) else r

/-! ### The list of references -/

/-- The record at a pointer. -/
def record (item : Bytes) : Bytes := item.take (recordSize item)

/-- The records of a buffer, deleted ones included. -/
def records (data : Bytes) : List Bytes :=
  match bufferToItemArray data data.length with
  | .error _ => []
  | .ok items => items.map record

/-- The same digest and the same path. -/
def SameRef (a b : Bytes) : Prop := itemHash a = itemHash b ∧ itemPath a = itemPath b

instance (a b : Bytes) : Decidable (SameRef a b) := inferInstanceAs (Decidable (_ ∧ _))

/-- The list after a call that has returned success. -/
def applied (c : StoreCall) (refs : List Bytes) : List Bytes :=
  match c.action with
  | .set => records c.data
  | .add => refs ++ records c.data
  | .delete => refs.filter fun r => ∀ l ∈ records c.data, ¬ SameRef r l

/-- The file, and the list that the calls which returned success have made. -/
structure State where
  file : Option Bytes
  refs : List Bytes

/-- A call. -/
def storeStep (s : State) (c : StoreCall) : Option State :=
  some ⟨(updateFileIntegrity c s.file).2,
    if (updateFileIntegrity c s.file).1 = 0 then applied c s.refs else s.refs⟩

/-- Before the first call. -/
def State.init : State := ⟨none, []⟩

/-- The system grants `build_integrity_data` what it asks for, and the TPCM is not asked. -/
structure BuildIo.Granted (io : BuildIo) : Prop where
  sizeOpens : io.sizeOpens = true
  supported : io.supported = false
  read : io.read.Granted
  alloc : io.alloc = true

/-- `build_integrity_data` reads the list back. -/
def ReadsBack (file : Option Bytes) (refs : List Bytes) : Prop :=
  ∀ io : BuildIo, io.Granted →
    (buildIntegrityData io file).ret = 0 ∧ (buildIntegrityData io file).nodes.map Node.data = refs

/-- What a delete does to each record of the file: the digest of one that the update lists is zero, and no
other record is changed. -/
def DeletesOnly (f f' : Bytes) (listed : List Bytes) : Prop :=
  ∀ items, bufferToItemArray f f.length = .ok items → ∀ item ∈ items,
    if itemHash item ≠ Digest.zero ∧ ∃ l ∈ listed, SameRef item l then
      itemHash (f'.drop (f.length - item.length)) = Digest.zero
    else record (f'.drop (f.length - item.length)) = record item

end Store
end FileIntegrity
end TsbAgent
