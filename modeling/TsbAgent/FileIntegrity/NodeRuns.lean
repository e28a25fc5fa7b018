/-
# Chains and list over whole runs

Every call that gets past the semaphore builds the table from the file, but for a set, which begins with an empty
one.  New nodes are put into the chains before the TPCM is asked and before the file is written; the list gets them
at the end, or the chains lose them again:

| a call fails at | set | add | delete |
| --- | --- | --- | --- |
| the build | | the table so far | the table so far |
| an allocation, the records | no node | as built | as built |
| the TPCM | dropped, no node | dropped | as built |
| the file | dropped, no node | dropped | as built |
| the digest of the file | appended | appended | deleted |

so that chains and list hold the same nodes after every call (`nodes_agree`), and a failing add leaves the table as
`build_integrity_data` has left it, unless its records are in the file already.
-/

import TsbAgent.FileIntegrity.DeleteMatch

namespace TsbAgent
namespace FileIntegrity
namespace Nodes

open Libc Store Httcutils Run

/-! ### The calls -/

/-- The file and the table. -/
structure TableState where
  file : Option Bytes
  table : IntegrityData

def TableState.init : TableState := ⟨none, IntegrityData.init⟩

/-- What `build_integrity_data` meets. -/
structure BuildCall where
  io : BuildIo
  grants : Grants
  /-- `tcs_get_file_integrity` returns the length as an `int`. -/
  small : io.tpcm.2.length < 2 ^ 31

/-- What `build_integrity_data` has before it looks at the records: what it returns where there are none. -/
structure Loaded where
  ret : ℤ
  buffer : Option Bytes
  file : Option Bytes

/-- The first part of `build_integrity_data`: the records come from the file, or from the TPCM. -/
def loadBuffer (io : BuildIo) (file : Option Bytes) : Loaded :=
  match httcUtilFileSize io.sizeOpens file with
  | some size =>
      if size = 0 then ⟨0, none, file⟩
      else
        match httcUtilFileReadFull io.read file with
        | none => ⟨tcfErrFile, none, file⟩
        | some rbuffer => ⟨0, some rbuffer, file⟩
  | none =>
      if io.supported then
        let rbuffer := io.tpcm.2
        if io.tpcm.1 ≠ 0 then ⟨io.tpcm.1, none, file⟩
        else if io.createPath = false then ⟨tcfErrDir, none, file⟩
        else
          let w := httcUtilFileWrite io.write file rbuffer
          if w.1 ≠ rbuffer.length then ⟨tcfErrFile, none, w.2⟩
          else ⟨0, if rbuffer.length = 0 then none else some rbuffer, w.2⟩
      else ⟨0, none, file⟩

/-- `file_integrity_append_hashed_array` where there is an array. -/
def appendHashed (h : Hashed) (dataLength : ℕ) (t : IntegrityData) : Except Fault IntegrityData :=
  match h.array with
  | none => .ok t
  | some array => appendHashedArray array h.total dataLength t

/-- The second part of `build_integrity_data`. -/
def hashBuffer (g : Grants) (l : Loaded) (t : IntegrityData) : Except Fault (ℤ × TableState) :=
  match l.buffer with
  | none => .ok (l.ret, ⟨l.file, t⟩)
  | some rbuffer => do
      let h ← hashPolicyData g rbuffer t
      let t ← appendHashed h.1 rbuffer.length h.2
      .ok (h.1.ret, ⟨l.file, t⟩)

/-- `build_integrity_data`. -/
def buildIntegrityData (b : BuildCall) (s : TableState) : Except Fault (ℤ × TableState) := do
  let t ← reset s.table
  hashBuffer b.grants (loadBuffer b.io s.file) t

/-- A call of `tcf_update_file_integrity`: what it meets, and which of its allocations are granted. -/
structure UpdateCall extends StoreCall where
  buildGrants : Grants
  grants : Grants
  delGrants : DelGrants
  /-- `be_data_length` has 32 bits. -/
  small : data.length < 2 ^ 32
  smallTpcm : build.tpcm.2.length < 2 ^ 31

def UpdateCall.buildCall (c : UpdateCall) : BuildCall := ⟨c.build, c.buildGrants, c.smallTpcm⟩

/-- A set that fails once the nodes are in the chains. -/
def undoSet (ret : ℤ) (file : Option Bytes) (h : Hashed × IntegrityData) : Except Fault (ℤ × TableState) := do
  let t ← dropNodes (h.1.array.getD []) h.2
  let t ← reset t
  .ok (ret, ⟨file, t⟩)

/-- `file_integrity_set` and `file_integrity_add` once the records are in the file. -/
def appendAndRegister (c : UpdateCall) (file : Option Bytes) (h : Hashed × IntegrityData) :
    Except Fault (ℤ × TableState) := do
  let t ← appendHashedArray (h.1.array.getD []) h.1.total c.data.length h.2
  let d := registerDigest c.toStoreCall file 0
  .ok (d.1, ⟨d.2, t⟩)

/-- `file_integrity_set`. -/
def fileIntegritySet (c : UpdateCall) (s : TableState) : Except Fault (ℤ × TableState) := do
  let t ← reset s.table
  let h ← hashPolicyData c.grants c.data t
  if h.1.ret ≠ 0 then .ok (h.1.ret, ⟨s.file, h.2⟩)
  else if c.tcsUpdate ≠ 0 then undoSet c.tcsUpdate s.file h
  else if c.createPath = false then undoSet tcfErrDir s.file h
  else
    let w := httcUtilFileWrite c.write s.file c.data
    if w.1 % 2 ^ 32 ≠ c.data.length then undoSet tcfErrFile w.2 h
    else appendAndRegister c w.2 h

/-- An add that fails once the nodes are in the chains. -/
def undoAdd (ret : ℤ) (file : Option Bytes) (h : Hashed × IntegrityData) : Except Fault (ℤ × TableState) := do
  let t ← dropNodes (h.1.array.getD []) h.2
  .ok (ret, ⟨file, t⟩)

/-- The two `httc_util_file_append` of `file_integrity_add`: whether both have written what they should. -/
def appendFile (c : UpdateCall) (file : Option Bytes) : Bool × Option Bytes :=
  let fsize := (httcUtilFileSize c.sizeOpens file).getD 0
  let fill := List.replicate (align4 fsize - fsize) 0
  let w := if align4 fsize > fsize then httcUtilFileAppend c.fill file fill else (0, file)
  if w.1 ≠ fill.length then (false, w.2)
  else
    let w := httcUtilFileAppend c.append w.2 c.data
    (w.1 % 2 ^ 32 = c.data.length, w.2)

/-- `file_integrity_add` behind `build_integrity_data`. -/
def addRecords (c : UpdateCall) (s : TableState) : Except Fault (ℤ × TableState) := do
  let h ← hashPolicyData c.grants c.data s.table
  if h.1.ret ≠ 0 then .ok (h.1.ret, ⟨s.file, h.2⟩)
  else if c.tcsUpdate ≠ 0 then undoAdd c.tcsUpdate s.file h
  else
    let w := appendFile c s.file
    if w.1 = false then undoAdd tcfErrFile w.2 h else appendAndRegister c w.2 h

/-- `file_integrity_add`. -/
def fileIntegrityAdd (c : UpdateCall) (s : TableState) : Except Fault (ℤ × TableState) := do
  let b ← buildIntegrityData c.buildCall s
  if b.1 ≠ 0 then .ok b else addRecords c b.2

/-- The part of `file_integrity_del` that writes. -/
def deleteNodes (c : UpdateCall) (dellist : List ℕ) (s : TableState) : Except Fault (ℤ × TableState) := do
  if c.sectionAlloc = false then .ok (tcfErrNomem, s)
  else
    let nodes ← dellist.mapM (readNode s.table)
    let w :=
      httcUtilFileWriteOffsetArray c.updateOpens c.room s.file (nodes.map fun n => nodeSection c.beyond n.item)
    if w.1 ≠ 0 then .ok (w.1, ⟨w.2, s.table⟩)
    else
      let t ← deletePolicyData dellist s.table
      let d := registerDigest c.toStoreCall w.2 c.tsbRemove
      .ok (d.1, ⟨d.2, t⟩)

/-- `file_integrity_del` behind `build_integrity_data`. -/
def deleteRecords (c : UpdateCall) (s : TableState) : Except Fault (ℤ × TableState) := do
  let p ← deletePolicyDataPrepare c.delGrants c.behind c.data s.table
  if p.ret ≠ 0 then .ok (-1, s)
  else if c.tcsUpdate ≠ 0 then .ok (c.tcsUpdate, s)
  else
    match p.dellist with
    | none => .ok ((registerDigest c.toStoreCall s.file c.tsbRemove).1, s)
    | some dellist => deleteNodes c dellist s

/-- `file_integrity_del`. -/
def fileIntegrityDel (c : UpdateCall) (s : TableState) : Except Fault (ℤ × TableState) := do
  let b ← buildIntegrityData c.buildCall s
  if b.1 ≠ 0 then .ok b else deleteRecords c b.2

/-- The function for the action. -/
def fileIntegrityOperation (c : UpdateCall) (s : TableState) : Except Fault (ℤ × TableState) :=
  match c.action with
  | .set => fileIntegritySet c s
  | .add => fileIntegrityAdd c s
  | .delete => fileIntegrityDel c s

/-- `tcf_update_file_integrity`. -/
def tcfUpdateFileIntegrity (c : UpdateCall) (s : TableState) : Except Fault (ℤ × TableState) :=
  if c.admission ≠ 0 then .ok (c.admission, s)
  else do
    let r ← fileIntegrityOperation c s
    .ok (if r.1 = 0 then c.updateVersion else r.1, r.2)

/-- `tcf_update_file_integrity`, or one of the functions that read: they take the semaphore, build the table, and
look at it. -/
inductive Op
  | update (c : UpdateCall)
  | get (semGet : ℤ) (b : BuildCall)

/-- A call. -/
def exec (s : TableState) : Op → Except Fault (ℤ × TableState)
  | .update c => tcfUpdateFileIntegrity c s
  | .get semGet b => if semGet ≠ 0 then .ok (semGet, s) else buildIntegrityData b s

/-- The state after a call that returns. -/
def step (s : TableState) (op : Op) : Option TableState := (exec s op).toOption.map Prod.snd

/-- The same nodes in the same order in chains and list, and the same counters. -/
structure Unchanged (t t' : IntegrityData) : Prop where
  hashTable : t'.hashTable = t.hashTable
  list : t'.list = t.list
  total : t'.total = t.total
  valid : t'.valid = t.valid
  length : t'.length = t.length
  nodes : ∀ a ∈ t.list, t'.heap.read a = t.heap.read a

/-! ### One call -/

section Calls

variable {t t' : IntegrityData} {s : TableState} {c : UpdateCall} {h : Hashed} {l : Loaded} {array : List ℕ}

theorem Grown.unchanged (hg : Grown t [] t') (ht : Agree t) : Unchanged t t' where
  hashTable := funext hg.chains
  list := hg.same.1
  total := hg.same.2.1
  valid := hg.same.2.2.1
  length := hg.same.2.2.2
  nodes a ha := by
    obtain ⟨n, hn, -⟩ := ht.alive a ha
    exact (hg.old a n hn).trans hn.symm

theorem appendHashed_spec (hg : Grown t (h.array.getD []) t') (ht : Agree t) (dataLength : ℕ)
    (hsmall : t.list.length + (h.array.getD []).length < 2 ^ 32) :
    ∃ t₁, appendHashed h dataLength t' = .ok t₁ ∧ Agree t₁ ∧ t₁.list = t.list ++ h.array.getD [] := by
  rw [appendHashed]
  cases harray : h.array with
  | none =>
      rw [harray] at hg
      exact ⟨t', rfl, hg.agree ht, hg.same.1.trans (List.append_nil _).symm⟩
  | some array =>
      rw [harray] at hg hsmall
      exact hg.appendHashedArray ht hsmall h.total dataLength

/-- What is read from the file or from the TPCM is short. -/
theorem length_loadBuffer (b : BuildCall) (file : Option Bytes) {rbuffer : Bytes}
    (h : (loadBuffer b.io file).buffer = some rbuffer) : rbuffer.length < 2 ^ 31 := by
  rw [loadBuffer] at h
  cases hsize : httcUtilFileSize b.io.sizeOpens file with
  | none =>
      rw [hsize] at h
      dsimp only at h
      split_ifs at h
      exact Option.some.inj h ▸ b.small
  | some size =>
      rw [hsize] at h
      dsimp only at h
      split_ifs at h
      cases hread : httcUtilFileReadFull b.io.read file with
      | none =>
          rw [hread] at h
          exact absurd h (Option.some_ne_none _).symm
      | some data =>
          rw [hread] at h
          obtain rfl : data = rbuffer := Option.some.inj h
          cases file with
          | none => exact absurd hread (Option.some_ne_none _).symm
          | some f =>
              obtain ⟨-, hle, -, rfl⟩ := httcUtilFileReadFull_eq_some.mp hread
              exact lt_of_le_of_lt hle (show 104857600 < 2 ^ 31 by decide)

/-- A table that still has room for as many nodes again. -/
def Few (t : IntegrityData) : Prop := 36 * t.list.length < 2 ^ 31

/-- **`build_integrity_data`** leaves a table whose nodes come from the file. -/
theorem build_spec (b : BuildCall) (hs : Agree s.table) :
    ∃ ret s', buildIntegrityData b s = .ok (ret, s') ∧ Agree s'.table ∧ Few s'.table := by
  obtain ⟨t, hreset, hcleared⟩ := hs.reset
  have hlist : t.list.length = 0 := by rw [hcleared.list, List.length_nil]
  rw [buildIntegrityData, hreset]
  show ∃ ret s', hashBuffer b.grants (loadBuffer b.io s.file) t = _ ∧ _
  rw [hashBuffer]
  cases hbuffer : (loadBuffer b.io s.file).buffer with
  | none => exact ⟨_, _, rfl, hcleared.agree, by show 36 * t.list.length < _; omega⟩
  | some rbuffer =>
      have hsmall := length_loadBuffer b s.file hbuffer
      obtain ⟨r, t₁, hhash, hg, hlen, -⟩ := hashPolicyData_spec b.grants rbuffer hcleared.agree.chainsAlive
      obtain ⟨t₂, happend, hagree, hlist₂⟩ := appendHashed_spec hg hcleared.agree rbuffer.length (by omega)
      refine ⟨r.ret, ⟨(loadBuffer b.io s.file).file, t₂⟩, ?_, hagree, ?_⟩
      · dsimp only
        rw [hhash]
        show (appendHashed r rbuffer.length t₁).bind _ = _
        rw [happend]
        rfl
      · show 36 * t₂.list.length < 2 ^ 31
        rw [hlist₂, List.length_append, hlist]
        omega

theorem undoAdd_spec (hg : Grown t (h.array.getD []) t') (ht : Agree t) (ret : ℤ) (file : Option Bytes) :
    ∃ s', undoAdd ret file (h, t') = .ok (ret, s') ∧ Agree s'.table ∧ Unchanged t s'.table := by
  obtain ⟨t₁, hdrop, hg₁⟩ := hg.dropNodes ht.chainsAlive
  refine ⟨⟨file, t₁⟩, ?_, hg₁.agree ht, hg₁.unchanged ht⟩
  rw [undoAdd, hdrop]
  rfl

theorem appendAndRegister_spec (hg : Grown t (h.array.getD []) t') (ht : Agree t)
    (hsmall : t.list.length + (h.array.getD []).length < 2 ^ 32) (c : UpdateCall) (file : Option Bytes) :
    ∃ s', appendAndRegister c file (h, t') = .ok ((registerDigest c.toStoreCall file 0).1, s') ∧ Agree s'.table ∧
      s'.table.list = t.list ++ h.array.getD [] := by
  obtain ⟨t₁, happend, hagree, hlist⟩ := hg.appendHashedArray ht hsmall h.total c.data.length
  refine ⟨⟨(registerDigest c.toStoreCall file 0).2, t₁⟩, ?_, hagree, hlist⟩
  rw [appendAndRegister, happend]
  rfl

/-- **An add** behind the build: a failure leaves the table as it is, but where the records have been written. -/
theorem addRecords_spec (c : UpdateCall) (hs : Agree s.table) (hfew : Few s.table) :
    ∃ ret s', addRecords c s = .ok (ret, s') ∧ Agree s'.table ∧
      (ret ≠ 0 → Unchanged s.table s'.table ∨ c.tcsUpdate = 0 ∧ (appendFile c s.file).1 = true ∧
        ret = (registerDigest c.toStoreCall (appendFile c s.file).2 0).1) := by
  obtain ⟨r, t, hhash, hg, hlen, hnone⟩ := hashPolicyData_spec c.grants c.data hs.chainsAlive
  have hsmall := c.small
  rw [Few] at hfew
  rw [addRecords, hhash]
  show ∃ ret s', ite _ _ _ = _ ∧ _
  split_ifs with hret htcs
  · dsimp only at hret
    rw [hnone hret] at hg
    exact ⟨_, _, rfl, hg.agree hs, fun _ => Or.inl (hg.unchanged hs)⟩
  · obtain ⟨s', hundo, hagree, hsame⟩ := undoAdd_spec hg hs c.tcsUpdate s.file
    exact ⟨_, s', hundo, hagree, fun _ => Or.inl hsame⟩
  · show ∃ ret s', ite _ _ _ = _ ∧ _
    split_ifs with hwrite
    · obtain ⟨s', hundo, hagree, hsame⟩ := undoAdd_spec hg hs tcfErrFile (appendFile c s.file).2
      exact ⟨_, s', hundo, hagree, fun _ => Or.inl hsame⟩
    · obtain ⟨s', happend, hagree, -⟩ := appendAndRegister_spec hg hs (by omega) c (appendFile c s.file).2
      refine ⟨_, s', happend, hagree, fun _ => Or.inr ⟨not_not.mp htcs, ?_, rfl⟩⟩
      exact Bool.eq_true_of_not_eq_false hwrite

theorem undoSet_spec (hg : Grown t (h.array.getD []) t') (ht : Agree t) (ret : ℤ) (file : Option Bytes) :
    ∃ s', undoSet ret file (h, t') = .ok (ret, s') ∧ Agree s'.table := by
  obtain ⟨t₁, hdrop, hg₁⟩ := hg.dropNodes ht.chainsAlive
  obtain ⟨t₂, hreset, hcleared⟩ := (hg₁.agree ht).reset
  refine ⟨⟨file, t₂⟩, ?_, hcleared.agree⟩
  rw [undoSet, hdrop]
  show (reset t₁).bind _ = _
  rw [hreset]
  rfl

/-- **A set.** -/
theorem set_spec (c : UpdateCall) (hs : Agree s.table) :
    ∃ ret s', fileIntegritySet c s = .ok (ret, s') ∧ Agree s'.table := by
  obtain ⟨t, hreset, hcleared⟩ := hs.reset
  have ht := hcleared.agree
  have hlist : t.list.length = 0 := by rw [hcleared.list, List.length_nil]
  obtain ⟨r, t', hhash, hg, hlen, hnone⟩ := hashPolicyData_spec c.grants c.data ht.chainsAlive
  have hsmall := c.small
  rw [fileIntegritySet, hreset]
  show ∃ ret s', (hashPolicyData c.grants c.data t).bind _ = _ ∧ _
  rw [hhash]
  show ∃ ret s', ite _ _ _ = _ ∧ _
  split_ifs with hret htcs hpath
  · dsimp only at hret
    rw [hnone hret] at hg
    exact ⟨_, _, rfl, hg.agree ht⟩
  · exact ⟨_, undoSet_spec hg ht _ _⟩
  · exact ⟨_, undoSet_spec hg ht _ _⟩
  · show ∃ ret s', ite _ _ _ = _ ∧ _
    split_ifs
    · exact ⟨_, undoSet_spec hg ht _ _⟩
    · obtain ⟨s', happend, hagree, -⟩ := appendAndRegister_spec hg ht (by omega) c
        (httcUtilFileWrite c.write s.file c.data).2
      exact ⟨_, s', happend, hagree⟩

/-- What a delete has collected.  Without an item it frees what it has not allocated. -/
theorem prepare_spec (c : UpdateCall) (ht : Agree t) :
    (∃ p, deletePolicyDataPrepare c.delGrants c.behind c.data t = .ok p ∧
      ∀ dellist, p.dellist = some dellist → dellist.Nodup ∧ ∀ a ∈ dellist, a ∈ t.list) ∨
    c.data = [] ∧ deletePolicyDataPrepare c.delGrants c.behind c.data t = .error .stray := by
  cases hsplit : bufferToItemArray c.data c.data.length with
  | error e =>
      rw [deletePolicyDataPrepare, hsplit]
      split_ifs <;> exact Or.inl ⟨_, rfl, fun dellist hdel => absurd hdel (Option.some_ne_none _).symm⟩
  | ok pitems =>
      rcases eq_or_ne pitems [] with rfl | hitems
      · obtain ⟨cells, hlaid, hnil⟩ := exists_laid hsplit le_rfl
        have hdata : c.data = [] := by
          cases cells with
          | nil => exact hlaid.flatten
          | cons c cells => exact absurd hnil (List.cons_ne_nil _ _).symm
        rw [deletePolicyDataPrepare, hsplit]
        split_ifs
        · exact Or.inl ⟨_, rfl, fun dellist hdel => absurd hdel (Option.some_ne_none _).symm⟩
        · exact Or.inr ⟨hdata, rfl⟩
        · exact Or.inr ⟨hdata, rfl⟩
      rcases deletePolicyDataPrepare_eq ht hsplit hitems c.delGrants c.behind with
        ⟨ret, -, -, heq⟩ | ⟨r, heq, hcol⟩
      · exact Or.inl ⟨_, heq, fun dellist hdel => absurd hdel (Option.some_ne_none _).symm⟩
      · refine Or.inl ⟨_, heq, fun dellist hdel => ?_⟩
        rw [prepared] at hdel
        dsimp only at hdel
        split_ifs at hdel
        obtain rfl := Option.some.inj hdel
        refine ⟨hcol.nodup List.nodup_nil, fun a ha => ?_⟩
        obtain ⟨q, hq, rfl, -⟩ := (hcol.sound a ha).resolve_left List.not_mem_nil
        exact ((mem_comparisons ht).mp hq).2.1

theorem mapM_readNode {l : List ℕ} (halive : ∀ a ∈ l, ∃ n, t.heap.read a = some n) :
    ∃ nodes, l.mapM (readNode t) = .ok nodes := by
  induction l with
  | nil => exact ⟨[], rfl⟩
  | cons a l ih =>
      obtain ⟨⟨n, hn⟩, halive⟩ := List.forall_mem_cons.mp halive
      obtain ⟨nodes, hnodes⟩ := ih halive
      refine ⟨n :: nodes, ?_⟩
      rw [List.mapM_cons, readNode_eq hn, hnodes]
      rfl

theorem deleteNodes_spec (c : UpdateCall) (hs : Agree s.table) (hfew : Few s.table) (hnodup : array.Nodup)
    (hmem : ∀ a ∈ array, a ∈ s.table.list) :
    ∃ ret s', deleteNodes c array s = .ok (ret, s') ∧ Agree s'.table := by
  obtain ⟨nodes, hnodes⟩ := mapM_readNode fun a ha => by
    obtain ⟨n, hn, -⟩ := hs.alive a (hmem a ha)
    exact ⟨n, hn⟩
  obtain ⟨t, hdel, hagree⟩ := hs.deletePolicyData (by rw [Few] at hfew; omega) hnodup hmem
  rw [deleteNodes]
  split_ifs
  · exact ⟨_, s, rfl, hs⟩
  rw [hnodes]
  show ∃ ret s', ite _ _ _ = _ ∧ _
  split_ifs
  · exact ⟨_, _, rfl, hs⟩
  · rw [hdel]
    exact ⟨_, _, rfl, hagree⟩

/-- **A delete** behind the build. -/
theorem deleteRecords_spec (c : UpdateCall) (hs : Agree s.table) (hfew : Few s.table) :
    (∃ ret s', deleteRecords c s = .ok (ret, s') ∧ Agree s'.table) ∨
      c.data = [] ∧ deleteRecords c s = .error .stray := by
  rcases prepare_spec c hs with ⟨p, hp, hdellist⟩ | ⟨hdata, hstray⟩
  swap
  · rw [deleteRecords, hstray]
    exact Or.inr ⟨hdata, rfl⟩
  refine Or.inl ?_
  rw [deleteRecords, hp]
  show ∃ ret s', ite _ _ _ = _ ∧ _
  split_ifs
  · exact ⟨_, s, rfl, hs⟩
  · exact ⟨_, s, rfl, hs⟩
  · cases hdel : p.dellist with
    | none => exact ⟨_, s, rfl, hs⟩
    | some dellist =>
        obtain ⟨hnodup, hmem⟩ := hdellist dellist hdel
        exact deleteNodes_spec c hs hfew hnodup hmem

/-- A function for an action behind the checks of `tcf_update_file_integrity`. -/
theorem exec_update (hs : Agree s.table)
    (h : ∃ ret s', fileIntegrityOperation c s = .ok (ret, s') ∧ Agree s'.table) :
    ∃ r, exec s (.update c) = .ok r ∧ Agree r.2.table := by
  obtain ⟨ret, s', heq, hagree⟩ := h
  rw [exec, tcfUpdateFileIntegrity, heq]
  split_ifs
  · exact ⟨_, rfl, hs⟩
  · exact ⟨_, rfl, hagree⟩

/-- **Every call returns**, but for a delete without a byte, and chains and list agree then. -/
theorem exec_spec (hs : Agree s.table) (op : Op) :
    (∃ r, exec s op = .ok r ∧ Agree r.2.table) ∨
      exec s op = .error .stray ∧ ∃ c, op = .update c ∧ c.action = .delete ∧ c.data = [] := by
  cases op with
  | get semGet b =>
      rw [exec]
      split_ifs
      · exact Or.inl ⟨_, rfl, hs⟩
      · obtain ⟨ret, s', heq, hagree, -⟩ := build_spec b hs
        exact Or.inl ⟨_, heq, hagree⟩
  | update c =>
      obtain ⟨b, s₁, hbuild, hagree, hfew⟩ := build_spec c.buildCall hs
      cases hact : c.action with
      | set =>
          refine Or.inl (exec_update hs ?_)
          rw [fileIntegrityOperation, hact]
          exact set_spec c hs
      | add =>
          refine Or.inl (exec_update hs ?_)
          rw [fileIntegrityOperation, hact]
          dsimp only
          rw [fileIntegrityAdd, hbuild]
          show ∃ ret s', ite _ _ _ = _ ∧ _
          split_ifs
          · exact ⟨_, _, rfl, hagree⟩
          · obtain ⟨ret, s', heq, hagree', -⟩ := addRecords_spec c hagree hfew
            exact ⟨ret, s', heq, hagree'⟩
      | delete =>
          have hop : fileIntegrityOperation c s = if b ≠ 0 then .ok (b, s₁) else deleteRecords c s₁ := by
            rw [fileIntegrityOperation, hact]
            dsimp only
            rw [fileIntegrityDel, hbuild]
            rfl
          rcases deleteRecords_spec c hagree hfew with hdone | ⟨hdata, hstray⟩
          · refine Or.inl (exec_update hs ?_)
            rw [hop]
            split_ifs
            · exact ⟨_, _, rfl, hagree⟩
            · exact hdone
          · rw [hstray] at hop
            split_ifs at hop with hret
            · exact Or.inl (exec_update hs ⟨_, _, hop, hagree⟩)
            · rw [exec, tcfUpdateFileIntegrity, hop]
              split_ifs
              · exact Or.inl ⟨_, rfl, hs⟩
              · exact Or.inr ⟨rfl, c, rfl, hact, hdata⟩

theorem agree_step {op : Op} {s' : TableState} (hs : Agree s.table) (h : step s op = some s') :
    Agree s'.table := by
  rw [step] at h
  rcases exec_spec hs op with ⟨r, heq, hagree⟩ | ⟨hstray, -⟩
  · rw [heq] at h
    obtain rfl : r.2 = s' := Option.some.inj h
    exact hagree
  · rw [hstray] at h
    exact absurd h (Option.some_ne_none _).symm

/-- The table of a failing add. -/
theorem add_spec (c : UpdateCall) (hs : Agree s.table) {built s' : TableState} {b ret : ℤ}
    (hbuild : buildIntegrityData c.buildCall s = .ok (b, built)) (hadd : fileIntegrityAdd c s = .ok (ret, s'))
    (hret : ret ≠ 0) :
    Unchanged built.table s'.table ∨ c.tcsUpdate = 0 ∧ (appendFile c built.file).1 = true ∧
      ret = (registerDigest c.toStoreCall (appendFile c built.file).2 0).1 := by
  obtain ⟨b', s₁, hbuild', hagree, hfew⟩ := build_spec c.buildCall hs
  obtain ⟨rfl, rfl⟩ := Prod.mk.inj (Except.ok.inj (hbuild.symm.trans hbuild'))
  have hop : fileIntegrityAdd c s = if b ≠ 0 then .ok (b, built) else addRecords c built := by
    rw [fileIntegrityAdd, hbuild]
    rfl
  rw [hop] at hadd
  split_ifs at hadd
  · obtain ⟨-, rfl⟩ := Prod.mk.inj (Except.ok.inj hadd)
    exact Or.inl ⟨rfl, rfl, rfl, rfl, rfl, fun _ _ => rfl⟩
  · obtain ⟨ret', s₂, heq, -, hfailed⟩ := addRecords_spec c hagree hfew
    obtain ⟨rfl, rfl⟩ := Prod.mk.inj (Except.ok.inj (hadd.symm.trans heq))
    exact hfailed hret

end Calls

/-- **Chains and list hold the same nodes** whenever a call has returned, whatever has failed.  A failing add leaves
the table as `build_integrity_data` has left it, unless both the TPCM and the file have its records.  The one call
that does not return is a delete without a byte. -/
theorem nodes_agree {ops : List Op} {s : TableState} (hrun : run step TableState.init ops = some s) :
    Agree s.table ∧
      (∀ c built s' b ret, buildIntegrityData c.buildCall s = .ok (b, built) →
        fileIntegrityAdd c s = .ok (ret, s') → ret ≠ 0 →
          Unchanged built.table s'.table ∨ c.tcsUpdate = 0 ∧ (appendFile c built.file).1 = true ∧
            ret = (registerDigest c.toStoreCall (appendFile c built.file).2 0).1) ∧
      ∀ op, step s op = none → ∃ c, op = .update c ∧ c.action = .delete ∧ c.data = [] := by
  have hs : Agree s.table :=
    @run_preserves _ _ step (fun s => Agree s.table) _ _ _ (fun _ _ _ h hstep => agree_step h hstep) agree_init hrun
  refine ⟨hs, fun c built s' b ret hbuild hadd hret => add_spec c hs hbuild hadd hret, fun op hnone => ?_⟩
  rcases exec_spec hs op with ⟨r, heq, -⟩ | ⟨-, hdel⟩
  · rw [step, heq] at hnone
    exact absurd hnone (Option.some_ne_none _)
  · exact hdel

/-- An add of `rootRef 0` that meets nothing, but perhaps an error of `httc_get_file_digest`. -/
def UpdateCall.root (fileDigest : ℤ) : UpdateCall where
  toStoreCall := { sampleCall .add (rootRef 0) true with fileDigest := fileDigest }
  buildGrants := ⟨true, fun _ => true⟩
  grants := ⟨true, fun _ => true⟩
  delGrants := ⟨true, true, fun _ => true⟩
  small := by
    show (rootRef 0).length < 2 ^ 32
    decide +kernel
  smallTpcm := by
    show 0 < 2 ^ 31
    decide

/-- The node that is added is in the list, and in its chain. -/
theorem nodes_agree_root : ∃ s, run step TableState.init [.update (.root 0)] = some s ∧ s.table.list = [0] ∧
    Agree s.table := by
  have hlist : (run step TableState.init [.update (.root 0)]).map (·.table.list) = some [0] := by decide +kernel
  obtain ⟨s, hrun, hs⟩ := Option.map_eq_some_iff.mp hlist
  exact ⟨s, hrun, hs, (nodes_agree hrun).1⟩

/-- **A failing add may have added its nodes:** the digest of the file is registered once they are in the list. -/
theorem failing_add_keeps_nodes : ¬ ∀ ops s c built s' b ret, run step TableState.init ops = some s →
    buildIntegrityData (UpdateCall.buildCall c) s = .ok (b, built) → fileIntegrityAdd c s = .ok (ret, s') → ret ≠ 0 →
      Unchanged built.table s'.table := by
  intro hall
  obtain ⟨b, built, hbuild, -⟩ := build_spec (UpdateCall.root 1).buildCall (s := TableState.init) agree_init
  have hbuilt : (buildIntegrityData (UpdateCall.root 1).buildCall TableState.init).toOption.map (·.2.table.list) =
      some [] := by decide +kernel
  have hadd : (fileIntegrityAdd (.root 1) TableState.init).toOption.map (fun r => (r.1, r.2.table.list)) =
      some (1, [0]) := by decide +kernel
  rw [hbuild] at hbuilt
  cases heq : fileIntegrityAdd (.root 1) TableState.init with
  | error f =>
      rw [heq] at hadd
      exact absurd hadd (Option.some_ne_none _).symm
  | ok r =>
      rw [heq] at hadd
      obtain ⟨hret, hlist⟩ := Prod.mk.inj (Option.some.inj hadd)
      have hsame := hall [] _ _ built r.2 b r.1 rfl hbuild heq (hret ▸ one_ne_zero)
      have hempty : built.table.list = [] := Option.some.inj hbuilt
      have h01 : ([0] : List ℕ) = [] := hlist.symm.trans (hsame.list.trans hempty)
      exact absurd h01 (List.cons_ne_nil _ _)

end Nodes
end FileIntegrity
end TsbAgent
