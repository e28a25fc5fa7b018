/-
# The nodes of the reference table

`file_integrity_data` of `tss-main/tcf/src/file_integrity.c` holds its nodes twice: `hash_next` chains them in
buckets, `list` links them in the order of the file.  The functions keep the two apart:

| function | chains | list | the node |
| --- | --- | --- | --- |
| `addToHashTable` | first of its chain | | allocated |
| `dropNodes` | taken out | | freed |
| `appendHashedArray` | | at the end | moved to its place in the file |
| `deletePolicyData` | taken out | taken out | freed |
| `reset` | forgotten | taken out | freed |

so that new nodes are in the chains only (`Grown`) until they are dropped or appended.  Between the calls the two
hold the same nodes (`Agree`).  A node is its address on the heap; whoever reads or writes one that has been freed
fails.
-/

import TsbAgent.FileIntegrity.StoreRefines
import TsbAgent.Lib.Chained
import TsbAgent.Lib.Heap

namespace TsbAgent
namespace FileIntegrity
namespace Nodes

open Libc Store

/-- What a function must not do. -/
inductive Fault
  /-- Touch a node that has been freed. -/
  | freed
  /-- Take a node out of the list that is not in it. -/
  | unlinked
  /-- Free a pointer that nothing has been assigned to. -/
  | stray
deriving DecidableEq

/-- `struct file_integrity_node`, without its links. -/
structure FileNode where
  hashIndex : ℕ
  item : Node

/-- `file_integrity_data`, and the memory of the nodes. -/
structure IntegrityData where
  heap : Heap FileNode
  hashTable : Chained.Table ℕ ℕ
  list : List ℕ
  total : ℕ
  valid : ℕ
  length : ℕ

/-- Before the first call. -/
def IntegrityData.init : IntegrityData := ⟨Heap.empty, Chained.Table.empty, [], 0, 0, 0⟩

/-- The node at an address. -/
def readNode (t : IntegrityData) (a : ℕ) : Except Fault FileNode :=
  match t.heap.read a with
  | none => .error .freed
  | some n => .ok n

/-- `httc_free` of a node. -/
def free (t : IntegrityData) (a : ℕ) : Except Fault IntegrityData := do
  let _ ← readNode t a
  .ok { t with heap := t.heap.kfree a }

/-! ### The chains -/

/-- `file_integrity_add_to_hash_table`, and the offset that its caller sets. -/
def addToHashTable (t : IntegrityData) (item : Bytes) (filePos : ℕ) : IntegrityData :=
  { t with
    heap := t.heap.alloc ⟨hashValue item, Store.addToHashTable item filePos⟩
    hashTable := t.hashTable.push (hashValue item) t.heap.next }

/-- One node of a chain that `file_integrity_delete_from_hash_table` passes. -/
def isNode (t : IntegrityData) (a pos : ℕ) : Except Fault Bool := do
  let _ ← readNode t pos
  .ok (pos == a)

/-- `file_integrity_delete_from_hash_table`. -/
def deleteFromHashTable (t : IntegrityData) (a : ℕ) : Except Fault IntegrityData := do
  let n ← readNode t a
  let _ ← Heap.search (isNode t a) (t.hashTable n.hashIndex)
  .ok { t with hashTable := t.hashTable.eraseFirst n.hashIndex (· == a) }

/-- The loop of `file_integrity_add_list_to_hash_table` from the item `i` on, where `grant` says which nodes get
their memory: whether it comes to its end, and the new nodes. -/
def addList (grant : ℕ → Bool) : ℕ → ℕ → List Bytes → IntegrityData → Bool × List ℕ × IntegrityData
  | _, _, [], t => (true, [], t)
  | i, filePos, item :: items, t =>
      if itemHash item = Digest.zero then addList grant (i + 1) (filePos + align4 (recordSize item)) items t
      else if grant i = false then (false, [], t)
      else
        let r := addList grant (i + 1) (filePos + align4 (recordSize item)) items (addToHashTable t item filePos)
        (r.1, t.heap.next :: r.2.1, r.2.2)

/-- `file_integrity_delete_from_hashtable_array`, and the way back of `file_integrity_add_list_to_hash_table`. -/
def dropNodes : List ℕ → IntegrityData → Except Fault IntegrityData
  | [], t => .ok t
  | a :: array, t => do
      let t ← deleteFromHashTable t a
      let t ← free t a
      dropNodes array t

/-- What `file_integrity_hash_policy_data` returns: `*parray`, which is null where there is no item, with `*pvalid`
nodes, and `*ptotal`. -/
structure Hashed where
  ret : ℤ
  array : Option (List ℕ)
  total : ℕ

/-- The allocations of `file_integrity_hash_policy_data`: the array, and the node of each item. -/
structure Grants where
  items : Bool
  node : ℕ → Bool

/-- `file_integrity_hash_policy_data` behind `buffer_to_item_array`. -/
def hashItems (g : Grants) (pitems : List Bytes) (t : IntegrityData) : Except Fault (Hashed × IntegrityData) := do
  let r := addList g.node 0 0 pitems t
  if r.1 then .ok (⟨0, some r.2.1, pitems.length⟩, r.2.2)
  else
    let t ← dropNodes r.2.1 r.2.2
    .ok (⟨-1, none, 0⟩, t)

/-- `file_integrity_hash_policy_data`. -/
def hashPolicyData (g : Grants) (data : Bytes) (t : IntegrityData) : Except Fault (Hashed × IntegrityData) :=
  if g.items = false then .ok (⟨tcfErrNomem, none, 0⟩, t)
  else
    match bufferToItemArray data data.length with
    | .error e => .ok (⟨e, none, 0⟩, t)
    | .ok pitems => if pitems = [] then .ok (⟨0, none, 0⟩, t) else hashItems g pitems t

/-! ### The list -/

/-- The node itself, and those before and behind it. -/
def neighbours (l : List ℕ) (a : ℕ) : List ℕ :=
  a :: ((l.takeWhile (· ≠ a)).getLast?.toList ++ (l.dropWhile (· ≠ a)).tail.head?.toList)

/-- `list_del`: it writes to both neighbours. -/
def listDel (t : IntegrityData) (a : ℕ) : Except Fault IntegrityData :=
  if a ∉ t.list then .error .unlinked
  else if ∀ b ∈ neighbours t.list a, (t.heap.read b).isSome then .ok { t with list := t.list.erase a }
  else .error .freed

/-- `list_add_tail`: it writes to the last node. -/
def listAddTail (t : IntegrityData) (a : ℕ) : Except Fault IntegrityData :=
  if ∀ b ∈ t.list.getLast?, (t.heap.read b).isSome then .ok { t with list := t.list ++ [a] }
  else .error .freed

/-- `info->offset += file_integrity_data.length` for the node `n` at `a`. -/
def moveNode (t : IntegrityData) (a : ℕ) (n : FileNode) : IntegrityData :=
  { t with heap := t.heap.store a ⟨n.hashIndex, { n.item with offset := (n.item.offset + t.length) % 2 ^ 32 }⟩ }

/-- The loop of `file_integrity_append_hashed_array`. -/
def appendNodes : List ℕ → IntegrityData → Except Fault IntegrityData
  | [], t => .ok t
  | a :: array, t => do
      let n ← readNode t a
      let t ← listAddTail (moveNode t a n) a
      appendNodes array { t with valid := (t.valid + 1) % 2 ^ 32 }

/-- `file_integrity_append_hashed_array`. -/
def appendHashedArray (array : List ℕ) (total dataLength : ℕ) (t : IntegrityData) :
    Except Fault IntegrityData := do
  let t ← appendNodes array { t with total := (t.total + total) % 2 ^ 32 }
  .ok { t with length := if total ≠ 0 then (t.length + align4 dataLength) % 2 ^ 32 else t.length }

/-- The loop of `file_integrity_reset`. -/
def freeList : List ℕ → IntegrityData → Except Fault IntegrityData
  | [], t => .ok t
  | a :: l, t => do
      let t ← listDel t a
      let t ← free t a
      freeList l t

/-- `file_integrity_reset`. -/
def reset (t : IntegrityData) : Except Fault IntegrityData := do
  let t ← freeList t.list t
  .ok ⟨t.heap, Chained.Table.empty, [], 0, 0, 0⟩

/-- `file_integrity_delete_policy_data`. -/
def deletePolicyData : List ℕ → IntegrityData → Except Fault IntegrityData
  | [], t => .ok t
  | a :: dellist, t => do
      let t ← deleteFromHashTable t a
      let t ← listDel t a
      let n ← readNode t a
      let t ← free { t with
        valid := (t.valid + (2 ^ 32 - 1)) % 2 ^ 32
        length := (t.length + (2 ^ 32 - n.item.alignedSize)) % 2 ^ 32 } a
      deletePolicyData dellist t

/-! ### Chains and list -/

/-- A node as `file_integrity_add_to_hash_table` has made it, wherever it has been moved to. -/
structure Made (n : FileNode) : Prop where
  hashIndex : n.hashIndex = hashValue n.item.data
  size : n.item.size = recordSize n.item.data
  alignedSize : n.item.alignedSize = align4 (recordSize n.item.data)
  pathLength : n.item.pathLength = FileIntegrity.pathLength n.item.data
  length : n.item.data.length = recordSize n.item.data

/-- The bucket of a node. -/
def bucket (t : IntegrityData) (a : ℕ) : Option ℕ := (t.heap.read a).map FileNode.hashIndex

/-- **Chains and list hold the same nodes.**  Every one of them is there and stands once in the list and once in the
chain that the first two bytes of its digest name; no other node stands anywhere. -/
structure Agree (t : IntegrityData) : Prop where
  nodup : t.list.Nodup
  alive : ∀ a ∈ t.list, ∃ n, t.heap.read a = some n ∧ Made n
  chains : ∀ k a, a ∈ t.hashTable k ↔ a ∈ t.list ∧ bucket t a = some k
  chainNodup : ∀ k, (t.hashTable k).Nodup
  valid : t.valid = t.list.length

/-- The same with `pending` nodes that are in the chains only. -/
structure Linked (t : IntegrityData) (pending : List ℕ) : Prop where
  nodup : (t.list ++ pending).Nodup
  alive : ∀ a ∈ t.list ++ pending, ∃ n, t.heap.read a = some n ∧ Made n
  chains : ∀ k a, a ∈ t.hashTable k ↔ a ∈ t.list ++ pending ∧ bucket t a = some k
  chainNodup : ∀ k, (t.hashTable k).Nodup
  valid : t.valid = t.list.length

/-- `t'` is `t` with the nodes of `array` in its chains: the chains of `t` are left behind the new nodes. -/
structure Grown (t : IntegrityData) (array : List ℕ) (t' : IntegrityData) : Prop where
  nodup : array.Nodup
  new : ∀ a ∈ array, t.heap.next ≤ a ∧ ∃ n, t'.heap.read a = some n ∧ Made n
  old : ∀ a n, t.heap.read a = some n → t'.heap.read a = some n
  next : t.heap.next ≤ t'.heap.next
  chains : ∀ k, t'.hashTable k = (array.filter fun a => bucket t' a = some k).reverse ++ t.hashTable k
  same : t'.list = t.list ∧ t'.total = t.total ∧ t'.valid = t.valid ∧ t'.length = t.length

section Steps

variable {t t' : IntegrityData} {a b k : ℕ} {n : FileNode} {array pending : List ℕ}

theorem agree_init : Agree IntegrityData.init where
  nodup := List.nodup_nil
  alive := List.forall_mem_nil _
  chains _ _ := iff_of_false List.not_mem_nil fun h => absurd h.1 List.not_mem_nil
  chainNodup _ := List.nodup_nil
  valid := rfl

theorem agree_iff_linked : Agree t ↔ Linked t [] := by
  constructor
  · rintro ⟨hnodup, halive, hchains, hchain, hvalid⟩
    rw [← List.append_nil t.list] at hnodup halive hchains
    exact ⟨hnodup, halive, hchains, hchain, hvalid⟩
  · rintro ⟨hnodup, halive, hchains, hchain, hvalid⟩
    rw [List.append_nil] at hnodup halive hchains
    exact ⟨hnodup, halive, hchains, hchain, hvalid⟩

theorem readNode_eq (h : t.heap.read a = some n) : readNode t a = .ok n := by
  rw [readNode, h]

theorem free_eq (h : t.heap.read a = some n) : free t a = .ok { t with heap := t.heap.kfree a } := by
  rw [free, readNode_eq h]
  rfl

theorem bucket_eq_some : bucket t a = some k ↔ ∃ n, t.heap.read a = some n ∧ n.hashIndex = k :=
  Option.map_eq_some_iff

/-- A chain without freed nodes can be walked along. -/
theorem deleteFromHashTable_eq (h : t.heap.read a = some n)
    (hchain : ∀ b ∈ t.hashTable n.hashIndex, ∃ m, t.heap.read b = some m) :
    deleteFromHashTable t a = .ok { t with hashTable := t.hashTable.eraseFirst n.hashIndex (· == a) } := by
  have htest : ∀ b ∈ t.hashTable n.hashIndex, isNode t a b = .ok (b == a) := by
    intro b hb
    obtain ⟨m, hm⟩ := hchain b hb
    rw [isNode, readNode_eq hm]
    rfl
  rw [deleteFromHashTable, readNode_eq h]
  show (Heap.search (isNode t a) (t.hashTable n.hashIndex)).bind _ = _
  rw [Heap.search_eq htest]
  rfl

theorem mem_of_mem_neighbours {l : List ℕ} (ha : a ∈ l) (h : b ∈ neighbours l a) : b ∈ l := by
  rcases List.mem_cons.mp h with rfl | h
  · exact ha
  rcases List.mem_append.mp h with h | h
  · exact (List.takeWhile_prefix _).subset (List.mem_of_getLast? (Option.mem_toList.mp h))
  · exact (List.dropWhile_suffix _).subset (List.mem_of_mem_tail (List.mem_of_head? (Option.mem_toList.mp h)))

theorem listDel_eq (ha : a ∈ t.list) (halive : ∀ b ∈ t.list, ∃ n, t.heap.read b = some n) :
    listDel t a = .ok { t with list := t.list.erase a } := by
  rw [listDel, if_neg (not_not.mpr ha), if_pos]
  intro b hb
  obtain ⟨n, hn⟩ := halive b (mem_of_mem_neighbours ha hb)
  rw [hn]
  rfl

theorem listAddTail_eq (halive : ∀ b ∈ t.list, ∃ n, t.heap.read b = some n) :
    listAddTail t a = .ok { t with list := t.list ++ [a] } := by
  rw [listAddTail, if_pos]
  intro b hb
  obtain ⟨n, hn⟩ := halive b (List.mem_of_getLast? hb)
  rw [hn]
  rfl

end Steps

/-! ### New nodes -/

section Grow

variable {t t' : IntegrityData} {a b k : ℕ} {item data : Bytes} {array : List ℕ} {items : List Bytes}

theorem grown_refl (t : IntegrityData) : Grown t [] t :=
  ⟨List.nodup_nil, List.forall_mem_nil _, fun _ _ h => h, le_rfl, fun _ => rfl, rfl, rfl, rfl, rfl⟩

theorem hashValue_take {m : ℕ} (h : 36 ≤ m) (item : Bytes) : hashValue (item.take m) = hashValue item := by
  have hget : ∀ i < 36, (item.take m).getD i 0 = item.getD i 0 := fun i hi => by
    rw [List.getD_eq_getElem?_getD, List.getD_eq_getElem?_getD, List.getElem?_take_of_lt (by omega)]
  rw [hashValue, hashValue, hget 4 (by omega), hget 5 (by omega)]

/-- The node of a record. -/
theorem made_addToHashTable (h : recordSize item ≤ item.length) (filePos : ℕ) :
    Made ⟨hashValue item, Store.addToHashTable item filePos⟩ := by
  have hsize : recordSize (item.take (recordSize item)) = recordSize item := recordSize_record item
  have hpath := (item_record h).2.2.2
  exact ⟨(hashValue_take (recordSize_pos item) item).symm, hsize.symm, by rw [Store.addToHashTable, hsize],
    hpath.symm, (length_record h).trans hsize.symm⟩

theorem bucket_of_read {t'' : IntegrityData} (h : t''.heap.read a = t'.heap.read a) :
    bucket t'' a = bucket t' a := by
  rw [bucket, h, bucket]

/-- **A new node** comes first in its chain. -/
theorem Grown.add (hg : Grown t array t') (h : recordSize item ≤ item.length) (filePos : ℕ) :
    Grown t (array ++ [t'.heap.next]) (addToHashTable t' item filePos) := by
  have hlt : ∀ a ∈ array, a < t'.heap.next := fun a ha => by
    obtain ⟨-, n, hn, -⟩ := hg.new a ha
    exact Heap.lt_of_read hn
  have hbucket : ∀ a ∈ array, bucket (addToHashTable t' item filePos) a = bucket t' a := fun a ha =>
    bucket_of_read (Heap.read_alloc_of_ne (Nat.ne_of_lt (hlt a ha)))
  have hself : bucket (addToHashTable t' item filePos) t'.heap.next = some (hashValue item) :=
    bucket_eq_some.mpr ⟨_, Heap.read_alloc_self, rfl⟩
  refine ⟨?_, ?_, fun a n hn => Heap.read_alloc (hg.old a n hn), ?_, fun k => ?_, hg.same⟩
  · rw [List.nodup_append']
    refine ⟨hg.nodup, List.nodup_singleton _, ?_⟩
    rw [List.disjoint_singleton]
    exact fun hmem => absurd (hlt _ hmem) (lt_irrefl _)
  · intro a ha
    rcases List.mem_append.mp ha with ha | ha
    · obtain ⟨hle, n, hn, hmade⟩ := hg.new a ha
      exact ⟨hle, n, Heap.read_alloc hn, hmade⟩
    · obtain rfl := List.mem_singleton.mp ha
      exact ⟨hg.next, _, Heap.read_alloc_self, made_addToHashTable h filePos⟩
  · exact hg.next.trans (Nat.le_of_lt (by rw [addToHashTable, Heap.next_alloc]; omega))
  · have hfilter : (array.filter fun a => bucket (addToHashTable t' item filePos) a = some k) =
        array.filter fun a => bucket t' a = some k :=
      List.filter_congr fun a ha => by rw [hbucket a ha]
    rw [List.filter_append, List.reverse_append, hfilter]
    show Function.update t'.hashTable (hashValue item) _ k = _
    rcases eq_or_ne k (hashValue item) with rfl | hk
    · rw [Function.update_self, hg.chains, List.filter_cons_of_pos (by rw [hself]; exact decide_eq_true rfl)]
      rfl
    · rw [Function.update_of_ne hk, hg.chains, List.filter_cons_of_neg]
      · rfl
      · rw [hself, decide_eq_true_iff, Option.some.injEq]
        exact hk.symm

/-- **The loop** grows the table by the nodes that it returns. -/
theorem Grown.addList (hg : Grown t array t') (grant : ℕ → Bool) (i filePos : ℕ)
    (h : ∀ item ∈ items, recordSize item ≤ item.length) :
    Grown t (array ++ (Nodes.addList grant i filePos items t').2.1) (Nodes.addList grant i filePos items t').2.2 ∧
      (Nodes.addList grant i filePos items t').2.1.length ≤ items.length := by
  induction items generalizing t' array i filePos with
  | nil =>
      rw [Nodes.addList, List.append_nil]
      exact ⟨hg, le_rfl⟩
  | cons item items ih =>
      obtain ⟨hitem, hitems⟩ := List.forall_mem_cons.mp h
      rw [Nodes.addList]
      split_ifs
      · obtain ⟨hrest, hlen⟩ := ih hg (i + 1) (filePos + align4 (recordSize item)) hitems
        exact ⟨hrest, hlen.trans (Nat.le_succ _)⟩
      · rw [List.append_nil]
        exact ⟨hg, Nat.zero_le _⟩
      · obtain ⟨hrest, hlen⟩ := ih (hg.add hitem filePos) (i + 1) (filePos + align4 (recordSize item)) hitems
        rw [List.append_assoc] at hrest
        exact ⟨hrest, Nat.succ_le_succ hlen⟩

/-- The nodes of the chains are there. -/
def ChainsAlive (t : IntegrityData) : Prop := ∀ k, ∀ a ∈ t.hashTable k, ∃ n, t.heap.read a = some n

theorem Agree.chainsAlive (h : Agree t) : ChainsAlive t := by
  intro k a ha
  obtain ⟨n, hn, -⟩ := h.alive a ((h.chains k a).mp ha).1
  exact ⟨n, hn⟩

theorem Grown.chainsAlive (hg : Grown t array t') (h : ChainsAlive t) : ChainsAlive t' := by
  intro k a ha
  rw [hg.chains, List.mem_append, List.mem_reverse] at ha
  rcases ha with ha | ha
  · obtain ⟨-, n, hn, -⟩ := hg.new a (List.mem_of_mem_filter ha)
    exact ⟨n, hn⟩
  · obtain ⟨n, hn⟩ := h k a ha
    exact ⟨n, hg.old a n hn⟩

/-- **The first new node is dropped.** -/
theorem Grown.drop (hg : Grown t (a :: array) t') (h : ChainsAlive t) :
    ∃ t₁ t₂, deleteFromHashTable t' a = .ok t₁ ∧ free t₁ a = .ok t₂ ∧ Grown t array t₂ := by
  obtain ⟨hle, n, hn, -⟩ := hg.new a List.mem_cons_self
  obtain ⟨hnot, hnodup⟩ := List.nodup_cons.mp hg.nodup
  have hne : ∀ b ∈ array, a ≠ b := fun b hb heq => hnot (heq ▸ hb)
  have hself : bucket t' a = some n.hashIndex := bucket_eq_some.mpr ⟨n, hn, rfl⟩
  refine ⟨_, _, deleteFromHashTable_eq hn (hg.chainsAlive h _), free_eq hn, hnodup, ?_, ?_, ?_, fun k => ?_,
    hg.same⟩
  · intro b hb
    obtain ⟨hle, m, hm, hmade⟩ := hg.new b (List.mem_cons_of_mem _ hb)
    exact ⟨hle, m, (Heap.read_kfree_of_ne (hne b hb)).trans hm, hmade⟩
  · intro b m hm
    have hlt := Heap.lt_of_read hm
    exact (Heap.read_kfree_of_ne (by omega)).trans (hg.old b m hm)
  · exact hg.next.trans (Nat.le_of_eq Heap.next_kfree.symm)
  · have hfilter : ∀ t₂ : IntegrityData, t₂.heap = t'.heap.kfree a →
        (array.filter fun b => bucket t₂ b = some k) = array.filter fun b => bucket t' b = some k := by
      intro t₂ ht
      refine List.filter_congr fun b hb => ?_
      rw [bucket_of_read (by rw [ht, Heap.read_kfree_of_ne (hne b hb)] : t₂.heap.read b = t'.heap.read b)]
    rw [hfilter _ rfl]
    show Function.update t'.hashTable n.hashIndex _ k = _
    rcases eq_or_ne k n.hashIndex with rfl | hk
    · rw [Function.update_self, hg.chains, List.filter_cons_of_pos (by rw [hself]; exact decide_eq_true rfl),
        List.reverse_cons,
        List.append_assoc, List.eraseP_append_right]
      · rw [List.singleton_append, List.eraseP_cons_of_pos (by exact beq_self_eq_true a)]
      · intro b hb hba
        rw [List.mem_reverse] at hb
        exact hne b (List.mem_of_mem_filter hb) (eq_of_beq hba).symm
    · rw [Function.update_of_ne hk, hg.chains, List.filter_cons_of_neg]
      rw [hself, decide_eq_true_iff, Option.some.injEq]
      exact hk.symm

/-- **All of them are dropped**, and the chains are what they were. -/
theorem Grown.dropNodes (hg : Grown t array t') (h : ChainsAlive t) :
    ∃ t₁, Nodes.dropNodes array t' = .ok t₁ ∧ Grown t [] t₁ := by
  induction array generalizing t' with
  | nil => exact ⟨t', rfl, hg⟩
  | cons a array ih =>
      obtain ⟨t₁, t₂, hdel, hfree, hg'⟩ := hg.drop h
      obtain ⟨t₃, hdrop, hg''⟩ := ih hg'
      refine ⟨t₃, ?_, hg''⟩
      rw [Nodes.dropNodes, hdel]
      show (free t₁ a).bind _ = _
      rw [hfree]
      exact hdrop

/-- A record takes 36 bytes. -/
theorem length_items {items : List Bytes} (h : bufferToItemArray data data.length = .ok items) :
    36 * items.length ≤ data.length ∧ ∀ item ∈ items, recordSize item ≤ item.length := by
  obtain ⟨cells, hlaid, rfl⟩ := exists_laid h le_rfl
  refine ⟨?_, fun item hitem => hlaid.fits_pointers hitem⟩
  have hfits := hlaid.fits
  rw [hlaid.flatten]
  clear h hlaid
  induction cells with
  | nil => exact Nat.zero_le _
  | cons c cells ih =>
      obtain ⟨hc, hcs⟩ := List.forall_mem_cons.mp hfits
      have h36 := recordSize_pos c
      have hrest := ih hcs
      rw [pointers, List.length_cons, List.flatten_cons, List.length_append]
      omega

/-- **`file_integrity_hash_policy_data`** grows the table, or leaves it as it is where it fails. -/
theorem hashPolicyData_spec (g : Grants) (data : Bytes) (h : ChainsAlive t) :
    ∃ r t', hashPolicyData g data t = .ok (r, t') ∧ Grown t (r.array.getD []) t' ∧
      36 * (r.array.getD []).length ≤ data.length ∧ (r.ret ≠ 0 → r.array = none) := by
  rw [hashPolicyData]
  split_ifs with hitems
  · exact ⟨_, t, rfl, grown_refl t, Nat.zero_le _, fun _ => rfl⟩
  cases hsplit : bufferToItemArray data data.length with
  | error e => exact ⟨_, t, rfl, grown_refl t, Nat.zero_le _, fun _ => rfl⟩
  | ok pitems =>
      obtain ⟨hlen, hfits⟩ := length_items hsplit
      dsimp only
      split_ifs
      · exact ⟨_, t, rfl, grown_refl t, Nat.zero_le _, fun _ => rfl⟩
      obtain ⟨hg, hle⟩ := (grown_refl t).addList g.node 0 0 hfits
      rw [List.nil_append] at hg
      rw [hashItems]
      split_ifs with hend
      · exact ⟨_, _, rfl, hg, (Nat.mul_le_mul_left 36 hle).trans hlen, fun hret => absurd rfl hret⟩
      · obtain ⟨t₁, hdrop, hg₁⟩ := hg.dropNodes h
        rw [hdrop]
        exact ⟨_, t₁, rfl, hg₁, Nat.zero_le _, fun _ => rfl⟩

end Grow

/-! ### New nodes in the list -/

section Append

variable {t t' : IntegrityData} {a b k : ℕ} {array : List ℕ}

theorem Grown.linked (hg : Grown t array t') (h : Agree t) : Linked t' array := by
  obtain ⟨hlist, -, hvalid, -⟩ := hg.same
  have hold : ∀ a ∈ t.list, a < t.heap.next ∧ bucket t' a = bucket t a := by
    intro a ha
    obtain ⟨n, hn, -⟩ := h.alive a ha
    exact ⟨Heap.lt_of_read hn, bucket_of_read ((hg.old a n hn).trans hn.symm)⟩
  refine ⟨?_, ?_, fun k a => ?_, fun k => ?_, ?_⟩
  · rw [hlist, List.nodup_append']
    refine ⟨h.nodup, hg.nodup, fun a ha hnew => ?_⟩
    exact absurd (hold a ha).1 (not_lt.mpr (hg.new a hnew).1)
  · intro a ha
    rw [hlist] at ha
    rcases List.mem_append.mp ha with ha | ha
    · obtain ⟨n, hn, hmade⟩ := h.alive a ha
      exact ⟨n, hg.old a n hn, hmade⟩
    · exact (hg.new a ha).2
  · rw [hg.chains, hlist, List.mem_append, List.mem_reverse, List.mem_filter, h.chains, List.mem_append,
      decide_eq_true_iff]
    constructor
    · rintro (⟨ha, hk⟩ | ⟨ha, hk⟩)
      · exact ⟨Or.inr ha, hk⟩
      · exact ⟨Or.inl ha, (hold a ha).2.trans hk⟩
    · rintro ⟨ha | ha, hk⟩
      · exact Or.inr ⟨ha, (hold a ha).2.symm.trans hk⟩
      · exact Or.inl ⟨ha, hk⟩
  · rw [hg.chains, List.nodup_append']
    refine ⟨List.nodup_reverse.mpr (hg.nodup.filter _), h.chainNodup k, fun a ha hchain => ?_⟩
    have hlt := (hold a ((h.chains k a).mp hchain).1).1
    exact absurd hlt (not_lt.mpr (hg.new a (List.mem_of_mem_filter (List.mem_reverse.mp ha))).1)
  · rw [hvalid, hlist, h.valid]

/-- Where the nodes have been dropped, what was there before is there. -/
theorem Grown.agree (hg : Grown t [] t') (h : Agree t) : Agree t' := agree_iff_linked.mpr (hg.linked h)

/-- Moving a node leaves it where it stands in the chains. -/
theorem bucket_moveNode {n : FileNode} (hn : t.heap.read a = some n) (b : ℕ) :
    bucket (moveNode t a n) b = bucket t b := by
  rw [bucket, moveNode, bucket]
  rcases eq_or_ne b a with rfl | hne
  · rw [Heap.read_store_self hn, hn]
    rfl
  · rw [Heap.read_store_of_ne hne.symm]

/-- The first of the pending nodes is appended. -/
theorem Linked.append_one (h : Linked t (a :: array)) (hsmall : t.list.length + 1 < 2 ^ 32) :
    ∃ n t₁, readNode t a = .ok n ∧ listAddTail (moveNode t a n) a = .ok t₁ ∧
      t₁.list = t.list ++ [a] ∧ Linked { t₁ with valid := (t₁.valid + 1) % 2 ^ 32 } array := by
  obtain ⟨n, hn, hmade⟩ := h.alive a (List.mem_append_right _ List.mem_cons_self)
  have hsplit : t.list ++ [a] ++ array = t.list ++ a :: array := by rw [List.append_assoc, List.singleton_append]
  refine ⟨n, _, readNode_eq hn, listAddTail_eq fun b hb => ?_, rfl, hsplit ▸ h.nodup, ?_, fun k b => ?_,
    h.chainNodup, ?_⟩
  · obtain ⟨c, hc, -⟩ := h.alive b (List.mem_append_left _ hb)
    exact (Heap.exists_read_store hn).mpr ⟨c, hc⟩
  · intro b hb
    obtain ⟨c, hc, hcmade⟩ := h.alive b (hsplit ▸ hb)
    rcases eq_or_ne b a with rfl | hne
    · exact ⟨_, Heap.read_store_self hn, hmade.1, hmade.2, hmade.3, hmade.4, hmade.5⟩
    · exact ⟨c, (Heap.read_store_of_ne hne.symm).trans hc, hcmade⟩
  · show b ∈ t.hashTable k ↔ b ∈ t.list ++ [a] ++ array ∧ bucket (moveNode t a n) b = some k
    rw [h.chains, hsplit, bucket_moveNode hn]
  · show (t.valid + 1) % 2 ^ 32 = (t.list ++ [a]).length
    rw [h.valid, List.length_append, List.length_singleton]
    exact Nat.mod_eq_of_lt hsmall

theorem Linked.append (h : Linked t array) (hsmall : t.list.length + array.length < 2 ^ 32) :
    ∃ t₁, appendNodes array t = .ok t₁ ∧ Agree t₁ ∧ t₁.list = t.list ++ array := by
  induction array generalizing t with
  | nil => exact ⟨t, rfl, agree_iff_linked.mpr h, (List.append_nil _).symm⟩
  | cons a array ih =>
      rw [List.length_cons] at hsmall
      obtain ⟨n, t₁, hread, hadd, hlist, hlinked⟩ := h.append_one (by omega)
      obtain ⟨t₂, happend, hagree, hlist₂⟩ := ih hlinked (by
        show t₁.list.length + _ < _
        rw [hlist, List.length_append, List.length_singleton]
        omega)
      refine ⟨t₂, ?_, hagree, ?_⟩
      · rw [appendNodes, hread]
        show (listAddTail _ a).bind _ = _
        rw [hadd]
        exact happend
      · rw [hlist₂]
        show t₁.list ++ array = _
        rw [hlist, List.append_assoc, List.singleton_append]

/-- **`file_integrity_append_hashed_array`** puts the new nodes into the list. -/
theorem Grown.appendHashedArray (hg : Grown t array t') (h : Agree t)
    (hsmall : t.list.length + array.length < 2 ^ 32) (total dataLength : ℕ) :
    ∃ t₁, Nodes.appendHashedArray array total dataLength t' = .ok t₁ ∧ Agree t₁ ∧ t₁.list = t.list ++ array := by
  have hlinked := hg.linked h
  rw [← hg.same.1] at hsmall ⊢
  obtain ⟨t₁, happend, hagree, hlist⟩ :=
    @Linked.append { t' with total := (t'.total + total) % 2 ^ 32 } _
      ⟨hlinked.1, hlinked.2, hlinked.3, hlinked.4, hlinked.5⟩ hsmall
  refine ⟨{ t₁ with length := if total ≠ 0 then (t₁.length + align4 dataLength) % 2 ^ 32 else t₁.length }, ?_,
    ⟨hagree.1, hagree.2, hagree.3, hagree.4, hagree.5⟩, hlist⟩
  rw [Nodes.appendHashedArray, happend]
  rfl

end Append

/-! ### Nodes that are taken out -/

section Delete

variable {t t' : IntegrityData} {a b k : ℕ} {dellist l : List ℕ}

/-- The nodes of a list are freed, one after the other. -/
theorem freeList_spec (hlist : t.list = l) (hnodup : l.Nodup) (halive : ∀ a ∈ l, ∃ n, t.heap.read a = some n) :
    ∃ t', freeList l t = .ok t' := by
  induction l generalizing t with
  | nil => exact ⟨t, rfl⟩
  | cons a l ih =>
      obtain ⟨n, hn⟩ := halive a List.mem_cons_self
      obtain ⟨hnot, hnodup⟩ := List.nodup_cons.mp hnodup
      have hdel := listDel_eq (t := t) (hlist ▸ List.mem_cons_self) (hlist ▸ halive)
      have hfree := free_eq (t := { t with list := t.list.erase a }) hn
      obtain ⟨t', hrest⟩ := @ih { t with list := t.list.erase a, heap := t.heap.kfree a }
        (by rw [hlist, List.erase_cons_head]) hnodup fun b hb => by
          obtain ⟨m, hm⟩ := halive b (List.mem_cons_of_mem _ hb)
          have hne : a ≠ b := fun heq => hnot (heq ▸ hb)
          exact ⟨m, (Heap.read_kfree_of_ne hne).trans hm⟩
      refine ⟨t', ?_⟩
      rw [freeList, hdel]
      show (free _ a).bind _ = _
      rw [hfree]
      exact hrest

/-- A table without nodes. -/
structure Cleared (t : IntegrityData) : Prop where
  hashTable : t.hashTable = Chained.Table.empty
  list : t.list = []
  total : t.total = 0
  valid : t.valid = 0
  length : t.length = 0

theorem Cleared.agree (h : Cleared t) : Agree t where
  nodup := h.list ▸ List.nodup_nil
  alive := h.list ▸ List.forall_mem_nil _
  chains k a := by
    rw [h.hashTable, h.list]
    exact iff_of_false List.not_mem_nil fun hmem => absurd hmem.1 List.not_mem_nil
  chainNodup k := h.hashTable ▸ List.nodup_nil
  valid := by rw [h.valid, h.list, List.length_nil]

/-- **`file_integrity_reset`** leaves no node. -/
theorem Agree.reset (h : Agree t) : ∃ t', Nodes.reset t = .ok t' ∧ Cleared t' := by
  obtain ⟨t', hfree⟩ := freeList_spec rfl h.nodup fun a ha => by
    obtain ⟨n, hn, -⟩ := h.alive a ha
    exact ⟨n, hn⟩
  refine ⟨⟨t'.heap, Chained.Table.empty, [], 0, 0, 0⟩, ?_, rfl, rfl, rfl, rfl, rfl⟩
  rw [Nodes.reset, hfree]
  rfl

/-- **A node of the list is deleted.** -/
theorem Agree.delete (h : Agree t) (ha : a ∈ t.list) (hsmall : t.list.length < 2 ^ 32) :
    ∃ t₁ t₂ n t₃, deleteFromHashTable t a = .ok t₁ ∧ listDel t₁ a = .ok t₂ ∧ readNode t₂ a = .ok n ∧
      free { t₂ with
        valid := (t₂.valid + (2 ^ 32 - 1)) % 2 ^ 32
        length := (t₂.length + (2 ^ 32 - n.item.alignedSize)) % 2 ^ 32 } a = .ok t₃ ∧
      Agree t₃ ∧ t₃.list = t.list.erase a := by
  obtain ⟨n, hn, hmade⟩ := h.alive a ha
  have hself : bucket t a = some n.hashIndex := bucket_eq_some.mpr ⟨n, hn, rfl⟩
  have hpos : 0 < t.list.length := List.length_pos_of_mem ha
  have hread : ∀ {b}, b ∈ t.list.erase a → b ≠ a := fun hb => ((h.nodup.mem_erase_iff).mp hb).1
  have hchain : ∀ k b, b ∈ t.hashTable.eraseFirst n.hashIndex (· == a) k ↔ b ∈ t.hashTable k ∧ b ≠ a := by
    intro k b
    rw [Chained.Table.eraseFirst]
    rcases eq_or_ne k n.hashIndex with rfl | hk
    · rw [Function.update_self]
      exact Chained.Table.mem_eraseP_of_unique (h.chainNodup _) fun y _ => beq_iff_eq
    · rw [Function.update_of_ne hk]
      refine (and_iff_left_of_imp ?_).symm
      rintro hb rfl
      exact hk (Option.some.inj (((h.chains k b).mp hb).2.symm.trans hself))
  refine ⟨_, _, n, _, deleteFromHashTable_eq hn (h.chainsAlive _), listDel_eq ha ?_, readNode_eq hn,
    free_eq hn, ?_, rfl⟩
  · intro b hb
    obtain ⟨m, hm, -⟩ := h.alive b hb
    exact ⟨m, hm⟩
  refine ⟨h.nodup.erase a, fun b hb => ?_, fun k b => ?_, fun k => ?_, ?_⟩
  · obtain ⟨m, hm, hmmade⟩ := h.alive b (List.mem_of_mem_erase hb)
    exact ⟨m, (Heap.read_kfree_of_ne (hread hb).symm).trans hm, hmmade⟩
  · show b ∈ t.hashTable.eraseFirst _ _ k ↔ b ∈ t.list.erase a ∧ Option.map _ _ = some k
    rw [hchain, h.chains, h.nodup.mem_erase_iff, and_right_comm, and_comm (a := b ≠ a), and_congr_right]
    rintro ⟨-, hne⟩
    rw [bucket, Heap.read_kfree_of_ne hne.symm]
  · show (t.hashTable.eraseFirst n.hashIndex (· == a) k).Nodup
    rw [Chained.Table.eraseFirst]
    rcases eq_or_ne k n.hashIndex with rfl | hk
    · rw [Function.update_self]
      exact (h.chainNodup _).sublist List.eraseP_sublist
    · rw [Function.update_of_ne hk]
      exact h.chainNodup k
  · show (t.valid + (2 ^ 32 - 1)) % 2 ^ 32 = (t.list.erase a).length
    rw [h.valid, List.length_erase_of_mem ha]
    omega

/-- **`file_integrity_delete_policy_data`** deletes what it is given. -/
theorem Agree.deletePolicyData (h : Agree t) (hsmall : t.list.length < 2 ^ 32) (hnodup : dellist.Nodup)
    (hmem : ∀ a ∈ dellist, a ∈ t.list) : ∃ t', Nodes.deletePolicyData dellist t = .ok t' ∧ Agree t' := by
  induction dellist generalizing t with
  | nil => exact ⟨t, rfl, h⟩
  | cons a dellist ih =>
      obtain ⟨hnot, hnodup⟩ := List.nodup_cons.mp hnodup
      obtain ⟨ha, hmem⟩ := List.forall_mem_cons.mp hmem
      obtain ⟨t₁, t₂, n, t₃, hdel, hlist, hread, hfree, hagree, herase⟩ := h.delete ha hsmall
      have hle : t₃.list.length ≤ t.list.length := by
        rw [herase]
        exact List.length_erase_le
      obtain ⟨t', hrest, hagree'⟩ := ih hagree (hle.trans_lt hsmall) hnodup fun b hb => by
        rw [herase, h.nodup.mem_erase_iff]
        exact ⟨fun heq => hnot (heq ▸ hb), hmem b hb⟩
      refine ⟨t', ?_, hagree'⟩
      rw [Nodes.deletePolicyData, hdel]
      show (listDel t₁ a).bind _ = _
      rw [hlist]
      show (readNode t₂ a).bind _ = _
      rw [hread]
      show (free _ a).bind _ = _
      rw [hfree]
      exact hrest

end Delete

end Nodes
end FileIntegrity
end TsbAgent
