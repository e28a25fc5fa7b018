/-
# The stored references follow the list

A call of `tcf_update_file_integrity` that meets `Orderly` leaves a file that holds the list (`Holds`):

| | the file then | |
| --- | --- | --- |
| an error | the records that it had | `Follows.failed` |
| set | the records of the update | `follows_set` |
| add | the old cells, then those of the update | `follows_append` |
| delete | the old cells, those that are listed set to zero | `delete_refines` |

For a delete the nodes that `file_integrity_match` finds have to be those of the listed references
(`mem_deletePrepare_iff`), and each has its own place in the file (`eq_of_offset_eq`).
-/

import TsbAgent.FileIntegrity.Cells

namespace TsbAgent
namespace FileIntegrity
namespace Store

open Libc File Httcutils Run

/-! ### The invariant -/

/-- The file is cut into cells that hold the list, and is not too long to be read. -/
structure Holds (file : Option Bytes) (refs : List Bytes) : Prop where
  cells : ∃ cells, Laid cells (file.getD []) ∧ live cells = refs
  small : (file.getD []).length ≤ maxFileSize

section Build

variable {io : BuildIo} {file : Option Bytes} {refs f data : Bytes} {cells : List Bytes}

theorem hashPolicyData_eq {alloc : Bool} (h : Laid cells data) (ha : alloc = true) :
    hashPolicyData alloc data = (0, nodesOf 0 cells) := by
  rw [hashPolicyData, h.split]
  dsimp only
  rw [ha, if_neg (by decide), h.nodes]

/-- What is split off an update that gets to the TPCM. -/
theorem exists_laid_of_hashPolicyData {alloc : Bool} (h : (hashPolicyData alloc data).1 = 0) :
    ∃ cells, Laid cells data ∧ alloc = true := by
  rw [hashPolicyData] at h
  cases hsplit : bufferToItemArray data data.length with
  | error e =>
      rw [hsplit] at h
      rw [error_of_split hsplit le_rfl] at h
      exact absurd h (show ¬ tcfErrBadData = 0 by decide)
  | ok items =>
      rw [hsplit] at h
      dsimp only at h
      obtain ⟨cells, hcells, -⟩ := exists_laid hsplit le_rfl
      refine ⟨cells, hcells, ?_⟩
      by_contra halloc
      rw [if_pos (Bool.eq_false_of_not_eq_true halloc)] at h
      exact absurd h (by decide)

/-- The file can be opened where it is there, and the TPCM has no references where it is not. -/
structure Builds (io : BuildIo) (file : Option Bytes) : Prop where
  sizeOpens : file ≠ none → io.sizeOpens = true
  tpcm : file = none → io.supported = true → io.tpcm.1 = 0 → io.createPath = true → io.write.opens = true →
    io.tpcm.2 = []

/-- **`build_integrity_data`** leaves the bytes of the file, and has the nodes of the cells. -/
theorem build_spec (hb : Builds io file) (h : Laid cells (file.getD [])) :
    (buildIntegrityData io file).file.getD [] = file.getD [] ∧
      ((buildIntegrityData io file).ret = 0 → (buildIntegrityData io file).nodes = nodesOf 0 cells) := by
  cases file with
  | none =>
      obtain rfl := h.eq_nil
      rw [buildIntegrityData, httcUtilFileSize]
      dsimp only
      by_cases hsup : io.supported = true
      swap
      · rw [if_neg hsup]
        exact ⟨rfl, fun _ => rfl⟩
      rw [if_pos hsup]
      by_cases htpcm : io.tpcm.1 ≠ 0
      · rw [if_pos htpcm]
        exact ⟨rfl, fun hret => absurd hret htpcm⟩
      rw [if_neg htpcm]
      by_cases hpath : io.createPath = false
      · rw [if_pos hpath]
        exact ⟨rfl, fun hret => absurd hret (show ¬ tcfErrDir = 0 by decide)⟩
      rw [if_neg hpath]
      by_cases hopens : io.write.opens = true
      · rw [hb.tpcm rfl hsup (not_not.mp htpcm) (Bool.eq_true_of_not_eq_false hpath) hopens, httcUtilFileWrite,
          if_neg (not_not.mpr hopens), List.take_nil, if_neg (not_not.mpr rfl), if_pos List.length_nil]
        exact ⟨List.take_nil, fun _ => rfl⟩
      · rw [httcUtilFileWrite, if_pos hopens, if_pos (by omega)]
        exact ⟨rfl, fun hret => absurd hret (show ¬ tcfErrFile = 0 by decide)⟩
  | some f =>
      rw [buildIntegrityData, httcUtilFileSize, hb.sizeOpens (Option.some_ne_none f), if_pos rfl]
      dsimp only
      by_cases hempty : f.length = 0
      · obtain rfl := List.length_eq_zero_iff.mp hempty
        obtain rfl := h.eq_nil
        exact ⟨rfl, fun _ => rfl⟩
      rw [if_neg hempty]
      cases hread : httcUtilFileReadFull io.read (some f) with
      | none => exact ⟨rfl, fun hret => absurd hret (show ¬ tcfErrFile = 0 by decide)⟩
      | some rbuffer =>
          obtain ⟨-, -, -, rfl⟩ := httcUtilFileReadFull_eq_some.mp hread
          refine ⟨rfl, fun hret => ?_⟩
          obtain ⟨-, -, halloc⟩ := exists_laid_of_hashPolicyData hret
          exact congrArg Prod.snd (hashPolicyData_eq h halloc)

/-- **What holds the list reads it back.** -/
theorem Holds.readsBack {refs : List Bytes} (h : Holds file refs) : ReadsBack file refs := by
  intro io hio
  obtain ⟨cells, hlaid, rfl⟩ := h.cells
  have hret : (buildIntegrityData io file).ret = 0 := by
    cases file with
    | none =>
        rw [buildIntegrityData, httcUtilFileSize]
        dsimp only
        rw [hio.supported, if_neg Bool.false_ne_true]
    | some f =>
        rw [buildIntegrityData, httcUtilFileSize, if_pos hio.sizeOpens]
        dsimp only
        split_ifs with hempty
        · rfl
        · have hread : httcUtilFileReadFull io.read (some f) = some f :=
            httcUtilFileReadFull_eq_some.mpr ⟨hio.read, h.small, fun hnil => hempty (by rw [hnil]; rfl), rfl⟩
          rw [hread]
          exact congrArg Prod.fst (hashPolicyData_eq hlaid hio.alloc)
  have hbuilds : Builds io file :=
    ⟨fun _ => hio.sizeOpens, fun _ hsup => absurd (hio.supported.symm.trans hsup) Bool.false_ne_true⟩
  exact ⟨hret, by rw [(build_spec hbuilds hlaid).2 hret, map_data_nodesOf]⟩

end Build

/-! ### What a delete finds -/

section Find

variable {behind beyond : ℕ → UInt8} {nodes : List Node} {items cells : List Bytes} {n : Node} {pos : ℕ}

/-- A chain has the nodes with its index, the last first. -/
theorem hashTable_eq (nodes : List Node) (k : ℕ) :
    hashTable nodes k = (nodes.filter fun n => hashValue n.data = k).reverse := by
  have hgen : ∀ (t : ℕ → List Node),
      nodes.foldl (fun t n => Function.update t (hashValue n.data) (n :: t (hashValue n.data))) t k =
        (nodes.filter fun n => hashValue n.data = k).reverse ++ t k := by
    induction nodes with
    | nil => exact fun t => rfl
    | cons n nodes ih =>
        intro t
        rw [List.foldl_cons, ih, List.filter_cons]
        by_cases hk : hashValue n.data = k
        · rw [if_pos (decide_eq_true hk), ← hk, Function.update_self, List.reverse_cons, List.append_assoc]
          rfl
        · rw [if_neg (by simpa using hk), Function.update_of_ne fun heq => hk heq.symm]
  rw [hashTable, hgen, List.append_nil]

/-- Nodes are collected once each. -/
theorem mem_foldl_check (l delarray : List Node) :
    n ∈ l.foldl (fun delarray info => if info ∈ delarray then delarray else delarray ++ [info]) delarray ↔
      n ∈ delarray ∨ n ∈ l := by
  induction l generalizing delarray with
  | nil => exact (or_iff_left List.not_mem_nil).symm
  | cons m l ih =>
      rw [List.foldl_cons, ih, List.mem_cons]
      split_ifs with hm
      · constructor
        · rintro (h | h)
          · exact Or.inl h
          · exact Or.inr (Or.inr h)
        · rintro (h | rfl | h)
          · exact Or.inl h
          · exact Or.inl hm
          · exact Or.inr h
      · rw [List.mem_append, List.mem_singleton, or_assoc]

/-- A node that matches an item has its digest. -/
theorem itemHash_of_nodeMatches {item : Bytes} (h : nodeMatches behind n item = true) :
    itemHash item = itemHash n.data := by
  rw [nodeMatches] at h
  split_ifs at h
  · exact of_decide_eq_true (Bool.and_eq_true_iff.mp h).2
  · exact of_decide_eq_true (Bool.and_eq_true_iff.mp (Bool.and_eq_true_iff.mp h).1).2

theorem getD_takeD {k i : ℕ} (h : i < k) (b : Bytes) : (b.takeD k 0).getD i 0 = b.getD i 0 := by
  induction k generalizing i b with
  | zero => exact absurd h (Nat.not_lt_zero i)
  | succ k ih =>
      rw [List.takeD_succ]
      cases i with
      | zero => cases b <;> rfl
      | succ i =>
          rw [List.getD_cons_succ, ih (Nat.lt_of_succ_lt_succ h)]
          cases b <;> rfl

theorem hashValue_eq (item : Bytes) :
    hashValue item = ((itemHash item).1.getD 0 0).toNat + 256 * ((itemHash item).1.getD 1 0).toNat := by
  have hget : ∀ i < 32, (itemHash item).1.getD i 0 = item.getD (4 + i) 0 := by
    intro i hi
    show ((itemData item).takeD 32 0).getD i 0 = _
    rw [getD_takeD hi, itemData, List.getD_eq_getElem?_getD, List.getElem?_drop, ← List.getD_eq_getElem?_getD]
  rw [hashValue, hget 0 (by omega), hget 1 (by omega)]

/-- **The nodes to delete** are those that match an item. -/
theorem mem_deletePrepare :
    n ∈ deletePrepare behind nodes items ↔ n ∈ nodes ∧ ∃ item ∈ items, nodeMatches behind n item = true := by
  have hgen : ∀ delarray, n ∈ items.foldl (fun delarray item =>
      ((hashTable nodes (hashValue item)).filter (nodeMatches behind · item)).foldl
        (fun delarray info => if info ∈ delarray then delarray else delarray ++ [info]) delarray) delarray ↔
      n ∈ delarray ∨ n ∈ nodes ∧ ∃ item ∈ items, nodeMatches behind n item = true := by
    induction items with
    | nil =>
        intro delarray
        rw [List.foldl_nil]
        refine (or_iff_left ?_).symm
        rintro ⟨-, item, hitem, -⟩
        exact List.not_mem_nil hitem
    | cons item items ih =>
        intro delarray
        rw [List.foldl_cons, ih, mem_foldl_check, List.mem_filter, hashTable_eq, List.mem_reverse, List.mem_filter,
          List.exists_mem_cons_iff, or_assoc]
        refine or_congr_right ?_
        constructor
        · rintro (⟨⟨hn, -⟩, hmatch⟩ | ⟨hn, hlater⟩)
          · exact ⟨hn, Or.inl hmatch⟩
          · exact ⟨hn, Or.inr hlater⟩
        · rintro ⟨hn, hmatch | hlater⟩
          · have hchain : hashValue n.data = hashValue item := by
              rw [hashValue_eq, hashValue_eq item, itemHash_of_nodeMatches hmatch]
            exact Or.inl ⟨⟨hn, decide_eq_true hchain⟩, hmatch⟩
          · exact Or.inr ⟨hn, hlater⟩
  rw [deletePrepare, hgen, or_iff_right List.not_mem_nil]

theorem le_offset (h : n ∈ nodesOf pos cells) : pos ≤ n.offset := by
  induction cells generalizing pos with
  | nil => exact absurd h List.not_mem_nil
  | cons c cells ih =>
      rw [nodesOf] at h
      split_ifs at h
      · exact le_trans (Nat.le_add_right _ _) (ih h)
      · rcases List.mem_cons.mp h with rfl | h
        · exact le_rfl
        · exact le_trans (Nat.le_add_right _ _) (ih h)

/-- The offset is the address of a node. -/
theorem eq_of_offset_eq {m : Node} (hn : n ∈ nodesOf pos cells) (hm : m ∈ nodesOf pos cells)
    (h : n.offset = m.offset) : n = m := by
  induction cells generalizing pos with
  | nil => exact absurd hn List.not_mem_nil
  | cons c cells ih =>
      have h36 := recordSize_pos c
      have hle := le_align4 (recordSize c)
      rw [nodesOf] at hn hm
      split_ifs at hn hm
      · exact ih hn hm
      · rcases List.mem_cons.mp hn with rfl | hn
        · rcases List.mem_cons.mp hm with rfl | hm
          · rfl
          · have hlt : pos + align4 (recordSize c) ≤ pos := (le_offset hm).trans h.ge
            omega
        · rcases List.mem_cons.mp hm with rfl | hm
          · have hlt : pos + align4 (recordSize c) ≤ pos := (le_offset hn).trans h.le
            omega
          · exact ih hn hm

/-- A node stands for a cell that is not deleted. -/
theorem exists_cell (h : n ∈ nodesOf pos cells) :
    ∃ c ∈ cells, itemHash c ≠ Digest.zero ∧ n = addToHashTable c n.offset ∧
      (n.offset, n.alignedSize) ∈ places pos cells := by
  induction cells generalizing pos with
  | nil => exact absurd h List.not_mem_nil
  | cons c cells ih =>
      rw [nodesOf] at h
      have hlater : n ∈ nodesOf (pos + align4 (recordSize c)) cells → ∃ d ∈ c :: cells, itemHash d ≠ Digest.zero ∧
          n = addToHashTable d n.offset ∧ (n.offset, n.alignedSize) ∈ places pos (c :: cells) := by
        intro hmem
        obtain ⟨d, hd, hne, heq, hplace⟩ := ih hmem
        exact ⟨d, List.mem_cons_of_mem _ hd, hne, heq, List.mem_cons_of_mem _ hplace⟩
      split_ifs at h with hzero
      · exact hlater h
      · rcases List.mem_cons.mp h with rfl | hmem
        · exact ⟨c, List.mem_cons_self, hzero, rfl, List.mem_cons_self⟩
        · exact hlater hmem

end Find

/-! ### The list after a delete -/

/-- The path of a listed reference is looked for behind as many bytes as the stored reference has extended data.
That does not go wrong. -/
def PathsAgree (c : StoreCall) (refs : List Bytes) : Prop :=
  ∀ items, bufferToItemArray c.data c.data.length = .ok items → ∀ item ∈ items, ∀ r ∈ refs,
    itemHash item = itemHash r → FileIntegrity.pathLength item = FileIntegrity.pathLength r →
      (itemBytes c.behind item (36 + extendSize r) (FileIntegrity.pathLength r) = itemPath r ↔
        itemPath item = itemPath r)

section Delete

variable {behind beyond : ℕ → UInt8} {f f' data item : Bytes} {items cells : List Bytes} {n : Node} {pos : ℕ}
  {l : List ℕ}

theorem length_itemPath (h : recordSize item ≤ item.length) :
    (itemPath item).length = FileIntegrity.pathLength item := by
  rw [recordSize] at h
  rw [itemPath, itemData, List.length_take, List.length_drop, List.length_drop]
  show min _ (item.length - 4 - (32 + _)) = _
  omega

theorem mem_pointers (h : item ∈ pointers cells) : ∃ c ∈ cells, ∃ r, item = c ++ r := by
  induction cells with
  | nil => exact absurd h List.not_mem_nil
  | cons c cells ih =>
      rcases List.mem_cons.mp h with rfl | h
      · exact ⟨c, List.mem_cons_self, cells.flatten, List.flatten_cons⟩
      · obtain ⟨d, hd, r, rfl⟩ := ih h
        exact ⟨d, List.mem_cons_of_mem _ hd, r, rfl⟩

theorem length_le_of_mem_pointers (h : item ∈ pointers cells) : item.length ≤ cells.flatten.length := by
  induction cells with
  | nil => exact absurd h List.not_mem_nil
  | cons c cells ih =>
      rcases List.mem_cons.mp h with rfl | h
      · exact le_rfl
      · rw [List.flatten_cons, List.length_append]
        exact (ih h).trans (Nat.le_add_left _ _)

theorem Laid.fits_pointers (h : Laid cells f) (hitem : item ∈ pointers cells) : recordSize item ≤ item.length := by
  obtain ⟨c, hc, r, rfl⟩ := mem_pointers hitem
  rw [(item_eq_append (h.fits c hc) r).1, List.length_append]
  exact (h.fits c hc).trans (Nat.le_add_right _ _)

/-- **The comparison** finds the listed references. -/
theorem nodeMatches_iff (hnode : n.pathLength = FileIntegrity.pathLength n.data)
    (hfit : recordSize n.data ≤ n.data.length) (hitem : recordSize item ≤ item.length)
    (hagree : itemHash item = itemHash n.data → FileIntegrity.pathLength item = FileIntegrity.pathLength n.data →
      (itemBytes behind item (36 + extendSize n.data) (FileIntegrity.pathLength n.data) = itemPath n.data ↔
        itemPath item = itemPath n.data)) :
    nodeMatches behind n item = true ↔ SameRef n.data item := by
  have hlen :
      itemPath item = itemPath n.data → FileIntegrity.pathLength item = FileIntegrity.pathLength n.data := by
    intro hpath
    rw [← length_itemPath hitem, hpath, length_itemPath hfit]
  have hnil : ∀ b : Bytes, FileIntegrity.pathLength b = 0 → itemPath b = [] := by
    intro b hb
    rw [itemPath, hb, List.take_zero]
  rw [nodeMatches, hnode, SameRef, eq_comm (a := itemHash n.data), eq_comm (a := itemPath n.data)]
  split_ifs with hzero
  · rw [Bool.and_eq_true_iff, decide_eq_true_iff, decide_eq_true_iff]
    constructor
    · rintro ⟨hp, hh⟩
      exact ⟨hh, (hnil _ hp).trans (hnil _ hzero).symm⟩
    · rintro ⟨hh, hp⟩
      exact ⟨(hlen hp).trans hzero, hh⟩
  · rw [Bool.and_eq_true_iff, Bool.and_eq_true_iff, decide_eq_true_iff, decide_eq_true_iff, decide_eq_true_iff]
    constructor
    · rintro ⟨⟨hp, hh⟩, hbytes⟩
      exact ⟨hh, (hagree hh hp).mp hbytes⟩
    · rintro ⟨hh, hp⟩
      exact ⟨⟨hlen hp, hh⟩, (hagree hh (hlen hp)).mpr hp⟩

/-- **The nodes to delete** are those of the listed references. -/
theorem mem_deletePrepare_iff {c : StoreCall} (hlaid : Laid cells f) (hagree : PathsAgree c (live cells))
    (hsplit : bufferToItemArray c.data c.data.length = .ok items) (hn : n ∈ nodesOf 0 cells) :
    n ∈ deletePrepare c.behind (nodesOf 0 cells) items ↔ ∃ r ∈ records c.data, SameRef n.data r := by
  have hrecords : records c.data = items.map record := by rw [records, hsplit]
  obtain ⟨d, hd, -, hnode, -⟩ := exists_cell hn
  obtain ⟨ds, hds, rfl⟩ := exists_laid hsplit le_rfl
  have hdata : n.data = record d := by rw [hnode]; rfl
  have hfit : recordSize n.data ≤ n.data.length := by
    rw [hdata, recordSize_record, length_record (hlaid.fits d hd)]
  have hpath : n.pathLength = FileIntegrity.pathLength n.data := by
    rw [hdata, (item_record (hlaid.fits d hd)).2.2.2, hnode]
    rfl
  have hlive : n.data ∈ live cells := by
    rw [← map_data_nodesOf 0]
    exact List.mem_map_of_mem hn
  have hmatch : ∀ item ∈ pointers ds, (nodeMatches c.behind n item = true ↔ SameRef n.data (record item)) := by
    intro item hitem
    have hfits := hds.fits_pointers hitem
    obtain ⟨hh, hp, -, -⟩ := item_record hfits
    rw [nodeMatches_iff hpath hfit hfits (hagree _ hsplit item hitem _ hlive), SameRef, SameRef, hh, hp]
  rw [mem_deletePrepare, and_iff_right hn, hrecords]
  constructor
  · rintro ⟨item, hitem, hm⟩
    exact ⟨record item, List.mem_map_of_mem hitem, (hmatch item hitem).mp hm⟩
  · rintro ⟨r, hr, hsame⟩
    obtain ⟨item, hitem, rfl⟩ := List.mem_map.mp hr
    exact ⟨item, hitem, (hmatch item hitem).mpr hsame⟩

/-- What stands at the place of a record after cells have been deleted. -/
theorem drop_wipe (hlaid : Laid cells f) (hlaid' : Laid (wipe beyond l pos cells) f') (h : item ∈ pointers cells) :
    ∃ c ∈ cells, ∃ r r' o, o = pos + (f.length - item.length) ∧ item = c ++ r ∧
      f'.drop (f.length - item.length) = (if o ∈ l then wipeCell beyond c else c) ++ r' ∧
      (itemHash c ≠ Digest.zero → addToHashTable c o ∈ nodesOf pos cells) ∧
      ∀ m ∈ nodesOf pos cells, m.offset = o → itemHash c ≠ Digest.zero := by
  induction cells generalizing pos f f' with
  | nil => exact absurd h List.not_mem_nil
  | cons c cells ih =>
      have h36 := recordSize_pos c
      have hle := le_align4 (recordSize c)
      have hfit := hlaid.fits c List.mem_cons_self
      obtain ⟨hsize, -, -⟩ := @head_wipe beyond c hfit (pos ∈ l) _
      have hflat : f = c ++ cells.flatten := hlaid.flatten.trans List.flatten_cons
      rcases List.mem_cons.mp h with rfl | hmem
      · rw [List.flatten_cons, ← hflat, Nat.sub_self]
        refine ⟨c, List.mem_cons_self, cells.flatten,
          (wipe beyond l (pos + align4 (recordSize c)) cells).flatten, pos,
          rfl, hflat, ?_, fun hne => ?_, fun m hm hoff => ?_⟩
        · rw [List.drop_zero, hlaid'.flatten, wipe, List.flatten_cons]
        · rw [nodesOf, if_neg hne]
          exact List.mem_cons_self
        · intro hzero
          rw [nodesOf, if_pos hzero] at hm
          have hlt := le_offset hm
          omega
      · obtain ⟨d, hd, -⟩ := mem_pointers hmem
        have hne : cells ≠ [] := List.ne_nil_of_mem hd
        rw [wipe] at hlaid'
        rcases laid_cons_iff.mp hlaid with ⟨g, rfl, hlen, hrest⟩ | ⟨hnil, -⟩
        swap
        · exact absurd hnil hne
        rcases laid_cons_iff.mp hlaid' with ⟨g', rfl, hlen', hrest'⟩ | ⟨hnil, -⟩
        swap
        · cases cells with
          | nil => exact absurd rfl hne
          | cons d cells => exact absurd hnil (List.cons_ne_nil _ _)
        have hshort : item.length ≤ g.length := by
          rw [hrest.flatten]
          exact length_le_of_mem_pointers hmem
        have hplace : (c ++ g).length - item.length = align4 (recordSize c) + (g.length - item.length) := by
          rw [List.length_append, hlen]
          omega
        obtain ⟨d, hd, r, r', o, ho, hitem, hdrop, hnode, hnodes⟩ := ih hrest hrest' hmem
        refine ⟨d, List.mem_cons_of_mem _ hd, r, r', o, ?_, hitem, ?_, fun hz => ?_, fun m hm hoff => ?_⟩
        · rw [hplace, ho, Nat.add_assoc]
        · rw [hplace, ← hsize, ← hlen', List.drop_length_add_append, hdrop]
        · rw [nodesOf]
          split_ifs
          · exact hnode hz
          · exact List.mem_cons_of_mem _ (hnode hz)
        · rw [nodesOf] at hm
          split_ifs at hm
          · exact hnodes m hm hoff
          · rcases List.mem_cons.mp hm with rfl | hm
            · have hpos : pos = o := hoff
              omega
            · exact hnodes m hm hoff

end Delete

section Deleted

variable {beyond : ℕ → UInt8} {f f' : Bytes} {items cells : List Bytes} {pos : ℕ} {l : List ℕ} {c : StoreCall}

/-- Only the padding of the last cell is added. -/
theorem length_wipe (hlaid : Laid cells f) (hlaid' : Laid (wipe beyond l pos cells) f') :
    f'.length ≤ align4 f.length := by
  induction cells generalizing pos f f' with
  | nil =>
      rw [hlaid'.flatten]
      exact Nat.zero_le _
  | cons c cells ih =>
      have hmod := align4_mod (recordSize c)
      have hfit := hlaid.fits c List.mem_cons_self
      rw [wipe] at hlaid'
      rcases laid_cons_iff.mp hlaid with ⟨g, rfl, hlen, hrest⟩ | ⟨rfl, rfl, -, hle⟩
      · rcases laid_cons_iff.mp hlaid' with ⟨g', rfl, hlen', hrest'⟩ | ⟨-, rfl, -, hle'⟩
        · rw [List.length_append, List.length_append, hlen', hlen, (head_wipe hfit _).1, align4_add hmod]
          exact Nat.add_le_add_left (ih hrest hrest') _
        · rw [(head_wipe hfit _).1] at hle'
          rw [List.length_append, hlen, align4_add hmod]
          omega
      · rw [align4_of_between hfit hle]
        rcases laid_cons_iff.mp hlaid' with ⟨g', rfl, hlen', hrest'⟩ | ⟨-, rfl, -, hle'⟩
        · rw [List.length_append, hlen', (head_wipe hfit _).1, hrest'.flatten]
          rfl
        · rwa [(head_wipe hfit _).1] at hle'

/-- **A delete whose writes are taken**: the list without the listed references, and nothing else in the file. -/
theorem delete_refines (hlaid : Laid cells f) (hagree : PathsAgree c (live cells))
    (hsplit : bufferToItemArray c.data c.data.length = .ok items)
    (hroom : ∀ n ∈ deletePrepare c.behind (nodesOf 0 cells) items, ∀ i, n.alignedSize - 4 ≤ c.room i) :
    ∃ f', writeSections c.room 0 f
        ((deletePrepare c.behind (nodesOf 0 cells) items).map (nodeSection c.beyond)) = (0, f') ∧
      (∃ cells', Laid cells' f' ∧
        live cells' = (live cells).filter fun r => ∀ l ∈ records c.data, ¬ SameRef r l) ∧
      f'.length ≤ align4 f.length ∧ DeletesOnly f f' (records c.data) := by
  have hfits := hlaid.fits
  have hfound : ∀ n ∈ deletePrepare c.behind (nodesOf 0 cells) items, n ∈ nodesOf 0 cells :=
    fun n hn => (mem_deletePrepare.mp hn).1
  have hsame : ∀ n ∈ nodesOf 0 cells, n ∈ deletePrepare c.behind (nodesOf 0 cells) items ↔
      ∃ r ∈ records c.data, SameRef n.data r := fun n hn => mem_deletePrepare_iff hlaid hagree hsplit hn
  generalize deletePrepare c.behind (nodesOf 0 cells) items = dellist at hfound hsame hroom
  have hstart : Laid (wipe c.beyond [] 0 cells) f := by
    rwa [wipe_nil]
  have hplaces : ∀ n ∈ dellist, (n.offset, n.alignedSize) ∈ places 0 cells := by
    intro n hn
    obtain ⟨-, -, -, -, hplace⟩ := exists_cell (hfound n hn)
    exact hplace
  obtain ⟨f', hrun, hlaid'⟩ := writeSections_spec hfits hstart hplaces hroom
  rw [List.append_nil] at hlaid'
  have hoff : ∀ n ∈ nodesOf 0 cells, n.offset ∈ (dellist.map Node.offset).reverse ↔ n ∈ dellist := by
    intro n hn
    rw [List.mem_reverse]
    constructor
    · intro h
      obtain ⟨m, hm, heq⟩ := List.mem_map.mp h
      rwa [eq_of_offset_eq hn (hfound m hm) heq.symm]
    · exact fun h => List.mem_map_of_mem h
  refine ⟨f', hrun, ⟨_, hlaid', ?_⟩, length_wipe hlaid hlaid', fun items' hitems' item hitem => ?_⟩
  · rw [← map_data_nodesOf 0, nodesOf_wipe hfits, ← map_data_nodesOf 0 cells, List.filter_map]
    refine congrArg _ (List.filter_congr fun n hn => ?_)
    rw [Function.comp_apply, decide_eq_decide, hoff n hn, hsame n hn]
    simp only [not_exists, not_and]
  · obtain rfl := Except.ok.inj (hlaid.split.symm.trans hitems')
    obtain ⟨d, hd, r, r', o, ho, rfl, hdrop, hnode, hnodes⟩ := drop_wipe hlaid hlaid' hitem
    have hfit := hfits d hd
    have h36 := recordSize_pos d
    obtain ⟨-, hrec, hhash, hpath, -⟩ := item_eq_append hfit r
    obtain ⟨hhash', hpath', -⟩ := item_record hfit
    rw [hdrop, hhash, hrec]
    have hlisted : itemHash d ≠ Digest.zero → (o ∈ (dellist.map Node.offset).reverse ↔
        ∃ l ∈ records c.data, SameRef (d ++ r) l) := by
      intro hne
      have hmem := hoff _ (hnode hne)
      rw [hsame _ (hnode hne)] at hmem
      refine hmem.trans (exists_congr fun l => and_congr_right fun _ => ?_)
      rw [SameRef, SameRef, hhash, hpath, show (addToHashTable d o).data = record d from rfl, hhash', hpath']
    split_ifs with h hin hin
    · rw [(item_append (by rw [wipeCell, recordSize_of_take (by omega), ← wipeCell, length_wipeCell (by omega)]; exact le_align4 _) r').1]
      exact itemHash_wipeCell (by omega)
    · exact absurd ((hlisted h.1).mpr h.2) hin
    · exfalso
      obtain ⟨m, hm, hmoff⟩ := List.mem_map.mp (List.mem_reverse.mp hin)
      have hne := hnodes m (hfound m hm) hmoff
      exact h ⟨hne, (hlisted hne).mp hin⟩
    · exact (item_eq_append hfit r').2.1

end Deleted

/-! ### Any calls -/

/-- The call gets past its checks: the update is cut into records, and the TPCM takes it. -/
def Begins (c : StoreCall) : Prop :=
  c.admission = 0 ∧ (hashPolicyData c.alloc c.data).1 = 0 ∧ c.tcsUpdate = 0

/-- Nothing fails any more once the file is written. -/
def Finishes (c : StoreCall) : Prop := c.fileDigest = 0 ∧ c.updateDigest = 0 ∧ c.updateVersion = 0

/-- **The condition on a call.**  What has begun to write goes on to success: a stream that is opened takes its
bytes, no listed digest is zero, the file stays below 100 MiB, and then nothing fails; a file that is there can be
opened; and a delete looks for the right paths and can open the file. -/
structure Orderly (s : State) (c : StoreCall) : Prop where
  builds : c.admission = 0 → c.action ≠ .set → Builds c.build s.file
  set : c.action = .set → Begins c → c.createPath = true →
    c.write.opens = false ∧ c.data.length ≠ 2 ^ 32 - 1 ∨
      Takes c.write c.data.length ∧ c.data.length ≤ maxFileSize ∧
        (∀ r ∈ records c.data, itemHash r ≠ Digest.zero) ∧ Finishes c
  fill : c.action = .add → Begins c → (buildIntegrityData c.build s.file).ret = 0 →
    4 ∣ (s.file.getD []).length ∨
      c.sizeOpens = true ∧ (c.fill.opens = false ∨ Takes c.fill (padding (s.file.getD [])).length)
  append : c.action = .add → Begins c → (buildIntegrityData c.build s.file).ret = 0 →
    c.append.opens = false ∨
      Takes c.append c.data.length ∧ align4 (s.file.getD []).length + c.data.length ≤ maxFileSize ∧
        (∀ r ∈ records c.data, itemHash r ≠ Digest.zero) ∧ Finishes c
  paths : c.action = .delete → Begins c → (buildIntegrityData c.build s.file).ret = 0 → PathsAgree c s.refs
  delete : c.action = .delete → Begins c → (buildIntegrityData c.build s.file).ret = 0 → c.sectionAlloc = true →
    (∃ r ∈ s.refs, ∃ l ∈ records c.data, SameRef r l) →
      c.updateOpens = true ∧ (∀ i, ∀ r ∈ s.refs, align4 (recordSize r) - 4 ≤ c.room i) ∧ Finishes c ∧
        c.tsbRemove = 0

/-- What a call leaves: an error and the list as it was, or the new list and success, or a list that the call
does not change. -/
def Follows (c : StoreCall) (s : State) (r : ℤ × Option Bytes) : Prop :=
  r.1 ≠ 0 ∧ Holds r.2 s.refs ∨
    (r.1 = 0 ∧ c.updateVersion = 0 ∨ applied c s.refs = s.refs) ∧ Holds r.2 (applied c s.refs) ∧
      (c.action = .delete → DeletesOnly (s.file.getD []) (r.2.getD []) (records c.data))

section Calls

variable {s : State} {c : StoreCall} {file : Option Bytes}

theorem Holds.congr {refs : List Bytes} (h : Holds s.file refs) (heq : file.getD [] = s.file.getD []) :
    Holds file refs := by
  constructor
  · rw [heq]
    exact h.cells
  · rw [heq]
    exact h.small

theorem Follows.failed {e : ℤ} (h : Holds s.file s.refs) (heq : file.getD [] = s.file.getD []) (he : e ≠ 0) :
    Follows c s (e, file) := Or.inl ⟨he, h.congr heq⟩

/-- A check that fails, or the rest of the function. -/
theorem Follows.guard {p : Prop} [Decidable p] {e : ℤ} {r : ℤ × Option Bytes} (h : Holds s.file s.refs)
    (heq : file.getD [] = s.file.getD []) (he : p → e ≠ 0) (hr : ¬ p → Follows c s r) :
    Follows c s (if p then (e, file) else r) := by
  by_cases hp : p
  · rw [if_pos hp]
    exact Follows.failed h heq (he hp)
  · rw [if_neg hp]
    exact hr hp

/-- The end of a call that has written. -/
theorem Follows.finished (hc : Finishes c) (h : Holds file (applied c s.refs))
    (hdel : c.action = .delete → DeletesOnly (s.file.getD []) (file.getD []) (records c.data)) :
    Follows c s (registerDigest c file 0) := by
  obtain ⟨hdigest, hupdate, hversion⟩ := hc
  rw [registerDigest, if_neg (not_not.mpr hdigest), if_neg (not_not.mpr hupdate)]
  exact Or.inr ⟨Or.inl ⟨rfl, hversion⟩, h, hdel⟩

theorem follows_set (ho : Orderly s c) (h : Holds s.file s.refs) (hact : c.action = .set)
    (hadm : c.admission = 0) :
    Follows c s (fileIntegritySet c s.file) := by
  rw [fileIntegritySet]
  refine Follows.guard h rfl id fun hhash => ?_
  refine Follows.guard h rfl id fun htcs => ?_
  refine Follows.guard h rfl (fun _ => show ¬ tcfErrDir = 0 by decide) fun hpath => ?_
  have hbegins : Begins c := ⟨hadm, not_not.mp hhash, not_not.mp htcs⟩
  rcases ho.set hact hbegins (Bool.eq_true_of_not_eq_false hpath) with ⟨hopens, hlen⟩ | ⟨htakes, hsmall, hnz, hfin⟩
  · have hwrite : httcUtilFileWrite c.write s.file c.data = (-1, s.file) := by
      rw [httcUtilFileWrite, hopens, if_pos Bool.false_ne_true]
    rw [hwrite]
    dsimp only
    rw [if_pos (by omega)]
    exact Follows.failed h rfl (show ¬ tcfErrFile = 0 by decide)
  · obtain ⟨cells, hlaid, -⟩ := exists_laid_of_hashPolicyData hbegins.2.1
    have hmod : (c.data.length : ℤ) % 2 ^ 32 = c.data.length := by
      have hmax : c.data.length ≤ 104857600 := hsmall
      omega
    rw [httcUtilFileWrite_eq htakes le_rfl]
    dsimp only
    rw [if_neg (not_not.mpr hmod)]
    refine Follows.finished hfin ⟨⟨cells, hlaid, ?_⟩, hsmall⟩ fun hdel => absurd (hact.symm.trans hdel) (by decide)
    rw [hash_record_eq hlaid hnz, applied, hact]

theorem httcUtilFileAppend_eq {io : Stream} {b : Bytes} (h : Takes io b.length) :
    httcUtilFileAppend io file b = ((b.length : ℤ), some (file.getD [] ++ b)) := by
  rw [httcUtilFileAppend, if_neg (not_not.mpr h.opens), kept_of_takes h le_rfl, List.take_of_length_le h.room]

/-- The file after the padding, or before it with an error. -/
theorem fill_spec (ho : 4 ∣ (s.file.getD []).length ∨
      c.sizeOpens = true ∧ (c.fill.opens = false ∨ Takes c.fill (padding (s.file.getD [])).length))
    (heq : file.getD [] = s.file.getD []) {fsize : ℕ} (hsize : (httcUtilFileSize c.sizeOpens file).getD 0 = fsize)
    {w : ℤ × Option Bytes}
    (hw : (if align4 fsize > fsize then httcUtilFileAppend c.fill file (List.replicate (align4 fsize - fsize) 0)
      else (0, file)) = w) :
    w.1 ≠ (List.replicate (align4 fsize - fsize) (0 : UInt8)).length ∧ w.2.getD [] = s.file.getD [] ∨
      w.1 = (List.replicate (align4 fsize - fsize) (0 : UInt8)).length ∧
        w.2.getD [] = s.file.getD [] ++ padding (s.file.getD []) := by
  have hle := le_align4 fsize
  have hopen : c.sizeOpens = true → fsize = (s.file.getD []).length := by
    intro hs
    rw [← heq, ← hsize]
    cases file with
    | none => rfl
    | some g =>
        rw [httcUtilFileSize, if_pos hs]
        rfl
  have haligned : align4 fsize = fsize → fsize % 4 = 0 := fun h => h ▸ align4_mod fsize
  by_cases hdvd : 4 ∣ (s.file.getD []).length
  · have hzero : align4 fsize = fsize := by
      by_cases hs : c.sizeOpens = true
      · rw [hopen hs, align4, if_pos (Nat.mod_eq_zero_of_dvd hdvd)]
      · have hnone : fsize = 0 := by
          rw [← hsize]
          cases file with
          | none => rfl
          | some g =>
              rw [httcUtilFileSize, if_neg hs]
              rfl
        rw [hnone]
        rfl
    have hpad : padding (s.file.getD []) = [] := by
      rw [padding, align4, if_pos (Nat.mod_eq_zero_of_dvd hdvd), Nat.sub_self]
      rfl
    rw [if_neg (by omega)] at hw
    refine Or.inr ⟨?_, ?_⟩
    · rw [← hw, hzero, Nat.sub_self]
      rfl
    · rw [← hw, hpad, List.append_nil, heq]
  · obtain ⟨hs, hfill⟩ := ho.resolve_left hdvd
    have hlen := hopen hs
    have hgt : align4 fsize > fsize := by
      refine lt_of_le_of_ne hle fun h => hdvd ?_
      rw [← hlen]
      exact Nat.dvd_of_mod_eq_zero (haligned h.symm)
    rw [if_pos hgt] at hw
    rcases hfill with hclosed | htakes
    · rw [httcUtilFileAppend, hclosed, if_pos Bool.false_ne_true] at hw
      refine Or.inl ⟨?_, ?_⟩
      · rw [← hw, List.length_replicate]
        show (0 : ℤ) ≠ _
        omega
      · rw [← hw, heq]
    · have hpad : List.replicate (align4 fsize - fsize) 0 = padding (s.file.getD []) := by rw [padding, hlen]
      rw [hpad, httcUtilFileAppend_eq htakes, heq] at hw
      rw [hpad, ← hw]
      exact Or.inr ⟨rfl, rfl⟩

/-- Where the call has nothing to do, it may fail or not. -/
theorem Follows.unchanged {e : ℤ} (h : Holds file s.refs) (happ : applied c s.refs = s.refs)
    (hdel : c.action = .delete → DeletesOnly (s.file.getD []) (file.getD []) (records c.data)) :
    Follows c s (e, file) := by
  refine Or.inr ⟨Or.inr happ, ?_, hdel⟩
  rwa [happ]

theorem registerDigest_eq (c : StoreCall) (file : Option Bytes) (ret : ℤ) :
    ∃ e, registerDigest c file ret = (e, file) := by
  rw [registerDigest]
  split_ifs
  · exact ⟨_, rfl⟩
  · exact ⟨_, rfl⟩
  · exact ⟨_, rfl⟩

theorem follows_append (ho : Orderly s c) (h : Holds s.file s.refs) (hact : c.action = .add) (hbegins : Begins c)
    (hbuild : (buildIntegrityData c.build s.file).ret = 0) (heq : file.getD [] = s.file.getD []) :
    Follows c s (appendData c file) := by
  obtain ⟨cells, hlaid, hlive⟩ := h.cells
  obtain ⟨cells', hlaid', hlive'⟩ := hlaid.pad
  have hsmall : (s.file.getD []).length ≤ 104857600 := h.small
  have hpadded : align4 (s.file.getD []).length ≤ 104857600 := by
    rw [align4]
    split_ifs <;> omega
  have hno : c.action = .delete → ∀ P : Prop, P := fun hdel => absurd (hact.symm.trans hdel) (by decide)
  rw [appendData]
  dsimp only
  generalize hsize : (httcUtilFileSize c.sizeOpens file).getD 0 = fsize
  generalize hw : (if align4 fsize > fsize then _ else _ : ℤ × Option Bytes) = w
  rcases fill_spec (ho.fill hact hbegins hbuild) heq hsize hw with ⟨hfail, hsame⟩ | ⟨hdone, hfile⟩
  · rw [if_pos hfail]
    exact Follows.failed h hsame (show ¬ tcfErrFile = 0 by decide)
  rw [if_neg (not_not.mpr hdone)]
  have hheld : Holds w.2 s.refs := by
    constructor
    · rw [hfile]
      exact ⟨cells', hlaid', hlive'.trans hlive⟩
    · rw [hfile, length_padding]
      exact hpadded
  rcases ho.append hact hbegins hbuild with hclosed | ⟨htakes, htotal, hnz, hfin⟩
  · rw [httcUtilFileAppend, hclosed, if_pos Bool.false_ne_true]
    by_cases hnil : c.data.length = 0
    · rw [hnil, if_neg (show ¬ (0 : ℤ) % 2 ^ 32 ≠ (0 : ℕ) by decide)]
      obtain ⟨e, he⟩ := registerDigest_eq c w.2 0
      have hdata : records c.data = [] := by rw [List.length_eq_zero_iff.mp hnil]; rfl
      rw [he]
      refine Follows.unchanged hheld ?_ fun hdel => hno hdel _
      rw [applied, hact, hdata]
      exact List.append_nil _
    · rw [if_pos (by show (0 : ℤ) % 2 ^ 32 ≠ _; omega)]
      exact Or.inl ⟨show ¬ tcfErrFile = 0 by decide, hheld⟩
  · obtain ⟨ds, hds, -⟩ := exists_laid_of_hashPolicyData hbegins.2.1
    have htotal' : align4 (s.file.getD []).length + c.data.length ≤ 104857600 := htotal
    have hmod : (c.data.length : ℤ) % 2 ^ 32 = c.data.length := by omega
    have hdvd : 4 ∣ (s.file.getD [] ++ padding (s.file.getD [])).length := by
      rw [length_padding]
      exact Nat.dvd_of_mod_eq_zero (align4_mod _)
    rw [httcUtilFileAppend_eq htakes, if_neg (not_not.mpr hmod), hfile]
    refine Follows.finished hfin ⟨⟨cells' ++ ds, hlaid'.append hdvd hds, ?_⟩, ?_⟩ fun hdel => hno hdel _
    · rw [live_append, hlive', hlive, hash_record_eq hds hnz, applied, hact]
    · rw [Option.getD_some, List.length_append, length_padding]
      exact htotal

theorem follows_delete {items cells : List Bytes} (ho : Orderly s c) (h : Holds s.file s.refs)
    (hact : c.action = .delete) (hbegins : Begins c) (hbuild : (buildIntegrityData c.build s.file).ret = 0)
    (heq : file.getD [] = s.file.getD []) (hsplit : bufferToItemArray c.data c.data.length = .ok items)
    (hlaid : Laid cells (s.file.getD [])) (hlive : live cells = s.refs) :
    Follows c s (deleteData c (deletePrepare c.behind (nodesOf 0 cells) items) file) := by
  have hagree : PathsAgree c (live cells) := hlive ▸ ho.paths hact hbegins hbuild
  have hfilter : applied c s.refs = (live cells).filter fun r => ∀ l ∈ records c.data, ¬ SameRef r l := by
    rw [applied, hact, hlive]
  have hrefines := delete_refines hlaid hagree hsplit
  have hfound := fun n => mem_deletePrepare_iff (n := n) hlaid hagree hsplit
  have hnode := fun n (hn : n ∈ deletePrepare c.behind (nodesOf 0 cells) items) => (mem_deletePrepare.mp hn).1
  generalize deletePrepare c.behind (nodesOf 0 cells) items = dellist at hrefines hfound hnode ⊢
  rw [deleteData]
  by_cases hnil : dellist = []
  · subst hnil
    rw [if_pos rfl]
    obtain ⟨f', hrun, ⟨cells', hlaid', hlive'⟩, -, honly⟩ := hrefines fun n hn => absurd hn List.not_mem_nil
    obtain rfl : s.file.getD [] = f' := (Prod.mk.inj hrun).2
    obtain ⟨e, he⟩ := registerDigest_eq c file c.tsbRemove
    rw [he]
    refine Follows.unchanged (h.congr heq) ?_ fun _ => heq ▸ honly
    rw [hfilter, ← hlive]
    refine List.filter_eq_self.mpr fun r hr => decide_eq_true fun l hl hsame => ?_
    rw [← map_data_nodesOf 0] at hr
    obtain ⟨n, hn, rfl⟩ := List.mem_map.mp hr
    exact List.not_mem_nil ((hfound n hn).mpr ⟨l, hl, hsame⟩)
  rw [if_neg hnil]
  refine Follows.guard h heq (fun _ => show ¬ tcfErrNomem = 0 by decide) fun halloc => ?_
  obtain ⟨n, hn⟩ := List.exists_mem_of_ne_nil _ hnil
  have hdata : ∀ m ∈ dellist, m.data ∈ s.refs := by
    intro m hm
    rw [← hlive, ← map_data_nodesOf 0]
    exact List.mem_map_of_mem (hnode m hm)
  obtain ⟨hopens, hroom, hfin, htsb⟩ := ho.delete hact hbegins hbuild (Bool.eq_true_of_not_eq_false halloc)
    ⟨n.data, hdata n hn, (hfound n (hnode n hn)).mp hn⟩
  obtain ⟨f', hrun, ⟨cells', hlaid', hlive'⟩, hlen, honly⟩ := hrefines fun m hm i => by
    obtain ⟨d, -, -, hm', -⟩ := exists_cell (hnode m hm)
    have hsize := hroom i _ (hdata m hm)
    rw [hm'] at hsize ⊢
    rwa [show (addToHashTable d m.offset).data = record d from rfl, recordSize_record] at hsize
  cases file with
  | none =>
      have hempty : s.file.getD [] = [] := heq.symm
      rw [hempty] at hlaid
      obtain rfl := hlaid.eq_nil
      exact absurd (hnode n hn) List.not_mem_nil
  | some f =>
      obtain rfl : f = s.file.getD [] := heq
      rw [httcUtilFileWriteOffsetArray, hopens]
      dsimp only
      rw [if_neg (not_not.mpr rfl), hrun]
      dsimp only
      rw [if_neg (not_not.mpr rfl), htsb]
      have hsmall : (s.file.getD []).length ≤ 104857600 := h.small
      refine Follows.finished hfin ⟨⟨cells', hlaid', hlive'.trans hfilter.symm⟩, ?_⟩ fun _ => honly
      refine hlen.trans ?_
      show align4 (s.file.getD []).length ≤ 104857600
      rw [align4]
      split_ifs <;> omega

theorem follows_operation (ho : Orderly s c) (h : Holds s.file s.refs) (hadm : c.admission = 0) :
    Follows c s (storeOperation c s.file) := by
  obtain ⟨cells, hlaid, hlive⟩ := h.cells
  rw [storeOperation]
  cases hact : c.action with
  | set => exact follows_set ho h hact hadm
  | add =>
      obtain ⟨hsame, -⟩ := build_spec (ho.builds hadm (by rw [hact]; decide)) hlaid
      show Follows c s (fileIntegrityAdd c s.file)
      rw [fileIntegrityAdd]
      refine Follows.guard h hsame id fun hbuild => ?_
      refine Follows.guard h hsame id fun hhash => ?_
      refine Follows.guard h hsame id fun htcs => ?_
      exact follows_append ho h hact ⟨hadm, not_not.mp hhash, not_not.mp htcs⟩ (not_not.mp hbuild) hsame
  | delete =>
      obtain ⟨hsame, hnodes⟩ := build_spec (ho.builds hadm (by rw [hact]; decide)) hlaid
      show Follows c s (fileIntegrityDel c s.file)
      rw [fileIntegrityDel]
      refine Follows.guard h hsame id fun hbuild => ?_
      cases hsplit : bufferToItemArray c.data c.data.length with
      | error e => exact Follows.failed h hsame (show ¬ (-1 : ℤ) = 0 by decide)
      | ok items =>
          refine Follows.guard h hsame (fun _ => show ¬ (-1 : ℤ) = 0 by decide) fun halloc => ?_
          refine Follows.guard h hsame id fun htcs => ?_
          rw [hnodes (not_not.mp hbuild)]
          have hhash : (hashPolicyData c.alloc c.data).1 = 0 := by
            rw [hashPolicyData, hsplit]
            dsimp only
            rw [if_neg halloc]
          exact follows_delete ho h hact ⟨hadm, hhash,
            not_not.mp htcs⟩ (not_not.mp hbuild) hsame hsplit hlaid hlive

/-- **A call** under the condition. -/
theorem follows_update (ho : Orderly s c) (h : Holds s.file s.refs) :
    Holds (updateFileIntegrity c s.file).2
        (if (updateFileIntegrity c s.file).1 = 0 then applied c s.refs else s.refs) ∧
      ((updateFileIntegrity c s.file).1 = 0 → c.action = .delete →
        DeletesOnly (s.file.getD []) ((updateFileIntegrity c s.file).2.getD []) (records c.data)) := by
  rw [updateFileIntegrity]
  by_cases hadm : c.admission ≠ 0
  · rw [if_pos hadm]
    dsimp only
    rw [if_neg hadm]
    exact ⟨h, fun hret => absurd hret hadm⟩
  rw [if_neg hadm]
  have hop := follows_operation ho h (not_not.mp hadm)
  dsimp only
  generalize storeOperation c s.file = r at hop ⊢
  rcases hop with ⟨hfail, hheld⟩ | ⟨hdone, hheld, honly⟩
  · rw [if_neg hfail, if_neg hfail]
    exact ⟨hheld, fun hret => absurd hret hfail⟩
  by_cases hret : r.1 = 0
  · rw [if_pos hret]
    refine ⟨?_, fun _ => honly⟩
    dsimp only
    rcases hdone with ⟨-, hversion⟩ | hsame
    · rwa [if_pos hversion]
    · rwa [hsame, ite_self, ← hsame]
  · rw [if_neg hret, if_neg hret]
    rcases hdone with ⟨hzero, -⟩ | hsame
    · exact absurd hzero hret
    · rw [hsame] at hheld
      exact ⟨hheld, fun hzero => absurd hzero hret⟩

end Calls

theorem holds_init : Holds State.init.file State.init.refs := ⟨⟨[], Laid.nil, rfl⟩, Nat.zero_le _⟩

/-- A reference with a digest and the path `/`, with `n` bytes of extended data. -/
def rootRef (n : ℕ) : Bytes :=
  [1, UInt8.ofNat n, 0, 1] ++ List.replicate 32 7 ++ List.replicate n 9 ++ [47]

/-- A call where nothing fails, but perhaps the opening of the file for a delete. -/
def sampleCall (action : StoreAction) (data : Bytes) (updateOpens : Bool) : StoreCall where
  action := action
  data := data
  behind := fun _ => 0
  admission := 0
  build := ⟨true, false, (0, []), true, ⟨true, 100, 0⟩, ⟨true, true, true⟩, true⟩
  alloc := true
  tcsUpdate := 0
  createPath := true
  write := ⟨true, 100, 0⟩
  sizeOpens := true
  fill := ⟨true, 100, 0⟩
  append := ⟨true, 100, 0⟩
  sectionAlloc := true
  updateOpens := updateOpens
  room := fun _ => 100
  beyond := fun _ => 0
  fileDigest := 0
  updateDigest := 0
  tsbRemove := 0
  updateVersion := 0

theorem orderly_set : Orderly State.init (sampleCall .set (rootRef 0) true) where
  builds _ h := absurd rfl h
  set _ _ _ := by
    have hlen : (rootRef 0).length = 37 := by decide +kernel
    refine Or.inr ⟨⟨rfl, hlen.trans_le (show 37 ≤ 100 by decide), rfl⟩, ?_, by decide +kernel, rfl, rfl, rfl⟩
    exact hlen.trans_le (show 37 ≤ 104857600 by decide)
  fill h := absurd h (by decide)
  append h := absurd h (by decide)
  paths h := absurd h (by decide)
  delete h := absurd h (by decide)

/-- The file and the list after the first reference has been set. -/
def State.root : State := ⟨some (rootRef 0), [rootRef 0]⟩

theorem step_root : storeStep State.init (sampleCall .set (rootRef 0) true) = some State.root := by
  have hfile : updateFileIntegrity (sampleCall .set (rootRef 0) true) none = (0, some (rootRef 0)) := by
    decide +kernel
  have happlied : applied (sampleCall .set (rootRef 0) true) [] = [rootRef 0] := by decide +kernel
  rw [storeStep, State.init, hfile, if_pos rfl, happlied, State.root]

theorem orderly_delete : Orderly State.root (sampleCall .delete (rootRef 0) true) where
  builds _ _ := ⟨fun _ => rfl, fun h => absurd h (Option.some_ne_none _)⟩
  set h := absurd h (by decide)
  fill h := absurd h (by decide)
  append h := absurd h (by decide)
  paths _ _ _ := by
    intro items hitems item hitem r hr _ _
    have hone : bufferToItemArray (rootRef 0) (rootRef 0).length = .ok [rootRef 0] := by decide +kernel
    obtain rfl := Except.ok.inj (hone.symm.trans hitems)
    obtain rfl := List.mem_singleton.mp hitem
    obtain rfl := List.mem_singleton.mp hr
    decide +kernel
  delete _ _ _ _ _ := by
    refine ⟨rfl, fun i r hr => ?_, ⟨rfl, rfl, rfl⟩, rfl⟩
    obtain rfl := List.mem_singleton.mp hr
    show align4 (recordSize (rootRef 0)) - 4 ≤ 100
    decide +kernel

end Store
end FileIntegrity
end TsbAgent
