/-
# Reading the references page by page

`tcf_get_file_integrity` builds the table and copies the nodes from `from` on, at most `*inout_num` of them.  The
array has `min(*inout_num, valid - from)` entries, while `file_integrity_iterator` is given the number that the
caller has asked for and stops behind the index `from + number`, an `int`:

| `from + number` | the loop |
| --- | --- |
| not above `valid` | stops there |
| above `valid` | stops at the end of the list |
| beyond the range of an `int` | the index is never met, and the loop stops at the end of the list |

so that the pages are those of the list (`iterator_eq`).  The copy of a record begins behind its header and is as
long as the whole record: of every node four bytes behind its end are read (`tcfGetFileIntegrity_iff`).
-/

import TsbAgent.FileIntegrity.NodeRuns
import TsbAgent.Lib.Word

namespace TsbAgent
namespace FileIntegrity
namespace Nodes

open Libc Store Httcutils Word

/-! ### The loop -/

section Iterator

variable {σ : Type}

/-- The loop of `file_integrity_iterator`, where `func` is called for the nodes from the index `frm` on. -/
def iteratorLoop (t : IntegrityData) (frm fin : ℤ) (func : FileNode → σ → ℤ × σ) :
    List ℕ → ℤ → σ → Except Fault (ℤ × σ)
  | [], _, ctx => .ok (0, ctx)
  | a :: l, index, ctx => do
      let n ← readNode t a
      if index < frm then iteratorLoop t frm fin func l (index + 1) ctx
      else
        let r := func n ctx
        if r.1 ≠ 0 then .ok r
        else if index + 1 = fin then .ok (0, r.2)
        else iteratorLoop t frm fin func l (index + 1) r.2

/-- `file_integrity_iterator`. -/
def fileIntegrityIterator (t : IntegrityData) (frm number : ℤ) (func : FileNode → σ → ℤ × σ) (ctx : σ) :
    Except Fault (ℤ × σ) :=
  iteratorLoop t frm (int32 (frm + number)) func t.list 0 ctx

/-- The calls of `func` for some nodes, up to one that fails. -/
def visit (t : IntegrityData) (func : FileNode → σ → ℤ × σ) : List ℕ → σ → Except Fault (ℤ × σ)
  | [], ctx => .ok (0, ctx)
  | a :: l, ctx => do
      let n ← readNode t a
      let r := func n ctx
      if r.1 ≠ 0 then .ok r else visit t func l r.2

end Iterator

/-! ### The call -/

/-- The allocations of `tcf_get_file_integrity`: the array, and the buffer of each entry. -/
structure GetGrants where
  items : Bool
  hash : ℕ → Bool

/-- `struct parse_context`, and what has been touched: entries of the array, bytes of records and of buffers. -/
structure PageRead where
  items : List ParsedItem
  accesses : List Access

/-- `node->item`. -/
def itemInfo (n : FileNode) : ItemInfo := ⟨n.item.size, n.item.alignedSize, n.item.pathLength, n.item.data⟩

/-- `file_integrity_parser` for an array of `maxNum` entries; `after` is the memory behind the nodes. -/
def parseNode (g : GetGrants) (maxNum : ℕ) (after : ℕ → ℕ → UInt8) (n : FileNode) (p : PageRead) : ℤ × PageRead :=
  let i := p.items.length
  if g.hash i = false then (tcfErrNomem, ⟨p.items, p.accesses ++ [⟨i, 1, maxNum⟩]⟩)
  else
    (0, ⟨p.items ++ [fileIntegrityParser ((List.range 4).map (after i)) (itemInfo n)],
      p.accesses ++ [⟨i, 1, maxNum⟩, ⟨4, n.item.size, n.item.size⟩, ⟨0, n.item.size, n.item.alignedSize⟩]⟩)

/-- What `tcf_get_file_integrity` returns: `*references` and `*inout_num`. -/
structure Page where
  ret : ℤ
  items : List ParsedItem
  num : ℕ
  accesses : List Access

/-- The end of `tcf_get_file_integrity`: entries that have been filled in are freed where one fails. -/
def page (num : ℕ) (r : ℤ × PageRead) : Page :=
  if r.1 ≠ 0 then ⟨r.1, [], num, r.2.accesses⟩ else ⟨0, r.2.items, r.2.items.length, r.2.accesses⟩

/-- `tcf_get_file_integrity` behind `build_integrity_data`. -/
def readPage (g : GetGrants) (after : ℕ → ℕ → UInt8) (frm num : ℕ) (t : IntegrityData) : Except Fault Page :=
  if t.valid < frm then .ok ⟨0, [], 0, []⟩
  else
    let maxNum := if num > t.valid - frm then t.valid - frm else num
    if maxNum = 0 then .ok ⟨0, [], 0, []⟩
    else if g.items = false then .ok ⟨tcfErrNomem, [], num, []⟩
    else do
      let r ← fileIntegrityIterator t (int32 frm) (int32 num) (parseNode g maxNum after) ⟨[], []⟩
      .ok (page num r)

/-- `tcf_get_file_integrity`. -/
def tcfGetFileIntegrity (semGet : ℤ) (b : BuildCall) (g : GetGrants) (after : ℕ → ℕ → UInt8) (frm num : UInt32)
    (s : TableState) : Except Fault (Page × TableState) :=
  if semGet ≠ 0 then .ok (⟨semGet, [], num.toNat, []⟩, s)
  else do
    let b ← buildIntegrityData b s
    if b.1 ≠ 0 then .ok (⟨b.1, [], num.toNat, []⟩, b.2)
    else
      let p ← readPage g after frm.toNat num.toNat b.2.table
      .ok (p, b.2)

/-! ### What a page should be -/

/-- The entry shows the reference. -/
structure ShowsRef (y : ParsedItem) (r : Bytes) : Prop where
  isEnable : y.isEnable = if itemFlags r &&& 1 ≠ 0 then 1 else 0
  isControl : y.isControl = if itemFlags r &&& 2 ≠ 0 then 1 else 0
  isFullPath : y.isFullPath = if itemFlags r &&& 4 ≠ 0 then 1 else 0
  hash : y.hash.take y.hashLength = (itemHash r).1
  extendSize : y.extendSize = FileIntegrity.extendSize r
  extendBuffer : bytesAt y.extendBuffer y.extendSize = ((itemData r).drop lenHash).take (FileIntegrity.extendSize r)
  pathLength : y.pathLength = FileIntegrity.pathLength r
  path : bytesAt y.path y.pathLength = itemPath r

/-- `build_integrity_data` can read the file and has its memory. -/
structure BuildCall.Granted (b : BuildCall) : Prop where
  sizeOpens : b.io.sizeOpens = true
  read : b.io.read.Granted
  items : b.grants.items = true
  node : ∀ i, b.grants.node i = true

/-- The file can be read and cut into cells. -/
structure Parses (f : Bytes) (cells : List Bytes) : Prop where
  laid : Laid cells f
  small : f.length ≤ maxFileSize

/-- **A page is the part of the list** that was asked for, copied without leaving the array or a record. -/
def GetsPage (f : Bytes) (refs : List Bytes) (frm num : UInt32) : Prop :=
  ∀ (s : TableState) (b : BuildCall) (g : GetGrants) (after : ℕ → ℕ → UInt8),
    Agree s.table → s.file = some f → b.Granted →
      ∃ p s', tcfGetFileIntegrity 0 b g after frm num s = .ok (p, s') ∧ Safe p.accesses ∧
        (g.items = true → (∀ i, g.hash i = true) → p.ret = 0) ∧
        (p.ret = 0 → p.num = min num.toNat (refs.length - frm.toNat) ∧
          List.Forall₂ ShowsRef p.items ((refs.drop frm.toNat).take num.toNat))

/-! ### The positions that the loop visits -/

section Positions

variable {σ : Type} {t : IntegrityData} {frm fin index : ℤ} {func : FileNode → σ → ℤ × σ} {l : List ℕ} {ctx : σ}

/-- The nodes before `from` are passed. -/
theorem iteratorLoop_skip {k : ℕ} (halive : ∀ a ∈ l, ∃ n, t.heap.read a = some n) (hk : index + k = frm) :
    iteratorLoop t frm fin func l index ctx = iteratorLoop t frm fin func (l.drop k) frm ctx := by
  induction k generalizing l index with
  | zero => rw [List.drop_zero, show index = frm by omega]
  | succ k ih =>
      cases l with
      | nil => rfl
      | cons a l =>
          obtain ⟨⟨n, hn⟩, halive⟩ := List.forall_mem_cons.mp halive
          rw [iteratorLoop, readNode_eq hn, List.drop_succ_cons]
          show ite _ _ _ = _
          rw [if_pos (by omega)]
          exact ih halive (by omega)

/-- From `from` on the loop stops at the index `fin`, or at the end where that is never met. -/
theorem iteratorLoop_eq_visit {m : ℕ} (hfrm : frm ≤ index)
    (hstop : fin = index + m ∧ 1 ≤ m ∨ fin ≤ index ∧ l.length ≤ m) :
    iteratorLoop t frm fin func l index ctx = visit t func (l.take m) ctx := by
  induction l generalizing index m ctx with
  | nil =>
      rw [List.take_nil]
      rfl
  | cons a l ih =>
      rw [List.length_cons] at hstop
      obtain ⟨m, rfl⟩ : ∃ k, m = k + 1 := ⟨m - 1, by omega⟩
      rw [List.take_succ_cons, iteratorLoop, visit]
      cases readNode t a with
      | error e => rfl
      | ok n =>
          show ite _ _ _ = ite _ _ _
          rw [if_neg (by omega)]
          refine if_congr Iff.rfl rfl ?_
          split_ifs with hend
          · obtain rfl : m = 0 := by omega
            rfl
          · exact ih (by omega) (by omega)

end Positions

theorem int32_wrap {z : ℤ} (h₀ : 2 ^ 31 ≤ z) (h₁ : z < 2 ^ 32) : int32 z = z - 2 ^ 32 := by
  have hmod : z % (2 ^ 32 : ℕ) = z := Int.emod_eq_of_lt (by omega) (by omega)
  rw [int32, Int.bmod, hmod, if_neg (by omega)]
  rfl

theorem int32_of_range {z : ℤ} (h₀ : -2 ^ 31 ≤ z) (h₁ : z < 2 ^ 31) : int32 z = z := by
  rw [int32, Int.bmod_eq_of_le (by omega) (by omega)]

/-- **The loop visits the positions that were asked for**, also where the last index leaves the range of an
`int`. -/
theorem iterator_eq {σ : Type} {t : IntegrityData} {func : FileNode → σ → ℤ × σ} {ctx : σ} {frm num : ℕ}
    (halive : ∀ a ∈ t.list, ∃ n, t.heap.read a = some n) (hsmall : t.list.length < 2 ^ 31)
    (hfrm : frm ≤ t.list.length) (hnum : 1 ≤ num) (hword : num < 2 ^ 32) :
    fileIntegrityIterator t (int32 frm) (int32 num) func ctx = visit t func ((t.list.drop frm).take num) ctx := by
  have hlen : (t.list.drop frm).length = t.list.length - frm := List.length_drop
  rw [fileIntegrityIterator, int32_of_range (z := frm) (by omega) (by omega),
    iteratorLoop_skip (k := frm) halive (by omega)]
  refine iteratorLoop_eq_visit le_rfl ?_
  rcases Nat.lt_or_ge num (2 ^ 31) with hlt | hge
  · rw [int32_of_range (z := num) (by omega) (by omega)]
    rcases Nat.lt_or_ge (frm + num) (2 ^ 31) with hsum | hsum
    · rw [int32_of_range (by omega) (by omega)]
      omega
    · rw [int32_wrap (by omega) (by omega)]
      omega
  · rw [int32_wrap (z := num) (by omega) (by omega), int32_of_range (by omega) (by omega)]
    omega

/-! ### The entries -/

section Entries

variable {t : IntegrityData} {g : GetGrants} {maxNum : ℕ} {after : ℕ → ℕ → UInt8} {n : FileNode} {l : List ℕ}
  {p : PageRead}

/-- **The entry of a node** shows its reference, whatever lies behind the node. -/
theorem showsRef_itemInfo (hn : Made n) (behind : Bytes) :
    ShowsRef (fileIntegrityParser behind (itemInfo n)) n.item.data := by
  have hlen := hn.length
  have h32 : lenHash = 32 := rfl
  have hdata : (itemData n.item.data).length = n.item.data.length - 4 := List.length_drop
  rw [recordSize] at hlen
  refine ⟨rfl, rfl, rfl, ?_, rfl, ?_, hn.pathLength, ?_⟩
  · show (itemData n.item.data ++ behind ++ _).take lenHash = (itemData n.item.data).takeD lenHash 0
    rw [List.append_assoc, List.take_append_of_le_length (by omega), List.takeD_eq_take _ (by omega)]
  · show bytesAt (if FileIntegrity.extendSize n.item.data ≠ 0 then _ else none) _ = _
    rw [bytesAt]
    split_ifs with hext
    · show ((itemData n.item.data ++ behind ++ _).drop lenHash).take (FileIntegrity.extendSize n.item.data) = _
      rw [List.append_assoc, List.drop_append_of_le_length (by omega),
        List.take_append_of_le_length (by rw [List.length_drop]; omega)]
    · rw [show (fileIntegrityParser behind (itemInfo n)).extendSize = 0 from not_not.mp hext, not_not.mp hext]
      rfl
  · show bytesAt (if n.item.pathLength ≠ 0 then _ else none) n.item.pathLength = _
    rw [bytesAt, hn.pathLength, itemPath]
    split_ifs with hpath
    · rw [Option.getD_some, List.append_assoc]
      show ((itemData n.item.data ++ _).drop (lenHash + FileIntegrity.extendSize n.item.data)).take _ = _
      rw [List.drop_append_of_le_length (by omega),
        List.take_append_of_le_length (by rw [List.length_drop]; omega)]
    · rw [not_not.mp hpath, List.take_zero, List.take_zero]

/-- The copy of a record: it starts behind the header and is as long as the record. -/
def copyOf (n : FileNode) : Access := ⟨4, n.item.size, n.item.size⟩

/-- What the entries of the nodes of `l` add to those that are there. -/
structure Filled (t : IntegrityData) (g : GetGrants) (l : List ℕ) (p : PageRead) (r : ℤ × PageRead) : Prop where
  granted : (∀ i, g.hash i = true) → r.1 = 0
  touched : ∀ x ∈ r.2.accesses, x ∈ p.accesses ∨ x.InBounds ∨ ∃ a ∈ l, ∃ n, t.heap.read a = some n ∧ x = copyOf n
  items : r.1 = 0 → ∃ ys, r.2.items = p.items ++ ys ∧
    List.Forall₂ (fun y a => ∃ n, t.heap.read a = some n ∧ ShowsRef y n.item.data) ys l
  kept : ∀ x ∈ p.accesses, x ∈ r.2.accesses
  copies : r.1 = 0 → ∀ a ∈ l, ∀ n, t.heap.read a = some n → copyOf n ∈ r.2.accesses

theorem Filled.nil : Filled t g [] p (0, p) where
  granted _ := rfl
  touched _ hx := Or.inl hx
  items _ := ⟨[], (List.append_nil _).symm, List.Forall₂.nil⟩
  kept _ hx := hx
  copies _ := List.forall_mem_nil _

/-- One entry, and what follows. -/
theorem Filled.cons {y : ParsedItem} {a : ℕ} {entry buffer : Access} {r : ℤ × PageRead}
    (hn : t.heap.read a = some n) (hy : ShowsRef y n.item.data) (hentry : entry.InBounds) (hbuffer : buffer.InBounds)
    (h : Filled t g l ⟨p.items ++ [y], p.accesses ++ [entry, copyOf n, buffer]⟩ r) : Filled t g (a :: l) p r where
  granted := h.granted
  touched x hx := by
    rcases h.touched x hx with hx | hx | ⟨b, hb, hx⟩
    · rcases List.mem_append.mp hx with hx | hx
      · exact Or.inl hx
      · simp only [List.mem_cons, List.not_mem_nil, or_false] at hx
        rcases hx with rfl | rfl | rfl
        · exact Or.inr (Or.inl hentry)
        · exact Or.inr (Or.inr ⟨a, List.mem_cons_self, n, hn, rfl⟩)
        · exact Or.inr (Or.inl hbuffer)
    · exact Or.inr (Or.inl hx)
    · exact Or.inr (Or.inr ⟨b, List.mem_cons_of_mem _ hb, hx⟩)
  items hr := by
    obtain ⟨ys, hys, hall⟩ := h.items hr
    exact ⟨y :: ys, by rw [hys, List.append_assoc, List.singleton_append], List.Forall₂.cons ⟨n, hn, hy⟩ hall⟩
  kept x hx := h.kept x (List.mem_append_left _ hx)
  copies hr b hb m hm := by
    rcases List.mem_cons.mp hb with rfl | hb
    · obtain rfl := Option.some.inj (hn.symm.trans hm)
      exact h.kept _ (List.mem_append_right _ (List.mem_cons_of_mem _ List.mem_cons_self))
    · exact h.copies hr b hb m hm

/-- **The entries of some nodes**, where the array has room for them. -/
theorem visit_spec (g : GetGrants) (after : ℕ → ℕ → UInt8) (hmade : ∀ a ∈ l, ∃ n, t.heap.read a = some n ∧ Made n)
    (hroom : p.items.length + l.length ≤ maxNum) :
    ∃ r, visit t (parseNode g maxNum after) l p = .ok r ∧ Filled t g l p r := by
  induction l generalizing p with
  | nil => exact ⟨_, rfl, Filled.nil⟩
  | cons a l ih =>
      obtain ⟨⟨n, hn, hna⟩, hmade⟩ := List.forall_mem_cons.mp hmade
      rw [List.length_cons] at hroom
      have hentry : Access.InBounds ⟨p.items.length, 1, maxNum⟩ := by
        show p.items.length + 1 ≤ maxNum
        omega
      have hbuffer : Access.InBounds ⟨0, n.item.size, n.item.alignedSize⟩ := by
        show 0 + n.item.size ≤ n.item.alignedSize
        rw [hna.size, hna.alignedSize, Nat.zero_add]
        exact le_align4 _
      rw [visit, readNode_eq hn]
      show ∃ r, ite _ _ _ = _ ∧ _
      cases hhash : g.hash p.items.length with
      | false =>
          have hparse : parseNode g maxNum after n p =
              (tcfErrNomem, ⟨p.items, p.accesses ++ [⟨p.items.length, 1, maxNum⟩]⟩) := if_pos hhash
          have hret : ¬ tcfErrNomem = 0 := by decide
          rw [hparse, if_pos hret]
          refine ⟨_, rfl, fun hg => absurd ((hg _).symm.trans hhash) (by decide), fun x hx => ?_,
            fun h0 => absurd h0 hret, fun x hx => List.mem_append_left _ hx, fun h0 => absurd h0 hret⟩
          rcases List.mem_append.mp hx with hx | hx
          · exact Or.inl hx
          · rw [List.mem_singleton.mp hx]
            exact Or.inr (Or.inl hentry)
      | true =>
          have hparse : parseNode g maxNum after n p =
              (0, ⟨p.items ++ [fileIntegrityParser ((List.range 4).map (after p.items.length)) (itemInfo n)],
                p.accesses ++ [⟨p.items.length, 1, maxNum⟩, copyOf n, ⟨0, n.item.size, n.item.alignedSize⟩]⟩) :=
            if_neg (by rw [hhash]; decide)
          obtain ⟨r, hr, hfilled⟩ := ih (p := (parseNode g maxNum after n p).2) hmade (by
            rw [hparse, List.length_append, List.length_singleton]
            omega)
          rw [hparse] at hr hfilled
          rw [hparse, if_neg (not_not.mpr rfl)]
          exact ⟨r, hr, hfilled.cons hn (showsRef_itemInfo hna _) hentry hbuffer⟩

end Entries

/-! ### The references of the table -/

/-- The record that the node at an address holds. -/
def dataAt (t : IntegrityData) (a : ℕ) : Option Bytes := (t.heap.read a).map fun n => n.item.data

section Build

variable {t t' : IntegrityData} {s : TableState} {array : List ℕ} {items cells : List Bytes} {f : Bytes}
  {b : BuildCall}

/-- **The new nodes hold the records**, where each gets its memory. -/
theorem addList_data (grant : ℕ → Bool) (hgrant : ∀ i, grant i = true) (i filePos : ℕ)
    (hfits : ∀ item ∈ items, recordSize item ≤ item.length) (t : IntegrityData) :
    (addList grant i filePos items t).1 = true ∧
      (addList grant i filePos items t).2.1.map (dataAt (addList grant i filePos items t).2.2) =
        (addListToHashTable filePos items).map fun n => some n.data := by
  induction items generalizing i filePos t with
  | nil => exact ⟨rfl, rfl⟩
  | cons item items ih =>
      obtain ⟨hitem, hfits⟩ := List.forall_mem_cons.mp hfits
      rw [addList, addListToHashTable]
      split_ifs with hzero hg
      · exact ih (i + 1) _ hfits t
      · exact absurd ((hgrant i).symm.trans hg) (by decide)
      · obtain ⟨htrue, hdata⟩ := ih (i + 1) (filePos + align4 (recordSize item)) hfits (addToHashTable t item filePos)
        refine ⟨htrue, ?_⟩
        rw [List.map_cons, List.map_cons, hdata]
        congr 1
        have hnew := ((grown_refl (addToHashTable t item filePos)).addList grant (i + 1)
          (filePos + align4 (recordSize item)) hfits).1.old t.heap.next _ Heap.read_alloc_self
        rw [dataAt, hnew]
        rfl

theorem dataAt_moveNode {a : ℕ} {n : FileNode} (hn : t.heap.read a = some n) (c : ℕ) :
    dataAt (moveNode t a n) c = dataAt t c := by
  rw [dataAt, moveNode, dataAt]
  rcases eq_or_ne c a with rfl | hne
  · rw [Heap.read_store_self hn, hn]
    rfl
  · rw [Heap.read_store_of_ne hne.symm]

/-- Nodes that are appended keep their records. -/
theorem dataAt_appendNodes (h : appendNodes array t = .ok t') (c : ℕ) : dataAt t' c = dataAt t c := by
  induction array generalizing t with
  | nil =>
      obtain rfl := Except.ok.inj h
      rfl
  | cons a array ih =>
      rw [appendNodes] at h
      cases hn : t.heap.read a with
      | none =>
          rw [readNode, hn] at h
          cases h
      | some n =>
          rw [readNode_eq hn] at h
          change (listAddTail (moveNode t a n) a).bind _ = _ at h
          rw [listAddTail] at h
          split_ifs at h
          · rw [ih h]
            exact dataAt_moveNode hn c
          · cases h

theorem dataAt_appendHashedArray {total dataLength : ℕ} (h : appendHashedArray array total dataLength t = .ok t')
    (c : ℕ) : dataAt t' c = dataAt t c := by
  rw [appendHashedArray] at h
  cases happend : appendNodes array { t with total := (t.total + total) % 2 ^ 32 } with
  | error e =>
      rw [happend] at h
      cases h
  | ok t₁ =>
      rw [happend] at h
      obtain rfl := Except.ok.inj h
      exact dataAt_appendNodes happend c

/-- What `build_integrity_data` has before it looks at the records of a file that can be read. -/
theorem loadBuffer_of_parses (hp : Parses f cells) (hb : b.Granted) :
    loadBuffer b.io (some f) = if f = [] then ⟨0, none, some f⟩ else ⟨0, some f, some f⟩ := by
  rw [loadBuffer, httcUtilFileSize, hb.sizeOpens, if_pos rfl]
  dsimp only
  rcases eq_or_ne f [] with rfl | hne
  · rw [if_pos rfl]
    rfl
  · have hread : httcUtilFileReadFull b.io.read (some f) = some f :=
      httcUtilFileReadFull_eq_some.mpr ⟨hb.read, hp.small, hne, rfl⟩
    rw [if_neg fun h0 => hne (List.length_eq_zero_iff.mp h0), if_neg hne, hread]

/-- **The table has the references of the file**, in their order. -/
theorem build_of_parses (hs : Agree s.table) (hf : s.file = some f) (hp : Parses f cells) (hb : b.Granted) :
    ∃ s', buildIntegrityData b s = .ok (0, s') ∧ Agree s'.table ∧ s'.table.list.length < 2 ^ 31 ∧
      s'.table.list.map (dataAt s'.table) = (live cells).map some := by
  obtain ⟨ret, s', heq, hagree, hfew⟩ := build_spec b hs
  rw [Few] at hfew
  suffices hsuff : ret = 0 ∧ s'.table.list.map (dataAt s'.table) = (live cells).map some by
    obtain ⟨rfl, hdata⟩ := hsuff
    exact ⟨s', heq, hagree, by omega, hdata⟩
  obtain ⟨t, hreset, hcleared⟩ := hs.reset
  rw [buildIntegrityData, hreset, hf, loadBuffer_of_parses hp hb] at heq
  change hashBuffer b.grants _ t = _ at heq
  rw [hashBuffer] at heq
  rcases eq_or_ne f [] with rfl | hne
  · rw [if_pos rfl] at heq
    obtain ⟨rfl, rfl⟩ := Prod.mk.inj (Except.ok.inj heq)
    obtain rfl := hp.laid.eq_nil
    exact ⟨rfl, by rw [hcleared.list]; rfl⟩
  rw [if_neg hne] at heq
  have hitems : pointers cells ≠ [] := by
    intro hnil
    cases cells with
    | nil => exact hne hp.laid.flatten
    | cons c cells => exact absurd hnil (List.cons_ne_nil _ _)
  have hfits : ∀ item ∈ pointers cells, recordSize item ≤ item.length := fun item => hp.laid.fits_pointers
  obtain ⟨htrue, hdata⟩ := addList_data b.grants.node hb.node 0 0 hfits t
  obtain ⟨hg, hle⟩ := (grown_refl t).addList b.grants.node 0 0 hfits
  have hsmall : t.list.length + (addList b.grants.node 0 0 (pointers cells) t).2.1.length < 2 ^ 32 := by
    have hlen := (length_items hp.laid.split).1
    have hmax : f.length ≤ 104857600 := hp.small
    rw [hcleared.list, List.length_nil]
    omega
  obtain ⟨t₁, happend, -, hlist⟩ := hg.appendHashedArray hcleared.agree hsmall (pointers cells).length f.length
  rw [List.nil_append] at happend hlist
  have hhash : hashPolicyData b.grants f t = .ok (⟨0, some (addList b.grants.node 0 0 (pointers cells) t).2.1,
      (pointers cells).length⟩, (addList b.grants.node 0 0 (pointers cells) t).2.2) := by
    rw [hashPolicyData, hb.items, if_neg (by decide), hp.laid.split]
    dsimp only
    rw [if_neg hitems, hashItems]
    exact if_pos htrue
  dsimp only at heq
  rw [hhash] at heq
  change (appendHashedArray _ _ _ _).bind _ = _ at heq
  rw [happend] at heq
  obtain ⟨rfl, rfl⟩ := Prod.mk.inj (Except.ok.inj heq)
  refine ⟨rfl, ?_⟩
  show t₁.list.map (dataAt t₁) = _
  rw [hlist, hcleared.list, List.nil_append, ← map_data_nodesOf 0, ← hp.laid.nodes, List.map_map]
  calc _ = (addList b.grants.node 0 0 (pointers cells) t).2.1.map
          (dataAt (addList b.grants.node 0 0 (pointers cells) t).2.2) :=
        List.map_congr_left fun a _ => dataAt_appendHashedArray happend a
    _ = _ := hdata

end Build

/-! ### The pages -/

section Pages

variable {t : IntegrityData} {g : GetGrants} {after : ℕ → ℕ → UInt8} {frm num : ℕ} {l : List ℕ} {ys : List ParsedItem}
  {f : Bytes} {cells refs : List Bytes}

/-- Entries of nodes are entries of the references that the nodes hold. -/
theorem forall₂_showsRef (h : List.Forall₂ (fun y a => ∃ n, t.heap.read a = some n ∧ ShowsRef y n.item.data) ys l)
    (hrefs : l.map (dataAt t) = refs.map some) : List.Forall₂ ShowsRef ys refs := by
  induction h generalizing refs with
  | nil =>
      obtain rfl := List.map_eq_nil_iff.mp hrefs.symm
      exact List.Forall₂.nil
  | cons hy _ ih =>
      obtain ⟨n, hn, hy⟩ := hy
      cases refs with
      | nil => exact absurd hrefs (List.cons_ne_nil _ _)
      | cons r refs =>
          obtain ⟨hr, hrefs⟩ := List.cons.inj hrefs
          rw [dataAt, hn] at hr
          exact List.Forall₂.cons (Option.some.inj hr ▸ hy) (ih hrefs)

/-- Behind the references there is nothing to copy. -/
theorem readPage_of_le (h : Agree t) (hle : t.list.length ≤ frm) (hnum : 1 ≤ num) (g : GetGrants)
    (after : ℕ → ℕ → UInt8) :
    readPage g after frm num t = .ok ⟨0, [], 0, []⟩ := by
  have hvalid := h.valid
  rw [readPage]
  rcases Nat.lt_or_ge t.valid frm with hlt | hge
  · exact if_pos hlt
  · rw [if_neg (not_lt.mpr hge)]
    dsimp only
    rw [if_pos (by split_ifs <;> omega)]

/-- **A page of at least one reference.** -/
theorem readPage_of_lt (h : Agree t) (hlt : frm < t.list.length) (hsmall : t.list.length < 2 ^ 31) (hnum : 1 ≤ num)
    (hword : num < 2 ^ 32) (g : GetGrants) (after : ℕ → ℕ → UInt8) :
    (g.items = false ∧ readPage g after frm num t = .ok ⟨tcfErrNomem, [], num, []⟩) ∨
      ∃ r, readPage g after frm num t = .ok (page num r) ∧
        Filled t g ((t.list.drop frm).take num) ⟨[], []⟩ r := by
  have hvalid := h.valid
  have hmade : ∀ a ∈ (t.list.drop frm).take num, ∃ n, t.heap.read a = some n ∧ Made n := fun a ha =>
    h.alive a (List.mem_of_mem_drop (List.mem_of_mem_take ha))
  have hroom : (⟨[], []⟩ : PageRead).items.length + ((t.list.drop frm).take num).length ≤
      if num > t.valid - frm then t.valid - frm else num := by
    rw [List.length_nil, List.length_take, List.length_drop]
    split_ifs <;> omega
  obtain ⟨r, hvisit, hfilled⟩ := visit_spec g after hmade hroom
  have halive : ∀ a ∈ t.list, ∃ n, t.heap.read a = some n := fun a ha => by
    obtain ⟨n, hn, -⟩ := h.alive a ha
    exact ⟨n, hn⟩
  rw [readPage, if_neg (by omega)]
  dsimp only
  rw [if_neg (by split_ifs <;> omega), iterator_eq halive hsmall hlt.le hnum hword, hvisit]
  split_ifs with hitems
  · exact Or.inl ⟨hitems, rfl⟩
  · exact Or.inr ⟨r, rfl, hfilled⟩

/-- **What a page holds**, whatever its copies read. -/
theorem page_spec {r : ℤ × PageRead} (hfilled : Filled t g ((t.list.drop frm).take num) ⟨[], []⟩ r)
    (hrefs : t.list.map (dataAt t) = refs.map some) (hret : (page num r).ret = 0) :
    r.1 = 0 ∧ (page num r).num = min num (refs.length - frm) ∧
      List.Forall₂ ShowsRef (page num r).items ((refs.drop frm).take num) := by
  have hr : r.1 = 0 := by
    rw [page] at hret
    split_ifs at hret with h0
    · exact absurd hret h0
    · exact not_not.mp h0
  obtain ⟨ys, hys, hall⟩ := hfilled.items hr
  rw [List.nil_append] at hys
  have hshow : List.Forall₂ ShowsRef ys ((refs.drop frm).take num) :=
    forall₂_showsRef hall (by rw [List.map_take, List.map_drop, hrefs, ← List.map_drop, ← List.map_take])
  rw [page, if_neg (not_not.mpr hr), hys]
  refine ⟨hr, ?_, hshow⟩
  show ys.length = _
  rw [hshow.length_eq, List.length_take, List.length_drop]

theorem tcfGetFileIntegrity_eq {s s' : TableState} {b : BuildCall} {frm num : UInt32} {p : Page}
    (hbuild : buildIntegrityData b s = .ok (0, s')) (hread : readPage g after frm.toNat num.toNat s'.table = .ok p) :
    tcfGetFileIntegrity 0 b g after frm num s = .ok (p, s') := by
  rw [tcfGetFileIntegrity, if_neg (not_not.mpr rfl), hbuild]
  show (readPage g after frm.toNat num.toNat s'.table).bind _ = _
  rw [hread]
  rfl

/-- The copy reads four bytes behind the record. -/
theorem not_inBounds_copyOf (n : FileNode) : ¬ (copyOf n).InBounds := by
  intro hin
  have hin : 4 + n.item.size ≤ n.item.size := hin
  omega

/-- The nodes are as many as the references. -/
theorem length_list_eq (h : t.list.map (dataAt t) = refs.map some) : t.list.length = refs.length := by
  rw [← List.length_map (dataAt t), h, List.length_map]

/-- A call that meets nothing. -/
def BuildCall.free : BuildCall where
  io := ⟨true, false, (0, []), true, ⟨true, 0, 0⟩, ⟨true, true, true⟩, true⟩
  grants := ⟨true, fun _ => true⟩
  small := by decide

theorem granted_free : BuildCall.free.Granted := ⟨rfl, ⟨rfl, rfl, rfl⟩, rfl, fun _ => rfl⟩

/-- **A page is read inside the records exactly where it is empty**: the copy of a record reads four bytes behind
it. -/
theorem tcfGetFileIntegrity_iff (hp : Parses f cells) {frm num : UInt32} (hnum : 1 ≤ num.toNat) :
    GetsPage f (live cells) frm num ↔ (live cells).length ≤ frm.toNat := by
  constructor
  · intro hgets
    by_contra hlt
    have hinit : Agree (⟨some f, IntegrityData.init⟩ : TableState).table := agree_init
    obtain ⟨s', hbuild, hagree, hsmall, hrefs⟩ := build_of_parses hinit rfl hp granted_free
    have hlen := length_list_eq hrefs
    obtain ⟨p, s'', hp', hsafe, hret, -⟩ := hgets _ _ ⟨true, fun _ => true⟩ (fun _ _ => 0) hinit rfl granted_free
    have hinside : frm.toNat < s'.table.list.length := by omega
    rcases readPage_of_lt hagree hinside hsmall hnum num.toNat_lt ⟨true, fun _ => true⟩ fun _ _ => 0 with
      ⟨hitems, -⟩ | ⟨r, hread, hfilled⟩
    · exact absurd hitems (by decide)
    obtain ⟨rfl, -⟩ := Prod.mk.inj (Except.ok.inj (hp'.symm.trans (tcfGetFileIntegrity_eq hbuild hread)))
    have hr := (page_spec hfilled hrefs (hret rfl fun _ => rfl)).1
    have hne : 0 < ((s'.table.list.drop frm.toNat).take num.toNat).length := by
      rw [List.length_take, List.length_drop]
      omega
    obtain ⟨a, ha⟩ := List.exists_mem_of_length_pos hne
    obtain ⟨n, hn, -⟩ := hagree.alive a (List.mem_of_mem_drop (List.mem_of_mem_take ha))
    refine not_inBounds_copyOf n (hsafe _ ?_)
    rw [page, if_neg (not_not.mpr hr)]
    exact hfilled.copies hr a ha n hn
  · intro hle s b g after hs hf hb
    obtain ⟨s', hbuild, hagree, -, hrefs⟩ := build_of_parses hs hf hp hb
    have hlen := length_list_eq hrefs
    have hbehind : s'.table.list.length ≤ frm.toNat := by omega
    have hread := readPage_of_le hagree hbehind hnum g after
    refine ⟨⟨0, [], 0, []⟩, s', tcfGetFileIntegrity_eq hbuild hread, safe_nil, fun _ _ => rfl, fun _ => ⟨?_, ?_⟩⟩
    · show 0 = _
      omega
    · rw [List.drop_eq_nil_of_le hle, List.take_nil]
      exact List.Forall₂.nil

end Pages

/-- Behind the last reference a page is empty. -/
theorem getsPage_empty : GetsPage (rootRef 0) (live [rootRef 0]) 1 1 := by
  have hfits : recordSize (rootRef 0) ≤ (rootRef 0).length := by decide +kernel
  have halign : (rootRef 0).length ≤ align4 (recordSize (rootRef 0)) := by decide +kernel
  have hsmall : (rootRef 0).length ≤ maxFileSize := by decide +kernel
  exact (tcfGetFileIntegrity_iff ⟨Laid.last hfits halign, hsmall⟩ (by decide)).mpr (by decide +kernel)

/-- **A page with a reference reads behind its record.** -/
theorem page_reads_behind :
    ¬ ∀ f cells frm num, Parses f cells → 1 ≤ UInt32.toNat num → GetsPage f (live cells) frm num := by
  intro hall
  have hfits : recordSize (rootRef 0) ≤ (rootRef 0).length := by decide +kernel
  have halign : (rootRef 0).length ≤ align4 (recordSize (rootRef 0)) := by decide +kernel
  have hsmall : (rootRef 0).length ≤ maxFileSize := by decide +kernel
  have hgets := hall _ _ 0 1 ⟨Laid.last hfits halign, hsmall⟩ (by decide)
  obtain ⟨p, s', hp, hsafe, -⟩ := hgets ⟨some (rootRef 0), IntegrityData.init⟩ .free ⟨true, fun _ => true⟩
    (fun _ _ => 0) agree_init rfl granted_free
  have hrun : (tcfGetFileIntegrity 0 .free ⟨true, fun _ => true⟩ (fun _ _ => 0) 0 1
      ⟨some (rootRef 0), IntegrityData.init⟩).toOption.map (fun r => r.1.accesses) =
        some [⟨0, 1, 1⟩, ⟨4, 37, 37⟩, ⟨0, 37, 40⟩] := by decide +kernel
  rw [hp] at hrun
  have haccess : p.accesses = [⟨0, 1, 1⟩, ⟨4, 37, 37⟩, ⟨0, 37, 40⟩] := Option.some.inj hrun
  rw [haccess] at hsafe
  exact absurd hsafe (by decide)

end Nodes
end FileIntegrity
end TsbAgent
