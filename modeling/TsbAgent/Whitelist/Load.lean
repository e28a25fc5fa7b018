/-
# Loading the whitelist

`load_whitelist` of `tsb/kernel/smeasure/policy/hash_whitelist.c` reads
`integrity.data` through a window of 1024 bytes, record by record, into a new
table, and then swaps the tables.  It reads the format that the user side writes
(`TsbAgent.FileIntegrity.Format`), with limits of its own:

| record | what the loop does |
| --- | --- |
| longer than 1024 bytes with its padding | the window fills up, and the loop ends there |
| the last one, without its padding | never complete in the window, so dropped |
| with a zero digest | skipped, a deleted entry |
| with a path of 512 bytes or more | fills `path[512]` without a terminator, or overruns it |
| same path and chain, digests agree up to a zero byte | dropped as a duplicate |

However the file is read in pieces, the records before the first one of the first
two kinds are the ones that are read (`loadTable_eq`), and
`load_whitelist_agrees_iff` says when the table is what the user side wrote.
An overrun is modelled as a fault, `none`.
-/

import TsbAgent.FileIntegrity.Format
import TsbAgent.Lib.Window
import TsbAgent.Whitelist.Table

namespace TsbAgent
namespace Whitelist

open Libc Chained FileIntegrity

section Loop

variable (jhash : Jhash) (random : UInt32)

/-- `whitelist_tmp_add`, when it has the memory. -/
def whitelistTmpAdd (w : WhitelistTable) (path : CStr) (hash : Digest) : WhitelistTable × ℤ :=
  let i := whitelistHashKey jhash random hash
  if w.hashtable.lookup i (fun u => whitelistHashCmp u hash path = 0) then (w, -eexist)
  else (⟨w.hashtable.push i ⟨hash, path⟩, w.objCount + 1⟩, 0)

/-- The size of the record at `p`, its data padded by `BYTE4_ALIGNMENT`. -/
def paddedSize (p : Bytes) : ℕ := 4 + align4 (lenHash + extendSize p + pathLength p)

/-- What the loop does with a complete record: skip a deleted one, add the others. -/
def loadItem (p : Bytes) (w : WhitelistTable) : Option WhitelistTable :=
  if memcmp lenHash (itemHash p).1 Digest.zero.1 = 0 then some w
  else if pathLength p < 512 then
    some (whitelistTmpAdd jhash random w (CStr.ofBytes (itemPath p)) (itemHash p)).1
  else none

/-- The inner loop: the complete records at the start of the window. -/
def loadWindow : ℕ → Bytes → WhitelistTable → Option (Bytes × WhitelistTable)
  | 0, buff, w => some (buff, w)
  | fuel + 1, buff, w =>
      if buff.length ≤ 4 then some (buff, w)
      else if buff.length < paddedSize buff then some (buff, w)
      else (loadItem jhash random buff w).bind fun w => loadWindow fuel (buff.drop (paddedSize buff)) w

/-- `kernel_read` of at most `count` bytes; a short read still gets one. -/
def kernelRead (short count : ℕ) (file : Bytes) : Bytes := file.take (min count (max 1 short))

/-- The outer loop: fill the window and work it off, until the end of the file or a
read of nothing. -/
def loadLoop (reads : ℕ → ℕ) : ℕ → Bytes → Bytes → WhitelistTable → Option WhitelistTable
  | 0, _, _, w => some w
  | fuel + 1, buff, file, w =>
      if file = [] then some w
      else
        let got := kernelRead (reads fuel) (1024 - buff.length) file
        if got = [] then some w
        else
          (loadWindow jhash random (buff ++ got).length (buff ++ got) w).bind fun r =>
            loadLoop reads fuel r.1 (file.drop got.length) r.2

/-- The table that `load_whitelist` builds from the file. -/
def loadTable (reads : ℕ → ℕ) (file : Bytes) : Option WhitelistTable :=
  loadLoop jhash random reads file.length [] file whitelistInit

end Loop

/-! ### The records the loop reads -/

/-- The record at `p` fits in the window and is there with its padding. -/
def Readable (p : Bytes) : Prop := align4 (recordSize p) ≤ 1024 ∧ align4 (recordSize p) ≤ p.length

instance (p : Bytes) : Decidable (Readable p) := inferInstanceAs (Decidable (_ ∧ _))

/-- The records of a file up to the first that cannot be read. -/
def readItems (its : List Bytes) : List Bytes := its.takeWhile fun p => Readable p

theorem paddedSize_eq (p : Bytes) : paddedSize p = align4 (recordSize p) := by
  have h : recordSize p = 4 + (lenHash + extendSize p + pathLength p) := by
    unfold recordSize lenHash
    omega
  rw [paddedSize, h, align4_add_four]

section Window

variable {jhash : Jhash} {random : UInt32}

/-- The records, one after the other, as if the whole file were in the window. -/
def loadItems (jhash : Jhash) (random : UInt32) : List Bytes → WhitelistTable → Option WhitelistTable
  | [], w => some w
  | p :: ps, w => (loadItem jhash random p w).bind fun w => loadItems jhash random ps w

theorem loadItem_append {p : Bytes} (hp : recordSize p ≤ p.length) (r : Bytes) (w : WhitelistTable) :
    loadItem jhash random (p ++ r) w = loadItem jhash random p w := by
  have h4 : 4 ≤ p.length := by
    unfold recordSize at hp
    omega
  obtain ⟨hh, hpath⟩ := item_append hp r
  obtain ⟨-, hl, -⟩ := header_append h4 r
  rw [loadItem, loadItem, hh, hpath, hl]

/-- The first record of an accepted file, and the file after it. -/
theorem split_cons {s : Bytes} {its : List Bytes} (h : bufferToItemArray s s.length = .ok its)
    (hs : s ≠ []) : recordSize s ≤ s.length ∧
      ∃ its', its = s :: its' ∧ (align4 (recordSize s) ≤ s.length →
        bufferToItemArray (s.drop (align4 (recordSize s))) (s.drop (align4 (recordSize s))).length =
          .ok its') := by
  have hpos : s.length ≠ 0 := fun h0 => hs (List.length_eq_zero_iff.mp h0)
  rw [bufferToItemArray_eq, if_neg hpos] at h
  split_ifs at h with hfit hlast
  · refine ⟨hfit, [], (Except.ok.inj h).symm, fun hle => ?_⟩
    rw [List.drop_eq_nil_of_le hlast]
    rfl
  · refine ⟨hfit, ?_⟩
    rw [List.length_drop]
    cases hr : bufferToItemArray (s.drop (align4 (recordSize s))) (s.length - align4 (recordSize s)) with
    | error e =>
        rw [hr] at h
        exact absurd h (by simp [Except.map])
    | ok its' =>
        rw [hr] at h
        exact ⟨its', (Except.ok.inj h).symm, fun _ => rfl⟩

theorem readItems_cons_of_readable {p : Bytes} (h : Readable p) (ps : List Bytes) :
    readItems (p :: ps) = p :: readItems ps :=
  List.takeWhile_cons_of_pos (decide_eq_true h)

theorem readItems_cons_of_not_readable {p : Bytes} (h : ¬ Readable p) (ps : List Bytes) :
    readItems (p :: ps) = [] :=
  List.takeWhile_cons_of_neg (by simpa using h)

/-- The loops are those of a window of 1024 bytes. -/
theorem loadWindow_eq (fuel : ℕ) (buff : Bytes) (w : WhitelistTable) :
    loadWindow jhash random fuel buff w = Window.workOff 4 paddedSize (loadItem jhash random) fuel buff w := by
  induction fuel generalizing buff w with
  | zero => rfl
  | succ fuel ih =>
      rw [loadWindow, Window.workOff]
      simp only [ih]

theorem loadLoop_eq (reads : ℕ → ℕ) (fuel : ℕ) (buff file : Bytes) (w : WhitelistTable) :
    loadLoop jhash random reads fuel buff file w =
      Window.loop 4 1024 paddedSize (loadItem jhash random) reads fuel buff file w := by
  induction fuel generalizing buff file w with
  | zero => rfl
  | succ fuel ih =>
      rw [loadLoop, Window.loop]
      simp only [ih, loadWindow_eq]
      rfl

theorem loadItems_eq (l : List Bytes) (w : WhitelistTable) :
    loadItems jhash random l w = Window.workAll (loadItem jhash random) l w := by
  induction l generalizing w with
  | nil => rfl
  | cons p ps ih =>
      rw [loadItems, Window.workAll]
      simp only [ih]

theorem framed_loadItem : Window.Framed 4 paddedSize (loadItem jhash random) where
  header_lt p := by
    rw [paddedSize]
    have hle := le_align4 (lenHash + extendSize p + pathLength p)
    have h32 : lenHash = 32 := rfl
    omega
  size_append p r h := by
    rw [paddedSize_eq, paddedSize_eq, recordSize_append h]
  item_append p r w h := by
    rw [paddedSize_eq] at h
    exact loadItem_append ((le_align4 _).trans h) r w

/-- The records of an accepted file that the window can hold. -/
theorem records_readItems {file : Bytes} {its : List Bytes} (hits : bufferToItemArray file file.length = .ok its) :
    Window.Records 4 1024 paddedSize file (readItems its) := by
  induction its generalizing file with
  | nil =>
      refine .nil (.inl ?_)
      rcases eq_or_ne file [] with rfl | hne
      · exact Nat.zero_le 4
      · obtain ⟨-, its', heq, -⟩ := split_cons hits hne
        exact nomatch heq
  | cons p ps ih =>
      have hne : file ≠ [] := by
        rintro rfl
        exact absurd (Except.ok.inj (show (.ok [] : Except ℤ (List Bytes)) = .ok (p :: ps) from hits)) (by simp)
      obtain ⟨hfit, its', heq, hrest⟩ := split_cons hits hne
      obtain ⟨rfl, rfl⟩ := List.cons.inj heq
      have hpad := paddedSize_eq p
      have h36 : 36 ≤ recordSize p := by
        unfold recordSize
        omega
      by_cases hread : Readable p
      · obtain ⟨h1024, hlen⟩ := hread
        rw [readItems_cons_of_readable ⟨h1024, hlen⟩]
        have hrec := ih (hrest hlen)
        rw [← hpad] at hrec
        refine .cons ?_ hrec
        rw [Window.Ends, hpad]
        omega
      · rw [readItems_cons_of_not_readable hread]
        refine .nil ?_
        rw [Window.Ends, hpad]
        by_cases h1024 : align4 (recordSize p) ≤ 1024
        · exact .inr (.inl (not_le.mp fun hlen => hread ⟨h1024, hlen⟩))
        · exact .inr (.inr (not_le.mp h1024))

/-- **The loader reads the readable records**, for every pattern of short reads. -/
theorem loadTable_eq (reads : ℕ → ℕ) {file : Bytes} {its : List Bytes}
    (hits : bufferToItemArray file file.length = .ok its) :
    loadTable jhash random reads file = loadItems jhash random (readItems its) whitelistInit := by
  rw [loadTable, loadLoop_eq, loadItems_eq]
  exact Window.loop_eq framed_loadItem (by decide) reads (records_readItems hits)

end Window

/-! ### The entries of the table -/

/-- The whitelist entry of a record. -/
def itemEntry (p : Bytes) : WhitelistDigest := ⟨itemHash p, CStr.ofBytes (itemPath p)⟩

/-- The entries of the records that are not deleted. -/
def liveEntries (l : List Bytes) : Set WhitelistDigest :=
  {u | ∃ p ∈ l, itemHash p ≠ Digest.zero ∧ u = itemEntry p}

/-- The table takes the one for a duplicate of the other. -/
def Same (jhash : Jhash) (random : UInt32) (u v : WhitelistDigest) : Prop :=
  entryKey jhash random u = entryKey jhash random v ∧ cstr u.digest.1 = cstr v.digest.1 ∧
    u.name = v.name

/-- A table built from the entries of `S`: one entry for each class of duplicates. -/
structure Dedup (jhash : Jhash) (random : UInt32) (S : Set WhitelistDigest) (w : WhitelistTable) :
    Prop where
  placed : w.hashtable.Placed (entryKey jhash random)
  sub : ∀ u ∈ w.hashtable.contents, u ∈ S
  cover : ∀ u ∈ S, ∃ v ∈ w.hashtable.contents, Same jhash random v u
  unique : ∀ u ∈ w.hashtable.contents, ∀ v ∈ w.hashtable.contents, Same jhash random u v → u = v

section Table

variable {jhash : Jhash} {random : UInt32} {S : Set WhitelistDigest} {w : WhitelistTable}

theorem dedup_init : Dedup jhash random ∅ whitelistInit :=
  ⟨Table.placed_empty, fun u hu => by simp [whitelistInit] at hu, fun u hu => absurd hu id,
    fun u hu => by simp [whitelistInit] at hu⟩

theorem lookup_iff_same (hw : w.hashtable.Placed (entryKey jhash random)) (u : WhitelistDigest) :
    w.hashtable.lookup (entryKey jhash random u)
        (fun v => whitelistHashCmp v u.digest u.name = 0) = true ↔
      ∃ v ∈ w.hashtable.contents, Same jhash random v u := by
  rw [hw.lookup_iff]
  simp only [decide_eq_true_eq, whitelistHashCmp_eq_zero]
  exact Iff.rfl

/-- Adding an entry to a table without duplicates. -/
theorem Dedup.add (h : Dedup jhash random S w) (u : WhitelistDigest) :
    Dedup jhash random (insert u S) (whitelistTmpAdd jhash random w u.name u.digest).1 := by
  have hl := lookup_iff_same h.placed u
  unfold whitelistTmpAdd
  by_cases hdup : ∃ v ∈ w.hashtable.contents, Same jhash random v u
  · have hfound := hl.mpr hdup
    rw [entryKey] at hfound
    simp only [hfound, if_true]
    refine ⟨h.placed, fun v hv => Set.mem_insert_of_mem u (h.sub v hv), fun v hv => ?_, h.unique⟩
    rcases hv with rfl | hv
    · exact hdup
    · exact h.cover v hv
  · have hmiss : ¬ _ = true := fun hf => hdup (hl.mp hf)
    rw [entryKey] at hmiss
    have hu : u ∉ w.hashtable.contents := fun hu => hdup ⟨u, hu, rfl, rfl, rfl⟩
    have hcont : (w.hashtable.push (whitelistHashKey jhash random u.digest)
        ⟨u.digest, u.name⟩).contents = insert u w.hashtable.contents := Table.contents_push
    simp only [if_neg hmiss]
    refine ⟨h.placed.push hu, ?_, ?_, ?_⟩
    · rw [hcont]
      rintro v (rfl | hv)
      · exact Set.mem_insert _ _
      · exact Set.mem_insert_of_mem u (h.sub v hv)
    · rw [hcont]
      rintro v (rfl | hv)
      · exact ⟨v, Set.mem_insert _ _, rfl, rfl, rfl⟩
      · obtain ⟨y, hy, hs⟩ := h.cover v hv
        exact ⟨y, Set.mem_insert_of_mem u hy, hs⟩
    · rw [hcont]
      rintro v (rfl | hv) y (rfl | hy) ⟨hk, hd, hn⟩
      · rfl
      · exact absurd ⟨y, hy, hk.symm, hd.symm, hn.symm⟩ hdup
      · exact absurd ⟨v, hv, hk, hd, hn⟩ hdup
      · exact h.unique v hv y hy ⟨hk, hd, hn⟩

theorem liveEntries_cons (p : Bytes) (ps : List Bytes) :
    liveEntries (p :: ps) =
      if itemHash p = Digest.zero then liveEntries ps else insert (itemEntry p) (liveEntries ps) := by
  ext u
  simp only [liveEntries, List.mem_cons, exists_eq_or_imp, Set.mem_ofPred_eq]
  split_ifs with h0
  · simp [h0]
  · simp only [h0, not_false_eq_true, true_and, Set.mem_insert_iff, ne_eq, Set.mem_ofPred_eq]

/-- **The records build a table of their entries**, one for each class of duplicates,
and fault on a path that is too long. -/
theorem loadItems_spec (h : Dedup jhash random S w) (l : List Bytes) :
    ((∃ p ∈ l, itemHash p ≠ Digest.zero ∧ 512 ≤ pathLength p) → loadItems jhash random l w = none) ∧
    ((∀ p ∈ l, itemHash p ≠ Digest.zero → pathLength p < 512) →
      ∃ w', loadItems jhash random l w = some w' ∧ Dedup jhash random (S ∪ liveEntries l) w') := by
  induction l generalizing S w with
  | nil =>
      have hnil : liveEntries [] = ∅ := by
        ext u
        simp [liveEntries]
      refine ⟨fun ⟨p, hp, _⟩ => absurd hp List.not_mem_nil, fun _ => ⟨w, rfl, ?_⟩⟩
      rwa [hnil, Set.union_empty]
  | cons p ps ih =>
      rw [liveEntries_cons, loadItems, loadItem]
      by_cases h0 : itemHash p = Digest.zero
      · obtain ⟨ih₁, ih₂⟩ := ih h
        rw [if_pos (Digest.memcmp_eq_zero.mpr h0), if_pos h0]
        refine ⟨?_, fun hok => ih₂ fun q hq => hok q (List.mem_cons_of_mem _ hq)⟩
        rintro ⟨q, hq, hq0, hlen⟩
        rcases List.mem_cons.mp hq with rfl | hq
        · exact absurd h0 hq0
        · exact ih₁ ⟨q, hq, hq0, hlen⟩
      · rw [if_neg fun hm => h0 (Digest.memcmp_eq_zero.mp hm), if_neg h0]
        by_cases hlen : pathLength p < 512
        · obtain ⟨ih₁, ih₂⟩ := ih (h.add (itemEntry p))
          rw [if_pos hlen]
          refine ⟨?_, fun hok => ?_⟩
          · rintro ⟨q, hq, hq0, hqlen⟩
            rcases List.mem_cons.mp hq with rfl | hq
            · omega
            · exact ih₁ ⟨q, hq, hq0, hqlen⟩
          · obtain ⟨w', hw', hd⟩ := ih₂ fun q hq => hok q (List.mem_cons_of_mem _ hq)
            refine ⟨w', hw', ?_⟩
            rwa [Set.insert_union, ← Set.union_insert] at hd
        · rw [if_neg hlen]
          refine ⟨fun _ => rfl, fun hok => ?_⟩
          exact absurd (hok p List.mem_cons_self h0) hlen

/-- The table of `S` is all of `T`, a set around `S`: nothing of `T` is missing in
`S`, and `S` has no duplicates. -/
theorem Dedup.contents_eq_iff (h : Dedup jhash random S w) {T : Set WhitelistDigest} (hST : S ⊆ T) :
    w.hashtable.contents = T ↔
      T ⊆ S ∧ ∀ u ∈ S, ∀ v ∈ S, Same jhash random u v → u = v := by
  constructor
  · rintro rfl
    exact ⟨h.sub, fun u hu v hv => h.unique u (hST hu) v (hST hv)⟩
  · rintro ⟨hTS, hone⟩
    refine Set.Subset.antisymm (fun u hu => hST (h.sub u hu)) fun u hu => ?_
    obtain ⟨v, hv, hs⟩ := h.cover u (hTS hu)
    rwa [← hone v (h.sub v hv) u (hTS hu) hs]

end Table

/-! ### The names of the table -/

/-- A path that fits in `path[512]` gives a short name. -/
theorem itemEntry_short {p : Bytes} (hp : pathLength p < 512) : (itemEntry p).name.strlen < 512 := by
  have hle : (itemEntry p).name.strlen ≤ (itemPath p).length := (List.takeWhile_sublist _).length_le
  have htake : (itemPath p).length ≤ pathLength p := List.length_take_le _ _
  omega

section Names

variable {jhash : Jhash} {random : UInt32}

theorem loadItem_short {p : Bytes} {w w' : WhitelistTable} (h : ShortNames w)
    (hw : loadItem jhash random p w = some w') : ShortNames w' := by
  unfold loadItem at hw
  split_ifs at hw with h0 hlen
  · exact Option.some.inj hw ▸ h
  · obtain rfl := Option.some.inj hw
    unfold whitelistTmpAdd
    simp only
    split_ifs
    · exact h
    · exact h.push (itemEntry_short hlen) _ _

theorem loadWindow_short {fuel : ℕ} {buff : Bytes} {w : WhitelistTable} {r : Bytes × WhitelistTable}
    (h : ShortNames w) (hr : loadWindow jhash random fuel buff w = some r) : ShortNames r.2 := by
  induction fuel generalizing buff w with
  | zero => exact Option.some.inj hr ▸ h
  | succ fuel ih =>
      rw [loadWindow] at hr
      split_ifs at hr
      · exact Option.some.inj hr ▸ h
      · exact Option.some.inj hr ▸ h
      · obtain ⟨w₁, h₁, h₂⟩ := Option.bind_eq_some_iff.mp hr
        exact ih (loadItem_short h h₁) h₂

theorem loadLoop_short {reads : ℕ → ℕ} {fuel : ℕ} {buff file : Bytes} {w w' : WhitelistTable}
    (h : ShortNames w) (hw : loadLoop jhash random reads fuel buff file w = some w') :
    ShortNames w' := by
  induction fuel generalizing buff file w with
  | zero => exact Option.some.inj hw ▸ h
  | succ fuel ih =>
      rw [loadLoop] at hw
      simp only at hw
      split_ifs at hw
      · exact Option.some.inj hw ▸ h
      · exact Option.some.inj hw ▸ h
      · obtain ⟨r, h₁, h₂⟩ := Option.bind_eq_some_iff.mp hw
        exact ih (loadWindow_short h h₁) h₂

/-- **A loaded table has short names**, whatever the file. -/
theorem loadTable_short {reads : ℕ → ℕ} {file : Bytes} {w : WhitelistTable}
    (hw : loadTable jhash random reads file = some w) : ShortNames w :=
  loadLoop_short shortNames_init hw

end Names

/-! ### `load_whitelist` -/

/-- What `load_whitelist` meets: the answers of the TPCM and of the file system, and
the memory it gets. -/
structure LoadEnv where
  /-- The return value of `get_file_integrity_digest`. -/
  getFileIntegrityDigest : ℤ
  hashLen : ℕ
  tpcmHash : Digest
  /-- `filp_open` in `file_integrity_check`. -/
  opened : Bool
  /-- `digest_cal` of the file. -/
  digestCal : Option Digest
  /-- `filp_open` in `load_whitelist`. -/
  reopened : Bool
  vmallocBuff : Bool
  vmallocTable : Bool
  /-- What can be read of the file: all of it, or what comes before a failing read. -/
  file : Bytes
  /-- The lengths of the reads. -/
  reads : ℕ → ℕ

/-- `file_integrity_check` of the kernel; `123456` is the answer without a TPCM policy. -/
def fileIntegrityCheck (env : LoadEnv) : ℤ :=
  if env.getFileIntegrityDigest = 123456 then 0
  else if env.getFileIntegrityDigest ≠ 0 ∨ env.hashLen ≠ lenHash then 1
  else if env.opened = false then 1
  else
    match env.digestCal with
    | none => -1
    | some fileHash => if memcmp lenHash fileHash.1 env.tpcmHash.1 ≠ 0 then -1 else 0

/-- The table in use, and `file_integrity_valid`. -/
structure WhitelistState where
  table : WhitelistTable
  fileIntegrityValid : Bool

/-- `load_whitelist`; a fault in the loop is `none`. -/
def loadWhitelist (jhash : Jhash) (random : UInt32) (env : LoadEnv) (s : WhitelistState) :
    Option (WhitelistState × ℤ) :=
  let ret := fileIntegrityCheck env
  if ret = 1 then some (s, -1)
  else if ret ≠ 0 then some ({ s with fileIntegrityValid := false }, ret)
  else if env.reopened = false then some (s, ret)
  else if env.vmallocBuff = false then some (s, -enomem)
  else if env.vmallocTable = false then some (s, -enomem)
  else (loadTable jhash random env.reads env.file).map fun w => ({ s with table := w }, 0)

/-- The digest of the file is accepted, the file can be read and there is memory. -/
def LoadEnv.Ready (env : LoadEnv) : Prop :=
  fileIntegrityCheck env = 0 ∧ env.reopened = true ∧ env.vmallocBuff = true ∧ env.vmallocTable = true

theorem loadWhitelist_of_ready {jhash : Jhash} {random : UInt32} {env : LoadEnv}
    (h : env.Ready) (s : WhitelistState) : loadWhitelist jhash random env s =
      (loadTable jhash random env.reads env.file).map fun w => ({ s with table := w }, 0) := by
  obtain ⟨h₁, h₂, h₃, h₄⟩ := h
  simp [loadWhitelist, h₁, h₂, h₃, h₄]

/-- **What a run of `load_whitelist` can do**: leave everything as it is, clear the flag
on a wrong digest, or swap in the table of the file. -/
theorem loadWhitelist_cases {jhash : Jhash} {random : UInt32} {env : LoadEnv} {s : WhitelistState}
    {r : WhitelistState × ℤ} (h : loadWhitelist jhash random env s = some r) :
    ((fileIntegrityCheck env = 0 ∨ fileIntegrityCheck env = 1) ∧ r.1 = s) ∨
    ((fileIntegrityCheck env ≠ 0 ∧ fileIntegrityCheck env ≠ 1) ∧
      r.1 = { s with fileIntegrityValid := false }) ∨
    (fileIntegrityCheck env = 0 ∧ ∃ w, loadTable jhash random env.reads env.file = some w ∧
      r = ({ s with table := w }, 0)) := by
  unfold loadWhitelist at h
  simp only at h
  split_ifs at h with h₁ h₂
  · exact Or.inl ⟨Or.inr h₁, (Option.some.inj h) ▸ rfl⟩
  · exact Or.inr (Or.inl ⟨⟨h₂, h₁⟩, (Option.some.inj h) ▸ rfl⟩)
  · exact Or.inl ⟨Or.inl (not_not.mp h₂), (Option.some.inj h) ▸ rfl⟩
  · exact Or.inl ⟨Or.inl (not_not.mp h₂), (Option.some.inj h) ▸ rfl⟩
  · exact Or.inl ⟨Or.inl (not_not.mp h₂), (Option.some.inj h) ▸ rfl⟩
  · obtain ⟨w, hw, rfl⟩ := Option.map_eq_some_iff.mp h
    exact Or.inr (Or.inr ⟨not_not.mp h₂, w, hw, rfl⟩)

theorem loadWhitelist_short {jhash : Jhash} {random : UInt32} {env : LoadEnv} {s : WhitelistState}
    {r : WhitelistState × ℤ} (h : ShortNames s.table)
    (hr : loadWhitelist jhash random env s = some r) : ShortNames r.1.table := by
  rcases loadWhitelist_cases hr with ⟨-, hs⟩ | ⟨-, hs⟩ | ⟨-, w, hw, rfl⟩
  · rwa [hs]
  · rwa [hs]
  · exact loadTable_short hw

/-- The pairs of an accepted file that are not deleted, each with its whole path. -/
def userEntries (its : List Bytes) : Set WhitelistDigest :=
  {u | ∃ p ∈ its, itemHash p ≠ Digest.zero ∧ u.digest = itemHash p ∧ u.name.bytes = itemPath p}

theorem userEntries_eq {its : List Bytes} (hnul : ∀ p ∈ its, (0 : UInt8) ∉ itemPath p) :
    userEntries its = liveEntries its := by
  ext u
  constructor
  · rintro ⟨p, hp, h0, hd, hn⟩
    refine ⟨p, hp, h0, WhitelistDigest.ext hd (CStr.ext ?_)⟩
    exact hn.trans (cstr_of_nulFree (hnul p hp)).symm
  · rintro ⟨p, hp, h0, rfl⟩
    exact ⟨p, hp, h0, rfl, cstr_of_nulFree (hnul p hp)⟩

/-- A file of one record, for a digest of ones and a path of `a`s. -/
def oneRecord (hi lo : UInt8) (path : ℕ) : Bytes :=
  [1, 0, hi, lo] ++ List.replicate 32 1 ++ List.replicate path 97

/-- A load with nothing in its way. -/
def plainEnv (file : Bytes) : LoadEnv :=
  ⟨0, lenHash, Digest.zero, true, some Digest.zero, true, true, true, file, fun _ => 1⟩

theorem plainEnv_ready (file : Bytes) : (plainEnv file).Ready := ⟨rfl, rfl, rfl, rfl⟩

end Whitelist
end TsbAgent
