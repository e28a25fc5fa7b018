/-
# Storing the critical references

`tcf_update_critical_file_integrity` of `tss-main/tcf/src/tcf_file_integrity.c` writes the
references to `critical_integrity.data` in two steps, and
`tcf_get_critical_file_integrity` reads them back:

| bytes | |
| --- | --- |
| 0 … 3 | the number of the items, in host order |
| 4 … | the records, each padded to a multiple of four |

The first step truncates the file, so that nothing of a longer list stays.  The reader goes by
the number, and takes a record whose padding is missing.  `get_stored_iff` says when it returns
the items that were prepared: as for the whitelist a null pointer must come with a length of
zero, and the file must not be longer than the 100 MiB that are read.
-/

import TsbAgent.FileIntegrity.Update
import TsbAgent.Httcutils.File
import TsbAgent.Tcf.Basic

namespace TsbAgent
namespace FileIntegrity

open Libc Word File Httcutils Tcf

/-! ### The functions -/

/-- `tcf_prepare_update_critical_file_integrity`: only `POLICY_ACTION_SET`. -/
def prepareUpdateCriticalFileIntegrity (fill : ℕ → UInt8) (items : List ItemUser) (tpcmId : Bytes)
    (action : UInt32) (replayCounter : UInt64) : Except ℤ FileIntegrityUpdate :=
  if action ≠ 0 then .error tcfErrParameter
  else prepareUpdateFileIntegrity fill items tpcmId action replayCounter

/-- What an update meets: the semaphore, what `tcs_update_critical_file_integrity` returns, the
directory, and the streams of the two writes. -/
structure StoreEnv where
  sem : Option TcfErr
  tcs : Option TcfErr
  path : Bool
  num : Stream
  data : Stream

/-- `tcf_update_critical_file_integrity`: its error, and the file after it. -/
def tcfUpdateCriticalFileIntegrity (e : StoreEnv) (u : FileIntegrityUpdate) (file : Option Bytes) :
    Option TcfErr × Option Bytes :=
  match e.sem with
  | some err => (some err, file)
  | none =>
      match e.tcs with
      | some err => (some err, file)
      | none =>
          if ¬ e.path then (some .file, file)
          else
            let r := httcUtilFileWrite e.num file (hostBytes 4 u.itemNumber.toNat)
            if r.1 ≠ 4 then (some .file, r.2)
            else
              let r' := httcUtilFileWriteOffset e.data r.2 (u.data.take u.dataLength.toNat) 4
              if r'.1 ≠ u.dataLength.toNat then (some .file, r'.2) else (none, r'.2)

/-- An item as `tcf_get_critical_file_integrity` returns it, read from `p`. -/
def criticalItem (p : Bytes) : ParsedItem :=
  let data := (itemData p).take (lenHash + extendSize p + pathLength p)
  { hashLength := lenHash
    extendSize := extendSize p
    pathLength := pathLength p
    isEnable := if itemFlags p &&& 1 ≠ 0 then 1 else 0
    isControl := if itemFlags p &&& 2 ≠ 0 then 1 else 0
    isFullPath := if itemFlags p &&& 4 ≠ 0 then 1 else 0
    hash := data
    extendBuffer := some (data.drop lenHash)
    path := some (data.drop (lenHash + extendSize p)) }

/-- The loop over the items, from `items + ops` on. -/
def getItems : ℕ → Bytes → Except TcfErr (List ParsedItem)
  | 0, _ => .ok []
  | n + 1, p =>
      if p.length ≤ 4 then .error .parameter
      else if recordSize p > p.length then .error .parameter
      else (getItems n (p.drop (align4 (recordSize p)))).map (criticalItem p :: ·)

/-- What a read meets: the semaphore, the file system, and the memory for the items. -/
structure GetEnv where
  sem : Option TcfErr
  read : ReadIo
  calloc : Bool

/-- `tcf_get_critical_file_integrity`, when there is memory for the digests of the items.  A
negative number of items is too much for `httc_calloc`. -/
def tcfGetCriticalFileIntegrity (e : GetEnv) (file : Option Bytes) : Except TcfErr (List ParsedItem) :=
  match e.sem with
  | some err => .error err
  | none =>
      match file with
      | none => .ok []
      | some _ =>
          match httcUtilFileReadFull e.read file with
          | none => .error .file
          | some data =>
              let itemsNum := int32 (hostAt data 0 4)
              if ¬ e.calloc ∨ itemsNum < 0 then .error .nomem
              else getItems itemsNum.toNat (data.drop 4)

/-! ### What is claimed -/

/-- The items are returned, in order. -/
def Returns (e : GetEnv) (file : Option Bytes) (items : List ItemUser) : Prop :=
  ∃ ys, tcfGetCriticalFileIntegrity e file = .ok ys ∧ List.Forall₂ ParsesTo items ys

/-- The system grants the reader all that it asks for. -/
structure GetEnv.Granted (e : GetEnv) : Prop where
  sem : e.sem = none
  read : e.read.Granted
  calloc : e.calloc = true

/-- What the two streams have taken reaches the file when they are closed. -/
structure StoreEnv.Kept (e : StoreEnv) : Prop where
  num : e.num.lost = 0
  data : e.data.lost = 0

/-! ### The file of a successful update -/

section Store

variable {e : StoreEnv} {u : FileIntegrityUpdate} {old file : Option Bytes}

/-- All that a stream has taken is in the file. -/
theorem take_room {io : Stream} {b : Bytes} (hlost : io.lost = 0) (hroom : (b.take io.room).length = b.length) :
    io.kept (b.take io.room) = b := by
  rw [Stream.kept, hlost, Nat.sub_zero, List.take_length]
  exact (List.take_prefix io.room b).eq_of_length hroom

theorem write_number (hlost : e.num.lost = 0) {n : ℕ}
    (h : (httcUtilFileWrite e.num old (hostBytes 4 n)).1 = 4) :
    (httcUtilFileWrite e.num old (hostBytes 4 n)).2 = some (hostBytes 4 n) := by
  unfold httcUtilFileWrite at h ⊢
  split_ifs at h ⊢ with hopens
  · refine congrArg some (take_room hlost ?_)
    rw [length_hostBytes]
    exact Int.ofNat_inj.mp h
  · exact absurd (show (-1 : ℤ) = 4 from h) (by decide)

theorem write_data (hlost : e.data.lost = 0) {nb d : Bytes} (hnb : nb.length = 4)
    (h : (httcUtilFileWriteOffset e.data (some nb) d 4).1 = d.length) :
    (httcUtilFileWriteOffset e.data (some nb) d 4).2 = some (nb ++ d) := by
  unfold httcUtilFileWriteOffset at h ⊢
  dsimp only at h ⊢
  split_ifs at h ⊢ with hopens
  · have hall := take_room hlost (Int.ofNat_inj.mp h)
    rw [hall, ← hnb]
    exact congrArg some fwriteAt_end
  · have hnil : d = [] := List.length_eq_zero_iff.mp (Int.ofNat_inj.mp h.symm)
    rw [hnil, List.append_nil]

/-- **The file of a successful update** holds the number and the data, whatever was there. -/
theorem file_of_update (h : tcfUpdateCriticalFileIntegrity e u old = (none, file)) (hkept : e.Kept)
    (hlen : u.dataLength.toNat ≤ u.data.length) :
    file = some (hostBytes 4 u.itemNumber.toNat ++ u.data.take u.dataLength.toNat) := by
  have hdata : (u.data.take u.dataLength.toNat).length = u.dataLength.toNat := by
    rw [List.length_take, Nat.min_eq_left hlen]
  unfold tcfUpdateCriticalFileIntegrity at h
  cases hsem : e.sem with
  | some err =>
      rw [hsem] at h
      exact nomatch (Prod.mk.inj h).1
  | none =>
      cases htcs : e.tcs with
      | some err =>
          rw [hsem, htcs] at h
          exact nomatch (Prod.mk.inj h).1
      | none =>
          rw [hsem, htcs] at h
          dsimp only at h
          split_ifs at h with hpath hnum hrest
          · exact nomatch (Prod.mk.inj h).1
          · exact nomatch (Prod.mk.inj h).1
          · obtain ⟨-, rfl⟩ := Prod.mk.inj h
            rw [write_number hkept.num (not_not.mp hnum)] at hrest ⊢
            refine write_data hkept.data (length_hostBytes 4 _) ?_
            rw [hdata]
            exact not_not.mp hrest
          · exact nomatch (Prod.mk.inj h).1

end Store

/-! ### What is read back -/

section Get

variable {fill : ℕ → UInt8} {pos : ℕ} {x : ItemUser} {items : List ItemUser} {ys : List ParsedItem} {rest : Bytes}

/-- The fields of the record of a consistent item. -/
theorem encodeItem_fields (h : checkItem x = .ok ()) (hc : Consistent x) (fill : ℕ → UInt8) (pos : ℕ)
    (rest : Bytes) :
    extendSize (encodeItem fill pos x ++ rest) = (x.extendBuffer.getD []).length ∧
      pathLength (encodeItem fill pos x ++ rest) = (x.path.getD []).length ∧
      itemFlags (encodeItem fill pos x ++ rest) = encodeFlags x ∧
      ∃ pad, itemData (encodeItem fill pos x ++ rest) =
        x.hash.getD [] ++ (x.extendBuffer.getD [] ++ (x.path.getD [] ++ pad)) := by
  obtain ⟨hext, hpath⟩ := (consistent_iff h).mp hc
  obtain ⟨h₁, h₂, h₃⟩ := header_encodeItem fill pos x rest
  refine ⟨h₁.trans hext, h₂.trans hpath, h₃, ?_⟩
  rw [encodeItem, encodeData, List.append_assoc, List.append_assoc, List.append_assoc, List.append_assoc]
  exact ⟨_, rfl⟩

/-- **The record of a consistent item is read back.** -/
theorem criticalItem_encodeItem (h : checkItem x = .ok ()) (hc : Consistent x) (rest : Bytes) :
    ParsesTo x (criticalItem (encodeItem fill pos x ++ rest)) := by
  obtain ⟨⟨d, hd, hdlen⟩, -, -, hen, hco, hfu⟩ := checkItem_ok h
  obtain ⟨hext, hpath, hflags, pad, hdata⟩ := encodeItem_fields h hc fill pos rest
  obtain ⟨hb₁, hb₂, hb₃⟩ := encodeFlags_bits hen hco hfu
  rw [hd, Option.getD_some] at hdata
  have htake : (d ++ (x.extendBuffer.getD [] ++ (x.path.getD [] ++ pad))).take
      (lenHash + (x.extendBuffer.getD []).length + (x.path.getD []).length) =
      d ++ (x.extendBuffer.getD [] ++ x.path.getD []) := by
    rw [← List.append_assoc, ← List.append_assoc, ← List.append_assoc]
    refine List.take_left' ?_
    rw [List.length_append, List.length_append, hdlen]
    rfl
  unfold criticalItem
  rw [hext, hpath, hflags, hdata, htake]
  refine ⟨hb₁, hb₂, hb₃, ?_, rfl, ?_, rfl, ?_⟩
  · rw [hd]
    exact congrArg some (List.take_left' hdlen)
  · show (List.drop lenHash (d ++ _)).take (x.extendBuffer.getD []).length = _
    rw [List.drop_left' (show d.length = lenHash from hdlen), List.take_left]
  · show (List.drop (lenHash + (x.extendBuffer.getD []).length) (d ++ _)).take (x.path.getD []).length = _
    rw [← List.drop_drop, List.drop_left' (show d.length = lenHash from hdlen), List.drop_left, List.take_length]

theorem getItems_succ {n : ℕ} {p : Bytes} (h : recordSize p ≤ p.length) :
    getItems (n + 1) p = (getItems n (p.drop (align4 (recordSize p)))).map (criticalItem p :: ·) := by
  have h36 : 36 ≤ recordSize p := by
    unfold recordSize
    omega
  rw [getItems, if_neg (by omega), if_neg (by omega)]

/-- **Consistent items are read back.** -/
theorem getItems_encodeItems (hok : ∀ x ∈ items, checkItem x = .ok ()) (hc : ∀ x ∈ items, Consistent x) :
    ∃ ys, getItems items.length (encodeItems fill pos items) = .ok ys ∧ List.Forall₂ ParsesTo items ys := by
  induction items generalizing pos with
  | nil => exact ⟨[], rfl, List.Forall₂.nil⟩
  | cons x xs ih =>
      obtain ⟨hx, hxs⟩ := List.forall_mem_cons.mp hok
      obtain ⟨hcx, hcxs⟩ := List.forall_mem_cons.mp hc
      obtain ⟨ys, hys, hall⟩ := @ih (pos + encodedSize x) hxs hcxs
      have halign := @align4_encodeItem x fill pos hx hcx (encodeItems fill (pos + encodedSize x) xs)
      have hfits : recordSize (encodeItem fill pos x ++ encodeItems fill (pos + encodedSize x) xs) ≤
          (encodeItem fill pos x ++ encodeItems fill (pos + encodedSize x) xs).length := by
        rw [List.length_append, ← halign]
        exact (le_align4 _).trans (Nat.le_add_right _ _)
      refine ⟨criticalItem (encodeItem fill pos x ++ encodeItems fill (pos + encodedSize x) xs) :: ys, ?_,
        List.Forall₂.cons (criticalItem_encodeItem hx hcx _) hall⟩
      rw [List.length_cons, encodeItems, getItems_succ hfits, halign, List.drop_left, hys]
      rfl

/-- What a round of the loop that returns something has read. -/
theorem getItems_succ_ok {n : ℕ} {p : Bytes} (h : getItems (n + 1) p = .ok ys) :
    4 < p.length ∧ recordSize p ≤ p.length ∧
      ∃ ys', ys = criticalItem p :: ys' ∧ getItems n (p.drop (align4 (recordSize p))) = .ok ys' := by
  rw [getItems] at h
  split_ifs at h with h4 hsize
  refine ⟨not_le.mp h4, not_lt.mp hsize, ?_⟩
  cases hrest : getItems n (p.drop (align4 (recordSize p))) with
  | error err =>
      rw [hrest] at h
      exact nomatch h
  | ok ys' =>
      rw [hrest] at h
      exact ⟨ys', (Except.ok.inj h).symm, rfl⟩

/-- The header of a cut record declares the lengths of the item. -/
theorem consistent_of_criticalItem {size : ℕ} (hx : checkItem x = .ok ()) (hsize : 4 ≤ size)
    (hp : ParsesTo x (criticalItem ((encodeItem fill pos x ++ rest).take size))) : Consistent x := by
  obtain ⟨ht₁, ht₂, -⟩ := header_take hsize (encodeItem fill pos x ++ rest)
  obtain ⟨h₁, h₂, -⟩ := header_encodeItem fill pos x rest
  have hext : extendSize ((encodeItem fill pos x ++ rest).take size) = (x.extendBuffer.getD []).length :=
    hp.extendSize
  have hpath : pathLength ((encodeItem fill pos x ++ rest).take size) = (x.path.getD []).length := hp.pathLength
  exact (consistent_iff hx).mpr ⟨h₁.symm.trans (ht₁.symm.trans hext), h₂.symm.trans (ht₂.symm.trans hpath)⟩

/-- **Only consistent items are read back,** and only when all of their records are there, up to
the last padding. -/
theorem consistent_of_getItems {size : ℕ} (hok : ∀ x ∈ items, checkItem x = .ok ())
    (hget : getItems items.length ((encodeItems fill pos items).take size) = .ok ys)
    (hall : List.Forall₂ ParsesTo items ys) :
    (∀ x ∈ items, Consistent x) ∧ (items.map encodedSize).sum ≤ size + 3 := by
  induction items generalizing pos size ys with
  | nil => exact ⟨nofun, Nat.zero_le _⟩
  | cons x xs ih =>
      obtain ⟨hx, hxs⟩ := List.forall_mem_cons.mp hok
      rw [encodeItems] at hget
      generalize hrest : encodeItems fill (pos + encodedSize x) xs = rest at hget
      obtain ⟨h4, hfits, ys', rfl, hget'⟩ := getItems_succ_ok hget
      obtain ⟨hp, hps⟩ := List.forall₂_cons.mp hall
      have hlen : ((encodeItem fill pos x ++ rest).take size).length ≤ size := List.length_take_le _ _
      have hcx := consistent_of_criticalItem hx (by omega) hp
      have hrec : recordSize ((encodeItem fill pos x ++ rest).take size) = recordSize (encodeItem fill pos x ++ rest) := by
        obtain ⟨h₁, h₂, -⟩ := header_take (show 4 ≤ size by omega) (encodeItem fill pos x ++ rest)
        rw [recordSize, recordSize, h₁, h₂]
      have halign := @align4_encodeItem x fill pos hx hcx rest
      have hpad := align4_le (recordSize (encodeItem fill pos x ++ rest))
      have hsize := @length_encodeItem x fill pos
      rw [hrec, halign, List.drop_take, List.drop_left, ← hrest] at hget'
      obtain ⟨hcxs, hsum⟩ := ih hxs hget' hps
      refine ⟨List.forall_mem_cons.mpr ⟨hcx, hcxs⟩, ?_⟩
      rw [List.map_cons, List.sum_cons]
      by_cases hle : encodedSize x ≤ size
      · omega
      · -- nothing is left for another record
        cases xs with
        | nil =>
            rw [List.map_nil, List.sum_nil]
            omega
        | cons x' xs =>
            obtain ⟨h4', -⟩ := getItems_succ_ok hget'
            rw [List.length_take] at h4'
            omega

theorem length_of_getItems {n : ℕ} {p : Bytes} (h : getItems n p = .ok ys) : ys.length = n := by
  induction n generalizing p ys with
  | zero =>
      obtain rfl := Except.ok.inj h
      rfl
  | succ n ih =>
      obtain ⟨-, -, ys', rfl, hrest⟩ := getItems_succ_ok h
      rw [List.length_cons, ih hrest]

/-- What the reader does with a file that begins with a number. -/
theorem tcfGet_eq {e : GetEnv} (hg : e.Granted) {n : ℕ} (hn : n < 2 ^ 32) (d : Bytes) :
    tcfGetCriticalFileIntegrity e (some (hostBytes 4 n ++ d)) =
      if 4 + d.length ≤ maxFileSize then
        if int32 n < 0 then .error .nomem else getItems (int32 n).toNat d
      else .error .file := by
  have hlen : (hostBytes 4 n ++ d).length = 4 + d.length := by rw [List.length_append, length_hostBytes]
  have hnum : hostAt (hostBytes 4 n ++ d) 0 4 = n := @hostAt_append [] d 0 4 n rfl hn
  have hdrop : (hostBytes 4 n ++ d).drop 4 = d := List.drop_left' (length_hostBytes 4 n)
  have hne : hostBytes 4 n ++ d ≠ [] := by
    intro hnil
    rw [hnil, List.length_nil] at hlen
    omega
  unfold tcfGetCriticalFileIntegrity
  rw [hg.sem]
  dsimp only
  split_ifs with hmax hneg
  · have hread := httcUtilFileReadFull_eq_some.mpr ⟨hg.read, hlen ▸ hmax, hne, rfl⟩
    rw [hread]
    dsimp only
    rw [hnum, if_pos (.inr hneg)]
  · have hread := httcUtilFileReadFull_eq_some.mpr ⟨hg.read, hlen ▸ hmax, hne, rfl⟩
    rw [hread]
    dsimp only
    rw [hnum, hdrop, if_neg]
    exact not_or.mpr ⟨not_not.mpr hg.calloc, hneg⟩
  · cases hread : httcUtilFileReadFull e.read (some (hostBytes 4 n ++ d)) with
    | none => rfl
    | some f =>
        obtain ⟨-, hle, -⟩ := httcUtilFileReadFull_eq_some.mp hread
        exact absurd (hlen ▸ hle) hmax

end Get

/-- What a prepared update holds. -/
theorem prepared_update {fill : ℕ → UInt8} {items : List ItemUser} {tpcmId : Bytes} {action : UInt32}
    {replayCounter : UInt64} {u : FileIntegrityUpdate}
    (h : prepareUpdateCriticalFileIntegrity fill items tpcmId action replayCounter = .ok u) :
    (∀ x ∈ items, checkItem x = .ok ()) ∧ u.data = encodeItems fill 56 items ∧
      u.itemNumber = UInt32.ofNat items.length ∧ u.dataLength = UInt32.ofNat u.data.length := by
  unfold prepareUpdateCriticalFileIntegrity prepareUpdateFileIntegrity at h
  split_ifs at h with haction hid
  cases hp : prepareItems fill 56 items with
  | error r =>
      rw [hp] at h
      exact nomatch h
  | ok d =>
      rw [hp] at h
      obtain rfl := Except.ok.inj h
      obtain ⟨hok, rfl⟩ := prepareItems_ok hp
      exact ⟨hok, rfl, rfl, rfl⟩

section Stored

variable {fill : ℕ → UInt8} {items : List ItemUser} {tpcmId : Bytes} {action : UInt32} {replayCounter : UInt64}
  {u : FileIntegrityUpdate} {e : StoreEnv} {g : GetEnv} {old file : Option Bytes}

/-- **The file of a prepared list:** the number of the items and their records, cut to the length
that the update declares. -/
theorem file_of_prepared
    (hprep : prepareUpdateCriticalFileIntegrity fill items tpcmId action replayCounter = .ok u)
    (hstore : tcfUpdateCriticalFileIntegrity e u old = (none, file)) (hkept : e.Kept) :
    file = some (hostBytes 4 (items.length % 2 ^ 32) ++
      (encodeItems fill 56 items).take ((items.map encodedSize).sum % 2 ^ 32)) := by
  obtain ⟨-, hdata, hnum, hlength⟩ := prepared_update hprep
  have hmod : u.dataLength.toNat = (items.map encodedSize).sum % 2 ^ 32 := by
    rw [hlength, hdata, length_encodeItems, UInt32.toNat_ofNat']
  have hle : u.dataLength.toNat ≤ u.data.length := by
    rw [hmod, hdata, length_encodeItems]
    exact Nat.mod_le _ _
  rw [file_of_update hstore hkept hle, hmod, hdata, hnum, UInt32.toNat_ofNat']

theorem size_of_cut {t : ℕ} (h : t ≤ t % 2 ^ 32 + 3) : t % 2 ^ 32 = t ∧ min (t % 2 ^ 32) t = t := by
  omega

theorem number_of_short {n t : ℕ} (hn : n ≤ t) (ht : 4 + t ≤ maxFileSize) :
    t % 2 ^ 32 = t ∧ int32 ((n % 2 ^ 32 : ℕ) : ℤ) = n := by
  have hmax : maxFileSize = 104857600 := rfl
  rw [Nat.mod_eq_of_lt (by omega), Nat.mod_eq_of_lt (by omega)]
  exact ⟨rfl, int32_eq (by omega) (by omega)⟩

/-- **The items are returned exactly when** every null pointer comes with a length of zero and the
file has no more than 100 MiB. -/
theorem get_stored_iff (hprep : prepareUpdateCriticalFileIntegrity fill items tpcmId action replayCounter = .ok u)
    (hstore : tcfUpdateCriticalFileIntegrity e u old = (none, file)) (hkept : e.Kept) (hg : g.Granted) :
    Returns g file items ↔ (∀ x ∈ items, Consistent x) ∧ 4 + (items.map encodedSize).sum ≤ maxFileSize := by
  have hok := (prepared_update hprep).1
  have hlen := length_encodeItems fill 56 items
  have hcount : items.length ≤ (items.map encodedSize).sum := by
    rw [← List.length_map encodedSize]
    refine List.length_le_sum_of_one_le _ fun n hn => ?_
    obtain ⟨x, -, rfl⟩ := List.mem_map.mp hn
    rw [encodedSize]
    omega
  have hnum : items.length % 2 ^ 32 < 2 ^ 32 := Nat.mod_lt _ (by decide)
  rw [file_of_prepared hprep hstore hkept, Returns, tcfGet_eq hg hnum, List.length_take, hlen]
  constructor
  · rintro ⟨ys, hget, hall⟩
    split_ifs at hget with hmax hneg
    have hrounds := length_of_getItems hget
    rw [← hrounds, ← hall.length_eq] at hget
    obtain ⟨hc, hsum⟩ := consistent_of_getItems hok hget hall
    exact ⟨hc, (size_of_cut hsum).2 ▸ hmax⟩
  · rintro ⟨hc, hmax⟩
    obtain ⟨ys, hget, hall⟩ := @getItems_encodeItems fill 56 items hok hc
    obtain ⟨hcut, hint⟩ := number_of_short hcount hmax
    refine ⟨ys, ?_, hall⟩
    rw [hcut, Nat.min_self, if_pos hmax, hint, if_neg (not_lt.mpr (Int.natCast_nonneg _)), Int.toNat_natCast,
      ← hlen, List.take_length, hget]

end Stored

end FileIntegrity
end TsbAgent
