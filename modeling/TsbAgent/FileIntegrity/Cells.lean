/-
# The cells of the reference file

`integrity.data` is cut into cells, each a record and its padding up to a multiple of 4; only the last may lack
some of it (`Laid`).  What `buffer_to_item_array` finds are the pointers to the cells, and the nodes of the table
are the cells whose digest is not zero.  On the cells

* padding fills up the last one (`Laid.pad`), so that others can follow (`Laid.append`);
* a delete writes over a cell behind its header and leaves its size as it is, so that every other cell stays where
  it is (`laid_wipe`), and the nodes are the old ones without those at the places written to (`nodesOf_wipe`).
-/

import TsbAgent.FileIntegrity.Store

namespace TsbAgent
namespace FileIntegrity
namespace Store

open Libc File

/-- The file is cut into cells, each a record with its padding; the last may lack some of it. -/
inductive Laid : List Bytes → Bytes → Prop
  | nil : Laid [] []
  | last {c : Bytes} : recordSize c ≤ c.length → c.length ≤ align4 (recordSize c) → Laid [c] c
  | cons {c f : Bytes} {cells : List Bytes} :
      c.length = align4 (recordSize c) → Laid cells f → Laid (c :: cells) (c ++ f)

/-- The pointers to the cells. -/
def pointers : List Bytes → List Bytes
  | [] => []
  | c :: cells => (c :: cells).flatten :: pointers cells

/-- The records that are not deleted. -/
def live (cells : List Bytes) : List Bytes := (cells.filter fun c => itemHash c ≠ Digest.zero).map record

/-- The nodes of the cells. -/
def nodesOf : ℕ → List Bytes → List Node
  | _, [] => []
  | pos, c :: cells =>
      if itemHash c = Digest.zero then nodesOf (pos + align4 (recordSize c)) cells
      else addToHashTable c pos :: nodesOf (pos + align4 (recordSize c)) cells

section Cells

variable {c f g : Bytes} {cells : List Bytes} {pos : ℕ}

theorem recordSize_pos (item : Bytes) : 36 ≤ recordSize item := by
  rw [recordSize]
  omega

theorem align4_mod (n : ℕ) : align4 n % 4 = 0 := by
  rw [align4]
  split_ifs <;> omega

theorem align4_of_between {m n : ℕ} (h₁ : n ≤ m) (h₂ : m ≤ align4 n) : align4 m = align4 n := by
  rw [align4] at h₂ ⊢
  rw [align4]
  split_ifs at h₂ ⊢ <;> omega

theorem align4_add {m : ℕ} (h : m % 4 = 0) (n : ℕ) : align4 (m + n) = m + align4 n := by
  rw [align4, align4, Nat.add_mod, h, Nat.zero_add, Nat.mod_mod]
  split_ifs
  · rfl
  · omega

/-- What is read from a record is in its own bytes. -/
theorem item_eq_append (h : recordSize c ≤ c.length) (r : Bytes) :
    recordSize (c ++ r) = recordSize c ∧ record (c ++ r) = record c ∧
      itemHash (c ++ r) = itemHash c ∧ itemPath (c ++ r) = itemPath c ∧
        FileIntegrity.pathLength (c ++ r) = FileIntegrity.pathLength c := by
  have h36 := recordSize_pos c
  have hsize := recordSize_append (h := c) (by omega) r
  refine ⟨hsize, ?_, (item_append h r).1, (item_append h r).2, (header_append (h := c) (by omega) r).2.1⟩
  rw [record, record, hsize, List.take_append_of_le_length h]

theorem recordSize_record (c : Bytes) : recordSize (record c) = recordSize c := by
  have h36 := recordSize_pos c
  obtain ⟨h₁, h₂, -⟩ := header_take (n := recordSize c) (by omega) c
  rw [recordSize, record, h₁, h₂, ← recordSize]

theorem length_record (h : recordSize c ≤ c.length) : (record c).length = recordSize c :=
  List.length_take_of_le h

/-- A record has the digest and the path of its cell. -/
theorem item_record (h : recordSize c ≤ c.length) :
    itemHash (record c) = itemHash c ∧ itemPath (record c) = itemPath c ∧
      extendSize (record c) = extendSize c ∧ FileIntegrity.pathLength (record c) = FileIntegrity.pathLength c := by
  have h36 := recordSize_pos c
  have hrec : recordSize (record c) ≤ (record c).length := by rw [recordSize_record, length_record h]
  have hitem := item_append hrec (c.drop (recordSize c))
  rw [record, List.take_append_drop] at hitem
  obtain ⟨h₁, h₂, -⟩ := header_take (n := recordSize c) (by omega) c
  exact ⟨hitem.1.symm, hitem.2.symm, h₁, h₂⟩

theorem Laid.flatten (h : Laid cells f) : f = cells.flatten := by
  induction h with
  | nil => rfl
  | last => exact (List.flatten_singleton).symm
  | cons _ _ ih => rw [List.flatten_cons, ← ih]

theorem Laid.fits (h : Laid cells f) : ∀ c ∈ cells, recordSize c ≤ c.length := by
  induction h with
  | nil => exact List.forall_mem_nil _
  | last hfit => exact List.forall_mem_singleton.mpr hfit
  | cons hlen _ ih => exact List.forall_mem_cons.mpr ⟨hlen ▸ le_align4 _, ih⟩

theorem Laid.eq_nil (h : Laid cells []) : cells = [] := by
  cases cells with
  | nil => rfl
  | cons c cells =>
      have h36 := recordSize_pos c
      have hfit := h.fits c List.mem_cons_self
      obtain rfl := (List.append_eq_nil_iff.mp (h.flatten.trans List.flatten_cons).symm).1
      exact absurd hfit (not_le.mpr (Nat.lt_of_lt_of_le (by decide) h36))

/-- **The pointers of `buffer_to_item_array`** are those to the cells. -/
theorem Laid.split (h : Laid cells f) : bufferToItemArray f f.length = .ok (pointers cells) := by
  induction h with
  | nil => rfl
  | @last c hfit hle =>
      have h36 := recordSize_pos c
      rw [bufferToItemArray_eq, if_neg (by omega), if_pos hfit, if_pos hle]
      show _ = Except.ok [[c].flatten]
      rw [List.flatten_singleton]
  | @cons c f cells hlen hlaid ih =>
      have h36 := recordSize_pos c
      have hle := le_align4 (recordSize c)
      have hsize := (item_eq_append (hlen ▸ hle : recordSize c ≤ c.length) f).1
      have hpoint : pointers (c :: cells) = (c ++ f) :: pointers cells := by
        rw [pointers, List.flatten_cons, ← hlaid.flatten]
      rw [bufferToItemArray_eq, hsize, List.length_append, if_neg (by omega), if_pos (by omega), hpoint]
      by_cases hnil : f.length = 0
      · obtain rfl := List.length_eq_zero_iff.mp hnil
        rw [if_pos (by omega)]
        rw [List.length_nil] at ih
        rw [← Except.ok.inj (show (.ok [] : Except ℤ (List Bytes)) = .ok (pointers cells) from ih)]
      · rw [if_neg (by omega), ← hlen, List.drop_left, Nat.add_sub_cancel_left, ih]
        rfl

/-- A buffer that is split has cells. -/
theorem exists_laid {n : ℕ} {items : List Bytes} (h : bufferToItemArray f f.length = .ok items)
    (hn : f.length ≤ n) : ∃ cells, Laid cells f ∧ items = pointers cells := by
  induction n generalizing f items with
  | zero =>
      obtain rfl := List.length_eq_zero_iff.mp (Nat.le_zero.mp hn)
      exact ⟨[], Laid.nil, (Except.ok.inj h).symm⟩
  | succ n ih =>
      have h36 := recordSize_pos f
      have hle := le_align4 (recordSize f)
      rw [bufferToItemArray_eq] at h
      split_ifs at h with hnil hfit hlast
      · obtain rfl := List.length_eq_zero_iff.mp hnil
        exact ⟨[], Laid.nil, (Except.ok.inj h).symm⟩
      · refine ⟨[f], Laid.last hfit hlast, ?_⟩
        rw [← Except.ok.inj h]
        show _ = [[f].flatten]
        rw [List.flatten_singleton]
      · rw [← List.length_drop] at h
        cases hrest : bufferToItemArray (f.drop (align4 (recordSize f))) (f.drop (align4 (recordSize f))).length with
        | error e =>
            rw [hrest] at h
            cases h
        | ok rest =>
            rw [hrest] at h
            obtain rfl := Except.ok.inj h
            obtain ⟨cells, hcells, rfl⟩ := ih hrest (by rw [List.length_drop]; omega)
            have hlen : (f.take (align4 (recordSize f))).length = align4 (recordSize f) :=
              List.length_take_of_le (by omega)
            have hhead : recordSize (f.take (align4 (recordSize f))) = recordSize f := by
              obtain ⟨h₁, h₂, -⟩ := header_take (n := align4 (recordSize f)) (by omega) f
              rw [recordSize, h₁, h₂, ← recordSize]
            have hlaid := Laid.cons (c := f.take (align4 (recordSize f))) (hlen.trans (by rw [hhead])) hcells
            rw [List.take_append_drop] at hlaid
            refine ⟨_, hlaid, ?_⟩
            rw [pointers, ← hlaid.flatten]

theorem error_of_split {n size : ℕ} {item : Bytes} {e : ℤ} (h : bufferToItemArray item size = .error e)
    (hn : size ≤ n) : e = tcfErrBadData := by
  induction n generalizing item size with
  | zero =>
      obtain rfl := Nat.le_zero.mp hn
      cases h
  | succ n ih =>
      have h36 := recordSize_pos item
      have hle := le_align4 (recordSize item)
      rw [bufferToItemArray_eq] at h
      split_ifs at h
      · cases hrest : bufferToItemArray (item.drop (align4 (recordSize item))) (size - align4 (recordSize item)) with
        | error e' =>
            rw [hrest] at h
            obtain rfl := Except.error.inj h
            exact ih hrest (by omega)
        | ok rest =>
            rw [hrest] at h
            cases h
      · exact (Except.error.inj h).symm

/-- The nodes that the loop makes. -/
theorem Laid.nodes (h : Laid cells f) (pos : ℕ) : addListToHashTable pos (pointers cells) = nodesOf pos cells := by
  have hfits := h.fits
  clear h
  induction cells generalizing pos with
  | nil => rfl
  | cons c cells ih =>
      obtain ⟨hc, hcs⟩ := List.forall_mem_cons.mp hfits
      obtain ⟨hsize, hrec, hhash, -, hlen⟩ := item_eq_append hc cells.flatten
      rw [pointers, addListToHashTable, List.flatten_cons, hhash, hsize, ih _ hcs, nodesOf, addToHashTable,
        hsize, hlen]
      rw [record, record, hsize] at hrec
      rw [hrec]
      rfl

theorem map_data_nodesOf (pos : ℕ) (cells : List Bytes) : (nodesOf pos cells).map Node.data = live cells := by
  induction cells generalizing pos with
  | nil => rfl
  | cons c cells ih =>
      rw [nodesOf, live]
      split_ifs with hzero
      · rw [List.filter_cons_of_neg (by simpa using hzero), ih, live]
      · rw [List.filter_cons_of_pos (by simpa using hzero), List.map_cons, List.map_cons, ih, live]
        rfl

theorem Laid.records (h : Laid cells f) : records f = cells.map record := by
  rw [Store.records, h.split]
  have hfits := h.fits
  clear h
  dsimp only
  induction cells with
  | nil => rfl
  | cons c cells ih =>
      obtain ⟨hc, hcs⟩ := List.forall_mem_cons.mp hfits
      rw [pointers, List.map_cons, List.map_cons, List.flatten_cons, (item_eq_append hc _).2.1, ih hcs]

theorem hash_record_eq (h : Laid cells f) (hnz : ∀ r ∈ records f, itemHash r ≠ Digest.zero) :
    live cells = records f := by
  rw [h.records] at hnz ⊢
  rw [live, List.filter_eq_self.mpr]
  intro c hc
  have hne := hnz _ (List.mem_map_of_mem hc)
  rw [(item_record (h.fits c hc)).1] at hne
  simpa using hne

end Cells

/-! ### Setting and appending -/

section Append

variable {f g : Bytes} {cells more : List Bytes}

/-- A file that ends with a whole cell is gone on with. -/
theorem Laid.append (h : Laid cells f) (hdvd : 4 ∣ f.length) (hmore : Laid more g) :
    Laid (cells ++ more) (f ++ g) := by
  induction h with
  | nil => exact hmore
  | @last c hfit hle =>
      have hlen : c.length = align4 (recordSize c) := by
        rw [← align4_of_between hfit hle, align4, if_pos (Nat.mod_eq_zero_of_dvd hdvd)]
      exact Laid.cons hlen hmore
  | @cons c f cells hlen hlaid ih =>
      rw [List.length_append, hlen] at hdvd
      have hmod := align4_mod (recordSize c)
      rw [List.cons_append, List.append_assoc]
      exact Laid.cons hlen (ih (by omega))

/-- The bytes that `file_integrity_add` fills with. -/
def padding (f : Bytes) : Bytes := List.replicate (align4 f.length - f.length) 0

theorem length_padding (f : Bytes) : (f ++ padding f).length = align4 f.length := by
  have hle := le_align4 f.length
  rw [List.length_append, padding, List.length_replicate]
  omega

/-- The padding ends the last cell. -/
theorem Laid.pad (h : Laid cells f) : ∃ cells', Laid cells' (f ++ padding f) ∧ live cells' = live cells := by
  induction h with
  | nil => exact ⟨[], Laid.nil, rfl⟩
  | @last c hfit hle =>
      obtain ⟨hsize, hrec, hhash, -⟩ := item_eq_append hfit (padding c)
      have hlen : (c ++ padding c).length = align4 (recordSize (c ++ padding c)) := by
        rw [length_padding, hsize, align4_of_between hfit hle]
      refine ⟨[c ++ padding c], Laid.last (hlen ▸ le_align4 _) hlen.le, ?_⟩
      rw [live, live]
      simp only [List.filter_cons, List.filter_nil, hhash]
      split_ifs
      · rw [List.map_singleton, List.map_singleton, hrec]
      · rfl
  | @cons c f cells hlen hlaid ih =>
      obtain ⟨cells', hlaid', hlive⟩ := ih
      have hmod := align4_mod (recordSize c)
      have hpad : padding (c ++ f) = padding f := by
        rw [padding, padding, List.length_append, align4_add (by omega), Nat.add_sub_add_left]
      refine ⟨c :: cells', ?_, ?_⟩
      · rw [hpad, List.append_assoc]
        exact Laid.cons hlen hlaid'
      · rw [live, List.filter_cons, live, List.filter_cons]
        split_ifs
        · rw [List.map_cons, List.map_cons]
          exact congrArg (record c :: ·) hlive
        · exact hlive

theorem live_append (cells more : List Bytes) : live (cells ++ more) = live cells ++ live more := by
  rw [live, List.filter_append, List.map_append]
  rfl

end Append

/-! ### Deleting in place -/

section Wipe

variable {beyond : ℕ → UInt8} {c f r b : Bytes} {cells : List Bytes} {pos : ℕ} {l m : List ℕ}

theorem length_zeroBuffer (n : ℕ) : (zeroBuffer beyond n).length = n := by
  rw [zeroBuffer, List.length_map, List.length_range]

/-- The first bytes of the buffer are zero. -/
theorem take_zeroBuffer {n : ℕ} (h : 32 ≤ n) : (zeroBuffer beyond n).take 32 = List.replicate 32 0 := by
  refine List.eq_replicate_iff.mpr ⟨?_, fun x hx => ?_⟩
  · rw [List.length_take, length_zeroBuffer]
    omega
  · rw [zeroBuffer, ← List.map_take, List.take_range, Nat.min_eq_left h] at hx
    obtain ⟨i, hi, rfl⟩ := List.mem_map.mp hx
    rw [if_pos (by have hlt := List.mem_range.mp hi; omega)]

variable (beyond) in
/-- A cell after it has been deleted. -/
def wipeCell (c : Bytes) : Bytes := c.take 4 ++ zeroBuffer beyond (align4 (recordSize c) - 4)

theorem recordSize_of_take (h : 4 ≤ c.length) (r : Bytes) : recordSize (c.take 4 ++ r) = recordSize c := by
  obtain ⟨h₁, h₂, -⟩ := header_take le_rfl c
  rw [recordSize_append (by rw [List.length_take]; omega), recordSize, h₁, h₂, ← recordSize]

theorem length_wipeCell (h : 4 ≤ c.length) : (wipeCell beyond c).length = align4 (recordSize c) := by
  have h36 := recordSize_pos c
  have hle := le_align4 (recordSize c)
  rw [wipeCell, List.length_append, length_zeroBuffer, List.length_take]
  omega

theorem itemHash_wipeCell (h : 4 ≤ c.length) : itemHash (wipeCell beyond c) = Digest.zero := by
  have h36 := recordSize_pos c
  have hle := le_align4 (recordSize c)
  have hdrop : itemData (wipeCell beyond c) = zeroBuffer beyond (align4 (recordSize c) - 4) :=
    List.drop_left' (by rw [List.length_take]; omega)
  refine Subtype.ext ?_
  show (itemData (wipeCell beyond c)).takeD lenHash 0 = _
  rw [hdrop, List.takeD_eq_take _ (by rw [length_zeroBuffer]; show 32 ≤ _; omega)]
  exact take_zeroBuffer (by omega)

variable (beyond) in
/-- The cells at the offsets of `l` are deleted. -/
def wipe (l : List ℕ) : ℕ → List Bytes → List Bytes
  | _, [] => []
  | pos, c :: cells => (if pos ∈ l then wipeCell beyond c else c) :: wipe l (pos + align4 (recordSize c)) cells

/-- The places of the cells. -/
def places : ℕ → List Bytes → List (ℕ × ℕ)
  | _, [] => []
  | pos, c :: cells => (pos, align4 (recordSize c)) :: places (pos + align4 (recordSize c)) cells

theorem le_of_mem_places {o a : ℕ} (h : (o, a) ∈ places pos cells) : pos ≤ o := by
  induction cells generalizing pos with
  | nil => exact absurd h List.not_mem_nil
  | cons c cells ih =>
      rcases List.mem_cons.mp h with heq | hmem
      · exact (Prod.mk.inj heq).1.ge
      · exact le_trans (Nat.le_add_right _ _) (ih hmem)

theorem wipe_congr (h : ∀ x, pos ≤ x → (x ∈ l ↔ x ∈ m)) : wipe beyond l pos cells = wipe beyond m pos cells := by
  induction cells generalizing pos with
  | nil => rfl
  | cons c cells ih =>
      rw [wipe, wipe, ih fun x hx => h x (le_trans (Nat.le_add_right _ _) hx)]
      simp only [h pos le_rfl]

theorem wipe_nil : wipe beyond [] pos cells = cells := by
  induction cells generalizing pos with
  | nil => rfl
  | cons c cells ih => rw [wipe, if_neg List.not_mem_nil, ih]

theorem laid_cons_iff : Laid (c :: cells) f ↔
    (∃ g, f = c ++ g ∧ c.length = align4 (recordSize c) ∧ Laid cells g) ∨
      cells = [] ∧ f = c ∧ recordSize c ≤ c.length ∧ c.length ≤ align4 (recordSize c) := by
  constructor
  · intro h
    cases h with
    | last hfit hle => exact Or.inr ⟨rfl, rfl, hfit, hle⟩
    | @cons _ g _ hlen hlaid => exact Or.inl ⟨g, rfl, hlen, hlaid⟩
  · rintro (⟨g, rfl, hlen, hlaid⟩ | ⟨rfl, rfl, hfit, hle⟩)
    · exact Laid.cons hlen hlaid
    · exact Laid.last hfit hle

/-- The head of a file with deleted cells: its size and its first bytes are as before. -/
theorem head_wipe (h : recordSize c ≤ c.length) (p : Prop) [Decidable p] :
    recordSize (if p then wipeCell beyond c else c) = recordSize c ∧
      (if p then wipeCell beyond c else c).take 4 = c.take 4 ∧
        recordSize c ≤ (if p then wipeCell beyond c else c).length := by
  have h36 := recordSize_pos c
  split_ifs
  · refine ⟨recordSize_of_take (by omega) _, ?_, ?_⟩
    · rw [wipeCell, List.take_left' (by rw [List.length_take]; omega)]
    · rw [length_wipeCell (by omega)]
      exact le_align4 _
  · exact ⟨rfl, rfl, h⟩

/-- **Deleting one more cell.** -/
theorem laid_wipe {o a : ℕ} (hfits : ∀ c ∈ cells, recordSize c ≤ c.length)
    (hlaid : Laid (wipe beyond l pos cells) f) (hplace : (o, a) ∈ places pos cells) :
    Laid (wipe beyond (o :: l) pos cells) (patch f (o - pos + 4) (zeroBuffer beyond (a - 4))) := by
  induction cells generalizing pos f with
  | nil => exact absurd hplace List.not_mem_nil
  | cons c cells ih =>
      obtain ⟨hfit, hfits⟩ := List.forall_mem_cons.mp hfits
      have h36 := recordSize_pos c
      have hle := le_align4 (recordSize c)
      obtain ⟨hsize, htake, hlong⟩ := @head_wipe beyond c hfit (pos ∈ l) _
      rw [wipe] at hlaid ⊢
      rcases List.mem_cons.mp hplace with heq | hmem
      · obtain ⟨rfl, rfl⟩ := Prod.mk.inj heq
        have htail : wipe beyond (o :: l) (o + align4 (recordSize c)) cells =
            wipe beyond l (o + align4 (recordSize c)) cells := by
          refine wipe_congr fun x hx => ?_
          rw [List.mem_cons, or_iff_right (by omega)]
        rw [if_pos List.mem_cons_self, htail, Nat.sub_self, Nat.zero_add]
        have hlast : (wipeCell beyond c).length = align4 (recordSize (wipeCell beyond c)) := by
          rw [length_wipeCell (by omega), wipeCell, recordSize_of_take (by omega)]
        rcases laid_cons_iff.mp hlaid with ⟨g, rfl, hlen, hrest⟩ | ⟨hnil, rfl, -, hshort⟩
        · rw [patch_append_right (by rw [length_zeroBuffer, hlen, hsize]; omega), htake]
          exact Laid.cons hlast hrest
        · rw [hnil, patch_tail (by omega) (by rw [length_zeroBuffer, ← hsize]; omega), htake]
          exact Laid.last (hlast ▸ le_align4 _) hlast.le
      · have hbefore := le_of_mem_places hmem
        have hhead : (pos ∈ o :: l) ↔ pos ∈ l := by
          rw [List.mem_cons, or_iff_right (by omega)]
        simp only [hhead]
        rcases laid_cons_iff.mp hlaid with ⟨g, rfl, hlen, hrest⟩ | ⟨hnil, -, -, -⟩
        · rw [show o - pos + 4 = (if pos ∈ l then wipeCell beyond c else c).length +
            (o - (pos + align4 (recordSize c)) + 4) by rw [hlen, hsize]; omega, patch_append_left]
          exact Laid.cons hlen (ih hfits hrest hmem)
        · cases cells with
          | nil => exact absurd hmem List.not_mem_nil
          | cons d cells => exact absurd hnil (List.cons_ne_nil _ _)

/-- The nodes that are left. -/
theorem nodesOf_wipe (hfits : ∀ c ∈ cells, recordSize c ≤ c.length) :
    nodesOf pos (wipe beyond l pos cells) = (nodesOf pos cells).filter fun n => n.offset ∉ l := by
  induction cells generalizing pos with
  | nil => rfl
  | cons c cells ih =>
      obtain ⟨hfit, hfits⟩ := List.forall_mem_cons.mp hfits
      have h36 := recordSize_pos c
      rw [wipe, nodesOf, (head_wipe hfit (pos ∈ l)).1, ih hfits, nodesOf]
      by_cases hpos : pos ∈ l
      · rw [if_pos hpos, if_pos (itemHash_wipeCell (by omega))]
        split_ifs with hzero
        · rfl
        · have hdrop : ¬ decide ((addToHashTable c pos).offset ∉ l) = true := by
            rw [decide_eq_true_iff]
            exact not_not.mpr hpos
          rw [List.filter_cons, if_neg hdrop]
      · rw [if_neg hpos]
        split_ifs with hzero
        · rfl
        · have hkeep : decide ((addToHashTable c pos).offset ∉ l) = true := decide_eq_true hpos
          rw [List.filter_cons, if_pos hkeep]

/-- **The writes of a delete**, when the system takes them all. -/
theorem writeSections_spec {room : ℕ → ℕ} {i : ℕ} {dellist : List Node}
    (hfits : ∀ c ∈ cells, recordSize c ≤ c.length) (hlaid : Laid (wipe beyond l 0 cells) f)
    (hplaces : ∀ n ∈ dellist, (n.offset, n.alignedSize) ∈ places 0 cells)
    (hroom : ∀ n ∈ dellist, ∀ i, n.alignedSize - 4 ≤ room i) :
    ∃ f', writeSections room i f (dellist.map (nodeSection beyond)) = (0, f') ∧
      Laid (wipe beyond ((dellist.map Node.offset).reverse ++ l) 0 cells) f' := by
  induction dellist generalizing f i l with
  | nil => exact ⟨f, rfl, hlaid⟩
  | cons n dellist ih =>
      obtain ⟨hn, hns⟩ := List.forall_mem_cons.mp hplaces
      obtain ⟨hr, hrs⟩ := List.forall_mem_cons.mp hroom
      obtain ⟨f', hrun, hlaid'⟩ := ih (i := i + 1) (laid_wipe hfits hlaid hn) hns hrs
      refine ⟨f', ?_, ?_⟩
      · rw [List.map_cons, writeSections, nodeSection, length_zeroBuffer, if_neg (not_lt.mpr (hr i))]
        exact hrun
      · rw [List.map_cons, List.reverse_cons, List.append_assoc]
        exact hlaid'

end Wipe

end Store
end FileIntegrity
end TsbAgent
